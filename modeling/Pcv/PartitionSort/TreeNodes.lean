import Pcv.Library.Forest
import Pcv.PartitionSort.BTreeNodeNavigator
import Pcv.PartitionSort.LayeredTree

/-!
# The nodes of a tree

A node has links to its children and to the next layers of its keys.  The footprint that
`Denotes` keeps account of is what these links lead to from the root of the tree, with every
node counted once for each link to it.  `destroyNode` follows the same links, and gives back
what it finds.
-/

namespace Pcv

open DynamicMempool

variable {V : Type}

/-- The nodes that a node has links to: its children, unless it is a leaf, and the roots of
the next layers of its keys. -/
def Node.links (nd : Node V) : List ℕ :=
  (if nd.isLeaf then [] else (List.range (nd.keyCnt + 1)).filterMap fun i => nd.childIndex.get i) ++
    (List.range nd.keyCnt).filterMap fun i => nd.nextLevel.get i

variable {cfg : BTreeCfg} {sh : CompressedShape} {mem : Store (Node V)} {lvl : ℕ}
variable {t : Trie Range1d V} {fp fpI rest : Multiset ℕ} {its ks : List (KeyInfo V)}

/-- A list is read off slot by slot. -/
theorem filterMap_range {α β : Type} (l : List α) (f : α → Option β) (g : ℕ → Option β)
    (h : ∀ i x, l[i]? = some x → g i = f x) : (List.range l.length).filterMap g = l.filterMap f := by
  induction l using List.reverseRecOn with
  | nil => rfl
  | append_singleton l x ih =>
      have hx := h l.length x (by simp)
      rw [List.length_append, List.length_singleton, List.range_succ, List.filterMap_append,
        List.filterMap_append, ih fun i y hy => h i y ?_]
      · simp [List.filterMap_cons, hx]
      · rw [List.getElem?_append_left (List.getElem?_eq_some_iff.mp hy).1, hy]

/-- The next layers of the keys of a node. -/
theorem Node.nextLayers_eq {nd : Node V} (hcnt : nd.keyCnt = ks.length)
    (hget : ∀ i, i < ks.length → ks[i]? = some (nd.getKey i)) :
    (List.range nd.keyCnt).filterMap (fun i => nd.nextLevel.get i) =
      ks.filterMap KeyInfo.nextLevel := by
  rw [hcnt]
  refine filterMap_range _ _ _ fun i x hx => ?_
  have := hget i (List.getElem?_eq_some_iff.mp hx).1
  rw [hx, Option.some.injEq] at this
  rw [this]
  rfl

theorem Node.Holds.links {nd : Node V} {par : Option ℕ} (hn : nd.Holds par ks)
    (hleaf : nd.isLeaf = true) : nd.links = ks.filterMap KeyInfo.nextLevel := by
  rw [Node.links, if_pos hleaf, List.nil_append, Node.nextLayers_eq hn.keyCnt hn.getKey]

theorem Node.InnerNode.links {nd : Node V} {par : Option ℕ} {cs : List ℕ}
    (hn : nd.InnerNode par ks cs) (hlen : cs.length = ks.length + 1) :
    nd.links = cs ++ ks.filterMap KeyInfo.nextLevel := by
  rw [Node.links, if_neg (by simp [hn.isLeaf]), Node.nextLayers_eq hn.keyCnt hn.getKey, hn.keyCnt,
    ← hlen, filterMap_range cs some _ fun i c hc => ?_, List.filterMap_some]
  rw [← hn.child i (List.getElem?_eq_some_iff.mp hc).1, hc]

theorem Node.CompressedNode.links {nd : Node V} {init : List (KeyInfo V)} {last : KeyInfo V}
    (hn : nd.CompressedNode cfg sh lvl init last) : nd.links = last.nextLevel.toList := by
  have hkeys : (init ++ [last]).filterMap KeyInfo.nextLevel = last.nextLevel.toList := by
    rw [List.filterMap_append, List.filterMap_eq_nil_iff.mpr hn.nextLevel, List.nil_append]
    cases h : last.nextLevel <;> simp [h]
  rw [Node.links, if_pos hn.isLeaf, List.nil_append, ← hkeys]
  exact Node.nextLayers_eq (by simpa using hn.keyCnt) fun i hi => hn.getKey i (by simpa using hi)

/-! ## What the links lead to -/

/-- The links of a part of a tree. -/
def Part.links : Part V → List ℕ
  | .link l => l.toList
  | .items its => its.filterMap KeyInfo.nextLevel

section Layer

variable {links : ℕ → List ℕ} {P : ℕ → List (KeyInfo V) → Multiset ℕ → Prop} {cs : List ℕ}

/-- The children of a node, and the next layers of its keys. -/
theorem Chain.spans (h : Chain P ks cs its fp)
    (hP : ∀ c its fp fpI, P c its fp → Spans links (its.filterMap KeyInfo.nextLevel) fpI →
      Spans links [c] (fp + fpI)) (hits : Spans links (its.filterMap KeyInfo.nextLevel) fpI) :
    Spans links (cs ++ ks.filterMap KeyInfo.nextLevel) (fp + fpI) := by
  induction h generalizing fpI with
  | last hc => simpa using hP _ _ _ _ hc hits
  | @cons c cs k ks its its' fp fp' hc _ ih =>
      rw [List.filterMap_append] at hits
      obtain ⟨fp₁, fp₂, rfl, h₁, h₂⟩ := hits.of_append
      rw [← List.singleton_append, List.filterMap_append] at h₂
      obtain ⟨fpK, fp₃, rfl, hk, h₃⟩ := h₂.of_append
      have := (hP _ _ _ _ hc h₁).append (hk.append (ih h₃))
      rw [show fp + fp' + (fp₁ + (fpK + fp₃)) = fp + fp₁ + (fpK + (fp' + fp₃)) by abel]
      refine this.perm ?_
      have hks : (k :: ks).filterMap KeyInfo.nextLevel =
          [k].filterMap KeyInfo.nextLevel ++ ks.filterMap KeyInfo.nextLevel :=
        List.filterMap_append (l := [k])
      rw [hks, List.singleton_append, List.cons_append]
      refine List.Perm.cons _ ?_
      rw [← List.append_assoc, ← List.append_assoc]
      exact List.perm_append_comm.append_right _

end Layer

/-- From the root of a layer one gets to its nodes and to what is below its keys. -/
theorem Layer.spans {h : ℕ} {par : Option ℕ} {n : ℕ} (hL : Layer cfg mem h par n its fp)
    (hits : Spans (fun n => (mem.get n).links) (its.filterMap KeyInfo.nextLevel) fpI) :
    Spans (fun n => (mem.get n).links) [n] (fp + fpI) := by
  induction h generalizing par n its fp fpI with
  | zero =>
      obtain ⟨hn, -, rfl⟩ := hL
      rw [Multiset.singleton_add]
      refine .single ?_
      rwa [hn.toHolds.links hn.isLeaf]
  | succ h ih =>
      obtain ⟨ks, cs, fp', hn, -, -, hch, rfl⟩ := hL
      rw [Multiset.cons_add]
      refine .single ?_
      rw [hn.links hch.length_eq]
      exact hch.spans (fun c its fp fpI hc => ih hc.1) hits

/-- The footprint of a part of a tree is what its links lead to. -/
theorem Denotes.spans {part : Part V} (hd : Denotes cfg sh mem lvl part t fp) :
    Spans (fun n => (mem.get n).links) part.links fp := by
  induction hd with
  | null => exact .nil
  | layer _ hL _ _ _ ih => exact hL.spans ih
  | compressed _ hn _ ih =>
      refine .single ?_
      rw [hn.links]
      exact ih
  | nil => exact .nil
  | @cons _ x its _ _ _ _ _ _ ih ih' =>
      rw [Part.links, ← List.singleton_append, List.filterMap_append]
      refine Spans.append ?_ ih'
      cases h : x.nextLevel <;> simpa [Part.links, h] using ih

/-! ## Giving back a tree -/

section Destroy

variable {E : Fault → NodeAllocator V → Prop} {p : NodeAllocator V} {fuel n : ℕ}

/-- `destroyNode` gives back what a link leads to, in the memory as it is. -/
def Destroys (E : Fault → NodeAllocator V → Prop) (fuel : ℕ) : Prop :=
  ∀ (p : NodeAllocator V) (l : Option ℕ) (fp rest : Multiset ℕ),
    Spans (fun n => (p.mempool.get n).links) l.toList fp → Owns p (fp + rest) → fp.card ≤ fuel →
    Ensures E (BTree.destroyNode fuel l) p fun _ p' => Owns p' rest ∧ p'.mempool = p.mempool

theorem Destroys.ensures_destroyLinks (ih : Destroys E fuel) (link : Node V → ℕ → Option ℕ)
    {cnt i : ℕ}
    (hspans : Spans (fun n => (p.mempool.get n).links)
      ((List.range' i cnt).filterMap (link (p.mempool.get n))) fp)
    (ho : Owns p (fp + rest)) (hcard : fp.card ≤ fuel) :
    Ensures E (BTree.destroyLinks (BTree.destroyNode fuel) link n cnt i) p fun _ p' =>
      Owns p' rest ∧ p'.mempool = p.mempool := by
  induction cnt generalizing p i fp with
  | zero =>
      cases hspans
      exact Ensures.pure ⟨by simpa using ho, rfl⟩
  | succ cnt ihc =>
      rw [List.range'_succ, ← List.singleton_append, List.filterMap_append] at hspans
      obtain ⟨fp₁, fp₂, rfl, h₁, h₂⟩ := hspans.of_append
      rw [Multiset.card_add] at hcard
      have h₁' : Spans (fun n => (p.mempool.get n).links) (link (p.mempool.get n) i).toList fp₁ := by
        cases h : link (p.mempool.get n) i <;> simpa [h] using h₁
      refine Ensures.bind (ensures_read (Ensures.bind ((ih p _ fp₁ (fp₂ + rest) h₁'
        (by rwa [← add_assoc]) (by omega)).mono ?_)))
      rintro - p₁ ⟨ho₁, hmem₁⟩
      refine (ihc (p := p₁) (by rwa [hmem₁]) ho₁ (by omega)).mono ?_
      rintro - p₂ ⟨ho₂, hmem₂⟩
      exact ⟨ho₂, hmem₂.trans hmem₁⟩

/-- `destroyNode` gives back every node it reaches, and each of them once: a second release
would be a fault. -/
theorem destroys (fuel : ℕ) : Destroys (V := V) E fuel := by
  induction fuel with
  | zero =>
      intro p l fp rest hspans ho hcard
      cases l with
      | none =>
          cases hspans
          exact Ensures.pure ⟨by simpa using ho, rfl⟩
      | some n =>
          obtain ⟨fp, rfl, -⟩ := hspans.of_single
          simp at hcard
  | succ fuel ih =>
      intro p l fp rest hspans ho hcard
      cases l with
      | none =>
          cases hspans
          exact Ensures.pure ⟨by simpa using ho, rfl⟩
      | some n =>
          obtain ⟨fp, rfl, hn⟩ := hspans.of_single
          rw [Multiset.card_cons] at hcard
          rw [Node.links] at hn
          obtain ⟨fpC, fpN, rfl, hC, hN⟩ := hn.of_append
          rw [Multiset.card_add] at hcard
          rw [show n ::ₘ (fpC + fpN) + rest = fpC + (fpN + n ::ₘ rest) by
            simp only [Multiset.cons_add, Multiset.add_cons, add_assoc]] at ho
          -- the next layers of the keys, and the node itself
          have htail : ∀ p₁ : NodeAllocator V, Owns p₁ (fpN + n ::ₘ rest) →
              p₁.mempool = p.mempool → Ensures E (do
                BTree.destroyLinks (BTree.destroyNode fuel) (fun nd i => nd.nextLevel.get i) n
                  (p.mempool.get n).keyCnt 0
                release n) p₁ fun _ p' => Owns p' rest ∧ p'.mempool = p.mempool := by
            intro p₁ ho₁ hmem₁
            refine Ensures.bind ((ih.ensures_destroyLinks (fun nd i => nd.nextLevel.get i)
              (by rwa [hmem₁, ← List.range_eq_range']) ho₁ (by omega)).mono ?_)
            rintro - p₂ ⟨ho₂, hmem₂⟩
            exact ensures_release ho₂ fun p₃ ho₃ _ hmem₃ =>
              ⟨ho₃, hmem₃.trans (hmem₂.trans hmem₁)⟩
          rw [BTree.destroyNode]
          refine Ensures.bind (ensures_read ?_)
          by_cases hleaf : (p.mempool.get n).isLeaf = true
          · rw [if_pos hleaf] at hC
            cases hC
            rw [zero_add] at ho
            simp only [hleaf, Bool.not_true, Bool.false_eq_true, if_false]
            exact htail p ho rfl
          · rw [if_neg hleaf] at hC
            simp only [hleaf, Bool.not_false, if_true]
            refine Ensures.bind ((ih.ensures_destroyLinks
              (fun nd i => nd.childIndex.get i) (by rwa [← List.range_eq_range']) ho
              (by omega)).mono ?_)
            rintro - p₁ ⟨ho₁, hmem₁⟩
            exact htail p₁ ho₁ hmem₁

end Destroy

end Pcv
