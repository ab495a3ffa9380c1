import Pcv.Library.Interleave
import Pcv.PartitionSort.BTreeSearch

/-!
# The B-tree of one layer

The nodes of a layer that is not compressed form a B-tree.  `Layer` relates the
memory to the keys of the layer in their order: all the leaves are at the same
depth, every node below the root has between `minDegree` and `maxDegree` keys, and
the children of a node know it as their parent.

The footprint of a layer is the multiset of its nodes, without those of the next
layers.  What a layer holds depends on the memory at its footprint alone.
-/

namespace Pcv

open Store (Agree)

variable {V : Type}

/-- The keys a node holds and the parent it knows. -/
structure Node.Holds (nd : Node V) (par : Option ℕ) (ks : List (KeyInfo V)) : Prop where
  keyCnt : nd.keyCnt = ks.length
  getKey : ∀ i, i < ks.length → ks[i]? = some (nd.getKey i)
  isCompressed : nd.isCompressed = false
  parent : nd.parent = par

/-- A leaf of a layer.  Its links to children are null, up to the last slot. -/
structure Node.LeafNode (nd : Node V) (par : Option ℕ) (ks : List (KeyInfo V)) : Prop
    extends nd.Holds par ks where
  isLeaf : nd.isLeaf = true
  child : ∀ i, nd.childIndex.get i = none

/-- A node of a layer with children. -/
structure Node.InnerNode (nd : Node V) (par : Option ℕ) (ks : List (KeyInfo V))
    (cs : List ℕ) : Prop extends nd.Holds par ks where
  isLeaf : nd.isLeaf = false
  child : ∀ i, i < cs.length → cs[i]? = nd.childIndex.get i

/-- `Layer cfg mem h par n its fp`: below node `n`, whose parent is `par`, lies a
B-tree of height `h` with the keys `its` and the nodes `fp`. -/
def Layer (cfg : BTreeCfg) (mem : Store (Node V)) :
    ℕ → Option ℕ → ℕ → List (KeyInfo V) → Multiset ℕ → Prop
  | 0, par, n, its, fp =>
      (mem.get n).LeafNode par its ∧ its.length ≤ cfg.maxDegree ∧ fp = {n}
  | h + 1, par, n, its, fp =>
      ∃ ks cs fp', (mem.get n).InnerNode par ks cs ∧ ks ≠ [] ∧ ks.length ≤ cfg.maxDegree ∧
        Chain (fun c its fp =>
          Layer cfg mem h (some n) c its fp ∧ cfg.minDegree ≤ (mem.get c).keyCnt) ks cs its fp' ∧
        fp = n ::ₘ fp'

/-- A child of a node of a layer. -/
abbrev Child (cfg : BTreeCfg) (mem : Store (Node V)) (h n : ℕ) (c : ℕ) (its : List (KeyInfo V))
    (fp : Multiset ℕ) : Prop :=
  Layer cfg mem h (some n) c its fp ∧ cfg.minDegree ≤ (mem.get c).keyCnt

variable {cfg : BTreeCfg} {mem mem' : Store (Node V)} {h n : ℕ} {par : Option ℕ}
variable {its : List (KeyInfo V)} {fp : Multiset ℕ}

namespace Layer

/-- The root of a layer is one of its nodes. -/
theorem root_mem (hL : Layer cfg mem h par n its fp) : n ∈ fp := by
  cases h with
  | zero => obtain ⟨-, -, rfl⟩ := hL; simp
  | succ h => obtain ⟨ks, cs, fp', -, -, -, -, rfl⟩ := hL; simp

/-- What a layer holds depends on its own nodes only. -/
theorem frame (hL : Layer cfg mem h par n its fp) (hfp : Agree fp mem mem') :
    Layer cfg mem' h par n its fp := by
  induction h generalizing par n its fp with
  | zero =>
      obtain ⟨hleaf, hlen, rfl⟩ := hL
      exact ⟨by rwa [hfp n (by simp)], hlen, rfl⟩
  | succ h ih =>
      obtain ⟨ks, cs, fp', hnode, hne, hlen, hch, rfl⟩ := hL
      refine ⟨ks, cs, fp', by rwa [hfp n (by simp)], hne, hlen, ?_, rfl⟩
      refine hch.imp fun c _ its' fp₀ hle hc => ?_
      have hfp' : Agree fp₀ mem mem' :=
        hfp.mono (hle.trans (Multiset.le_cons_self _ _))
      exact ⟨ih hc.1 hfp', by rw [hfp' c hc.1.root_mem]; exact hc.2⟩

/-- The root of a layer holds some of its keys. -/
theorem holds (hL : Layer cfg mem h par n its fp) :
    ∃ ks, (mem.get n).Holds par ks ∧ ks.length ≤ cfg.maxDegree := by
  cases h with
  | zero => exact ⟨its, hL.1.toHolds, hL.2.1⟩
  | succ h => obtain ⟨ks, cs, -, hnode, -, hlen, -⟩ := hL; exact ⟨ks, hnode.toHolds, hlen⟩

theorem isLeaf_iff (hL : Layer cfg mem h par n its fp) : (mem.get n).isLeaf = decide (h = 0) := by
  cases h with
  | zero => simpa using hL.1.isLeaf
  | succ h => obtain ⟨ks, cs, -, hnode, -⟩ := hL; simpa using hnode.isLeaf

theorem keyCnt_le (hL : Layer cfg mem h par n its fp) : (mem.get n).keyCnt ≤ cfg.maxDegree := by
  obtain ⟨ks, hks, hlen⟩ := hL.holds
  rw [hks.keyCnt]
  exact hlen

theorem isCompressed (hL : Layer cfg mem h par n its fp) : (mem.get n).isCompressed = false := by
  obtain ⟨ks, hks, -⟩ := hL.holds
  exact hks.isCompressed

theorem parent (hL : Layer cfg mem h par n its fp) : (mem.get n).parent = par := by
  obtain ⟨ks, hks, -⟩ := hL.holds
  exact hks.parent

/-- A layer has a node on each of its heights. -/
theorem height_lt_card (hL : Layer cfg mem h par n its fp) : h < fp.card := by
  induction h generalizing par n its fp with
  | zero => obtain ⟨-, -, rfl⟩ := hL; simp
  | succ h ih =>
      obtain ⟨ks, cs, fp', -, -, -, hch, rfl⟩ := hL
      have hne : cs ≠ [] := by
        intro hnil
        simpa [hnil] using hch.length_eq
      obtain ⟨c, hc⟩ := List.exists_mem_of_ne_nil cs hne
      obtain ⟨its', fp₀, hle, hP, -⟩ := hch.exists_of_mem hc
      have := ih hP.1
      have := Multiset.card_le_card hle
      rw [Multiset.card_cons]
      omega

end Layer

/-! ## Children that are left alone -/

theorem Child.frame {c : ℕ} (hc : Child cfg mem h n c its fp) (hfp : Agree fp mem mem') :
    Child cfg mem' h n c its fp :=
  ⟨hc.1.frame hfp, by rw [hfp c hc.1.root_mem]; exact hc.2⟩

variable {ks : List (KeyInfo V)} {cs : List ℕ}

theorem Before.frame (hb : Before (Child cfg mem h n) ks cs its fp) (hfp : Agree fp mem mem') :
    Before (Child cfg mem' h n) ks cs its fp :=
  hb.imp fun _ _ _ _ hle hc => Child.frame hc (hfp.mono hle)

theorem After.frame (ha : After (Child cfg mem h n) ks cs its fp) (hfp : Agree fp mem mem') :
    After (Child cfg mem' h n) ks cs its fp :=
  ha.imp fun _ _ _ _ hle hc => Child.frame hc (hfp.mono hle)

theorem Chain.frame (hch : Chain (Child cfg mem h n) ks cs its fp) (hfp : Agree fp mem mem') :
    Chain (Child cfg mem' h n) ks cs its fp :=
  hch.imp fun _ _ _ _ hle hc => Child.frame hc (hfp.mono hle)

/-- A node can be given another parent. -/
theorem Layer.setParent {par' : Option ℕ} (hL : Layer cfg mem h par n its fp) (hnd : fp.Nodup)
    (hn : mem'.get n = (mem.get n).setParent par')
    (hfp : ∀ j ∈ fp, j ≠ n → mem'.get j = mem.get j) : Layer cfg mem' h par' n its fp := by
  cases h with
  | zero =>
      obtain ⟨hleaf, hlen, rfl⟩ := hL
      refine ⟨⟨⟨?_, ?_, ?_, ?_⟩, ?_, ?_⟩, hlen, rfl⟩ <;> rw [hn]
      · exact hleaf.keyCnt
      · exact hleaf.getKey
      · exact hleaf.isCompressed
      · rfl
      · exact hleaf.isLeaf
      · exact hleaf.child
  | succ h =>
      obtain ⟨ks, cs, fp', hnode, hne, hlen, hch, rfl⟩ := hL
      obtain ⟨hnot, -⟩ := Multiset.nodup_cons.mp hnd
      refine ⟨ks, cs, fp', ⟨⟨?_, ?_, ?_, ?_⟩, ?_, ?_⟩, hne, hlen, Chain.frame hch fun j hj => ?_, rfl⟩
      · rw [hn]; exact hnode.keyCnt
      · rw [hn]; exact hnode.getKey
      · rw [hn]; exact hnode.isCompressed
      · rw [hn]; rfl
      · rw [hn]; exact hnode.isLeaf
      · rw [hn]; exact hnode.child
      · exact hfp j (Multiset.mem_cons_of_mem hj) fun h => hnot (h ▸ hj)

/-! ## One key of a layer -/

/-- Slot `i` of the node is changed to `x`, and nothing else. -/
structure Node.SlotChanged (nd nd' : Node V) (i : ℕ) (x : KeyInfo V) : Prop where
  frame : Node.SameFrame nd nd'
  getKey : ∀ j, nd'.getKey j = if j = i then x else nd.getKey j

/-- Slot `i` of node `m` is where the layer keeps `x`, between the keys `L` and the
keys `R`; and changing the slot changes this key of the layer and nothing else. -/
structure KeyAt (cfg : BTreeCfg) (mem : Store (Node V)) (h : ℕ) (par : Option ℕ) (n : ℕ)
    (fp : Multiset ℕ) (m i : ℕ) (L : List (KeyInfo V)) (x : KeyInfo V)
    (R : List (KeyInfo V)) : Prop where
  mem_fp : m ∈ fp
  index_lt : i < (mem.get m).keyCnt
  getKey : (mem.get m).getKey i = x
  isCompressed : (mem.get m).isCompressed = false
  replace : ∀ mem' x', (∀ j ∈ fp, j ≠ m → mem'.get j = mem.get j) →
    (mem.get m).SlotChanged (mem'.get m) i x' → Layer cfg mem' h par n (L ++ x' :: R) fp

theorem Node.Holds.slotChanged {nd nd' : Node V} {i : ℕ} {x x' : KeyInfo V}
    {ks₁ ks₂ : List (KeyInfo V)} (hn : nd.Holds par (ks₁ ++ x :: ks₂)) (hi : ks₁.length = i)
    (hc : nd.SlotChanged nd' i x') : nd'.Holds par (ks₁ ++ x' :: ks₂) where
  keyCnt := by simpa using hc.frame.keyCnt.trans hn.keyCnt
  getKey := by
    intro j hj
    have := hn.getKey j (by simpa using hj)
    rw [hc.getKey]
    grind
  isCompressed := hc.frame.isCompressed.trans hn.isCompressed
  parent := hc.frame.parent.trans hn.parent

/-- A key put into a node between its keys. -/
theorem Node.Holds.insertKey {nd : Node V} {ks₁ ks₂ : List (KeyInfo V)}
    (hn : nd.Holds par (ks₁ ++ ks₂)) (x : KeyInfo V) :
    (((nd.shiftKeysRight ks₁.length nd.keyCnt).setKey ks₁.length x).setKeyCnt
      (nd.keyCnt + 1)).Holds par (ks₁ ++ x :: ks₂) where
  keyCnt := by
    have := hn.keyCnt
    simp only [List.length_append] at this
    simp [Node.setKeyCnt, this]
    omega
  getKey := by
    intro i hi
    have hkc := hn.keyCnt
    simp only [List.length_append, List.length_cons] at hi hkc
    rw [Node.getKey_setKeyCnt, Node.getKey_setKey, Node.getKey_shiftKeysRight]
    rcases Nat.lt_trichotomy i ks₁.length with hlt | rfl | hgt
    · have := hn.getKey i (by simp; omega)
      rw [if_neg (by omega), if_neg (by omega), ← this, List.getElem?_append_left hlt,
        List.getElem?_append_left hlt]
    · simp
    · have := hn.getKey (i - 1) (by simp; omega)
      rw [if_neg (by omega), if_pos (by omega), ← this, List.getElem?_append_right (by omega),
        List.getElem?_append_right (by omega),
        show i - ks₁.length = (i - 1 - ks₁.length) + 1 by omega, List.getElem?_cons_succ]
  isCompressed := (Node.shiftKeysRight_sameFrame nd _ _).isCompressed.trans hn.isCompressed
  parent := (Node.shiftKeysRight_sameFrame nd _ _).parent.trans hn.parent

/-- Changing a slot of a leaf changes one key of the layer. -/
theorem KeyAt.leaf {i : ℕ} {L R : List (KeyInfo V)} {x : KeyInfo V}
    (hn : (mem.get n).LeafNode par (L ++ x :: R))
    (hlen : (L ++ x :: R).length ≤ cfg.maxDegree) (hi : L.length = i) :
    KeyAt cfg mem 0 par n {n} n i L x R where
  mem_fp := by simp
  index_lt := by
    have := hn.keyCnt
    simp only [List.length_append, List.length_cons] at this
    omega
  getKey := by
    have := hn.getKey i (by simp; omega)
    grind
  isCompressed := hn.isCompressed
  replace := fun mem' x' _ hc =>
    ⟨⟨hn.toHolds.slotChanged hi hc, hc.frame.isLeaf.trans hn.isLeaf,
      by rw [hc.frame.childIndex]; exact hn.child⟩, by simpa using hlen, rfl⟩

/-- Changing a slot of an inner node changes one key of the layer. -/
theorem KeyAt.inner {i : ℕ} {ks₁ ks₂ L R : List (KeyInfo V)} {x : KeyInfo V} {cs₁ cs₂ : List ℕ}
    {fp₁ fp₂ : Multiset ℕ}
    (hn : (mem.get n).InnerNode par (ks₁ ++ x :: ks₂) (cs₁ ++ cs₂))
    (hlen : (ks₁ ++ x :: ks₂).length ≤ cfg.maxDegree) (hi : ks₁.length = i)
    (h₁ : Chain (Child cfg mem h n) ks₁ cs₁ L fp₁) (h₂ : Chain (Child cfg mem h n) ks₂ cs₂ R fp₂)
    (hnd : (n ::ₘ (fp₁ + fp₂)).Nodup) :
    KeyAt cfg mem (h + 1) par n (n ::ₘ (fp₁ + fp₂)) n i L x R where
  mem_fp := by simp
  index_lt := by
    have := hn.keyCnt
    simp only [List.length_append, List.length_cons] at this
    omega
  getKey := by
    have := hn.getKey i (by simp; omega)
    grind
  isCompressed := hn.isCompressed
  replace := by
    intro mem' x' hfp hc
    refine ⟨ks₁ ++ x' :: ks₂, cs₁ ++ cs₂, fp₁ + fp₂, ?_, by simp, by simpa using hlen, ?_, rfl⟩
    · refine ⟨hn.toHolds.slotChanged hi hc, hc.frame.isLeaf.trans hn.isLeaf, ?_⟩
      rw [hc.frame.childIndex]
      exact hn.child
    · have hagree : Agree (fp₁ + fp₂) mem mem' := by
        intro j hj
        refine hfp j (Multiset.mem_cons_of_mem hj) fun hjn => ?_
        exact (Multiset.nodup_cons.mp hnd).1 (hjn ▸ hj)
      exact (Chain.frame h₁ (hagree.mono (Multiset.le_add_right _ _))).join
        (Chain.frame h₂ (hagree.mono (Multiset.le_add_left _ _)))

/-- A key of a child is a key of the layer. -/
theorem KeyAt.child {m i c : ℕ} {ks₁ ks₂ its₁ its₂ L R : List (KeyInfo V)} {x : KeyInfo V}
    {cs₁ cs₂ : List ℕ} {fp₁ fpC fp₂ : Multiset ℕ}
    (hn : (mem.get n).InnerNode par (ks₁ ++ ks₂) (cs₁ ++ c :: cs₂))
    (hne : ks₁ ++ ks₂ ≠ []) (hlen : (ks₁ ++ ks₂).length ≤ cfg.maxDegree)
    (h₁ : Before (Child cfg mem h n) ks₁ cs₁ its₁ fp₁)
    (hc : cfg.minDegree ≤ (mem.get c).keyCnt) (hcm : c ∈ fpC)
    (hk : KeyAt cfg mem h (some n) c fpC m i L x R)
    (h₂ : After (Child cfg mem h n) ks₂ cs₂ its₂ fp₂)
    (hnd : (n ::ₘ (fp₁ + (fpC + fp₂))).Nodup) :
    KeyAt cfg mem (h + 1) par n (n ::ₘ (fp₁ + (fpC + fp₂))) m i (its₁ ++ L) x (R ++ its₂) where
  mem_fp := by
    have := hk.mem_fp
    simp only [Multiset.mem_cons, Multiset.mem_add]
    tauto
  index_lt := hk.index_lt
  getKey := hk.getKey
  isCompressed := hk.isCompressed
  replace := by
    intro mem' x' hfp hs
    obtain ⟨hn_notin, hnd'⟩ := Multiset.nodup_cons.mp hnd
    have hnm : n ≠ m := by
      rintro rfl
      have := hk.mem_fp
      simp only [Multiset.mem_add] at hn_notin
      tauto
    have hdisj : ∀ j, j ∈ fp₁ + fp₂ → j ≠ m := by
      rintro j hj rfl
      have hnd'' : ((fp₁ + fp₂) + fpC).Nodup := by
        rwa [add_comm fpC, ← add_assoc] at hnd'
      exact Multiset.disjoint_left.mp (Multiset.nodup_add.mp hnd'').2.2 hj hk.mem_fp
    have hagree : Agree (fp₁ + fp₂) mem mem' := by
      intro j hj
      refine hfp j ?_ (hdisj j hj)
      simp only [Multiset.mem_cons, Multiset.mem_add] at hj ⊢
      tauto
    have hfpC : ∀ j ∈ fpC, j ≠ m → mem'.get j = mem.get j := by
      intro j hj
      refine hfp j ?_
      simp only [Multiset.mem_cons, Multiset.mem_add]
      tauto
    have hcnt : cfg.minDegree ≤ (mem'.get c).keyCnt := by
      by_cases hcm' : c = m
      · subst hcm'
        rwa [hs.frame.keyCnt]
      · rwa [hfpC c hcm hcm']
    have hplug := Chain.plug
      (Before.frame h₁ (hagree.mono (Multiset.le_add_right _ _)))
      (Chain.last (P := Child cfg mem' h n) ⟨hk.replace mem' x' hfpC hs, hcnt⟩)
      (After.frame h₂ (hagree.mono (Multiset.le_add_left _ _)))
    refine ⟨ks₁ ++ ks₂, cs₁ ++ c :: cs₂, fp₁ + (fpC + fp₂), ?_, hne, hlen, ?_, rfl⟩
    · rw [hfp n (Multiset.mem_cons_self _ _) hnm]
      exact hn
    · simpa using hplug

end Pcv
