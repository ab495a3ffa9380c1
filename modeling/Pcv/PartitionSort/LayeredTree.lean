import Pcv.Library.TrieInsert
import Pcv.PartitionSort.LayerSearch

/-!
# What a layered tree stores

`Denotes` relates the memory to the trie a link leads to: the keys of each layer
in their order, with their values and the layers below.  The keys of a compressed
node are layers of one key each, one below the other.

The trie does not show how the keys are distributed over nodes.  That, too, is
said by `Denotes`: layers are B-trees (`Layer`) whose keys begin in non-decreasing
order, compressed nodes are leaves and roots at once, only the last key of a
compressed node has a next layer, and the footprint counts every node once for
each link to it.
-/

namespace Pcv

open Store (Agree)

variable {V : Type}

/-- What may be required of compressed nodes: the field of a key, from its level, and
the least number of keys. -/
structure CompressedShape where
  dim : ℕ → ℕ → Prop
  least : ℕ

/-- A compressed node at level `lvl`: its keys are `init` and `last`. -/
structure Node.CompressedNode (cfg : BTreeCfg) (sh : CompressedShape) (nd : Node V) (lvl : ℕ)
    (init : List (KeyInfo V)) (last : KeyInfo V) : Prop where
  keyCnt : nd.keyCnt = init.length + 1
  le_maxDegree : init.length + 1 ≤ cfg.maxDegree
  least_le : sh.least ≤ init.length + 1
  getKey : ∀ i, i < init.length + 1 → (init ++ [last])[i]? = some (nd.getKey i)
  nextLevel : ∀ x ∈ init, x.nextLevel = none
  dim : ∀ i, i < init.length + 1 → sh.dim (lvl + i) (nd.getDim i)
  isCompressed : nd.isCompressed = true
  isLeaf : nd.isLeaf = true
  child : ∀ i, nd.childIndex.get i = none
  parent : nd.parent = none

/-- Keys one below the other, and a trie below the last one. -/
def thread : List (KeyInfo V) → Trie Range1d V → Trie Range1d V
  | [], t => t
  | x :: xs, t => .cons x.key x.value (thread xs t) .nil

theorem thread_append (xs ys : List (KeyInfo V)) (t : Trie Range1d V) :
    thread (xs ++ ys) t = thread xs (thread ys t) := by
  induction xs with
  | nil => rfl
  | cons x xs ih => simp [thread, ih]

/-- What a trie can be read from: a link to a layer, or the keys of a layer. -/
inductive Part (V : Type)
  | link (l : Option ℕ)
  | items (its : List (KeyInfo V))

/-- The trie that a part of a tree stores, at a level, and the nodes it occupies. -/
inductive Denotes (cfg : BTreeCfg) (sh : CompressedShape) (mem : Store (Node V)) :
    ℕ → Part V → Trie Range1d V → Multiset ℕ → Prop
  | null {lvl : ℕ} : Denotes cfg sh mem lvl (.link none) .nil 0
  | layer {lvl h root : ℕ} {its : List (KeyInfo V)} {t : Trie Range1d V} {fp fpI : Multiset ℕ} :
      lvl < cfg.D → Layer cfg mem h none root its fp → its ≠ [] → Ordered its →
      Denotes cfg sh mem lvl (.items its) t fpI →
      Denotes cfg sh mem lvl (.link (some root)) t (fp + fpI)
  | compressed {lvl root : ℕ} {init : List (KeyInfo V)} {last : KeyInfo V}
      {next : Trie Range1d V} {fp : Multiset ℕ} :
      lvl + init.length < cfg.D → (mem.get root).CompressedNode cfg sh lvl init last →
      Denotes cfg sh mem (lvl + init.length + 1) (.link last.nextLevel) next fp →
      Denotes cfg sh mem lvl (.link (some root)) (thread (init ++ [last]) next) (root ::ₘ fp)
  | nil {lvl : ℕ} : Denotes cfg sh mem lvl (.items []) .nil 0
  | cons {lvl : ℕ} {x : KeyInfo V} {its : List (KeyInfo V)} {next rest : Trie Range1d V}
      {fp fp' : Multiset ℕ} :
      Denotes cfg sh mem (lvl + 1) (.link x.nextLevel) next fp →
      Denotes cfg sh mem lvl (.items its) rest fp' →
      Denotes cfg sh mem lvl (.items (x :: its)) (.cons x.key x.value next rest) (fp + fp')

variable {cfg : BTreeCfg} {sh : CompressedShape} {mem mem' : Store (Node V)} {lvl : ℕ}
variable {t : Trie Range1d V} {fp : Multiset ℕ} {part : Part V} {its its' : List (KeyInfo V)}

/-- A leaf that holds one key. -/
theorem leafNode_single (k : Range1d) (v : V) (link : Option ℕ) {nd : Node V}
    (hk : nd.getKey 0 = ⟨k, v, link⟩) (hc : nd.keyCnt = 1) (hleaf : nd.isLeaf = true)
    (hcompr : nd.isCompressed = false) (hchild : ∀ i, nd.childIndex.get i = none)
    (hpar : nd.parent = none) : nd.LeafNode none [⟨k, v, link⟩] where
  keyCnt := hc
  getKey := by
    intro i hi
    obtain rfl : i = 0 := by simpa using hi
    simp [hk]
  isCompressed := hcompr
  parent := hpar
  isLeaf := hleaf
  child := hchild

namespace Denotes

/-- What a part stores depends on its own nodes only. -/
theorem frame (hd : Denotes cfg sh mem lvl part t fp) (hfp : Agree fp mem mem') :
    Denotes cfg sh mem' lvl part t fp := by
  induction hd with
  | null => exact .null
  | layer hlvl hL hne ho _ ih =>
      exact .layer hlvl (hL.frame (hfp.mono (Multiset.le_add_right _ _))) hne ho
        (ih (hfp.mono (Multiset.le_add_left _ _)))
  | @compressed lvl root init last next fp hlvl hn _ ih =>
      refine .compressed hlvl ?_ (ih (hfp.mono (Multiset.le_cons_self _ _)))
      rwa [hfp root (by simp)]
  | nil => exact .nil
  | cons _ _ ih₁ ih₂ =>
      exact .cons (ih₁ (hfp.mono (Multiset.le_add_right _ _)))
        (ih₂ (hfp.mono (Multiset.le_add_left _ _)))

theorem of_null (hd : Denotes cfg sh mem lvl (.link none) t fp) : t = .nil ∧ fp = 0 := by
  cases hd
  exact ⟨rfl, rfl⟩

theorem of_items_nil (hd : Denotes cfg sh mem lvl (.items []) t fp) : t = .nil ∧ fp = 0 := by
  cases hd
  exact ⟨rfl, rfl⟩

theorem root_mem {root : ℕ} (hd : Denotes cfg sh mem lvl (.link (some root)) t fp) :
    root ∈ fp := by
  cases hd with
  | layer _ hL => exact Multiset.mem_add.mpr (.inl hL.root_mem)
  | compressed => exact Multiset.mem_cons_self _ _

/-- A link that is not null leads to a level of the tree. -/
theorem level_lt {root : ℕ} (hd : Denotes cfg sh mem lvl (.link (some root)) t fp) :
    lvl < cfg.D := by
  cases hd with
  | layer hlvl => exact hlvl
  | compressed hlvl => omega

/-- The keys of a layer, cut in two. -/
theorem of_append {t : Trie Range1d V} (hd : Denotes cfg sh mem lvl (.items (its ++ its')) t fp) :
    ∃ A B fp₁ fp₂, t = A.append B ∧ fp = fp₁ + fp₂ ∧
      Denotes cfg sh mem lvl (.items its) A fp₁ ∧ Denotes cfg sh mem lvl (.items its') B fp₂ := by
  induction its generalizing t fp with
  | nil => exact ⟨.nil, t, 0, fp, rfl, by simp, .nil, hd⟩
  | cons x its ih =>
      cases hd with
      | @cons _ _ _ next rest fp₀ fp' hx hrest =>
          obtain ⟨A, B, fp₁, fp₂, rfl, rfl, hA, hB⟩ := ih hrest
          exact ⟨.cons x.key x.value next A, B, fp₀ + fp₁, fp₂, rfl, (add_assoc _ _ _).symm,
            .cons hx hA, hB⟩

/-- The keys of two parts of a layer together. -/
theorem append {A B : Trie Range1d V} {fp₁ fp₂ : Multiset ℕ}
    (hA : Denotes cfg sh mem lvl (.items its) A fp₁)
    (hB : Denotes cfg sh mem lvl (.items its') B fp₂) :
    Denotes cfg sh mem lvl (.items (its ++ its')) (A.append B) (fp₁ + fp₂) := by
  induction its generalizing A fp₁ with
  | nil =>
      cases hA
      simpa using hB
  | cons x its ih =>
      cases hA with
      | cons hx hrest =>
          have := Denotes.cons hx (ih hrest)
          simpa [add_assoc] using this

/-- The keys of a layer are the keys of its trie. -/
theorem keys_eq (hd : Denotes cfg sh mem lvl (.items its) t fp) :
    t.keys = its.map KeyInfo.key := by
  induction its generalizing t fp with
  | nil => cases hd; rfl
  | cons x its ih =>
      cases hd with
      | cons hx hrest => simp [ih hrest]

/-- The layer below a key. -/
theorem next {x : KeyInfo V} {L R : List (KeyInfo V)}
    (hd : Denotes cfg sh mem lvl (.items (L ++ x :: R)) t fp) :
    ∃ A n B fp₁ fpN fp₂, t = A.append (.cons x.key x.value n B) ∧ fp = fp₁ + (fpN + fp₂) ∧
      Denotes cfg sh mem lvl (.items L) A fp₁ ∧
      Denotes cfg sh mem (lvl + 1) (.link x.nextLevel) n fpN ∧
      Denotes cfg sh mem lvl (.items R) B fp₂ := by
  obtain ⟨A, B, fp₁, fp₂, rfl, rfl, hA, hB⟩ := hd.of_append
  cases hB with
  | cons hx hrest => exact ⟨A, _, _, fp₁, _, _, rfl, rfl, hA, hx, hrest⟩

/-- A layer of one key in a node of its own. -/
theorem single {root : ℕ} {x : KeyInfo V} {next : Trie Range1d V} (hlvl : lvl < cfg.D)
    (hT : 2 ≤ cfg.T) (hn : (mem.get root).LeafNode none [x])
    (hd : Denotes cfg sh mem (lvl + 1) (.link x.nextLevel) next fp) :
    Denotes cfg sh mem lvl (.link (some root)) (.cons x.key x.value next .nil) (root ::ₘ fp) := by
  have hL : Layer cfg mem 0 none root [x] {root} :=
    ⟨hn, by simp only [List.length_singleton, BTreeCfg.maxDegree]; omega, rfl⟩
  have := Denotes.layer hlvl hL (by simp) (List.pairwise_singleton _ _) (.cons hd .nil)
  simpa using this

end Denotes

end Pcv
