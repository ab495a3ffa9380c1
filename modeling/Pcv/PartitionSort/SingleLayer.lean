import Pcv.PartitionSort.LayerRemove
import Pcv.PartitionSort.TreeNodes

/-!
# Deletion from a layer, seen from outside

A layer stands on its own here: a B-tree of disjoint keys in their order, some of which have
next layers.  `remove1d` takes a key without a next layer out of it, keeps everything else,
and gives back the nodes that nothing leads to any more.
-/

namespace Pcv

open DynamicMempool
open Store (Agree)

variable {V : Type} {cfg : BTreeCfg} {mem mem' : Store (Node V)} {n : ℕ}
variable {its L R : List (KeyInfo V)} {x : KeyInfo V} {fp fpI rest : Multiset ℕ}

/-- A valid layer: a B-tree whose root is no child, and whose keys are disjoint and in their
order. -/
structure ValidLayer (cfg : BTreeCfg) (mem : Store (Node V)) (root : ℕ) (its : List (KeyInfo V))
    (fp : Multiset ℕ) : Prop where
  layer : ∃ h, Layer cfg mem h none root its fp
  ne_nil : its ≠ []
  disjoint : its.Pairwise fun a b => a.key.Before b.key

/-- A node that the links from a root lead to. -/
def Node.ReachedFrom (mem : Store (Node V)) (root : Option ℕ) (n : ℕ) : Prop :=
  ∃ r ∈ root, Relation.ReflTransGen (fun a b => b ∈ (mem.get a).links) r n

theorem ValidLayer.strictlyOrdered (h : ValidLayer cfg mem n its fp) : StrictlyOrdered its :=
  h.disjoint.imp Range1d.Before.low_lt

/-- What is reached from the nodes of a footprint is a matter of these nodes. -/
theorem Spans.frame {ls : List ℕ} (h : Spans (fun n => (mem.get n).links) ls fp)
    (hagree : Agree fp mem mem') : Spans (fun n => (mem'.get n).links) ls fp := by
  induction h with
  | nil => exact .nil
  | @cons m ls fp fp' _ _ ih ih' =>
      refine .cons ?_ (ih' (hagree.mono ?_))
      · rw [hagree m (Multiset.mem_cons_self _ _)]
        exact ih (hagree.mono ((Multiset.le_add_right _ _).trans (Multiset.le_cons_self _ _)))
      · exact (Multiset.le_add_left _ _).trans (Multiset.le_cons_self _ _)

/-- The deletion of a key that has no next layer.  The layer is left with the other keys, with
their values and next layers; without any other key there is no layer left.  The nodes that
are live afterwards, beside the nodes `rest` of other trees, are those that the new root leads
to. -/
theorem ValidLayer.removes_key {p : NodeAllocator V} {root : ℕ} (hT : 2 ≤ cfg.T)
    (hL : ValidLayer cfg p.mempool root (L ++ x :: R) fp) (hx : x.nextLevel = none)
    (hnext : Spans (fun n => (p.mempool.get n).links)
      ((L ++ x :: R).filterMap KeyInfo.nextLevel) fpI)
    (ho : Owns p (fp + fpI + rest)) :
    Ensures (fun _ _ => False) (BTreeRemove.remove1d cfg x.key root) p fun root' p' =>
      (root' = none ↔ L ++ R = []) ∧
      (∀ r ∈ root', ∃ fp', ValidLayer cfg p'.mempool r (L ++ R) fp') ∧
      Agree (fpI + rest) p.mempool p'.mempool ∧
      ∃ live', Owns p' (live' + rest) ∧
        (∀ n, n ∈ live' ↔ Node.ReachedFrom p'.mempool root' n) ∧
        ∀ n, (n ∈ fp + fpI + rest ∧ n ∉ live' + rest) ↔
          Node.ReachedFrom p.mempool (some root) n ∧ ¬ Node.ReachedFrom p'.mempool root' n := by
  obtain ⟨h, hlayer⟩ := hL.layer
  have hdisj : (L ++ R).Pairwise fun a b => a.key.Before b.key :=
    hL.disjoint.sublist ((List.sublist_cons_self x R).append_left L)
  have hlinks : (L ++ x :: R).filterMap KeyInfo.nextLevel = (L ++ R).filterMap KeyInfo.nextLevel := by
    simp [List.filterMap_append, hx]
  have hreach : ∀ n, n ∈ fp + fpI ↔ Node.ReachedFrom p.mempool (some root) n := by
    intro n
    rw [(hlayer.spans hnext).mem_iff n]
    simp [Node.ReachedFrom]
  refine (ensures_remove1d hT hlayer hL.strictlyOrdered ⟨x, by simp, rfl⟩
    (add_assoc fp fpI rest ▸ ho)).mono ?_
  rintro root' p' ⟨fp', ho', hagree, -, hroot⟩
  rw [hL.strictlyOrdered.without] at hroot
  have hnext' := (hlinks ▸ hnext).frame (hagree.mono (Multiset.le_add_right _ _))
  have hlive : ∀ n, n ∈ fp' + fpI ↔ Node.ReachedFrom p'.mempool root' n := by
    intro n
    cases root' with
    | none =>
        obtain ⟨hnil, rfl⟩ := hroot
        rw [hnil] at hnext'
        cases hnext'
        simp [Node.ReachedFrom]
    | some r =>
        obtain ⟨-, h', hlayer'⟩ := hroot
        rw [(hlayer'.spans hnext').mem_iff n]
        simp [Node.ReachedFrom]
  refine ⟨?_, ?_, hagree, fp' + fpI, by rwa [add_assoc], hlive, fun n => ?_⟩
  · cases root' with
    | none => simpa using hroot.1
    | some r => simpa using hroot.1
  · rintro r hr
    obtain rfl : root' = some r := hr
    exact ⟨fp', hroot.2, hroot.1, hdisj⟩
  · have hdrest : n ∈ fp + fpI → n ∉ rest :=
      fun hn => Multiset.disjoint_left.mp (Multiset.nodup_add.mp ho.nodup).2.2 hn
    simp only [← hreach, ← hlive, Multiset.mem_add] at hdrest ⊢
    tauto

/-! ## A layer of three nodes -/

section ThreeNodes

/-- Two fields of one byte, and at most three keys in a node. -/
abbrev smallCfg : BTreeCfg := ⟨1, 2, 2, true⟩

def keyOf (low high : ℕ) (nextLevel : Option ℕ) : KeyInfo RuleValueInt :=
  ⟨⟨low, high⟩, RuleValueInt.make 1 low, nextLevel⟩

def oneKey (x : KeyInfo RuleValueInt) (parent : Option ℕ) : Node RuleValueInt :=
  (((Node.make smallCfg).setKey 0 x).setKeyCnt 1).setParent parent

/-- Node 0 holds one key between the leaves 1 and 2; node 3 is a next layer. -/
def threeNodes : NodeAllocator RuleValueInt where
  ITEM_CNT := 4
  mempool := ((((Store.fill (Node.make smallCfg)).set 0
    { (((oneKey (keyOf 5 6 none) none).setChildIndex 0 (some 1)).setChildIndex 1 (some 2)) with
      isLeaf := false }).set 1 (oneKey (keyOf 1 2 none) (some 0))).set 2
    (oneKey (keyOf 9 9 (some 3)) (some 0))).set 3 (oneKey (keyOf 4 4 none) none)
  nextFree := Store.fill none
  firstFree := none

theorem leafNode_oneKey (x : KeyInfo RuleValueInt) (parent : Option ℕ) :
    (oneKey x parent).LeafNode parent [x] where
  keyCnt := rfl
  getKey := by
    intro i hi
    obtain rfl : i = 0 := by simpa using hi
    rfl
  isCompressed := rfl
  parent := rfl
  isLeaf := rfl
  child := fun _ => rfl

theorem validLayer_threeNodes : ValidLayer smallCfg threeNodes.mempool 0
    ([keyOf 1 2 none] ++ keyOf 5 6 none :: [keyOf 9 9 (some 3)]) {0, 1, 2} where
  layer := by
    refine ⟨1, [keyOf 5 6 none], [1, 2], {1, 2}, ⟨⟨rfl, ?_, rfl, rfl⟩, rfl, ?_⟩, by simp, by decide,
      ?_, rfl⟩
    · decide
    · decide
    · have hleft : Child smallCfg threeNodes.mempool 0 0 1 [keyOf 1 2 none] {1} :=
        ⟨⟨leafNode_oneKey _ _, by decide, rfl⟩, by decide⟩
      have hright : Child smallCfg threeNodes.mempool 0 0 2 [keyOf 9 9 (some 3)] {2} :=
        ⟨⟨leafNode_oneKey _ _, by decide, rfl⟩, by decide⟩
      exact .cons hleft (.last hright)
  ne_nil := by simp
  disjoint := by
    simp [keyOf, Range1d.Before]

/-- The key of the root goes, and one of its neighbours takes its place. -/
theorem ValidLayer.removes_key_threeNodes :
    Ensures (fun _ _ => False) (BTreeRemove.remove1d smallCfg ⟨5, 6⟩ 0) threeNodes fun root' p' =>
      ∃ r fp', root' = some r ∧
        ValidLayer smallCfg p'.mempool r [keyOf 1 2 none, keyOf 9 9 (some 3)] fp' := by
  have hnext : Spans (fun n => (threeNodes.mempool.get n).links)
      (([keyOf 1 2 none] ++ keyOf 5 6 none :: [keyOf 9 9 (some 3)]).filterMap KeyInfo.nextLevel)
      {3} := .single .nil
  have hown : Owns threeNodes ({0, 1, 2} + {3} + 0) := ⟨[], .nil, by decide, fun _ _ => rfl⟩
  refine (validLayer_threeNodes.removes_key (by decide) rfl hnext hown).mono ?_
  · rintro root' p' ⟨hnone, hsome, -⟩
    cases root' with
    | none => simp at hnone
    | some r =>
        obtain ⟨fp', h⟩ := hsome r rfl
        exact ⟨r, fp', rfl, h⟩

end ThreeNodes

end Pcv
