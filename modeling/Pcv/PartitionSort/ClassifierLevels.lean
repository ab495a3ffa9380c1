import Pcv.PartitionSort.ClassifierInvariant

/-!
# The levels the classifier counts

`Counted` is the invariant: the keys of every tree are within the levels that are counted for
it, and so are the rules of its copy.  It is kept by every call that adds no rule behind the
counted levels without a rebuild, whatever is rebuilt or passed on in between.  Then the change
of a fixed order concerns no rule of the tree, and no packet.
-/

namespace Pcv

open DynamicMempool

/-- A tree has its keys within the levels in use, whichever rules it stores. -/
def TreeInvariant.withinLevels (V : Type) [RuleValue V] {cfg : BTreeCfg} (hT : 2 ≤ cfg.T) (hD : 0 < cfg.D) :
    TreeInvariant cfg V where
  holds pool t n trie fp := t.Uses cfg pool n trie fp
  rules _ := True
  uses h := h
  nil n hp := .nil hp n
  frame h hagree := h.frame hagree
  mono h hnm := h.mono hnm
  reorder h hk := h.reorder hk
  insert h _ hr ho := h.ensures_insert hT hD hr ho

namespace PartitionSortClassifer

variable {V : Type} {cfg : ClassifierCfg}

/-! ## The invariant -/

/-- The tree has its keys and its copied rules within the levels that are counted, save for a rule
that is on its way into it.  A tree without copied rules is empty. -/
structure Counts (cfg : ClassifierCfg) (pool : NodeAllocator V) (ti : TreeInfo cfg.D V)
    (entering : Option (RuleSpec cfg.D V)) (trie : Trie Range1d V) (fp : Multiset ℕ) : Prop where
  uses : ti.tree.Uses cfg.toBTreeCfg pool ti.usedDimCnt trie fp
  usedDimCnt_le : ti.usedDimCnt ≤ cfg.D
  copies : ∀ r ∈ ti.rules, some r ≠ entering →
    r.UsesFirst cfg.keyBytes ti.tree.dimensionOrder ti.usedDimCnt
  empty : ti.rules = [] → entering = none → ti.tree.root = none

/-- Every tree has its keys and its rules within the levels that are counted for it, and nodes of
its own; `rest` are nodes of others. -/
def Counted (cfg : ClassifierCfg) (rest : Multiset ℕ) (e : ℕ → Option (RuleSpec cfg.D V))
    (s : PartitionSortClassifer cfg.D V) : Prop :=
  EachTree rest (fun t pool ti => Counts cfg pool ti (e t)) s

section Counted

variable {rest : Multiset ℕ} {e : ℕ → Option (RuleSpec cfg.D V)}
  {s : PartitionSortClassifer cfg.D V} {t : ℕ}

theorem Counted.tree (h : Counted cfg rest e s) (ht : t < cfg.MAX_TREE_CNT) :
    ∃ trie fp others, Counts cfg s.pool (s.infos.get t) (e t) trie fp ∧
      Owns s.pool (fp + others) := EachTree.tree h ht

theorem counted_iff [RuleValue V] (hT : 2 ≤ cfg.T) (hD : 0 < cfg.D) :
    Counted cfg rest e s ↔ Kept (.withinLevels V hT hD) rest e s :=
  ⟨fun h => EachTree.imp h rfl fun _ _ _ _ _ h _ =>
      ⟨h.uses, h.usedDimCnt_le, fun _ _ => trivial, h.copies, h.empty⟩,
    fun h => EachTree.imp h rfl fun _ _ _ _ _ h _ =>
      ⟨h.holds, h.usedDimCnt_le, h.copies, h.empty⟩⟩

end Counted

/-! ## The contract of the calls -/

section Contract

variable [DecidableEq V] (std : IntervalSort) {rest : Multiset ℕ}
  {s : PartitionSortClassifer cfg.D V}

variable (V) in
/-- The contract of the calls with respect to the counted levels. -/
def levels (cfg : ClassifierCfg) (rest : Multiset ℕ) :
    Contract ClassifierFault (PartitionSortClassifer cfg.D V) (Call.Res (D := cfg.D) (V := V)) where
  pre c s := Counted cfg rest c.entering s ∧ c.Registered s
  post _ _ _ s' := Counted cfg rest (fun _ => none) s'
  err _ _ _ _ := True

variable [RuleValue V]

/-- What a body is shown to do when its call is made in the state `s`. -/
abbrev KeepsCounted (rest : Multiset ℕ) (c : Call cfg.D V) (s : PartitionSortClassifer cfg.D V) :
    Prop :=
  (body std cfg c).Ensures ((levels V cfg rest).given (books cfg ∅)) ((levels V cfg rest).err c s) s
    ((levels V cfg rest).post c s)

variable {std} (hT : 2 ≤ cfg.T) (hD : 0 < cfg.D)

include hT hD in
theorem keepsCounted {c : Call cfg.D V} (hc : (books cfg ∅).pre c s) (h : (levels V cfg rest).pre c s)
    (hadds : c.AddsCounted std cfg s) : KeepsCounted std rest c s := by
  have hpre : ∀ c s, (keeping (.withinLevels V hT hD) rest).pre c s → (levels V cfg rest).pre c s :=
    fun c s h => ⟨(counted_iff hT hD).mpr h.1, h.2.1⟩
  have h' : (keeping (.withinLevels V hT hD) rest).pre c s :=
    ⟨(counted_iff hT hD).mp h.1, h.2, fun _ _ => trivial⟩
  exact ((maintains hc h' hadds).imp_contract (L := (levels V cfg rest).given (books cfg ∅)) hpre
    (fun _ _ _ _ he => he) fun _ _ _ _ hs => ⟨hs.1, (counted_iff hT hD).mp hs.2⟩).mono
      fun _ _ hs => (counted_iff hT hD).mpr hs

end Contract

end PartitionSortClassifer

end Pcv
