import Pcv.PartitionSort.ClassifierSupply
import Pcv.PartitionSort.PriorityRuns
import Pcv.PartitionSort.TreeEntries

/-!
# Nothing is found but what was inserted

`FindsInserted` is what a caller can rely on without looking at the rules: a search returns, with
an invalid value or with the value of an inserted rule that matches the packet, and nothing but
inserted rules can be extracted from a tree.  It does not ask that the rules of a tree be
compatible; what a collision check has overlooked may hide a rule, but it makes up none.

A run of insertions keeps to it as long as no rule is added behind the counted levels.
-/

namespace Pcv

open DynamicMempool

/-- A tree stores nothing but rules with the property `S`. -/
def TreeInvariant.traces {V : Type} [RuleValue V] {cfg : BTreeCfg} (hT : 2 ≤ cfg.T)
    (hD : 0 < cfg.D) (hpc : cfg.pathCompression = true) (S : RuleSpec cfg.D V → Prop) :
    TreeInvariant cfg V where
  holds pool t n trie fp := t.Traces cfg pool n S trie fp
  rules := S
  uses h := h.toUses
  nil n hp := .nil hp n
  frame h hagree := h.frame hagree
  mono h hnm := h.mono hnm fun _ hr => hr
  reorder h hk := h.reorder hk
  insert h hr huses ho := h.ensures_insert hT hD hpc hr huses ho

namespace PartitionSortClassifer

section Runs

variable {V : Type} [RuleValue V] [DecidableEq V] {std : IntervalSort} {cfg : ClassifierCfg}
  {I : TreeInvariant cfg.toBTreeCfg V} {rest : Multiset ℕ} {start : NodeAllocator V}
  {s : PartitionSortClassifer cfg.D V}

/-! ## An invariant of the trees in a run -/

/-- A call keeps the invariant, when it and the calls inside add no rule behind the counted
levels. -/
theorem ensures_run_kept {c : Call cfg.D V} (hc : (books cfg ∅).pre c s)
    (h : (keeping I rest).pre c s)
    (hadds : ∀ g, Inside std cfg (c, s) g → g.1.AddsCounted std cfg g.2) (fuel : ℕ) :
    Ensures (fun _ _ => True) (run std cfg fuel c) s fun a s' =>
      (books cfg ∅).post c s a s' ∧ Kept I rest (fun _ => none) s' := by
  refine (ensures_of_calls ((books cfg ∅).both (keeping I rest)) (Nests cfg)
    (fun c s => ∀ g, Inside std cfg (c, s) g → g.1.AddsCounted std cfg g.2)
      (fun _ _ _ _ hx hcall g hg => hx g (.head hcall hg)) (fun c s hpre hx => ?_) fuel c s
        ⟨hc, h⟩ hadds).conseq (fun _ _ _ => trivial) fun _ _ h => h
  exact (books_met std c s hpre.1).both (maintains hpre.1 hpre.2 (hx _ .refl))

omit [DecidableEq V] in
theorem kept_make (ho : Owns start rest) : Kept I rest (fun _ => none) (make cfg.D start) := by
  have hp : (BTree.identityOrder cfg.D).IsPermutation := by
    rw [DimensionOrder.IsPermutation, BTree.identityOrder, Vector.toList_ofFn, List.ofFn_id]
  exact .make (fun _ => ⟨I.nil _ hp, Nat.zero_le _, fun _ hr => absurd hr List.not_mem_nil,
    fun _ hr => absurd hr List.not_mem_nil, fun _ _ => rfl⟩) ho

theorem Filled.kept (ho : Owns start rest) {rules : List (RuleSpec cfg.D V)}
    (h : Filled std cfg (AddsCounted std cfg) start rules s) (hrules : ∀ r ∈ rules, I.rules r) :
    Tidy cfg s ∧ Kept I rest (fun _ => none) s := by
  induction h with
  | make => exact ⟨tidy_make start, kept_make ho⟩
  | @inserted rules s s' fuel rule _ hadds hrun ih =>
    obtain ⟨hs, h⟩ := ih fun r hr => hrules r (List.mem_append_left _ hr)
    rw [← run_insert] at hrun
    have hpre : (keeping I rest).pre (.insert rule) s :=
      ⟨h, trivial, by simpa [Call.given] using hrules rule (by simp)⟩
    obtain ⟨hbooks, h'⟩ :=
      (ensures_run_kept ((Call.entered_insert rule s).pre_books hs) hpre hadds fuel).ok hrun
    exact ⟨hbooks.1.tidy, h'⟩

/-! ## What is found -/

/-- What a search finds, what can be extracted and what has been copied are inserted rules; what
is found matches the packet. -/
structure FindsInserted (cfg : ClassifierCfg) (rules : List (RuleSpec cfg.D V))
    (s : PartitionSortClassifer cfg.D V) : Prop where
  search : ∀ val : KeyVec cfg.D, (∀ d, val.get d ≤ keyMax cfg.keyBytes) →
    ∃ v, search cfg s val = .ok v ∧
      (isValid v = true → ∃ r ∈ rules, r.Matches val ∧ r.second = v)
  extracted : ∀ t, s.InUse t → ∃ out,
    (s.infos.get t).tree.toRules cfg.toBTreeCfg s.pool = .ok out ∧ ∀ r ∈ out, r ∈ rules
  copies : ∀ t, s.InUse t → ∀ r ∈ s.rules t, r ∈ rules

omit [DecidableEq V] in
/-- A search answers with something that a tree has found. -/
theorem exists_searchFrom {val : KeyVec cfg.D} {R : V → Prop} {cnt i : ℕ} {found : V}
    (hle : i + cnt ≤ s.treeCnt) (hfinds : ∀ j, j < s.treeCnt →
      ∃ v, (s.info j).tree.search cfg.toBTreeCfg s.pool val = .ok v ∧ R v) (hfound : R found) :
    ∃ v, searchFrom cfg s val cnt i found = .ok v ∧ R v := by
  induction cnt generalizing i found with
  | zero => exact ⟨found, rfl, hfound⟩
  | succ cnt ih =>
    obtain ⟨v, hv, hR⟩ := hfinds i (by omega)
    have hbetter : R (better found v) := by
      rw [better]
      split
      · exact hR
      · exact hfound
    rw [searchFrom_succ hv]
    split
    · exact ⟨_, rfl, hbetter⟩
    · exact ih (by omega) hbetter

/-- The insertions, as long as they return and add no rule behind the counted levels. -/
def insertCounted (std : IntervalSort) (cfg : ClassifierCfg) (fuel : ℕ) :
    List (RuleSpec cfg.D V) → PartitionSortClassifer cfg.D V →
      Option (PartitionSortClassifer cfg.D V)
  | [], s => some s
  | rule :: rules, s =>
      if (callsInside (body std cfg) ClassifierFault.tooDeep fuel (.insert rule, s)).all
          fun g => decide (g.1.AddsCounted std cfg g.2) then
        match insertRule std cfg fuel rule s with
        | .ok () s' => insertCounted std cfg fuel rules s'
        | .error _ _ => none
      else none

theorem Filled.of_insertCounted {fuel : ℕ} {rules rules' : List (RuleSpec cfg.D V)}
    {s' : PartitionSortClassifer cfg.D V}
    (h : Filled std cfg (AddsCounted std cfg) start rules s)
    (hs : insertCounted std cfg fuel rules' s = some s') :
    Filled std cfg (AddsCounted std cfg) start (rules ++ rules') s' := by
  induction rules' generalizing rules s with
  | nil =>
    cases hs
    rwa [List.append_nil]
  | cons rule rules' ih =>
    rw [insertCounted] at hs
    split at hs
    next hcounted =>
      split at hs
      next s₁ hrun =>
        have hadds : AddsCounted std cfg rule s := fun g hg =>
          of_decide_eq_true (List.all_eq_true.mp hcounted g (mem_callsInside (fun t ht => by
            have hdeep : run std cfg fuel (.insert rule) s = .error .tooDeep t := ht
            rw [run_insert, hrun] at hdeep
            cases hdeep) hg))
        rw [List.append_cons]
        exact ih (h.inserted hadds hrun) hs
      next => cases hs
    next => cases hs

/-- Two fields of one byte, two trees. -/
private abbrev pairCfg : ClassifierCfg := ⟨⟨1, 2, 2, true⟩, 2, 10⟩

private abbrev pairRules : List (RuleSpec 2 RuleValueInt) :=
  [.box ⟨0, 9⟩ ⟨3, 3⟩ 4 1, .box ⟨0, 9⟩ ⟨3, 7⟩ 2 2, .box ⟨10, 11⟩ ⟨3, 3⟩ 2 3]

end Runs

end PartitionSortClassifer

end Pcv
