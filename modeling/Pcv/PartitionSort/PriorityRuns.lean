import Pcv.PartitionSort.ClassifierRanks
import Pcv.PartitionSort.ClassifierValues

/-!
# Searches that stop early

A search looks into one tree after the other, and stops when what it has found is as good as
anything the next tree may hold.  `searchAll` looks into every tree.  Both find the same, if the
trees are in the order of their greatest priorities and no tree holds a rule with a greater one:
`RankedTrees` says so.

A run of insertions and removals gets to such states as long as no tree loses its place while
one of its rules is inserted (`rankedTrees_of_performed`).  The last part of the module has a run
of insertions in which this happens, and a packet for which the search stops too early.
-/

namespace Pcv

namespace PartitionSortClassifer

open DynamicMempool

/-! ## The search without the early exit -/

section Search

variable {V : Type} [RuleValue V]

/-- The better one of two results; the first one where neither is better. -/
def better (found res : V) : V :=
  if isValid res && (!isValid found || decide (priority found < priority res)) then res else found

/-- The best result of the trees `is`, and of what has been found already. -/
def bestOf (cfg : ClassifierCfg) (s : PartitionSortClassifer cfg.D V) (val : KeyVec cfg.D)
    (is : List ℕ) (found : V) : Except Fault V :=
  is.foldlM (fun found i => do
    return better found (← (s.info i).tree.search cfg.toBTreeCfg s.pool val)) found

/-- The best result of all the trees in use. -/
def searchAll (cfg : ClassifierCfg) (s : PartitionSortClassifer cfg.D V) (val : KeyVec cfg.D) :
    Except Fault V :=
  bestOf cfg s val (List.range s.treeCnt) RuleValue.invalid

variable {cfg : ClassifierCfg} {s : PartitionSortClassifer cfg.D V} {val : KeyVec cfg.D}

theorem bestOf_cons {i : ℕ} {is : List ℕ} {found v : V}
    (hv : (s.info i).tree.search cfg.toBTreeCfg s.pool val = .ok v) :
    bestOf cfg s val (i :: is) found = bestOf cfg s val is (better found v) := by
  rw [bestOf, List.foldlM_cons, hv]
  rfl

/-- Nothing is better than what has been found, if no tree can have anything better. -/
theorem bestOf_eq_found {is : List ℕ} {found : V} (hvalid : isValid found = true)
    (h : ∀ i ∈ is, ∃ v, (s.info i).tree.search cfg.toBTreeCfg s.pool val = .ok v ∧
      (isValid v = true → priority v ≤ priority found)) :
    bestOf cfg s val is found = .ok found := by
  induction is with
  | nil => rfl
  | cons i is ih =>
    obtain ⟨v, hv, hle⟩ := h i List.mem_cons_self
    have hkeep : better found v = found := by
      rw [better, if_neg]
      simp only [hvalid, Bool.not_true, Bool.false_or, Bool.and_eq_true, decide_eq_true_eq, not_and,
        not_lt]
      exact hle
    rw [bestOf_cons hv, hkeep]
    exact ih fun j hj => h j (List.mem_cons_of_mem _ hj)

/-- What a tree finds has at most the greatest priority of the tree. -/
def FindsWithin (cfg : ClassifierCfg) (s : PartitionSortClassifer cfg.D V) (val : KeyVec cfg.D)
    (i : ℕ) : Prop :=
  ∃ v, (s.info i).tree.search cfg.toBTreeCfg s.pool val = .ok v ∧
    (isValid v = true → priority v ≤ (s.info i).maxPriority)

theorem searchFrom_succ {cnt i : ℕ} {found v : V}
    (hv : (s.info i).tree.search cfg.toBTreeCfg s.pool val = .ok v) :
    searchFrom cfg s val (cnt + 1) i found =
      if isValid (better found v) && (decide (i + 1 ≥ s.treeCnt) ||
          decide ((s.info (i + 1)).maxPriority ≤ priority (better found v))) then
        .ok (better found v)
      else searchFrom cfg s val cnt (i + 1) (better found v) := by
  rw [searchFrom, hv]
  rfl

/-- The early exit loses nothing. -/
theorem searchFrom_eq_bestOf (h : ByPriority s) (hfinds : ∀ i, i < s.treeCnt → FindsWithin cfg s val i)
    {cnt i : ℕ} (hcnt : i + cnt = s.treeCnt) (found : V) :
    searchFrom cfg s val cnt i found = bestOf cfg s val (List.range' i cnt) found := by
  induction cnt generalizing i found with
  | zero => rfl
  | succ cnt ih =>
    obtain ⟨v, hv, -⟩ := hfinds i (by omega)
    rw [List.range'_succ, bestOf_cons hv, searchFrom_succ hv]
    split
    · next hexit =>
      rw [Bool.and_eq_true, Bool.or_eq_true, decide_eq_true_eq, decide_eq_true_eq] at hexit
      refine (bestOf_eq_found hexit.1 fun j hj => ?_).symm
      obtain ⟨hle, hlt⟩ := List.mem_range'_1.mp hj
      obtain ⟨w, hw, hmax⟩ := hfinds j (by omega)
      refine ⟨w, hw, fun hvalid => (hmax hvalid).trans ?_⟩
      -- the trees behind the next one have no greater priorities than that one
      rcases hexit.2 with hlast | hnext
      · omega
      · refine le_trans ?_ hnext
        rcases Nat.eq_or_lt_of_le hle with rfl | hlt'
        · exact le_rfl
        · exact h (i + 1) j hlt' (by omega)
    · exact ih (by omega) _

theorem search_eq_searchAll (h : ByPriority s)
    (hfinds : ∀ i, i < s.treeCnt → FindsWithin cfg s val i) :
    search cfg s val = searchAll cfg s val := by
  rw [search, searchFrom_eq_bestOf h hfinds (Nat.zero_add _), searchAll, List.range_eq_range']

/-- The search through all the trees ends. -/
theorem exists_bestOf {is : List ℕ} (hfinds : ∀ i ∈ is, FindsWithin cfg s val i) (found : V) :
    ∃ v, bestOf cfg s val is found = .ok v := by
  induction is generalizing found with
  | nil => exact ⟨found, rfl⟩
  | cons i is ih =>
    obtain ⟨v, hv, -⟩ := hfinds i List.mem_cons_self
    obtain ⟨w, hw⟩ := ih (fun j hj => hfinds j (List.mem_cons_of_mem _ hj)) (better found v)
    exact ⟨w, (bestOf_cons hv).trans hw⟩

end Search

section Runs

variable {V : Type} [DecidableEq V] [RuleValue V] (std : IntervalSort) (cfg : ClassifierCfg)

/-- What is expected of the trees: they are in the order of their greatest priorities, no tree
stores a rule with a greater one, and so a search that stops early is as good as one that does
not. -/
structure RankedTrees (s : PartitionSortClassifer cfg.D V) : Prop where
  ordered : ByPriority s
  stored : ∀ t, s.InUse t → ∃ rules, (s.infos.get t).tree.toRules cfg.toBTreeCfg s.pool = .ok rules ∧
    ∀ r ∈ rules, priority r.second ≤ s.maxPriority t
  search : ∀ val, ∃ v w, search cfg s val = .ok v ∧ searchAll cfg s val = .ok w ∧
    isValid v = isValid w ∧ priority v = priority w

/-- Wherever a greatest priority is raised after an update, inside the call as well, its tree is
still in its place; and a rule that is removed can be detached from its tree. -/
structure Operation.KeepsPlaces (op : Operation cfg.D V) (s : PartitionSortClassifer cfg.D V) :
    Prop where
  place : ∀ root g, op.Enters cfg s root → Inside std cfg root g → g.1.KeepsPlace std g.2
  detaches : ∀ rule t, op = .remove rule → UnorderedMap.find s.ruleToTree rule = some t →
    (s.infos.get t).tree.Detaches cfg.toBTreeCfg s.pool rule

/-- The states that are reached by calls that return, each of them one that is allowed in the
state it is made in. -/
inductive Performed (allowed : Operation cfg.D V → PartitionSortClassifer cfg.D V → Prop)
    (start : NodeAllocator V) : PartitionSortClassifer cfg.D V → Prop
  | make : Performed allowed start (make cfg.D start)
  | returned {s s' : PartitionSortClassifer cfg.D V} {fuel : ℕ} {op : Operation cfg.D V} :
      Performed allowed start s → allowed op s → op.run std cfg fuel s = .ok () s' →
        Performed allowed start s'

/-- What holds in every state of a run. -/
structure Managed (rest : Multiset ℕ) (s : PartitionSortClassifer cfg.D V) : Prop where
  tidy : Tidy cfg s
  ordered : ByPriority s
  covered : ∀ t r, r ∈ s.rules t → priority r.second ≤ s.maxPriority t
  copied : Copied cfg rest (fun _ => none) s

variable {std cfg} {rest : Multiset ℕ} {s : PartitionSortClassifer cfg.D V}

/-! ## The calls of the recursion -/

/-- A call after which no tree has lost its place keeps the order. -/
theorem ensures_run_ranks {c : Call cfg.D V} (hc : (books cfg ∅).pre c s)
    (hr : (ranks V cfg).pre c s)
    (hplace : ∀ g, Inside std cfg (c, s) g → g.1.KeepsPlace std g.2) (fuel : ℕ) :
    Ensures (fun _ _ => True) (PartitionSortClassifer.run std cfg fuel c) s fun a s' =>
      (books cfg ∅).post c s a s' ∧ (ranks V cfg).post c s a s' := by
  refine (ensures_of_calls_ran ((books cfg ∅).both (ranks V cfg)) (Nests cfg)
    (fun c s => ∀ g, Inside std cfg (c, s) g → g.1.KeepsPlace std g.2)
      (fun _ _ _ _ hx hcall g hg => hx g (.head hcall hg)) (fun c s hpre hx => ?_) fuel c s
        ⟨hc, hr⟩ hplace).conseq (fun _ _ _ => trivial) fun _ _ h => h
  exact (books_met std c s hpre.1).both_ran (keepsOrder std hpre.1 hpre.2 (hx _ .refl))

theorem ensures_run_copied (hT : 2 ≤ cfg.T) (hD : 0 < cfg.D) {c : Call cfg.D V}
    (hc : (books cfg ∅).pre c s) (hv : (values V cfg rest).pre c s) (fuel : ℕ) :
    Ensures (fun _ _ => True) (PartitionSortClassifer.run std cfg fuel c) s fun _ s' =>
      Copied cfg rest (fun _ => none) s' := by
  refine (ensures_of_calls ((books cfg ∅).both (values V cfg rest)) (Nests cfg) (fun _ _ => True)
    (fun _ _ _ _ _ _ => trivial) (fun c s hpre _ => ?_) fuel c s ⟨hc, hv⟩ trivial).conseq
      (fun _ _ _ => trivial) fun _ _ h => h.2
  exact (books_met std c s hpre.1).both (keepsCopied hT hD hpre.1 hpre.2)

/-! ## The removal of a rule from the books -/

theorem ensures_unregister_ranks (h : ByPriority s) (rule : RuleSpec cfg.D V) :
    Ensures (fun _ _ => True) (unregister cfg rule) s fun _ s' => ByPriority s' ∧ KeepsUp s s' := by
  refine .bind (.get ?_)
  cases UnorderedMap.find s.ruleToTree rule with
  | none => exact .pure ⟨h, .refl s⟩
  | some t =>
    refine .bind (((ensures_onTree_ranks _ t s).and (ensures_onTree _ t s)).conseq
      (fun _ _ _ => trivial) fun _ s₁ h₁ => ?_)
    set s₂ : PartitionSortClassifer cfg.D V :=
      { s₁ with ruleToTree := UnorderedMap.erase s₁.ruleToTree rule } with hs₂
    have hb₂ : ByPriority s₂ := h₁.1.byPriority h
    have hk₁ := h₁.2.keepsUp h₁.1 nofun
    have hk₂ : KeepsUp s s₂ := ⟨hk₁.maxPriority, hk₁.mem, hk₁.rules⟩
    refine .bind (.modify (.bind (.get ?_)))
    cases hmask : usedRuleMaskDecr (s₂.infos.get t) (rule.getRuleMask cfg.keyBytes) with
    | none => exact .bind (.throw trivial)
    | some ti =>
      obtain ⟨masks, rfl⟩ := usedRuleMaskDecr_eq hmask
      refine .bind (((ensures_updateInfo_ranks (E := fun _ _ => True) rfl).and
        (ensures_updateInfo (E := fun _ _ => True) (l := []) (b := s₂.pending t)
          (List.append_nil _).symm rfl)).conseq (fun _ _ _ => trivial) fun _ s₃ h₃ => ?_)
      have h₄ : ByPriority s₃ ∧ KeepsUp s s₃ :=
        ⟨h₃.1.byPriority hb₂, hk₂.trans (h₃.2.keepsUp h₃.1 nofun)⟩
      exact .bind (.get (.ite (fun _ => .pure h₄) fun _ => .pure h₄))

theorem Copied.ensures_unregister (hT : 2 ≤ cfg.T) (hs : Tidy cfg s)
    (h : Copied cfg rest (fun _ => none) s) {rule : RuleSpec cfg.D V}
    (hr : ∀ t, UnorderedMap.find s.ruleToTree rule = some t →
      (s.infos.get t).tree.Detaches cfg.toBTreeCfg s.pool rule) :
    Ensures (fun _ _ => True) (unregister cfg rule) s fun _ s' =>
      Copied cfg rest (fun _ => none) s' := by
  refine .bind (.get ?_)
  cases hfind : UnorderedMap.find s.ruleToTree rule with
  | none => exact .pure h
  | some t =>
    have ht := (hs.located rule t hfind).lt hs
    refine .bind ((h.ensures_remove hT ht (hr t hfind)).mono fun _ s₁ h₁ => ?_)
    set s₂ : PartitionSortClassifer cfg.D V :=
      { s₁ with ruleToTree := UnorderedMap.erase s₁.ruleToTree rule } with hs₂
    have h₂ : Copied cfg rest (fun _ => none) s₂ := h₁.congr rfl rfl
    refine .bind (.modify (.bind (.get ?_)))
    cases hmask : usedRuleMaskDecr (s₂.infos.get t) (rule.getRuleMask cfg.keyBytes) with
    | none => exact .bind (.throw trivial)
    | some ti =>
      obtain ⟨masks, rfl⟩ := usedRuleMaskDecr_eq hmask
      refine .bind ((h₂.updateInfo ht (fun _ _ => rfl) rfl (h₂.isPermutation ht)
        fun _ hr => hr).mono fun _ s₃ h₃ => ?_)
      exact .bind (.get (.ite (fun _ => .pure h₃.1) fun _ => .pure h₃.1))

/-! ## Runs -/

section Managed

variable (hT : 2 ≤ cfg.T) (hD : 0 < cfg.D)

omit [DecidableEq V] [RuleValue V] in
theorem byPriority_make (start : NodeAllocator V) : ByPriority (make cfg.D start) :=
  fun _ _ _ hj => absurd hj (Nat.not_lt_zero _)

/-- Nothing is stored in a new classifier. -/
theorem managed_make {start : NodeAllocator V} (ho : Owns start rest) :
    Managed cfg rest (make cfg.D start) where
  tidy := tidy_make start
  ordered := byPriority_make start
  covered := fun _ _ hr => absurd hr List.not_mem_nil
  copied := by
    have hp : (BTree.identityOrder cfg.D).IsPermutation := by
      rw [DimensionOrder.IsPermutation, BTree.identityOrder, Vector.toList_ofFn, List.ofFn_id]
    exact .make (fun _ => .nil hp _) ho

include hT hD in
/-- A call of the recursion keeps what holds in a run. -/
theorem Managed.of_call {c : Call cfg.D V} (h : Managed cfg rest s) (hc : (books cfg ∅).pre c s)
    (hreg : c.Registered s) (hplace : ∀ g, Inside std cfg (c, s) g → g.1.KeepsPlace std g.2)
    {fuel : ℕ} {a : c.Res} {s' : PartitionSortClassifer cfg.D V}
    (hrun : PartitionSortClassifer.run std cfg fuel c s = .ok a s') : Managed cfg rest s' := by
  obtain ⟨hbooks, hordered, hk⟩ := (ensures_run_ranks hc ⟨h.ordered, hreg⟩ hplace fuel).ok hrun
  exact ⟨hbooks.1.tidy, hordered, hk.covered h.covered,
    (ensures_run_copied hT hD hc ⟨h.copied, hreg⟩ fuel).ok hrun⟩

include hT hD in
/-- A call of the interface keeps what holds in a run. -/
theorem Managed.of_run {op : Operation cfg.D V} (h : Managed cfg rest s)
    (hop : op.KeepsPlaces std cfg s) {fuel : ℕ} {s' : PartitionSortClassifer cfg.D V}
    (hrun : op.run std cfg fuel s = .ok () s') : Managed cfg rest s' := by
  cases op with
  | insert rule =>
    rw [Operation.run, ← run_insert] at hrun
    exact h.of_call hT hD ((Call.entered_insert rule s).pre_books h.tidy) trivial
      (fun g hg => hop.place _ g (.insert rule s) hg) hrun
  | remove rule =>
    rw [Operation.run, removeRule_eq] at hrun
    have hunregister := (((ensures_unregister h.tidy rule).and
      (ensures_unregister_ranks h.ordered rule)).and
        (h.copied.ensures_unregister hT h.tidy (fun t => hop.detaches rule t rfl)))
    obtain ⟨a, s₁, hun, hrun⟩ := exists_of_bind_eq_ok hrun
    obtain ⟨⟨⟨hf₁, hin₁⟩, hb₁, hk₁⟩, hc₁⟩ := hunregister.ok hun
    have h₁ : Managed cfg rest s₁ := ⟨hf₁.tidy, hb₁, hk₁.covered h.covered, hc₁⟩
    cases a with
    | none =>
      cases hrun
      exact h₁
    | some t =>
      exact h₁.of_call hT hD ((Call.entered_update (hin₁ t rfl)).pre_books hf₁.tidy) trivial
        (fun g hg => hop.place _ g (.remove hun) hg) hrun

include hT hD in
theorem Performed.managed {start : NodeAllocator V} (ho : Owns start rest)
    (h : Performed std cfg (Operation.KeepsPlaces std cfg) start s) : Managed cfg rest s := by
  induction h with
  | make => exact managed_make ho
  | returned _ hop hrun ih => exact ih.of_run hT hD hop hrun

/-- The values that a tree in use carries are within its greatest priority. -/
theorem Managed.priority_le (h : Managed cfg rest s) {t : ℕ} {v : V}
    (hv : (s.infos.get t).Copies none v) (hvalid : isValid v = true) :
    priority v ≤ s.maxPriority t := by
  obtain ⟨r, hr, rfl⟩ := hv hvalid
  exact h.covered t r (hr.resolve_right nofun)

theorem Managed.findsWithin (h : Managed cfg rest s) (val : KeyVec cfg.D) {i : ℕ}
    (hi : i < s.treeCnt) : FindsWithin cfg s val i := by
  have ht := h.tidy.trees_lt i (lt_of_lt_of_le hi h.tidy.treeCnt_le)
  obtain ⟨trie, fp, others, hcarries, ho⟩ := h.copied.tree ht
  obtain ⟨v, hv, hcopies⟩ := hcarries.search .invalid ho val
  exact ⟨v, hv, h.priority_le hcopies⟩

theorem Managed.rankedTrees (h : Managed cfg rest s) : RankedTrees cfg s where
  ordered := h.ordered
  stored := by
    intro t ht
    obtain ⟨trie, fp, others, hcarries, ho⟩ := h.copied.tree (ht.lt h.tidy)
    obtain ⟨rules, hrules, hall⟩ := hcarries.toRules ho
    exact ⟨rules, hrules, fun r hr => h.priority_le (hall r hr).2 (hall r hr).1⟩
  search := by
    intro val
    have hfinds : ∀ i, i < s.treeCnt → FindsWithin cfg s val i := fun i hi => h.findsWithin val hi
    obtain ⟨v, hv⟩ := exists_bestOf (fun i hi => hfinds i (List.mem_range.mp hi)) RuleValue.invalid
    exact ⟨v, v, (search_eq_searchAll h.ordered hfinds).trans hv, hv, rfl, rfl⟩

/-- In a run in which no tree loses its place while one of its rules is inserted, and every removed
rule can be detached from its tree, the trees are ranked in every state. -/
theorem rankedTrees_of_performed (hT : 2 ≤ cfg.T) (hD : 0 < cfg.D) {start : NodeAllocator V}
    (ho : Owns start rest) (h : Performed std cfg (Operation.KeepsPlaces std cfg) start s) :
    RankedTrees cfg s :=
  (h.managed hT hD ho).rankedTrees

end Managed

/-! ## Two short runs -/

section Short

/-- Two fields of one byte, four trees. -/
private abbrev fourTrees : ClassifierCfg := ⟨⟨1, 2, 2, true⟩, 4, 10⟩

private abbrev unusedPool : NodeAllocator RuleValueInt :=
  DynamicMempool.make 64 (Node.make fourTrees.toBTreeCfg)

private abbrev ruleOf (a b : Range1d) (prio id : ℕ) : RuleSpec 2 RuleValueInt :=
  ⟨#v[a, b], RuleValueInt.make prio id⟩

/-- The calls, as long as they return and pass the check. -/
private def performAll (check : Operation 2 RuleValueInt → PartitionSortClassifer 2 RuleValueInt →
    Bool) : List (Operation 2 RuleValueInt) → PartitionSortClassifer 2 RuleValueInt →
      Option (PartitionSortClassifer 2 RuleValueInt)
  | [], s => some s
  | op :: ops, s =>
      if check op s then
        match op.run .insertion fourTrees 30 s with
        | .ok () s' => performAll check ops s'
        | .error _ _ => none
      else none

private theorem Performed.performAll {allowed : Operation 2 RuleValueInt →
      PartitionSortClassifer 2 RuleValueInt → Prop}
    {check : Operation 2 RuleValueInt → PartitionSortClassifer 2 RuleValueInt → Bool}
    (hcheck : ∀ op s s', check op s = true →
      op.run .insertion fourTrees 30 s = .ok () s' → allowed op s)
    {ops : List (Operation 2 RuleValueInt)} {s s' : PartitionSortClassifer 2 RuleValueInt}
    (h : Performed .insertion fourTrees allowed unusedPool s)
    (hs : PartitionSortClassifer.performAll check ops s = some s') :
    Performed .insertion fourTrees allowed unusedPool s' := by
  induction ops generalizing s with
  | nil =>
    cases hs
    exact h
  | cons op ops ih =>
    rw [PartitionSortClassifer.performAll] at hs
    split at hs
    next hc =>
      split at hs
      next s₁ hrun => exact ih (h.returned (hcheck op s s₁ hc hrun) hrun) hs
      next => cases hs
    next => cases hs

/-- A packet for which the search stops too early. -/
private def stopsEarly (s : PartitionSortClassifer 2 RuleValueInt) (val : KeyVec 2) : Bool :=
  match search fourTrees s val, searchAll fourTrees s val with
  | .ok v, .ok w => isValid v && isValid w && decide (priority v < priority w)
  | _, _ => false

/-- The fourth rule goes into the tree of the third one, which is rebuilt for it and passes the rule
on to a new tree.  The new tree comes first, so that the tree of the first rule is at the old index
in the end, and is moved instead: the greatest priorities are 15, 13, 15 and 4.  After two further
rules, a packet finds the one of priority 13 in the first tree, and the search does not get to the
one of priority 14 in the third tree. -/
theorem not_rankedTrees_fourTrees :
    ∃ s, Performed .insertion fourTrees (fun _ _ => True) unusedPool s ∧ ¬ ByPriority s ∧
      ∃ val v w, search fourTrees s val = .ok v ∧ searchAll fourTrees s val = .ok w ∧
        isValid v = true ∧ isValid w = true ∧ priority v < priority w := by
  have h : (performAll (fun _ _ => true) [.insert (ruleOf ⟨0, 2⟩ ⟨6, 6⟩ 4 1),
      .insert (ruleOf ⟨0, 255⟩ ⟨1, 1⟩ 13 2), .insert (ruleOf ⟨0, 255⟩ ⟨0, 255⟩ 4 3),
      .insert (ruleOf ⟨0, 255⟩ ⟨0, 1⟩ 15 4), .insert (ruleOf ⟨2, 2⟩ ⟨0, 255⟩ 14 5),
      .insert (ruleOf ⟨1, 5⟩ ⟨2, 2⟩ 13 6)] (make 2 unusedPool)).any (fun s =>
        decide (s.treeCnt = 4 ∧ s.maxPriority (s.trees.get 1) < s.maxPriority (s.trees.get 2)) &&
          stopsEarly s #v[2, 2]) = true := by decide +kernel
  obtain ⟨s, hs, htest⟩ := (Option.any_eq_true _ _).mp h
  rw [Bool.and_eq_true, decide_eq_true_eq] at htest
  obtain ⟨⟨hcnt, hlt⟩, hstops⟩ := htest
  refine ⟨s, Performed.performAll (fun _ _ _ _ _ => trivial) .make hs, fun hordered => ?_, #v[2, 2], ?_⟩
  · have := hordered 1 2 (by omega) (by omega)
    omega
  · unfold stopsEarly at hstops
    split at hstops
    next v w hv hw =>
      simp only [Bool.and_eq_true, decide_eq_true_eq] at hstops
      exact ⟨v, w, hv, hw, hstops.1.1, hstops.1.2, hstops.2⟩
    next => cases hstops

/-- Wherever a greatest priority is raised after an update, the tree is in its place. -/
private def keepsPlace : Call 2 RuleValueInt → PartitionSortClassifer 2 RuleValueInt → Bool
  | .tryInsert rule mask i, s =>
      match register rule mask (s.trees.get i) s with
      | .ok () s₁ =>
          match run .insertion fourTrees 30 (.update (s.trees.get i) (some rule)) s₁ with
          | .ok () s₂ => decide (s₂.maxPriority (s.trees.get i) < priority rule.second →
              s₂.trees.get i = s.trees.get i)
          | .error e _ => decide (e ≠ .tooDeep)
      | .error _ _ => true
  | _, _ => true

private theorem keepsPlace_of_check {c : Call 2 RuleValueInt}
    {s : PartitionSortClassifer 2 RuleValueInt} (h : keepsPlace c s = true) :
    @Call.KeepsPlace RuleValueInt fourTrees _ _ .insertion c s := by
  cases c with
  | tryInsert rule mask i =>
    rintro s₂ ⟨s₁, n, -, hregister, -, hrun⟩
    have hrun' : run .insertion fourTrees 30 (.update (s.trees.get i) (some rule)) s₁ =
        .ok () s₂ := by
      refine runBounded_eq_ok hrun fun s' hdeep => ?_
      have hdeep' : run .insertion fourTrees 30 (.update (s.trees.get i) (some rule)) s₁ =
        .error .tooDeep s' := hdeep
      simp only [keepsPlace, hregister, hdeep'] at h
      simp at h
    simp only [keepsPlace, hregister, hrun'] at h
    exact of_decide_eq_true h
  | update t rule => trivial
  | rebuild t j => trivial
  | tryTrees rule mask first cnt i => trivial
  | insert rule => trivial

/-- The first layer of a tree is one node with at most one key. -/
private def oneKey (pool : NodeAllocator RuleValueInt) (t : BTree 2) : Bool :=
  match t.root with
  | some n => (pool.mempool.get n).isLeaf && decide ((pool.mempool.get n).keyCnt ≤ 1)
  | none => true

private theorem keys_pairwise_of_oneKey {pool : NodeAllocator RuleValueInt} {t : BTree 2}
    (h : oneKey pool t = true) {trie : Trie Range1d RuleValueInt} {fp : Multiset ℕ}
    {sh : CompressedShape}
    (hd : Denotes fourTrees.toBTreeCfg sh pool.mempool 0 (.link t.root) trie fp)
    (R : Range1d → Range1d → Prop) : trie.keys.Pairwise R := by
  unfold oneKey at h
  split at h
  next n hroot =>
    simp only [Bool.and_eq_true, decide_eq_true_eq] at h
    exact hd.keys_pairwise_of_oneKey (fun m hm => by rwa [← Option.some.inj (hroot.symm.trans hm)]) R
  next hroot =>
    rw [hroot] at hd
    obtain ⟨rfl, -⟩ := hd.of_null
    exact .nil

/-- The call keeps the trees in their places, as far as can be told by running it. -/
private def keepsPlaces : Operation 2 RuleValueInt → PartitionSortClassifer 2 RuleValueInt → Bool
  | .insert rule, s => (callsInside (body .insertion fourTrees) ClassifierFault.tooDeep 30
      (.insert rule, s)).all fun g => keepsPlace g.1 g.2
  | .remove rule, s =>
      (match unregister fourTrees rule s with
        | .ok (some t) s₁ => (callsInside (body .insertion fourTrees) ClassifierFault.tooDeep 30
            (.update t none, s₁)).all fun g => keepsPlace g.1 g.2
        | _ => true) &&
      match UnorderedMap.find s.ruleToTree rule with
      | some t => oneKey s.pool (s.infos.get t).tree &&
          decide ((s.infos.get t).tree.Detachable fourTrees.toBTreeCfg s.pool rule)
      | none => true

private theorem keepsPlace_inside {f g : Call 2 RuleValueInt × PartitionSortClassifer 2 RuleValueInt}
    (h : (callsInside (body .insertion fourTrees) ClassifierFault.tooDeep 30 f).all
      (fun g => keepsPlace g.1 g.2) = true)
    {a : f.1.Res} {s' : PartitionSortClassifer 2 RuleValueInt}
    (hrun : run .insertion fourTrees 30 f.1 f.2 = .ok a s')
    (hg : Inside .insertion fourTrees f g) :
    @Call.KeepsPlace RuleValueInt fourTrees _ _ .insertion g.1 g.2 := by
  refine keepsPlace_of_check (List.all_eq_true.mp h g (mem_callsInside (fun t ht => ?_) hg))
  have hdeep : run .insertion fourTrees 30 f.1 f.2 = .error .tooDeep t := ht
  rw [hrun] at hdeep
  cases hdeep

private theorem keepsPlaces_of_check {op : Operation 2 RuleValueInt}
    {s s' : PartitionSortClassifer 2 RuleValueInt} (h : keepsPlaces op s = true)
    (hrun : op.run .insertion fourTrees 30 s = .ok () s') :
    Operation.KeepsPlaces .insertion fourTrees op s := by
  cases op with
  | insert rule =>
    rw [Operation.run, ← run_insert] at hrun
    refine ⟨fun root g henters hg => ?_, fun _ _ heq => by cases heq⟩
    obtain rfl := henters.of_insert
    exact keepsPlace_inside h hrun hg
  | remove rule =>
    rw [Operation.run, removeRule_eq] at hrun
    obtain ⟨hcalls, hdetaches⟩ := (Bool.and_eq_true _ _).mp h
    refine ⟨fun root g henters hg => ?_, fun rule' t heq hfind => ?_⟩
    · obtain ⟨t, s₁, hun, rfl⟩ := henters.of_remove
      rw [bind_of_ok hun] at hrun
      rw [hun] at hcalls
      exact keepsPlace_inside hcalls hrun hg
    · cases heq
      rw [hfind] at hdetaches
      obtain ⟨hone, hdetachable⟩ := (Bool.and_eq_true _ _).mp hdetaches
      exact ⟨of_decide_eq_true hdetachable, fun _ _ hd => keys_pairwise_of_oneKey hone hd _⟩

/-- The second rule overlaps the first one and gets a tree in front of it, and the first one is
removed again. -/
theorem rankedTrees_of_performed_removed :
    ∃ s : PartitionSortClassifer 2 RuleValueInt,
      (List.range s.treeCnt).map (fun i => s.maxPriority (s.trees.get i)) = [7, 4] ∧
        RankedTrees fourTrees s := by
  have h : (performAll keepsPlaces [.insert (ruleOf ⟨5, 5⟩ ⟨0, 255⟩ 4 1),
      .insert (ruleOf ⟨0, 9⟩ ⟨0, 255⟩ 7 2), .remove (ruleOf ⟨5, 5⟩ ⟨0, 255⟩ 4 1)]
        (make 2 unusedPool)).any (fun s => decide ((List.range s.treeCnt).map
          (fun i => s.maxPriority (s.trees.get i)) = [7, 4])) = true := by decide +kernel
  obtain ⟨s, hs, htest⟩ := (Option.any_eq_true _ _).mp h
  have hrun := Performed.performAll (fun _ _ _ => keepsPlaces_of_check) .make hs
  exact ⟨s, of_decide_eq_true htest,
    rankedTrees_of_performed (by decide) (by decide) (owns_make 64 _) hrun⟩

end Short

end Runs

end PartitionSortClassifer

end Pcv
