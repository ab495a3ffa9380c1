import Pcv.PartitionSort.BTreeToRules
import Pcv.PartitionSort.ClassifierTermination

/-!
# Runs of the classifier

A run is a sequence of calls of `insert` and `remove` on a new classifier.  A call that
throws leaves a state behind, too; which errors a run may go on after is a parameter.

The first main result is that every call ends, in every reachable state: from some bound
on the depth of the calls its outcome is always the same.  Neither is a tree rebuilt
while it is being rebuilt, nor are more rebuilds nested than there are trees.  The
second one is about the exception for a classifier whose trees are all in use: it leaves
the classifier as it was exactly when the rule collides with a rule in every tree, so
that no tree took it on the way.
-/

namespace Pcv

namespace PartitionSortClassifer

/-- A call of the interface. -/
inductive Operation (D : ℕ) (V : Type)
  | insert (rule : RuleSpec D V)
  | remove (rule : RuleSpec D V)

section Runs

variable {V : Type} [DecidableEq V] [RuleValue V] (std : IntervalSort) (cfg : ClassifierCfg)

/-- What a call of the interface does. -/
def Operation.run (fuel : ℕ) : Operation cfg.D V → M cfg.D V Unit
  | .insert rule => insertRule std cfg fuel rule
  | .remove rule => removeRule std cfg fuel rule

/-- The states a classifier can get to by calls that return, and by calls that fail with an
error that the run survives. -/
inductive Reaches (survives : ClassifierFault → Prop) : PartitionSortClassifer cfg.D V → Prop
  | make (pool : NodeAllocator V) : Reaches survives (make cfg.D pool)
  | returned {s s' : PartitionSortClassifer cfg.D V} {fuel : ℕ} {op : Operation cfg.D V} :
      Reaches survives s → op.run std cfg fuel s = .ok () s' → Reaches survives s'
  | failed {s s' : PartitionSortClassifer cfg.D V} {fuel : ℕ} {op : Operation cfg.D V}
      {e : ClassifierFault} : Reaches survives s → op.run std cfg fuel s = .error e s' →
        survives e → Reaches survives s'

/-- The call of the recursion that a call of the interface makes, in the state it makes it in. -/
inductive Operation.Enters : Operation cfg.D V → PartitionSortClassifer cfg.D V →
    Call cfg.D V × PartitionSortClassifer cfg.D V → Prop
  | insert (rule : RuleSpec cfg.D V) (s : PartitionSortClassifer cfg.D V) :
      Enters (.insert rule) s (.insert rule, s)
  | remove {rule : RuleSpec cfg.D V} {t : ℕ} {s s' : PartitionSortClassifer cfg.D V} :
      unregister cfg rule s = .ok (some t) s' → Enters (.remove rule) s (.update t none, s')

/-- The state after the rules have been inserted one after the other, if no insertion fails. -/
def afterInserts (fuel : ℕ) :
    List (RuleSpec cfg.D V) → PartitionSortClassifer cfg.D V → Option (PartitionSortClassifer cfg.D V)
  | [], s => some s
  | rule :: rules, s =>
      match insertRule std cfg fuel rule s with
      | .ok () s' => afterInserts fuel rules s'
      | .error _ _ => none

variable {std cfg}

/-! ## The books in a run -/

omit [RuleValue V] in
theorem tidy_make (pool : NodeAllocator V) : Tidy cfg (make cfg.D pool) where
  treeCnt_le := Nat.zero_le _
  trees_lt := fun _ hi => hi
  trees_inj := fun _ _ _ _ hij => hij
  spare := fun _ _ _ => ⟨rfl, rfl⟩
  located := nofun

/-- What a removal does up to the call of `update_dimension_order`. -/
theorem ensures_unregister {s : PartitionSortClassifer cfg.D V} (hs : Tidy cfg s)
    (rule : RuleSpec cfg.D V) :
    Ensures (fun e s' => (∃ fault, e = .node fault) ∧ Follows cfg ∅ s s') (unregister cfg rule) s
      fun a s' => Follows cfg ∅ s s' ∧ ∀ t, a = some t → s'.InUse t := by
  refine .bind (.get ?_)
  cases hfind : UnorderedMap.find s.ruleToTree rule with
  | none => exact .pure ⟨.refl hs, nofun⟩
  | some t =>
    have ht := hs.located rule t hfind
    refine .bind ((ensures_onTree _ t s).conseq
      (fun e s' he => ⟨he.1, he.2.follows hs (Or.inr rfl)⟩) fun _ s₁ h₁ => ?_)
    have hf₁ : Follows cfg ∅ s s₁ := h₁.follows hs (Or.inr rfl)
    set s₂ : PartitionSortClassifer cfg.D V :=
      { s₁ with ruleToTree := UnorderedMap.erase s₁.ruleToTree rule } with hs₂
    have hf₂ : Follows cfg ∅ s s₂ := by
      refine ⟨⟨hf₁.tidy.treeCnt_le, hf₁.tidy.trees_lt, hf₁.tidy.trees_inj, hf₁.tidy.spare, ?_⟩,
        ⟨⟨hf₁.grows.rules, hf₁.grows.treeCnt, hf₁.grows.inUse, hf₁.grows.pending⟩, nofun⟩,
          hf₁.pending⟩
      intro r t' hr
      rw [hs₂, UnorderedMap.find_erase] at hr
      split at hr
      · cases hr
      · exact hf₁.tidy.located r t' hr
    refine .bind (.modify (.bind (.get ?_)))
    cases hmask : usedRuleMaskDecr (s₂.infos.get t) (rule.getRuleMask cfg.keyBytes) with
    | none => exact .bind (.throw ⟨⟨.outOfRange, rfl⟩, hf₂⟩)
    | some ti =>
      obtain ⟨masks, rfl⟩ := usedRuleMaskDecr_eq hmask
      refine .bind ((ensures_updateInfo (l := []) (b := s₂.pending t)
        (List.append_nil _).symm rfl).mono fun _ s₃ h₃ => ?_)
      have hf₃ := hf₂.trans (h₃.follows hf₂.tidy (Or.inr rfl))
      refine .bind (.get (.ite (fun _ => .pure ⟨hf₃, ?_⟩) fun _ => .pure ⟨hf₃, nofun⟩))
      rintro t' heq
      cases heq
      exact hf₃.grows.inUse t ht

omit [DecidableEq V] [RuleValue V] in
theorem remaining_lt_of_nests (c : Call cfg.D V) (s : PartitionSortClassifer cfg.D V)
    (c' : Call cfg.D V) (s' : PartitionSortClassifer cfg.D V) (h : Nests cfg c s c' s') :
    remaining cfg c' s' < remaining cfg c s :=
  h.1

omit [RuleValue V] in
theorem not_err_tooDeep (c : Call cfg.D V) (s s' : PartitionSortClassifer cfg.D V) :
    ¬ (books cfg ∅).err c s .tooDeep s' :=
  fun h => h.1 rfl

/-- A call of the interface keeps the books tidy. -/
theorem Operation.ensures_run (op : Operation cfg.D V) (fuel : ℕ)
    {s : PartitionSortClassifer cfg.D V} (hs : Tidy cfg s) :
    Ensures (fun e s' => e ≠ .tooDeep → Tidy cfg s') (op.run std cfg fuel) s
      fun _ s' => Follows cfg ∅ s s' := by
  have hcall : ∀ (c : Call cfg.D V) (s₁ : PartitionSortClassifer cfg.D V), Follows cfg ∅ s s₁ →
      c.Entered ∅ s₁ → Ensures (fun e s' => e ≠ .tooDeep → Tidy cfg s')
        (PartitionSortClassifer.run std cfg fuel c) s₁ fun _ s' => Follows cfg ∅ s s' := by
    intro c s₁ h₁ hc
    refine ((books_met std).ensures_or fuel (hc.pre_books h₁.tidy)).conseq
      (fun e s' he hne => ?_) fun _ s' h => h₁.trans h.1
    rcases he with he | he
    · exact (hne he).elim
    · exact he.2.1
  cases op with
  | insert rule =>
    rw [Operation.run, ← run_insert]
    exact hcall (.insert rule) s (.refl hs) trivial
  | remove rule =>
    rw [Operation.run, removeRule_eq]
    refine .bind ((ensures_unregister hs rule).conseq (fun e s' he _ => he.2.tidy)
      fun a s₁ h₁ => ?_)
    cases a with
    | none => exact .pure h₁.1
    | some t => exact hcall (.update t none) s₁ h₁.1 (Call.entered_update (h₁.2 t rfl))

variable {survives : ClassifierFault → Prop}

theorem Reaches.tidy (hsurvives : ¬ survives .tooDeep) {s : PartitionSortClassifer cfg.D V}
    (h : Reaches std cfg survives s) : Tidy cfg s := by
  induction h with
  | make pool => exact tidy_make pool
  | returned _ hrun ih => exact ((Operation.ensures_run _ _ ih).ok hrun).tidy
  | failed _ hrun he ih =>
    exact Ensures.error (Operation.ensures_run _ _ ih) hrun fun h => hsurvives (h ▸ he)

/-- Where every call returned, no tree is being updated. -/
theorem Reaches.not_pending {s : PartitionSortClassifer cfg.D V}
    (h : Reaches std cfg (fun _ => False) s) (t : ℕ) : s.pending t = false := by
  induction h with
  | make pool => rfl
  | returned hs hrun ih =>
    exact (((Operation.ensures_run _ _ (hs.tidy id)).ok hrun).pending t).trans ih
  | failed _ _ he _ => exact he.elim

theorem Reaches.afterInserts {fuel : ℕ} {rules : List (RuleSpec cfg.D V)}
    {s s' : PartitionSortClassifer cfg.D V} (h : Reaches std cfg survives s)
    (hs : afterInserts std cfg fuel rules s = some s') : Reaches std cfg survives s' := by
  induction rules generalizing s with
  | nil =>
    cases hs
    exact h
  | cons rule rules ih =>
    rw [PartitionSortClassifer.afterInserts] at hs
    split at hs
    next s₁ hrun =>
      have hop : (Operation.insert rule).run std cfg fuel s = .ok () s₁ := hrun
      exact ih (h.returned hop) hs
    next => cases hs

/-! ## Every call ends -/

/-- The trees whose updates the calls of a stack have begun, save those that were being updated
before. -/
def updating : List (Call cfg.D V × PartitionSortClassifer cfg.D V) → List ℕ
  | [] => []
  | (.update t _, s) :: fs => if s.pending t then updating fs else t :: updating fs
  | _ :: fs => updating fs

variable (std cfg) in
/-- A call of the interface ends, with the trees of its rebuilds all different. -/
structure Operation.Terminates (op : Operation cfg.D V) (s : PartitionSortClassifer cfg.D V) :
    Prop where
  settles : ∃ r, (∀ s', r ≠ .error .tooDeep s') ∧
    ∃ n, ∀ fuel, n ≤ fuel → op.run std cfg fuel s = r
  nodup : ∀ root stack, op.Enters cfg s root → CallStack (body std cfg) .tooDeep root stack →
    (updating stack).Nodup
  length_le : ∀ root stack, op.Enters cfg s root → CallStack (body std cfg) .tooDeep root stack →
    (updating stack).length ≤ cfg.MAX_TREE_CNT
  not_pending : ∀ fuel s', op.run std cfg fuel s = .ok () s' → ∀ t, s'.pending t = false

/-- What holds of a stack whose innermost call is `g`. -/
private structure Stacked (g : Call cfg.D V × PartitionSortClassifer cfg.D V)
    (fs : List (Call cfg.D V × PartitionSortClassifer cfg.D V)) : Prop where
  pre : (books cfg ∅).pre g.1 g.2
  pending : ∀ t ∈ updating fs, g.2.pending t
  nodup : (updating (g :: fs)).Nodup
  lt : ∀ t ∈ updating (g :: fs), t < cfg.MAX_TREE_CNT

omit [RuleValue V] in
private theorem Stacked.push {g : Call cfg.D V × PartitionSortClassifer cfg.D V}
    {fs : List (Call cfg.D V × PartitionSortClassifer cfg.D V)} (hpre : (books cfg ∅).pre g.1 g.2)
    (hpend : ∀ t ∈ updating fs, g.2.pending t) (hnodup : (updating fs).Nodup)
    (hlt : ∀ t ∈ updating fs, t < cfg.MAX_TREE_CNT) : Stacked g fs := by
  obtain ⟨c, s⟩ := g
  cases c with
  | update t rule =>
    by_cases ht : s.pending t
    · exact ⟨hpre, hpend, by simpa [updating, ht] using hnodup, by simpa [updating, ht] using hlt⟩
    · refine ⟨hpre, hpend, ?_, ?_⟩
      · simp only [updating, ht, Bool.false_eq_true, if_false, List.nodup_cons]
        exact ⟨fun hmem => ht (hpend t hmem), hnodup⟩
      · simp only [updating, ht, Bool.false_eq_true, if_false, List.mem_cons, forall_eq_or_imp]
        exact ⟨InUse.lt hpre.2.2.1 hpre.1, hlt⟩
  | rebuild t j => exact ⟨hpre, hpend, hnodup, hlt⟩
  | tryInsert rule mask i => exact ⟨hpre, hpend, hnodup, hlt⟩
  | tryTrees rule mask first cnt i => exact ⟨hpre, hpend, hnodup, hlt⟩
  | insert rule => exact ⟨hpre, hpend, hnodup, hlt⟩

private theorem CallStack.stacked {root : Call cfg.D V × PartitionSortClassifer cfg.D V}
    {stack : List (Call cfg.D V × PartitionSortClassifer cfg.D V)}
    (hroot : (books cfg ∅).pre root.1 root.2)
    (h : CallStack (body std cfg) ClassifierFault.tooDeep root stack) :
    ∃ g fs, stack = g :: fs ∧ Stacked g fs := by
  induction h with
  | root => exact ⟨root, [], rfl, .push hroot nofun List.nodup_nil nofun⟩
  | @call f g fs _ hg ih =>
    obtain ⟨f', fs', heq, hst⟩ := ih
    cases heq
    have hg' := (books_met std).of_calls remaining_lt_of_nests not_err_tooDeep hst.pre hg
    refine ⟨g, f :: fs, rfl, .push hg'.1 (fun t ht => hg'.2.2 t ?_) hst.nodup hst.lt⟩
    -- the trees of the stack have their marks since their updates began
    obtain ⟨c, s⟩ := f
    cases c with
    | update t' rule =>
      rw [updating] at ht
      split at ht
      · exact Or.inl (hst.pending t ht)
      · rcases List.mem_cons.mp ht with rfl | ht
        · exact Or.inr ⟨rule, rfl⟩
        · exact Or.inl (hst.pending t ht)
    | rebuild t' j => exact Or.inl (hst.pending t ht)
    | tryInsert rule mask i => exact Or.inl (hst.pending t ht)
    | tryTrees rule mask first cnt i => exact Or.inl (hst.pending t ht)
    | insert rule => exact Or.inl (hst.pending t ht)

theorem Operation.Enters.of_insert {rule : RuleSpec cfg.D V} {s : PartitionSortClassifer cfg.D V}
    {root : Call cfg.D V × PartitionSortClassifer cfg.D V}
    (h : (Operation.insert rule).Enters cfg s root) : root = (.insert rule, s) := by
  cases h
  rfl

theorem Operation.Enters.of_remove {rule : RuleSpec cfg.D V} {s : PartitionSortClassifer cfg.D V}
    {root : Call cfg.D V × PartitionSortClassifer cfg.D V}
    (h : (Operation.remove rule).Enters cfg s root) :
    ∃ t s', unregister cfg rule s = .ok (some t) s' ∧ root = (.update t none, s') := by
  cases h with
  | remove hun => exact ⟨_, _, hun, rfl⟩

/-- What the calls of the recursion rely on holds where the interface makes them. -/
theorem Operation.Enters.pre {op : Operation cfg.D V} {s : PartitionSortClassifer cfg.D V}
    {root : Call cfg.D V × PartitionSortClassifer cfg.D V} (h : op.Enters cfg s root)
    (hs : Tidy cfg s) : (books cfg ∅).pre root.1 root.2 := by
  cases h with
  | insert rule => exact (Call.entered_insert rule _).pre_books hs
  | remove hun =>
    have := (ensures_unregister hs _).ok hun
    exact (Call.entered_update (this.2 _ rfl)).pre_books this.1.tidy

theorem Operation.settles (op : Operation cfg.D V) {s : PartitionSortClassifer cfg.D V}
    (hs : Tidy cfg s) : ∃ r, (∀ s', r ≠ .error .tooDeep s') ∧
      ∃ n, ∀ fuel, n ≤ fuel → op.run std cfg fuel s = r := by
  cases op with
  | insert rule =>
    obtain ⟨r, hr, n, hn⟩ := (books_met std).settles remaining_lt_of_nests not_err_tooDeep
      ((Call.entered_insert rule s).pre_books hs)
    refine ⟨r, hr, n, fun fuel hfuel => ?_⟩
    rw [Operation.run, ← run_insert]
    exact hn fuel hfuel
  | remove rule =>
    simp only [Operation.run, removeRule_eq]
    have hspec := ensures_unregister hs rule
    cases hun : unregister cfg rule s with
    | error e s' =>
      obtain ⟨⟨fault, rfl⟩, -⟩ := hspec.error hun
      refine ⟨.error (.node fault) s', fun _ => nofun, 0, fun fuel _ => ?_⟩
      rw [bind_of_error hun]
    | ok a s₁ =>
      obtain ⟨hf, hin⟩ := hspec.ok hun
      cases a with
      | none =>
        refine ⟨.ok () s₁, fun _ => nofun, 0, fun fuel _ => ?_⟩
        rw [bind_of_ok hun]
        rfl
      | some t =>
        obtain ⟨r, hr, n, hn⟩ := (books_met std).settles remaining_lt_of_nests not_err_tooDeep
          ((Call.entered_update (hin t rfl)).pre_books hf.tidy)
        refine ⟨r, hr, n, fun fuel hfuel => ?_⟩
        rw [bind_of_ok hun]
        exact hn fuel hfuel

variable (std cfg) in
/-- The classifier was left as it was: the searches and the rules stored are the same, no tree is
being updated, and later calls do what they would have done before. -/
structure LeftAsItWas (s s' : PartitionSortClassifer cfg.D V) : Prop where
  search : ∀ val, search cfg s' val = search cfg s val
  stored : ∀ rule t, UnorderedMap.find s.ruleToTree rule = some t →
    UnorderedMap.find s'.ruleToTree rule = some t ∧
      (s'.infos.get t).tree.toRules cfg.toBTreeCfg s'.pool =
        (s.infos.get t).tree.toRules cfg.toBTreeCfg s.pool
  not_pending : ∀ t, s'.pending t = false
  later : ∀ fuel (op : Operation cfg.D V), op.run std cfg fuel s' = op.run std cfg fuel s

/-- In every reachable state, an insertion that fails because all trees are in use leaves the
classifier as it was exactly if no tree is being updated, and the rule collides with a rule in
every tree. -/
theorem leftAsItWas_iff {s s' : PartitionSortClassifer cfg.D V}
    (h : Reaches std cfg (fun e => e ≠ .tooDeep) s) {fuel : ℕ} {rule : RuleSpec cfg.D V}
    (hfail : insertRule std cfg fuel rule s = .error .allTreesUsed s') :
    LeftAsItWas std cfg s s' ↔
      (∀ t, s.pending t = false) ∧ ColidesEverywhere cfg s rule := by
  have hs := h.tidy fun hne => hne rfl
  rw [← run_insert] at hfail
  have hbooks := Ensures.error ((books_met std).ensures_or fuel
    ((Call.entered_insert rule s).pre_books hs)) hfail
  obtain hdeep | ⟨-, -, hgrows, hall⟩ := hbooks
  · cases hdeep
  constructor
  · intro hleft
    rcases hall rfl with ⟨_, heq, rfl, hcol⟩ | ⟨-, t, ht⟩
    · cases heq
      exact ⟨hleft.not_pending, hcol⟩
    · rw [hleft.not_pending t] at ht
      cases ht
  · rintro ⟨hpend, hcol⟩
    rcases hall rfl with ⟨_, -, rfl, -⟩ | ⟨⟨k, hk, hfree⟩, -⟩
    · exact ⟨fun _ => rfl, fun _ _ hr => ⟨hr, rfl⟩, hpend, fun _ _ => rfl⟩
    · rw [hcol k hk] at hfree
      cases hfree

/-! ## A classifier of one tree -/

section OneTree

/-- Two fields of one byte, one tree. -/
private abbrev oneTree : ClassifierCfg := ⟨⟨1, 2, 2, true⟩, 1, 10⟩

private abbrev everything : RuleSpec 2 RuleValueInt :=
  ⟨#v[⟨0, 255⟩, ⟨0, 255⟩], RuleValueInt.make 1 1⟩

private abbrev secondField : RuleSpec 2 RuleValueInt :=
  ⟨#v[⟨0, 255⟩, ⟨1, 1⟩], RuleValueInt.make 1 2⟩

private abbrev firstField : RuleSpec 2 RuleValueInt :=
  ⟨#v[⟨1, 1⟩, ⟨0, 255⟩], RuleValueInt.make 1 3⟩

private abbrev empty : PartitionSortClassifer 2 RuleValueInt :=
  make 2 (DynamicMempool.make 8 (Node.make oneTree.toBTreeCfg))

/-- The state after the first rule, and the one in which the second rule fails. -/
private def failsFor (rule : RuleSpec 2 RuleValueInt) (test : PartitionSortClassifer 2 RuleValueInt →
    Bool) : Bool :=
  match insertRule .insertion oneTree 20 everything empty with
  | .ok () s =>
      match insertRule .insertion oneTree 20 rule s with
      | .error .allTreesUsed s' => test s'
      | _ => false
  | .error _ _ => false

private theorem exists_of_failsFor {rule : RuleSpec 2 RuleValueInt}
    {test : PartitionSortClassifer 2 RuleValueInt → Bool} (h : failsFor rule test = true) :
    ∃ s s', Reaches .insertion oneTree (fun e => e ≠ .tooDeep) s ∧
      insertRule .insertion oneTree 20 rule s = .error .allTreesUsed s' ∧ test s' = true := by
  unfold failsFor at h
  split at h
  next s hs =>
    split at h
    next s' hs' =>
      have hrun : (Operation.insert everything).run .insertion oneTree 20 empty = .ok () s := hs
      exact ⟨s, s', .returned (.make _) hrun, hs', h⟩
    next => cases h
  next => cases h

/-- A rule that meets the first one in the first field goes into no tree. -/
theorem leftAsItWas_iff_oneTree :
    ∃ s s', insertRule .insertion oneTree 20 firstField s = .error .allTreesUsed s' ∧
      (LeftAsItWas .insertion oneTree s s' ↔
        (∀ t, s.pending t = false) ∧ ColidesEverywhere oneTree s firstField) := by
  obtain ⟨s, s', hreach, hfail, -⟩ :=
    exists_of_failsFor (show failsFor firstField (fun _ => true) = true by decide +kernel)
  exact ⟨s, s', hfail, leftAsItWas_iff hreach hfail⟩

/-- A rule for the second field only fits in beside the first one, but the tree is rebuilt for it
in an order in which it does not.  The insertion fails in the rebuild, and the mark stays. -/
theorem not_leftAsItWas_oneTree :
    ∃ s s', Reaches .insertion oneTree (fun e => e ≠ .tooDeep) s ∧
      insertRule .insertion oneTree 20 secondField s = .error .allTreesUsed s' ∧
        ¬ LeftAsItWas .insertion oneTree s s' := by
  obtain ⟨s, s', hreach, hfail, hpend⟩ :=
    exists_of_failsFor (show failsFor secondField (fun s' => s'.pending 0) = true by decide +kernel)
  refine ⟨s, s', hreach, hfail, fun hleft => ?_⟩
  rw [hleft.not_pending 0] at hpend
  cases hpend

end OneTree

end Runs

end PartitionSortClassifer

end Pcv
