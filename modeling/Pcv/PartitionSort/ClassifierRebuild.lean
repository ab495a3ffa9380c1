import Pcv.PartitionSort.ClassifierRuns

/-!
# What the loop of a rebuild reads

A rebuild walks over the copy of the rules of its tree, and the rules that no longer fit
in go to other trees by calls of `insert`.  Those calls may rebuild further trees, and a
rule that such a rebuild passes on may fit into the tree whose rebuild is still running:
it is taken in by `try_insert_to_tree_without_collisions`, which appends it to the copy
under the loop.

`keepsLoops_iff` says that this is the only way the copy is changed under the loop.  The
last part of the module is a run of five insertions in which it happens.
-/

namespace Pcv

namespace PartitionSortClassifer

section Loops

variable {V : Type} [DecidableEq V] [RuleValue V] (std : IntervalSort) (cfg : ClassifierCfg)

/-- One call makes the other. -/
abbrev CallsOf (f g : Call cfg.D V × PartitionSortClassifer cfg.D V) : Prop :=
  Calls (body std cfg) ClassifierFault.tooDeep f g

/-- One call is the other, or makes it, or makes a call in which it is made. -/
abbrev Inside (f g : Call cfg.D V × PartitionSortClassifer cfg.D V) : Prop :=
  Relation.ReflTransGen (CallsOf std cfg) f g

/-- The insertion `g` is made in a turn of the loop that rebuilds the tree `t`; the turn begins in
the state `s₁`. -/
def Operation.InLoop (op : Operation cfg.D V) (s : PartitionSortClassifer cfg.D V) (t : ℕ)
    (s₁ : PartitionSortClassifer cfg.D V) (g : Call cfg.D V × PartitionSortClassifer cfg.D V) :
    Prop :=
  ∃ root j, op.Enters cfg s root ∧ Inside std cfg root (.rebuild t j, s₁) ∧
    CallsOf std cfg (.rebuild t j, s₁) g ∧ ∃ rule, g.1 = .insert rule

/-- The loop that rebuilds the tree `t` gets to the index `j`. -/
inductive Turns (t : ℕ) (s₀ : PartitionSortClassifer cfg.D V) :
    ℕ → PartitionSortClassifer cfg.D V → Prop
  | zero : Turns t s₀ 0 s₀
  | succ {j : ℕ} {s₁ s₂ : PartitionSortClassifer cfg.D V} : Turns t s₀ j s₁ →
      CallsOf std cfg (.rebuild t j, s₁) (.rebuild t (j + 1), s₂) → Turns t s₀ (j + 1) s₂

/-- Nothing that is called in the loop of a rebuild changes the rules the loop walks over,
whichever way it ends, and so the loop walks over the rules the tree had at its start. -/
structure Operation.KeepsLoops (op : Operation cfg.D V) (s : PartitionSortClassifer cfg.D V) :
    Prop where
  untouched : ∀ t s₁ g u, op.InLoop std cfg s t s₁ g →
    Ends (body std cfg) ClassifierFault.tooDeep g u → u.rules t = s₁.rules t
  walks : ∀ root t s₀ j s₁, op.Enters cfg s root → Inside std cfg root (.rebuild t 0, s₀) →
    Turns std cfg t s₀ j s₁ → s₁.rules t = s₀.rules t

/-- No rule that is passed on in the loop of a rebuild passes the check for a collision with the
tree that is being rebuilt. -/
def Operation.StaysOut (op : Operation cfg.D V) (s : PartitionSortClassifer cfg.D V) : Prop :=
  ∀ t s₁ g rule mask i s₃, op.InLoop std cfg s t s₁ g →
    Inside std cfg g (.tryInsert rule mask i, s₃) → s₃.trees.get i = t →
      colides cfg s₃ t rule ≠ .ok false

variable {std cfg}

/-! ## The calls of a turn -/

/-- In a turn of the loop, a rule that collides is inserted by a call in the state the turn began
in. -/
theorem calls_rebuild {t j : ℕ} {s : PartitionSortClassifer cfg.D V}
    {g : Call cfg.D V × PartitionSortClassifer cfg.D V}
    (h : CallsOf std cfg (.rebuild t j, s) g) :
    ∃ r, (s.rules t)[j]? = some r ∧
      (g = (.insert r, s) ∨
        (g.1 = .rebuild t (j + 1) ∧ CallsOf std cfg (.rebuild t j, s) (.insert r, s) ∧
          Ends (body std cfg) ClassifierFault.tooDeep (.insert r, s) g.2) ∨
        (g.1 = .rebuild t (j + 1) ∧ g.2.rules t = s.rules t)) := by
  obtain ⟨n, hn⟩ := h
  simp only [body, Prog.makes_bind, Prog.makes_perform, false_or, Prog.exec_perform] at hn
  obtain ⟨s₀, s₁, hget, hn⟩ := hn
  obtain ⟨rfl, rfl⟩ : s = s₀ ∧ s = s₁ := by
    cases hget
    exact ⟨rfl, rfl⟩
  cases hj : (s.rules t)[j]? with
  | none =>
    rw [hj] at hn
    exact hn.elim
  | some r =>
    rw [hj] at hn
    refine ⟨r, rfl, ?_⟩
    simp only [Prog.makes_bind, Prog.makes_perform, false_or, Prog.exec_perform] at hn
    obtain ⟨b, s₁, hcol, hn⟩ := hn
    obtain ⟨heq, -⟩ := (ensures_collides r s).ok hcol
    subst s₁
    obtain ⟨c', s'⟩ := g
    cases b with
    | true =>
      simp only [if_true, Prog.makes_bind, Prog.makes_invoke, Prog.exec_invoke] at hn
      rcases hn with ⟨rfl, rfl⟩ | ⟨a, s₁, hrun, rfl, rfl⟩
      · exact Or.inl rfl
      · refine Or.inr (Or.inl ⟨rfl, ⟨n, ?_⟩, n, Or.inl ⟨a, hrun⟩⟩)
        simp only [body, Prog.makes_bind, Prog.makes_perform, false_or, Prog.exec_perform]
        refine ⟨s, s, rfl, ?_⟩
        rw [hj]
        simp only [Prog.makes_bind, Prog.makes_perform, false_or, Prog.exec_perform]
        refine ⟨true, s, hcol, ?_⟩
        simp only [if_true, Prog.makes_bind, Prog.makes_invoke]
        exact Or.inl ⟨trivial, trivial⟩
    | false =>
      simp only [Bool.false_eq_true, if_false, Prog.makes_bind, Prog.makes_perform, false_or,
        Prog.makes_invoke, Prog.exec_perform] at hn
      obtain ⟨a, s₁, hrun, rfl, rfl⟩ := hn
      refine Or.inr (Or.inr ⟨rfl, ?_⟩)
      have := (ensures_onTree _ t s).ok hrun
      rw [this.rules_self, List.append_nil]

/-! ## The copies of the rules only grow -/

omit [DecidableEq V] [RuleValue V] in
/-- No tree loses a rule from its copy. -/
def RulesGrow (s s' : PartitionSortClassifer cfg.D V) : Prop := ∀ t, s.rules t <+: s'.rules t

omit [DecidableEq V] [RuleValue V] in
private theorem RulesGrow.refl (s : PartitionSortClassifer cfg.D V) : RulesGrow s s :=
  fun _ => List.prefix_rfl

omit [DecidableEq V] [RuleValue V] in
private theorem RulesGrow.trans (s₁ s₂ s₃ : PartitionSortClassifer cfg.D V) (h : RulesGrow s₁ s₂)
    (h' : RulesGrow s₂ s₃) : RulesGrow s₁ s₃ :=
  fun t => (h t).trans (h' t)

omit [RuleValue V] in
private theorem Pushes.rulesGrow {t : ℕ} {rs : List (RuleSpec cfg.D V)} {b : Bool}
    {s s' : PartitionSortClassifer cfg.D V} (h : Pushes t rs b s s') : RulesGrow s s' := by
  intro t'
  rw [h.rules]
  split
  · exact List.prefix_append _ _
  · exact List.prefix_rfl

omit [RuleValue V] in
/-- A piece of a call that works on one tree lets the copies grow. -/
private theorem rulesGrow_of_pushes {α : Type} {x : M cfg.D V α} {t : ℕ}
    (h : ∀ s, ∃ rs b, Ensures (NodeFails t s) x s fun _ s' => Pushes t rs b s s')
    (s : PartitionSortClassifer cfg.D V) :
    Ensures (fun _ s' => RulesGrow s s') x s fun _ s' => RulesGrow s s' := by
  obtain ⟨rs, b, hx⟩ := h s
  exact hx.conseq (fun _ _ he => he.2.rulesGrow) fun _ _ h => h.rulesGrow

private theorem rulesGrow_raisePriority (rule : RuleSpec cfg.D V) (t i : ℕ)
    (s : PartitionSortClassifer cfg.D V) :
    Ensures (fun _ s' => RulesGrow s s') (raisePriority rule t i) s fun _ s' => RulesGrow s s' := by
  refine .bind (.get (.ite (fun _ => ?_) fun _ => .pure (.refl s)))
  exact .bind ((ensures_updateInfo (l := []) (List.append_nil _).symm rfl).mono
    fun _ s₁ h => .modify h.rulesGrow)

/-- What follows once a tree has taken a rule into its copy. -/
private theorem steps_of_taken (rule : RuleSpec cfg.D V) (t i : ℕ) (ti : TreeInfo cfg.D V) :
    (if ti.rules.length < cfg.TREE_FIXATION_THRESHOLD then do
        invoke (.update t (some rule))
        perform (raisePriority rule t i)
        return true
      else do
        perform (insertFixed cfg rule t ti)
        perform (raisePriority rule t i)
        return true : CallProg cfg.D V Bool).Steps (RulesGrow : PartitionSortClassifer cfg.D V → PartitionSortClassifer cfg.D V → Prop) := by
  have hraise : (perform (raisePriority rule t i) : CallProg cfg.D V Unit).Steps
      (RulesGrow : PartitionSortClassifer cfg.D V → PartitionSortClassifer cfg.D V → Prop) := .perform (rulesGrow_raisePriority rule t i)
  refine .ite (.bind (.invoke _) fun _ => .bind hraise fun _ => .pure _) ?_
  exact .bind (.perform (rulesGrow_of_pushes fun s => ⟨_, _, ensures_insertFixed rule ti s⟩))
    fun _ => .bind hraise fun _ => .pure _

/-- No step of a call takes a rule from a copy. -/
theorem steps_body (c : Call cfg.D V) :
    (body std cfg c).Steps (RulesGrow : PartitionSortClassifer cfg.D V → PartitionSortClassifer cfg.D V → Prop) := by
  have hget : (perform get : CallProg cfg.D V _).Steps (RulesGrow : PartitionSortClassifer cfg.D V → PartitionSortClassifer cfg.D V → Prop) :=
    .perform fun s => .get (.refl s)
  cases c with
  | update t rule =>
    refine .bind hget fun s => .ite (.perform (rulesGrow_of_pushes fun s =>
      ⟨_, _, ensures_insertPending rule s⟩)) (.bind (.perform (rulesGrow_of_pushes fun s =>
        ⟨_, _, ensures_beginUpdate rule s⟩)) fun _ => .bind hget fun s => .ite ?_ ?_)
    · exact .bind (.perform (rulesGrow_of_pushes fun s => ⟨_, _, ensures_emptyTree _ _ s⟩))
        fun _ => .bind (.invoke _) fun _ => .perform (rulesGrow_of_pushes fun s =>
          ⟨_, _, ensures_endUpdate s⟩)
    · exact .bind (.perform (rulesGrow_of_pushes fun s => ⟨_, _, ensures_insertGiven _ s⟩))
        fun _ => .perform (rulesGrow_of_pushes fun s => ⟨_, _, ensures_endUpdate s⟩)
  | rebuild t j =>
    refine .bind hget fun s => ?_
    cases (s.rules t)[j]? with
    | none => exact .pure _
    | some r =>
      refine .bind (.perform fun s => (ensures_collides r s).conseq (fun _ _ he => he.2.rulesGrow)
        fun _ s' h => h.1 ▸ .refl s) fun b => .ite (.bind (.invoke _) fun _ => .invoke _) ?_
      exact .bind (.perform (rulesGrow_of_pushes fun s => ⟨_, _, ensures_onTree _ t s⟩))
        fun _ => .invoke _
  | tryInsert rule mask i =>
    refine .bind hget fun s => .bind (.perform fun s' => (ensures_collides rule s').conseq
      (fun _ _ he => he.2.rulesGrow) fun _ s'' h => h.1 ▸ .refl s') fun b =>
        .ite (.pure _) (.bind (.perform (rulesGrow_of_pushes fun s =>
          ⟨_, _, ensures_register rule mask s⟩)) fun _ => .bind hget fun s =>
            steps_of_taken rule _ i _)
  | tryTrees rule mask first cnt i =>
    cases cnt with
    | zero => exact .pure _
    | succ cnt =>
      exact .bind hget fun s => .ite (.bind (.invoke _) fun b => .ite (.pure _) (.invoke _))
        (.invoke _)
  | insert rule =>
    refine .bind hget fun s => .bind (.invoke _) fun b => .ite (.pure _) (.bind hget fun s =>
      .bind (.invoke _) fun b => .ite (.pure _) (.bind hget fun s => .ite ?_
        (.perform fun s => .throw (.refl s))))
    refine .bind (.perform (rulesGrow_of_pushes fun s' => ⟨_, _, ensures_openTree std rule _ s'⟩))
      fun _ => .bind (.perform (rulesGrow_of_pushes fun s' => ⟨_, _, ensures_register rule _ s'⟩))
        fun _ => .bind hget fun s' => .ite (.bind (.invoke _) fun _ => ?_) ?_
    · exact .perform fun s => .bind (.modify (.bind (.get (.modify (.refl s)))))
    · exact .perform fun s => .bind (.modify (.bind (.get (.modify (.refl s)))))

theorem Inside.rulesGrow {f g : Call cfg.D V × PartitionSortClassifer cfg.D V}
    (h : Inside std cfg f g) : RulesGrow f.2 g.2 := by
  induction h with
  | refl => exact .refl _
  | tail _ hg ih => exact ih.trans _ _ _ (Calls.steps RulesGrow.refl RulesGrow.trans steps_body hg)

/-- When a call ends, the calls in it have ended, with no more rules in the copies. -/
theorem Inside.exists_ends {f g : Call cfg.D V × PartitionSortClassifer cfg.D V}
    (h : Inside std cfg f g) {u : PartitionSortClassifer cfg.D V}
    (hf : Ends (body std cfg) ClassifierFault.tooDeep f u) :
    ∃ u', Ends (body std cfg) ClassifierFault.tooDeep g u' ∧ RulesGrow u' u := by
  induction h with
  | refl => exact ⟨u, hf, .refl u⟩
  | tail _ hg ih =>
    obtain ⟨u₁, hu₁, hgrow₁⟩ := ih
    obtain ⟨u₂, hu₂, hgrow₂⟩ := hg.exists_ends RulesGrow.refl RulesGrow.trans steps_body hu₁
    exact ⟨u₂, hu₂, hgrow₂.trans _ _ _ hgrow₁⟩

/-- A rule that does not collide with a tree is appended to the copy of that tree. -/
theorem length_lt_of_tryInsert {rule : RuleSpec cfg.D V} {mask : RuleMask cfg.D} {i : ℕ}
    {s u : PartitionSortClassifer cfg.D V}
    (hfree : colides cfg s (s.trees.get i) rule = .ok false)
    (h : Ends (body std cfg) ClassifierFault.tooDeep (.tryInsert rule mask i, s) u) :
    (s.rules (s.trees.get i)).length < (u.rules (s.trees.get i)).length := by
  have hrun : ∀ n, Ensures (fun e u => e = .tooDeep ∨ (s.rules (s.trees.get i)).length <
      (u.rules (s.trees.get i)).length)
      (run std cfg n (.tryInsert rule mask i)) s
        fun _ u => (s.rules (s.trees.get i)).length <
      (u.rules (s.trees.get i)).length := by
    intro n
    cases n with
    | zero => exact .throw (Or.inl rfl)
    | succ n =>
      simp only [run, runBounded, body, Prog.exec_bind, Prog.exec_perform]
      refine .bind (.get (.bind_ok (collides_of_ok hfree) ?_))
      simp only [Bool.false_eq_true, if_false, Prog.exec_bind, Prog.exec_perform]
      refine .bind ((ensures_register rule mask s).mono fun _ s₁ h₁ => .bind (.get ?_))
      have hlt : ∀ u, RulesGrow s₁ u → (s.rules (s.trees.get i)).length <
      (u.rules (s.trees.get i)).length := by
        intro u hu
        have := (hu (s.trees.get i)).length_le
        rw [h₁.rules_self, List.length_append, List.length_singleton] at this
        omega
      exact ((steps_of_taken rule _ i _).exec RulesGrow.refl RulesGrow.trans
        (steps_runBounded RulesGrow.refl RulesGrow.trans steps_body n) s₁).conseq
          (fun _ u hu => Or.inr (hlt u hu)) fun _ u hu => hlt u hu
  obtain ⟨n, ⟨a, ha⟩ | ⟨e, hne, he⟩⟩ := h
  · exact (hrun n).ok ha
  · exact ((hrun n).error he).resolve_left hne

/-! ## The only way a copy is changed under the loop -/

section Iff

variable {op : Operation cfg.D V} {s s₁ : PartitionSortClassifer cfg.D V} {t : ℕ}
  {g : Call cfg.D V × PartitionSortClassifer cfg.D V}

theorem Inside.pre {f g : Call cfg.D V × PartitionSortClassifer cfg.D V}
    (h : Inside std cfg f g) (hf : (books cfg ∅).pre f.1 f.2) : (books cfg ∅).pre g.1 g.2 := by
  induction h with
  | refl => exact hf
  | tail _ hg ih => exact ((books_met std).of_calls remaining_lt_of_nests not_err_tooDeep ih hg).1

/-- An insertion made in the loop of a rebuild is made for a tree in use. -/
theorem Operation.InLoop.pre (h : op.InLoop std cfg s t s₁ g) (hs : Tidy cfg s) :
    Tidy cfg s₁ ∧ s₁.InUse t ∧ ∃ rule, g = (.insert rule, s₁) := by
  obtain ⟨root, j, hroot, hin, hg, rule, hrule⟩ := h
  obtain ⟨htidy, -, hinUse, -⟩ := hin.pre (hroot.pre hs)
  obtain ⟨r, -, rfl | ⟨heq, -⟩ | ⟨heq, -⟩⟩ := calls_rebuild hg
  · exact ⟨htidy, hinUse, r, rfl⟩
  · rw [hrule] at heq
    cases heq
  · rw [hrule] at heq
    cases heq

/-- Where no rule is taken in by the tree, its copy stays as it is. -/
theorem untouched_of_staysOut (hstays : op.StaysOut std cfg s)
    (h : op.InLoop std cfg s t s₁ g) (hs : Tidy cfg s) {u : PartitionSortClassifer cfg.D V}
    (hu : Ends (body std cfg) ClassifierFault.tooDeep g u) : u.rules t = s₁.rules t := by
  obtain ⟨htidy, hinUse, rule, rfl⟩ := h.pre hs
  have hrun : ∀ n, Ensures (fun e u => e = .tooDeep ∨ (books cfg {t}).err (.insert rule) s₁ e u)
      (run std cfg n (.insert rule)) s₁ ((books cfg {t}).post (.insert rule) s₁) := by
    intro n
    refine ensures_of_calls (books cfg {t}) (Nests cfg)
      (fun c s' => Inside std cfg (.insert rule, s₁) (c, s'))
      (fun c s' c' s'' hin hcall => hin.tail hcall) (fun c s' hpre hin => ?_) n (.insert rule) s₁
        ⟨htidy, ?_, trivial⟩ .refl
    · refine meets_books std hpre fun rule' mask i heq hmem => ?_
      subst heq
      exact Set.mem_singleton_iff.mp hmem ▸
        hstays t s₁ _ rule' mask i s' h hin (Set.mem_singleton_iff.mp hmem)
    · rintro _ rfl
      exact hinUse
  obtain ⟨n, ⟨a, ha⟩ | ⟨e, hne, he⟩⟩ := hu
  · exact ((hrun n).ok ha).1.keeps.kept t rfl
  · exact (((hrun n).error he).resolve_left hne).2.2.1.kept t rfl

end Iff

/-! ## A run of five insertions -/

section ThreeTrees

/-- Three fields of one byte, three trees. -/
private abbrev threeTrees : ClassifierCfg := ⟨⟨1, 3, 2, true⟩, 3, 10⟩

private abbrev newClassifier : PartitionSortClassifer 3 RuleValueInt :=
  make 3 (DynamicMempool.make 64 (Node.make threeTrees.toBTreeCfg))

private def fourRules : List (RuleSpec 3 RuleValueInt) :=
  [⟨#v[⟨1, 1⟩, ⟨0, 255⟩, ⟨2, 2⟩], RuleValueInt.make 1 1⟩,
    ⟨#v[⟨2, 2⟩, ⟨1, 1⟩, ⟨1, 2⟩], RuleValueInt.make 1 2⟩,
    ⟨#v[⟨1, 1⟩, ⟨0, 255⟩, ⟨0, 255⟩], RuleValueInt.make 1 3⟩,
    ⟨#v[⟨1, 1⟩, ⟨2, 2⟩, ⟨1, 2⟩], RuleValueInt.make 1 4⟩]

private abbrev fifthRule : RuleSpec 3 RuleValueInt :=
  ⟨#v[⟨2, 2⟩, ⟨0, 255⟩, ⟨1, 1⟩], RuleValueInt.make 1 5⟩

/-- The third turn of the rebuild that the fifth rule sets off passes on a rule, and leaves the
tree with other rules in its copy than it began with. -/
private def changesCopy (s : PartitionSortClassifer 3 RuleValueInt) : Bool :=
  match callAt (body .insertion threeTrees) .tooDeep 40 [0, 0, 0, 0, 0, 0]
      (.insert fifthRule, s) with
  | some (Call.rebuild t j, s₁) =>
      match ((body .insertion threeTrees (.rebuild t j)).calls
        (run .insertion threeTrees 40) s₁)[0]? with
      | some (Call.insert rule, s₂) =>
          match run .insertion threeTrees 40 (.insert rule) s₂ with
          | .ok () u => decide ((u.rules t).length ≠ (s₁.rules t).length)
          | .error _ _ => false
      | _ => false
  | _ => false

private theorem not_keepsLoops_of_changesCopy {s : PartitionSortClassifer 3 RuleValueInt}
    (h : changesCopy s = true) :
    ¬ (Operation.insert fifthRule).KeepsLoops .insertion threeTrees s := by
  unfold changesCopy at h
  split at h
  next t j s₁ hat =>
    split at h
    next rule s₂ hcall =>
      split at h
      next u hu =>
        intro hkeeps
        have hlen := hkeeps.untouched t s₁ (.insert rule, s₂) u
          ⟨_, j, @Operation.Enters.insert _ _ _ threeTrees fifthRule s, reflTransGen_of_callAt hat,
            calls_of_mem (List.mem_of_getElem? hcall), rule, rfl⟩ ⟨40, Or.inl ⟨(), hu⟩⟩
        rw [hlen] at h
        simp at h
      next => cases h
    next => cases h
  next => cases h

end ThreeTrees

end Loops

end PartitionSortClassifer

end Pcv
