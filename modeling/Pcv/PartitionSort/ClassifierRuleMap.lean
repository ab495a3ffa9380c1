import Pcv.PartitionSort.ClassifierBooks

/-!
# The map from the rules to the trees

Only a removal takes an entry from `rule_to_tree`.  A call of `insert` adds entries, also when it
fails, and when it returns there is an entry for its rule, whichever tree took the rule in and
whatever was rebuilt on the way.
-/

namespace Pcv

namespace PartitionSortClassifer

variable {V : Type} {cfg : ClassifierCfg}

/-! ## The pieces of a call -/

/-- Whichever way the computation ends, the map is as it was. -/
def LeavesMap {α : Type} (x : M cfg.D V α) : Prop :=
  ∀ s, Ensures (fun _ s' => s'.ruleToTree = s.ruleToTree) x s
    fun _ s' => s'.ruleToTree = s.ruleToTree

namespace LeavesMap

variable {α β : Type} {x : M cfg.D V α}

theorem pure (a : α) : LeavesMap (Pure.pure a : M cfg.D V α) := fun _ => Ensures.pure rfl

theorem bind {f : α → M cfg.D V β} (hx : LeavesMap x) (hf : ∀ a, LeavesMap (f a)) :
    LeavesMap (x >>= f) :=
  fun s => .bind ((hx s).mono fun a s₁ h₁ =>
    (hf a s₁).conseq (fun _ _ h => h.trans h₁) fun _ _ h => h.trans h₁)

theorem get : LeavesMap (MonadState.get : M cfg.D V _) := fun _ => Ensures.get rfl

theorem modify {g : PartitionSortClassifer cfg.D V → PartitionSortClassifer cfg.D V}
    (h : ∀ s, (g s).ruleToTree = s.ruleToTree) : LeavesMap (modify g : M cfg.D V Unit) :=
  fun s => Ensures.modify (h s)

theorem ite {c : Prop} [Decidable c] {y : M cfg.D V α} (hx : LeavesMap x) (hy : LeavesMap y) :
    LeavesMap (if c then x else y) := by
  split <;> assumption

theorem onPool (x : NodeM V α) : LeavesMap (onPool x : M cfg.D V α) := by
  intro s
  unfold Ensures PartitionSortClassifer.onPool
  cases x s.pool <;> rfl

theorem updateInfo (t : ℕ) (f : TreeInfo cfg.D V → TreeInfo cfg.D V) :
    LeavesMap (updateInfo t f) :=
  modify fun _ => rfl

theorem onTree (t : ℕ) (f : BTree cfg.D → NodeM V (BTree cfg.D)) : LeavesMap (onTree cfg t f) :=
  .bind .get fun _ => .bind (.onPool _) fun _ => .updateInfo _ _

theorem beginUpdate (t : ℕ) (rule : Option (RuleSpec cfg.D V)) : LeavesMap (beginUpdate t rule) := by
  refine .bind (.updateInfo _ _) fun _ => ?_
  cases rule with
  | none => exact .pure _
  | some rule => exact .updateInfo _ _

theorem emptyTree (t : ℕ) (root : Option ℕ) (order : DimensionOrder cfg.D × ℕ) :
    LeavesMap (emptyTree (V := V) cfg t root order) :=
  .bind .get fun _ => .bind (.onPool _) fun _ => .updateInfo _ _

theorem countTree : LeavesMap (countTree : M cfg.D V Unit) :=
  .bind (.modify fun _ => rfl) fun _ => .bind .get fun _ => .modify fun _ => rfl

theorem collides (t : ℕ) (rule : RuleSpec cfg.D V) : LeavesMap (collides cfg t rule) := by
  refine .bind .get fun s => ?_
  split
  · exact .pure _
  · exact fun s => .throw rfl

section Rules

variable [RuleValue V]

theorem insertPending (t : ℕ) (rule : Option (RuleSpec cfg.D V)) :
    LeavesMap (insertPending cfg t rule) := by
  cases rule with
  | none => exact .pure _
  | some rule => exact .bind (.onTree _ _) fun _ => .updateInfo _ _

theorem insertGiven (t : ℕ) (rule : Option (RuleSpec cfg.D V)) :
    LeavesMap (insertGiven cfg t rule) := by
  cases rule with
  | none => exact .pure _
  | some rule => exact LeavesMap.onTree t fun tree => tree.insert cfg.toBTreeCfg rule

theorem insertFixed (rule : RuleSpec cfg.D V) (t : ℕ) (ti : TreeInfo cfg.D V) :
    LeavesMap (insertFixed cfg rule t ti) :=
  .bind (.updateInfo _ _) fun _ => .onTree _ _

theorem raisePriority (rule : RuleSpec cfg.D V) (t i : ℕ) : LeavesMap (raisePriority rule t i) :=
  .bind .get fun _ => .ite (.bind (.updateInfo _ _) fun _ => .modify fun _ => rfl) (.pure _)

theorem openTree (std : IntervalSort) (rule : RuleSpec cfg.D V) (t : ℕ) (ti : TreeInfo cfg.D V) :
    LeavesMap (openTree std cfg rule t ti) :=
  .bind (.updateInfo _ _) fun _ =>
    .ite (.bind (.updateInfo _ _) fun _ => .onTree _ _) (.onTree _ _)

end Rules

end LeavesMap

/-! ## What the calls owe -/

variable [DecidableEq V]

/-- The classifier knows of a tree for the rule. -/
def Maps (s : PartitionSortClassifer cfg.D V) (rule : RuleSpec cfg.D V) : Prop :=
  (UnorderedMap.find s.ruleToTree rule).isSome

/-- No rule loses its entry. -/
def KeepsMap (s s' : PartitionSortClassifer cfg.D V) : Prop := ∀ rule, s.Maps rule → s'.Maps rule

theorem KeepsMap.trans {s₁ s₂ s₃ : PartitionSortClassifer cfg.D V} (h : KeepsMap s₁ s₂)
    (h' : KeepsMap s₂ s₃) : KeepsMap s₁ s₃ :=
  fun rule hrule => h' rule (h rule hrule)

/-- The rule of a call is in the map when the call returns what it does. -/
def Call.Brings : ∀ c : Call cfg.D V, c.Res → PartitionSortClassifer cfg.D V → Prop
  | .update _ _, _, _ => True
  | .rebuild _ _, _, _ => True
  | .tryInsert rule _ _, taken, s => taken = true → s.Maps rule
  | .tryTrees rule _ _ _ _, taken, s => taken = true → s.Maps rule
  | .insert rule, _, s => s.Maps rule

variable (V cfg) in
/-- What the calls do to the map. -/
def mapBooks : Contract ClassifierFault (PartitionSortClassifer cfg.D V)
    (Call.Res (D := cfg.D) (V := V)) where
  pre _ _ := True
  post c s a s' := KeepsMap s s' ∧ c.Brings a s'
  err _ s _ s' := KeepsMap s s'

/-- The program loses no entry of the state `s₀`, and ends in `Q` when it returns. -/
abbrev Mapping {α : Type} (s₀ : PartitionSortClassifer cfg.D V) (p : CallProg cfg.D V α)
    (s : PartitionSortClassifer cfg.D V) (Q : α → PartitionSortClassifer cfg.D V → Prop) : Prop :=
  p.Ensures ((mapBooks V cfg).within fun _ _ => True) (fun _ s' => KeepsMap s₀ s') s Q

section Bodies

variable {s₀ s : PartitionSortClassifer cfg.D V}

theorem LeavesMap.mapping {α : Type} {x : M cfg.D V α}
    {Q : α → PartitionSortClassifer cfg.D V → Prop} (hx : LeavesMap x) (h₀ : KeepsMap s₀ s)
    (hQ : ∀ a s', KeepsMap s s' → KeepsMap s₀ s' → Q a s') : Mapping s₀ (perform x) s Q := by
  have hkeeps : ∀ s' : PartitionSortClassifer cfg.D V, s'.ruleToTree = s.ruleToTree →
      KeepsMap s s' := by
    intro s' heq rule hrule
    rwa [Maps, heq]
  exact .perform ((hx s).conseq (fun _ s' heq => h₀.trans (hkeeps s' heq))
    fun a s' heq => hQ a s' (hkeeps s' heq) (h₀.trans (hkeeps s' heq)))

theorem mapping_invoke {c : Call cfg.D V} {Q : c.Res → PartitionSortClassifer cfg.D V → Prop}
    (h₀ : KeepsMap s₀ s)
    (hQ : ∀ a s', KeepsMap s s' → KeepsMap s₀ s' → c.Brings a s' → Q a s') :
    Mapping s₀ (invoke c) s Q :=
  .invoke ⟨trivial, trivial⟩ (fun _ _ he => h₀.trans he)
    fun a s' h => hQ a s' h.1 (h₀.trans h.1) h.2

/-- A tree that takes a rule gets it mapped to it. -/
theorem mapping_register {Q : Unit → PartitionSortClassifer cfg.D V → Prop}
    (rule : RuleSpec cfg.D V) (mask : RuleMask cfg.D) (t : ℕ) (h₀ : KeepsMap s₀ s)
    (hQ : ∀ s', s'.Maps rule → KeepsMap s₀ s' → Q () s') :
    Mapping s₀ (perform (register rule mask t)) s Q := by
  have hfind : ∀ r, UnorderedMap.find (UnorderedMap.assign s.ruleToTree rule t) r =
      if r = rule then some t else UnorderedMap.find s.ruleToTree r :=
    fun r => UnorderedMap.find_assign _ _ _ _
  refine .perform (.bind (.modify (.bind (.modify (.modify (hQ _ ?_ (h₀.trans fun r hr => ?_)))))))
  · show (UnorderedMap.find (UnorderedMap.assign s.ruleToTree rule t) rule).isSome
    rw [hfind, if_pos rfl]
    rfl
  · show (UnorderedMap.find (UnorderedMap.assign s.ruleToTree rule t) r).isSome
    rw [hfind]
    split
    · rfl
    · exact hr

variable [RuleValue V] (std : IntervalSort)

theorem mapBooks_met : (mapBooks V cfg).Met (body std cfg) fun _ _ _ _ => True := by
  intro c s _
  have hs : KeepsMap s s := fun _ h => h
  cases c with
  | update t rule =>
    refine .bind (LeavesMap.get.mapping hs fun s₁ s₂ _ h₂ => .ite (fun _ => ?_) fun _ => ?_)
    · exact (LeavesMap.insertPending t rule).mapping h₂ fun _ _ _ h => ⟨h, trivial⟩
    refine .bind ((LeavesMap.beginUpdate t rule).mapping h₂ fun _ s₃ _ h₃ => ?_)
    refine .bind (LeavesMap.get.mapping h₃ fun s₄ s₅ _ h₅ => .ite (fun _ => ?_) fun _ => ?_)
    · refine .bind ((LeavesMap.emptyTree t _ _).mapping h₅ fun _ s₆ _ h₆ => ?_)
      exact .bind (mapping_invoke h₆ fun _ s₇ _ h₇ _ =>
        (LeavesMap.updateInfo t _).mapping h₇ fun _ _ _ h => ⟨h, trivial⟩)
    · exact .bind ((LeavesMap.insertGiven t rule).mapping h₅ fun _ s₆ _ h₆ =>
        (LeavesMap.updateInfo t _).mapping h₆ fun _ _ _ h => ⟨h, trivial⟩)
  | rebuild t j =>
    refine .bind (LeavesMap.get.mapping hs fun s₁ s₂ _ h₂ => ?_)
    cases (s₁.rules t)[j]? with
    | none => exact .pure ⟨h₂, trivial⟩
    | some r =>
      have hnext : ∀ s₃, KeepsMap s s₃ → Mapping s (invoke (.rebuild t (j + 1))) s₃
          ((mapBooks V cfg).post (.rebuild t j) s) :=
        fun s₃ h₃ => mapping_invoke h₃ fun _ _ _ h _ => ⟨h, trivial⟩
      refine .bind ((LeavesMap.collides t r).mapping h₂ fun b s₃ _ h₃ =>
        .ite (fun _ => ?_) fun _ => ?_)
      · exact .bind (mapping_invoke h₃ fun _ s₄ _ h₄ _ => hnext s₄ h₄)
      · exact .bind ((LeavesMap.onTree t _).mapping h₃ fun _ s₄ _ h₄ => hnext s₄ h₄)
  | tryInsert rule mask i =>
    refine .bind (LeavesMap.get.mapping hs fun s₁ s₂ _ h₂ => ?_)
    refine .bind ((LeavesMap.collides _ rule).mapping h₂ fun b s₃ _ h₃ =>
      .ite (fun _ => .pure ⟨h₃, nofun⟩) fun _ => ?_)
    refine .bind (mapping_register rule mask _ h₃ fun s₄ hrule h₄ => ?_)
    have hraise : ∀ s₅, KeepsMap s₄ s₅ → KeepsMap s s₅ → Mapping s
        (do perform (raisePriority rule (s₁.trees.get i) i); pure true : CallProg cfg.D V Bool) s₅
          ((mapBooks V cfg).post (.tryInsert rule mask i) s) := by
      intro s₅ h₄₅ h₅
      exact .bind ((LeavesMap.raisePriority rule _ i).mapping h₅ fun _ s₆ h₅₆ h₆ =>
        .pure ⟨h₆, fun _ => h₅₆ _ (h₄₅ _ hrule)⟩)
    refine .bind (LeavesMap.get.mapping h₄ fun s₅ s₆ h₄₆ h₆ => .ite (fun _ => ?_) fun _ => ?_)
    · exact .bind (mapping_invoke h₆ fun _ s₇ h₆₇ h₇ _ => hraise s₇ (h₄₆.trans h₆₇) h₇)
    · exact .bind ((LeavesMap.insertFixed rule _ _).mapping h₆ fun _ s₇ h₆₇ h₇ =>
        hraise s₇ (h₄₆.trans h₆₇) h₇)
  | tryTrees rule mask first cnt i =>
    cases cnt with
    | zero => exact .pure ⟨hs, nofun⟩
    | succ cnt =>
      have hnext : ∀ s₁, KeepsMap s s₁ → Mapping s (invoke (.tryTrees rule mask first cnt (i + 1)))
          s₁ ((mapBooks V cfg).post (.tryTrees rule mask first (cnt + 1) i) s) :=
        fun s₁ h₁ => mapping_invoke h₁ fun _ _ _ h hbrings => ⟨h, hbrings⟩
      refine .bind (LeavesMap.get.mapping hs fun s₁ s₂ _ h₂ => .ite (fun _ => ?_) fun _ => hnext s₂ h₂)
      exact .bind (mapping_invoke h₂ fun a s₃ _ h₃ hbrings =>
        .ite (fun ha => .pure ⟨h₃, fun _ => hbrings ha⟩) fun _ => hnext s₃ h₃)
  | insert rule =>
    refine .bind (LeavesMap.get.mapping hs fun s₁ s₂ _ h₂ => ?_)
    refine .bind (mapping_invoke h₂ fun a s₃ _ h₃ hbrings =>
      .ite (fun ha => .pure ⟨h₃, hbrings ha⟩) fun _ => ?_)
    refine .bind (LeavesMap.get.mapping h₃ fun s₄ s₅ _ h₅ => ?_)
    refine .bind (mapping_invoke h₅ fun a s₆ _ h₆ hbrings =>
      .ite (fun ha => .pure ⟨h₆, hbrings ha⟩) fun _ => ?_)
    refine .bind (LeavesMap.get.mapping h₆ fun s₇ s₈ _ h₈ => .ite (fun _ => ?_) fun _ => ?_)
    · refine .bind ((LeavesMap.openTree std rule _ _).mapping h₈ fun _ s₉ _ h₉ => ?_)
      refine .bind (mapping_register rule _ _ h₉ fun s₁₀ hrule h₁₀ => ?_)
      have hcount : ∀ s', KeepsMap s₁₀ s' → KeepsMap s s' → Mapping s
          (perform countTree : CallProg cfg.D V Unit) s'
            ((mapBooks V cfg).post (.insert rule) s) :=
        fun s' hkeeps h' => LeavesMap.countTree.mapping h' fun _ s'' hlast h =>
          ⟨h, hlast _ (hkeeps _ hrule)⟩
      refine .bind (LeavesMap.get.mapping h₁₀ fun s₁₁ s₁₂ hkeeps h₁₂ => .ite (fun _ => ?_)
        fun _ => hcount s₁₂ hkeeps h₁₂)
      exact .bind (mapping_invoke h₁₂ fun _ s₁₃ hkeeps' h₁₃ _ =>
        hcount s₁₃ (hkeeps.trans hkeeps') h₁₃)
    · exact .perform (.throw h₈)

variable {std}

/-- An insertion that returns has brought its rule into the map. -/
theorem maps_of_insert {rule : RuleSpec cfg.D V} {fuel : ℕ} {s s' : PartitionSortClassifer cfg.D V}
    (h : insertRule std cfg fuel rule s = .ok () s') : s'.Maps rule ∧ KeepsMap s s' := by
  rw [← run_insert] at h
  exact (((mapBooks_met std).ensures_or fuel (c := .insert rule) trivial).ok h).symm

theorem keepsMap_of_insert_error {rule : RuleSpec cfg.D V} {fuel : ℕ} {e : ClassifierFault}
    {s s' : PartitionSortClassifer cfg.D V} (hne : e ≠ .tooDeep)
    (h : insertRule std cfg fuel rule s = .error e s') : KeepsMap s s' := by
  rw [← run_insert] at h
  exact (Ensures.error ((mapBooks_met std).ensures_or fuel (c := .insert rule) trivial)
    h).resolve_left hne

end Bodies

end PartitionSortClassifer

end Pcv
