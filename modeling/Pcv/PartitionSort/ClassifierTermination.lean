import Pcv.PartitionSort.ClassifierBooks
import Mathlib.Data.Prod.Lex
import Mathlib.Order.WellFounded

/-!
# The calls of the classifier come to an end

The calls do not get smaller in any of their arguments: a rule that no longer fits into
its tree goes into another one, which is rebuilt in its turn and passes on rules of its
own.  What bounds them is the room that is left in the trees before their orders are
fixed.  A tree is only rebuilt after a rule has taken up some of that room, and the loop
of a rebuild makes a turn of its own for a rule only if no room was taken up in the turn
before, since a rule that is passed on does not come back to its tree directly.
-/

namespace Pcv

namespace PartitionSortClassifer

variable {V : Type} [DecidableEq V] [RuleValue V] {cfg : ClassifierCfg} {keep : Set ℕ}

/-- The books grow, and the trees in `keep` keep their rules. -/
structure Keeps (keep : Set ℕ) {D : ℕ} (s s' : PartitionSortClassifer D V) : Prop where
  grows : Grows s s'
  kept : ∀ t ∈ keep, s'.rules t = s.rules t

/-- One state follows another: the books are tidy and have grown, and the marks are the same. -/
structure Follows (cfg : ClassifierCfg) (keep : Set ℕ) {D : ℕ} (s s' : PartitionSortClassifer D V) :
    Prop where
  tidy : Tidy cfg s'
  keeps : Keeps keep s s'
  pending : ∀ t, s'.pending t = s.pending t

section Follows

variable {D : ℕ} {s s' s'' : PartitionSortClassifer D V}

omit [DecidableEq V] [RuleValue V] in
theorem Keeps.refl (s : PartitionSortClassifer D V) : Keeps keep s s := ⟨.refl s, fun _ _ => rfl⟩

omit [DecidableEq V] [RuleValue V] in
theorem Keeps.trans (h : Keeps keep s s') (h' : Keeps keep s' s'') : Keeps keep s s'' :=
  ⟨h.grows.trans h'.grows, fun t ht => (h'.kept t ht).trans (h.kept t ht)⟩

omit [RuleValue V] in
theorem Pushes.keeps {t : ℕ} {rs : List (RuleSpec D V)} {b : Bool} (h : Pushes t rs b s s')
    (hb : s.pending t → b) (ht : t ∉ keep ∨ rs = []) : Keeps keep s s' where
  grows := h.grows hb
  kept := by
    intro t' ht'
    rcases ht with hkeep | rfl
    · exact h.rules_ne fun heq => hkeep (heq ▸ ht')
    · rw [h.rules, List.append_nil, ite_self]

omit [RuleValue V] in
theorem Follows.refl (hs : Tidy cfg s) : Follows cfg keep s s := ⟨hs, .refl s, fun _ => rfl⟩

omit [RuleValue V] in
theorem Follows.trans (h : Follows cfg keep s s') (h' : Follows cfg keep s' s'') :
    Follows cfg keep s s'' :=
  ⟨h'.tidy, h.keeps.trans h'.keeps, fun t => (h'.pending t).trans (h.pending t)⟩

omit [RuleValue V] in
theorem Follows.grows (h : Follows cfg keep s s') : Grows s s' := h.keeps.grows

omit [RuleValue V] in
theorem Pushes.follows {t : ℕ} {rs : List (RuleSpec D V)} (h : Pushes t rs (s.pending t) s s')
    (hs : Tidy cfg s) (ht : (s.InUse t ∧ t ∉ keep) ∨ rs = []) : Follows cfg keep s s' where
  tidy := h.tidy hs (ht.imp And.left fun hrs => ⟨hrs, rfl⟩)
  keeps := h.keeps id (ht.imp And.right id)
  pending := by
    intro t'
    rw [h.pending]
    split
    · subst t'; rfl
    · rfl

end Follows

/-! ## The contract of the calls -/

/-- A tree in use that the rule collides with keeps its rules, unless a tree was filled. -/
def Spares (cfg : ClassifierCfg) (rule : RuleSpec cfg.D V) (s s' : PartitionSortClassifer cfg.D V) :
    Prop :=
  room cfg s' < room cfg s ∨
    ∀ t, s.InUse t → colides cfg s t rule = .ok true → s'.rules t = s.rules t

/-- What a call may rely on; no tree in `keep` is updated. -/
def Call.Entered (keep : Set ℕ) {D : ℕ} : Call D V → PartitionSortClassifer D V → Prop
  | .update t _, s => s.InUse t ∧ t ∉ keep
  | .rebuild t _, s => s.InUse t ∧ s.pending t
  | .tryInsert _ _ i, s => i < s.treeCnt
  | .tryTrees _ _ _ cnt i, s => i + cnt ≤ s.treeCnt
  | .insert _, _ => True

/-- What a call tells when it returns. -/
def Call.Returned (cfg : ClassifierCfg) : ∀ c : Call cfg.D V, PartitionSortClassifer cfg.D V →
    c.Res → PartitionSortClassifer cfg.D V → Prop
  | .update _ _, _, _, _ => True
  | .rebuild _ _, _, _, _ => True
  | .tryInsert rule _ i, s, a, s' => Spares cfg rule s s' ∧
      (a = false → s' = s ∧ colides cfg s (s.trees.get i) rule = .ok true)
  | .tryTrees rule mask first cnt i, s, a, s' => Spares cfg rule s s' ∧
      (a = false → s' = s ∧ ∀ k, i ≤ k → k < i + cnt → triedFirst s mask k = first →
        colides cfg s (s.trees.get k) rule = .ok true)
  | .insert rule, s, _, s' => Spares cfg rule s s'

/-- The rule collides with a rule in each of the trees in use. -/
def ColidesEverywhere (cfg : ClassifierCfg) (s : PartitionSortClassifer cfg.D V)
    (rule : RuleSpec cfg.D V) : Prop :=
  ∀ i, i < s.treeCnt → colides cfg s (s.trees.get i) rule = .ok true

/-- A call for a rule has found a tree that the rule does not collide with. -/
def Call.Taken (cfg : ClassifierCfg) : Call cfg.D V → PartitionSortClassifer cfg.D V → Prop
  | .tryInsert rule _ _, s => ∃ k, k < s.treeCnt ∧ colides cfg s (s.trees.get k) rule = .ok false
  | .tryTrees rule _ _ _ _, s => ∃ k, k < s.treeCnt ∧ colides cfg s (s.trees.get k) rule = .ok false
  | .insert rule, s => ∃ k, k < s.treeCnt ∧ colides cfg s (s.trees.get k) rule = .ok false
  | _, _ => True

/-- Where no tree is free for a rule: either none took it, and nothing has happened, or one took
it, and this or another tree is still being updated. -/
def Call.OutOfTrees (cfg : ClassifierCfg) (c : Call cfg.D V) (s s' : PartitionSortClassifer cfg.D V) :
    Prop :=
  (∃ rule, c = .insert rule ∧ s' = s ∧ ColidesEverywhere cfg s rule) ∨
    (c.Taken cfg s ∧ ∃ t, s'.pending t)

/-- The contract of the calls with respect to the books, where the trees in `keep` are in use and
keep their rules. -/
def books (cfg : ClassifierCfg) (keep : Set ℕ) :
    Contract ClassifierFault (PartitionSortClassifer cfg.D V) (Call.Res (D := cfg.D) (V := V)) where
  pre c s := Tidy cfg s ∧ (∀ t ∈ keep, s.InUse t) ∧ c.Entered keep s
  post c s a s' := Follows cfg keep s s' ∧ c.Returned cfg s a s'
  err c s e s' := e ≠ .tooDeep ∧ Tidy cfg s' ∧ Keeps keep s s' ∧
    (e = .allTreesUsed → c.OutOfTrees cfg s s')

omit [RuleValue V] in
/-- A call that is not made by another one has no trees to keep. -/
theorem Call.Entered.pre_books {c : Call cfg.D V} {s : PartitionSortClassifer cfg.D V}
    (h : c.Entered ∅ s) (hs : Tidy cfg s) : (books cfg ∅).pre c s :=
  ⟨hs, fun _ ht => absurd ht (Set.notMem_empty _), h⟩

omit [DecidableEq V] [RuleValue V] in
theorem Call.entered_insert (rule : RuleSpec cfg.D V) (s : PartitionSortClassifer cfg.D V) :
    (Call.insert rule).Entered ∅ s :=
  trivial

omit [DecidableEq V] [RuleValue V] in
theorem Call.entered_update {t : ℕ} {s : PartitionSortClassifer cfg.D V} (h : s.InUse t) :
    (Call.update t none).Entered ∅ s :=
  ⟨h, Set.notMem_empty _⟩

/-- The order of the calls in which no room is taken up. -/
def Call.rank {D : ℕ} : Call D V → ℕ
  | .update _ _ => 4
  | .rebuild _ _ => 3
  | .insert _ => 2
  | .tryTrees _ _ _ _ _ => 1
  | .tryInsert _ _ _ => 0

/-- The turns that a loop has left. -/
def Call.turns {D : ℕ} : Call D V → PartitionSortClassifer D V → ℕ
  | .rebuild t j, s => (s.rules t).length - j
  | .tryTrees _ _ _ cnt _, _ => cnt
  | _, _ => 0

/-- What gets smaller from a call to the calls it makes. -/
def remaining (cfg : ClassifierCfg) {D : ℕ} (c : Call D V) (s : PartitionSortClassifer D V) :
    ℕ ×ₗ ℕ ×ₗ ℕ :=
  toLex (room cfg s, toLex (c.rank, c.turns s))

/-- The tree is being updated, or the call is one that updates it. -/
def Call.Marks {D : ℕ} (c : Call D V) (s : PartitionSortClassifer D V) (t : ℕ) : Prop :=
  s.pending t ∨ ∃ rule, c = .update t rule

/-- How a call is related to the calls it makes. -/
def Nests (cfg : ClassifierCfg) {D : ℕ} (c : Call D V) (s : PartitionSortClassifer D V)
    (c' : Call D V) (s' : PartitionSortClassifer D V) : Prop :=
  remaining cfg c' s' < remaining cfg c s ∧ ∀ t, c.Marks s t → s'.pending t

section Nests

variable {D : ℕ} {c c' : Call D V} {s s' : PartitionSortClassifer D V}

omit [DecidableEq V] [RuleValue V] in
/-- A call is nested in another one if room was taken up, or if it comes after it in the order
of the calls, or if its loop has fewer turns left. -/
theorem nests_of_le (hroom : room cfg s' ≤ room cfg s) (hmarks : ∀ t, c.Marks s t → s'.pending t)
    (h : room cfg s' = room cfg s → c'.rank < c.rank ∨
      (c'.rank = c.rank ∧ c'.turns s' < c.turns s)) : Nests cfg c s c' s' := by
  refine ⟨?_, hmarks⟩
  unfold remaining
  rw [Prod.Lex.toLex_lt_toLex']
  refine ⟨hroom, fun heq => ?_⟩
  rw [Prod.Lex.toLex_lt_toLex]
  exact h heq

omit [DecidableEq V] [RuleValue V] in
/-- A call that no tree is updated by marks no tree. -/
theorem marks_of_grows (hc : ∀ t rule, c ≠ .update t rule) (h : Grows s s') (t : ℕ)
    (ht : c.Marks s t) : s'.pending t := by
  rcases ht with ht | ⟨rule, rfl⟩
  · exact h.pending t ht
  · exact (hc t rule rfl).elim

end Nests

section Errors

variable {c c' : Call cfg.D V} {s s₁ s' : PartitionSortClassifer cfg.D V} {e : ClassifierFault}

omit [RuleValue V] in
theorem NodeFails.err {t : ℕ} (h : NodeFails t s₁ e s') (ht : Tidy cfg s₁)
    (hk : Keeps keep s s₁) : (books cfg keep).err c s e s' := by
  obtain ⟨⟨fault, rfl⟩, hp⟩ := h
  have hf : Follows cfg keep s₁ s' := hp.follows ht (Or.inr rfl)
  exact ⟨nofun, hf.tidy, hk.trans hf.keeps, nofun⟩

omit [RuleValue V] in
theorem err_of_callee (h : (books cfg keep).err c' s₁ e s') (hk : Keeps keep s s₁)
    (hc : ∀ rule, c' = .insert rule → c.Taken cfg s ∧ ∃ t, s₁.pending t)
    (htaken : c'.Taken cfg s₁ → c.Taken cfg s) : (books cfg keep).err c s e s' := by
  obtain ⟨hne, htidy, hkeeps, hall⟩ := h
  refine ⟨hne, htidy, hk.trans hkeeps, fun he => Or.inr ?_⟩
  rcases hall he with ⟨rule, rfl, -, -⟩ | ⟨ht, hpend⟩
  · obtain ⟨hct, t, ht⟩ := hc rule rfl
    exact ⟨hct, t, hkeeps.grows.pending t ht⟩
  · exact ⟨htaken ht, hpend⟩

end Errors

/-! ## The bodies keep to the contract -/

section Bodies

variable (std : IntervalSort) {s : PartitionSortClassifer cfg.D V}

variable (keep) in
/-- What a body is shown to do when its call is made in the state `s`. -/
abbrev Meets (c : Call cfg.D V) (s : PartitionSortClassifer cfg.D V) : Prop :=
  (body std cfg c).Ensures ((books cfg keep).within (Nests cfg c s)) ((books cfg keep).err c s) s
    ((books cfg keep).post c s)

theorem meets_update {t : ℕ} (rule : Option (RuleSpec cfg.D V)) (hs : Tidy cfg s)
    (hin : ∀ t ∈ keep, s.InUse t) (ht : s.InUse t) (hkeep : t ∉ keep) :
    Meets keep std (.update t rule) s := by
  refine .bind (.perform (.get (.ite (fun hpend => ?_) fun hpend => ?_)))
  · refine .perform ((ensures_insertPending rule s).conseq (fun e s' he => ?_) fun _ s' h => ?_)
    · exact he.err hs (.refl s)
    · exact ⟨h.follows hs (Or.inl ⟨ht, hkeep⟩), trivial⟩
  -- the tree is marked first, which the calls of the rebuild will see
  refine .bind (.perform ((ensures_beginUpdate rule s).mono fun _ s₁ h₁ => ?_))
  have hk₁ : Keeps keep s s₁ := h₁.keeps (fun _ => rfl) (Or.inl hkeep)
  have hs₁ : Tidy cfg s₁ := h₁.tidy hs (Or.inl ht)
  have ht₁ : s₁.InUse t := hk₁.grows.inUse t ht
  have hfinish : ∀ s₂, Follows cfg keep s₁ s₂ →
      (perform (endUpdate t)).Ensures ((books cfg keep).within (Nests cfg (.update t rule) s))
        ((books cfg keep).err (.update t rule) s) s₂
          ((books cfg keep).post (.update t rule) s) := by
    intro s₂ h₂
    have hk₂ := hk₁.trans h₂.keeps
    refine .perform ((ensures_endUpdate s₂).mono fun _ s' h' =>
      ⟨⟨?_, ⟨⟨fun t' => ?_, ?_, fun t' ht' => ?_, fun t' ht' => ?_⟩, fun t' ht' => ?_⟩,
        fun t' => ?_⟩, trivial⟩)
    · exact h'.tidy h₂.tidy (Or.inl (h₂.grows.inUse t ht₁))
    · refine (hk₂.grows.rules t').trans ?_
      rw [h'.rules, List.append_nil, ite_self]
    · rw [h'.treeCnt]
      exact hk₂.grows.treeCnt
    · exact (h'.inUse_iff t').mpr (hk₂.grows.inUse t' ht')
    · rw [h'.pending]
      split
      · subst t'; exact (hpend ht').elim
      · exact hk₂.grows.pending t' ht'
    · rw [h'.rules, List.append_nil, ite_self]
      exact hk₂.kept t' ht'
    · rw [h'.pending]
      split
      · subst t'; simpa using hpend
      · rw [h₂.pending, h₁.pending_ne (by assumption)]
  refine .bind (.perform (.get (.ite (fun _ => ?_) fun _ => ?_)))
  · refine .bind (.perform ((ensures_emptyTree _ _ s₁).conseq (fun e s' he => he.err hs₁ hk₁)
      fun _ s₂ h₂ => ?_))
    have hf₂ : Follows cfg keep s₁ s₂ := h₂.follows hs₁ (Or.inr rfl)
    have hk₂ := hk₁.trans hf₂.keeps
    have hpend₂ : s₂.pending t := by
      rw [hf₂.pending, h₁.pending_self]
    refine .bind (.invoke ⟨⟨hf₂.tidy, fun t' ht' => hk₂.grows.inUse t' (hin t' ht'),
      hf₂.grows.inUse t ht₁, hpend₂⟩, ?_⟩ (fun e s' he => ?_)
        fun _ s₃ h₃ => hfinish s₃ (hf₂.trans h₃.1))
    · refine nests_of_le hk₂.grows.room_le (fun t' ht' => ?_) fun _ => Or.inl (Nat.lt_succ_self 3)
      rcases ht' with ht' | ⟨rule', heq⟩
      · exact hk₂.grows.pending t' ht'
      · cases heq
        exact hpend₂
    · exact err_of_callee he hk₂ nofun fun _ => trivial
  · exact .bind (.perform ((ensures_insertGiven _ s₁).conseq (fun e s' he => he.err hs₁ hk₁)
      fun _ s₂ h₂ => hfinish s₂ (h₂.follows hs₁ (Or.inr rfl))))

theorem meets_rebuild {t j : ℕ} (hs : Tidy cfg s) (hin : ∀ t ∈ keep, s.InUse t) (ht : s.InUse t)
    (hpend : s.pending t) : Meets keep std (.rebuild t j) s := by
  refine .bind (.perform (.get ?_))
  cases hj : (s.rules t)[j]? with
  | none => exact .pure ⟨.refl hs, trivial⟩
  | some r =>
    have hlt : j < (s.rules t).length := (List.getElem?_eq_some_iff.mp hj).1
    have hnext : ∀ s₁, Follows cfg keep s s₁ →
        (room cfg s₁ = room cfg s → s₁.rules t = s.rules t) →
          (invoke (.rebuild t (j + 1))).Ensures
            ((books cfg keep).within (Nests cfg (.rebuild t j) s))
              ((books cfg keep).err (.rebuild t j) s) s₁
                ((books cfg keep).post (.rebuild t j) s) := by
      intro s₁ h₁ hsame
      refine .invoke ⟨⟨h₁.tidy, fun t' ht' => h₁.grows.inUse t' (hin t' ht'),
        h₁.grows.inUse t ht, h₁.grows.pending t hpend⟩, ?_⟩
        (fun e s' he => err_of_callee he h₁.keeps nofun fun _ => trivial)
        fun _ s' h' => ⟨h₁.trans h'.1, trivial⟩
      refine nests_of_le h₁.grows.room_le (marks_of_grows nofun h₁.grows) fun hroom => ?_
      refine Or.inr ⟨rfl, ?_⟩
      simp only [Call.turns, hsame hroom]
      omega
    refine .bind (.perform ((ensures_collides r s).conseq (fun e s' he => he.err hs (.refl s)) ?_))
    rintro b s₀ ⟨heq, hb⟩
    subst s₀
    refine .ite (fun htrue => ?_) fun _ => ?_
    · -- the rule goes to another tree
      subst htrue
      refine .bind (.invoke ⟨⟨hs, hin, trivial⟩, ?_⟩ (fun e s' he => ?_) fun _ s₁ h₁ => ?_)
      · exact nests_of_le le_rfl (marks_of_grows nofun (.refl _)) fun _ =>
          Or.inl (Nat.lt_succ_self 2)
      · exact err_of_callee he (.refl _) (fun _ _ => ⟨trivial, t, hpend⟩) fun _ => trivial
      · refine hnext s₁ h₁.1 fun hroom => ?_
        rcases h₁.2 with hless | hkept
        · omega
        · exact hkept t ht hb
    · refine .bind (.perform ((ensures_onTree _ t _).conseq
        (fun e s' he => he.err hs (.refl _)) fun _ s₁ h₁ => ?_))
      refine hnext s₁ (h₁.follows hs (Or.inr rfl)) fun _ => ?_
      rw [h₁.rules_self, List.append_nil]

/-- Here a tree in `keep` might take a rule. -/
theorem meets_tryInsert (rule : RuleSpec cfg.D V) (mask : RuleMask cfg.D) {i : ℕ}
    (hs : Tidy cfg s) (hin : ∀ t ∈ keep, s.InUse t) (hi : i < s.treeCnt)
    (hkeep : s.trees.get i ∈ keep → colides cfg s (s.trees.get i) rule ≠ .ok false) :
    Meets keep std (.tryInsert rule mask i) s := by
  have ht : s.InUse (s.trees.get i) := ⟨i, hi, rfl⟩
  have hlt : s.trees.get i < cfg.MAX_TREE_CNT := hs.trees_lt i (lt_of_lt_of_le hi hs.treeCnt_le)
  refine .bind (.perform (.get ?_))
  refine .bind (.perform ((ensures_collides rule s).conseq (fun e s' he => he.err hs (.refl s)) ?_))
  rintro b s₀ ⟨heq, hb⟩
  subst s₀
  refine .ite (fun htrue => ?_) fun hfalse => ?_
  · subst htrue
    exact .pure ⟨.refl hs, Or.inr fun _ _ _ => rfl, fun _ => ⟨rfl, hb⟩⟩
  obtain rfl : b = false := by simpa using hfalse
  have hnot : s.trees.get i ∉ keep := fun hmem => hkeep hmem hb
  refine .bind (.perform ((ensures_register rule mask s).mono fun _ s₁ h₁ => ?_))
  have hf₁ : Follows cfg keep s s₁ := h₁.follows hs (Or.inl ⟨ht, hnot⟩)
  -- the rule is in, and either has taken up room, or changed the copy of its tree only
  have hraise : ∀ s₂, Follows cfg keep s₁ s₂ → Spares cfg rule s s₂ →
      (do perform (raisePriority rule (s.trees.get i) i); pure true : CallProg cfg.D V Bool).Ensures
        ((books cfg keep).within (Nests cfg (.tryInsert rule mask i) s))
          ((books cfg keep).err (.tryInsert rule mask i) s) s₂
            ((books cfg keep).post (.tryInsert rule mask i) s) := by
    intro s₂ h₂ hspares
    have hi₂ : i < s₂.treeCnt := lt_of_lt_of_le hi (hf₁.trans h₂).grows.treeCnt
    refine .bind (.perform ((ensures_raisePriority (t := s.trees.get i) rule hi₂).mono
      fun _ s' h' => ?_))
    have hf' : Follows cfg keep s₂ s' := h'.follows h₂.tidy (Or.inr rfl)
    refine .pure ⟨hf₁.trans (h₂.trans hf'), ?_, nofun⟩
    rcases hspares with hless | hkept
    · exact Or.inl (lt_of_le_of_lt hf'.grows.room_le hless)
    · refine Or.inr fun t htu htc => ?_
      rw [h'.rules, List.append_nil, ite_self]
      exact hkept t htu htc
  refine .bind (.perform (.get (.ite (fun hroom => .bind ?_) fun _ => .bind ?_)))
  · have hless : room cfg s₁ < room cfg s := h₁.room_lt hlt hroom
    refine .invoke ⟨⟨hf₁.tidy, fun t' ht' => hf₁.grows.inUse t' (hin t' ht'),
      hf₁.grows.inUse _ ht, hnot⟩, ?_⟩
      (fun e s' he => err_of_callee he hf₁.keeps nofun fun _ => ⟨i, hi, hb⟩)
      fun _ s₂ h₂ => hraise s₂ h₂.1 (Or.inl (lt_of_le_of_lt h₂.1.grows.room_le hless))
    exact nests_of_le hless.le (marks_of_grows nofun hf₁.grows) fun heq => by omega
  · refine .perform ((ensures_insertFixed rule _ s₁).conseq
      (fun e s' he => he.err hf₁.tidy hf₁.keeps) fun _ s₂ h₂ => ?_)
    refine hraise s₂ (h₂.follows hf₁.tidy (Or.inr rfl)) (Or.inr fun t htu htc => ?_)
    have hne : t ≠ s.trees.get i := by
      rintro rfl
      rw [hb] at htc
      cases htc
    rw [h₂.rules_ne hne, h₁.rules_ne hne]

theorem meets_tryTrees (rule : RuleSpec cfg.D V) (mask : RuleMask cfg.D) (first : Bool)
    {cnt i : ℕ} (hs : Tidy cfg s) (hin : ∀ t ∈ keep, s.InUse t) (hi : i + cnt ≤ s.treeCnt) :
    Meets keep std (.tryTrees rule mask first cnt i) s := by
  cases cnt with
  | zero => exact .pure ⟨.refl hs, Or.inr fun _ _ _ => rfl, fun _ => ⟨rfl, fun k _ _ => by omega⟩⟩
  | succ cnt =>
    have hnext : (triedFirst s mask i = first → colides cfg s (s.trees.get i) rule = .ok true) →
        (invoke (.tryTrees rule mask first cnt (i + 1))).Ensures
          ((books cfg keep).within (Nests cfg (.tryTrees rule mask first (cnt + 1) i) s))
            ((books cfg keep).err (.tryTrees rule mask first (cnt + 1) i) s) s
              ((books cfg keep).post (.tryTrees rule mask first (cnt + 1) i) s) := by
      intro hthis
      refine .invoke ⟨⟨hs, hin, by show i + 1 + cnt ≤ _; omega⟩, ?_⟩
        (fun e s' he => err_of_callee he (.refl s) nofun id)
        fun a s' h' => ⟨h'.1, h'.2.1, fun ha => ?_⟩
      · exact nests_of_le le_rfl (marks_of_grows nofun (.refl s)) fun _ =>
          Or.inr ⟨rfl, Nat.lt_succ_self cnt⟩
      · obtain ⟨heq, hrest⟩ := h'.2.2 ha
        refine ⟨heq, fun k hk hk' hfirst => ?_⟩
        rcases Nat.eq_or_lt_of_le hk with rfl | hlt
        · exact hthis hfirst
        · exact hrest k hlt (by omega) hfirst
    refine .bind (.perform (.get (.ite (fun hfirst => ?_) fun hfirst => ?_)))
    · refine .bind (.invoke ⟨⟨hs, hin, by show i < _; omega⟩, ?_⟩
        (fun e s' he => err_of_callee he (.refl s) nofun id) fun a s₁ h₁ => ?_)
      · exact nests_of_le le_rfl (marks_of_grows nofun (.refl s)) fun _ =>
          Or.inl (Nat.lt_succ_self 0)
      · refine .ite (fun htrue => ?_) fun hfalse => ?_
        · subst htrue
          exact .pure ⟨h₁.1, h₁.2.1, nofun⟩
        · obtain ⟨rfl, hcol⟩ := h₁.2.2 (by simpa using hfalse)
          exact hnext fun _ => hcol
    · exact hnext fun h => (hfirst h).elim

theorem meets_insert (rule : RuleSpec cfg.D V) (hs : Tidy cfg s) (hin : ∀ t ∈ keep, s.InUse t) :
    Meets keep std (.insert rule) s := by
  have htry : ∀ (first : Bool), (invoke (.tryTrees rule (rule.getRuleMask cfg.keyBytes) first
      s.treeCnt 0)).Ensures ((books cfg keep).within (Nests cfg (.insert rule) s))
        ((books cfg keep).err (.insert rule) s) s ((books cfg keep).post (.tryTrees rule
          (rule.getRuleMask cfg.keyBytes) first s.treeCnt 0) s) := by
    intro first
    refine .invoke ⟨⟨hs, hin, (Nat.zero_add _).le⟩, ?_⟩
      (fun e s' he => err_of_callee he (.refl s) nofun id) fun _ _ h => h
    exact nests_of_le le_rfl (marks_of_grows nofun (.refl s)) fun _ =>
      Or.inl (Nat.lt_succ_self 1)
  refine .bind (.perform (.get (.bind ((htry true).mono fun a s₁ h₁ => ?_))))
  refine .ite (fun htrue => .pure ⟨h₁.1, h₁.2.1⟩) fun hfalse => ?_
  obtain ⟨rfl, hfirst⟩ := h₁.2.2 (by simpa using hfalse)
  refine .bind (.perform (.get (.bind ((htry false).mono fun a' s₂ h₂ => ?_))))
  refine .ite (fun htrue => .pure ⟨h₂.1, h₂.2.1⟩) fun hfalse' => ?_
  obtain ⟨rfl, hsecond⟩ := h₂.2.2 (by simpa using hfalse')
  refine .bind (.perform (.get (.ite (fun hlt => ?_) fun _ => ?_)))
  · -- a tree of its own for the rule
    have hspare := hs.spare _ le_rfl hlt
    have hne : ∀ t, s₂.InUse t → t ≠ s₂.trees.get s₂.treeCnt := by
      rintro t ⟨i, hi, rfl⟩ heq
      have := hs.trees_inj i _ (lt_of_lt_of_le hi hs.treeCnt_le) hlt heq
      omega
    refine .bind (.perform ((ensures_openTree std rule _ _).conseq
      (fun e s' he => he.err hs (.refl _)) fun _ s₃ h₃ => ?_))
    refine .bind (.perform ((ensures_register rule _ s₃).mono fun _ s₄ h₄ => ?_))
    have h₅ := h₃.trans h₄
    rw [List.nil_append, h₃.pending_self] at h₅
    refine .bind (.perform (.get (.ite (fun hlen => ?_) fun _ => ?_)))
    · rw [h₅.rules_self, hspare.1] at hlen
      exact absurd hlen (by simp)
    · refine .perform ((hs.ensures_countTree hlt h₅).mono fun _ s' h' => ?_)
      obtain ⟨htidy, hgrows, hpend, hrules⟩ := h'
      refine ⟨⟨htidy, ⟨hgrows, fun t ht => hrules t (hne t (hin t ht))⟩, hpend⟩, ?_⟩
      exact Or.inr fun t htu _ => hrules t (hne t htu)
  · refine .perform (.throw ⟨nofun, hs, .refl _, fun _ => Or.inl ⟨rule, rfl, rfl, fun i hi => ?_⟩⟩)
    cases hf : triedFirst s₂ (rule.getRuleMask cfg.keyBytes) i with
    | true => exact hfirst i (Nat.zero_le i) (by omega) hf
    | false => exact hsecond i (Nat.zero_le i) (by omega) hf

/-- Every body keeps to the contract, save that a tree in `keep` may take a rule it does not
collide with. -/
theorem meets_books {c : Call cfg.D V} (hc : (books cfg keep).pre c s)
    (hkeep : ∀ rule mask i, c = .tryInsert rule mask i → s.trees.get i ∈ keep →
      colides cfg s (s.trees.get i) rule ≠ .ok false) : Meets keep std c s := by
  obtain ⟨hs, hin, hent⟩ := hc
  cases c with
  | update t rule => exact meets_update std rule hs hin hent.1 hent.2
  | rebuild t j => exact meets_rebuild std hs hin hent.1 hent.2
  | tryInsert rule mask i => exact meets_tryInsert std rule mask hs hin hent (hkeep rule mask i rfl)
  | tryTrees rule mask first cnt i => exact meets_tryTrees std rule mask first hs hin hent
  | insert rule => exact meets_insert std rule hs hin

theorem books_met : (books (V := V) cfg ∅).Met (body std cfg) (Nests cfg) :=
  fun _ _ hc => meets_books std hc fun _ _ _ _ hmem => hmem.elim

end Bodies

end PartitionSortClassifer

end Pcv
