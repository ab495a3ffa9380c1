import Pcv.Common.ResortedArray
import Pcv.PartitionSort.ClassifierLevels

/-!
# The order of the trees

The classifier keeps its trees in the order of their greatest priorities, so that a search may
stop before it has been in all of them.  The greatest priority of a tree covers the rules the
tree keeps a copy of, and is only raised; whenever it is, the tree is moved to its place.

`try_insert_to_tree_without_collisions` resorts the array from the index that its tree had when
it was called.  The insertions that were made inside may have moved the tree since, and then
another one is moved instead.  `KeepsPlace` says that this does not happen, and with it every
call keeps the order.
-/

namespace Pcv

namespace PartitionSortClassifer

open ArrayResorter

variable {V : Type} {cfg : ClassifierCfg} {t p q : ℕ}

/-- The greatest priority that is kept for a tree. -/
abbrev maxPriority {D : ℕ} (s : PartitionSortClassifer D V) (t : ℕ) : ℕ :=
  (s.infos.get t).maxPriority

/-- The trees in use are in the order of their greatest priorities. -/
def ByPriority {D : ℕ} (s : PartitionSortClassifer D V) : Prop :=
  ∀ i j, i < j → j < s.treeCnt → s.maxPriority (s.trees.get j) ≤ s.maxPriority (s.trees.get i)

/-! ## What the pieces do to the greatest priorities -/

/-- Only the tree `t` is changed, and its greatest priority becomes `p`. -/
structure Ranks (t p : ℕ) (s s' : PartitionSortClassifer cfg.D V) : Prop extends
    SameBesides t s s' where
  maxPriority : s'.maxPriority t = p

section Ranks

variable {s s' s'' : PartitionSortClassifer cfg.D V}

theorem Ranks.refl (t : ℕ) (s : PartitionSortClassifer cfg.D V) :
    Ranks t (s.maxPriority t) s s :=
  ⟨⟨fun _ _ => rfl, rfl, rfl⟩, rfl⟩

theorem Ranks.trans (h : Ranks t p s s') (h' : Ranks t q s' s'') : Ranks t q s s'' :=
  ⟨h.toSameBesides.trans h'.toSameBesides, h'.maxPriority⟩

theorem Ranks.keep (h : Ranks t p s s') (h' : Ranks t (s'.maxPriority t) s' s'') :
    Ranks t p s s'' :=
  ⟨h.toSameBesides.trans h'.toSameBesides, h'.maxPriority.trans h.maxPriority⟩

theorem Ranks.other (h : Ranks t p s s') {t' : ℕ} (hne : t' ≠ t) :
    s'.maxPriority t' = s.maxPriority t' :=
  congrArg TreeInfo.maxPriority (h.infos t' hne)

theorem Ranks.same (h : Ranks t (s.maxPriority t) s s') (t' : ℕ) :
    s'.maxPriority t' = s.maxPriority t' := by
  rcases eq_or_ne t' t with rfl | hne
  · exact h.maxPriority
  · exact h.other hne

/-- Where no greatest priority is changed, the order stays. -/
theorem Ranks.byPriority (h : Ranks t (s.maxPriority t) s s') (hs : ByPriority s) :
    ByPriority s' := by
  intro i j hij hj
  rw [h.treeCnt] at hj
  rw [h.same, h.same, h.trees]
  exact hs i j hij hj

theorem ensures_updateInfo_ranks {E : ClassifierFault → PartitionSortClassifer cfg.D V → Prop}
    {f : TreeInfo cfg.D V → TreeInfo cfg.D V} (hf : (f (s.infos.get t)).maxPriority = p) :
    Ensures E (updateInfo t f) s fun _ s' => Ranks t p s s' :=
  .modify ⟨sameBesides_set t s _ s.pool, (congrArg TreeInfo.maxPriority
    (Store.get_set_self s.infos t _)).trans hf⟩

theorem ensures_onPool_ranks {α : Type} (x : NodeM V α) (t : ℕ)
    (s : PartitionSortClassifer cfg.D V) :
    Ensures (fun _ _ => True) (onPool x) s fun _ s' => Ranks t (s.maxPriority t) s s' := by
  cases hx : x s.pool with
  | ok a pool =>
    have hrun : onPool x s = .ok a { s with pool := pool } := by rw [onPool, hx]
    exact .of_ok hrun ⟨⟨fun _ _ => rfl, rfl, rfl⟩, rfl⟩
  | error e pool =>
    have hrun : onPool x s = .error (.node e) { s with pool := pool } := by rw [onPool, hx]
    exact .of_error hrun trivial

theorem ensures_onTree_ranks (x : BTree cfg.D → NodeM V (BTree cfg.D)) (t : ℕ)
    (s : PartitionSortClassifer cfg.D V) :
    Ensures (fun _ _ => True) (onTree cfg t x) s fun _ s' => Ranks t (s.maxPriority t) s s' :=
  .bind (.get (.bind ((ensures_onPool_ranks _ t s).mono fun _ _ h₁ =>
    (ensures_updateInfo_ranks h₁.maxPriority).mono fun _ _ h₂ => h₁.trans h₂)))

theorem ensures_emptyTree_ranks (t : ℕ) (root : Option ℕ) (order : DimensionOrder cfg.D × ℕ)
    (s : PartitionSortClassifer cfg.D V) :
    Ensures (fun _ _ => True) (emptyTree cfg t root order) s fun _ s' =>
      Ranks t (s.maxPriority t) s s' :=
  .bind (.get (.bind ((ensures_onPool_ranks _ t s).mono fun _ _ h₁ =>
    (ensures_updateInfo_ranks h₁.maxPriority).mono fun _ _ h₂ => h₁.trans h₂)))

theorem ensures_beginUpdate_ranks (t : ℕ) (rule : Option (RuleSpec cfg.D V))
    (s : PartitionSortClassifer cfg.D V) :
    Ensures (fun _ _ => True) (beginUpdate t rule) s fun _ s' =>
      Ranks t (s.maxPriority t) s s' := by
  refine .bind ((ensures_updateInfo_ranks rfl).mono fun _ s₁ h₁ => ?_)
  cases rule with
  | none => exact .pure h₁
  | some rule =>
    exact (ensures_updateInfo_ranks h₁.maxPriority).mono fun _ _ h₂ => h₁.trans h₂

theorem ensures_endUpdate_ranks (t : ℕ) (s : PartitionSortClassifer cfg.D V) :
    Ensures (fun _ _ => True) (endUpdate t) s fun _ s' => Ranks t (s.maxPriority t) s s' :=
  ensures_updateInfo_ranks rfl

theorem ensures_register_ranks [DecidableEq V] (rule : RuleSpec cfg.D V) (mask : RuleMask cfg.D)
    (t : ℕ) (s : PartitionSortClassifer cfg.D V) :
    Ensures (fun _ _ => True) (register rule mask t) s fun _ s' =>
      Ranks t (s.maxPriority t) s s' := by
  refine .bind ((ensures_updateInfo_ranks rfl).mono fun _ s₁ h₁ => .bind (.modify ?_))
  obtain ⟨masks, hmasks⟩ := usedRuleMaskIncr_eq (s₁.infos.get t) mask
  refine (ensures_updateInfo_ranks ((congrArg TreeInfo.maxPriority hmasks).trans
    h₁.maxPriority)).mono fun _ _ h₂ => ?_
  exact h₁.trans ⟨⟨h₂.infos, h₂.trees, h₂.treeCnt⟩, h₂.maxPriority⟩

variable [RuleValue V]

theorem ensures_insertPending_ranks (t : ℕ) (rule : Option (RuleSpec cfg.D V))
    (s : PartitionSortClassifer cfg.D V) :
    Ensures (fun _ _ => True) (insertPending cfg t rule) s fun _ s' =>
      Ranks t (s.maxPriority t) s s' := by
  cases rule with
  | none => exact .pure (.refl t s)
  | some rule =>
    exact .bind ((ensures_onTree_ranks _ t s).mono fun _ _ h₁ =>
      (ensures_updateInfo_ranks h₁.maxPriority).mono fun _ _ h₂ => h₁.trans h₂)

theorem ensures_insertGiven_ranks (t : ℕ) (rule : Option (RuleSpec cfg.D V))
    (s : PartitionSortClassifer cfg.D V) :
    Ensures (fun _ _ => True) (insertGiven cfg t rule) s fun _ s' =>
      Ranks t (s.maxPriority t) s s' := by
  cases rule with
  | none => exact .pure (.refl t s)
  | some rule => exact ensures_onTree_ranks (fun tree => tree.insert cfg.toBTreeCfg rule) t s

theorem ensures_insertFixed_ranks (rule : RuleSpec cfg.D V) (t : ℕ) (ti : TreeInfo cfg.D V)
    (s : PartitionSortClassifer cfg.D V) :
    Ensures (fun _ _ => True) (insertFixed cfg rule t ti) s fun _ s' =>
      Ranks t (s.maxPriority t) s s' :=
  .bind ((ensures_updateInfo_ranks rfl).mono fun _ s₁ h₁ =>
    (ensures_onTree_ranks _ t s₁).mono fun _ _ h₂ => Ranks.keep h₁ h₂)

theorem ensures_openTree_ranks (std : IntervalSort) (rule : RuleSpec cfg.D V) (t : ℕ)
    (ti : TreeInfo cfg.D V) (s : PartitionSortClassifer cfg.D V) :
    Ensures (fun _ _ => True) (openTree std cfg rule t ti) s fun _ s' =>
      Ranks t (priority rule.second) s s' := by
  have hinsert : ∀ s₁, Ranks t (priority rule.second) s s₁ → Ensures (fun _ _ => True)
      (onTree cfg t fun tree => tree.insert cfg.toBTreeCfg rule) s₁ fun _ s' =>
        Ranks t (priority rule.second) s s' :=
    fun s₁ h₁ => (ensures_onTree_ranks _ t s₁).mono fun _ _ h₂ => h₁.keep h₂
  refine .bind ((ensures_updateInfo_ranks rfl).mono fun _ s₁ h₁ => ?_)
  refine .ite (fun _ => .bind ?_) fun _ => hinsert s₁ h₁
  exact (ensures_updateInfo_ranks h₁.maxPriority).mono fun _ s₂ h₂ => hinsert s₂ (h₁.trans h₂)

end Ranks

/-! ## What a call does to them -/

section KeepsUp

variable [RuleValue V] {D : ℕ} {s s' s'' : PartitionSortClassifer D V}

/-- The greatest priority of a tree that has copies is not lowered, and it covers the rules that
have been copied on the way. -/
structure KeepsUp (s s' : PartitionSortClassifer D V) : Prop where
  maxPriority : ∀ t r, r ∈ s.rules t → s.maxPriority t ≤ s'.maxPriority t
  mem : ∀ t r, r ∈ s.rules t → r ∈ s'.rules t
  rules : ∀ t r, r ∈ s'.rules t → r ∈ s.rules t ∨ priority r.second ≤ s'.maxPriority t

theorem KeepsUp.refl (s : PartitionSortClassifer D V) : KeepsUp s s :=
  ⟨fun _ _ _ => le_rfl, fun _ _ hr => hr, fun _ _ hr => Or.inl hr⟩

theorem KeepsUp.trans (h : KeepsUp s s') (h' : KeepsUp s' s'') : KeepsUp s s'' where
  maxPriority := fun t r hr => (h.maxPriority t r hr).trans (h'.maxPriority t r (h.mem t r hr))
  mem := fun t r hr => h'.mem t r (h.mem t r hr)
  rules := by
    intro t r hr
    rcases h'.rules t r hr with hr' | hle
    · exact (h.rules t r hr').imp_right fun hle => hle.trans (h'.maxPriority t r hr')
    · exact Or.inr hle

/-- Where the greatest priorities cover all the copied rules, they still do. -/
theorem KeepsUp.covered (h : KeepsUp s s')
    (hs : ∀ t r, r ∈ s.rules t → priority r.second ≤ s.maxPriority t) (t : ℕ) (r : RuleSpec D V)
    (hr : r ∈ s'.rules t) : priority r.second ≤ s'.maxPriority t := by
  rcases h.rules t r hr with hr | hle
  · exact (hs t r hr).trans (h.maxPriority t r hr)
  · exact hle

/-- No copy is made, and no greatest priority is lowered. -/
theorem KeepsUp.of_rules (hrules : ∀ t, s'.rules t = s.rules t)
    (hmax : ∀ t, s.maxPriority t ≤ s'.maxPriority t) : KeepsUp s s' where
  maxPriority := fun t _ _ => hmax t
  mem := fun t _ hr => (hrules t).symm ▸ hr
  rules := fun t _ hr => Or.inl (hrules t ▸ hr)

end KeepsUp

section Pushes

variable [DecidableEq V] [RuleValue V] {s s₁ s' : PartitionSortClassifer cfg.D V} {b : Bool}

/-- The rules that are pushed are there already. -/
theorem Pushes.keepsUp {rs : List (RuleSpec cfg.D V)} (h : Pushes t rs b s s')
    (hr : Ranks t (s.maxPriority t) s s') (hrs : ∀ r ∈ rs, r ∈ s.rules t) : KeepsUp s s' := by
  refine ⟨fun t' _ _ => (hr.same t').ge, fun t' r hmem => h.mem_rules.mpr (Or.inl hmem),
    fun t' r hmem => ?_⟩
  rcases h.mem_rules.mp hmem with hmem | ⟨rfl, hmem⟩
  · exact Or.inl hmem
  · exact Or.inl (hrs r hmem)

/-- A rule is pushed, and the greatest priority of its tree covers it in the end. -/
theorem Pushes.keepsUp_of_le {rule : RuleSpec cfg.D V} (h : Pushes t [rule] b s s₁)
    (hmax : ∀ t' r, r ∈ s.rules t' → s.maxPriority t' ≤ s₁.maxPriority t') (h' : KeepsUp s₁ s')
    (hle : priority rule.second ≤ s'.maxPriority t) : KeepsUp s s' := by
  have hmem₁ : ∀ t' r, r ∈ s.rules t' → r ∈ s₁.rules t' :=
    fun t' r hmem => h.mem_rules.mpr (Or.inl hmem)
  refine ⟨fun t' r hmem => (hmax t' r hmem).trans (h'.maxPriority t' r (hmem₁ t' r hmem)),
    fun t' r hmem => h'.mem t' r (hmem₁ t' r hmem), fun t' r hmem => ?_⟩
  rcases h'.rules t' r hmem with hmem | hle'
  · rcases h.mem_rules.mp hmem with hmem | ⟨rfl, hmem⟩
    · exact Or.inl hmem
    · exact Or.inr (List.mem_singleton.mp hmem ▸ hle)
  · exact Or.inr hle'

end Pushes

/-! ## The array is resorted -/

section Resort

variable {s : PartitionSortClassifer cfg.D V} {i : ℕ}

/-- The order holds again when the one tree that was out of place has been moved. -/
theorem byPriority_resort (hi : i < s.treeCnt)
    (h : SortedApartFrom s.maxPriority s.treeCnt i s.trees) :
    ByPriority { s with trees := arrayResort s.maxPriority s.trees s.treeCnt i } := by
  obtain ⟨src, hsrc⟩ := exists_resorted s.maxPriority s.trees hi h
  exact fun i j hij hj => hsrc.sorted i j hij hj

theorem sortedApartFrom_of_byPriority {s' : PartitionSortClassifer cfg.D V} {n : ℕ}
    (hs : ByPriority s) (htrees : s'.trees = s.trees) (hn : ∀ j, j < n → j ≠ i → j < s.treeCnt)
    (hmax : ∀ j, j < n → j ≠ i →
      s'.maxPriority (s.trees.get j) = s.maxPriority (s.trees.get j)) :
    SortedApartFrom s'.maxPriority n i s'.trees := by
  intro j k hjk hk hj hk'
  rw [htrees, hmax j (hjk.trans hk) hj, hmax k hk hk']
  exact hs j k hjk (hn k hk hk')

variable [RuleValue V] {rule : RuleSpec cfg.D V}

/-- The greatest priority of a tree is raised where the tree is at the index `i`. -/
theorem ensures_raisePriority_ranks [DecidableEq V]
    {E : ClassifierFault → PartitionSortClassifer cfg.D V → Prop} (hs : Tidy cfg s)
    (h : ByPriority s) (hi : i < s.treeCnt)
    (hplace : s.maxPriority t < priority rule.second → s.trees.get i = t) :
    Ensures E (raisePriority rule t i) s fun _ s' => ByPriority s' ∧
      (∀ t', s.maxPriority t' ≤ s'.maxPriority t') ∧ priority rule.second ≤ s'.maxPriority t := by
  refine .bind (.get (.ite (fun hlt => ?_) fun hle => .pure ⟨h, fun _ => le_rfl, not_lt.mp hle⟩))
  refine .bind ((ensures_updateInfo_ranks rfl).mono fun _ s₁ h₁ => .modify ?_)
  refine ⟨byPriority_resort (h₁.treeCnt.symm ▸ hi) ?_, fun t' => ?_, h₁.maxPriority.ge⟩
  · refine sortedApartFrom_of_byPriority h h₁.trees (fun j hj _ => h₁.treeCnt ▸ hj)
      fun j hj hne => h₁.other fun heq => hne ?_
    have hle := hs.treeCnt_le
    rw [h₁.treeCnt] at hj
    exact hs.trees_inj j i (by omega) (by omega) (heq.trans (hplace hlt).symm)
  · show s.maxPriority t' ≤ s₁.maxPriority t'
    rcases eq_or_ne t' t with rfl | hne
    · exact h₁.maxPriority.symm ▸ le_of_lt hlt
    · exact (h₁.other hne).ge

omit [RuleValue V] in
/-- The tree behind those in use becomes one of them. -/
theorem ensures_countTree_ranks {E : ClassifierFault → PartitionSortClassifer cfg.D V → Prop}
    {s₁ : PartitionSortClassifer cfg.D V} (h : ByPriority s) (htrees : s₁.trees = s.trees)
    (hcnt : s₁.treeCnt = s.treeCnt) (hmax : ∀ j, j < s.treeCnt →
      s₁.maxPriority (s.trees.get j) = s.maxPriority (s.trees.get j)) :
    Ensures E countTree s₁ fun _ s' => ByPriority s' ∧ s'.infos = s₁.infos := by
  refine .bind (.modify (.bind (.get (.modify ⟨?_, rfl⟩))))
  have hlt : ∀ j, j < s₁.treeCnt + 1 → j ≠ s₁.treeCnt + 1 - 1 → j < s.treeCnt := by
    intro j hj hne
    omega
  exact byPriority_resort (s := { s₁ with treeCnt := s₁.treeCnt + 1 }) (i := s₁.treeCnt + 1 - 1)
    (Nat.sub_lt (Nat.succ_pos _) one_pos)
      (sortedApartFrom_of_byPriority h htrees hlt fun j hj hne => hmax j (hlt j hj hne))

end Resort

/-! ## The contract of the calls -/

section Contract

variable [DecidableEq V] [RuleValue V] (std : IntervalSort) {s : PartitionSortClassifer cfg.D V}

/-- In the state `s₂`, `try_insert_to_tree_without_collisions` goes on after it has had its tree
updated. -/
def Resumes (rule : RuleSpec cfg.D V) (mask : RuleMask cfg.D) (i : ℕ)
    (s s₂ : PartitionSortClassifer cfg.D V) : Prop :=
  ∃ s₁ n, colides cfg s (s.trees.get i) rule = .ok false ∧
    register rule mask (s.trees.get i) s = .ok () s₁ ∧
      (s₁.rules (s.trees.get i)).length < cfg.TREE_FIXATION_THRESHOLD ∧
        run std cfg n (.update (s.trees.get i) (some rule)) s₁ = .ok () s₂

/-- Where `try_insert_to_tree_without_collisions` raises the greatest priority of its tree after an
update, the tree is still at the index it was at before. -/
def Call.KeepsPlace : Call cfg.D V → PartitionSortClassifer cfg.D V → Prop
  | .tryInsert rule mask i, s => ∀ s₂, Resumes std rule mask i s s₂ →
      s₂.maxPriority (s.trees.get i) < priority rule.second → s₂.trees.get i = s.trees.get i
  | _, _ => True

variable (V) in
/-- The contract of the calls with respect to the order of the trees. -/
def ranks (cfg : ClassifierCfg) :
    Contract ClassifierFault (PartitionSortClassifer cfg.D V) (Call.Res (D := cfg.D) (V := V)) where
  pre c s := ByPriority s ∧ c.Registered s
  post _ s _ s' := ByPriority s' ∧ KeepsUp s s'
  err _ _ _ _ := True

/-- The contract of the calls that a body makes. -/
abbrev callees (cfg : ClassifierCfg) :
    Contract ClassifierFault (PartitionSortClassifer cfg.D V) (Call.Res (D := cfg.D) (V := V)) :=
  ((ranks V cfg).given (books cfg ∅)).ran (body std cfg) ClassifierFault.tooDeep

/-- What a body is shown to do when its call is made in the state `s`. -/
abbrev KeepsOrder (c : Call cfg.D V) (s : PartitionSortClassifer cfg.D V) : Prop :=
  (body std cfg c).Ensures (callees std cfg) ((ranks V cfg).err c s) s ((ranks V cfg).post c s)

theorem keepsOrder_update {rule : Option (RuleSpec cfg.D V)} (h : ByPriority s)
    (hreg : (Call.update t rule).Registered s) : KeepsOrder std (.update t rule) s := by
  have hmem : ∀ r ∈ rule.toList, r ∈ s.rules t := by
    cases rule with
    | none => simp
    | some rule =>
      have hmem : rule ∈ s.rules t := hreg
      simpa using hmem
  refine .bind (.perform (.get (.ite (fun _ => ?_) fun _ => ?_)))
  · refine .perform (((ensures_insertPending_ranks t rule s).and
      (ensures_insertPending rule s)).conseq (fun _ _ _ => trivial) fun _ s' h' => ?_)
    exact ⟨h'.1.byPriority h, h'.2.keepsUp h'.1 hmem⟩
  refine .bind (.perform (((ensures_beginUpdate_ranks t rule s).and
    (ensures_beginUpdate (E := fun _ _ => True) rule s)).conseq (fun _ _ _ => trivial)
      fun _ s₁ h₁ => ?_))
  have hs₁ := h₁.1.byPriority h
  have hk₁ := h₁.2.keepsUp h₁.1 hmem
  have hfinish : ∀ s₂, ByPriority s₂ → KeepsUp s s₂ →
      (perform (endUpdate t)).Ensures (callees std cfg) ((ranks V cfg).err (.update t rule) s) s₂
        ((ranks V cfg).post (.update t rule) s) := by
    intro s₂ hs₂ hk₂
    refine .perform (((ensures_endUpdate_ranks t s₂).and
      (ensures_endUpdate (E := fun _ _ => True) s₂)).conseq (fun _ _ _ => trivial) fun _ s' h' => ?_)
    exact ⟨h'.1.byPriority hs₂, hk₂.trans (h'.2.keepsUp h'.1 nofun)⟩
  refine .bind (.perform (.get (.ite (fun _ => ?_) fun _ => ?_)))
  · refine .bind (.perform (((ensures_emptyTree_ranks t _ _ s₁).and
      (ensures_emptyTree _ _ s₁)).conseq (fun _ _ _ => trivial) fun _ s₂ h₂ => ?_))
    refine .bind (.invoke ⟨h₂.1.byPriority hs₁, trivial⟩ (fun _ _ _ => trivial) fun _ s₃ h₃ => ?_)
    exact hfinish s₃ h₃.1.2.1 ((hk₁.trans (h₂.2.keepsUp h₂.1 nofun)).trans h₃.1.2.2)
  · refine .bind (.perform (((ensures_insertGiven_ranks t rule s₁).and
      (ensures_insertGiven rule s₁)).conseq (fun _ _ _ => trivial) fun _ s₂ h₂ => ?_))
    exact hfinish s₂ (h₂.1.byPriority hs₁) (hk₁.trans (h₂.2.keepsUp h₂.1 nofun))

theorem keepsOrder_rebuild {j : ℕ} (h : ByPriority s) : KeepsOrder std (.rebuild t j) s := by
  refine .bind (.perform (.get ?_))
  cases (s.rules t)[j]? with
  | none => exact .pure ⟨h, .refl s⟩
  | some r =>
    have hnext : ∀ s₁, ByPriority s₁ → KeepsUp s s₁ →
        (invoke (.rebuild t (j + 1))).Ensures (callees std cfg)
          ((ranks V cfg).err (.rebuild t j) s) s₁ ((ranks V cfg).post (.rebuild t j) s) :=
      fun s₁ hs₁ hk₁ => .invoke ⟨hs₁, trivial⟩ (fun _ _ _ => trivial)
        fun _ _ h' => ⟨h'.1.2.1, hk₁.trans h'.1.2.2⟩
    refine .bind (.perform ((ensures_collides r s).conseq (fun _ _ _ => trivial) ?_))
    rintro b s₀ ⟨heq, -⟩
    subst s₀
    refine .ite (fun _ => ?_) fun _ => ?_
    · exact .bind (.invoke ⟨h, trivial⟩ (fun _ _ _ => trivial)
        fun _ s₁ h₁ => hnext s₁ h₁.1.2.1 h₁.1.2.2)
    · refine .bind (.perform (((ensures_onTree_ranks _ t s).and (ensures_onTree _ t s)).conseq
        (fun _ _ _ => trivial) fun _ s₁ h₁ => ?_))
      exact hnext s₁ (h₁.1.byPriority h) (h₁.2.keepsUp h₁.1 nofun)

theorem keepsOrder_tryInsert {rule : RuleSpec cfg.D V} {mask : RuleMask cfg.D} {i : ℕ}
    (hs : Tidy cfg s) (hi : i < s.treeCnt) (h : ByPriority s)
    (hplace : (Call.tryInsert rule mask i).KeepsPlace std s) :
    KeepsOrder std (.tryInsert rule mask i) s := by
  refine .bind (.perform (.get (.bind (.perform ((ensures_collides rule s).conseq
    (fun _ _ _ => trivial) ?_)))))
  rintro b s₀ ⟨heq, hb⟩
  subst s₀
  refine .ite (fun _ => .pure ⟨h, .refl s⟩) fun hfalse => ?_
  obtain rfl : b = false := by simpa using hfalse
  refine .bind (.perform (((ensures_register_ranks rule mask _ s).and
    (ensures_register (E := fun _ _ => True) rule mask s)).with_run.conseq (fun _ _ _ => trivial)
      fun _ s₁ h₁ => ?_))
  obtain ⟨hregister, hr₁, hp₁⟩ := h₁
  have hs₁ : Tidy cfg s₁ := hp₁.tidy hs (Or.inl ⟨i, hi, rfl⟩)
  have hb₁ := hr₁.byPriority h
  have hmax₁ : ∀ t' r, r ∈ s.rules t' → s.maxPriority t' ≤ s₁.maxPriority t' :=
    fun t' _ _ => (hr₁.same t').ge
  have hmem₁ : rule ∈ s₁.rules (s.trees.get i) := by simp [hp₁.rules_self]
  have hraise : ∀ s₂, Tidy cfg s₂ → ByPriority s₂ → i < s₂.treeCnt → KeepsUp s₁ s₂ →
      (s₂.maxPriority (s.trees.get i) < priority rule.second →
        s₂.trees.get i = s.trees.get i) →
      (do perform (raisePriority rule (s.trees.get i) i); pure true : CallProg cfg.D V Bool).Ensures
        (callees std cfg) ((ranks V cfg).err (.tryInsert rule mask i) s) s₂
          ((ranks V cfg).post (.tryInsert rule mask i) s) := by
    intro s₂ hs₂ hb₂ hi₂ hk₂ hplace₂
    refine .bind (.perform (((ensures_raisePriority_ranks (E := fun _ _ => True) hs₂ hb₂ hi₂
      hplace₂).and (ensures_raisePriority (E := fun _ _ => True) rule hi₂)).conseq
        (fun _ _ _ => trivial) fun _ s' h' => ?_))
    obtain ⟨⟨hb', hmax', hle⟩, hp'⟩ := h'
    have hrules : ∀ t', s'.rules t' = s₂.rules t' := by
      intro t'
      rw [hp'.rules, List.append_nil, ite_self]
    exact .pure ⟨hb', hp₁.keepsUp_of_le hmax₁ (hk₂.trans (.of_rules hrules hmax')) hle⟩
  refine .bind (.perform (.get (.ite (fun hlt => .bind ?_) fun _ => .bind ?_)))
  · refine .invoke ⟨hb₁, hmem₁⟩ (fun _ _ _ => trivial) fun _ s₂ h₂ => ?_
    obtain ⟨⟨⟨hf₂, -⟩, hb₂, hk₂⟩, n, hrun⟩ := h₂
    refine hraise s₂ hf₂.tidy hb₂ ?_ hk₂ fun hlt' => ?_
    · exact lt_of_lt_of_le (hp₁.treeCnt.symm ▸ hi) hf₂.grows.treeCnt
    · exact hplace s₂ ⟨s₁, n, hb, hregister, hlt, hrun⟩ hlt'
  · refine .perform (((ensures_insertFixed_ranks rule _ _ s₁).and
      (ensures_insertFixed rule _ s₁)).conseq (fun _ _ _ => trivial) fun _ s₂ h₂ => ?_)
    obtain ⟨hr₂, hp₂⟩ := h₂
    refine hraise s₂ (hp₂.tidy hs₁ (Or.inr ⟨rfl, rfl⟩)) (hr₂.byPriority hb₁) ?_
      (hp₂.keepsUp hr₂ nofun) fun _ => ?_
    · rwa [hr₂.treeCnt, hr₁.treeCnt]
    · rw [hr₂.trees, hr₁.trees]

theorem keepsOrder_tryTrees {rule : RuleSpec cfg.D V} {mask : RuleMask cfg.D} {first : Bool}
    {cnt i : ℕ} (h : ByPriority s) : KeepsOrder std (.tryTrees rule mask first cnt i) s := by
  cases cnt with
  | zero => exact .pure ⟨h, .refl s⟩
  | succ cnt =>
    have hnext : ∀ s₁, ByPriority s₁ → KeepsUp s s₁ →
        (invoke (.tryTrees rule mask first cnt (i + 1))).Ensures (callees std cfg)
          ((ranks V cfg).err (.tryTrees rule mask first (cnt + 1) i) s) s₁
            ((ranks V cfg).post (.tryTrees rule mask first (cnt + 1) i) s) :=
      fun s₁ hs₁ hk₁ => .invoke ⟨hs₁, trivial⟩ (fun _ _ _ => trivial)
        fun _ _ h' => ⟨h'.1.2.1, hk₁.trans h'.1.2.2⟩
    refine .bind (.perform (.get (.ite (fun _ => ?_) fun _ => hnext s h (.refl s))))
    exact .bind (.invoke ⟨h, trivial⟩ (fun _ _ _ => trivial) fun a s₁ h₁ =>
      .ite (fun _ => .pure h₁.1.2) fun _ => hnext s₁ h₁.1.2.1 h₁.1.2.2)

theorem keepsOrder_insert {rule : RuleSpec cfg.D V} (hs : Tidy cfg s) (h : ByPriority s) :
    KeepsOrder std (.insert rule) s := by
  have hpre : ∀ first, (ranks V cfg).pre (.tryTrees rule (rule.getRuleMask cfg.keyBytes) first
      s.treeCnt 0) s := fun _ => ⟨h, trivial⟩
  refine .bind (.perform (.get (.bind (.invoke (hpre true) (fun _ _ _ => trivial) ?_))))
  intro a s₁ h₁
  refine .ite (fun _ => .pure h₁.1.2) fun hfalse => ?_
  obtain ⟨rfl, -⟩ := h₁.1.1.2.2 (by simpa using hfalse)
  refine .bind (.perform (.get (.bind (.invoke (hpre false) (fun _ _ _ => trivial) ?_))))
  intro a' s₂ h₂
  refine .ite (fun _ => .pure h₂.1.2) fun hfalse' => ?_
  obtain ⟨rfl, -⟩ := h₂.1.1.2.2 (by simpa using hfalse')
  refine .bind (.perform (.get (.ite (fun hlt => ?_) fun _ => .perform (.throw trivial))))
  -- the new tree has its place in front of those with smaller priorities
  have hnil := (hs.spare _ le_rfl hlt).1
  refine .bind (.perform (((ensures_openTree_ranks std rule _ _ _).and
    (ensures_openTree std rule _ _)).conseq (fun _ _ _ => trivial) fun _ s₃ h₃ => ?_))
  obtain ⟨hr₃, hp₃⟩ := h₃
  refine .bind (.perform (((ensures_register_ranks rule _ _ s₃).and
    (ensures_register (E := fun _ _ => True) rule _ s₃)).conseq (fun _ _ _ => trivial)
      fun _ s₄ h₄ => ?_))
  have hr₄ := hr₃.keep h₄.1
  have hp₄ := hp₃.trans h₄.2
  rw [List.nil_append] at hp₄
  refine .bind (.perform (.get (.ite (fun hlen => ?_) fun _ => ?_)))
  · rw [hp₄.rules_self, hnil] at hlen
    exact absurd hlen (by simp)
  refine .perform ((ensures_countTree_ranks h hr₄.trees hr₄.treeCnt fun j hj => ?_).mono
    fun _ s' h' => ⟨h'.1, ?_⟩)
  · refine hr₄.other fun heq => ?_
    have := hs.trees_inj j _ (lt_of_lt_of_le hj hs.treeCnt_le) hlt heq
    omega
  · have hinfos : ∀ t', s'.infos.get t' = s₄.infos.get t' := fun t' => by rw [h'.2]
    refine hp₄.keepsUp_of_le (fun t' r hmem => ?_) (.of_rules (fun t' => congrArg _ (hinfos t'))
      fun t' => (congrArg TreeInfo.maxPriority (hinfos t')).ge) ?_
    · refine (hr₄.other fun heq => ?_).ge
      rw [heq, hnil] at hmem
      cases hmem
    · rw [maxPriority, hinfos]
      exact hr₄.maxPriority.ge

theorem keepsOrder {c : Call cfg.D V} (hc : (books cfg ∅).pre c s) (h : (ranks V cfg).pre c s)
    (hplace : c.KeepsPlace std s) : KeepsOrder std c s := by
  obtain ⟨hs, -, hent⟩ := hc
  cases c with
  | update t rule => exact keepsOrder_update std h.1 h.2
  | rebuild t j => exact keepsOrder_rebuild std h.1
  | tryInsert rule mask i => exact keepsOrder_tryInsert std hs hent h.1 hplace
  | tryTrees rule mask first cnt i => exact keepsOrder_tryTrees std h.1
  | insert rule => exact keepsOrder_insert std hs h.1

end Contract

end PartitionSortClassifer

end Pcv
