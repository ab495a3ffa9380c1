import Pcv.PartitionSort.ClassifierCalls
import Mathlib.Algebra.BigOperators.Group.Finset.Basic
import Mathlib.Algebra.Order.BigOperators.Group.Finset

/-!
# The books of the classifier

For each tree the classifier keeps a copy of its rules and the mark of a running update,
and over the trees their order, their number and the map from the rules to the trees.
`Pushes` says what a piece of a call does to these books, and nothing of what it does to
the nodes: every piece works on one tree, to whose rules it may append.

`Tidy` is what holds of the books between the calls, and at the start and the end of
each of them: the order holds every tree once, and the trees behind those in use are
empty and not being updated.
-/

namespace Pcv

namespace UnorderedMap

variable {α β : Type} [DecidableEq α]

private theorem lookup_filter_ne (m : UnorderedMap α β) {a a' : α} (h : a' ≠ a) :
    List.lookup a' (m.filter fun e => decide (e.1 ≠ a)) = List.lookup a' m := by
  induction m with
  | nil => rfl
  | cons e m ih =>
    obtain ⟨k, b⟩ := e
    by_cases hk : k = a
    · subst hk
      have hne : (a' == k) = false := by simpa using h
      simp only [ne_eq, not_true_eq_false, decide_false, Bool.false_eq_true, not_false_eq_true,
        List.filter_cons_of_neg, List.lookup_cons, hne]
      simpa using ih
    · by_cases ha : a' = k
      · subst ha
        simp [hk]
      · have hne : (a' == k) = false := by simpa using ha
        simp only [ne_eq, hk, not_false_eq_true, decide_true, List.filter_cons_of_pos,
          List.lookup_cons, hne]
        simpa using ih

private theorem lookup_filter_self (m : UnorderedMap α β) (a : α) :
    List.lookup a (m.filter fun e => decide (e.1 ≠ a)) = none := by
  rw [List.lookup_eq_none_iff]
  rintro ⟨k, b⟩ hk
  have hne : k ≠ a := by simpa using (List.mem_filter.mp hk).2
  simpa using hne.symm

theorem find_assign (m : UnorderedMap α β) (a a' : α) (b : β) :
    find (assign m a b) a' = if a' = a then some b else find m a' := by
  by_cases h : a' = a
  · subst h
    rw [if_pos rfl, find, assign, List.lookup_cons_self]
  · have hne : (a' == a) = false := by simpa using h
    rw [if_neg h, find, assign, List.lookup_cons, hne]
    exact lookup_filter_ne m h

theorem find_erase (m : UnorderedMap α β) (a a' : α) :
    find (erase m a) a' = if a' = a then none else find m a' := by
  by_cases h : a' = a
  · subst h
    rw [if_pos rfl]
    exact lookup_filter_self m a'
  · rw [if_neg h]
    exact lookup_filter_ne m h

end UnorderedMap

namespace PartitionSortClassifer

variable {D : ℕ} {V : Type}

/-- The tree is in use. -/
def InUse (s : PartitionSortClassifer D V) (t : ℕ) : Prop := ∃ i, i < s.treeCnt ∧ s.trees.get i = t

section Books

variable [DecidableEq V]

/-- What holds of the books between the calls. -/
structure Tidy (cfg : ClassifierCfg) (s : PartitionSortClassifer D V) : Prop where
  treeCnt_le : s.treeCnt ≤ cfg.MAX_TREE_CNT
  trees_lt : ∀ i, i < cfg.MAX_TREE_CNT → s.trees.get i < cfg.MAX_TREE_CNT
  trees_inj : ∀ i j, i < cfg.MAX_TREE_CNT → j < cfg.MAX_TREE_CNT →
    s.trees.get i = s.trees.get j → i = j
  spare : ∀ i, s.treeCnt ≤ i → i < cfg.MAX_TREE_CNT →
    s.rules (s.trees.get i) = [] ∧ s.pending (s.trees.get i) = false
  located : ∀ r t, UnorderedMap.find s.ruleToTree r = some t → s.InUse t

theorem InUse.lt {cfg : ClassifierCfg} {s : PartitionSortClassifer D V} {t : ℕ} (h : s.InUse t)
    (hs : Tidy cfg s) : t < cfg.MAX_TREE_CNT := by
  obtain ⟨i, hi, rfl⟩ := h
  exact hs.trees_lt i (lt_of_lt_of_le hi hs.treeCnt_le)

/-- Every tree is at some index. -/
theorem Tidy.exists_index {cfg : ClassifierCfg} {s : PartitionSortClassifer D V} {t : ℕ}
    (hs : Tidy cfg s) (ht : t < cfg.MAX_TREE_CNT) : ∃ i < cfg.MAX_TREE_CNT, s.trees.get i = t := by
  have hsub : (Finset.range cfg.MAX_TREE_CNT).image s.trees.get ⊆ Finset.range cfg.MAX_TREE_CNT := by
    intro t' ht'
    obtain ⟨i, hi, rfl⟩ := Finset.mem_image.mp ht'
    exact Finset.mem_range.mpr (hs.trees_lt i (Finset.mem_range.mp hi))
  have hcard : ((Finset.range cfg.MAX_TREE_CNT).image s.trees.get).card =
      (Finset.range cfg.MAX_TREE_CNT).card :=
    Finset.card_image_of_injOn fun i hi j hj heq =>
      hs.trees_inj i j (Finset.mem_range.mp hi) (Finset.mem_range.mp hj) heq
  have hmem : t ∈ (Finset.range cfg.MAX_TREE_CNT).image s.trees.get := by
    rw [Finset.eq_of_subset_of_card_le hsub hcard.ge]
    exact Finset.mem_range.mpr ht
  obtain ⟨i, hi, heq⟩ := Finset.mem_image.mp hmem
  exact ⟨i, Finset.mem_range.mp hi, heq⟩

/-- A tree with copied rules is in use. -/
theorem Tidy.inUse_of_mem {cfg : ClassifierCfg} {s : PartitionSortClassifer D V} {t : ℕ}
    (hs : Tidy cfg s) (ht : t < cfg.MAX_TREE_CNT) {r : RuleSpec D V} (hr : r ∈ s.rules t) :
    s.InUse t := by
  obtain ⟨i, hi, rfl⟩ := hs.exists_index ht
  by_contra hne
  have hspare := hs.spare i (Nat.not_lt.mp fun hlt => hne ⟨i, hlt, rfl⟩) hi
  rw [hspare.1] at hr
  cases hr

/-- The rules `rs` are appended to the copy of the tree `t`, and its mark becomes `b`; the
trees may be resorted, and the new rules may be mapped to `t`. -/
structure Pushes (t : ℕ) (rs : List (RuleSpec D V)) (b : Bool) (s s' : PartitionSortClassifer D V) :
    Prop where
  rules : ∀ t', s'.rules t' = if t' = t then s.rules t' ++ rs else s.rules t'
  pending : ∀ t', s'.pending t' = if t' = t then b else s.pending t'
  treeCnt : s'.treeCnt = s.treeCnt
  trees : ∃ src, ArrayResorter.Reordered s.treeCnt s.trees s'.trees src
  located : ∀ r t', UnorderedMap.find s'.ruleToTree r = some t' →
    UnorderedMap.find s.ruleToTree r = some t' ∨ (t' = t ∧ r ∈ rs)

namespace Pushes

variable {t : ℕ} {rs rs' : List (RuleSpec D V)} {b b' : Bool} {s s' s'' : PartitionSortClassifer D V}

theorem refl (t : ℕ) (s : PartitionSortClassifer D V) : Pushes t [] (s.pending t) s s where
  rules := fun t' => by simp
  pending := fun t' => by
    split
    · subst t'; rfl
    · rfl
  treeCnt := rfl
  trees := ⟨id, .refl _ _⟩
  located := fun _ _ h => Or.inl h

theorem trans (h : Pushes t rs b s s') (h' : Pushes t rs' b' s' s'') :
    Pushes t (rs ++ rs') b' s s'' where
  rules := by
    intro t'
    rw [h'.rules, h.rules]
    split <;> simp
  pending := by
    intro t'
    rw [h'.pending, h.pending]
    split <;> rfl
  treeCnt := h'.treeCnt.trans h.treeCnt
  trees := by
    obtain ⟨src, hsrc⟩ := h.trees
    obtain ⟨src', hsrc'⟩ := h'.trees
    rw [h.treeCnt] at hsrc'
    exact ⟨src ∘ src', hsrc.trans hsrc'⟩
  located := by
    intro r t' hr
    rcases h'.located r t' hr with hr' | hr'
    · exact (h.located r t' hr').imp id fun hm => ⟨hm.1, List.mem_append_left _ hm.2⟩
    · exact Or.inr ⟨hr'.1, List.mem_append_right _ hr'.2⟩

theorem rules_self (h : Pushes t rs b s s') : s'.rules t = s.rules t ++ rs := by
  rw [h.rules, if_pos rfl]

theorem rules_ne (h : Pushes t rs b s s') {t' : ℕ} (hne : t' ≠ t) : s'.rules t' = s.rules t' := by
  rw [h.rules, if_neg hne]

theorem mem_rules (h : Pushes t rs b s s') {t' : ℕ} {r : RuleSpec D V} :
    r ∈ s'.rules t' ↔ r ∈ s.rules t' ∨ (t' = t ∧ r ∈ rs) := by
  rw [h.rules]
  split
  · next heq => simp [heq]
  · next hne => simp [hne]

theorem pending_self (h : Pushes t rs b s s') : s'.pending t = b := by
  rw [h.pending, if_pos rfl]

theorem pending_ne (h : Pushes t rs b s s') {t' : ℕ} (hne : t' ≠ t) :
    s'.pending t' = s.pending t' := by
  rw [h.pending, if_neg hne]

theorem inUse_iff (h : Pushes t rs b s s') (t' : ℕ) : s'.InUse t' ↔ s.InUse t' := by
  obtain ⟨src, hsrc⟩ := h.trees
  unfold InUse
  rw [h.treeCnt]
  constructor
  · rintro ⟨i, hi, rfl⟩
    exact ⟨src i, hsrc.src_lt hi, (hsrc.get i).symm⟩
  · rintro ⟨i, hi, rfl⟩
    obtain ⟨j, hj, rfl⟩ := hsrc.exists_src i hi
    exact ⟨j, hj, hsrc.get j⟩

end Pushes

/-- The books only grow: no copy loses a rule, no tree goes out of use, and no mark is taken
away. -/
structure Grows (s s' : PartitionSortClassifer D V) : Prop where
  rules : ∀ t, s.rules t <+: s'.rules t
  treeCnt : s.treeCnt ≤ s'.treeCnt
  inUse : ∀ t, s.InUse t → s'.InUse t
  pending : ∀ t, s.pending t → s'.pending t

omit [DecidableEq V] in
theorem Grows.refl (s : PartitionSortClassifer D V) : Grows s s :=
  ⟨fun _ => List.prefix_rfl, le_rfl, fun _ h => h, fun _ h => h⟩

omit [DecidableEq V] in
theorem Grows.trans {s s' s'' : PartitionSortClassifer D V} (h : Grows s s') (h' : Grows s' s'') :
    Grows s s'' :=
  ⟨fun t => (h.rules t).trans (h'.rules t), h.treeCnt.trans h'.treeCnt,
    fun t ht => h'.inUse t (h.inUse t ht), fun t ht => h'.pending t (h.pending t ht)⟩

namespace Pushes

variable {t : ℕ} {rs : List (RuleSpec D V)} {b : Bool} {s s' : PartitionSortClassifer D V}

theorem grows (h : Pushes t rs b s s') (hb : s.pending t → b) : Grows s s' where
  rules := by
    intro t'
    rw [h.rules]
    split
    · exact List.prefix_append _ _
    · exact List.prefix_rfl
  treeCnt := h.treeCnt.ge
  inUse := fun t' ht' => (h.inUse_iff t').mpr ht'
  pending := by
    intro t' ht'
    rw [h.pending]
    split
    · subst t'; exact hb ht'
    · exact ht'

/-- What a piece of a call does to a tree in use keeps the books tidy. -/
theorem tidy {cfg : ClassifierCfg} (h : Pushes t rs b s s') (hs : Tidy cfg s)
    (ht : s.InUse t ∨ (rs = [] ∧ b = s.pending t)) : Tidy cfg s' := by
  obtain ⟨src, hsrc⟩ := h.trees
  have hmax := hsrc.mono hs.treeCnt_le
  have hne : ∀ i, s.treeCnt ≤ i → i < cfg.MAX_TREE_CNT → s.InUse t → s.trees.get i ≠ t := by
    rintro i hi hlt ⟨j, hj, rfl⟩ heq
    have := hs.trees_inj i j hlt (lt_of_lt_of_le hj hs.treeCnt_le) heq
    omega
  constructor
  · rw [h.treeCnt]
    exact hs.treeCnt_le
  · intro i hi
    rw [hsrc.get]
    exact hs.trees_lt _ (hmax.src_lt hi)
  · intro i j hi hj hij
    rw [hsrc.get, hsrc.get] at hij
    exact hsrc.injective (hs.trees_inj _ _ (hmax.src_lt hi) (hmax.src_lt hj) hij)
  · intro i hi hlt
    rw [h.treeCnt] at hi
    rw [hsrc.get, hsrc.behind i hi]
    have hspare := hs.spare i hi hlt
    rcases ht with ht | ⟨rfl, rfl⟩
    · rw [h.rules_ne (hne i hi hlt ht), h.pending_ne (hne i hi hlt ht)]
      exact hspare
    · rw [h.rules, h.pending, List.append_nil]
      split
      · subst t; exact ⟨hspare.1, hspare.2⟩
      · exact hspare
  · intro r t' hr
    rw [h.inUse_iff]
    rcases h.located r t' hr with hr' | ⟨rfl, hmem⟩
    · exact hs.located r t' hr'
    · rcases ht with ht | ⟨rfl, -⟩
      · exact ht
      · cases hmem

end Pushes

/-! ## How many rules fit in before the orders are fixed -/

/-- How many more rules the trees can take before their orders are fixed. -/
def room (cfg : ClassifierCfg) (s : PartitionSortClassifer D V) : ℕ :=
  ∑ t ∈ Finset.range cfg.MAX_TREE_CNT, (cfg.TREE_FIXATION_THRESHOLD - (s.rules t).length)

omit [DecidableEq V] in
theorem Grows.room_le {cfg : ClassifierCfg} {s s' : PartitionSortClassifer D V} (h : Grows s s') :
    room cfg s' ≤ room cfg s := by
  apply Finset.sum_le_sum
  intro t _
  have := (h.rules t).length_le
  omega

/-- A rule for a tree whose order is not fixed yet takes up room. -/
theorem Pushes.room_lt {cfg : ClassifierCfg} {t : ℕ} {r : RuleSpec D V} {b : Bool}
    {s s' : PartitionSortClassifer D V} (h : Pushes t [r] b s s') (ht : t < cfg.MAX_TREE_CNT)
    (hlt : (s'.rules t).length < cfg.TREE_FIXATION_THRESHOLD) : room cfg s' < room cfg s := by
  have hle : ∀ t', (s.rules t').length ≤ (s'.rules t').length := by
    intro t'
    rw [h.rules]
    split
    · simp
    · rfl
  refine Finset.sum_lt_sum (fun t' _ => ?_) ⟨t, Finset.mem_range.mpr ht, ?_⟩
  · have := hle t'
    omega
  · have : (s'.rules t).length = (s.rules t).length + 1 := by
      rw [h.rules_self, List.length_append, List.length_singleton]
    omega

/-! ## What the pieces do to the books -/

section Phases

variable [RuleValue V] {cfg : ClassifierCfg} {t : ℕ}

/-- An error of a piece comes from a tree or its nodes, and the books stay as they are. -/
def NodeFails (t : ℕ) (s : PartitionSortClassifer D V) (e : ClassifierFault)
    (s' : PartitionSortClassifer D V) : Prop :=
  (∃ fault, e = .node fault) ∧ Pushes t [] (s.pending t) s s'

omit [RuleValue V] in
theorem pushes_pool (t : ℕ) (s : PartitionSortClassifer D V) (p : NodeAllocator V) :
    Pushes t [] (s.pending t) s { s with pool := p } where
  rules := (Pushes.refl t s).rules
  pending := (Pushes.refl t s).pending
  treeCnt := rfl
  trees := (Pushes.refl t s).trees
  located := (Pushes.refl t s).located

omit [RuleValue V] in
theorem ensures_onPool {α : Type} (x : NodeM V α) (t : ℕ) (s : PartitionSortClassifer D V) :
    Ensures (NodeFails t s) (onPool x) s fun _ s' => Pushes t [] (s.pending t) s s' := by
  cases hx : x s.pool with
  | ok a p =>
    have hrun : onPool x s = .ok a { s with pool := p } := by rw [onPool, hx]
    exact .of_ok hrun (pushes_pool t s p)
  | error e p =>
    have hrun : onPool x s = .error (.node e) { s with pool := p } := by rw [onPool, hx]
    exact .of_error hrun ⟨⟨e, rfl⟩, pushes_pool t s p⟩

omit [RuleValue V] in
/-- A change of what the classifier knows of one tree. -/
theorem pushes_updateInfo {s : PartitionSortClassifer D V} {f : TreeInfo D V → TreeInfo D V}
    {rs : List (RuleSpec D V)} (hrules : (f (s.infos.get t)).rules = s.rules t ++ rs) :
    Pushes t rs (f (s.infos.get t)).updatePending s
      { s with infos := s.infos.set t (f (s.infos.get t)) } where
  rules := by
    intro t'
    simp only [rules, Store.get_set]
    split
    · subst t'; exact hrules
    · rfl
  pending := by
    intro t'
    simp only [pending, Store.get_set]
    split <;> rfl
  treeCnt := rfl
  trees := ⟨id, .refl _ _⟩
  located := fun _ _ h => Or.inl h

omit [RuleValue V] in
theorem ensures_updateInfo {E : ClassifierFault → PartitionSortClassifer D V → Prop}
    {s : PartitionSortClassifer D V} {f : TreeInfo D V → TreeInfo D V} {l : List (RuleSpec D V)}
    {b : Bool} (hrules : (f (s.infos.get t)).rules = s.rules t ++ l)
    (hb : (f (s.infos.get t)).updatePending = b) :
    Ensures E (updateInfo t f) s fun _ s' => Pushes t l b s s' := by
  subst hb
  exact .modify (pushes_updateInfo hrules)

omit [RuleValue V] in
theorem ensures_onTree (f : BTree cfg.D → NodeM V (BTree cfg.D)) (t : ℕ)
    (s : PartitionSortClassifer cfg.D V) :
    Ensures (NodeFails t s) (onTree cfg t f) s fun _ s' => Pushes t [] (s.pending t) s s' := by
  refine .bind (.get (.bind ((ensures_onPool _ t s).mono fun tree s₁ h => ?_)))
  refine (ensures_updateInfo (l := []) (List.append_nil _).symm rfl).mono fun _ s' h' => ?_
  have := h.trans h'
  rwa [show (s₁.infos.get t).updatePending = s.pending t from h.pending_self] at this

theorem ensures_insertPending (rule : Option (RuleSpec cfg.D V))
    (s : PartitionSortClassifer cfg.D V) :
    Ensures (NodeFails t s) (insertPending cfg t rule) s fun _ s' =>
      Pushes t rule.toList (s.pending t) s s' := by
  cases rule with
  | none => exact .pure (.refl t s)
  | some rule =>
    refine .bind ((ensures_onTree _ t s).mono fun _ s₁ h => ?_)
    refine (ensures_updateInfo rfl rfl).mono fun _ s' h' => ?_
    have := h.trans h'
    rwa [show (s₁.infos.get t).updatePending = s.pending t from h.pending_self] at this

omit [RuleValue V] in
theorem ensures_beginUpdate {E : ClassifierFault → PartitionSortClassifer D V → Prop}
    (rule : Option (RuleSpec D V)) (s : PartitionSortClassifer D V) :
    Ensures E (beginUpdate t rule) s fun _ s' => Pushes t rule.toList true s s' := by
  refine .bind ((ensures_updateInfo (l := []) (b := true) (List.append_nil _).symm rfl).mono
    fun _ s₁ h => ?_)
  cases rule with
  | none => exact .pure h
  | some rule =>
    refine (ensures_updateInfo (b := true) rfl ?_).mono fun _ s' h' => h.trans h'
    exact h.pending_self

omit [RuleValue V] in
theorem ensures_emptyTree (root : Option ℕ) (order : DimensionOrder cfg.D × ℕ)
    (s : PartitionSortClassifer cfg.D V) :
    Ensures (NodeFails t s) (emptyTree cfg t root order) s fun _ s' =>
      Pushes t [] (s.pending t) s s' := by
  refine .bind (.get (.bind ((ensures_onPool _ t s).mono fun _ s₁ h => ?_)))
  refine (ensures_updateInfo (l := []) (List.append_nil _).symm rfl).mono fun _ s' h' => ?_
  have := h.trans h'
  rwa [show (s₁.infos.get t).updatePending = s.pending t from h.pending_self] at this

theorem ensures_insertGiven (rule : Option (RuleSpec cfg.D V))
    (s : PartitionSortClassifer cfg.D V) :
    Ensures (NodeFails t s) (insertGiven cfg t rule) s fun _ s' =>
      Pushes t [] (s.pending t) s s' := by
  cases rule with
  | none => exact .pure (.refl t s)
  | some rule => exact ensures_onTree (fun tree => tree.insert cfg.toBTreeCfg rule) t s

omit [RuleValue V] in
theorem ensures_endUpdate {E : ClassifierFault → PartitionSortClassifer D V → Prop}
    (s : PartitionSortClassifer D V) :
    Ensures E (endUpdate t) s fun _ s' => Pushes t [] false s s' :=
  ensures_updateInfo (List.append_nil _).symm rfl

omit [DecidableEq V] [RuleValue V] in
/-- A mask is counted in one table only. -/
theorem usedRuleMaskIncr_eq (ti : TreeInfo D V) (mask : RuleMask D) :
    ∃ masks, usedRuleMaskIncr ti mask = { ti with usedRuleMasks := masks } := by
  unfold usedRuleMaskIncr
  split <;> exact ⟨_, rfl⟩

omit [DecidableEq V] [RuleValue V] in
theorem usedRuleMaskDecr_eq {ti ti' : TreeInfo D V} {mask : RuleMask D}
    (h : usedRuleMaskDecr ti mask = some ti') :
    ∃ masks, ti' = { ti with usedRuleMasks := masks } := by
  unfold usedRuleMaskDecr at h
  split at h
  · cases h
  · split at h <;> cases h <;> exact ⟨_, rfl⟩

omit [RuleValue V] in
theorem ensures_register {E : ClassifierFault → PartitionSortClassifer D V → Prop}
    (rule : RuleSpec D V) (mask : RuleMask D) (s : PartitionSortClassifer D V) :
    Ensures E (register rule mask t) s fun _ s' => Pushes t [rule] (s.pending t) s s' := by
  refine .bind ((ensures_updateInfo (l := [rule]) rfl rfl).mono fun _ s₁ h => ?_)
  refine .bind (.modify ?_)
  obtain ⟨masks, hmasks⟩ := usedRuleMaskIncr_eq (s₁.infos.get t) mask
  refine (ensures_updateInfo (l := []) (b := (s₁.infos.get t).updatePending) ?_ ?_).mono
    fun _ s' h' => ?_
  · exact (congrArg TreeInfo.rules hmasks).trans (List.append_nil _).symm
  · exact (congrArg TreeInfo.updatePending hmasks :)
  · have hpend : (s₁.infos.get t).updatePending = s.pending t := h.pending_self
    rw [hpend] at h'
    constructor
    · intro t'
      rw [h'.rules, List.append_nil, ite_self]
      exact h.rules t'
    · intro t'
      rw [h'.pending]
      split
      · rfl
      · exact h.pending_ne (by assumption)
    · exact h'.treeCnt.trans h.treeCnt
    · obtain ⟨src, hsrc⟩ := h.trees
      obtain ⟨src', hsrc'⟩ := h'.trees
      rw [show s₁.treeCnt = s.treeCnt from h.treeCnt] at hsrc'
      exact ⟨src ∘ src', hsrc.trans hsrc'⟩
    · intro r t' hr
      rcases h'.located r t' hr with hr' | ⟨-, hmem⟩
      · rw [UnorderedMap.find_assign] at hr'
        split at hr'
        · subst r
          cases hr'
          exact Or.inr ⟨rfl, List.mem_singleton_self rule⟩
        · exact (h.located r t' hr').imp id fun hm => ⟨hm.1, hm.2⟩
      · cases hmem

theorem ensures_insertFixed (rule : RuleSpec cfg.D V) (ti : TreeInfo cfg.D V)
    (s : PartitionSortClassifer cfg.D V) :
    Ensures (NodeFails t s) (insertFixed cfg rule t ti) s fun _ s' =>
      Pushes t [] (s.pending t) s s' := by
  refine .bind ((ensures_updateInfo (l := []) (List.append_nil _).symm rfl).mono
    fun _ s₁ h => ?_)
  have hpend : s₁.pending t = s.pending t := h.pending_self
  refine (ensures_onTree _ t s₁).conseq (fun e s' he => ⟨he.1, ?_⟩) fun _ s' h' => ?_
  · exact hpend ▸ h.trans he.2
  · exact hpend ▸ h.trans h'

omit [RuleValue V] in
theorem pushes_resort {s : PartitionSortClassifer D V} {i : ℕ} (hi : i < s.treeCnt) (t : ℕ) :
    Pushes t [] (s.pending t) s { s with
      trees := ArrayResorter.arrayResort (fun t => (s.infos.get t).maxPriority) s.trees s.treeCnt
        i } where
  rules := (Pushes.refl t s).rules
  pending := (Pushes.refl t s).pending
  treeCnt := rfl
  trees := ArrayResorter.arrayResort_reordered _ _ hi
  located := (Pushes.refl t s).located

theorem ensures_raisePriority {E : ClassifierFault → PartitionSortClassifer D V → Prop}
    (rule : RuleSpec D V) {i : ℕ} {s : PartitionSortClassifer D V} (hi : i < s.treeCnt) :
    Ensures E (raisePriority rule t i) s fun _ s' => Pushes t [] (s.pending t) s s' := by
  refine .bind (.get (.ite (fun _ => ?_) fun _ => .pure (.refl t s)))
  refine .bind ((ensures_updateInfo (l := []) (List.append_nil _).symm rfl).mono
    fun _ s₁ h => .modify ?_)
  have h' := pushes_resort (s := s₁) (i := i) (by rw [h.treeCnt]; exact hi) t
  have hpend : s₁.pending t = s.pending t := h.pending_self
  exact hpend ▸ h.trans h'

theorem ensures_openTree (std : IntervalSort) (rule : RuleSpec cfg.D V) (ti : TreeInfo cfg.D V)
    (s : PartitionSortClassifer cfg.D V) :
    Ensures (NodeFails t s) (openTree std cfg rule t ti) s fun _ s' =>
      Pushes t [] (s.pending t) s s' := by
  refine .bind ((ensures_updateInfo (l := []) (List.append_nil _).symm rfl).mono
    fun _ s₁ h => ?_)
  have hpend : s₁.pending t = s.pending t := h.pending_self
  have last : ∀ s₂, Pushes t [] (s.pending t) s s₂ →
      Ensures (NodeFails t s) (onTree cfg t fun tree => tree.insert cfg.toBTreeCfg rule) s₂
        fun _ s' => Pushes t [] (s.pending t) s s' := by
    intro s₂ h₂
    have hpend₂ : s₂.pending t = s.pending t := h₂.pending_self
    refine (ensures_onTree _ t s₂).conseq (fun e s' he => ⟨he.1, ?_⟩) fun _ s' h' => ?_
    · exact hpend₂ ▸ h₂.trans he.2
    · exact hpend₂ ▸ h₂.trans h'
  refine .ite (fun _ => ?_) fun _ => last s₁ h
  refine .bind ((ensures_updateInfo (l := []) (List.append_nil _).symm rfl).mono
    fun _ s₂ h₂ => ?_)
  exact last s₂ (hpend ▸ h.trans h₂)

/-- Whether the rule collides with one in the tree. -/
def colides (cfg : ClassifierCfg) (s : PartitionSortClassifer cfg.D V) (t : ℕ)
    (rule : RuleSpec cfg.D V) : Except Fault Bool :=
  (s.infos.get t).tree.doesRuleColide cfg.toBTreeCfg s.pool rule

omit [DecidableEq V] [RuleValue V] in
theorem collides_of_ok {s : PartitionSortClassifer cfg.D V} {rule : RuleSpec cfg.D V} {b : Bool}
    (h : colides cfg s t rule = .ok b) : collides cfg t rule s = .ok b s := by
  unfold collides
  simp only [Bind.bind, EStateM.bind, stateGet_eq]
  rw [show (s.infos.get t).tree.doesRuleColide cfg.toBTreeCfg s.pool rule = .ok b from h]
  rfl

omit [RuleValue V] in
/-- The check for a collision only reads. -/
theorem ensures_collides (rule : RuleSpec cfg.D V) (s : PartitionSortClassifer cfg.D V) :
    Ensures (NodeFails t s) (collides cfg t rule) s fun b s' =>
      s' = s ∧ colides cfg s t rule = .ok b := by
  refine .bind (.get ?_)
  cases hc : (s.infos.get t).tree.doesRuleColide cfg.toBTreeCfg s.pool rule with
  | ok b => exact .pure ⟨rfl, hc⟩
  | error e => exact .throw ⟨⟨e, rfl⟩, .refl t s⟩

omit [RuleValue V] in
/-- The first tree behind those in use, with its rule, becomes one of them. -/
theorem Tidy.ensures_countTree {E : ClassifierFault → PartitionSortClassifer D V → Prop}
    {s s₁ : PartitionSortClassifer D V} {rule : RuleSpec D V} (hs : Tidy cfg s)
    (hlt : s.treeCnt < cfg.MAX_TREE_CNT)
    (h : Pushes (s.trees.get s.treeCnt) [rule] (s.pending (s.trees.get s.treeCnt)) s s₁) :
    Ensures E countTree s₁ fun _ s' => Tidy cfg s' ∧ Grows s s' ∧
      (∀ t, s'.pending t = s.pending t) ∧
        ∀ t, t ≠ s.trees.get s.treeCnt → s'.rules t = s.rules t := by
  obtain ⟨src, hsrc⟩ := h.trees
  have hmax := hsrc.mono hs.treeCnt_le
  have hpend : ∀ t, s₁.pending t = s.pending t := by
    intro t
    rw [h.pending]
    split
    · subst t; rfl
    · rfl
  set s₂ : PartitionSortClassifer D V := { s₁ with treeCnt := s₁.treeCnt + 1 } with hs₂
  have hinUse : ∀ t, s.InUse t → s₂.InUse t := by
    intro t ht
    obtain ⟨i, hi, hget⟩ := (h.inUse_iff t).mpr ht
    exact ⟨i, Nat.lt_succ_of_lt hi, hget⟩
  have hnew : s₂.InUse (s.trees.get s.treeCnt) := by
    refine ⟨s.treeCnt, by rw [hs₂, h.treeCnt]; exact Nat.lt_succ_self _, ?_⟩
    rw [show s₂.trees.get s.treeCnt = s₁.trees.get s.treeCnt from rfl, hsrc.get,
      hsrc.behind _ le_rfl]
  have htidy : Tidy cfg s₂ := by
    constructor
    · rw [show s₂.treeCnt = s₁.treeCnt + 1 from rfl, h.treeCnt]
      exact hlt
    · intro i hi
      rw [show s₂.trees.get i = s₁.trees.get i from rfl, hsrc.get]
      exact hs.trees_lt _ (hmax.src_lt hi)
    · intro i j hi hj hij
      rw [show s₂.trees.get i = s₁.trees.get i from rfl,
        show s₂.trees.get j = s₁.trees.get j from rfl, hsrc.get, hsrc.get] at hij
      exact hsrc.injective (hs.trees_inj _ _ (hmax.src_lt hi) (hmax.src_lt hj) hij)
    · intro i hi hi'
      rw [show s₂.treeCnt = s₁.treeCnt + 1 from rfl, h.treeCnt] at hi
      have hget : s₂.trees.get i = s.trees.get i := by
        rw [show s₂.trees.get i = s₁.trees.get i from rfl, hsrc.get, hsrc.behind i (by omega)]
      have hne : s.trees.get i ≠ s.trees.get s.treeCnt := by
        intro heq
        have := hs.trees_inj _ _ hi' hlt heq
        omega
      rw [hget]
      exact ⟨(h.rules_ne hne).trans (hs.spare i (by omega) hi').1,
        (hpend _).trans (hs.spare i (by omega) hi').2⟩
    · intro r t hr
      rcases h.located r t hr with hr' | ⟨rfl, -⟩
      · exact hinUse t (hs.located r t hr')
      · exact hnew
  refine .bind (.modify (.bind (.get (.modify ?_))))
  have hsort := pushes_resort (s := s₂) (i := s₂.treeCnt - 1)
    (by rw [show s₂.treeCnt = s₁.treeCnt + 1 from rfl]; omega) (s.trees.get s.treeCnt)
  refine ⟨hsort.tidy htidy (Or.inr ⟨rfl, rfl⟩), ⟨fun t => ?_, ?_, fun t ht => ?_, fun t ht => ?_⟩,
    hpend, fun t ht => h.rules_ne ht⟩
  · exact (h.grows id).rules t
  · exact (h.grows id).treeCnt.trans (Nat.le_succ _)
  · exact (hsort.inUse_iff t).mpr (hinUse t ht)
  · exact (hpend t).trans ht

end Phases

end Books

end PartitionSortClassifer

end Pcv
