import Pcv.PartitionSort.ClassifierContents
import Pcv.PartitionSort.LevelRuns

/-!
# No rule gets lost

Every call keeps the trees supplied according to a policy, if each rule that it puts into a tree
fits there, itself or in a call inside.  Then no rule gets lost on the way: what was as good as
an inserted rule before is replaced only by something as good, and the rules of a tree that is
rebuilt are all put back, into this tree or into another one.
-/

namespace Pcv

namespace PartitionSortClassifer

open DynamicMempool

variable {V : Type} [RuleValue V]

section Contract

variable [DecidableEq V] {cfg : ClassifierCfg} (P : Policy cfg V) (std : IntervalSort)
  {rest : Multiset ℕ} {s : PartitionSortClassifer cfg.D V} {t : ℕ}

/-- The rules that are stored when a call returns. -/
def Call.Stored : ∀ c : Call cfg.D V, PartitionSortClassifer cfg.D V → c.Res →
    PartitionSortClassifer cfg.D V → Prop
  | .update _ rule, _, _, s' => ∀ r ∈ rule.toList, Served P s' r
  | .rebuild t j, s, _, s' => ∀ r ∈ (s.rules t).drop j, Served P s' r
  | .tryInsert rule _ _, _, a, s' => a = true → Served P s' rule
  | .tryTrees rule _ _ _ _, _, a, s' => a = true → Served P s' rule
  | .insert rule, _, _, s' => Served P s' rule

/-- Where the call puts a rule into a tree itself, the rule fits. -/
def Call.Fits (fits : PartitionSortClassifer cfg.D V → ℕ → RuleSpec cfg.D V → Prop) :
    Call cfg.D V → PartitionSortClassifer cfg.D V → Prop
  | .update t (some rule), s =>
      (s.pending t = true ∨ (s.infos.get t).tree.dimensionOrder =
        (GreedyDimensionOrderResolver.resolve std cfg.keyBytes (s.rules t ++ [rule])
          (s.infos.get t).tree.dimensionOrder).1) → fits s t rule
  | .rebuild t j, s => ∀ r ∈ (s.rules t)[j]?, colides cfg s t r = .ok false → fits s t r
  | .tryInsert rule _ i, s => colides cfg s (s.trees.get i) rule = .ok false →
      cfg.TREE_FIXATION_THRESHOLD ≤ (s.rules (s.trees.get i)).length + 1 →
        FitsFixed fits s (s.trees.get i) rule
  | .insert rule, s => ColidesEverywhere cfg s rule → s.treeCnt < cfg.MAX_TREE_CNT →
      fits (s.reordered (s.trees.get s.treeCnt)
        (GreedyDimensionOrderResolver.resolve std cfg.keyBytes [rule]
          (s.infos.get (s.trees.get s.treeCnt)).tree.dimensionOrder).1) (s.trees.get s.treeCnt) rule
  | _, _ => True

instance (fits : PartitionSortClassifer cfg.D V → ℕ → RuleSpec cfg.D V → Prop)
    [∀ s t r, Decidable (fits s t r)] (c : Call cfg.D V) (s : PartitionSortClassifer cfg.D V) :
    Decidable (c.Fits std fits s) :=
  match c with
  | .update _ (some _) => inferInstanceAs (Decidable (_ ∨ _ → _))
  | .update _ none => inferInstanceAs (Decidable True)
  | .rebuild t j => inferInstanceAs (Decidable (∀ r ∈ (s.rules t)[j]?, _ → _))
  | .tryInsert _ _ _ => inferInstanceAs (Decidable (_ → _ → (∀ a ∈ contents cfg s _, _) ∧ _))
  | .tryTrees _ _ _ _ _ => inferInstanceAs (Decidable True)
  | .insert _ => inferInstanceAs (Decidable ((∀ i, i < s.treeCnt → _) → _ → _))

/-- The contract of the calls with respect to the rules in the trees. -/
def supplies (rest : Multiset ℕ) :
    Contract ClassifierFault (PartitionSortClassifer cfg.D V) (Call.Res (D := cfg.D) (V := V)) where
  pre c s := Supplied P rest (fun _ => none) s ∧ c.Registered s ∧ ∀ r ∈ c.given.toList, r ∈ P.rules
  post c s a s' := Supplied P rest (fun _ => none) s' ∧ (∀ r, Served P s r → Served P s' r) ∧
    c.Stored P s a s'
  err _ _ _ _ := True

/-- What a body is shown to do when its call is made in the state `s`. -/
abbrev KeepsSupplied (rest : Multiset ℕ) (c : Call cfg.D V) (s : PartitionSortClassifer cfg.D V) :
    Prop :=
  (body std cfg c).Ensures ((supplies P rest).given (books cfg ∅)) ((supplies P rest).err c s) s
    ((supplies P rest).post c s)

variable {P std} (hP : P.Lawful) (hT : 2 ≤ cfg.T) (hD : 0 < cfg.D)
  (hpc : cfg.pathCompression = true)

include hP hT hD hpc in
theorem keepsSupplied_rebuild {j : ℕ} (ht : t < cfg.MAX_TREE_CNT)
    (h : Supplied P rest (fun _ => none) s) (hfits : (Call.rebuild t j).Fits std P.fits s) :
    KeepsSupplied P std rest (.rebuild t j) s := by
  refine .bind (.perform (.get ?_))
  cases hj : (s.rules t)[j]? with
  | none =>
    refine .pure ⟨h, fun _ hr => hr, fun r hr => ?_⟩
    rw [List.drop_eq_nil_of_le (List.getElem?_eq_none_iff.mp hj)] at hr
    cases hr
  | some r =>
    have hmem := List.mem_of_getElem? hj
    have hdrop : (s.rules t).drop j = r :: (s.rules t).drop (j + 1) := by
      obtain ⟨hlt, rfl⟩ := List.getElem?_eq_some_iff.mp hj
      exact List.drop_eq_getElem_cons hlt
    have hnext : ∀ s₁, Supplied P rest (fun _ => none) s₁ → s.rules t <+: s₁.rules t →
        (∀ a, Served P s a → Served P s₁ a) → Served P s₁ r →
          (invoke (.rebuild t (j + 1))).Ensures ((supplies P rest).given (books cfg ∅))
            ((supplies P rest).err (.rebuild t j) s) s₁
              ((supplies P rest).post (.rebuild t j) s) := by
      intro s₁ h₁ hpre hserved₁ hr₁
      refine .invoke ⟨h₁, trivial, by simp [Call.given]⟩ (fun _ _ _ => trivial) ?_
      rintro _ s' ⟨-, hs', hserved', hstored⟩
      refine ⟨hs', fun a ha => hserved' a (hserved₁ a ha), fun a ha => ?_⟩
      rw [hdrop] at ha
      rcases List.mem_cons.mp ha with rfl | ha
      · exact hserved' a hr₁
      · exact hstored a ((hpre.drop (j + 1)).subset ha)
    refine .bind (.perform ((ensures_collides r s).conseq (fun _ _ _ => trivial) ?_))
    rintro b s₀ ⟨heq, hcol⟩
    subst s₀
    refine .ite (fun _ => ?_) fun hb => ?_
    · refine .bind (.invoke ⟨h, trivial, ?_⟩ (fun _ _ _ => trivial) ?_)
      · simpa [Call.given] using h.mem ht hmem
      rintro _ s₁ ⟨hbooks, h₁, hserved₁, hr₁⟩
      exact hnext s₁ h₁ (hbooks.1.grows.rules t) hserved₁ hr₁
    · obtain rfl : b = false := by simpa using hb
      refine .bind (.perform (((h.ensures_insert (g := fun _ => none) hP hT hD hpc ht
        (h.mem ht hmem) (hfits r hj hcol) (fun _ _ => rfl) (Or.inl hmem)).and
          (ensures_onTree _ t s)).conseq (fun _ _ _ => trivial) ?_))
      rintro - s₁ ⟨⟨h₁, hserved₁, hr₁⟩, hp₁⟩
      refine hnext s₁ h₁ ?_ hserved₁ hr₁
      rw [hp₁.rules_self]
      exact List.prefix_append _ _

include hP hT hD hpc in
theorem keepsSupplied_update {rule : Option (RuleSpec cfg.D V)} (ht : t < cfg.MAX_TREE_CNT)
    (h : Supplied P rest (fun _ => none) s) (hreg : (Call.update t rule).Registered s)
    (hgiven : ∀ r ∈ rule.toList, r ∈ P.rules) (hfits : (Call.update t rule).Fits std P.fits s) :
    KeepsSupplied P std rest (.update t rule) s := by
  refine .bind (.perform (.get (.ite (fun hpend => ?_) fun _ => ?_)))
  · cases rule with
    | none => exact .perform (.pure ⟨h, fun _ hr => hr, by simp [Call.Stored]⟩)
    | some rule =>
      have hr : rule ∈ P.rules := hgiven rule (by simp)
      refine .perform (.bind ((h.ensures_insert (g := fun _ => none) hP hT hD hpc ht hr
        (hfits (Or.inl hpend)) (fun _ _ => rfl) (Or.inl hreg)).mono ?_))
      rintro - s₁ ⟨h₁, hserved₁, hr₁⟩
      refine (h₁.ensures_push (g := fun _ => none) hP
        ((ensures_updateInfo_sameTrees rfl).mono fun _ _ h' => h'.1)
          (ensures_updateInfo (l := [rule]) rfl rfl) hgiven fun _ _ hr => Or.inl hr).mono ?_
      rintro - s₂ ⟨h₂, hserved₂, -, -⟩
      refine ⟨h₂, fun a ha => hserved₂ a (hserved₁ a ha), fun r hr' => ?_⟩
      obtain rfl : r = rule := by simpa using hr'
      exact hserved₂ r hr₁
  refine .bind (.perform ((h.ensures_push (g := fun _ => none) hP (ensures_beginUpdate_sameTrees rule) (ensures_beginUpdate rule s) hgiven
      fun _ _ hr => Or.inl hr).mono ?_))
  rintro - s₁ ⟨h₁, hserved₁, htrees₁, hp₁⟩
  have hfinish : ∀ s₂, Supplied P rest (fun _ => none) s₂ →
      (∀ a, Served P s a → Served P s₂ a) → (∀ r ∈ rule.toList, Served P s₂ r) →
        (perform (endUpdate t)).Ensures ((supplies P rest).given (books cfg ∅))
          ((supplies P rest).err (.update t rule) s) s₂
            ((supplies P rest).post (.update t rule) s) := by
    intro s₂ h₂ hserved₂ hrule₂
    refine .perform ((h₂.ensures_push (g := fun _ => none) hP ensures_endUpdate_sameTrees (ensures_endUpdate s₂) (by simp)
        fun _ _ hr => Or.inl hr).mono ?_)
    rintro - s' ⟨h', hserved', -, -⟩
    exact ⟨h', fun a ha => hserved' a (hserved₂ a ha), fun r hr => hserved' r (hrule₂ r hr)⟩
  refine .bind (.perform (.get (.ite (fun _ => ?_) fun hsame => ?_)))
  · refine .bind (.perform (((h₁.ensures_emptyTree hP ht
      (GreedyDimensionOrderResolver.resolve_isPermutation std _ _ (h₁.isPermutation ht))).and
        (ensures_emptyTree _ _ s₁)).conseq (fun _ _ _ => trivial) ?_))
    rintro - s₂ ⟨⟨h₂, hserved₂⟩, hp₂⟩
    refine .bind (.invoke ⟨h₂, trivial, by simp [Call.given]⟩ (fun _ _ _ => trivial) ?_)
    rintro _ s₃ ⟨-, h₃, hserved₃, hstored₃⟩
    -- the loop puts the copied rules back
    have hback : ∀ r ∈ s₁.rules t, Served P s₃ r := by
      intro r hr
      refine hstored₃ r ?_
      rw [List.drop_zero, hp₂.rules_self]
      exact List.mem_append_left _ hr
    refine hfinish s₃ h₃ (fun a ha => ?_) fun r hr => hback r ?_
    · rcases hserved₂ a (hserved₁ a ha) with ha | ⟨b, hb, hserves⟩
      · exact hserved₃ a ha
      · obtain ⟨t', ht', c, hc, hcb⟩ := hback b hb
        exact ⟨t', ht', c, hc, hP.serves_trans _ _ _ hcb hserves⟩
    · rw [hp₁.rules_self]
      exact List.mem_append_right _ hr
  · cases rule with
    | none => exact .bind (.perform (.pure (hfinish s₁ h₁ hserved₁ (by simp))))
    | some rule =>
      have hr : rule ∈ P.rules := hgiven rule (by simp)
      have hfits₁ : P.fits s₁ t rule := by
        refine hP.fits_congr _ _ t rule htrees₁ (hfits (Or.inr ?_))
        have hrules : s₁.rules t = s.rules t ++ [rule] := hp₁.rules_self
        rw [← htrees₁.tree, ← hrules]
        exact not_not.mp hsame
      refine .bind (.perform ((h₁.ensures_insert (g := fun _ => none) hP hT hD hpc ht hr hfits₁
        (fun _ _ => rfl) (Or.inl (hp₁.mem_rules.mpr (Or.inl hreg)))).mono ?_))
      rintro - s₂ ⟨h₂, hserved₂, hr₂⟩
      refine hfinish s₂ h₂ (fun a ha => hserved₂ a (hserved₁ a ha)) fun r hr' => ?_
      obtain rfl : r = rule := by simpa using hr'
      exact hr₂

include hP hT hD hpc in
theorem keepsSupplied_tryInsert {rule : RuleSpec cfg.D V} {mask : RuleMask cfg.D} {i : ℕ}
    (ht : s.trees.get i < cfg.MAX_TREE_CNT) (hi : i < s.treeCnt)
    (h : Supplied P rest (fun _ => none) s) (hr : rule ∈ P.rules)
    (hfits : (Call.tryInsert rule mask i).Fits std P.fits s) :
    KeepsSupplied P std rest (.tryInsert rule mask i) s := by
  refine .bind (.perform (.get (.bind (.perform ((ensures_collides rule s).conseq
    (fun _ _ _ => trivial) ?_)))))
  rintro b s₀ ⟨heq, hcol⟩
  subst s₀
  refine .ite (fun _ => .pure ⟨h, fun _ hr => hr, fun hfalse => by cases hfalse⟩) fun hb => ?_
  obtain rfl : b = false := by simpa using hb
  set t := s.trees.get i with ht'
  refine .bind (.perform (((h.ensures_push (g := fun _ => none) hP ((ensures_register_sameTrees rule mask).mono fun _ _ h' => h'.1)
      (ensures_register rule mask s) (fun r hr' => by rwa [List.mem_singleton.mp hr'])
        fun _ _ hr => Or.inl hr).and (ensures_register_sameTrees (E := fun _ _ => True) rule
          mask)).conseq (fun _ _ _ => trivial) ?_))
  rintro - s₁ ⟨⟨h₁, hserved₁, htrees₁, hp₁⟩, -, hused₁⟩
  have hmem₁ : rule ∈ s₁.rules t := hp₁.mem_rules.mpr (Or.inr ⟨rfl, List.mem_singleton_self rule⟩)
  have hraise : ∀ s₂, Supplied P rest (fun _ => none) s₂ → i < s₂.treeCnt →
      (∀ a, Served P s₁ a → Served P s₂ a) → Served P s₂ rule →
        (do perform (raisePriority rule t i); pure true : CallProg cfg.D V Bool).Ensures
          ((supplies P rest).given (books cfg ∅))
            ((supplies P rest).err (.tryInsert rule mask i) s) s₂
              ((supplies P rest).post (.tryInsert rule mask i) s) := by
    intro s₂ h₂ hi₂ hserved₂ hr₂
    refine .bind (.perform ((h₂.ensures_push (g := fun _ => none) hP (ensures_raisePriority_sameTrees (t := t) rule i)
        (ensures_raisePriority rule hi₂) (by simp) fun _ _ hr => Or.inl hr).mono ?_))
    rintro - s' ⟨h', hserved', -, -⟩
    exact .pure ⟨h', fun a ha => hserved' a (hserved₂ a (hserved₁ a ha)), fun _ => hserved' _ hr₂⟩
  have hi₁ : i < s₁.treeCnt := hp₁.treeCnt.symm ▸ hi
  refine .bind (.perform (.get (.ite (fun _ => .bind ?_) fun hfixed => .bind ?_)))
  · refine .invoke ⟨h₁, hmem₁, ?_⟩ (fun _ _ _ => trivial) ?_
    · intro r hr'
      obtain rfl : r = rule := by simpa [Call.given] using hr'
      exact hr
    rintro _ s₂ ⟨hbooks, h₂, hserved₂, hstored₂⟩
    exact hraise s₂ h₂ (hi₁.trans_le hbooks.1.grows.treeCnt) hserved₂ (hstored₂ rule (by simp))
  have hlen : (s₁.infos.get t).rules.length = (s.rules t).length + 1 := by
    have := congrArg List.length hp₁.rules_self
    rwa [List.length_append, List.length_singleton] at this
  have hfits := hfits hcol (hlen ▸ not_lt.mp hfixed)
  refine .perform (((h₁.ensures_insertFixed hP hT hD hpc ht hr hmem₁
    (FitsFixed.congr hP hfits htrees₁ hused₁)).and (ensures_insertFixed rule _ s₁)).conseq
      (fun _ _ _ => trivial) ?_)
  rintro - s₂ ⟨⟨h₂, hserved₂, hr₂⟩, hp₂⟩
  exact hraise s₂ h₂ (hp₂.treeCnt.symm ▸ hi₁) hserved₂ hr₂

theorem keepsSupplied_tryTrees {rule : RuleSpec cfg.D V} {mask : RuleMask cfg.D} {first : Bool}
    {cnt i : ℕ} (h : Supplied P rest (fun _ => none) s) (hr : rule ∈ P.rules) :
    KeepsSupplied P std rest (.tryTrees rule mask first cnt i) s := by
  have hgiven : ∀ r ∈ (some rule).toList, r ∈ P.rules := by simpa using hr
  cases cnt with
  | zero => exact .pure ⟨h, fun _ hr => hr, fun hfalse => by cases hfalse⟩
  | succ cnt =>
    have hnext : ∀ s₁, Supplied P rest (fun _ => none) s₁ →
        (∀ a, Served P s a → Served P s₁ a) →
          (invoke (.tryTrees rule mask first cnt (i + 1))).Ensures
            ((supplies P rest).given (books cfg ∅))
              ((supplies P rest).err (.tryTrees rule mask first (cnt + 1) i) s) s₁
                ((supplies P rest).post (.tryTrees rule mask first (cnt + 1) i) s) := by
      intro s₁ h₁ hserved₁
      refine .invoke ⟨h₁, trivial, hgiven⟩ (fun _ _ _ => trivial) fun a s' h' => ?_
      exact ⟨h'.2.1, fun b hb => h'.2.2.1 b (hserved₁ b hb), h'.2.2.2⟩
    refine .bind (.perform (.get (.ite (fun _ => ?_) fun _ => hnext s h fun _ hr => hr)))
    refine .bind (.invoke ⟨h, trivial, hgiven⟩ (fun _ _ _ => trivial) fun a s₁ h₁ => ?_)
    obtain ⟨-, hs₁, hserved₁, hstored₁⟩ := h₁
    exact .ite (fun ha => .pure ⟨hs₁, hserved₁, fun _ => hstored₁ ha⟩) fun _ => hnext s₁ hs₁ hserved₁

omit [DecidableEq V] [RuleValue V] in
theorem ensures_countTree_infos {E : ClassifierFault → PartitionSortClassifer cfg.D V → Prop}
    (s : PartitionSortClassifer cfg.D V) :
    Ensures E countTree s fun _ s' => s'.infos = s.infos ∧ s'.pool = s.pool :=
  .bind (.modify (.bind (.get (.modify ⟨rfl, rfl⟩))))

omit [DecidableEq V] in
/-- The classifier as it is after a tree has been counted. -/
theorem Supplied.countTree {s' : PartitionSortClassifer cfg.D V}
    (h : Supplied P rest (fun _ => none) s) (hinfos : s'.infos = s.infos) (hpool : s'.pool = s.pool) :
    Supplied P rest (fun _ => none) s' := by
  have hcontents : contents cfg s' = contents cfg s := by
    funext t
    rw [contents, contents, hinfos, hpool]
  exact ⟨hcontents ▸ h.shelves.congr hinfos hpool, hcontents ▸ h.sound⟩

include hP hT hD hpc in
theorem keepsSupplied_insert {rule : RuleSpec cfg.D V} (hs : Tidy cfg s)
    (h : Supplied P rest (fun _ => none) s) (hr : rule ∈ P.rules)
    (hfits : (Call.insert rule).Fits std P.fits s) : KeepsSupplied P std rest (.insert rule) s := by
  have hpre : ∀ first, (supplies P rest).pre (.tryTrees rule (rule.getRuleMask cfg.keyBytes) first
      s.treeCnt 0) s := fun _ => ⟨h, trivial, by simpa [Call.given] using hr⟩
  refine .bind (.perform (.get (.bind (.invoke (hpre true) (fun _ _ _ => trivial) ?_))))
  rintro a s₁ ⟨hb₁, hs₁, hserved₁, hstored₁⟩
  refine .ite (fun ha => .pure ⟨hs₁, hserved₁, hstored₁ ha⟩) fun hfalse => ?_
  obtain ⟨rfl, hfirst⟩ := hb₁.2.2 (by simpa using hfalse)
  refine .bind (.perform (.get (.bind (.invoke (hpre false) (fun _ _ _ => trivial) ?_))))
  rintro a' s₂ ⟨hb₂, hs₂, hserved₂, hstored₂⟩
  refine .ite (fun ha => .pure ⟨hs₂, hserved₂, hstored₂ ha⟩) fun hfalse' => ?_
  obtain ⟨rfl, hsecond⟩ := hb₂.2.2 (by simpa using hfalse')
  refine .bind (.perform (.get (.ite (fun hlt => ?_) fun _ => .perform (.throw trivial))))
  have hcolides : ColidesEverywhere cfg s₂ rule := by
    intro i hi
    cases hf : triedFirst s₂ (rule.getRuleMask cfg.keyBytes) i with
    | true => exact hfirst i (Nat.zero_le i) (by omega) hf
    | false => exact hsecond i (Nat.zero_le i) (by omega) hf
  have ht := hs.trees_lt _ hlt
  have hnil := (hs.spare _ le_rfl hlt).1
  refine .bind (.perform (((h.ensures_openTree std hP hT hD hpc ht hnil hr (hfits hcolides hlt)).and
    (ensures_openTree std rule _ _)).conseq (fun _ _ _ => trivial) ?_))
  rintro - s₃ ⟨⟨h₃, hserved₃, hr₃⟩, hp₃⟩
  refine .bind (.perform ((h₃.ensures_push (g := fun _ => none) hP ((ensures_register_sameTrees rule _).mono fun _ _ h' => h'.1)
      (ensures_register rule _ s₃) (fun r hr' => by rwa [List.mem_singleton.mp hr'])
        fun t r hr' => ?_).mono ?_))
  · rcases eq_or_ne t (s₂.trees.get s₂.treeCnt) with rfl | hne
    · rw [entering_self] at hr'
      exact Or.inr ⟨rfl, List.mem_singleton.mpr (Option.some.inj hr')⟩
    · rw [entering_ne hne] at hr'
      exact Or.inl hr'
  rintro - s₄ ⟨h₄, hserved₄, -, hp₄⟩
  have hlen : (s₄.rules (s₂.trees.get s₂.treeCnt)).length = 1 := by
    rw [hp₄.rules_self, hp₃.rules_self, hnil]
    rfl
  -- the new tree has one rule, so its order is not updated
  refine .bind (.perform (.get (.ite (fun hgt => ?_) fun _ => ?_)))
  · exact absurd hgt (by rw [hlen]; exact Nat.lt_irrefl 1)
  refine .perform ((ensures_countTree_infos s₄).mono fun _ s' h' => ?_)
  have hserved : ∀ a, Served P s₄ a → Served P s' a := fun a ha =>
    SameTrees.served ⟨h'.2, fun t => by rw [h'.1]⟩ ha
  exact ⟨h₄.countTree h'.1 h'.2, fun a ha => hserved a (hserved₄ a (hserved₃ a ha)),
    hserved rule (hserved₄ rule hr₃)⟩

include hP hT hD hpc in
theorem keepsSupplied {c : Call cfg.D V} (hc : (books cfg ∅).pre c s)
    (h : (supplies P rest).pre c s) (hfits : c.Fits std P.fits s) : KeepsSupplied P std rest c s := by
  obtain ⟨hs, -, hent⟩ := hc
  obtain ⟨h, hreg, hgiven⟩ := h
  cases c with
  | update t rule => exact keepsSupplied_update hP hT hD hpc (hent.1.lt hs) h hreg hgiven hfits
  | rebuild t j => exact keepsSupplied_rebuild hP hT hD hpc (hent.1.lt hs) h hfits
  | tryInsert rule mask i =>
    exact keepsSupplied_tryInsert hP hT hD hpc
      (hs.trees_lt i (lt_of_lt_of_le hent hs.treeCnt_le)) hent h (hgiven rule (by simp [Call.given]))
        hfits
  | tryTrees rule mask first cnt i =>
    exact keepsSupplied_tryTrees h (hgiven rule (by simp [Call.given]))
  | insert rule =>
    exact keepsSupplied_insert hP hT hD hpc hs h (hgiven rule (by simp [Call.given])) hfits

include hP hT hD hpc in
/-- A call that puts rules only where they fit, itself and inside, loses none. -/
theorem ensures_run_supplied {c : Call cfg.D V} (hc : (books cfg ∅).pre c s)
    (h : (supplies P rest).pre c s) (hfits : ∀ g, Inside std cfg (c, s) g → g.1.Fits std P.fits g.2)
    (fuel : ℕ) : Ensures (fun _ _ => True) (PartitionSortClassifer.run std cfg fuel c) s fun a s' =>
      (books cfg ∅).post c s a s' ∧ (supplies P rest).post c s a s' := by
  refine (ensures_of_calls ((books cfg ∅).both (supplies P rest)) (Nests cfg)
    (fun c s => ∀ g, Inside std cfg (c, s) g → g.1.Fits std P.fits g.2)
      (fun _ _ _ _ hx hcall g hg => hx g (.head hcall hg)) (fun c s hpre hx => ?_) fuel c s
        ⟨hc, h⟩ hfits).conseq (fun _ _ _ => trivial) fun _ _ h => h
  exact (books_met std c s hpre.1).both (keepsSupplied hP hT hD hpc hpre.1 hpre.2 (hx _ .refl))

end Contract

/-! ## Runs of insertions -/

section Runs

variable [DecidableEq V] (std : IntervalSort) (cfg : ClassifierCfg)

/-- The states that are reached by insertions that return, each of them allowed in the state it
is made in, with the rules that have been inserted. -/
inductive Filled (allowed : RuleSpec cfg.D V → PartitionSortClassifer cfg.D V → Prop)
    (start : NodeAllocator V) : List (RuleSpec cfg.D V) → PartitionSortClassifer cfg.D V → Prop
  | make : Filled allowed start [] (make cfg.D start)
  | inserted {rules : List (RuleSpec cfg.D V)} {s s' : PartitionSortClassifer cfg.D V} {fuel : ℕ}
      {rule : RuleSpec cfg.D V} : Filled allowed start rules s → allowed rule s →
        insertRule std cfg fuel rule s = .ok () s' → Filled allowed start (rules ++ [rule]) s'

/-- Wherever the insertion puts a rule into a tree, itself or in a call inside, the rule fits. -/
def PutsFitting (fits : PartitionSortClassifer cfg.D V → ℕ → RuleSpec cfg.D V → Prop)
    (rule : RuleSpec cfg.D V) (s : PartitionSortClassifer cfg.D V) : Prop :=
  ∀ g, Inside std cfg (.insert rule, s) g → g.1.Fits std fits g.2

variable {std cfg} {P : Policy cfg V} {rest : Multiset ℕ} {start : NodeAllocator V}
  {s : PartitionSortClassifer cfg.D V}

omit [DecidableEq V] in
theorem supplied_make (hP : P.Lawful) (hsound : P.sound fun _ => 0) (ho : Owns start rest) :
    Supplied P rest (fun _ => none) (make cfg.D start) := by
  have hp : (BTree.identityOrder cfg.D).IsPermutation := by
    rw [DimensionOrder.IsPermutation, BTree.identityOrder, Vector.toList_ofFn, List.ofFn_id]
  have hnil : EachTree rest (fun _ pool ti trie fp => ∃ m, m = 0 ∧ Shelf P none m pool ti trie fp)
      (make cfg.D start) :=
    .make (fun _ => ⟨0, rfl, ⟨[], .nil hp, fun a ha => absurd ha (Multiset.notMem_zero a)⟩, rfl,
      fun a ha => absurd ha (Multiset.notMem_zero a), fun r hr => absurd hr List.not_mem_nil⟩) ho
  obtain ⟨hshelves, hcontents⟩ := EachTree.contents (R := fun _ m => m = 0) hnil
  exact ⟨hshelves, hP.sound_congr _ _ hcontents hsound⟩

theorem Filled.imp {allowed allowed' : RuleSpec cfg.D V → PartitionSortClassifer cfg.D V → Prop}
    {rules : List (RuleSpec cfg.D V)} (h : Filled std cfg allowed start rules s)
    (himp : ∀ rule s, allowed rule s → allowed' rule s) :
    Filled std cfg allowed' start rules s := by
  induction h with
  | make => exact .make
  | inserted _ hallowed hrun ih => exact ih.inserted (himp _ _ hallowed) hrun

/-- In a run of insertions that put rules only where they fit, every inserted rule is served. -/
theorem Filled.supplied (hP : P.Lawful) (hT : 2 ≤ cfg.T) (hD : 0 < cfg.D)
    (hpc : cfg.pathCompression = true) (ho : Owns start rest) (hsound : P.sound fun _ => 0)
    {rules : List (RuleSpec cfg.D V)} (h : Filled std cfg (PutsFitting std cfg P.fits) start rules s)
    (hrules : ∀ r ∈ rules, r ∈ P.rules) :
    Tidy cfg s ∧ Supplied P rest (fun _ => none) s ∧ ∀ r ∈ rules, Served P s r := by
  induction h with
  | make => exact ⟨tidy_make start, supplied_make hP hsound ho, fun r hr => absurd hr List.not_mem_nil⟩
  | @inserted rules s s' fuel rule _ hfits hrun ih =>
    obtain ⟨hs, h, hserved⟩ := ih fun r hr => hrules r (List.mem_append_left _ hr)
    have hr : rule ∈ P.rules := hrules rule (by simp)
    have hpre : (supplies P rest).pre (.insert rule) s := ⟨h, trivial, by simpa [Call.given] using hr⟩
    rw [← run_insert] at hrun
    obtain ⟨hbooks, h', hserved', hstored⟩ := (ensures_run_supplied hP hT hD hpc
      ((Call.entered_insert rule s).pre_books hs) hpre hfits fuel).ok hrun
    refine ⟨hbooks.1.tidy, h', fun r hr' => ?_⟩
    rcases List.mem_append.mp hr' with hr' | hr'
    · exact hserved' r (hserved r hr')
    · rw [List.mem_singleton.mp hr']
      exact hstored

/-- Insertions of which nothing is asked. -/
theorem Filled.of_afterInserts {fuel : ℕ} {rules rules' : List (RuleSpec cfg.D V)}
    {s' : PartitionSortClassifer cfg.D V} (h : Filled std cfg (fun _ _ => True) start rules s)
    (hs : afterInserts std cfg fuel rules' s = some s') :
    Filled std cfg (fun _ _ => True) start (rules ++ rules') s' := by
  induction rules' generalizing rules s with
  | nil =>
    cases hs
    rwa [List.append_nil]
  | cons rule rules' ih =>
    rw [afterInserts] at hs
    split at hs
    next s₁ hrun =>
      rw [List.append_cons]
      exact ih (h.inserted trivial hrun) hs
    next => cases hs

/-- The insertions, as long as they return and put rules only where they fit. -/
def insertFitting (std : IntervalSort) (cfg : ClassifierCfg) (fuel : ℕ)
    (fits : PartitionSortClassifer cfg.D V → ℕ → RuleSpec cfg.D V → Prop)
    [∀ s t r, Decidable (fits s t r)] : List (RuleSpec cfg.D V) → PartitionSortClassifer cfg.D V →
      Option (PartitionSortClassifer cfg.D V)
  | [], s => some s
  | rule :: rules, s =>
      if (callsInside (body std cfg) ClassifierFault.tooDeep fuel (.insert rule, s)).all
          fun g => decide (g.1.Fits std fits g.2) then
        match insertRule std cfg fuel rule s with
        | .ok () s' => insertFitting std cfg fuel fits rules s'
        | .error _ _ => none
      else none

theorem putsFitting_of_callsInside {fits : PartitionSortClassifer cfg.D V → ℕ → RuleSpec cfg.D V → Prop}
    [∀ s t r, Decidable (fits s t r)] {fuel : ℕ} {rule : RuleSpec cfg.D V}
    {s' : PartitionSortClassifer cfg.D V} (hrun : insertRule std cfg fuel rule s = .ok () s')
    (h : (callsInside (body std cfg) ClassifierFault.tooDeep fuel (.insert rule, s)).all
      (fun g => decide (g.1.Fits std fits g.2)) = true) : PutsFitting std cfg fits rule s := by
  intro g hg
  refine of_decide_eq_true (List.all_eq_true.mp h g (mem_callsInside (fun t ht => ?_) hg))
  have hdeep : run std cfg fuel (.insert rule) s = .error .tooDeep t := ht
  rw [run_insert, hrun] at hdeep
  cases hdeep

theorem Filled.of_insertFitting {fits : PartitionSortClassifer cfg.D V → ℕ → RuleSpec cfg.D V → Prop}
    [∀ s t r, Decidable (fits s t r)] {fuel : ℕ} {rules rules' : List (RuleSpec cfg.D V)}
    {s' : PartitionSortClassifer cfg.D V} (h : Filled std cfg (PutsFitting std cfg fits) start rules s)
    (hs : insertFitting std cfg fuel fits rules' s = some s') :
    Filled std cfg (PutsFitting std cfg fits) start (rules ++ rules') s' := by
  induction rules' generalizing rules s with
  | nil =>
    cases hs
    rwa [List.append_nil]
  | cons rule rules' ih =>
    rw [insertFitting] at hs
    split at hs
    next hfits =>
      split at hs
      next s₁ hrun =>
        rw [List.append_cons]
        exact ih (h.inserted (putsFitting_of_callsInside hrun hfits) hrun) hs
      next => cases hs
    next => cases hs

end Runs

end PartitionSortClassifer

end Pcv
