import Pcv.PartitionSort.ClassifierLevels
import Pcv.PartitionSort.TreeValues

/-!
# Where the values in the trees come from

Every tree keeps a copy of the rules it was given, and a copy is never given up: neither when a
rebuild passes the rule on, nor when the rule is removed.  So what is stored in a tree, and what
a search finds there, is the value of a copied rule, whatever rules have met in the tree.

`Copied` is this invariant.  All calls of the recursion keep it, and so does the removal of a
rule that its tree can be detached from.
-/

namespace Pcv

open DynamicMempool

/-- The value is not valid, or it is the value of a copied rule or of the one that is on its way
into the tree. -/
def TreeInfo.Copies {D : ℕ} {V : Type} [RuleValue V] (ti : TreeInfo D V)
    (entering : Option (RuleSpec D V)) (v : V) : Prop :=
  isValid v = true → ∃ r, (r ∈ ti.rules ∨ some r = entering) ∧ r.second = v

namespace TreeInfo.Copies

variable {D : ℕ} {V : Type} [RuleValue V] {ti ti' : TreeInfo D V}
  {e g : Option (RuleSpec D V)} {v : V}

theorem invalid : ti.Copies e RuleValue.invalid := fun h => by simp at h

theorem of_mem {r : RuleSpec D V} (hr : r ∈ ti.rules) : ti.Copies e r.second :=
  fun _ => ⟨r, Or.inl hr, rfl⟩

theorem mono (h : ti.Copies e v)
    (hr : ∀ r, r ∈ ti.rules ∨ some r = e → r ∈ ti'.rules ∨ some r = g) : ti'.Copies g v := by
  intro hv
  obtain ⟨r, hmem, rfl⟩ := h hv
  exact ⟨r, hr r hmem, rfl⟩

end TreeInfo.Copies

namespace PartitionSortClassifer

variable {V : Type} [RuleValue V] {cfg : ClassifierCfg}

/-- Every tree carries the values of its copied rules, save for a rule that is on its way into it,
and has nodes of its own; `rest` are nodes of others. -/
def Copied (cfg : ClassifierCfg) (rest : Multiset ℕ) (e : ℕ → Option (RuleSpec cfg.D V))
    (s : PartitionSortClassifer cfg.D V) : Prop :=
  EachTree rest (fun t pool ti => ti.tree.Carries cfg.toBTreeCfg pool (ti.Copies (e t))) s

section Copied

variable {rest : Multiset ℕ} {e g : ℕ → Option (RuleSpec cfg.D V)}
  {s s' : PartitionSortClassifer cfg.D V} {t : ℕ}

theorem copied_local (e : ℕ → Option (RuleSpec cfg.D V)) (t : ℕ) :
    TreeProperty.Local fun pool ti =>
      ti.tree.Carries cfg.toBTreeCfg pool (ti.Copies (e t)) :=
  fun _ _ _ _ _ h hagree => h.frame hagree

theorem copied_le (he : ∀ t', t' ≠ t → g t' = e t') (t' : ℕ) (hne : t' ≠ t) :
    (fun pool (ti : TreeInfo cfg.D V) =>
      ti.tree.Carries cfg.toBTreeCfg pool (ti.Copies (e t'))) ≤
        fun pool ti => ti.tree.Carries cfg.toBTreeCfg pool (ti.Copies (g t')) := by
  rw [he t' hne]

theorem Copied.tree (h : Copied cfg rest e s) (ht : t < cfg.MAX_TREE_CNT) :
    ∃ trie fp others, (s.infos.get t).tree.Carries cfg.toBTreeCfg s.pool
      ((s.infos.get t).Copies (e t)) trie fp ∧ Owns s.pool (fp + others) := by
  obtain ⟨trie, fp, others, hcarries, ho, -⟩ := h.focus (copied_local e) ht
  exact ⟨trie, fp, others, hcarries, ho⟩

theorem Copied.congr (h : Copied cfg rest e s) (hinfos : s'.infos = s.infos)
    (hpool : s'.pool = s.pool) : Copied cfg rest e s' :=
  EachTree.congr h hinfos hpool

theorem Copied.isPermutation (h : Copied cfg rest e s) (ht : t < cfg.MAX_TREE_CNT) :
    (s.infos.get t).tree.dimensionOrder.IsPermutation := by
  obtain ⟨_, _, _, hcarries, -⟩ := h.tree ht
  exact hcarries.isPermutation

/-- A change of the books of a tree, or of its order. -/
theorem Copied.updateInfo (h : Copied cfg rest e s) (ht : t < cfg.MAX_TREE_CNT)
    {f : TreeInfo cfg.D V → TreeInfo cfg.D V} (he : ∀ t', t' ≠ t → g t' = e t')
    (hroot : (f (s.infos.get t)).tree.root = (s.infos.get t).tree.root)
    (hp : (f (s.infos.get t)).tree.dimensionOrder.IsPermutation)
    (hr : ∀ r, r ∈ s.rules t ∨ some r = e t →
      r ∈ (f (s.infos.get t)).rules ∨ some r = g t) :
    Ensures (fun _ _ => True) (updateInfo t f) s fun _ s' => Copied cfg rest g s' ∧
      s'.infos.get t = f (s.infos.get t) := by
  refine (EachTree.ensures_updateInfo (copied_local e) ht (copied_le he) h
    fun trie fp hcarries => ⟨hp, ?_, ?_⟩).mono fun _ _ h' => ⟨h'.1, h'.2.2⟩
  · rw [hroot]
    exact hcarries.denotes
  · exact hcarries.values.mono fun v hv => hv.mono hr

/-- The tree gives up its nodes. -/
theorem Copied.ensures_emptyTree (h : Copied cfg rest e s) (ht : t < cfg.MAX_TREE_CNT)
    {order : DimensionOrder cfg.D × ℕ} (hp : order.1.IsPermutation) :
    Ensures (fun _ _ => True) (emptyTree cfg t (s.infos.get t).tree.root order) s fun _ s' =>
      Copied cfg rest e s' :=
  (EachTree.ensures_emptyTree (copied_local e) ht (copied_le fun _ _ => rfl) h
    (fun _ _ hcarries => hcarries.denotes) fun _ _ _ _ => .nil hp _).mono fun _ _ h' => h'.1

/-- The rule gets a copy. -/
theorem Copied.ensures_register [DecidableEq V] {rule : RuleSpec cfg.D V} (mask : RuleMask cfg.D)
    (h : Copied cfg rest e s) (ht : t < cfg.MAX_TREE_CNT) (he : ∀ t', t' ≠ t → e t' = none)
    (hrule : ∀ r, some r = e t → r = rule) :
    Ensures (fun _ _ => True) (register rule mask t) s fun _ s' =>
      Copied cfg rest (fun _ => none) s' ∧ rule ∈ s'.rules t := by
  refine .bind ((h.updateInfo (g := fun _ => none) ht (fun t' hne => (he t' hne).symm) rfl
    (h.isPermutation ht) fun r hr => Or.inl ?_).mono ?_)
  · rcases hr with hr | hr
    · exact List.mem_append_left _ hr
    · rw [hrule r hr]
      exact List.mem_append_right _ (List.mem_singleton_self _)
  rintro - s₁ ⟨h₁, hinfo₁⟩
  refine .bind (.modify ?_)
  obtain ⟨masks, hmasks⟩ := usedRuleMaskIncr_eq (s₁.infos.get t) mask
  have htree := congrArg TreeInfo.tree hmasks
  have hrules := congrArg TreeInfo.rules hmasks
  have h₂ : Copied cfg rest (fun _ => none)
      { s₁ with ruleToTree := UnorderedMap.assign s₁.ruleToTree rule t } := h₁.congr rfl rfl
  refine (h₂.updateInfo ht (fun _ _ => rfl) (congrArg BTree.root htree) ?_ fun r hr =>
    hr.imp_left fun hr => (congrArg (r ∈ ·) hrules).mpr hr).mono fun _ s' h' => ⟨h'.1, ?_⟩
  · exact (congrArg (fun tree => tree.dimensionOrder.IsPermutation) htree).mpr (h₁.isPermutation ht)
  · rw [PartitionSortClassifer.rules, h'.2]
    refine (congrArg (rule ∈ ·) hrules).mpr ?_
    rw [hinfo₁]
    simp

theorem Copied.ensures_beginUpdate (rule : Option (RuleSpec cfg.D V))
    (h : Copied cfg rest e s) (ht : t < cfg.MAX_TREE_CNT) :
    Ensures (fun _ _ => True) (beginUpdate t rule) s fun _ s' => Copied cfg rest e s' := by
  refine .bind ((h.updateInfo ht (fun _ _ => rfl) rfl (h.isPermutation ht) fun _ hr => hr).mono ?_)
  rintro - s₁ ⟨h₁, -⟩
  cases rule with
  | none => exact .pure h₁
  | some rule =>
    exact (h₁.updateInfo ht (fun _ _ => rfl) rfl (h₁.isPermutation ht)
      fun r hr => hr.imp_left fun hr => List.mem_append_left _ hr).mono fun _ _ h' => h'.1

theorem Copied.ensures_endUpdate (h : Copied cfg rest e s) (ht : t < cfg.MAX_TREE_CNT) :
    Ensures (fun _ _ => True) (endUpdate t) s fun _ s' => Copied cfg rest e s' :=
  (h.updateInfo ht (fun _ _ => rfl) rfl (h.isPermutation ht) fun _ hr => hr).mono
    fun _ _ h' => h'.1

/-- A copied rule goes into the tree, or the one that is on its way into it. -/
theorem Copied.ensures_insert (hT : 2 ≤ cfg.T) (hD : 0 < cfg.D) (h : Copied cfg rest e s)
    (ht : t < cfg.MAX_TREE_CNT) {r : RuleSpec cfg.D V} (he : ∀ t', t' ≠ t → g t' = e t')
    (hr : r ∈ s.rules t ∨ some r = g t) (hg : ∀ r', some r' = e t → some r' = g t) :
    Ensures (fun _ _ => True) (onTree cfg t fun tree => tree.insert cfg.toBTreeCfg r) s
      fun _ s' => Copied cfg rest g s' ∧ s'.rules t = s.rules t := by
  refine (EachTree.ensures_onTree (E := OnlyBadAlloc) (R := fun _ => True) (copied_local e) ht
    (copied_le he) h fun trie fp others hcarries ho => ?_).mono ?_
  · have hcarries' : (s.infos.get t).tree.Carries cfg.toBTreeCfg s.pool
        ((s.infos.get t).Copies (g t)) trie fp :=
      hcarries.mono fun v hv => hv.mono fun r' hr' => hr'.imp_right (hg r')
    refine (hcarries'.ensures_insert hT hD (fun _ => ⟨r, hr, rfl⟩) .invalid ho).mono ?_
    rintro tree pool ⟨trie', fp', hc, ho', hagree, -⟩
    exact ⟨trie', fp', hc, ho', hagree, trivial⟩
  · rintro - s' ⟨h', -, tree, -, hinfo⟩
    refine ⟨h', ?_⟩
    rw [PartitionSortClassifer.rules, hinfo]

/-- The rule is detached from the tree. -/
theorem Copied.ensures_remove (hT : 2 ≤ cfg.T) (h : Copied cfg rest e s)
    (ht : t < cfg.MAX_TREE_CNT) {r : RuleSpec cfg.D V}
    (hr : (s.infos.get t).tree.Detaches cfg.toBTreeCfg s.pool r) :
    Ensures (fun _ _ => True) (onTree cfg t fun tree => tree.remove cfg.toBTreeCfg r) s
      fun _ s' => Copied cfg rest e s' := by
  refine (EachTree.ensures_onTree (E := fun _ _ => True) (R := fun _ => True) (copied_local e) ht
    (copied_le fun _ _ => rfl) h fun _ _ _ hcarries ho =>
      (hcarries.ensures_remove hT (fun _ _ => trivial) hr .invalid ho).mono ?_).mono
        fun _ _ h' => h'.1
  rintro tree pool ⟨trie', fp', hc, ho', hagree, -⟩
  exact ⟨trie', fp', hc, ho', hagree, trivial⟩

/-- A tree is opened for a rule. -/
theorem Copied.ensures_openTree (std : IntervalSort) (hT : 2 ≤ cfg.T) (hD : 0 < cfg.D)
    (h : Copied cfg rest (fun _ => none) s) (ht : t < cfg.MAX_TREE_CNT) (rule : RuleSpec cfg.D V) :
    Ensures (fun _ _ => True) (openTree std cfg rule t (s.infos.get t)) s fun _ s' =>
      Copied cfg rest (entering t (some rule)) s' := by
  have hinsert : ∀ s₁, Copied cfg rest (fun _ => none) s₁ → Ensures (fun _ _ => True)
      (onTree cfg t fun tree => tree.insert cfg.toBTreeCfg rule) s₁ fun _ s' =>
        Copied cfg rest (entering t (some rule)) s' :=
    fun s₁ h₁ => (h₁.ensures_insert hT hD ht (fun t' hne => entering_ne hne _)
      (Or.inr (entering_self _ _).symm) nofun).mono fun _ _ h' => h'.1
  refine .bind ((h.updateInfo (g := fun _ => none) ht (fun _ _ => rfl) rfl (h.isPermutation ht)
    fun _ hr => hr).mono ?_)
  rintro - s₁ ⟨h₁, -⟩
  refine .ite (fun _ => .bind ?_) fun _ => hinsert s₁ h₁
  exact (h₁.updateInfo ht (fun _ _ => rfl) rfl (GreedyDimensionOrderResolver.resolve_isPermutation
    std _ _ (h.isPermutation ht)) fun _ hr => hr).mono fun _ s₂ h₂ => hinsert s₂ h₂.1

end Copied

/-! ## The contract of the calls -/

section Contract

variable [DecidableEq V] (std : IntervalSort) {rest : Multiset ℕ}
  {s : PartitionSortClassifer cfg.D V} {t : ℕ}

variable (V) in
/-- The contract of the calls with respect to the values in the trees. -/
def values (cfg : ClassifierCfg) (rest : Multiset ℕ) :
    Contract ClassifierFault (PartitionSortClassifer cfg.D V) (Call.Res (D := cfg.D) (V := V)) where
  pre c s := Copied cfg rest (fun _ => none) s ∧ c.Registered s
  post _ _ _ s' := Copied cfg rest (fun _ => none) s'
  err _ _ _ _ := True

/-- What a body is shown to do when its call is made in the state `s`. -/
abbrev KeepsCopied (rest : Multiset ℕ) (c : Call cfg.D V) (s : PartitionSortClassifer cfg.D V) :
    Prop :=
  (body std cfg c).Ensures ((values V cfg rest).given (books cfg ∅)) ((values V cfg rest).err c s) s
    ((values V cfg rest).post c s)

variable {std} (hT : 2 ≤ cfg.T) (hD : 0 < cfg.D)

include hT hD in
omit [DecidableEq V] in
theorem Copied.ensures_insertCopied (h : Copied cfg rest (fun _ => none) s)
    (ht : t < cfg.MAX_TREE_CNT) {r : RuleSpec cfg.D V} (hr : r ∈ s.rules t) :
    Ensures (fun _ _ => True) (onTree cfg t fun tree => tree.insert cfg.toBTreeCfg r) s
      fun _ s' => Copied cfg rest (fun _ => none) s' :=
  (h.ensures_insert hT hD ht (fun _ _ => rfl) (Or.inl hr) fun _ hr' => hr').mono fun _ _ h' => h'.1

include hT hD in
theorem keepsCopied_update {rule : Option (RuleSpec cfg.D V)} (ht : t < cfg.MAX_TREE_CNT)
    (h : Copied cfg rest (fun _ => none) s) (hreg : (Call.update t rule).Registered s) :
    KeepsCopied std rest (.update t rule) s := by
  refine .bind (.perform (.get (.ite (fun _ => ?_) fun _ => ?_)))
  · cases rule with
    | none => exact .perform (.pure h)
    | some rule =>
      refine .perform (.bind ((h.ensures_insertCopied hT hD ht hreg).mono fun _ s₁ h₁ => ?_))
      exact (h₁.updateInfo ht (fun _ _ => rfl) rfl (h₁.isPermutation ht)
        fun r hr => hr.imp_left fun hr => List.mem_append_left _ hr).mono fun _ _ h' => h'.1
  refine .bind (.perform (((h.ensures_beginUpdate rule ht).and
    (ensures_beginUpdate (E := fun _ _ => True) rule s)).conseq (fun _ _ _ => trivial)
      fun _ s₁ h₁ => ?_))
  obtain ⟨hc₁, hp₁⟩ := h₁
  have hfinish : ∀ s₂, Copied cfg rest (fun _ => none) s₂ →
      (perform (endUpdate t)).Ensures ((values V cfg rest).given (books cfg ∅))
        ((values V cfg rest).err (.update t rule) s) s₂
          ((values V cfg rest).post (.update t rule) s) :=
    fun s₂ h₂ => .perform (h₂.ensures_endUpdate ht)
  refine .bind (.perform (.get (.ite (fun _ => ?_) fun _ => ?_)))
  · refine .bind (.perform ((hc₁.ensures_emptyTree ht
      (GreedyDimensionOrderResolver.resolve_isPermutation std _ _ (hc₁.isPermutation ht))).mono
        fun _ s₂ h₂ => ?_))
    exact .bind (.invoke ⟨h₂, trivial⟩ (fun _ _ _ => trivial) fun _ s₃ h₃ => hfinish s₃ h₃.2)
  · cases rule with
    | none => exact .bind (.perform (.pure (hfinish s₁ hc₁)))
    | some rule =>
      exact .bind (.perform ((hc₁.ensures_insertCopied hT hD ht
        (hp₁.mem_rules.mpr (Or.inl hreg))).mono fun _ s₂ h₂ => hfinish s₂ h₂))

include hT hD in
theorem keepsCopied_rebuild {j : ℕ} (ht : t < cfg.MAX_TREE_CNT)
    (h : Copied cfg rest (fun _ => none) s) : KeepsCopied std rest (.rebuild t j) s := by
  refine .bind (.perform (.get ?_))
  cases hj : (s.rules t)[j]? with
  | none => exact .pure h
  | some r =>
    have hnext : ∀ s₁, Copied cfg rest (fun _ => none) s₁ →
        (invoke (.rebuild t (j + 1))).Ensures ((values V cfg rest).given (books cfg ∅))
          ((values V cfg rest).err (.rebuild t j) s) s₁ ((values V cfg rest).post (.rebuild t j) s) :=
      fun s₁ h₁ => .invoke ⟨h₁, trivial⟩ (fun _ _ _ => trivial) fun _ _ h' => h'.2
    refine .bind (.perform ((ensures_collides r s).conseq (fun _ _ _ => trivial) ?_))
    rintro b s₀ ⟨heq, -⟩
    subst s₀
    refine .ite (fun _ => ?_) fun _ => ?_
    · exact .bind (.invoke ⟨h, trivial⟩ (fun _ _ _ => trivial) fun _ s₁ h₁ => hnext s₁ h₁.2)
    · exact .bind (.perform ((h.ensures_insertCopied hT hD ht (List.mem_of_getElem? hj)).mono
        fun _ s₁ h₁ => hnext s₁ h₁))

omit [DecidableEq V] in
theorem ensures_raisePriority_copied {i : ℕ} {rule : RuleSpec cfg.D V} (ht : t < cfg.MAX_TREE_CNT)
    (h : Copied cfg rest (fun _ => none) s) :
    Ensures (fun _ _ => True) (raisePriority rule t i) s fun _ s' =>
      Copied cfg rest (fun _ => none) s' := by
  refine .bind (.get (.ite (fun _ => ?_) fun _ => .pure h))
  refine .bind ((h.updateInfo ht (fun _ _ => rfl) rfl (h.isPermutation ht) fun _ hr => hr).mono ?_)
  rintro - s₁ ⟨h₁, -⟩
  exact .modify (h₁.congr rfl rfl)

include hT hD in
theorem keepsCopied_tryInsert {rule : RuleSpec cfg.D V} {mask : RuleMask cfg.D} {i : ℕ}
    (ht : s.trees.get i < cfg.MAX_TREE_CNT) (h : Copied cfg rest (fun _ => none) s) :
    KeepsCopied std rest (.tryInsert rule mask i) s := by
  refine .bind (.perform (.get (.bind (.perform ((ensures_collides rule s).conseq
    (fun _ _ _ => trivial) ?_)))))
  rintro b s₀ ⟨heq, -⟩
  subst s₀
  refine .ite (fun _ => .pure h) fun _ => ?_
  refine .bind (.perform ((h.ensures_register mask ht (fun _ _ => rfl) nofun).mono
    fun _ s₁ h₁ => ?_))
  obtain ⟨hc₁, hmem₁⟩ := h₁
  have hraise : ∀ s₂, Copied cfg rest (fun _ => none) s₂ →
      (do perform (raisePriority rule (s.trees.get i) i); pure true : CallProg cfg.D V Bool).Ensures
        ((values V cfg rest).given (books cfg ∅))
          ((values V cfg rest).err (.tryInsert rule mask i) s) s₂
            ((values V cfg rest).post (.tryInsert rule mask i) s) :=
    fun s₂ h₂ => .bind (.perform ((ensures_raisePriority_copied ht h₂).mono fun _ _ h' => .pure h'))
  refine .bind (.perform (.get (.ite (fun _ => .bind ?_) fun _ => .bind ?_)))
  · exact .invoke ⟨hc₁, hmem₁⟩ (fun _ _ _ => trivial) fun _ s₂ h₂ => hraise s₂ h₂.2
  -- the order of a fixed tree gets further fields into use, and is still one of all the fields
  refine .perform (.bind ((hc₁.updateInfo ht (fun _ _ => rfl) rfl
    (lockDims_isPermutation rule (hc₁.isPermutation ht)) fun _ hr => hr).mono ?_))
  rintro - s₂ ⟨hc₂, hinfo₂⟩
  refine (hc₂.ensures_insertCopied hT hD ht ?_).mono fun _ s₃ h₃ => hraise s₃ h₃
  rw [PartitionSortClassifer.rules, hinfo₂]
  exact hmem₁

theorem keepsCopied_tryTrees {rule : RuleSpec cfg.D V} {mask : RuleMask cfg.D} {first : Bool}
    {cnt i : ℕ} (h : Copied cfg rest (fun _ => none) s) :
    KeepsCopied std rest (.tryTrees rule mask first cnt i) s := by
  cases cnt with
  | zero => exact .pure h
  | succ cnt =>
    have hnext : ∀ s₁, Copied cfg rest (fun _ => none) s₁ →
        (invoke (.tryTrees rule mask first cnt (i + 1))).Ensures
          ((values V cfg rest).given (books cfg ∅))
            ((values V cfg rest).err (.tryTrees rule mask first (cnt + 1) i) s) s₁
              ((values V cfg rest).post (.tryTrees rule mask first (cnt + 1) i) s) :=
      fun s₁ h₁ => .invoke ⟨h₁, trivial⟩ (fun _ _ _ => trivial) fun _ _ h' => h'.2
    refine .bind (.perform (.get (.ite (fun _ => ?_) fun _ => hnext s h)))
    exact .bind (.invoke ⟨h, trivial⟩ (fun _ _ _ => trivial) fun a s₁ h₁ =>
      .ite (fun _ => .pure h₁.2) fun _ => hnext s₁ h₁.2)

include hT hD in
theorem keepsCopied_insert {rule : RuleSpec cfg.D V} (hs : Tidy cfg s)
    (h : Copied cfg rest (fun _ => none) s) : KeepsCopied std rest (.insert rule) s := by
  have hcount : ∀ s₅, Copied cfg rest (fun _ => none) s₅ →
      (perform countTree).Ensures ((values V cfg rest).given (books cfg ∅))
        ((values V cfg rest).err (.insert rule) s) s₅
          ((values V cfg rest).post (.insert rule) s) := by
    intro s₅ h₅
    have hcount₅ : Copied cfg rest (fun _ => none) { s₅ with treeCnt := s₅.treeCnt + 1 } :=
      h₅.congr rfl rfl
    exact .perform (.bind (.modify (.bind (.get (.modify (hcount₅.congr rfl rfl))))))
  have hpre : ∀ first, (values V cfg rest).pre (.tryTrees rule (rule.getRuleMask cfg.keyBytes) first
      s.treeCnt 0) s := fun _ => ⟨h, trivial⟩
  refine .bind (.perform (.get (.bind (.invoke (hpre true) (fun _ _ _ => trivial) ?_))))
  intro a s₁ h₁
  refine .ite (fun _ => .pure h₁.2) fun hfalse => ?_
  obtain ⟨rfl, -⟩ := h₁.1.2.2 (by simpa using hfalse)
  refine .bind (.perform (.get (.bind (.invoke (hpre false) (fun _ _ _ => trivial) ?_))))
  intro a' s₂ h₂
  refine .ite (fun _ => .pure h₂.2) fun hfalse' => ?_
  obtain ⟨rfl, -⟩ := h₂.1.2.2 (by simpa using hfalse')
  refine .bind (.perform (.get (.ite (fun hlt => ?_) fun _ => .perform (.throw trivial))))
  have ht := hs.trees_lt _ hlt
  refine .bind (.perform ((h.ensures_openTree std hT hD ht rule).mono fun _ s₃ h₃ => ?_))
  refine .bind (.perform ((h₃.ensures_register _ ht (fun t' hne => entering_ne hne _)
    fun r hr => Option.some.inj (hr.trans (entering_self _ _))).mono fun _ s₄ h₄ => ?_))
  exact .bind (.perform (.get (.ite (fun _ => .bind (.invoke ⟨h₄.1, trivial⟩ (fun _ _ _ => trivial)
    fun _ s₅ h₅ => hcount s₅ h₅.2)) fun _ => hcount s₄ h₄.1)))

include hT hD in
theorem keepsCopied {c : Call cfg.D V} (hc : (books cfg ∅).pre c s)
    (h : (values V cfg rest).pre c s) : KeepsCopied std rest c s := by
  obtain ⟨hs, -, hent⟩ := hc
  cases c with
  | update t rule => exact keepsCopied_update hT hD (hent.1.lt hs) h.1 h.2
  | rebuild t j => exact keepsCopied_rebuild hT hD (hent.1.lt hs) h.1
  | tryInsert rule mask i =>
    exact keepsCopied_tryInsert hT hD (hs.trees_lt i (lt_of_lt_of_le hent hs.treeCnt_le)) h.1
  | tryTrees rule mask first cnt i => exact keepsCopied_tryTrees h.1
  | insert rule => exact keepsCopied_insert hT hD hs h.1

end Contract

end PartitionSortClassifer

end Pcv
