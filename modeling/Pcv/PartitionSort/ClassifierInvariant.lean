import Pcv.PartitionSort.ClassifierRebuild
import Pcv.PartitionSort.ClassifierTrees
import Pcv.PartitionSort.TreeLevels

/-!
# Invariants of the trees through the calls

`used_dim_cnt` is the number of levels that the rules of a tree use.  It is set when a tree
is opened or rebuilt and when the fixed order of a tree gets another field into use.  Where
`update_dimension_order` adds a rule without a rebuild, it stays as it is.

A `TreeInvariant` is what can be said of one tree and of the levels counted for it, and kept by
the insertion of a rule that uses those levels only, and by a change of the order behind them.
Every call keeps it for all the trees, if it adds no rule behind the counted levels, whatever is
rebuilt or passed on in between (`keeps`).
-/

namespace Pcv

open DynamicMempool

/-- A property of a tree that stores some of the rules, with the number of its levels in use, the
trie it stores and its nodes. -/
structure TreeInvariant (cfg : BTreeCfg) (V : Type) [RuleValue V] where
  holds : NodeAllocator V → BTree cfg.D → ℕ → Trie Range1d V → Multiset ℕ → Prop
  rules : RuleSpec cfg.D V → Prop
  uses : ∀ {pool t n trie fp}, holds pool t n trie fp → t.Uses cfg pool n trie fp
  nil : ∀ {pool order} n, DimensionOrder.IsPermutation order → holds pool ⟨none, order⟩ n .nil 0
  frame : ∀ {pool pool' t n trie fp}, holds pool t n trie fp →
    Store.Agree fp pool.mempool pool'.mempool → holds pool' t n trie fp
  mono : ∀ {pool t n m trie fp}, holds pool t n trie fp → n ≤ m → holds pool t m trie fp
  reorder : ∀ {pool t n trie fp order'}, holds pool t n trie fp →
    t.dimensionOrder.KeepsFirst n order' →
      holds pool { t with dimensionOrder := order' } n trie fp
  insert : ∀ {pool t n trie fp rest r}, holds pool t n trie fp → rules r →
    r.UsesFirst cfg.keyBytes t.dimensionOrder n → Owns pool (fp + rest) →
      Ensures OnlyBadAlloc (t.insert cfg r) pool fun t' pool' => ∃ trie' fp',
        holds pool' t' n trie' fp' ∧ Owns pool' (fp' + rest) ∧
          Store.Agree rest pool.mempool pool'.mempool ∧ t'.dimensionOrder = t.dimensionOrder

namespace PartitionSortClassifer

variable {V : Type} {cfg : ClassifierCfg}

/-! ## The invariant of the classifier -/

/-- The rule is on its way into the tree `t`. -/
def entering (t : ℕ) (rule : Option (RuleSpec cfg.D V)) (t' : ℕ) : Option (RuleSpec cfg.D V) :=
  if t' = t then rule else none

@[simp] theorem entering_self (t : ℕ) (rule : Option (RuleSpec cfg.D V)) :
    entering t rule t = rule := if_pos rfl

@[simp] theorem entering_none (t : ℕ) :
    (entering t none : ℕ → Option (RuleSpec cfg.D V)) = fun _ => none :=
  funext fun _ => ite_self _

theorem entering_ne {t t' : ℕ} (h : t' ≠ t) (rule : Option (RuleSpec cfg.D V)) :
    entering t rule t' = none := if_neg h

variable [RuleValue V]

/-- The tree has the invariant, and its copied rules are within the levels that are counted, save
for a rule that is on its way into it.  A tree without copied rules is empty. -/
structure Upholds (I : TreeInvariant cfg.toBTreeCfg V) (pool : NodeAllocator V)
    (ti : TreeInfo cfg.D V) (entering : Option (RuleSpec cfg.D V)) (trie : Trie Range1d V)
    (fp : Multiset ℕ) : Prop where
  holds : I.holds pool ti.tree ti.usedDimCnt trie fp
  usedDimCnt_le : ti.usedDimCnt ≤ cfg.D
  rules : ∀ r ∈ ti.rules, I.rules r
  copies : ∀ r ∈ ti.rules, some r ≠ entering →
    r.UsesFirst cfg.keyBytes ti.tree.dimensionOrder ti.usedDimCnt
  empty : ti.rules = [] → entering = none → ti.tree.root = none

/-- Every tree has the invariant, and nodes of its own; `rest` are nodes of others. -/
def Kept (I : TreeInvariant cfg.toBTreeCfg V) (rest : Multiset ℕ)
    (e : ℕ → Option (RuleSpec cfg.D V)) (s : PartitionSortClassifer cfg.D V) : Prop :=
  EachTree rest (fun t pool ti => Upholds I pool ti (e t)) s

section Kept

variable {I : TreeInvariant cfg.toBTreeCfg V} {rest : Multiset ℕ} {e g : ℕ → Option (RuleSpec cfg.D V)}
  {s s' : PartitionSortClassifer cfg.D V} {t : ℕ}

theorem upholds_local (I : TreeInvariant cfg.toBTreeCfg V) (e : ℕ → Option (RuleSpec cfg.D V))
    (t : ℕ) : TreeProperty.Local fun pool ti => Upholds I pool ti (e t) :=
  fun _ _ _ _ _ h hagree => { h with holds := I.frame h.holds hagree }

theorem upholds_le {t : ℕ} (he : ∀ t', t' ≠ t → g t' = e t') (t' : ℕ) (hne : t' ≠ t) :
    (fun pool ti => Upholds I pool ti (e t')) ≤ fun pool ti => Upholds I pool ti (g t') := by
  rw [he t' hne]

theorem Kept.tree (h : Kept I rest e s) (ht : t < cfg.MAX_TREE_CNT) :
    ∃ trie fp others, Upholds I s.pool (s.infos.get t) (e t) trie fp ∧
      Owns s.pool (fp + others) := by
  obtain ⟨trie, fp, others, hup, ho, -⟩ := h.focus (upholds_local I e) ht
  exact ⟨trie, fp, others, hup, ho⟩

theorem Kept.congr (h : Kept I rest e s) (hinfos : s'.infos = s.infos)
    (hpool : s'.pool = s.pool) : Kept I rest e s' :=
  EachTree.congr h hinfos hpool

theorem Kept.copies (h : Kept I rest e s) (ht : t < cfg.MAX_TREE_CNT)
    {r : RuleSpec cfg.D V} (hr : r ∈ s.rules t) (hne : some r ≠ e t) :
    r.UsesFirst cfg.keyBytes (s.infos.get t).tree.dimensionOrder (s.infos.get t).usedDimCnt := by
  obtain ⟨_, _, _, hup, -⟩ := h.tree ht
  exact hup.copies r hr hne

theorem Kept.rules (h : Kept I rest e s) (ht : t < cfg.MAX_TREE_CNT) {r : RuleSpec cfg.D V}
    (hr : r ∈ s.rules t) : I.rules r := by
  obtain ⟨_, _, _, hup, -⟩ := h.tree ht
  exact hup.rules r hr

theorem Kept.root_eq_none (h : Kept I rest e s) (ht : t < cfg.MAX_TREE_CNT)
    (hnil : s.rules t = []) (he : e t = none) : (s.infos.get t).tree.root = none := by
  obtain ⟨_, _, _, hup, -⟩ := h.tree ht
  exact hup.empty hnil he

theorem Kept.isPermutation (h : Kept I rest e s) (ht : t < cfg.MAX_TREE_CNT) :
    (s.infos.get t).tree.dimensionOrder.IsPermutation := by
  obtain ⟨_, _, _, hup, -⟩ := h.tree ht
  exact (I.uses hup.holds).isPermutation

theorem Kept.usedDimCnt_le (h : Kept I rest e s) (ht : t < cfg.MAX_TREE_CNT) :
    (s.infos.get t).usedDimCnt ≤ cfg.D := by
  obtain ⟨_, _, _, hup, -⟩ := h.tree ht
  exact hup.usedDimCnt_le

/-- A rule that has been copied is no longer on its way when it uses the counted levels only. -/
theorem Kept.settle {rule : RuleSpec cfg.D V} (h : Kept I rest (entering t (some rule)) s)
    (ht : t < cfg.MAX_TREE_CNT) (hmem : rule ∈ s.rules t)
    (hr : rule.UsesFirst cfg.keyBytes (s.infos.get t).tree.dimensionOrder
      (s.infos.get t).usedDimCnt) : Kept I rest (fun _ => none) s := by
  obtain ⟨trie, fp, others, hup, ho, hback⟩ := h.focus (upholds_local I _) ht
  refine hback s _ (fun _ _ => rfl) (upholds_le fun t' hne => (entering_ne hne _).symm) (.refl _ _)
    trie fp { hup with copies := fun r hr' _ => ?_, empty := fun hnil => ?_ } ho
  · by_cases hrule : r = rule
    · exact hrule ▸ hr
    · exact hup.copies r hr' (by simpa using hrule)
  · rw [show s.rules t = [] from hnil] at hmem
    cases hmem

/-- A change of the books of a tree. -/
theorem Kept.updateInfo (h : Kept I rest e s) (ht : t < cfg.MAX_TREE_CNT)
    {f : TreeInfo cfg.D V → TreeInfo cfg.D V} (he : ∀ t', t' ≠ t → g t' = e t')
    (htree : (f (s.infos.get t)).tree = (s.infos.get t).tree)
    (hused : (f (s.infos.get t)).usedDimCnt = (s.infos.get t).usedDimCnt)
    (hrules : ∀ r ∈ (f (s.infos.get t)).rules, r ∈ s.rules t ∨ I.rules r)
    (hcopies : ∀ r ∈ (f (s.infos.get t)).rules, some r ≠ g t →
      r.UsesFirst cfg.keyBytes (s.infos.get t).tree.dimensionOrder (s.infos.get t).usedDimCnt)
    (hempty : (f (s.infos.get t)).rules = [] → g t = none → s.rules t = [] ∧ e t = none) :
    Ensures (fun _ _ => True) (updateInfo t f) s fun _ s' => Kept I rest g s' ∧
      s'.infos.get t = f (s.infos.get t) := by
  refine (EachTree.ensures_updateInfo (upholds_local I e) ht (upholds_le he) h
    fun trie fp hup => ?_).mono fun _ s' h' => ⟨h'.1, h'.2.2⟩
  refine ⟨?_, ?_, fun r hr => (hrules r hr).elim (hup.rules r) id, ?_, fun hr hnone => ?_⟩
  · rw [htree, hused]
    exact hup.holds
  · rw [hused]
    exact hup.usedDimCnt_le
  · rw [htree, hused]
    exact hcopies
  · rw [htree]
    exact hup.empty (hempty hr hnone).1 (hempty hr hnone).2

/-- Another order for a tree, with its number of levels in use, and with the trie as it was. -/
theorem Kept.reorder (h : Kept I rest e s) (ht : t < cfg.MAX_TREE_CNT)
    {order : DimensionOrder cfg.D} {used : ℕ} (hle : used ≤ cfg.D)
    (hkeeps : (s.infos.get t).tree.root ≠ none →
      (s.infos.get t).tree.dimensionOrder.KeepsFirst (s.infos.get t).usedDimCnt order ∧
        (s.infos.get t).usedDimCnt ≤ used)
    (hp : order.IsPermutation) (hcopies : ∀ r ∈ s.rules t, some r ≠ e t →
      r.UsesFirst cfg.keyBytes order used) :
    Ensures (fun _ _ => True) (PartitionSortClassifer.updateInfo t fun ti =>
      { ti with tree := { ti.tree with dimensionOrder := order }, usedDimCnt := used }) s
        fun _ s' => Kept I rest e s' ∧ s'.infos.get t = { s.infos.get t with
          tree := { (s.infos.get t).tree with dimensionOrder := order }, usedDimCnt := used } := by
  refine (EachTree.ensures_updateInfo (upholds_local I e) ht (upholds_le fun _ _ => rfl) h
    fun trie fp hup => ⟨?_, hle, hup.rules, hcopies, hup.empty⟩).mono fun _ s' h' => ⟨h'.1, h'.2.2⟩
  by_cases hroot : (s.infos.get t).tree.root = none
  · have hholds := (I.uses hup.holds).holds
    rw [BTree.Holds, hroot] at hholds
    obtain ⟨rfl, rfl⟩ := hholds.of_null
    simp only [hroot]
    exact I.nil used hp
  · obtain ⟨hk, hused⟩ := hkeeps hroot
    exact I.mono (I.reorder hup.holds hk) hused

/-- The tree gives up its nodes, and its rules are counted anew. -/
theorem Kept.ensures_emptyTree (h : Kept I rest e s) (ht : t < cfg.MAX_TREE_CNT)
    {order : DimensionOrder cfg.D × ℕ} (he : ∀ t', t' ≠ t → g t' = e t')
    (hp : order.1.IsPermutation) (hle : order.2 ≤ cfg.D)
    (hcopies : ∀ r ∈ s.rules t, r.UsesFirst cfg.keyBytes order.1 order.2) :
    Ensures (fun _ _ => True) (emptyTree cfg t (s.infos.get t).tree.root order) s fun _ s' =>
      Kept I rest g s' :=
  (EachTree.ensures_emptyTree (upholds_local I e) ht (upholds_le he) h
    (fun _ _ hup => (I.uses hup.holds).holds) fun _ _ _ hup => ⟨I.nil _ hp, hle, hup.rules,
      fun r hr _ => hcopies r hr, fun _ _ => rfl⟩).mono fun _ _ h' => h'.1

/-- The rule gets a copy, and is on its way into the tree. -/
theorem Kept.ensures_register (h : Kept I rest e s) (ht : t < cfg.MAX_TREE_CNT)
    {rule : RuleSpec cfg.D V} (hI : I.rules rule) (mask : RuleMask cfg.D)
    (he : ∀ t', t' ≠ t → e t' = none) (hrule : e t = none ∨ e t = some rule) [DecidableEq V] :
    Ensures (fun _ _ => True) (register rule mask t) s fun _ s' =>
      Kept I rest (entering t (some rule)) s' ∧ rule ∈ s'.rules t ∧
        (s'.infos.get t).tree = (s.infos.get t).tree ∧
          (s'.infos.get t).usedDimCnt = (s.infos.get t).usedDimCnt := by
  refine .bind ((h.updateInfo (g := entering t (some rule)) ht
    (fun t' hne => (entering_ne hne _).trans (he t' hne).symm) rfl rfl
      (fun r hr => (List.mem_append.mp hr).imp_right fun hr => ?_) (fun r hr hne => ?_)
        fun hnil => by simp at hnil).mono ?_)
  · rwa [List.mem_singleton.mp hr]
  · rw [entering_self] at hne
    refine h.copies ht ((List.mem_append.mp hr).resolve_right fun hmem => hne ?_) ?_
    · rw [List.mem_singleton.mp hmem]
    · rcases hrule with hnone | hsome
      · simp [hnone]
      · rwa [hsome]
  rintro - s₁ ⟨h₁, hinfo₁⟩
  have hrules₁ : s₁.rules t = s.rules t ++ [rule] := congrArg TreeInfo.rules hinfo₁
  refine .bind (.modify ?_)
  set s₂ : PartitionSortClassifer cfg.D V :=
    { s₁ with ruleToTree := UnorderedMap.assign s₁.ruleToTree rule t } with hs₂
  have h₂ : Kept I rest (entering t (some rule)) s₂ := h₁.congr rfl rfl
  have hinfo₂ : s₂.infos.get t = s₁.infos.get t := rfl
  obtain ⟨masks, hmasks⟩ := usedRuleMaskIncr_eq (s₂.infos.get t) mask
  have htree := congrArg TreeInfo.tree hmasks
  have hused := congrArg TreeInfo.usedDimCnt hmasks
  have hrules := congrArg TreeInfo.rules hmasks
  refine (h₂.updateInfo (g := entering t (some rule)) ht (fun _ _ => rfl) htree hused
    (fun r hr => Or.inl (by rwa [hrules] at hr))
      (fun r hr hne => h₂.copies ht (by rwa [hrules] at hr) hne) fun hnil => ?_).mono ?_
  · rw [hrules, hinfo₂] at hnil
    rw [show s₁.rules t = [] from hnil] at hrules₁
    simp at hrules₁
  · rintro - s' ⟨h', hinfo'⟩
    refine ⟨h', ?_, ?_, ?_⟩
    · rw [PartitionSortClassifer.rules, hinfo', hrules, hinfo₂]
      show rule ∈ s₁.rules t
      rw [hrules₁]
      simp
    · rw [hinfo', htree, hinfo₂, hinfo₁]
    · rw [hinfo', hused, hinfo₂, hinfo₁]

theorem Kept.ensures_beginUpdate {rule : Option (RuleSpec cfg.D V)}
    (h : Kept I rest (entering t rule) s) (ht : t < cfg.MAX_TREE_CNT)
    (hI : ∀ r ∈ rule.toList, I.rules r) :
    Ensures (fun _ _ => True) (beginUpdate t rule) s fun _ s' =>
      Kept I rest (entering t rule) s' ∧ s'.infos.get t =
        { s.infos.get t with updatePending := true, rules := s.rules t ++ rule.toList } := by
  refine .bind ((h.updateInfo ht (fun _ _ => rfl) rfl rfl (fun _ => Or.inl)
    (fun r hr hne => h.copies ht hr hne) fun hnil hnone => ⟨hnil, hnone⟩).mono ?_)
  rintro - s₁ ⟨h₁, hinfo₁⟩
  cases rule with
  | none =>
    refine .pure ⟨h₁, hinfo₁.trans ?_⟩
    rw [Option.toList_none, List.append_nil]
  | some rule =>
    refine (h₁.updateInfo ht (fun _ _ => rfl) rfl rfl
      (fun r hr => (List.mem_append.mp hr).imp_right fun hr => ?_) (fun r hr hne => ?_)
        fun hnil => by simp at hnil).mono ?_
    · exact hI r (by simpa using hr)
    · refine h₁.copies ht ((List.mem_append.mp hr).resolve_right fun hmem => hne ?_) hne
      rw [entering_self, List.mem_singleton.mp hmem]
    · rintro - s₂ ⟨h₂, hinfo₂⟩
      exact ⟨h₂, by rw [hinfo₂, hinfo₁, Option.toList_some]⟩

theorem Kept.ensures_endUpdate (h : Kept I rest e s) (ht : t < cfg.MAX_TREE_CNT) :
    Ensures (fun _ _ => True) (endUpdate t) s fun _ s' => Kept I rest e s' :=
  (h.updateInfo ht (fun _ _ => rfl) rfl rfl (fun _ => Or.inl) (fun _ hr hne => h.copies ht hr hne)
    fun hnil hnone => ⟨hnil, hnone⟩).mono fun _ _ h' => h'.1

/-- A rule that uses the counted levels only goes into the tree. -/
theorem Kept.ensures_insert (h : Kept I rest e s) (ht : t < cfg.MAX_TREE_CNT)
    {r : RuleSpec cfg.D V} (hI : I.rules r)
    (hr : r.UsesFirst cfg.keyBytes (s.infos.get t).tree.dimensionOrder (s.infos.get t).usedDimCnt)
    (he : ∀ t', t' ≠ t → g t' = e t')
    (hcopies : ∀ r' ∈ s.rules t, some r' ≠ g t → some r' ≠ e t)
    (hempty : s.rules t = [] → g t ≠ none) :
    Ensures (fun _ _ => True) (onTree cfg t fun tree => tree.insert cfg.toBTreeCfg r) s
      fun _ s' => Kept I rest g s' ∧ ∃ root, s'.infos.get t =
        { s.infos.get t with tree := { (s.infos.get t).tree with root := root } } := by
  refine (EachTree.ensures_onTree (R := fun tree => tree.dimensionOrder =
    (s.infos.get t).tree.dimensionOrder) (upholds_local I e) ht (upholds_le he) h
      fun trie fp others hup ho => (I.insert hup.holds hI hr ho).mono ?_).mono ?_
  · rintro tree pool ⟨trie', fp', hholds, ho', hagree, hord⟩
    refine ⟨trie', fp', ⟨hholds, hup.usedDimCnt_le, hup.rules, fun r' hr' hne => ?_,
      fun hnil hnone => absurd hnone (hempty hnil)⟩, ho', hagree, hord⟩
    rw [hord]
    exact hup.copies r' hr' (hcopies r' hr' hne)
  · rintro - s' ⟨h', -, ⟨root, order⟩, hord, hinfo⟩
    obtain rfl : order = (s.infos.get t).tree.dimensionOrder := hord
    exact ⟨h', root, hinfo⟩

/-- A tree that holds no rule is opened for one. -/
theorem Kept.ensures_openTree (std : IntervalSort) (h : Kept I rest (fun _ => none) s)
    (ht : t < cfg.MAX_TREE_CNT) (hnil : s.rules t = []) {rule : RuleSpec cfg.D V}
    (hI : I.rules rule) :
    Ensures (fun _ _ => True) (openTree std cfg rule t (s.infos.get t)) s fun _ s' =>
      Kept I rest (entering t (some rule)) s' ∧ rule.UsesFirst cfg.keyBytes
        (s'.infos.get t).tree.dimensionOrder (s'.infos.get t).usedDimCnt := by
  have hp := h.isPermutation ht
  refine .bind ((h.updateInfo (g := fun _ => none) ht (fun _ _ => rfl) rfl rfl (fun _ => Or.inl)
    (fun _ hr hne => h.copies ht hr hne) fun hnil hnone => ⟨hnil, hnone⟩).mono ?_)
  rintro - s₁ ⟨h₁, hinfo₁⟩
  have hnil₁ : s₁.rules t = [] := by
    rw [PartitionSortClassifer.rules, hinfo₁]
    exact hnil
  refine .ite (fun _ => ?_) fun hne => absurd (congrArg List.length hnil) hne
  have hle := GreedyDimensionOrderResolver.resolve_le std [rule] cfg.keyBytes
    (s.infos.get t).tree.dimensionOrder
  have hp' := GreedyDimensionOrderResolver.resolve_isPermutation std [rule] cfg.keyBytes hp
  refine .bind ((h₁.reorder ht hle (fun hroot => absurd (h₁.root_eq_none ht hnil₁ rfl) hroot) hp'
    fun r hr => ?_).mono ?_)
  · rw [hnil₁] at hr
    cases hr
  rintro - s₂ ⟨h₂, hinfo₂⟩
  have hnil₂ : s₂.rules t = [] := by
    rw [PartitionSortClassifer.rules, hinfo₂]
    exact hnil₁
  have hr : rule.UsesFirst cfg.keyBytes (s₂.infos.get t).tree.dimensionOrder
      (s₂.infos.get t).usedDimCnt := by
    rw [hinfo₂]
    exact GreedyDimensionOrderResolver.resolve_usesFirst std _ _ hp (List.mem_singleton_self rule)
  refine (h₂.ensures_insert (g := entering t (some rule)) ht hI hr
    (fun t' hne => entering_ne hne _) (fun r hr => ?_) fun _ => ?_).mono ?_
  · rw [hnil₂] at hr
    cases hr
  · rw [entering_self]
    nofun
  · rintro - s₃ ⟨h₃, root, hinfo₃⟩
    refine ⟨h₃, ?_⟩
    rw [hinfo₃]
    exact hr

end Kept

/-! ## The contract of the calls -/

section Contract

variable [DecidableEq V] (std : IntervalSort) (I : TreeInvariant cfg.toBTreeCfg V)
  {rest : Multiset ℕ} {s : PartitionSortClassifer cfg.D V}

/-- The rule that is on its way into a tree when the call is made. -/
def Call.entering : Call cfg.D V → ℕ → Option (RuleSpec cfg.D V)
  | .update t rule => PartitionSortClassifer.entering t rule
  | _ => fun _ => none

/-- A rule on its way into a tree has been copied. -/
def Call.Registered : Call cfg.D V → PartitionSortClassifer cfg.D V → Prop
  | .update t (some rule), s => rule ∈ s.rules t
  | _, _ => True

/-- Where `update_dimension_order` adds the given rule without a rebuild, since the tree is being
updated or its order stays, the rule uses only the levels that are counted. -/
def Call.AddsCounted (cfg : ClassifierCfg) : Call cfg.D V → PartitionSortClassifer cfg.D V → Prop
  | .update t (some rule), s =>
      (s.pending t = true ∨ (s.infos.get t).tree.dimensionOrder =
        (GreedyDimensionOrderResolver.resolve std cfg.keyBytes (s.rules t ++ [rule])
          (s.infos.get t).tree.dimensionOrder).1) →
        rule.UsesFirst cfg.keyBytes (s.infos.get t).tree.dimensionOrder (s.infos.get t).usedDimCnt
  | _, _ => True

/-- The rule that a call is made for. -/
def Call.given {D : ℕ} : Call D V → Option (RuleSpec D V)
  | .update _ rule => rule
  | .rebuild _ _ => none
  | .tryInsert rule _ _ => some rule
  | .tryTrees rule _ _ _ _ => some rule
  | .insert rule => some rule

/-- The contract of the calls with respect to the invariant. -/
def keeping (rest : Multiset ℕ) :
    Contract ClassifierFault (PartitionSortClassifer cfg.D V) (Call.Res (D := cfg.D) (V := V)) where
  pre c s := Kept I rest c.entering s ∧ c.Registered s ∧ ∀ r ∈ c.given.toList, I.rules r
  post _ _ _ s' := Kept I rest (fun _ => none) s'
  err _ _ _ _ := True

/-- What a body is shown to do when its call is made in the state `s`. -/
abbrev Maintains (rest : Multiset ℕ) (c : Call cfg.D V) (s : PartitionSortClassifer cfg.D V) :
    Prop :=
  (body std cfg c).Ensures ((keeping I rest).given (books cfg ∅)) ((keeping I rest).err c s) s
    ((keeping I rest).post c s)

variable {std I}

theorem maintains_rebuild {t j : ℕ} (ht : t < cfg.MAX_TREE_CNT)
    (h : Kept I rest (fun _ => none) s) : Maintains std I rest (.rebuild t j) s := by
  refine .bind (.perform (.get ?_))
  cases hj : (s.rules t)[j]? with
  | none => exact .pure h
  | some r =>
    have hmem := List.mem_of_getElem? hj
    have hnext : ∀ s₁, Kept I rest (fun _ => none) s₁ →
        (invoke (.rebuild t (j + 1))).Ensures ((keeping I rest).given (books cfg ∅))
          ((keeping I rest).err (.rebuild t j) s) s₁ ((keeping I rest).post (.rebuild t j) s) :=
      fun s₁ h₁ => .invoke ⟨h₁, trivial, by simp [Call.given]⟩ (fun _ _ _ => trivial)
        fun _ _ h' => h'.2
    have hI := h.rules ht hmem
    refine .bind (.perform ((ensures_collides r s).conseq (fun _ _ _ => trivial) ?_))
    rintro b s₀ ⟨heq, -⟩
    subst s₀
    refine .ite (fun _ => ?_) fun _ => ?_
    · exact .bind (.invoke ⟨h, trivial, by simpa [Call.given] using hI⟩ (fun _ _ _ => trivial)
        fun _ s₁ h₁ => hnext s₁ h₁.2)
    · refine .bind (.perform ((h.ensures_insert ht hI (h.copies ht hmem nofun) (fun _ _ => rfl)
        (fun _ _ hne => hne) fun hnil => ?_).mono fun _ s₁ h₁ => hnext s₁ h₁.1))
      rw [hnil] at hmem
      cases hmem

theorem maintains_update {t : ℕ} {rule : Option (RuleSpec cfg.D V)} (ht : t < cfg.MAX_TREE_CNT)
    (h : Kept I rest (entering t rule) s) (hreg : (Call.update t rule).Registered s)
    (hgiven : ∀ r ∈ rule.toList, I.rules r) (hadds : (Call.update t rule).AddsCounted std cfg s) :
    Maintains std I rest (.update t rule) s := by
  refine .bind (.perform (.get (.ite (fun hpend => ?_) fun hpend => ?_)))
  · cases rule with
    | none =>
      rw [entering_none] at h
      exact .perform (.pure h)
    | some rule =>
      have hr := hadds (Or.inl hpend)
      have h₀ := h.settle ht hreg hr
      have hI : I.rules rule := hgiven rule (by simp)
      refine .perform (.bind ((h₀.ensures_insert ht hI hr (fun _ _ => rfl)
        (fun _ _ hne => hne) fun hnil => ?_).mono ?_))
      · have hmem : rule ∈ s.rules t := hreg
        rw [hnil] at hmem
        cases hmem
      rintro - s₁ ⟨h₁, root, hinfo⟩
      refine (h₁.updateInfo ht (fun _ _ => rfl) rfl rfl
        (fun r hr => (List.mem_append.mp hr).imp_right fun hr => ?_) (fun r hmem _ => ?_)
          fun hnil => by simp at hnil).mono fun _ _ h₂ => h₂.1
      · rwa [List.mem_singleton.mp hr]
      rcases List.mem_append.mp hmem with hmem | hmem
      · exact h₁.copies ht hmem nofun
      · rw [List.mem_singleton.mp hmem, hinfo]
        exact hr
  refine .bind (.perform ((h.ensures_beginUpdate ht hgiven).mono ?_))
  rintro - s₁ ⟨h₁, hinfo₁⟩
  have hp₁ := h₁.isPermutation ht
  have hfinish : ∀ s₂, Kept I rest (fun _ => none) s₂ →
      (perform (endUpdate t)).Ensures ((keeping I rest).given (books cfg ∅))
        ((keeping I rest).err (.update t rule) s) s₂
          ((keeping I rest).post (.update t rule) s) :=
    fun s₂ h₂ => .perform (h₂.ensures_endUpdate ht)
  refine .bind (.perform (.get (.ite (fun _ => ?_) fun hsame => ?_)))
  · -- the rebuild counts the levels of all the rules in the copy
    refine .bind (.perform ((h₁.ensures_emptyTree (g := fun _ => none) ht
      (fun t' hne => (entering_ne hne _).symm)
        (GreedyDimensionOrderResolver.resolve_isPermutation std _ _ hp₁)
          (GreedyDimensionOrderResolver.resolve_le std _ _ _) fun r hr =>
            GreedyDimensionOrderResolver.resolve_usesFirst std _ _ hp₁ hr).mono fun _ s₂ h₂ => ?_))
    exact .bind (.invoke ⟨h₂, trivial, by simp [Call.given]⟩ (fun _ _ _ => trivial)
      fun _ s₃ h₃ => hfinish s₃ h₃.2)
  · cases rule with
    | none =>
      rw [entering_none] at h₁
      exact .bind (.perform (.pure (hfinish s₁ h₁)))
    | some rule =>
      have hrules : s₁.rules t = s.rules t ++ [rule] := congrArg TreeInfo.rules hinfo₁
      have htree : (s₁.infos.get t).tree = (s.infos.get t).tree := by rw [hinfo₁]
      have hused : (s₁.infos.get t).usedDimCnt = (s.infos.get t).usedDimCnt := by rw [hinfo₁]
      have hr := hadds (Or.inr ?_)
      · rw [← htree, ← hused] at hr
        have hmem : rule ∈ s₁.rules t := by simp [hrules]
        have h₂ := h₁.settle ht hmem hr
        refine .bind (.perform ((h₂.ensures_insert ht (hgiven rule (by simp)) hr (fun _ _ => rfl)
          (fun _ _ hne => hne) fun hnil => ?_).mono fun _ s₃ h₃ => hfinish s₃ h₃.1))
        rw [hnil] at hmem
        cases hmem
      · rw [← htree, ← hrules]
        exact not_not.mp hsame

omit [DecidableEq V] in
theorem ensures_raisePriority_kept {s : PartitionSortClassifer cfg.D V} {t i : ℕ}
    {rule : RuleSpec cfg.D V} (ht : t < cfg.MAX_TREE_CNT)
    (h : Kept I rest (fun _ => none) s) :
    Ensures (fun _ _ => True) (raisePriority rule t i) s fun _ s' =>
      Kept I rest (fun _ => none) s' := by
  refine .bind (.get (.ite (fun _ => ?_) fun _ => .pure h))
  refine .bind ((h.updateInfo ht (fun _ _ => rfl) rfl rfl (fun _ => Or.inl)
    (fun _ hr hne => h.copies ht hr hne) fun hnil hnone => ⟨hnil, hnone⟩).mono ?_)
  rintro - s₁ ⟨h₁, -⟩
  exact .modify (h₁.congr rfl rfl)

theorem maintains_tryInsert {rule : RuleSpec cfg.D V} {mask : RuleMask cfg.D} {i : ℕ}
    (ht : s.trees.get i < cfg.MAX_TREE_CNT) (h : Kept I rest (fun _ => none) s)
    (hI : I.rules rule) : Maintains std I rest (.tryInsert rule mask i) s := by
  refine .bind (.perform (.get (.bind (.perform ((ensures_collides rule s).conseq
    (fun _ _ _ => trivial) ?_)))))
  rintro b s₀ ⟨heq, -⟩
  subst s₀
  refine .ite (fun _ => .pure h) fun _ => ?_
  refine .bind (.perform ((h.ensures_register ht hI mask (fun _ _ => rfl) (Or.inl rfl)).mono ?_))
  rintro - s₁ ⟨h₁, hmem, -, -⟩
  have hraise : ∀ s₂, Kept I rest (fun _ => none) s₂ →
      (do perform (raisePriority rule (s.trees.get i) i); pure true : CallProg cfg.D V Bool).Ensures
        ((keeping I rest).given (books cfg ∅))
          ((keeping I rest).err (.tryInsert rule mask i) s) s₂
            ((keeping I rest).post (.tryInsert rule mask i) s) :=
    fun s₂ h₂ => .bind (.perform ((ensures_raisePriority_kept ht h₂).mono fun _ _ h' => .pure h'))
  refine .bind (.perform (.get (.ite (fun _ => .bind ?_) fun _ => .bind ?_)))
  · exact .invoke ⟨h₁, hmem, by simpa [Call.given] using hI⟩ (fun _ _ _ => trivial)
      fun _ s₂ h₂ => hraise s₂ h₂.2
  -- the fixed order gets the fields of the rule into use
  have hle := h₁.usedDimCnt_le ht
  have hp₁ := h₁.isPermutation ht
  have hcnt := Nat.add_sub_cancel' hle
  obtain ⟨hkeeps, hused, hleD, hr⟩ := @lockDims_spec _ _
    (s₁.infos.get (s.trees.get i)).tree.dimensionOrder cfg.keyBytes rule _ _ _ hcnt le_rfl
      fun j d hj hlt => absurd hlt (by omega)
  refine .perform (.bind ((h₁.reorder ht hleD (fun _ => ⟨hkeeps, hused⟩)
    (hkeeps.isPermutation hp₁) fun r hr' hne => ?_).mono ?_))
  · exact ((h₁.copies ht hr' hne).reorder hp₁ hkeeps).mono hused
  rintro - s₂ ⟨h₂, hinfo₂⟩
  have hmem₂ : rule ∈ s₂.rules (s.trees.get i) := by
    rw [PartitionSortClassifer.rules, hinfo₂]
    exact hmem
  have hr₂ : rule.UsesFirst cfg.keyBytes (s₂.infos.get (s.trees.get i)).tree.dimensionOrder
      (s₂.infos.get (s.trees.get i)).usedDimCnt := by
    rw [hinfo₂]
    exact hr
  have h₃ := h₂.settle ht hmem₂ hr₂
  refine (h₃.ensures_insert ht hI hr₂ (fun _ _ => rfl) (fun _ _ hne => hne) fun hnil => ?_).mono
    fun _ s₄ h₄ => hraise s₄ h₄.1
  rw [hnil] at hmem₂
  cases hmem₂

theorem maintains_tryTrees {rule : RuleSpec cfg.D V} {mask : RuleMask cfg.D} {first : Bool}
    {cnt i : ℕ} (h : Kept I rest (fun _ => none) s) (hI : I.rules rule) :
    Maintains std I rest (.tryTrees rule mask first cnt i) s := by
  have hgiven : ∀ r ∈ (some rule).toList, I.rules r := by simpa using hI
  cases cnt with
  | zero => exact .pure h
  | succ cnt =>
    have hnext : ∀ s₁, Kept I rest (fun _ => none) s₁ →
        (invoke (.tryTrees rule mask first cnt (i + 1))).Ensures
          ((keeping I rest).given (books cfg ∅))
            ((keeping I rest).err (.tryTrees rule mask first (cnt + 1) i) s) s₁
              ((keeping I rest).post (.tryTrees rule mask first (cnt + 1) i) s) :=
      fun s₁ h₁ => .invoke ⟨h₁, trivial, hgiven⟩ (fun _ _ _ => trivial) fun _ _ h' => h'.2
    refine .bind (.perform (.get (.ite (fun _ => ?_) fun _ => hnext s h)))
    exact .bind (.invoke ⟨h, trivial, hgiven⟩ (fun _ _ _ => trivial) fun a s₁ h₁ =>
      .ite (fun _ => .pure h₁.2) fun _ => hnext s₁ h₁.2)

theorem maintains_insert {rule : RuleSpec cfg.D V} (hs : Tidy cfg s)
    (h : Kept I rest (fun _ => none) s) (hI : I.rules rule) :
    Maintains std I rest (.insert rule) s := by
  have hcount : ∀ s₅, Kept I rest (fun _ => none) s₅ →
      (perform countTree).Ensures ((keeping I rest).given (books cfg ∅))
        ((keeping I rest).err (.insert rule) s) s₅
          ((keeping I rest).post (.insert rule) s) := by
    intro s₅ h₅
    have hcount₅ : Kept I rest (fun _ => none) { s₅ with treeCnt := s₅.treeCnt + 1 } :=
      h₅.congr rfl rfl
    exact .perform (.bind (.modify (.bind (.get (.modify (hcount₅.congr rfl rfl))))))
  have hpre : ∀ first, (keeping I rest).pre (.tryTrees rule (rule.getRuleMask cfg.keyBytes) first
      s.treeCnt 0) s := fun _ => ⟨h, trivial, by simpa [Call.given] using hI⟩
  refine .bind (.perform (.get (.bind (.invoke (hpre true) (fun _ _ _ => trivial) ?_))))
  intro a s₁ h₁
  refine .ite (fun _ => .pure h₁.2) fun hfalse => ?_
  obtain ⟨rfl, -⟩ := h₁.1.2.2 (by simpa using hfalse)
  refine .bind (.perform (.get (.bind (.invoke (hpre false) (fun _ _ _ => trivial) ?_))))
  intro a' s₂ h₂
  refine .ite (fun _ => .pure h₂.2) fun hfalse' => ?_
  obtain ⟨rfl, -⟩ := h₂.1.2.2 (by simpa using hfalse')
  refine .bind (.perform (.get (.ite (fun hlt => ?_) fun _ => .perform (.throw trivial))))
  have ht := hs.trees_lt _ hlt
  refine .bind (.perform ((h.ensures_openTree std ht (hs.spare _ le_rfl hlt).1 hI).mono ?_))
  rintro - s₃ ⟨h₃, hr₃⟩
  refine .bind (.perform ((h₃.ensures_register ht hI _ (fun t' hne => entering_ne hne _)
    (Or.inr (entering_self _ _))).mono ?_))
  rintro - s₄ ⟨h₄, hmem₄, htree₄, hused₄⟩
  have h₅ := h₄.settle ht hmem₄ (by rw [htree₄, hused₄]; exact hr₃)
  refine .bind (.perform (.get (.ite (fun _ => .bind (.invoke ⟨?_, trivial, by simp [Call.given]⟩
    (fun _ _ _ => trivial) fun _ s₅ h₆ => hcount s₅ h₆.2)) fun _ => hcount s₄ h₅)))
  rw [Call.entering, entering_none]
  exact h₅

/-- Every body keeps the invariant, if the calls it makes do. -/
theorem maintains {c : Call cfg.D V} (hc : (books cfg ∅).pre c s) (h : (keeping I rest).pre c s)
    (hadds : c.AddsCounted std cfg s) : Maintains std I rest c s := by
  obtain ⟨hs, -, hent⟩ := hc
  obtain ⟨h, hreg, hgiven⟩ := h
  have hrule : ∀ r, c.given = some r → I.rules r := fun r hr => hgiven r (by simp [hr])
  cases c with
  | update t rule => exact maintains_update (hent.1.lt hs) h hreg hgiven hadds
  | rebuild t j => exact maintains_rebuild (hent.1.lt hs) h
  | tryInsert rule mask i =>
    exact maintains_tryInsert (hs.trees_lt i (lt_of_lt_of_le hent hs.treeCnt_le)) h (hrule rule rfl)
  | tryTrees rule mask first cnt i => exact maintains_tryTrees h (hrule rule rfl)
  | insert rule => exact maintains_insert hs h (hrule rule rfl)

end Contract

end PartitionSortClassifer

end Pcv
