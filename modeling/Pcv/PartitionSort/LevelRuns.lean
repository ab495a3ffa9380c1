import Pcv.PartitionSort.ClassifierLevels

/-!
# The counted levels in a run

The fields that the rules of a tree use should be those of its first `used_dim_cnt` levels:
`CountsLevels` says so, with what the change of a fixed order relies on it for.  A run of
insertions keeps to it as long as no rule is added behind the counted levels, neither by the
insertions themselves nor by those they make inside a rebuild (`countsLevels_of_inserted`).

The last part of the module has a run of two insertions that does not.
-/

namespace Pcv

instance {D : ℕ} {V : Type} (bytes : ℕ) (order : DimensionOrder D) (n : ℕ) (r : RuleSpec D V) :
    Decidable (r.UsesFirst bytes order n) :=
  decidable_of_iff (∀ i : Fin D, n ≤ i.val →
      (r.first.get (order.get i)).isWildcard bytes = true)
    ⟨fun h i d hi hd => by
      obtain ⟨hlt, rfl⟩ := Vector.getElem?_eq_some_iff.mp hd
      exact h ⟨i, hlt⟩ hi,
    fun h i hi => h i.val _ hi (by simp [Vector.get])⟩

namespace PartitionSortClassifer

open DynamicMempool

section Runs

variable {V : Type} [RuleValue V] [DecidableEq V] (std : IntervalSort) (cfg : ClassifierCfg)

/-- The order that the fixed order of a tree is changed to for a rule. -/
def lockedOrder (ti : TreeInfo cfg.D V) (rule : RuleSpec cfg.D V) : DimensionOrder cfg.D :=
  (lockDims cfg.keyBytes rule (cfg.D - ti.usedDimCnt) ti.usedDimCnt
    (ti.tree.dimensionOrder, ti.usedDimCnt)).1

/-- What is expected of `used_dim_cnt`: the rules that the tree stores, and those of its copy, use
the first levels of a proper order only.  Then no field of a stored rule is moved when the order
is fixed and gets the fields of another rule into use, and every packet finds the same. -/
structure CountsLevels (s : PartitionSortClassifer cfg.D V) (t : ℕ) : Prop where
  isPermutation : (s.infos.get t).tree.dimensionOrder.IsPermutation
  stored : ∃ rules, (s.infos.get t).tree.toRules cfg.toBTreeCfg s.pool = .ok rules ∧
    ∀ r ∈ rules, r.UsesFirst cfg.keyBytes (s.infos.get t).tree.dimensionOrder
      (s.infos.get t).usedDimCnt
  copies : ∀ r ∈ s.rules t, r.UsesFirst cfg.keyBytes (s.infos.get t).tree.dimensionOrder
    (s.infos.get t).usedDimCnt
  locked : ∀ rule, (s.infos.get t).tree.dimensionOrder.KeepsFirst (s.infos.get t).usedDimCnt
    (lockedOrder cfg (s.infos.get t) rule)
  search : ∀ rule (val : KeyVec cfg.D), (∀ d, val.get d ≤ keyMax cfg.keyBytes) →
    BTree.search cfg.toBTreeCfg s.pool
        { (s.infos.get t).tree with dimensionOrder := lockedOrder cfg (s.infos.get t) rule } val =
      (s.infos.get t).tree.search cfg.toBTreeCfg s.pool val

instance (c : Call cfg.D V) (s : PartitionSortClassifer cfg.D V) :
    Decidable (c.AddsCounted std cfg s) :=
  match c with
  | .update _ (some _) => inferInstanceAs (Decidable (_ ∨ _ → _))
  | .update _ none => inferInstanceAs (Decidable True)
  | .rebuild _ _ => inferInstanceAs (Decidable True)
  | .tryInsert _ _ _ => inferInstanceAs (Decidable True)
  | .tryTrees _ _ _ _ _ => inferInstanceAs (Decidable True)
  | .insert _ => inferInstanceAs (Decidable True)

/-- The states that are reached by insertions that return, each of them one that is allowed in the
state it is made in. -/
inductive Inserted (allowed : RuleSpec cfg.D V → PartitionSortClassifer cfg.D V → Prop)
    (start : NodeAllocator V) : PartitionSortClassifer cfg.D V → Prop
  | make : Inserted allowed start (make cfg.D start)
  | insert {s s' : PartitionSortClassifer cfg.D V} {fuel : ℕ} {rule : RuleSpec cfg.D V} :
      Inserted allowed start s → allowed rule s → insertRule std cfg fuel rule s = .ok () s' →
        Inserted allowed start s'

/-- Whenever the insertion, or one it makes inside, adds a rule to a tree without a rebuild, the
rule uses only the levels that are counted there. -/
def AddsCounted (rule : RuleSpec cfg.D V) (s : PartitionSortClassifer cfg.D V) : Prop :=
  ∀ g, Inside std cfg (.insert rule, s) g → g.1.AddsCounted std cfg g.2

variable {std cfg}

/-! ## Both contracts at once -/

section Both

variable {rest : Multiset ℕ} (hT : 2 ≤ cfg.T) (hD : 0 < cfg.D)

include hT hD in
/-- The bodies keep the books, and the keys within the counted levels. -/
theorem ensures_both (c : Call cfg.D V) (s : PartitionSortClassifer cfg.D V)
    (hpre : ((books cfg ∅).both (levels V cfg rest)).pre c s)
    (hadds : ∀ g, Inside std cfg (c, s) g → g.1.AddsCounted std cfg g.2) :
    (body std cfg c).Ensures (((books cfg ∅).both (levels V cfg rest)).within (Nests cfg c s))
      (((books cfg ∅).both (levels V cfg rest)).err c s) s
        (((books cfg ∅).both (levels V cfg rest)).post c s) :=
  (books_met std c s hpre.1).both (keepsCounted hT hD hpre.1 hpre.2 (hadds _ .refl))

include hT hD in
/-- What the calls rely on holds for all the calls inside. -/
theorem Inside.counted {f g : Call cfg.D V × PartitionSortClassifer cfg.D V}
    (h : Inside std cfg f g) (hpre : ((books cfg ∅).both (levels V cfg rest)).pre f.1 f.2)
    (hadds : ∀ g, Inside std cfg f g → g.1.AddsCounted std cfg g.2) :
    ((books cfg ∅).both (levels V cfg rest)).pre g.1 g.2 := by
  induction h with
  | refl => exact hpre
  | tail hin hcall ih =>
    exact pre_of_calls _ (Nests cfg) (fun c s => ∀ g, Inside std cfg (c, s) g →
      g.1.AddsCounted std cfg g.2) (fun _ _ _ _ hx hc g hg => hx g (.head hc hg))
        (ensures_both hT hD) ih (fun g hg => hadds g (hin.trans hg)) hcall

include hT hD in
/-- An insertion that returns keeps the books, and the keys within the counted levels. -/
theorem ensures_insertRule {fuel : ℕ} {rule : RuleSpec cfg.D V}
    {s : PartitionSortClassifer cfg.D V} (hs : Tidy cfg s) (h : Counted cfg rest (fun _ => none) s)
    (hadds : AddsCounted std cfg rule s) :
    Ensures (fun _ _ => True) (insertRule std cfg fuel rule) s fun _ s' =>
      Tidy cfg s' ∧ Counted cfg rest (fun _ => none) s' := by
  rw [← run_insert]
  have hpre : ((books cfg ∅).both (levels V cfg rest)).pre (.insert rule) s :=
    ⟨(Call.entered_insert rule s).pre_books hs, h, trivial⟩
  refine (ensures_of_calls _ (Nests cfg) (fun c s => ∀ g, Inside std cfg (c, s) g →
    g.1.AddsCounted std cfg g.2) (fun _ _ _ _ hx hc g hg => hx g (.head hc hg))
      (ensures_both hT hD) fuel _ s hpre hadds).conseq (fun _ _ _ => trivial)
        fun _ s' h => ⟨h.1.1.tidy, h.2⟩

end Both

/-! ## Runs -/

omit [RuleValue V] [DecidableEq V] in
/-- Nothing is stored in a new classifier. -/
theorem counted_make {start : NodeAllocator V} {rest : Multiset ℕ} (ho : Owns start rest) :
    Counted cfg rest (fun _ => none) (make cfg.D start) := by
  have hp : (BTree.identityOrder cfg.D).IsPermutation := by
    rw [DimensionOrder.IsPermutation, BTree.identityOrder, Vector.toList_ofFn, List.ofFn_id]
  exact .make (fun _ => ⟨.nil hp _, Nat.zero_le _, fun _ hr => absurd hr (List.not_mem_nil),
    fun _ _ => rfl⟩) ho

omit [DecidableEq V] in
theorem Counted.countsLevels {rest : Multiset ℕ} {s : PartitionSortClassifer cfg.D V} {t : ℕ}
    (h : Counted cfg rest (fun _ => none) s) (ht : t < cfg.MAX_TREE_CNT) : CountsLevels cfg s t := by
  obtain ⟨trie, fp, others, hcounts, ho⟩ := h.tree ht
  have hlocked : ∀ rule, (s.infos.get t).tree.dimensionOrder.KeepsFirst (s.infos.get t).usedDimCnt
      (lockedOrder cfg (s.infos.get t) rule) := by
    intro rule
    have hcnt := Nat.add_sub_cancel' hcounts.usedDimCnt_le
    exact (@lockDims_spec _ _ (s.infos.get t).tree.dimensionOrder cfg.keyBytes rule _ _ _ hcnt le_rfl
      fun j d hj hlt => absurd hlt (by omega)).1
  exact ⟨hcounts.uses.isPermutation, hcounts.uses.toRules_usesFirst ho,
    fun r hr => hcounts.copies r hr nofun, hlocked,
    fun rule _ hval => hcounts.uses.search_reorder ho (hlocked rule) hval⟩

theorem Inserted.counted (hT : 2 ≤ cfg.T) (hD : 0 < cfg.D) {start : NodeAllocator V}
    {rest : Multiset ℕ} (ho : Owns start rest) {s : PartitionSortClassifer cfg.D V}
    (h : Inserted std cfg (AddsCounted std cfg) start s) :
    Tidy cfg s ∧ Counted cfg rest (fun _ => none) s := by
  induction h with
  | make => exact ⟨tidy_make start, counted_make ho⟩
  | insert _ hadds hrun ih => exact (ensures_insertRule hT hD ih.1 ih.2 hadds).ok hrun

/-- In a run of insertions that add no rule behind the counted levels, every tree in use counts its
levels, after each insertion and wherever a further one tries a tree. -/
theorem countsLevels_of_inserted (hT : 2 ≤ cfg.T) (hD : 0 < cfg.D) {start : NodeAllocator V}
    {rest : Multiset ℕ} (ho : Owns start rest) {s : PartitionSortClassifer cfg.D V}
    (h : Inserted std cfg (AddsCounted std cfg) start s) :
    (∀ t, s.InUse t → CountsLevels cfg s t) ∧
      ∀ rule, AddsCounted std cfg rule s → ∀ r mask i s₁,
        Inside std cfg (.insert rule, s) (.tryInsert r mask i, s₁) →
          CountsLevels cfg s₁ (s₁.trees.get i) := by
  obtain ⟨hs, hc⟩ := h.counted hT hD ho
  refine ⟨fun t ht => hc.countsLevels (ht.lt hs), fun rule hadds r mask i s₁ hin => ?_⟩
  obtain ⟨⟨hs₁, -, hi⟩, hc₁, -⟩ := Inside.counted hT hD hin
    ⟨(Call.entered_insert rule s).pre_books hs, hc, trivial⟩ hadds
  exact hc₁.countsLevels (hs₁.trees_lt i (lt_of_lt_of_le hi hs₁.treeCnt_le))

/-! ## Two short runs -/

section Short

/-- Three fields of one byte, two trees. -/
private abbrev threeFields : ClassifierCfg := ⟨⟨1, 3, 2, true⟩, 2, 4⟩

private abbrev freshPool : NodeAllocator RuleValueInt :=
  DynamicMempool.make 64 (Node.make threeFields.toBTreeCfg)

/-- The insertions, as long as they return and pass the check. -/
private def insertAll (check : RuleSpec 3 RuleValueInt → PartitionSortClassifer 3 RuleValueInt →
    Bool) : List (RuleSpec 3 RuleValueInt) → PartitionSortClassifer 3 RuleValueInt →
      Option (PartitionSortClassifer 3 RuleValueInt)
  | [], s => some s
  | rule :: rules, s =>
      if check rule s then
        match insertRule .insertion threeFields 30 rule s with
        | .ok () s' => insertAll check rules s'
        | .error _ _ => none
      else none

private theorem Inserted.insertAll {allowed : RuleSpec 3 RuleValueInt →
      PartitionSortClassifer 3 RuleValueInt → Prop}
    {check : RuleSpec 3 RuleValueInt → PartitionSortClassifer 3 RuleValueInt → Bool}
    (hcheck : ∀ rule s s', check rule s = true →
      insertRule .insertion threeFields 30 rule s = .ok () s' → allowed rule s)
    {rules : List (RuleSpec 3 RuleValueInt)} {s s' : PartitionSortClassifer 3 RuleValueInt}
    (h : Inserted .insertion threeFields allowed freshPool s)
    (hs : PartitionSortClassifer.insertAll check rules s = some s') :
    Inserted .insertion threeFields allowed freshPool s' := by
  induction rules generalizing s with
  | nil =>
    cases hs
    exact h
  | cons rule rules ih =>
    rw [PartitionSortClassifer.insertAll] at hs
    split at hs
    next hc =>
      split at hs
      next s₁ hrun => exact ih (h.insert (hcheck rule s s₁ hc hrun) hrun) hs
      next => cases hs
    next => cases hs

/-- Every call that is made inside the insertion adds rules within the counted levels. -/
private def addsCounted (rule : RuleSpec 3 RuleValueInt)
    (s : PartitionSortClassifer 3 RuleValueInt) : Bool :=
  (callsInside (body .insertion threeFields) ClassifierFault.tooDeep 30 (.insert rule, s)).all
    fun g => decide (g.1.AddsCounted .insertion threeFields g.2)

private theorem addsCounted_of_check {rule : RuleSpec 3 RuleValueInt}
    {s s' : PartitionSortClassifer 3 RuleValueInt} (h : addsCounted rule s = true)
    (hrun : insertRule .insertion threeFields 30 rule s = .ok () s') :
    AddsCounted .insertion threeFields rule s := by
  intro g hg
  have hn : ∀ t, runBounded (body .insertion threeFields) ClassifierFault.tooDeep 30
      (.insert rule) s ≠ .error .tooDeep t := by
    intro t ht
    have heq : run .insertion threeFields 30 (.insert rule) s = .error .tooDeep t := ht
    rw [run_insert, hrun] at heq
    cases heq
  exact of_decide_eq_true (List.all_eq_true.mp h g (mem_callsInside hn hg))

private abbrev lastField : RuleSpec 3 RuleValueInt :=
  ⟨#v[⟨0, 255⟩, ⟨0, 255⟩, ⟨5, 5⟩], RuleValueInt.make 4 1⟩

private abbrev outerFields : RuleSpec 3 RuleValueInt :=
  ⟨#v[⟨2, 2⟩, ⟨0, 255⟩, ⟨2, 2⟩], RuleValueInt.make 3 2⟩

private abbrev laterFields : RuleSpec 3 RuleValueInt :=
  ⟨#v[⟨0, 255⟩, ⟨3, 3⟩, ⟨3, 3⟩], RuleValueInt.make 1 3⟩

/-- The first tree stores a rule that is not within the counted levels. -/
private def storesBehind (s : PartitionSortClassifer 3 RuleValueInt) : Bool :=
  match (s.infos.get 0).tree.toRules threeFields.toBTreeCfg s.pool with
  | .ok rules => rules.any fun r => !decide (r.UsesFirst threeFields.keyBytes
      (s.infos.get 0).tree.dimensionOrder (s.infos.get 0).usedDimCnt)
  | .error _ => false

/-- A packet finds something else once the fixed order has the fields of another rule in use. -/
private def losesPacket (s : PartitionSortClassifer 3 RuleValueInt) : Bool :=
  let order := lockedOrder threeFields (s.infos.get 0) laterFields
  decide (BTree.search threeFields.toBTreeCfg s.pool { (s.infos.get 0).tree with
    dimensionOrder := order } #v[2, 7, 2] ≠
      (s.infos.get 0).tree.search threeFields.toBTreeCfg s.pool #v[2, 7, 2])

/-- The order stays for the second rule, which uses another field than the one that is counted.
Then the tree stores a rule behind the counted levels, and a change of the fixed order for a third
rule loses a packet. -/
theorem not_countsLevels_lastField :
    ∃ s, Inserted .insertion threeFields (fun _ _ => True) freshPool s ∧ s.InUse 0 ∧
      (¬ ∃ rules, (s.infos.get 0).tree.toRules threeFields.toBTreeCfg s.pool = .ok rules ∧
        ∀ r ∈ rules, r.UsesFirst threeFields.keyBytes (s.infos.get 0).tree.dimensionOrder
          (s.infos.get 0).usedDimCnt) ∧
      ∃ rule, ∃ val : KeyVec 3, (∀ d, val.get d ≤ keyMax threeFields.keyBytes) ∧
        BTree.search threeFields.toBTreeCfg s.pool { (s.infos.get 0).tree with
          dimensionOrder := lockedOrder threeFields (s.infos.get 0) rule } val ≠
            (s.infos.get 0).tree.search threeFields.toBTreeCfg s.pool val := by
  have h : (insertAll (fun _ _ => true) [lastField, outerFields] (make 3 freshPool)).any
      (fun s => decide (0 < s.treeCnt ∧ s.trees.get 0 = 0) && storesBehind s && losesPacket s) =
        true := by decide +kernel
  obtain ⟨s, hs, htest⟩ := (Option.any_eq_true _ _).mp h
  simp only [Bool.and_eq_true, decide_eq_true_eq] at htest
  obtain ⟨⟨⟨hcnt, hfirst⟩, hstores⟩, hloses⟩ := htest
  refine ⟨s, Inserted.insertAll (fun _ _ _ _ _ => trivial) .make hs, ⟨0, hcnt, hfirst⟩, ?_,
    laterFields, #v[2, 7, 2], by decide, of_decide_eq_true hloses⟩
  rintro ⟨rules, hrules, hfirst⟩
  rw [storesBehind, hrules] at hstores
  obtain ⟨r, hr, hbehind⟩ := List.any_eq_true.mp hstores
  simp [hfirst r hr] at hbehind

/-- Two rules, the second of which uses one of the two counted levels. -/
theorem countsLevels_of_inserted_two :
    ∃ s : PartitionSortClassifer 3 RuleValueInt, s.InUse 0 ∧ (s.rules 0).length = 3 ∧ (∀ t, s.InUse t → CountsLevels threeFields s t) ∧
      ∀ rule, AddsCounted .insertion threeFields rule s → ∀ r mask i s₁,
        Inside .insertion threeFields (.insert rule, s) (.tryInsert r mask i, s₁) →
          CountsLevels threeFields s₁ (s₁.trees.get i) := by
  have h : (insertAll addsCounted [⟨#v[⟨5, 5⟩, ⟨5, 5⟩, ⟨0, 255⟩], RuleValueInt.make 4 1⟩,
      ⟨#v[⟨2, 2⟩, ⟨0, 255⟩, ⟨0, 255⟩], RuleValueInt.make 3 2⟩] (make 3 freshPool)).any
        (fun s => decide (0 < s.treeCnt ∧ s.trees.get 0 = 0 ∧ (s.rules 0).length = 3)) = true := by
    decide +kernel
  obtain ⟨s, hs, htest⟩ := (Option.any_eq_true _ _).mp h
  obtain ⟨hcnt, hfirst, hlen⟩ := of_decide_eq_true htest
  have hrun := Inserted.insertAll (fun _ _ _ hc hrun => addsCounted_of_check hc hrun) .make hs
  exact ⟨s, ⟨0, hcnt, hfirst⟩, hlen,
    countsLevels_of_inserted (by decide) (by decide) (owns_make 64 _) hrun⟩

end Short

end Runs

end PartitionSortClassifer

end Pcv
