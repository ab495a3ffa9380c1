import Pcv.PartitionSort.UsedLevels

/-!
# The order the resolver returns

`Resolved` says what the resolver promises: the fields some rule uses stand in front by
their scores, the others behind in their previous order.  There is one such order for given
rules and a given previous order, and it is again the one that belongs to itself as the
previous order.  So the resolver is idempotent, and the classifier does not rebuild a tree
whose rules have not changed.
-/

namespace Pcv

namespace GreedyDimensionOrderResolver

variable {D : ℕ} {V : Type}

/-- The order of two used fields: by the scores, and by their previous places where the
scores are the same. -/
def Precedes (score : Fin D → ℕ) (order : List (Fin D)) (a b : Fin D) : Prop :=
  score b < score a ∨ score a = score b ∧ order.idxOf a < order.idxOf b

/-- What `resolve` makes of a previous order: all the fields, first the `u` used ones, ordered
by their scores, then the unused ones in their previous order. -/
structure Resolved (used : Fin D → Prop) (score : Fin D → ℕ) (order order' : DimensionOrder D)
    (u : ℕ) : Prop where
  isPermutation : order'.IsPermutation
  le : u ≤ D
  mem_take : ∀ d, d ∈ order'.toList.take u ↔ used d
  mem_drop : ∀ d, d ∈ order'.toList.drop u ↔ ¬ used d
  take : (order'.toList.take u).Pairwise (Precedes score order.toList)
  drop : (order'.toList.drop u).Pairwise fun a b =>
    order.toList.idxOf a < order.toList.idxOf b

/-- Along an order the places grow. -/
theorem pairwise_idxOf {l : List (Fin D)} (h : l.Nodup) :
    l.Pairwise fun a b => l.idxOf a < l.idxOf b := by
  rw [List.pairwise_iff_getElem]
  intro i j hi hj hij
  rwa [h.idxOf_getElem i hi, h.idxOf_getElem j hj]

theorem Precedes.asymm {score : Fin D → ℕ} {order : List (Fin D)} {a b : Fin D}
    (h : Precedes score order a b) : ¬ Precedes score order b a := by
  unfold Precedes at *
  omega

namespace Resolved

variable {used : Fin D → Prop} {score : Fin D → ℕ} {order order' : DimensionOrder D} {u : ℕ}

theorem nodup (h : Resolved used score order order' u) : order'.toList.Nodup :=
  h.isPermutation.nodup_iff.mpr (List.nodup_finRange D)

/-- The order that was made may as well be the previous one. -/
theorem self (h : Resolved used score order order' u) : Resolved used score order' order' u where
  isPermutation := h.isPermutation
  le := h.le
  mem_take := h.mem_take
  mem_drop := h.mem_drop
  take := by
    have hidx := (pairwise_idxOf h.nodup).sublist (List.take_sublist u _)
    refine (h.take.and hidx).imp ?_
    rintro a b ⟨hlt | ⟨heq, -⟩, hab⟩
    · exact Or.inl hlt
    · exact Or.inr ⟨heq, hab⟩
  drop := (pairwise_idxOf h.nodup).sublist (List.drop_sublist u _)

/-- Rules and a previous order determine the order that is made of them. -/
theorem unique {order'' : DimensionOrder D} {u' : ℕ} (h : Resolved used score order order' u)
    (h' : Resolved used score order order'' u') : order' = order'' ∧ u = u' := by
  have htake : order'.toList.take u = order''.toList.take u' := by
    have hperm : (order'.toList.take u).Perm (order''.toList.take u') := by
      refine (List.perm_ext_iff_of_nodup (h.nodup.sublist (List.take_sublist _ _))
        (h'.nodup.sublist (List.take_sublist _ _))).mpr fun d => ?_
      rw [h.mem_take, h'.mem_take]
    exact hperm.eq_of_pairwise (fun a b _ _ hab hba => absurd hba hab.asymm) h.take h'.take
  have hdrop : order'.toList.drop u = order''.toList.drop u' := by
    have hperm : (order'.toList.drop u).Perm (order''.toList.drop u') := by
      refine (List.perm_ext_iff_of_nodup (h.nodup.sublist (List.drop_sublist _ _))
        (h'.nodup.sublist (List.drop_sublist _ _))).mpr fun d => ?_
      rw [h.mem_drop, h'.mem_drop]
    exact hperm.eq_of_pairwise (fun a b _ _ hab hba => absurd hba hab.asymm) h.drop h'.drop
  constructor
  · rw [← Vector.toList_inj, ← List.take_append_drop u order'.toList, htake, hdrop,
      List.take_append_drop]
  · have := congrArg List.length htake
    have hle := h.le
    have hle' := h'.le
    simp only [List.length_take, Vector.length_toList] at this
    omega

end Resolved

/-! ## The resolver -/

variable (std : IntervalSort) (bytes : ℕ) (rules : List (RuleSpec D V))

theorem before_iff (order : DimensionOrder D) (a b : Fin D × ℕ) :
    before order a b = true ↔
      b.2 < a.2 ∨ a.2 = b.2 ∧ order.toList.idxOf a.1 < order.toList.idxOf b.1 := by
  unfold before
  split <;> simp only [decide_eq_true_eq] <;> omega

theorem dimMask_iff (d : Fin D) :
    dimMask bytes rules d = true ↔ ∃ r ∈ rules, (r.first.get d).isWildcard bytes = false := by
  simp [dimMask]

/-- The comparator is a strict weak order, so the sort leaves no field behind one it precedes. -/
theorem pairwise_scores (order : DimensionOrder D) (l : List (Fin D × ℕ)) :
    (l.insertionSort fun a b => !before order b a).Pairwise
      fun a b => before order b a = false := by
  have : Std.Total fun a b : Fin D × ℕ => (!before order b a) = true := by
    refine ⟨fun a b => ?_⟩
    simp only [Bool.not_eq_true', Bool.eq_false_iff, ne_eq, before_iff]
    omega
  have : IsTrans (Fin D × ℕ) fun a b => (!before order b a) = true := by
    refine ⟨fun a b c => ?_⟩
    simp only [Bool.not_eq_true', Bool.eq_false_iff, ne_eq, before_iff]
    omega
  exact (List.pairwise_insertionSort (fun a b => (!before order b a) = true) l).imp (by simp)

/-- The used fields with their scores, sorted. -/
def sortedScores (order : DimensionOrder D) : List (Fin D × ℕ) :=
  (((List.finRange D).filter (dimMask bytes rules)).map fun d =>
    (d, getDimensionSelScore std rules d)).insertionSort fun a b => !before order b a

theorem sortedScores_perm (order : DimensionOrder D) :
    (sortedScores std bytes rules order).Perm
      (((List.finRange D).filter (dimMask bytes rules)).map fun d =>
        (d, getDimensionSelScore std rules d)) :=
  List.perm_insertionSort _ _

theorem map_fst_sortedScores_perm (order : DimensionOrder D) :
    ((sortedScores std bytes rules order).map Prod.fst).Perm
      ((List.finRange D).filter (dimMask bytes rules)) := by
  have := (sortedScores_perm std bytes rules order).map Prod.fst
  rwa [List.map_map, show Prod.fst ∘ (fun d => (d, getDimensionSelScore std rules d)) = id from rfl,
    List.map_id] at this

theorem resolve_parts {order : DimensionOrder D} (hp : order.IsPermutation) :
    (resolve std bytes rules order).1.toList.take (resolve std bytes rules order).2 =
        (sortedScores std bytes rules order).map Prod.fst ∧
      (resolve std bytes rules order).1.toList.drop (resolve std bytes rules order).2 =
        order.toList.filter fun d => !dimMask bytes rules d := by
  have hlen : (resolve std bytes rules order).2 =
      ((sortedScores std bytes rules order).map Prod.fst).length := (List.length_map _).symm
  have hlist : (resolve std bytes rules order).1.toList =
      (sortedScores std bytes rules order).map Prod.fst ++
        order.toList.filter fun d => !dimMask bytes rules d :=
    resolve_toList std rules bytes hp
  rw [hlist, hlen]
  exact ⟨List.take_left, List.drop_left⟩

/-- Of two used fields the one in front has the greater score, or the same score and the
smaller previous place. -/
theorem pairwise_sortedScores {order : DimensionOrder D} (hp : order.IsPermutation) :
    ((sortedScores std bytes rules order).map Prod.fst).Pairwise
      (Precedes (getDimensionSelScore std rules) order.toList) := by
  have hnodup : ((sortedScores std bytes rules order).map Prod.fst).Nodup :=
    (map_fst_sortedScores_perm std bytes rules order).nodup_iff.mpr
      ((List.nodup_finRange D).filter _)
  have hscore : ∀ a ∈ sortedScores std bytes rules order,
      a.2 = getDimensionSelScore std rules a.1 := by
    intro a ha
    obtain ⟨d, -, rfl⟩ := List.mem_map.mp ((sortedScores_perm std bytes rules order).mem_iff.mp ha)
    rfl
  rw [List.Nodup, List.pairwise_map] at hnodup
  rw [List.pairwise_map]
  refine List.Pairwise.imp_of_mem ?_ ((pairwise_scores order _).and hnodup)
  rintro a b ha hb ⟨hbefore, hne⟩
  have hidx : order.toList.idxOf a.1 ≠ order.toList.idxOf b.1 := by
    rw [ne_eq, List.idxOf_inj (hp.mem_iff.mpr (List.mem_finRange _))]
    exact hne
  have hba : ¬ before order b a = true := by simp [hbefore]
  rw [before_iff, hscore a ha, hscore b hb] at hba
  unfold Precedes
  omega

theorem resolve_resolved {order : DimensionOrder D} (hp : order.IsPermutation) :
    Resolved (fun d => ∃ r ∈ rules, (r.first.get d).isWildcard bytes = false)
      (getDimensionSelScore std rules) order (resolve std bytes rules order).1
      (resolve std bytes rules order).2 := by
  obtain ⟨htake, hdrop⟩ := resolve_parts std bytes rules hp
  refine
    { isPermutation :=
        resolve_isPermutation std rules bytes hp
      le := resolve_le std rules bytes order
      mem_take := ?_
      mem_drop := ?_
      take := ?_
      drop := ?_ }
  · intro d
    rw [htake, (map_fst_sortedScores_perm std bytes rules order).mem_iff, List.mem_filter,
      dimMask_iff, and_iff_right (List.mem_finRange d)]
  · intro d
    rw [hdrop, List.mem_filter, and_iff_right (hp.mem_iff.mpr (List.mem_finRange d)),
      Bool.not_eq_true', Bool.eq_false_iff, ne_eq, dimMask_iff]
  · rw [htake]
    exact pairwise_sortedScores std bytes rules hp
  · rw [hdrop]
    have hnodup := hp.nodup_iff.mpr (List.nodup_finRange D)
    exact (pairwise_idxOf hnodup).sublist List.filter_sublist

theorem resolve_resolve {order : DimensionOrder D} (hp : order.IsPermutation) :
    resolve std bytes rules (resolve std bytes rules order).1 = resolve std bytes rules order := by
  have h := resolve_resolved std bytes rules hp
  have h' := resolve_resolved std bytes rules h.isPermutation
  obtain ⟨horder, hu⟩ := h'.unique h.self
  exact Prod.ext horder hu

/-- The resolver makes an order that it leaves as it is when it is called again. -/
theorem resolve_isResolved {order : DimensionOrder D} (hp : order.IsPermutation) :
    Resolved (fun d => ∃ r ∈ rules, (r.first.get d).isWildcard bytes = false)
        (getDimensionSelScore std rules) order (resolve std bytes rules order).1
        (resolve std bytes rules order).2 ∧
      resolve std bytes rules (resolve std bytes rules order).1 = resolve std bytes rules order := by
  exact ⟨resolve_resolved std bytes rules hp, resolve_resolve std bytes rules hp⟩

/-- Of three fields the last one is a wildcard; the exact second field has the greater score. -/
theorem resolve_isResolved_two :
    let order : DimensionOrder 3 := #v[2, 0, 1]
    let rules : List (RuleSpec 3 ℕ) := [⟨#v[⟨0, 9⟩, ⟨1, 1⟩, ⟨0, 255⟩], 1⟩,
      ⟨#v[⟨5, 20⟩, ⟨2, 2⟩, ⟨0, 255⟩], 2⟩]
    resolve .insertion 1 rules order = (#v[1, 0, 2], 2) ∧
      Resolved (fun d => ∃ r ∈ rules, (r.first.get d).isWildcard 1 = false)
        (getDimensionSelScore .insertion rules) order (resolve .insertion 1 rules order).1
        (resolve .insertion 1 rules order).2 ∧
      resolve .insertion 1 rules (resolve .insertion 1 rules order).1 =
        resolve .insertion 1 rules order :=
  ⟨by decide, resolve_isResolved .insertion 1 _ (by decide)⟩

end GreedyDimensionOrderResolver

namespace PartitionSortClassifer

variable {V : Type} [RuleValue V] [DecidableEq V]

/-- A tree whose order was resolved for the rules it has is not built again. -/
theorem updateDimensionOrder_of_resolved (std : IntervalSort) (cfg : ClassifierCfg) (fuel t : ℕ)
    (s : PartitionSortClassifer cfg.D V) {order : DimensionOrder cfg.D} (hp : order.IsPermutation)
    (ho : (s.infos.get t).tree.dimensionOrder =
      (GreedyDimensionOrderResolver.resolve std cfg.keyBytes (s.infos.get t).rules order).1) :
    ∃ s', updateDimensionOrder std cfg (fuel + 1) t none s = .ok () s' ∧
      s'.pool = s.pool ∧ ∀ t', (s'.infos.get t').tree = (s.infos.get t').tree := by
  have hsame : (s.infos.get t).tree.dimensionOrder = (GreedyDimensionOrderResolver.resolve std
      cfg.keyBytes (s.infos.get t).rules (s.infos.get t).tree.dimensionOrder).1 := by
    rw [ho, GreedyDimensionOrderResolver.resolve_resolve std cfg.keyBytes _ hp]
  rw [updateDimensionOrder]
  by_cases hpending : (s.infos.get t).updatePending
  · refine ⟨s, ?_, rfl, fun _ => rfl⟩
    simp [hpending, bind, EStateM.bind, stateGet_eq, pure, EStateM.pure]
  · refine ⟨{ s with
      infos := (s.infos.set t { s.infos.get t with updatePending := true }).set t
        { s.infos.get t with updatePending := false } }, ?_, rfl, fun t' => ?_⟩
    · simp [hpending, ← hsame, updateInfo, modify, stateModifyGet_eq, bind, EStateM.bind,
        stateGet_eq]
    · by_cases ht : t' = t
      · simp [ht]
      · simp [Store.get_set, ht]

end PartitionSortClassifer

end Pcv
