import Pcv.PartitionSort.PartitionSortClassifier
import Pcv.PartitionSort.TreeOfRules

/-!
# The levels the rules of a tree use

The classifier keeps the fields that some rule of a tree uses in front of the others:
`used_dim_cnt` is the number of levels behind which every rule has wildcards only.  The
resolver makes such an order, and `lockDims` moves the fields of one more rule behind the
levels that are in use already.

Behind those levels the order can change without a change of the tree: neither the ranges
of its rules in the order of the levels depend on it, nor the fields that its compressed
nodes remember.
-/

namespace Pcv

variable {D : ℕ} {V : Type}

/-- Behind the first `n` levels the rule has wildcards only. -/
def RuleSpec.UsesFirst (bytes : ℕ) (order : DimensionOrder D) (n : ℕ) (r : RuleSpec D V) : Prop :=
  ∀ i d, n ≤ i → order[i]? = some d → (r.first.get d).isWildcard bytes = true

/-- The same fields in another order, the first `n` of them where they were. -/
structure DimensionOrder.KeepsFirst (n : ℕ) (order order' : DimensionOrder D) : Prop where
  perm : order'.toList.Perm order.toList
  front : ∀ i, i < n → order'[i]? = order[i]?

/-! ## Orders that agree on the levels in use -/

section Orders

variable {order order' order'' : DimensionOrder D} {n m : ℕ} {bytes : ℕ} {r : RuleSpec D V}

namespace DimensionOrder

/-- A field is tested at one level only. -/
theorem IsPermutation.level_inj (h : order.IsPermutation) {i j : ℕ} {d : Fin D}
    (hi : order[i]? = some d) (hj : order[j]? = some d) : i = j := by
  have hnd : order.toList.Nodup := (List.Perm.nodup_iff h).mpr (List.nodup_finRange D)
  obtain ⟨hi', hi⟩ := Vector.getElem?_eq_some_iff.mp hi
  obtain ⟨hj', hj⟩ := Vector.getElem?_eq_some_iff.mp hj
  refine (@List.Nodup.getElem_inj_iff _ _ hnd i ?_ j ?_).mp ?_
  · simpa using hi'
  · simpa using hj'
  · simp [hi, hj]

namespace KeepsFirst

theorem refl (n : ℕ) (order : DimensionOrder D) : KeepsFirst n order order :=
  ⟨.refl _, fun _ _ => rfl⟩

theorem trans (h : KeepsFirst n order order') (h' : KeepsFirst m order' order'') (hnm : n ≤ m) :
    KeepsFirst n order order'' where
  perm := h'.perm.trans h.perm
  front := fun i hi => (h'.front i (by omega)).trans (h.front i hi)

theorem isPermutation (h : KeepsFirst n order order') (hp : order.IsPermutation) :
    order'.IsPermutation :=
  h.perm.trans hp

/-- Two fields behind the first `n` levels change places. -/
theorem swap (order : DimensionOrder D) {i j : ℕ} (hi : n ≤ i) (hj : n ≤ j) (hiD : i < D)
    (hjD : j < D) : KeepsFirst n order (order.swap i j) where
  perm := (Vector.swap_perm hiD hjD).toList
  front := by
    intro k hk
    rcases Nat.lt_or_ge k D with hkD | hkD
    · rw [Vector.getElem?_eq_getElem hkD, Vector.getElem?_eq_getElem hkD,
        Vector.getElem_swap_of_ne (by omega) (by omega)]
    · simp [hkD]

end KeepsFirst

end DimensionOrder

namespace RuleSpec

theorem UsesFirst.mono (h : r.UsesFirst bytes order n) (hnm : n ≤ m) :
    r.UsesFirst bytes order m :=
  fun i d hi => h i d (hnm.trans hi)

/-- A rule needs no more levels than it uses, and one. -/
theorem UsesFirst.keyLength_le (h : r.UsesFirst bytes order n) :
    r.keyLength bytes order ≤ max 1 n := by
  have main : ∀ ks : List Range1d,
      (∀ i k, n ≤ i → ks[i]? = some k → k.isWildcard bytes = true) →
        Pcv.keyLength bytes ks ≤ max 1 n := by
    intro ks
    induction ks using List.reverseRecOn with
    | nil => simp [Pcv.keyLength]
    | append_singleton ks x ih =>
        intro hks
        rw [keyLength_concat]
        split
        · refine ih fun i k hi hk => hks i k hi ?_
          rw [List.getElem?_append_left (List.getElem?_eq_some_iff.mp hk).1, hk]
        · next hx =>
            by_contra hlt
            exact hx (hks ks.length x (by omega) (by simp))
  refine main _ fun i k hi hk => ?_
  have hiD : i < D := by simpa using (List.getElem?_eq_some_iff.mp hk).1
  have hord : order[i]? = some order[i] := by simp [hiD]
  rw [r.getElem?_sequence order hiD, rangeAt_eq hord] at hk
  obtain rfl := Option.some.inj hk
  exact h i _ hi hord

/-- A change of the order behind the levels in use does not concern the rule. -/
theorem UsesFirst.reorder (h : r.UsesFirst bytes order n) (hp : order.IsPermutation)
    (hk : order.KeepsFirst n order') : r.UsesFirst bytes order' n := by
  intro i d hi hd
  have hp' := hk.isPermutation hp
  obtain ⟨j, hj, hjd⟩ := hp.exists_index d
  refine h j d ?_ hjd
  by_contra hlt
  have := hp'.level_inj ((hk.front j (by omega)).trans hjd) hd
  omega

theorem UsesFirst.rangeAt_eq (h : r.UsesFirst bytes order n) (hp : order.IsPermutation)
    (hk : order.KeepsFirst n order') (i : ℕ) : rangeAt order' r i = rangeAt order r i := by
  rcases Nat.lt_or_ge i n with hi | hi
  · simp only [rangeAt, hk.front i hi]
  · rcases Nat.lt_or_ge i D with hiD | hiD
    · have hord : order[i]? = some order[i] := by simp [hiD]
      have hord' : order'[i]? = some order'[i] := by simp [hiD]
      have hw := h i _ hi hord
      have hw' := h.reorder hp hk i _ hi hord'
      rw [Range1d.isWildcard_iff] at hw hw'
      rw [Pcv.rangeAt_eq hord, Pcv.rangeAt_eq hord', hw, hw']
    · simp [rangeAt, hiD]

theorem UsesFirst.sequence_eq (h : r.UsesFirst bytes order n) (hp : order.IsPermutation)
    (hk : order.KeepsFirst n order') : r.sequence order' = r.sequence order := by
  have : ∀ cnt lvl, rangesFrom order' r cnt lvl = rangesFrom order r cnt lvl := by
    intro cnt
    induction cnt with
    | zero => exact fun _ => rfl
    | succ cnt ih => exact fun lvl => by rw [rangesFrom, rangesFrom, h.rangeAt_eq hp hk, ih]
  exact this D 0

end RuleSpec

end Orders

/-! ## The orders of the classifier -/

section Classifier

variable {order : DimensionOrder D} {bytes : ℕ}

/-- `lockDims` leaves the levels in use where they are, and moves the fields that the new rule
uses right behind them. -/
theorem lockDims_spec (rule : RuleSpec D V) {cnt dI used : ℕ} (hcnt : dI + cnt = D)
    (hused : used ≤ dI)
    (hwild : ∀ i d, used ≤ i → i < dI → order[i]? = some d →
      (rule.first.get d).isWildcard bytes = true) :
    let locked := PartitionSortClassifer.lockDims bytes rule cnt dI (order, used)
    order.KeepsFirst used locked.1 ∧ used ≤ locked.2 ∧ locked.2 ≤ D ∧
      rule.UsesFirst bytes locked.1 locked.2 := by
  induction cnt generalizing dI used order with
  | zero =>
      refine ⟨.refl _ _, le_rfl, ?_, fun i d hi hd => ?_⟩
      · show used ≤ D
        omega
      · obtain ⟨hiD, -⟩ := Vector.getElem?_eq_some_iff.mp hd
        exact hwild i d hi (by omega) hd
  | succ cnt ih =>
      have hdI : dI < D := by omega
      have hord : order[dI]? = some order[dI] := by simp [hdI]
      simp only [PartitionSortClassifer.lockDims, hord]
      split
      · have hswap : order.swapIfInBounds used dI = order.swap used dI := by
          apply Vector.toArray_inj.mp
          simp [Array.swapIfInBounds_def, hdI, show used < D by omega]
        have hk : order.KeepsFirst used (order.swap used dI) :=
          .swap order le_rfl hused (by omega) hdI
        have hwild' : ∀ i d, used + 1 ≤ i → i < dI + 1 → (order.swap used dI)[i]? = some d →
            (rule.first.get d).isWildcard bytes = true := by
          intro i d hi hlt hd
          have hiD : i < D := by omega
          rw [Vector.getElem?_eq_getElem hiD] at hd
          obtain rfl := Option.some.inj hd
          rcases eq_or_ne i dI with rfl | hne
          · rw [Vector.getElem_swap_right]
            exact hwild used _ le_rfl (by omega) (by simp)
          · rw [Vector.getElem_swap_of_ne (by omega) hne]
            exact hwild i _ (by omega) (by omega) (by simp [hiD])
        obtain ⟨hk', hle, hD, hr⟩ := ih (by omega) (by omega) hwild'
        rw [hswap]
        exact ⟨hk.trans hk' (by omega), by omega, hD, hr⟩
      · next hw =>
          refine @ih order (dI + 1) used (by omega) (by omega) fun i d hi hlt hd => ?_
          rcases eq_or_ne i dI with rfl | hne
          · rw [hord] at hd
            obtain rfl := Option.some.inj hd
            simpa using hw
          · exact hwild i d hi (by omega) hd

/-- The levels in use stay where they are. -/
theorem lockDims_keepsFirst (rule : RuleSpec D V) (used : ℕ) : order.KeepsFirst used
    (PartitionSortClassifer.lockDims bytes rule (D - used) used (order, used)).1 := by
  rcases Nat.le_total used D with hle | hle
  · exact (lockDims_spec rule (Nat.add_sub_cancel' hle) le_rfl fun i d hi hlt => by omega).1
  · rw [Nat.sub_eq_zero_of_le hle]
    exact .refl used order

theorem DimensionOrder.IsPermutation.swapIfInBounds (hp : order.IsPermutation) (i j : ℕ) :
    DimensionOrder.IsPermutation (order.swapIfInBounds i j) := by
  refine List.Perm.trans ?_ hp
  rw [← Vector.toList_toArray, Vector.toArray_swapIfInBounds, ← Vector.toList_toArray,
    Array.swapIfInBounds_def]
  split
  · split
    · exact (Array.swap_perm _ _).toList
    · rfl
  · rfl

/-- The order stays one of all the fields, whatever is locked in it. -/
theorem lockDims_isPermutation (rule : RuleSpec D V) {cnt dI used : ℕ}
    (hp : order.IsPermutation) :
    (PartitionSortClassifer.lockDims bytes rule cnt dI (order, used)).1.IsPermutation := by
  induction cnt generalizing dI used order with
  | zero => exact hp
  | succ cnt ih =>
      rw [PartitionSortClassifer.lockDims]
      split
      · exact hp
      · split
        · exact ih (hp.swapIfInBounds used dI)
        · exact ih hp

namespace GreedyDimensionOrderResolver

variable (std : IntervalSort) (rules : List (RuleSpec D V))

/-- The fields in use come first, the others in their previous order. -/
theorem resolveList_eq (bytes : ℕ) (order : DimensionOrder D) : ∃ used : List (Fin D),
    used.Perm ((List.finRange D).filter (dimMask bytes rules)) ∧
      resolveList std bytes rules order =
        (used ++ order.toList.filter fun d => !dimMask bytes rules d, used.length) := by
  set scores := (((List.finRange D).filter (dimMask bytes rules)).map fun d =>
    (d, getDimensionSelScore std rules d)).insertionSort fun a b => !before order b a
    with hscores
  refine ⟨scores.map Prod.fst, ?_, ?_⟩
  · have := (List.perm_insertionSort (fun a b => (!before order b a) = true)
      (((List.finRange D).filter (dimMask bytes rules)).map fun d =>
        (d, getDimensionSelScore std rules d))).map Prod.fst
    rwa [List.map_map, show Prod.fst ∘ (fun d => (d, getDimensionSelScore std rules d)) = id from rfl,
      List.map_id] at this
  · rw [List.length_map]
    rfl

theorem resolveList_perm (bytes : ℕ) (hp : order.IsPermutation) :
    (resolveList std bytes rules order).1.Perm (List.finRange D) := by
  obtain ⟨used, hused, heq⟩ := resolveList_eq std rules bytes order
  rw [heq]
  have hunused := List.Perm.filter (fun d => !dimMask bytes rules d) hp
  exact (hused.append hunused).trans (List.filter_append_perm _ _)

theorem resolve_toList (bytes : ℕ) (hp : order.IsPermutation) :
    (resolve std bytes rules order).1.toList = (resolveList std bytes rules order).1 := by
  have hlen := (resolveList_perm std rules bytes hp).length_eq
  rw [List.length_finRange] at hlen
  refine List.ext_getElem (by simp [hlen]) fun i hi hi' => ?_
  simp [resolve, List.getD_eq_getElem?_getD, hi']

/-- The resolver makes an order of all the fields. -/
theorem resolve_isPermutation (bytes : ℕ) (hp : order.IsPermutation) :
    (resolve std bytes rules order).1.IsPermutation := by
  rw [DimensionOrder.IsPermutation, resolve_toList std rules bytes hp]
  exact resolveList_perm std rules bytes hp

theorem resolve_le (bytes : ℕ) (order : DimensionOrder D) :
    (resolve std bytes rules order).2 ≤ D := by
  obtain ⟨used, hused, heq⟩ := resolveList_eq std rules bytes order
  have hlen : used.length ≤ D := by
    have := hused.length_eq.trans_le (List.length_filter_le _ _)
    simpa using this
  simpa [resolve, heq] using hlen

/-- Behind the number of levels it counts, the resolver puts fields that no rule uses. -/
theorem resolve_usesFirst (bytes : ℕ) (hp : order.IsPermutation) {r : RuleSpec D V}
    (hr : r ∈ rules) :
    r.UsesFirst bytes (resolve std bytes rules order).1 (resolve std bytes rules order).2 := by
  intro i d hi hd
  obtain ⟨used, hused, heq⟩ := resolveList_eq std rules bytes order
  have hlist : (resolve std bytes rules order).1.toList[i]? = some d := by simpa using hd
  have hi' : used.length ≤ i := by simpa [resolve, heq] using hi
  rw [resolve_toList std rules bytes hp, heq, List.getElem?_append_right hi'] at hlist
  have hmem := List.mem_of_getElem? hlist
  simp only [List.mem_filter, dimMask, Bool.not_eq_true', List.any_eq_false] at hmem
  simpa using hmem.2 r hr

end GreedyDimensionOrderResolver

end Classifier

end Pcv
