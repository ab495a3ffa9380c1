import Pcv.PartitionSort.WeightedIntervalSchedulingSolver
import Mathlib.Data.Finset.Basic
import Mathlib.Data.Finset.Card
import Mathlib.Data.List.GetD
import Mathlib.Order.Bounds.Basic

/-!
# What the interval scheduling solver computes

A schedule is a set of intervals that do not conflict, one of them ending at or
before the start of the other, and it weighs as many entries of the list as are
equal to one of its intervals.  The dynamic programme is meant to return the
greatest weight.

Two arrangements of the sorted list stand in its way.

* **Equal neighbours.**  `get_weight` counts the second of two equal intervals
  twice, and it is chained to the first one besides: two entries give three.
* **Points.**  The sort compares upper ends only.  A point interval that it leaves
  in front of an interval with the same upper end is not found by
  `latestNonConflict`, which looks for an earlier entry that ends before the later
  one starts.

`findMaxWeightIntervalSequence_isOptimal_iff` says that nothing else does: the
result is optimal in every order of the list, whatever order the sort leaves equal
upper ends in, exactly if no interval is repeated and some schedule of the greatest
weight is *separate*, that is, keeps points and intervals that end in them apart.
-/

namespace Pcv

/-! ## Schedules -/

/-- One interval ends at or before the start of the other. -/
def NonConflicting (a b : Range1d) : Prop :=
  a.high ≤ b.low ∨ b.high ≤ a.low

/-- The intervals of the set do not conflict with each other. -/
def Schedule (O : Finset Range1d) : Prop :=
  ∀ a ∈ O, ∀ b ∈ O, a ≠ b → NonConflicting a b

/-- No point interval of the set is the end of a longer one. -/
def Separate (O : Finset Range1d) : Prop :=
  ∀ a ∈ O, ∀ b ∈ O, a.low = a.high → b.high = a.high → b.low = b.high

/-- The entries of the list that are equal to an interval of the set. -/
def scheduledWeight (l : List Range1d) (O : Finset Range1d) : ℕ :=
  l.countP fun r => decide (r ∈ O)

/-- The greatest weight of a schedule of the list's intervals. -/
def IsOptimal (l : List Range1d) (v : ℕ) : Prop :=
  IsGreatest {w | ∃ O ⊆ l.toFinset, Schedule O ∧ scheduledWeight l O = w} v

theorem scheduledWeight_perm {l l' : List Range1d} (h : l.Perm l') (O : Finset Range1d) :
    scheduledWeight l O = scheduledWeight l' O :=
  h.countP_eq _

theorem isOptimal_perm {l l' : List Range1d} (h : l.Perm l') (v : ℕ) :
    IsOptimal l v ↔ IsOptimal l' v := by
  have hset : l.toFinset = l'.toFinset := List.toFinset_eq_of_perm _ _ h
  have hweight : ∀ O, scheduledWeight l O = scheduledWeight l' O := scheduledWeight_perm h
  simp only [IsOptimal, hset, hweight]

/-- In a list without repetitions a set of its intervals weighs its size. -/
theorem scheduledWeight_of_nodup {l : List Range1d} (h : l.Nodup) {O : Finset Range1d}
    (hO : O ⊆ l.toFinset) : scheduledWeight l O = O.card := by
  have hset : (l.filter fun r => decide (r ∈ O)).toFinset = O := by
    ext r
    simp only [List.mem_toFinset, List.mem_filter, decide_eq_true_eq]
    exact ⟨fun hr => hr.2, fun hr => ⟨List.mem_toFinset.mp (hO hr), hr⟩⟩
  calc scheduledWeight l O = (l.filter fun r => decide (r ∈ O)).length :=
        List.countP_eq_length_filter ..
    _ = (l.filter fun r => decide (r ∈ O)).toFinset.card :=
        (List.toFinset_card_of_nodup (h.filter _)).symm
    _ = O.card := by rw [hset]

namespace WeightedIntervalSchedulingSolver

/-! ## The table -/

/-- The number of entries that can be kept with the entry at `k`. -/
def compatible (S : List Range1d) (k : ℕ) : ℕ :=
  match latestNonConflict S (S.getD k default) k with
  | some l => l + 1
  | none => 0

/-- The last non-conflicting entry is below the index searched from; it ends before
the interval starts or is equal to it, and the entries behind it are neither. -/
theorem latestNonConflict_spec (S : List Range1d) (cur : Range1d) (k : ℕ) :
    match latestNonConflict S cur k with
    | some l => l < k ∧
        ((S.getD l default).high ≤ cur.low ∨ S.getD l default = cur) ∧
        ∀ j, l < j → j < k → cur.low < (S.getD j default).high ∧ S.getD j default ≠ cur
    | none => ∀ j, j < k → cur.low < (S.getD j default).high ∧ S.getD j default ≠ cur := by
  induction k with
  | zero => simp [latestNonConflict]
  | succ k ih =>
      simp only [latestNonConflict]
      by_cases h : (S.getD k default).high ≤ cur.low ∨ S.getD k default = cur
      · simp only [if_pos h]
        exact ⟨Nat.lt_succ_self k, h, by omega⟩
      · simp only [if_neg h]
        have hk : cur.low < (S.getD k default).high ∧ S.getD k default ≠ cur := by
          push Not at h
          exact h
        cases hlast : latestNonConflict S cur k with
        | none =>
            simp only [hlast] at ih ⊢
            intro j hj
            rcases Nat.lt_succ_iff_lt_or_eq.mp hj with hj | rfl
            · exact ih j hj
            · exact hk
        | some l =>
            simp only [hlast] at ih ⊢
            refine ⟨by omega, ih.2.1, fun j hlj hj => ?_⟩
            rcases Nat.lt_succ_iff_lt_or_eq.mp hj with hj | rfl
            · exact ih.2.2 j hlj hj
            · exact hk

theorem compatible_le (S : List Range1d) (k : ℕ) : compatible S k ≤ k := by
  have h := latestNonConflict_spec S (S.getD k default) k
  unfold compatible
  cases hlast : latestNonConflict S (S.getD k default) k with
  | none => exact Nat.zero_le k
  | some l =>
      simp only [hlast] at h
      exact h.1

theorem compatible_last (S : List Range1d) (k q : ℕ) (h : compatible S k = q + 1) :
    (S.getD q default).high ≤ (S.getD k default).low ∨ S.getD q default = S.getD k default := by
  have hspec := latestNonConflict_spec S (S.getD k default) k
  unfold compatible at h
  cases hlast : latestNonConflict S (S.getD k default) k with
  | none =>
      simp only [hlast] at h
      omega
  | some l =>
      simp only [hlast, Nat.add_right_cancel_iff] at h hspec
      exact h ▸ hspec.2.1

theorem compatible_conflict (S : List Range1d) (k j : ℕ) (hq : compatible S k ≤ j) (hj : j < k) :
    (S.getD k default).low < (S.getD j default).high ∧ S.getD j default ≠ S.getD k default := by
  have h := latestNonConflict_spec S (S.getD k default) k
  unfold compatible at hq
  cases hlast : latestNonConflict S (S.getD k default) k with
  | none =>
      simp only [hlast] at h
      exact h j hj
  | some l =>
      simp only [hlast] at h hq
      exact h.2.2 j hq hj

/-- The greatest profit of the entries before index `k`, as the table has it. -/
def profit (S : List Range1d) : ℕ → ℕ
  | 0 => 0
  | k + 1 => max (getWeight S k + profit S (compatible S k)) (profit S k)
termination_by k => k
decreasing_by
  · exact Nat.lt_succ_of_le (compatible_le S k)
  · exact Nat.lt_succ_self k

theorem profit_zero (S : List Range1d) : profit S 0 = 0 := by
  rw [profit]

theorem profit_succ (S : List Range1d) (k : ℕ) :
    profit S (k + 1) = max (getWeight S k + profit S (compatible S k)) (profit S k) := by
  rw [profit]

theorem profit_mono (S : List Range1d) : Monotone (profit S) :=
  monotone_nat_of_le_succ fun k => by
    rw [profit_succ]
    exact le_max_right ..

/-- The table of the first `i` entries. -/
def profits (S : List Range1d) (i : ℕ) : List ℕ :=
  (List.range i).map fun k => profit S (k + 1)

theorem getD_profits (S : List Range1d) (i k : ℕ) (hk : k < i) :
    (profits S i).getD k 0 = profit S (k + 1) := by
  simp [profits, List.getD_eq_getElem?_getD, hk]

/-- The loop continues the table it is given. -/
theorem fillTable_profits (S : List Range1d) (cnt i : ℕ) :
    fillTable S cnt (i + 1) (profits S (i + 1)) = profits S (i + 1 + cnt) := by
  induction cnt generalizing i with
  | zero => rfl
  | succ cnt ih =>
      have hincl : getWeight S (i + 1) +
          (match latestNonConflict S (S.getD (i + 1) default) (i + 1) with
            | some l => (profits S (i + 1)).getD l 0
            | none => 0) = getWeight S (i + 1) + profit S (compatible S (i + 1)) := by
        have hle := compatible_le S (i + 1)
        unfold compatible at hle ⊢
        cases hlast : latestNonConflict S (S.getD (i + 1) default) (i + 1) with
        | none => simp only [profit_zero]
        | some l =>
            simp only [hlast] at hle ⊢
            rw [getD_profits S (i + 1) l hle]
      have hprev : (profits S (i + 1)).getD i 0 = profit S (i + 1) :=
        getD_profits S (i + 1) i (Nat.lt_succ_self i)
      have hnext : profits S (i + 1) ++ [profit S (i + 1 + 1)] = profits S (i + 1 + 1) := by
        simp [profits, List.range_succ]
      calc fillTable S (cnt + 1) (i + 1) (profits S (i + 1))
          = fillTable S cnt (i + 1 + 1) (profits S (i + 1) ++
              [max (getWeight S (i + 1) +
                (match latestNonConflict S (S.getD (i + 1) default) (i + 1) with
                  | some l => (profits S (i + 1)).getD l 0
                  | none => 0)) ((profits S (i + 1)).getD i 0)]) := rfl
        _ = fillTable S cnt (i + 1 + 1) (profits S (i + 1 + 1)) := by
            rw [hincl, hprev, ← profit_succ S (i + 1), hnext]
        _ = profits S (i + 1 + (cnt + 1)) := by
            rw [ih (i + 1)]
            congr 1
            omega

/-- The result is the profit of the whole sorted list. -/
theorem findMaxWeightIntervalSequence_eq (std : IntervalSort) {l : List Range1d} (h : l ≠ []) :
    findMaxWeightIntervalSequence std l = profit (std.sort l) l.length := by
  have hlen : (std.sort l).length = l.length := (std.perm l).length_eq
  have hpos : 0 < l.length := List.length_pos_of_ne_nil h
  have hfirst : [getWeight (std.sort l) 0] = profits (std.sort l) (0 + 1) := by
    have hzero : compatible (std.sort l) 0 = 0 := Nat.le_zero.mp (compatible_le _ 0)
    simp [profits, profit_succ, hzero, profit_zero]
  unfold findMaxWeightIntervalSequence
  simp only [hlen]
  rw [hfirst, fillTable_profits, getD_profits _ _ _ (by omega)]
  congr 1
  omega

/-! ## No schedule weighs more than the table says -/

/-- Of two intervals of the set the one that stands first in the list ends before the
other one starts. -/
def Chronological (S : List Range1d) (O : Finset Range1d) : Prop :=
  S.Pairwise fun a b => a ∈ O → b ∈ O → a ≠ b → a.high ≤ b.low

theorem pairwise_getD {R : Range1d → Range1d → Prop} {S : List Range1d} (h : S.Pairwise R)
    {j k : ℕ} (hj : j < k) (hk : k < S.length) :
    R (S.getD j default) (S.getD k default) := by
  rw [List.getD_eq_getElem S default (hj.trans hk), List.getD_eq_getElem S default hk]
  exact List.pairwise_iff_getElem.mp h j k (hj.trans hk) hk hj

/-- A schedule is chronological if no point of it stands in front of a longer interval
that ends in the point. -/
theorem chronological_of_points {S : List Range1d} {O : Finset Range1d}
    (hsorted : S.Pairwise fun a b => ¬ b.high < a.high) (hvalid : ∀ r ∈ S, r.low ≤ r.high)
    (hO : Schedule O)
    (hpoints : S.Pairwise fun a b =>
      a ∈ O → b ∈ O → a.low = a.high → b.high = a.high → b.low = b.high) :
    Chronological S O := by
  refine (hsorted.and hpoints).imp_of_mem fun {a b} ha hb h haO hbO hne => ?_
  have hle : a.high ≤ b.high := Nat.le_of_not_lt h.1
  have hvalidA : a.low ≤ a.high := hvalid a ha
  rcases hO a haO b hbO hne with hab | hba
  · exact hab
  · -- The schedule has them the other way round: `a` is the point at the end of `b`.
    have hpoint : b.low = b.high := h.2 haO hbO (by omega) (by omega)
    omega

theorem scheduledWeight_take_succ (S : List Range1d) (O : Finset Range1d) (k : ℕ)
    (hk : k < S.length) :
    scheduledWeight (S.take (k + 1)) O
      = scheduledWeight (S.take k) O + if S.getD k default ∈ O then 1 else 0 := by
  rw [List.getD_eq_getElem S default hk, List.take_succ_eq_append_getElem hk]
  simp only [scheduledWeight]
  rw [List.countP_append, List.countP_singleton]
  simp only [decide_eq_true_eq]

/-- Entries outside the set add nothing. -/
theorem scheduledWeight_take_eq (S : List Range1d) (O : Finset Range1d) (q k : ℕ) (hq : q ≤ k)
    (hk : k ≤ S.length) (h : ∀ j, q ≤ j → j < k → S.getD j default ∉ O) :
    scheduledWeight (S.take k) O = scheduledWeight (S.take q) O := by
  induction k, hq using Nat.le_induction with
  | base => rfl
  | succ k hq ih =>
      rw [scheduledWeight_take_succ S O k hk, if_neg (h k hq (Nat.lt_succ_self k)), Nat.add_zero]
      exact ih (Nat.le_of_succ_le hk) fun j hqj hj => h j hqj (Nat.lt_succ_of_lt hj)

/-- Before a scheduled entry only the compatible ones weigh anything. -/
theorem scheduledWeight_take_compatible {S : List Range1d} {O : Finset Range1d}
    (hchron : Chronological S O) {k : ℕ} (hk : k < S.length) (hmem : S.getD k default ∈ O) :
    scheduledWeight (S.take (k + 1)) O
      = scheduledWeight (S.take (compatible S k)) O + 1 := by
  have hskip : ∀ j, compatible S k ≤ j → j < k → S.getD j default ∉ O := by
    intro j hqj hj hjO
    obtain ⟨hlow, hne⟩ := compatible_conflict S k j hqj hj
    have hle := pairwise_getD hchron hj hk hjO hmem hne
    omega
  rw [scheduledWeight_take_succ S O k hk, if_pos hmem,
    scheduledWeight_take_eq S O (compatible S k) k (compatible_le S k) hk.le hskip]

theorem one_le_getWeight (S : List Range1d) (k : ℕ) : 1 ≤ getWeight S k := by
  cases k with
  | zero => exact Nat.le_refl 1
  | succ k =>
      simp only [getWeight]
      split <;> omega

theorem scheduledWeight_le_profit {S : List Range1d} {O : Finset Range1d}
    (hchron : Chronological S O) (k : ℕ) (hk : k ≤ S.length) :
    scheduledWeight (S.take k) O ≤ profit S k := by
  induction k using Nat.strong_induction_on with
  | h k ih =>
      cases k with
      | zero => simp [scheduledWeight]
      | succ k =>
          rw [profit_succ]
          by_cases hmem : S.getD k default ∈ O
          · have hq := compatible_le S k
            have hprefix := ih (compatible S k) (by omega) (by omega)
            have hone := one_le_getWeight S k
            rw [scheduledWeight_take_compatible hchron hk hmem]
            omega
          · have hprefix := ih k (by omega) (by omega)
            rw [scheduledWeight_take_succ S O k hk, if_neg hmem]
            omega

/-- Two equal neighbours are worth three: from there on the table is above every
schedule. -/
theorem scheduledWeight_lt_profit {S : List Range1d} {O : Finset Range1d}
    (hchron : Chronological S O) {i : ℕ} (hsame : S.getD i default = S.getD (i + 1) default)
    (k : ℕ) (hi : i + 2 ≤ k) (hk : k ≤ S.length) :
    scheduledWeight (S.take k) O < profit S k := by
  have htwo : getWeight S (i + 1) = 2 := by simp only [getWeight, if_pos hsame]
  have hchained : compatible S (i + 1) = i + 1 := by
    by_contra hne
    have hle := compatible_le S (i + 1)
    exact (compatible_conflict S (i + 1) i (by omega) (Nat.lt_succ_self i)).2 hsame
  -- The second of the two entries alone raises the table by two.
  have hjump : 2 + profit S (i + 1) ≤ profit S (i + 2) := by
    rw [profit_succ S (i + 1), htwo, hchained]
    exact le_max_left ..
  induction k using Nat.strong_induction_on with
  | h k ih =>
      obtain ⟨k, rfl⟩ : ∃ k', k = k' + 1 := ⟨k - 1, by omega⟩
      have hstep := profit_succ S k
      by_cases hmem : S.getD k default ∈ O
      · rw [scheduledWeight_take_compatible hchron hk hmem]
        have hq := compatible_le S k
        have hone := one_le_getWeight S k
        by_cases hbehind : i + 2 ≤ compatible S k
        · have hprefix := ih (compatible S k) (by omega) hbehind (by omega)
          omega
        · have hprefix :=
            scheduledWeight_le_profit hchron (compatible S k) (by omega)
          have hlow : profit S (compatible S k) ≤ profit S (i + 1) :=
            profit_mono S (by omega)
          have hhigh : profit S (i + 2) ≤ profit S (k + 1) := profit_mono S hi
          omega
      · rw [scheduledWeight_take_succ S O k hk, if_neg hmem]
        rcases Nat.lt_or_ge k (i + 2) with hlast | hlater
        · obtain rfl : k = i + 1 := by omega
          have hprefix := scheduledWeight_le_profit hchron (i + 1) (by omega)
          have hlt : scheduledWeight (S.take (i + 1)) O < profit S (i + 2) := by omega
          exact hlt
        · have hprefix := ih k (by omega) hlater (by omega)
          omega

/-! ## A schedule that weighs what the table says -/

/-- An interval behind all intervals of a schedule extends it. -/
theorem schedule_insert {O : Finset Range1d} {x : Range1d} (hO : Schedule O)
    (hends : ∀ r ∈ O, r.high ≤ x.low) : Schedule (insert x O) := by
  intro a ha b hb hne
  rcases Finset.mem_insert.mp ha with rfl | haO <;> rcases Finset.mem_insert.mp hb with rfl | hbO
  · exact absurd rfl hne
  · exact Or.inr (hends b hbO)
  · exact Or.inl (hends a haO)
  · exact hO a haO b hbO hne

theorem separate_insert {O : Finset Range1d} {x : Range1d} (hO : Separate O)
    (hvalid : x.low ≤ x.high) (hends : ∀ r ∈ O, r.high ≤ x.low)
    (hpoint : x.low = x.high → ∀ r ∈ O, r.high = x.high → r.low = r.high) :
    Separate (insert x O) := by
  intro a ha b hb hap hab
  rcases Finset.mem_insert.mp ha with rfl | haO <;> rcases Finset.mem_insert.mp hb with rfl | hbO
  · exact hap
  · exact hpoint hap b hbO hab
  · have hle := hends a haO
    omega
  · exact hO a haO b hbO hap hab

theorem exists_index_of_mem_take {S : List Range1d} {q : ℕ} {r : Range1d} (h : r ∈ S.take q) :
    ∃ j < q, S.getD j default = r := by
  obtain ⟨j, hj, rfl⟩ := List.mem_iff_getElem.mp h
  rw [List.length_take] at hj
  refine ⟨j, by omega, ?_⟩
  rw [List.getD_eq_getElem S default (by omega), List.getElem_take]

/-- The entries kept with the one at `k` end before it starts. -/
theorem high_le_low_of_compatible {S : List Range1d}
    (hsorted : S.Pairwise fun a b => ¬ b.high < a.high) (hnodup : S.Nodup) {j k : ℕ}
    (hj : j < compatible S k) (hk : k < S.length) :
    (S.getD j default).high ≤ (S.getD k default).low := by
  obtain ⟨q, hq⟩ : ∃ q, compatible S k = q + 1 := ⟨compatible S k - 1, by omega⟩
  have hle := compatible_le S k
  have hlast : (S.getD q default).high ≤ (S.getD k default).low :=
    (compatible_last S k q hq).resolve_right (pairwise_getD hnodup (by omega) hk)
  rcases Nat.lt_or_ge j q with hjq | hjq
  · exact (Nat.le_of_not_lt (pairwise_getD hsorted hjq (by omega))).trans hlast
  · obtain rfl : j = q := by omega
    exact hlast

theorem getWeight_of_nodup {S : List Range1d} (hnodup : S.Nodup) {k : ℕ} (hk : k < S.length) :
    getWeight S k = 1 := by
  cases k with
  | zero => rfl
  | succ k => simp only [getWeight, if_neg (pairwise_getD hnodup (Nat.lt_succ_self k) hk)]

/-- The sort put the points in front of the longer intervals that end in them. -/
def PointsFirst (S : List Range1d) : Prop :=
  S.Pairwise fun a b => b.low = b.high → a.high = b.high → a.low = a.high

/-- Without repetitions the table is attained, and by a separate schedule where the points
come first. -/
theorem exists_schedule {S : List Range1d} (hsorted : S.Pairwise fun a b => ¬ b.high < a.high)
    (hvalid : ∀ r ∈ S, r.low ≤ r.high) (hnodup : S.Nodup) (k : ℕ) (hk : k ≤ S.length) :
    ∃ O ⊆ (S.take k).toFinset, Schedule O ∧ O.card = profit S k ∧
      (PointsFirst S → Separate O) := by
  induction k using Nat.strong_induction_on with
  | h k ih =>
      cases k with
      | zero => exact ⟨∅, by simp [Schedule, Separate, profit_zero]⟩
      | succ k =>
          have hgrow : ∀ q ≤ k, (S.take q).toFinset ⊆ (S.take (k + 1)).toFinset :=
            fun q hq r hr => List.mem_toFinset.mpr
              (List.take_subset_take_left S (by omega) (List.mem_toFinset.mp hr))
          rw [profit_succ]
          rcases Nat.le_total (getWeight S k + profit S (compatible S k)) (profit S k)
            with hskip | htake
          · obtain ⟨O, hsub, hsched, hcard, hsep⟩ := ih k (Nat.lt_succ_self k) (by omega)
            exact ⟨O, hsub.trans (hgrow k le_rfl), hsched, by rw [hcard, max_eq_right hskip], hsep⟩
          · have hq := compatible_le S k
            obtain ⟨O, hsub, hsched, hcard, hsep⟩ := ih (compatible S k) (by omega) (by omega)
            have hindex : ∀ r ∈ O, ∃ j < compatible S k, S.getD j default = r :=
              fun r hr => exists_index_of_mem_take (List.mem_toFinset.mp (hsub hr))
            have hends : ∀ r ∈ O, r.high ≤ (S.getD k default).low := by
              intro r hr
              obtain ⟨j, hj, rfl⟩ := hindex r hr
              exact high_le_low_of_compatible hsorted hnodup hj hk
            have hnew : S.getD k default ∉ O := by
              intro hmem
              obtain ⟨j, hj, hsame⟩ := hindex _ hmem
              exact pairwise_getD hnodup (by omega) hk hsame
            have hentry : S.getD k default ∈ S.take (k + 1) := by
              rw [List.getD_eq_getElem S default hk, List.take_succ_eq_append_getElem hk]
              exact List.mem_append_right _ (List.mem_singleton_self _)
            refine ⟨insert (S.getD k default) O, ?_, schedule_insert hsched hends, ?_, ?_⟩
            · exact Finset.insert_subset (List.mem_toFinset.mpr hentry)
                (hsub.trans (hgrow _ hq))
            · rw [Finset.card_insert_of_notMem hnew, hcard, max_eq_left htake,
                getWeight_of_nodup hnodup hk, Nat.add_comm]
            · intro hfirst
              refine separate_insert (hsep hfirst)
                (hvalid _ (List.take_subset _ _ hentry)) hends fun hpoint r hr hend => ?_
              obtain ⟨j, hj, rfl⟩ := hindex r hr
              exact pairwise_getD hfirst (by omega) hk hpoint hend

/-! ## The two extreme orders of equal upper ends -/

/-- A sort by a total preorder that refines the comparator. -/
def sortBy (r : Range1d → Range1d → Prop) [DecidableRel r] (htotal : ∀ a b, r a b ∨ r b a)
    (htrans : ∀ a b c, r a b → r b c → r a c) (hhigh : ∀ a b, r a b → a.high ≤ b.high) :
    IntervalSort where
  sort := List.insertionSort r
  perm := List.perm_insertionSort r
  sorted l := by
    have : Std.Total r := ⟨htotal⟩
    have : IsTrans Range1d r := ⟨htrans⟩
    exact (List.pairwise_insertionSort r l).imp fun h => Nat.not_lt.mpr (hhigh _ _ h)

theorem pairwise_sortBy (r : Range1d → Range1d → Prop) [DecidableRel r]
    (htotal : ∀ a b, r a b ∨ r b a) (htrans : ∀ a b c, r a b → r b c → r a c)
    (hhigh : ∀ a b, r a b → a.high ≤ b.high) (l : List Range1d) :
    ((sortBy r htotal htrans hhigh).sort l).Pairwise r := by
  have : Std.Total r := ⟨htotal⟩
  have : IsTrans Range1d r := ⟨htrans⟩
  exact List.pairwise_insertionSort r l

/-- By the upper end, then by the lower end: points come last. -/
def LongFirst (a b : Range1d) : Prop :=
  a.high < b.high ∨ a.high = b.high ∧ a.low ≤ b.low

/-- By the upper end, then by the lower end downwards: points come first. -/
def ShortFirst (a b : Range1d) : Prop :=
  a.high < b.high ∨ a.high = b.high ∧ b.low ≤ a.low

instance : DecidableRel LongFirst := fun _ _ => inferInstanceAs (Decidable (_ ∨ _))

instance : DecidableRel ShortFirst := fun _ _ => inferInstanceAs (Decidable (_ ∨ _))

/-- The sort that puts points last and equal intervals side by side. -/
def longFirstSort : IntervalSort :=
  sortBy LongFirst (by unfold LongFirst; omega) (by unfold LongFirst; omega)
    (by unfold LongFirst; omega)

/-- The sort that puts points first. -/
def shortFirstSort : IntervalSort :=
  sortBy ShortFirst (by unfold ShortFirst; omega) (by unfold ShortFirst; omega)
    (by unfold ShortFirst; omega)

theorem LongFirst.antisymm {a b : Range1d} (h : LongFirst a b) (h' : LongFirst b a) : a = b := by
  obtain ⟨low, high⟩ := a
  obtain ⟨low', high'⟩ := b
  simp only [LongFirst, Range1d.mk.injEq] at h h' ⊢
  omega

theorem exists_equal_neighbours {S : List Range1d} (hsorted : S.Pairwise LongFirst)
    (hnodup : ¬ S.Nodup) :
    ∃ i, i + 2 ≤ S.length ∧ S.getD i default = S.getD (i + 1) default := by
  by_contra hnone
  push Not at hnone
  refine hnodup (List.pairwise_iff_getElem.mpr fun i j hi hj hij hsame => ?_)
  have hnext := hnone i (by omega)
  have hentry : S.getD j default = S.getD i default := by
    rw [List.getD_eq_getElem S default hi, List.getD_eq_getElem S default hj, hsame]
  rcases Nat.lt_or_ge (i + 1) j with hgap | hadjacent
  · -- Whatever stands between two equal entries is equal to them.
    have hfirst := pairwise_getD hsorted (Nat.lt_succ_self i) (by omega)
    have hlast := pairwise_getD hsorted hgap hj
    rw [hentry] at hlast
    exact hnext (hfirst.antisymm hlast)
  · obtain rfl : j = i + 1 := by omega
    exact hnext hentry.symm

/-- A list with a repeated interval, its equal entries side by side, is scored above every
schedule. -/
theorem scheduledWeight_lt_of_not_nodup {l : List Range1d} (hne : l ≠ [])
    (hvalid : ∀ r ∈ l, r.low ≤ r.high) (hnodup : ¬ l.Nodup) {O : Finset Range1d}
    (hO : Schedule O) :
    scheduledWeight l O < findMaxWeightIntervalSequence longFirstSort l := by
  have hperm := longFirstSort.perm l
  have hsorted : (longFirstSort.sort l).Pairwise LongFirst := pairwise_sortBy ..
  have hvalidS : ∀ r ∈ longFirstSort.sort l, r.low ≤ r.high :=
    fun r hr => hvalid r (hperm.mem_iff.mp hr)
  obtain ⟨i, hi, hsame⟩ := exists_equal_neighbours hsorted
    fun h => hnodup (hperm.nodup_iff.mp h)
  have hpoints : (longFirstSort.sort l).Pairwise fun a b =>
      a ∈ O → b ∈ O → a.low = a.high → b.high = a.high → b.low = b.high := by
    refine hsorted.imp_of_mem fun {a b} _ hb hab _ _ hpoint hend => ?_
    have hvalidB := hvalidS b hb
    unfold LongFirst at hab
    omega
  have hchron := chronological_of_points (longFirstSort.sorted l) hvalidS hO hpoints
  have hlt := scheduledWeight_lt_profit hchron hsame _ hi le_rfl
  rw [List.take_length, scheduledWeight_perm hperm] at hlt
  rwa [findMaxWeightIntervalSequence_eq longFirstSort hne, ← hperm.length_eq]

/-- Without repetitions the result is the weight of a schedule. -/
theorem exists_schedule_of_result (std : IntervalSort) {l : List Range1d} (hne : l ≠ [])
    (hvalid : ∀ r ∈ l, r.low ≤ r.high) (hnodup : l.Nodup) :
    ∃ O ⊆ l.toFinset, Schedule O ∧
      scheduledWeight l O = findMaxWeightIntervalSequence std l ∧
      (PointsFirst (std.sort l) → Separate O) := by
  have hperm := std.perm l
  obtain ⟨O, hsub, hsched, hcard, hsep⟩ := exists_schedule (std.sorted l)
    (fun r hr => hvalid r (hperm.mem_iff.mp hr)) (hperm.nodup_iff.mpr hnodup) _ le_rfl
  rw [List.take_length, List.toFinset_eq_of_perm _ _ hperm] at hsub
  refine ⟨O, hsub, hsched, ?_, hsep⟩
  rw [scheduledWeight_of_nodup hnodup hsub, hcard, hperm.length_eq,
    findMaxWeightIntervalSequence_eq std hne]

/-- A separate schedule weighs at most the result. -/
theorem scheduledWeight_le_result (std : IntervalSort) {l : List Range1d} (hne : l ≠ [])
    (hvalid : ∀ r ∈ l, r.low ≤ r.high) {O : Finset Range1d} (hO : Schedule O)
    (hsep : Separate O) :
    scheduledWeight l O ≤ findMaxWeightIntervalSequence std l := by
  have hperm := std.perm l
  have hchron := chronological_of_points (std.sorted l)
    (fun r hr => hvalid r (hperm.mem_iff.mp hr)) hO
    (List.pairwise_of_forall fun a b ha hb => hsep a ha b hb)
  have hle := scheduledWeight_le_profit hchron _ le_rfl
  rw [List.take_length, scheduledWeight_perm hperm] at hle
  rwa [findMaxWeightIntervalSequence_eq std hne, ← hperm.length_eq]

/-- The result is the greatest weight in every order of the list and whatever order the
sort leaves equal upper ends in, exactly if no interval is repeated and some schedule of the
greatest weight keeps points and the intervals that end in them apart. -/
theorem findMaxWeightIntervalSequence_isOptimal_iff (l : List Range1d) (hne : l ≠ [])
    (hvalid : ∀ r ∈ l, r.low ≤ r.high) :
    (∀ std : IntervalSort, ∀ l', l'.Perm l →
        IsOptimal l (findMaxWeightIntervalSequence std l')) ↔
      l.Nodup ∧ ∃ O ⊆ l.toFinset, Schedule O ∧ Separate O ∧
        ∀ O' ⊆ l.toFinset, Schedule O' → scheduledWeight l O' ≤ scheduledWeight l O := by
  constructor
  · intro hoptimal
    have hnodup : l.Nodup := by
      by_contra hdup
      obtain ⟨O, -, hO, hweight⟩ := (hoptimal longFirstSort l (List.Perm.refl l)).1
      exact (scheduledWeight_lt_of_not_nodup hne hvalid hdup hO).ne hweight
    -- With the points first only separate schedules are found, and one of them is optimal.
    obtain ⟨O, hsub, hO, hweight, hsep⟩ :=
      exists_schedule_of_result shortFirstSort hne hvalid hnodup
    have hperm := shortFirstSort.perm l
    have hsorted : (shortFirstSort.sort l).Pairwise ShortFirst := pairwise_sortBy ..
    have hfirst : PointsFirst (shortFirstSort.sort l) := by
      refine hsorted.imp_of_mem fun {a b} ha _ hab hpoint hend => ?_
      have hvalidA := hvalid a (hperm.mem_iff.mp ha)
      unfold ShortFirst at hab
      omega
    refine ⟨hnodup, O, hsub, hO, hsep hfirst, fun O' hsub' hO' => ?_⟩
    rw [hweight]
    exact (hoptimal shortFirstSort l (List.Perm.refl l)).2 ⟨O', hsub', hO', rfl⟩
  · rintro ⟨hnodup, O, hsub, hO, hsep, hmax⟩ std l' hperm
    have hne' : l' ≠ [] := fun h => hne (List.nil_perm.mp (h ▸ hperm))
    have hvalid' : ∀ r ∈ l', r.low ≤ r.high := fun r hr => hvalid r (hperm.mem_iff.mp hr)
    rw [← isOptimal_perm hperm]
    obtain ⟨O₁, hsub₁, hO₁, hweight₁, -⟩ :=
      exists_schedule_of_result std hne' hvalid' (hperm.nodup_iff.mpr hnodup)
    refine ⟨⟨O₁, hsub₁, hO₁, hweight₁⟩, ?_⟩
    rintro w ⟨O', hsub', hO', rfl⟩
    rw [List.toFinset_eq_of_perm _ _ hperm] at hsub'
    calc scheduledWeight l' O' = scheduledWeight l O' := scheduledWeight_perm hperm O'
      _ ≤ scheduledWeight l O := hmax O' hsub' hO'
      _ = scheduledWeight l' O := (scheduledWeight_perm hperm O).symm
      _ ≤ findMaxWeightIntervalSequence std l' :=
          scheduledWeight_le_result std hne' hvalid' hO hsep

/-- Two intervals that touch, in either order: both are scheduled. -/
theorem findMaxWeightIntervalSequence_isOptimal_iff_touching :
    IsOptimal [⟨5, 9⟩, ⟨0, 5⟩]
      (findMaxWeightIntervalSequence IntervalSort.insertion [⟨0, 5⟩, ⟨5, 9⟩]) := by
  refine (findMaxWeightIntervalSequence_isOptimal_iff [⟨5, 9⟩, ⟨0, 5⟩] (by decide)
    (by decide)).mpr ⟨by decide, {⟨5, 9⟩, ⟨0, 5⟩}, ?_⟩ _ _ (List.Perm.swap ..)
  refine ⟨by decide, by unfold Schedule NonConflicting; decide,
    by unfold Separate; decide, fun O' _ _ => ?_⟩
  have hall : scheduledWeight [⟨5, 9⟩, ⟨0, 5⟩] {⟨5, 9⟩, ⟨0, 5⟩} = 2 := by decide
  rw [hall]
  exact List.countP_le_length

/-- Two equal intervals are scored three, one more than the list has entries. -/
theorem not_isOptimal_pair :
    ¬ IsOptimal [⟨0, 5⟩, ⟨0, 5⟩]
      (findMaxWeightIntervalSequence IntervalSort.insertion [⟨0, 5⟩, ⟨0, 5⟩]) := by
  rintro ⟨⟨O, -, -, hweight⟩, -⟩
  have hthree :
      findMaxWeightIntervalSequence IntervalSort.insertion [⟨0, 5⟩, ⟨0, 5⟩] = 3 := by decide
  have hle : scheduledWeight [⟨0, 5⟩, ⟨0, 5⟩] O ≤ 2 := List.countP_le_length
  omega

end WeightedIntervalSchedulingSolver

end Pcv
