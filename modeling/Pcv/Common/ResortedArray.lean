import Pcv.Common.ArrayResorter

/-!
# What resorting achieves

`Resorted` is the meaning of a stable repair of one item: the keys do not increase any
more, the other items keep their relative order, and the changed item passes another one
only where their keys make it.  `array_resort` does this for an array that is sorted apart
from one item.
-/

namespace Pcv

namespace ArrayResorter

variable {α : Type} {key : α → ℕ} {arr arr' : Store α} {n c : ℕ} {src : ℕ → ℕ}

/-- The array `arr'` is `arr` with item `c` at its place; `src` tells where an item was. -/
structure Resorted (key : α → ℕ) (n c : ℕ) (arr arr' : Store α) (src : ℕ → ℕ) : Prop extends
    Reordered n arr arr' src where
  sorted : ∀ i j, i < j → j < n → key (arr'.get j) ≤ key (arr'.get i)
  keeps : ∀ i j, i < j → j < n → src i ≠ c → src j ≠ c → src i < src j
  passed_left : ∀ i k, src k = c → k < i → i < n → src i < c →
    key (arr'.get i) < key (arr'.get k)
  passed_right : ∀ i k, src k = c → i < k → k < n → c < src i →
    key (arr'.get k) < key (arr'.get i)

/-- The first `n` items apart from item `c` are sorted by non-increasing keys. -/
def SortedApartFrom (key : α → ℕ) (n c : ℕ) (arr : Store α) : Prop :=
  ∀ i j, i < j → j < n → i ≠ c → j ≠ c → key (arr.get j) ≤ key (arr.get i)

/-- Items that are pairwise distinct stay so. -/
theorem Reordered.distinct (h : Reordered n arr arr' src) {m : ℕ} (hnm : n ≤ m)
    (hdistinct : ∀ i j, i < j → j < m → arr.get i ≠ arr.get j) (i j : ℕ) (hij : i < j)
    (hj : j < m) : arr'.get i ≠ arr'.get j := by
  have hi := (h.mono hnm).src_lt (hij.trans hj)
  have hj' := (h.mono hnm).src_lt hj
  rw [h.get, h.get]
  rcases Nat.lt_or_gt_of_ne fun heq => hij.ne (h.injective heq) with hlt | hgt
  · exact hdistinct _ _ hlt hj'
  · exact (hdistinct _ _ hgt hi).symm

/-- The first `n` items are a permutation of what they were. -/
theorem Reordered.perm (h : Reordered n arr arr' src) :
    ((List.range n).map arr'.get).Perm ((List.range n).map arr.get) := by
  have hsrc : ((List.range n).map src).Perm (List.range n) := by
    refine (List.perm_ext_iff_of_nodup (List.nodup_range.map h.injective) List.nodup_range).mpr
      fun i => ?_
    simp only [List.mem_map, List.mem_range]
    constructor
    · rintro ⟨j, hj, rfl⟩
      exact h.src_lt hj
    · exact h.exists_src i
  have hget : (List.range n).map arr'.get = ((List.range n).map src).map arr.get := by
    rw [List.map_map]
    exact List.map_congr_left fun i _ => h.get i
  rw [hget]
  exact hsrc.map _

/-! ## The two scans -/

/-- The scan to the left passes the items with smaller keys and no others. -/
theorem leftIndex_spec (arr : Store α) (p c : ℕ) :
    (∀ j, leftIndex key arr p c ≤ j → j < c → key (arr.get j) < p) ∧
      (0 < leftIndex key arr p c → p ≤ key (arr.get (leftIndex key arr p c - 1))) := by
  induction c with
  | zero => exact ⟨fun j _ hj => absurd hj (Nat.not_lt_zero j), fun h => absurd h (lt_irrefl 0)⟩
  | succ c ih =>
    rw [leftIndex]
    split
    · next hlt =>
      refine ⟨fun j hj hjc => ?_, ih.2⟩
      rcases Nat.lt_succ_iff_lt_or_eq.mp hjc with hlt' | rfl
      · exact ih.1 j hj hlt'
      · exact hlt
    · next hge => exact ⟨fun j hj hjc => absurd hjc (by omega), fun _ => Nat.not_lt.mp hge⟩

/-- The scan to the right passes the items with greater keys and no others. -/
theorem rightIndex_spec (arr : Store α) (p steps i : ℕ) :
    (∀ j, i < j → j ≤ rightIndex key arr p steps i → p < key (arr.get j)) ∧
      (rightIndex key arr p steps i < i + steps →
        key (arr.get (rightIndex key arr p steps i + 1)) ≤ p) := by
  induction steps generalizing i with
  | zero => exact ⟨fun j hj hji => absurd hji (by rw [rightIndex]; omega),
      fun h => absurd h (lt_irrefl i)⟩
  | succ steps ih =>
    rw [rightIndex]
    split
    · next hlt =>
      refine ⟨fun j hj hjr => ?_, fun h => (ih (i + 1)).2 (by omega)⟩
      rcases Nat.lt_or_eq_of_le (Nat.succ_le_of_lt hj) with hlt' | rfl
      · exact (ih (i + 1)).1 j hlt' hjr
      · exact hlt
    · next hge => exact ⟨fun j hj hjr => absurd hjr (by omega), fun _ => Nat.not_lt.mp hge⟩

theorem rotatedLeft_self (c i : ℕ) : rotatedLeft c c i = i := by
  unfold rotatedLeft
  split_ifs <;> omega

/-- The item moves to the left, or else to the right, perhaps by no step. -/
theorem arrayResort_cases (key : α → ℕ) (arr : Store α) (hc : c < n) :
    (∃ l, l < c ∧ (∀ i, (arrayResort key arr n c).get i = arr.get (rotatedRight l c i)) ∧
        (∀ j, l ≤ j → j < c → key (arr.get j) < key (arr.get c)) ∧
        (0 < l → key (arr.get c) ≤ key (arr.get (l - 1)))) ∨
      ∃ r, c ≤ r ∧ r < n ∧ (∀ i, (arrayResort key arr n c).get i = arr.get (rotatedLeft c r i)) ∧
        (0 < c → key (arr.get c) ≤ key (arr.get (c - 1))) ∧
        (∀ j, c < j → j ≤ r → key (arr.get c) < key (arr.get j)) ∧
        (r + 1 < n → key (arr.get (r + 1)) ≤ key (arr.get c)) := by
  obtain ⟨hpassed, hstop⟩ := @leftIndex_spec α key arr (key (arr.get c)) c
  obtain ⟨hpassed', hstop'⟩ := @rightIndex_spec α key arr (key (arr.get c)) (n - 1 - c) c
  have hl : leftIndex key arr (key (arr.get c)) c ≤ c := leftIndex_le _ _ _
  have hr := @le_rightIndex α key arr (key (arr.get c)) (n - 1 - c) c
  by_cases hleft : leftIndex key arr (key (arr.get c)) c = c
  · right
    rw [hleft] at hstop
    have hget : ∀ i, (arrayResort key arr n c).get i =
        arr.get (rotatedLeft c (rightIndex key arr (key (arr.get c)) (n - 1 - c) c) i) := by
      intro i
      unfold arrayResort
      simp only [hleft, ne_eq, not_true_eq_false, if_false]
      by_cases hmoved : rightIndex key arr (key (arr.get c)) (n - 1 - c) c = c
      · simp [hmoved, rotatedLeft_self]
      · rw [if_neg (by omega), if_pos (by omega), if_pos hmoved, get_set_shiftLeft hr.1]
    refine ⟨_, hr.1, by omega, hget, hstop, hpassed', fun h => hstop' (by omega)⟩
  · left
    refine ⟨_, Nat.lt_of_le_of_ne hl hleft, fun i => ?_, hpassed, hstop⟩
    unfold arrayResort
    simp only
    rw [if_neg (by omega), if_pos hleft, get_set_shiftRight hl]

/-! ## The result -/

/-- The keys do not increase, if the changed item fits to those in front of it and behind it. -/
theorem sorted_of_fits (h : Reordered n arr arr' src) (hsorted : SortedApartFrom key n c arr)
    (hkeeps : ∀ i j, i < j → j < n → src i ≠ c → src j ≠ c → src i < src j)
    (hfront : ∀ i k, src k = c → i < k → k < n → key (arr.get c) ≤ key (arr.get (src i)))
    (hbehind : ∀ i k, src k = c → k < i → i < n → key (arr.get (src i)) ≤ key (arr.get c))
    (i j : ℕ) (hij : i < j) (hj : j < n) : key (arr'.get j) ≤ key (arr'.get i) := by
  rw [h.get, h.get]
  by_cases hi' : src i = c
  · rw [hi']
    exact hbehind j i hi' hij hj
  · by_cases hj' : src j = c
    · rw [hj']
      exact hfront i j hj' hij hj
    · exact hsorted _ _ (hkeeps i j hij hj hi' hj') (h.src_lt hj) hi' hj'

theorem resorted_rotatedRight {l : ℕ} (hc : c < n) (hlc : l < c)
    (hget : ∀ i, arr'.get i = arr.get (rotatedRight l c i)) (hsorted : SortedApartFrom key n c arr)
    (hpassed : ∀ j, l ≤ j → j < c → key (arr.get j) < key (arr.get c))
    (hstop : 0 < l → key (arr.get c) ≤ key (arr.get (l - 1))) :
    Resorted key n c arr arr' (rotatedRight l c) := by
  have hplace : ∀ k, rotatedRight l c k = c ↔ k = l := by
    intro k
    unfold rotatedRight
    split_ifs <;> omega
  have hkeeps : ∀ i j, i < j → j < n → rotatedRight l c i ≠ c → rotatedRight l c j ≠ c →
      rotatedRight l c i < rotatedRight l c j := by
    intro i j hij hj
    unfold rotatedRight
    split_ifs <;> omega
  have hr := reordered_rotatedRight (n := n) hlc.le hc hget
  refine { hr with sorted := ?_, keeps := hkeeps, passed_left := ?_, passed_right := ?_ }
  · refine sorted_of_fits hr hsorted hkeeps (fun i k hk hik hkn => ?_) fun i k hk hki hin => ?_
    · obtain rfl := (hplace k).mp hk
      have hi : rotatedRight k c i = i := by
        unfold rotatedRight
        split_ifs <;> omega
      rw [hi]
      rcases Nat.lt_or_ge i (k - 1) with hlt | hge
      · exact (hstop (by omega)).trans (hsorted _ _ hlt (by omega) (by omega) (by omega))
      · obtain rfl : i = k - 1 := by omega
        exact hstop (by omega)
    · obtain rfl := (hplace k).mp hk
      rcases Nat.lt_or_ge c i with hlt | hge
      · have hi : rotatedRight k c i = i := by
          unfold rotatedRight
          split_ifs <;> omega
        rw [hi]
        exact (hsorted (c - 1) i (by omega) hin (by omega) (by omega)).trans
          (hpassed (c - 1) (by omega) (by omega)).le
      · have hi : rotatedRight k c i = i - 1 := by
          unfold rotatedRight
          split_ifs <;> omega
        rw [hi]
        exact (hpassed _ (by omega) (by omega)).le
  · intro i k hk hki hin hsrc
    obtain rfl := (hplace k).mp hk
    rw [hget, hget, hk]
    refine hpassed _ ?_ hsrc
    unfold rotatedRight at hsrc ⊢
    split_ifs at hsrc ⊢ <;> omega
  · intro i k hk hik hkn hsrc
    obtain rfl := (hplace k).mp hk
    unfold rotatedRight at hsrc
    split_ifs at hsrc <;> omega

theorem resorted_rotatedLeft {r : ℕ} (hcr : c ≤ r) (hr : r < n)
    (hget : ∀ i, arr'.get i = arr.get (rotatedLeft c r i)) (hsorted : SortedApartFrom key n c arr)
    (hfirst : 0 < c → key (arr.get c) ≤ key (arr.get (c - 1)))
    (hpassed : ∀ j, c < j → j ≤ r → key (arr.get c) < key (arr.get j))
    (hstop : r + 1 < n → key (arr.get (r + 1)) ≤ key (arr.get c)) :
    Resorted key n c arr arr' (rotatedLeft c r) := by
  have hplace : ∀ k, rotatedLeft c r k = c ↔ k = r := by
    intro k
    unfold rotatedLeft
    split_ifs <;> omega
  have hkeeps : ∀ i j, i < j → j < n → rotatedLeft c r i ≠ c → rotatedLeft c r j ≠ c →
      rotatedLeft c r i < rotatedLeft c r j := by
    intro i j hij hj
    unfold rotatedLeft
    split_ifs <;> omega
  have hord := reordered_rotatedLeft (n := n) hcr hr hget
  refine { hord with sorted := ?_, keeps := hkeeps, passed_left := ?_, passed_right := ?_ }
  · refine sorted_of_fits hord hsorted hkeeps (fun i k hk hik hkn => ?_) fun i k hk hki hin => ?_
    · obtain rfl := (hplace k).mp hk
      rcases Nat.lt_or_ge i c with hlt | hge
      · have hi : rotatedLeft c k i = i := by
          unfold rotatedLeft
          split_ifs <;> omega
        rw [hi]
        rcases Nat.lt_or_ge i (c - 1) with hlt' | hge'
        · exact (hfirst (by omega)).trans (hsorted _ _ hlt' (by omega) (by omega) (by omega))
        · obtain rfl : i = c - 1 := by omega
          exact hfirst (by omega)
      · have hi : rotatedLeft c k i = i + 1 := by
          unfold rotatedLeft
          split_ifs <;> omega
        rw [hi]
        exact (hpassed _ (by omega) (by omega)).le
    · obtain rfl := (hplace k).mp hk
      have hi : rotatedLeft c k i = i := by
        unfold rotatedLeft
        split_ifs <;> omega
      rw [hi]
      rcases Nat.lt_or_ge (k + 1) i with hlt | hge
      · exact (hsorted _ _ hlt hin (by omega) (by omega)).trans (hstop (by omega))
      · obtain rfl : i = k + 1 := by omega
        exact hstop hin
  · intro i k hk hki hin hsrc
    obtain rfl := (hplace k).mp hk
    unfold rotatedLeft at hsrc
    split_ifs at hsrc <;> omega
  · intro i k hk hik hkn hsrc
    obtain rfl := (hplace k).mp hk
    rw [hget, hget, hk]
    refine hpassed _ hsrc ?_
    unfold rotatedLeft at hsrc ⊢
    split_ifs at hsrc ⊢ <;> omega

theorem exists_resorted (key : α → ℕ) (arr : Store α) (hc : c < n)
    (hsorted : SortedApartFrom key n c arr) :
    ∃ src, Resorted key n c arr (arrayResort key arr n c) src := by
  rcases arrayResort_cases key arr hc with ⟨l, hlc, hget, hpassed, hstop⟩ |
    ⟨r, hcr, hr, hget, hfirst, hpassed, hstop⟩
  · exact ⟨_, resorted_rotatedRight hc hlc hget hsorted hpassed hstop⟩
  · exact ⟨_, resorted_rotatedLeft hcr hr hget hsorted hfirst hpassed hstop⟩

/-- Resorting puts the changed item at its place, leaves the other items in their order and
does not touch those behind the first `n`. -/
theorem arrayResort_resorted (key : α → ℕ) (arr : Store α) (hc : c < n)
    (hsorted : SortedApartFrom key n c arr) :
    (∃ src, Resorted key n c arr (arrayResort key arr n c) src) ∧
      ((List.range n).map (arrayResort key arr n c).get).Perm ((List.range n).map arr.get) ∧
      (∀ i, n ≤ i → (arrayResort key arr n c).get i = arr.get i) ∧
      ∀ m, n ≤ m → (∀ i j, i < j → j < m → arr.get i ≠ arr.get j) →
        ∀ i j, i < j → j < m →
          (arrayResort key arr n c).get i ≠ (arrayResort key arr n c).get j := by
  obtain ⟨src, h⟩ := exists_resorted key arr hc hsorted
  refine ⟨⟨src, h⟩, h.perm, fun i hi => ?_, fun m hm hdistinct => h.distinct hm hdistinct⟩
  rw [h.get, h.behind i hi]

/-- The second of four items has lost its key and moves behind the two with greater ones. -/
theorem arrayResort_resorted_four :
    let arr : Store (ℕ × Char) := ⟨fun i => [(9, 'a'), (3, 'b'), (7, 'c'), (7, 'd'), (8, 'e')].getD i
      (0, '?'), []⟩
    (List.range 5).map (arrayResort Prod.fst arr 4 1).get =
        [(9, 'a'), (7, 'c'), (7, 'd'), (3, 'b'), (8, 'e')] ∧
      ∃ src, Resorted Prod.fst 4 1 arr (arrayResort Prod.fst arr 4 1) src := by
  intro arr
  have hsorted : ∀ j < 4, ∀ i < j, i ≠ 1 → j ≠ 1 → (arr.get j).1 ≤ (arr.get i).1 := by decide
  exact ⟨by decide, (arrayResort_resorted Prod.fst arr (by decide)
    fun i j hij hj => hsorted j hj i hij).1⟩

end ArrayResorter

end Pcv
