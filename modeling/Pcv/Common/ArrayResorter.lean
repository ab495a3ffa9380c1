import Pcv.Library.Store
import Mathlib.Tactic.Common

/-!
# Resorting an array after the key of one item has changed

`arrayResort` moves one item of an array, that is otherwise sorted by
non-increasing keys, to its place: first to the left, and if it does not move
there, to the right.
-/

namespace Pcv

namespace ArrayResorter

variable {α : Type} (key : α → ℕ)

/-- The index the scan to the left stops at. -/
def leftIndex (arr : Store α) (p : ℕ) : ℕ → ℕ
  | 0 => 0
  | i + 1 => if key (arr.get i) < p then leftIndex arr p i else i + 1

/-- The index the scan to the right stops at; `steps` items are left. -/
def rightIndex (arr : Store α) (p : ℕ) : ℕ → ℕ → ℕ
  | 0, i => i
  | steps + 1, i => if key (arr.get (i + 1)) > p then rightIndex arr p steps (i + 1) else i

/-- `for (i2 = i + steps; i2 > i; i2--) arr[i2] = arr[i2 - 1]`. -/
def shiftRight (i : ℕ) : ℕ → Store α → Store α
  | 0, arr => arr
  | steps + 1, arr => shiftRight i steps (arr.set (i + steps + 1) (arr.get (i + steps)))

/-- `for (i2 = i; steps times; i2++) arr[i2] = arr[i2 + 1]`. -/
def shiftLeft : ℕ → ℕ → Store α → Store α
  | _, 0, arr => arr
  | i, steps + 1, arr => shiftLeft (i + 1) steps (arr.set i (arr.get (i + 1)))

/-- `array_resort`. -/
def arrayResort (arr : Store α) (actualSize changedItemIndex : ℕ) : Store α :=
  if actualSize = 1 then arr
  else
    let tmp := arr.get changedItemIndex
    let p := key tmp
    let i := leftIndex key arr p changedItemIndex
    if i ≠ changedItemIndex then
      (shiftRight i (changedItemIndex - i) arr).set i tmp
    else if changedItemIndex < actualSize - 1 then
      let i := rightIndex key arr p (actualSize - 1 - changedItemIndex) changedItemIndex
      if i ≠ changedItemIndex then
        (shiftLeft changedItemIndex (i - changedItemIndex) arr).set i tmp
      else arr
    else arr

/-! ## Where the items go -/

/-- The array `arr'` holds the items of `arr` in another order; `src` tells where an item was.
The items behind the first `n` stay where they are. -/
structure Reordered (n : ℕ) (arr arr' : Store α) (src : ℕ → ℕ) : Prop where
  get : ∀ i, arr'.get i = arr.get (src i)
  injective : Function.Injective src
  exists_src : ∀ i, i < n → ∃ j, j < n ∧ src j = i
  behind : ∀ i, n ≤ i → src i = i

namespace Reordered

variable {n : ℕ} {arr arr' : Store α} {src : ℕ → ℕ}

theorem refl (n : ℕ) (arr : Store α) : Reordered n arr arr id :=
  ⟨fun _ => rfl, Function.injective_id, fun i hi => ⟨i, hi, rfl⟩, fun _ _ => rfl⟩

theorem trans {arr'' : Store α} {src' : ℕ → ℕ} (h : Reordered n arr arr' src)
    (h' : Reordered n arr' arr'' src') : Reordered n arr arr'' (src ∘ src') where
  get := fun i => by rw [h'.get, h.get, Function.comp]
  injective := h.injective.comp h'.injective
  exists_src := by
    intro i hi
    obtain ⟨j, hj, rfl⟩ := h.exists_src i hi
    obtain ⟨k, hk, rfl⟩ := h'.exists_src j hj
    exact ⟨k, hk, rfl⟩
  behind := fun i hi => by rw [Function.comp, h'.behind i hi, h.behind i hi]

theorem src_lt (h : Reordered n arr arr' src) {i : ℕ} (hi : i < n) : src i < n := by
  by_contra hge
  have := h.behind (src i) (Nat.not_lt.mp hge)
  have := h.injective this
  omega

theorem mono (h : Reordered n arr arr' src) {m : ℕ} (hnm : n ≤ m) :
    Reordered m arr arr' src where
  get := h.get
  injective := h.injective
  exists_src := by
    intro i hi
    rcases Nat.lt_or_ge i n with hlt | hge
    · obtain ⟨j, hj, hsrc⟩ := h.exists_src i hlt
      exact ⟨j, by omega, hsrc⟩
    · exact ⟨i, hi, h.behind i hge⟩
  behind := fun i hi => h.behind i (by omega)

end Reordered

/-- Where the item at `i` was before item `c` was moved to the front of the items from `l` on. -/
def rotatedRight (l c i : ℕ) : ℕ := if i = l then c else if l < i ∧ i ≤ c then i - 1 else i

/-- Where the item at `i` was before item `c` was moved behind the items up to `r`. -/
def rotatedLeft (c r i : ℕ) : ℕ := if i = r then c else if c ≤ i ∧ i < r then i + 1 else i

variable {key}

theorem get_shiftRight (i steps : ℕ) (arr : Store α) (j : ℕ) :
    (shiftRight i steps arr).get j = if i < j ∧ j ≤ i + steps then arr.get (j - 1)
      else arr.get j := by
  induction steps generalizing arr with
  | zero =>
      rw [if_neg (by omega)]
      rfl
  | succ steps ih =>
      rw [shiftRight, ih]
      simp only [Store.get_set]
      by_cases hj : j = i + steps + 1
      · subst hj
        rw [if_neg (by omega), if_pos rfl, if_pos (by omega), Nat.add_sub_cancel]
      · rw [if_neg hj]
        by_cases hin : i < j ∧ j ≤ i + steps
        · rw [if_pos hin, if_neg (by omega), if_pos (by omega)]
        · rw [if_neg hin, if_neg (by omega)]

theorem get_shiftLeft (i steps : ℕ) (arr : Store α) (j : ℕ) :
    (shiftLeft i steps arr).get j = if i ≤ j ∧ j < i + steps then arr.get (j + 1)
      else arr.get j := by
  induction steps generalizing arr i with
  | zero =>
      rw [if_neg (by omega)]
      rfl
  | succ steps ih =>
      rw [shiftLeft, ih]
      simp only [Store.get_set]
      by_cases hj : j = i
      · subst hj
        rw [if_neg (by omega), if_pos rfl, if_pos (by omega)]
      · rw [if_neg hj]
        by_cases hin : i + 1 ≤ j ∧ j < i + 1 + steps
        · rw [if_pos hin, if_neg (by omega), if_pos (by omega)]
        · rw [if_neg hin, if_neg (by omega)]

theorem leftIndex_le (arr : Store α) (p i : ℕ) : leftIndex key arr p i ≤ i := by
  induction i with
  | zero => exact le_rfl
  | succ i ih =>
      rw [leftIndex]
      split <;> omega

theorem le_rightIndex (arr : Store α) (p steps i : ℕ) :
    i ≤ rightIndex key arr p steps i ∧ rightIndex key arr p steps i ≤ i + steps := by
  induction steps generalizing i with
  | zero => exact ⟨le_rfl, le_rfl⟩
  | succ steps ih =>
      rw [rightIndex]
      split
      · have := ih (i + 1)
        omega
      · omega

theorem reordered_rotatedRight {n l c : ℕ} {arr arr' : Store α} (hlc : l ≤ c) (hc : c < n)
    (h : ∀ i, arr'.get i = arr.get (rotatedRight l c i)) :
    Reordered n arr arr' (rotatedRight l c) where
  get := h
  injective := by
    intro i j hij
    unfold rotatedRight at hij
    split_ifs at hij <;> omega
  exists_src := by
    intro i hi
    refine ⟨if i = c then l else if l ≤ i ∧ i < c then i + 1 else i, ?_, ?_⟩
    · split_ifs <;> omega
    · unfold rotatedRight
      split_ifs <;> omega
  behind := by
    intro i hi
    unfold rotatedRight
    rw [if_neg (by omega), if_neg (by omega)]

theorem reordered_rotatedLeft {n c r : ℕ} {arr arr' : Store α} (hcr : c ≤ r) (hr : r < n)
    (h : ∀ i, arr'.get i = arr.get (rotatedLeft c r i)) :
    Reordered n arr arr' (rotatedLeft c r) where
  get := h
  injective := by
    intro i j hij
    unfold rotatedLeft at hij
    split_ifs at hij <;> omega
  exists_src := by
    intro i hi
    refine ⟨if i = c then r else if c < i ∧ i ≤ r then i - 1 else i, ?_, ?_⟩
    · split_ifs <;> omega
    · unfold rotatedLeft
      split_ifs <;> omega
  behind := by
    intro i hi
    unfold rotatedLeft
    rw [if_neg (by omega), if_neg (by omega)]

/-- The items after the changed one was put in front of those from `l` on. -/
theorem get_set_shiftRight {l c : ℕ} (hlc : l ≤ c) (arr : Store α) (i : ℕ) :
    ((shiftRight l (c - l) arr).set l (arr.get c)).get i = arr.get (rotatedRight l c i) := by
  rw [Store.get_set, get_shiftRight, rotatedRight, Nat.add_sub_cancel' hlc]
  split
  · rfl
  · split <;> rfl

/-- The items after the changed one was put behind those up to `r`. -/
theorem get_set_shiftLeft {c r : ℕ} (hcr : c ≤ r) (arr : Store α) (i : ℕ) :
    ((shiftLeft c (r - c) arr).set r (arr.get c)).get i = arr.get (rotatedLeft c r i) := by
  rw [Store.get_set, get_shiftLeft, rotatedLeft, Nat.add_sub_cancel' hcr]
  split
  · rfl
  · split <;> rfl

/-- Resorting reorders the items. -/
theorem arrayResort_reordered (key : α → ℕ) (arr : Store α) {n c : ℕ} (hc : c < n) :
    ∃ src, Reordered n arr (arrayResort key arr n c) src := by
  unfold arrayResort
  split
  · exact ⟨id, .refl n arr⟩
  · have hl : leftIndex key arr (key (arr.get c)) c ≤ c := leftIndex_le _ _ _
    have hr : c ≤ rightIndex key arr (key (arr.get c)) (n - 1 - c) c ∧
        rightIndex key arr (key (arr.get c)) (n - 1 - c) c ≤ c + (n - 1 - c) :=
      le_rightIndex _ _ _ _
    simp only
    split
    · exact ⟨_, reordered_rotatedRight hl hc (get_set_shiftRight hl arr)⟩
    · split
      · split
        · exact ⟨_, reordered_rotatedLeft hr.1 (by omega) (get_set_shiftLeft hr.1 arr)⟩
        · exact ⟨id, .refl n arr⟩
      · exact ⟨id, .refl n arr⟩

end ArrayResorter

end Pcv
