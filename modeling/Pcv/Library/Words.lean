import Mathlib.Algebra.Order.Ring.Nat
import Mathlib.Data.List.Forall2
import Mathlib.Data.Nat.Bitwise
import Mathlib.Tactic.Common
import Mathlib.Tactic.Ring

/-!
# Numbers cut into words of 16 bits

A long field is compared word by word.  For most intervals this is not the comparison of the
whole numbers, but it is for those that are aligned: the numbers that share all but their last
`z` bits.
-/

namespace Pcv

/-- The `i`-th word of a number, from the lowest. -/
def word16 (v i : ℕ) : ℕ := v / 2 ^ (16 * i) % 2 ^ 16

/-- The interval of the numbers that share all but their last `z` bits. -/
def IsAligned (low high z : ℕ) : Prop := ∃ q, low = 2 ^ z * q ∧ high = 2 ^ z * q + (2 ^ z - 1)

variable {low high z n v : ℕ}

theorem word16_zero (v : ℕ) : word16 v 0 = v % 2 ^ 16 := by simp [word16]

theorem word16_succ (v i : ℕ) : word16 v (i + 1) = word16 (v / 2 ^ 16) i := by
  rw [word16, word16, Nat.div_div_eq_div_mul, ← pow_add, Nat.mul_add, Nat.add_comm]

theorem word16_lt (v i : ℕ) : word16 v i < 2 ^ 16 := Nat.mod_lt _ (by decide)

theorem word16_of_lt (h : v < 2 ^ 16) : word16 v 0 = v := by
  rw [word16_zero, Nat.mod_eq_of_lt h]

/-- The words above the first are zero. -/
@[simp] theorem word16_zero_left (i : ℕ) : word16 0 i = 0 := by simp [word16]

theorem word16_max {i : ℕ} (h : i < n) : word16 (2 ^ (16 * n) - 1) i = 2 ^ 16 - 1 := by
  induction n generalizing i with
  | zero => omega
  | succ n ih =>
      have hpow : 2 ^ (16 * (n + 1)) = 2 ^ (16 * n) * 2 ^ 16 := by rw [Nat.mul_add, pow_add]
      have hpos := Nat.two_pow_pos (16 * n)
      cases i with
      | zero =>
          rw [word16_zero, hpow]
          omega
      | succ i =>
          have hdiv : (2 ^ (16 * (n + 1)) - 1) / 2 ^ 16 = 2 ^ (16 * n) - 1 := by
            rw [hpow]
            omega
          rw [word16_succ, hdiv, ih (by omega)]

/-- One number is an aligned interval. -/
theorem isAligned_self (v : ℕ) : IsAligned v v 0 := ⟨v, by simp, by simp⟩

theorem IsAligned.le (h : IsAligned low high z) : low ≤ high := by
  obtain ⟨q, rfl, rfl⟩ := h
  omega

/-- An aligned interval that is cut to fewer bits. -/
theorem isAligned_mod {w : ℕ} (hz : z ≤ w) (m : ℕ) :
    IsAligned (2 ^ z * m % 2 ^ w) ((2 ^ z * m + (2 ^ z - 1)) % 2 ^ w) z := by
  obtain ⟨d, rfl⟩ := Nat.exists_eq_add_of_le hz
  have hpos := Nat.two_pow_pos z
  have hmod := Nat.mod_lt m (Nat.two_pow_pos d)
  have hlt : 2 ^ z * (m % 2 ^ d) + (2 ^ z - 1) < 2 ^ z * 2 ^ d := by
    have := Nat.mul_le_mul_left (2 ^ z) (Nat.succ_le_of_lt hmod)
    rw [Nat.mul_succ] at this
    omega
  rw [pow_add]
  refine ⟨m % 2 ^ d, Nat.mul_mod_mul_left .., ?_⟩
  rw [Nat.add_mod, Nat.mul_mod_mul_left, Nat.mod_eq_of_lt (a := 2 ^ z - 1) (by omega),
    Nat.mod_eq_of_lt hlt]

/-- Without the last word, an aligned interval is aligned. -/
theorem IsAligned.div (h : IsAligned low high z) :
    IsAligned (low / 2 ^ 16) (high / 2 ^ 16) (z - 16) := by
  obtain ⟨q, rfl, rfl⟩ := h
  rcases Nat.le_total 16 z with hz | hz
  · obtain ⟨d, rfl⟩ := Nat.exists_eq_add_of_le hz
    have hpos := Nat.two_pow_pos d
    have hpow : 2 ^ (16 + d) = 2 ^ 16 * 2 ^ d := pow_add ..
    refine ⟨q, ?_, ?_⟩
    · rw [hpow, Nat.mul_assoc, Nat.mul_div_cancel_left _ (by decide), Nat.add_sub_cancel_left]
    · rw [hpow, Nat.mul_assoc, Nat.add_sub_cancel_left]
      omega
  · obtain ⟨d, hd⟩ := Nat.exists_eq_add_of_le hz
    have hpos := Nat.two_pow_pos z
    have hcut : ∀ r, r < 2 ^ z → (2 ^ z * q + r) / 2 ^ 16 = q / 2 ^ d := by
      intro r hr
      rw [hd, pow_add, ← Nat.div_div_eq_div_mul, Nat.mul_add_div hpos, Nat.div_eq_of_lt hr,
        Nat.add_zero]
    rw [Nat.sub_eq_zero_of_le hz]
    refine ⟨q / 2 ^ d, ?_, ?_⟩
    · rw [pow_zero, Nat.one_mul]
      exact hcut 0 hpos
    · rw [pow_zero, Nat.one_mul, Nat.sub_self, Nat.add_zero]
      exact hcut _ (by omega)

/-- The last word of an aligned interval is free, or it is the only one that is not fixed. -/
theorem IsAligned.last (h : IsAligned low high z) :
    low % 2 ^ 16 = 0 ∧ high % 2 ^ 16 = 2 ^ 16 - 1 ∨ low / 2 ^ 16 = high / 2 ^ 16 := by
  rcases Nat.le_total 16 z with hz | hz
  · obtain ⟨q, rfl, rfl⟩ := h
    obtain ⟨d, rfl⟩ := Nat.exists_eq_add_of_le hz
    have hpos := Nat.two_pow_pos d
    rw [pow_add, Nat.mul_assoc]
    exact .inl ⟨Nat.mul_mod_right _ _, by omega⟩
  · obtain ⟨q, hlow, hhigh⟩ := h.div
    rw [Nat.sub_eq_zero_of_le hz, pow_zero, Nat.sub_self, Nat.add_zero] at hhigh
    rw [Nat.sub_eq_zero_of_le hz, pow_zero] at hlow
    exact .inr (hlow.trans hhigh.symm)

/-- A number is compared with an aligned interval word by word. -/
theorem IsAligned.words_iff (h : IsAligned low high z) (hv : v < 2 ^ (16 * n))
    (hhigh : high < 2 ^ (16 * n)) :
    (∀ i < n, word16 low i ≤ word16 v i ∧ word16 v i ≤ word16 high i) ↔ low ≤ v ∧ v ≤ high := by
  induction n generalizing low high z v with
  | zero =>
      rw [Nat.mul_zero, pow_zero] at hv hhigh
      have := h.le
      exact ⟨fun _ => by omega, fun _ i hi => absurd hi (Nat.not_lt_zero i)⟩
  | succ n ih =>
      rw [Nat.mul_add, Nat.mul_one, pow_add, Nat.mul_comm] at hv hhigh
      have ih := ih h.div (Nat.div_lt_of_lt_mul hv) (Nat.div_lt_of_lt_mul hhigh)
      have hsplit : (∀ i < n + 1, word16 low i ≤ word16 v i ∧ word16 v i ≤ word16 high i) ↔
          (low % 2 ^ 16 ≤ v % 2 ^ 16 ∧ v % 2 ^ 16 ≤ high % 2 ^ 16) ∧
            low / 2 ^ 16 ≤ v / 2 ^ 16 ∧ v / 2 ^ 16 ≤ high / 2 ^ 16 := by
        rw [Nat.forall_lt_succ_left, ← ih]
        simp only [word16_zero, word16_succ]
      rw [hsplit]
      rcases h.last with ⟨hfirst, hlast⟩ | heq <;> omega

/-! ## Numbers put together from words -/

theorem testBit_word16 (v i : ℕ) {t : ℕ} (ht : t < 16) :
    (word16 v i).testBit t = v.testBit (16 * i + t) := by
  rw [word16, Nat.testBit_mod_two_pow, Nat.testBit_div_two_pow, Nat.add_comm t]
  simp [ht]

theorem eq_of_words {a c : ℕ} (ha : a < 2 ^ (16 * n)) (hc : c < 2 ^ (16 * n))
    (h : ∀ i < n, word16 a i = word16 c i) : a = c := by
  refine Nat.eq_of_testBit_eq fun j => ?_
  rcases Nat.lt_or_ge j (16 * n) with hj | hj
  · have := congrArg (·.testBit (j % 16)) (h (j / 16) (by omega))
    simp only [testBit_word16 _ _ (Nat.mod_lt j (show 16 > 0 by decide)), Nat.div_add_mod] at this
    exact this
  · have hle : 2 ^ (16 * n) ≤ 2 ^ j := Nat.pow_le_pow_right (by decide) hj
    rw [Nat.testBit_lt_two_pow (ha.trans_le hle), Nat.testBit_lt_two_pow (hc.trans_le hle)]

/-- The number with the given words, the lowest first. -/
def ofWords16 : List ℕ → ℕ
  | [] => 0
  | w :: ws => w + 2 ^ 16 * ofWords16 ws

theorem ofWords16_lt {ws : List ℕ} (h : ∀ w ∈ ws, w < 2 ^ 16) :
    ofWords16 ws < 2 ^ (16 * ws.length) := by
  induction ws with
  | nil => exact Nat.zero_lt_one
  | cons w ws ih =>
      rw [List.forall_mem_cons] at h
      have := ih h.2
      rw [ofWords16, List.length_cons, Nat.mul_add, Nat.mul_one, pow_add]
      have hw := h.1
      omega

theorem word16_ofWords16 {ws : List ℕ} (h : ∀ w ∈ ws, w < 2 ^ 16) (i : ℕ) :
    word16 (ofWords16 ws) i = ws.getD i 0 := by
  induction ws generalizing i with
  | nil => simp [ofWords16]
  | cons w ws ih =>
      rw [List.forall_mem_cons] at h
      rw [ofWords16]
      cases i with
      | zero =>
          rw [word16_zero, Nat.add_mul_mod_self_left, Nat.mod_eq_of_lt h.1]
          rfl
      | succ i =>
          rw [word16_succ, Nat.add_mul_div_left _ _ (by decide), Nat.div_eq_of_lt h.1,
            Nat.zero_add, ih h.2]
          rfl

/-- A word is put below a number. -/
theorem shiftLeft_or {a w : ℕ} (hw : w < 2 ^ 16) : a <<< 16 ||| w = w + 2 ^ 16 * a := by
  rw [← Nat.shiftLeft_add_eq_or_of_lt hw, Nat.shiftLeft_eq, Nat.mul_comm, Nat.add_comm]

/-! ## Lists compared piece by piece -/

section Lists

variable {ι α β : Type*} {R : α → β → Prop}

theorem forall₂_append_iff {l₁ l₂ : List α} {k₁ k₂ : List β} (hlen : l₁.length = k₁.length) :
    List.Forall₂ R (l₁ ++ l₂) (k₁ ++ k₂) ↔ List.Forall₂ R l₁ k₁ ∧ List.Forall₂ R l₂ k₂ := by
  induction l₁ generalizing k₁ with
  | nil =>
      obtain rfl := List.length_eq_zero_iff.mp hlen.symm
      simp
  | cons a l₁ ih =>
      cases k₁ with
      | nil => cases hlen
      | cons b k₁ =>
          simp only [List.cons_append, List.forall₂_cons, ih (Nat.succ.inj hlen), and_assoc]

theorem forall₂_flatMap_iff {g : ι → List α} {h : ι → List β}
    (hlen : ∀ i, (g i).length = (h i).length) (l : List ι) :
    List.Forall₂ R (l.flatMap g) (l.flatMap h) ↔ ∀ i ∈ l, List.Forall₂ R (g i) (h i) := by
  induction l with
  | nil => simp
  | cons i l ih =>
      rw [List.flatMap_cons, List.flatMap_cons, List.forall_mem_cons, ← ih]
      exact forall₂_append_iff (hlen i)

theorem forall₂_replicate_right_iff {l : List α} {b : β} {n : ℕ} (hlen : l.length = n) :
    List.Forall₂ R l (List.replicate n b) ↔ ∀ a ∈ l, R a b := by
  induction l generalizing n with
  | nil =>
      obtain rfl : n = 0 := hlen.symm
      simp
  | cons a l ih =>
      obtain rfl : n = l.length + 1 := hlen.symm
      rw [List.replicate_succ, List.forall₂_cons, ih rfl, List.forall_mem_cons]

end Lists

end Pcv
