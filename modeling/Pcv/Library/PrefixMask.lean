import Mathlib.Data.Nat.Bitwise
import Mathlib.Tactic.Common
import Mathlib.Tactic.Linarith

/-!
# Masks of bits, and the intervals they stand for

A number of `w` bits is compared under a mask: `x &&& m = v` says that `x` has the bits of
`v` where the mask is set.  The numbers that do lie between `v` and `v` with every other bit
set.  They fill this interval exactly when the mask is a prefix, that is, when no bit of it is
clear above a bit that is set.
-/

namespace Pcv

/-- The complement of a number of `w` bits. -/
def bitNot (w m : ℕ) : ℕ := 2 ^ w - 1 - m

/-- The mask consists of the first bits, from the top; `z` bits are left. -/
def IsPrefixMask (w m : ℕ) : Prop := ∃ z, z ≤ w ∧ m = 2 ^ w - 2 ^ z

variable {w m v x : ℕ}

theorem testBit_bitNot (h : m < 2 ^ w) (i : ℕ) :
    (bitNot w m).testBit i = (decide (i < w) && !m.testBit i) := by
  rw [bitNot, show 2 ^ w - 1 - m = 2 ^ w - (m + 1) by omega, Nat.testBit_two_pow_sub_succ h]

theorem bitNot_lt (w m : ℕ) : bitNot w m < 2 ^ w := by
  have := Nat.two_pow_pos w
  simp only [bitNot]
  omega

theorem testBit_prefixMask {z : ℕ} (hz : z ≤ w) (i : ℕ) :
    (2 ^ w - 2 ^ z).testBit i = decide (z ≤ i ∧ i < w) := by
  have hle : 2 ^ z ≤ 2 ^ w := Nat.pow_le_pow_right (by decide) hz
  have hpos := Nat.two_pow_pos z
  have hlt : 2 ^ z - 1 < 2 ^ w := by omega
  rw [show 2 ^ w - 2 ^ z = 2 ^ w - (2 ^ z - 1 + 1) by omega, Nat.testBit_two_pow_sub_succ hlt,
    Nat.testBit_two_pow_sub_one]
  by_cases hi : i < w
  · by_cases hzi : i < z
    · simp [hi, hzi]
    · simp [hi, hzi, Nat.not_lt.mp hzi]
  · simp [hi]

theorem IsPrefixMask.lt (h : IsPrefixMask w m) : m < 2 ^ w := by
  obtain ⟨z, hz, rfl⟩ := h
  have := Nat.two_pow_pos z
  have : 2 ^ z ≤ 2 ^ w := Nat.pow_le_pow_right (by decide) hz
  omega

/-- In a prefix no bit is clear above a bit that is set. -/
theorem isPrefixMask_iff_testBit (hm : m < 2 ^ w) :
    IsPrefixMask w m ↔ ∀ i j, i < j → j < w → m.testBit i = true → m.testBit j = true := by
  constructor
  · rintro ⟨z, hz, rfl⟩ i j hij hj hi
    rw [testBit_prefixMask hz] at hi ⊢
    simp only [decide_eq_true_eq] at hi ⊢
    omega
  · intro h
    by_cases hex : ∃ i, m.testBit i = true
    · -- the lowest bit that is set
      have hlow := Nat.find_spec hex
      have hzw : Nat.find hex < w := by
        by_contra hle
        rw [Nat.testBit_lt_two_pow (hm.trans_le (Nat.pow_le_pow_right (by decide) (by omega)))]
          at hlow
        cases hlow
      refine ⟨Nat.find hex, hzw.le, Nat.eq_of_testBit_eq fun i => ?_⟩
      rw [testBit_prefixMask hzw.le]
      rcases Nat.lt_trichotomy i (Nat.find hex) with hlt | rfl | hgt
      · have := Nat.find_min hex hlt
        simp only [Bool.not_eq_true] at this
        rw [this, eq_comm, decide_eq_false_iff_not]
        omega
      · simp [hlow, hzw]
      · rcases Nat.lt_or_ge i w with hi | hi
        · rw [h _ _ hgt hi hlow]
          simp [hi, hgt.le]
        · rw [Nat.testBit_lt_two_pow (hm.trans_le (Nat.pow_le_pow_right (by decide) hi))]
          simp [hi]
    · refine ⟨w, le_rfl, ?_⟩
      rw [Nat.sub_self]
      refine Nat.eq_of_testBit_eq fun i => ?_
      simpa using fun h => hex ⟨i, h⟩

/-- Under a prefix mask, only the quotient counts. -/
theorem and_prefixMask {z : ℕ} (hx : x < 2 ^ w) (hz : z ≤ w) :
    x &&& (2 ^ w - 2 ^ z) = 2 ^ z * (x / 2 ^ z) := by
  refine Nat.eq_of_testBit_eq fun i => ?_
  rw [Nat.testBit_and, testBit_prefixMask hz, Nat.testBit_two_pow_mul, Nat.testBit_div_two_pow]
  rcases Nat.lt_or_ge i z with hi | hi
  · simp [Nat.not_le.mpr hi]
  · rw [Nat.sub_add_cancel hi]
    rcases Nat.lt_or_ge i w with hiw | hiw
    · simp [hi, hiw]
    · rw [Nat.testBit_lt_two_pow (hx.trans_le (Nat.pow_le_pow_right (by decide) hiw))]
      simp

/-- The other end of the interval of a prefix mask. -/
theorem or_bitNot_prefixMask {z q : ℕ} (hz : z ≤ w) :
    2 ^ z * q ||| bitNot w (2 ^ w - 2 ^ z) = 2 ^ z * q + (2 ^ z - 1) := by
  have hpos := Nat.two_pow_pos z
  have hle : 2 ^ z ≤ 2 ^ w := Nat.pow_le_pow_right (by decide) hz
  rw [bitNot, show 2 ^ w - 1 - (2 ^ w - 2 ^ z) = 2 ^ z - 1 by omega,
    Nat.two_pow_add_eq_or_of_lt (by omega)]

/-- The bits behind the prefix are added to a number under the mask. -/
theorem IsPrefixMask.or_bitNot (hm : IsPrefixMask w m) (hv : v &&& m = v) :
    v ||| bitNot w m = v + bitNot w m := by
  have hvlt : v < 2 ^ w := (hv ▸ Nat.and_le_right).trans_lt hm.lt
  obtain ⟨z, hz, rfl⟩ := hm
  have hle : 2 ^ z ≤ 2 ^ w := Nat.pow_le_pow_right (by decide) hz
  rw [and_prefixMask hvlt hz] at hv
  have hnot : bitNot w (2 ^ w - 2 ^ z) = 2 ^ z - 1 := by
    rw [bitNot]
    omega
  rw [← hv, or_bitNot_prefixMask hz, hnot]

/-- The interval of a prefix mask holds the numbers with the right bits. -/
theorem IsPrefixMask.interval_iff (hm : IsPrefixMask w m) (hv : v &&& m = v) (hx : x < 2 ^ w) :
    (v ≤ x ∧ x ≤ v ||| bitNot w m) ↔ x &&& m = v := by
  have hvlt : v < 2 ^ w := (hv ▸ Nat.and_le_right).trans_lt hm.lt
  obtain ⟨z, hz, rfl⟩ := hm
  have hpos := Nat.two_pow_pos z
  rw [and_prefixMask hvlt hz] at hv
  rw [← hv, or_bitNot_prefixMask hz, and_prefixMask hx hz]
  have hdiv := Nat.div_add_mod x (2 ^ z)
  have hmod := Nat.mod_lt x hpos
  constructor
  · rintro ⟨h₁, h₂⟩
    congr 1
    refine le_antisymm (Nat.le_of_lt_succ ?_) ((Nat.le_div_iff_mul_le hpos).mpr (by linarith))
    rw [Nat.div_lt_iff_lt_mul hpos]
    rw [Nat.succ_mul, mul_comm]
    omega
  · intro h
    rw [← h]
    omega

/-- A bit that is clear is set by adding it. -/
theorem or_two_pow_of_testBit {j : ℕ} (h : v.testBit j = false) : v ||| 2 ^ j = v + 2 ^ j := by
  have hlow : v % 2 ^ (j + 1) < 2 ^ j := by
    rw [Nat.testBit_eq_decide_div_mod_eq, decide_eq_false_iff_not] at h
    rw [Nat.mod_pow_succ, show v / 2 ^ j % 2 = 0 by omega, mul_zero, add_zero]
    exact Nat.mod_lt v (Nat.two_pow_pos j)
  have hsum : 2 ^ j + v % 2 ^ (j + 1) < 2 ^ (j + 1) := by
    have := pow_succ 2 j
    omega
  have hv := Nat.div_add_mod v (2 ^ (j + 1))
  have hor := Nat.two_pow_add_eq_or_of_lt hlow 1
  rw [mul_one] at hor
  calc v ||| 2 ^ j
      = 2 ^ (j + 1) * (v / 2 ^ (j + 1)) ||| (2 ^ j ||| v % 2 ^ (j + 1)) := by
        conv_lhs => rw [← hv, Nat.two_pow_add_eq_or_of_lt (Nat.mod_lt _ (Nat.two_pow_pos _))]
        rw [Nat.or_assoc, Nat.or_comm (v % _)]
    _ = 2 ^ (j + 1) * (v / 2 ^ (j + 1)) + (2 ^ j + v % 2 ^ (j + 1)) := by
        rw [← hor, Nat.two_pow_add_eq_or_of_lt hsum]
    _ = v + 2 ^ j := by omega

/-- Only prefix masks have this property. -/
theorem isPrefixMask_of_interval (hm : m < 2 ^ w) (hv : v &&& m = v)
    (h : ∀ x, x < 2 ^ w → v ≤ x → x ≤ v ||| bitNot w m → x &&& m = v) : IsPrefixMask w m := by
  have hvlt : v < 2 ^ w := (hv ▸ Nat.and_le_right).trans_lt hm
  have htop : v ||| bitNot w m < 2 ^ w := Nat.or_lt_two_pow hvlt (bitNot_lt w m)
  rw [isPrefixMask_iff_testBit hm]
  intro i j hij hj hi
  by_contra hclear
  simp only [Bool.not_eq_true] at hclear
  have hvj : v.testBit j = false := by rw [← hv, Nat.testBit_and, hclear, Bool.and_false]
  -- the clear bit `j` makes room for one step of the bit `i`, which changes that bit
  have hroom : v + 2 ^ i ≤ v ||| bitNot w m := by
    have hlt : 2 ^ i < 2 ^ j := Nat.pow_lt_pow_right (by decide) hij
    have hle : v ||| 2 ^ j ≤ v ||| bitNot w m := by
      refine Nat.le_of_testBit fun k hk => ?_
      simp only [Nat.testBit_or, testBit_bitNot hm, Nat.testBit_two_pow, Bool.or_eq_true,
        decide_eq_true_eq, Bool.and_eq_true, Bool.not_eq_true'] at hk ⊢
      rcases hk with hk | rfl
      · exact .inl hk
      · exact .inr ⟨hj, hclear⟩
    rw [or_two_pow_of_testBit hvj] at hle
    omega
  have hx := congrArg (·.testBit i) (h (v + 2 ^ i) (hroom.trans_lt htop) (Nat.le_add_right _ _) hroom)
  simp only [Nat.testBit_and, hi, Bool.and_true, Nat.add_comm v, Nat.testBit_two_pow_add_eq] at hx
  cases hb : v.testBit i <;> simp [hb] at hx

/-- Numbers that are compared with `v` under a mask determine the mask. -/
theorem mask_eq_of_forall {m' : ℕ} (hm : m < 2 ^ w) (hm' : m' < 2 ^ w) (hv : v < 2 ^ w)
    (h : ∀ x, x < 2 ^ w → (x &&& m = v &&& m ↔ x &&& m' = v &&& m')) : m = m' := by
  -- a bit of one mask alone: `v` with this bit changed is told apart by one mask only
  have key : ∀ {a b : ℕ}, a < 2 ^ w →
      (∀ x, x < 2 ^ w → x &&& b = v &&& b → x &&& a = v &&& a) →
      ∀ j, a.testBit j = true → b.testBit j = true := by
    intro a b ha hab j haj
    by_contra hbj
    simp only [Bool.not_eq_true] at hbj
    have hj : 2 ^ j < 2 ^ w := (Nat.ge_two_pow_of_testBit haj).trans_lt ha
    have hsame : (v ^^^ 2 ^ j) &&& b = v &&& b := by
      refine Nat.eq_of_testBit_eq fun i => ?_
      simp only [Nat.testBit_and, Nat.testBit_xor, Nat.testBit_two_pow]
      by_cases hij : j = i
      · subst hij
        simp [hbj]
      · simp [hij]
    have hbit := congrArg (·.testBit j) (hab _ (Nat.xor_lt_two_pow hv hj) hsame)
    simp [Nat.testBit_and, Nat.testBit_xor, haj] at hbit
  refine Nat.eq_of_testBit_eq fun j => Bool.eq_iff_iff.mpr ⟨?_, ?_⟩
  · exact key hm (fun x hx => (h x hx).mpr) j
  · exact key hm' (fun x hx => (h x hx).mp) j

end Pcv
