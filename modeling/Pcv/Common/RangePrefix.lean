import Pcv.Common.RangeMask
import Mathlib.Order.Bounds.Basic

/-!
# The common prefix of a range

The two loops that look for the mask of a range find its longest common prefix: the mask has
just the bits of the prefix, and the two byte orders agree on its length.
-/

namespace Pcv

namespace Range1d

/-- `prefix_len_le`. -/
def prefixLenLe (r : Range1d) (bytes : ℕ) : ℕ := (r.getMaskLeLen bytes).2

/-- `prefix_len_be`. -/
def prefixLenBe (r : Range1d) (bytes : ℕ) : ℕ := (r.toBe bytes).prefixLenLe bytes

/-- The first `n` of `w` bits are the same. -/
def SharePrefix (w low high n : ℕ) : Prop :=
  n ≤ w ∧ ∀ k, w - n ≤ k → k < w → low.testBit k = high.testBit k

/-- The table of masks fits to the table of lengths. -/
theorem getCommonPrefixLength_mask {a c : ℕ} (ha : a < 256) (hc : c < 256) :
    (getCommonPrefixLength a c).1 ≤ 8 ∧
      (getCommonPrefixLength a c).2 = 2 ^ 8 - 2 ^ (8 - (getCommonPrefixLength a c).1) := by
  have htables : ∀ x < 256, bytePrefix.getD x 0 ≤ 8 ∧
      maskVal.getD (bytePrefix.getD x 0) 0 = 2 ^ 8 - 2 ^ (8 - bytePrefix.getD x 0) := by
    decide +kernel
  exact htables _ (xor_byte_lt ha hc)

/-- The mask has the first bits set, as many as the loop has counted. -/
theorem getMaskLeFrom_mask (r : Range1d) (b : ℕ) :
    (getMaskLeFrom r b).2 ≤ 8 * b ∧
      (getMaskLeFrom r b).1 = 2 ^ (8 * b) - 2 ^ (8 * b - (getMaskLeFrom r b).2) := by
  induction b with
  | zero => exact ⟨le_rfl, rfl⟩
  | succ b ih =>
    obtain ⟨hle, hmask⟩ := getCommonPrefixLength_mask
      (Nat.mod_lt (r.low / 256 ^ b) (show 256 > 0 by decide))
      (Nat.mod_lt (r.high / 256 ^ b) (show 256 > 0 by decide))
    have hpow : 256 ^ b = 2 ^ (8 * b) := by rw [pow_mul]; rfl
    rw [getMaskLeFrom]
    set p := getCommonPrefixLength (r.low / 256 ^ b % 256) (r.high / 256 ^ b % 256)
    split
    · refine ⟨by simp only; omega, ?_⟩
      simp only
      rw [show 8 * (b + 1) - p.1 = 8 - p.1 + 8 * b by omega,
        show 8 * (b + 1) = 8 + 8 * b by omega, hmask, hpow, Nat.sub_mul, pow_add, pow_add]
    · next h8 =>
      have h8 : p.1 = 8 := by simpa using h8
      obtain ⟨hrest, hrestMask⟩ := ih
      have hpos := Nat.two_pow_pos (8 * b)
      have hle' : 2 ^ (8 * b - (getMaskLeFrom r b).2) ≤ 2 ^ (8 * b) :=
        Nat.pow_le_pow_right (by decide) (by omega)
      refine ⟨by simp only; omega, ?_⟩
      simp only
      rw [hmask, h8, hrestMask, hpow, show 8 * (b + 1) - (8 + (getMaskLeFrom r b).2) =
        8 * b - (getMaskLeFrom r b).2 by omega, show 8 * (b + 1) = 8 + 8 * b by omega, pow_add]
      omega

theorem getMaskLeLen_mask (r : Range1d) (bytes : ℕ) :
    r.getMaskLe bytes = 2 ^ (8 * bytes) - 2 ^ (8 * bytes - r.prefixLenLe bytes) :=
  (getMaskLeFrom_mask r bytes).2

/-- The loop finds the longest common prefix. -/
theorem isGreatest_prefixLenLe (r : Range1d) (bytes : ℕ) :
    IsGreatest {n | SharePrefix (8 * bytes) r.low r.high n} (r.prefixLenLe bytes) := by
  have hlen : r.prefixLenLe bytes ≤ 8 * bytes := (getMaskLeFrom_mask r bytes).1
  have hbit : ∀ j, (8 * bytes - r.prefixLenLe bytes ≤ j ∧ j < 8 * bytes) ↔
      j < 8 * bytes ∧ ∀ k, j ≤ k → k < 8 * bytes → r.low.testBit k = r.high.testBit k := by
    intro j
    rw [← testBit_getMaskLe, getMaskLeLen_mask, testBit_prefixMask (by omega), decide_eq_true_iff]
  constructor
  · refine ⟨hlen, fun k hk hkw => ?_⟩
    exact ((hbit k).mp ⟨hk, hkw⟩).2 k le_rfl hkw
  · rintro n ⟨hn, hshare⟩
    by_contra hlt
    have := (hbit (8 * bytes - n)).mpr ⟨by omega, hshare⟩
    omega

/-- The bounds share their first bits if nothing is left of them but these. -/
theorem SharePrefix.div_eq {w low high n : ℕ} (h : SharePrefix w low high n) (hlow : low < 2 ^ w)
    (hhigh : high < 2 ^ w) : low / 2 ^ (w - n) = high / 2 ^ (w - n) := by
  refine Nat.eq_of_testBit_eq fun k => ?_
  rw [Nat.testBit_div_two_pow, Nat.testBit_div_two_pow]
  rcases Nat.lt_or_ge (k + (w - n)) w with hk | hk
  · exact h.2 _ (Nat.le_add_left _ _) hk
  · have hpow := Nat.pow_le_pow_right (show 0 < 2 by decide) hk
    rw [Nat.testBit_lt_two_pow (hlow.trans_le hpow), Nat.testBit_lt_two_pow (hhigh.trans_le hpow)]

/-- A range shares as many bits as a range around it. -/
theorem SharePrefix.inside {w low high n l h : ℕ} (hs : SharePrefix w low high n)
    (hhigh : high < 2 ^ w) (hl : low ≤ l) (hlh : l ≤ h) (hh : h ≤ high) : SharePrefix w l h n := by
  refine ⟨hs.1, fun k hk _ => ?_⟩
  have hdiv : l / 2 ^ (w - n) = h / 2 ^ (w - n) := by
    have heq := hs.div_eq ((hl.trans (hlh.trans hh)).trans_lt hhigh) hhigh
    refine le_antisymm (Nat.div_le_div_right hlh) ?_
    calc h / 2 ^ (w - n) ≤ high / 2 ^ (w - n) := Nat.div_le_div_right hh
      _ = low / 2 ^ (w - n) := heq.symm
      _ ≤ l / 2 ^ (w - n) := Nat.div_le_div_right hl
  have hbit := congrArg (Nat.testBit · (k - (w - n))) hdiv
  simp only [Nat.testBit_div_two_pow, Nat.sub_add_cancel hk] at hbit
  exact hbit

/-- The smaller a range is, the longer is its prefix. -/
theorem prefixLenLe_le {r r' : Range1d} {bytes : ℕ} (hlow : r.low ≤ r'.low)
    (hle : r'.low ≤ r'.high) (hhigh : r'.high ≤ r.high) (hlt : r.high < 2 ^ (8 * bytes)) :
    r.prefixLenLe bytes ≤ r'.prefixLenLe bytes :=
  (isGreatest_prefixLenLe r' bytes).2
    ((isGreatest_prefixLenLe r bytes).1.inside hlt hlow hle hhigh)

/-- The masks of a range in both byte orders, and the range of a mask. -/
theorem mask_spec (bytes : ℕ) :
    (∀ r : Range1d, IsGreatest {n | SharePrefix (8 * bytes) r.low r.high n}
        (r.getMaskLeLen bytes).2 ∧
      (r.getMaskLeLen bytes).1 = 2 ^ (8 * bytes) - 2 ^ (8 * bytes - (r.getMaskLeLen bytes).2)) ∧
    (∀ r : Range1d, getMaskBeFrom bytes r =
        (swab bytes ((r.toBe bytes).getMaskLeLen bytes).1, ((r.toBe bytes).getMaskLeLen bytes).2) ∧
      r.prefixLenBe bytes = (getMaskBeFrom bytes r).2 ∧
      r.getMaskBe bytes = swab bytes ((r.toBe bytes).getMaskLe bytes)) ∧
    ∀ v m, IsPrefixMask (8 * bytes) m → v &&& m = v →
      (fromMask bytes v m).getMaskLe bytes = m ∧
      ∀ x, x < 2 ^ (8 * bytes) → ((fromMask bytes v m).inRange x = true ↔ x &&& m = v) := by
  refine ⟨fun r => ⟨isGreatest_prefixLenLe r bytes, getMaskLeLen_mask r bytes⟩, fun r => ?_,
    fun v m hm hv => ⟨getMaskLe_fromMask hm hv, fun x hx => ?_⟩⟩
  · refine ⟨getMaskBeFrom_eq_pair r bytes, ?_, getMaskBeFrom_eq r bytes⟩
    rw [getMaskBeFrom_eq_pair]
    rfl
  · rw [inRange_iff]
    exact hm.interval_iff hv hx

/-- A mask of 20 bits for a value of four bytes. -/
theorem mask_spec_word :
    (⟨0xff000000, 0xffffffff⟩ : Range1d).getMaskLeLen 4 = (0xff000000, 8) ∧
      (fromMask 4 0xf256c000 0xfffff000).getMaskLe 4 = 0xfffff000 ∧
      ∀ x, x < 2 ^ 32 →
        ((fromMask 4 0xf256c000 0xfffff000).inRange x = true ↔ x &&& 0xfffff000 = 0xf256c000) :=
  ⟨by decide +kernel, (mask_spec 4).2.2 _ _ ⟨12, by decide, by decide⟩ (by decide)⟩

end Range1d

end Pcv
