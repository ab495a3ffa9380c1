import Pcv.Common.Range
import Pcv.Library.PrefixMask
import Mathlib.Tactic.Ring

/-!
# Ranges from masks, and the order of bytes

A value under a mask becomes a range with `fromMask`, and `getMaskLe` and `getMaskBe` find the
mask of a range.  `swab` exchanges the bytes of a value, which is how the source reads values of
the other byte order.
-/

namespace Pcv

/-- The bytes of a value of `bytes` bytes in the opposite order: `__swab16p` and its
companions. -/
def swab : ℕ → ℕ → ℕ
  | 0, _ => 0
  | bytes + 1, v => v % 256 * 256 ^ bytes + swab bytes (v / 256)

/-- `from_mask`. -/
def Range1d.fromMask (bytes low mask : ℕ) : Range1d := ⟨low, low ||| bitNot (8 * bytes) mask⟩

/-- `to_be`. -/
def Range1d.toBe (r : Range1d) (bytes : ℕ) : Range1d := ⟨swab bytes r.low, swab bytes r.high⟩

/-- The loop of `_get_mask_be`: byte 0 first, up to the last one, leaving it after the first byte
that is not shared in full. -/
def Range1d.getMaskBeFrom : ℕ → Range1d → ℕ × ℕ
  | 0, _ => (0, 0)
  | b + 1, r =>
      let p := getCommonPrefixLength (r.low % 256) (r.high % 256)
      if p.1 != 8 then (p.2, p.1)
      else
        let rest := getMaskBeFrom b ⟨r.low / 256, r.high / 256⟩
        (p.2 + 256 * rest.1, p.1 + rest.2)

/-- The mask of the common prefix of two bounds held in the other byte order. -/
def Range1d.getMaskBe (r : Range1d) (bytes : ℕ) : ℕ := (getMaskBeFrom bytes r).1

theorem swab_lt (bytes v : ℕ) : swab bytes v < 256 ^ bytes := by
  induction bytes generalizing v with
  | zero => simp [swab]
  | succ bytes ih =>
      have hmod : v % 256 ≤ 255 := Nat.le_of_lt_succ (Nat.mod_lt v (by decide))
      have hmul := Nat.mul_le_mul_right (256 ^ bytes) hmod
      have hrest := ih (v / 256)
      rw [swab, pow_succ]
      omega

@[simp] theorem swab_two (a b : ℕ) (ha : a < 256) (hb : b < 256) :
    swab 2 (a + 256 * b) = b + 256 * a := by
  have h₁ : (a + 256 * b) % 256 = a := by omega
  have h₂ : (a + 256 * b) / 256 = b := by omega
  simp only [swab, h₁, h₂, Nat.mod_eq_of_lt hb]
  omega

/-- Two bytes under a mask are compared byte by byte. -/
theorem and_two_bytes {a b c d : ℕ} (ha : a < 256) (hc : c < 256) :
    (a + 256 * b) &&& (c + 256 * d) = (a &&& c) + 256 * (b &&& d) := by
  have hac : a &&& c < 2 ^ 8 := Nat.and_le_left.trans_lt ha
  refine Nat.eq_of_testBit_eq fun i => ?_
  rw [Nat.add_comm a, Nat.add_comm c, Nat.add_comm (a &&& c), show 256 = 2 ^ 8 from rfl,
    Nat.testBit_and, Nat.testBit_two_pow_mul_add _ ha, Nat.testBit_two_pow_mul_add _ hc,
    Nat.testBit_two_pow_mul_add _ hac]
  split <;> simp [Nat.testBit_and]

/-! ## The mask of a range -/

/-- What the two tables say about the difference of two bytes. -/
private theorem tables_spec : ∀ x < 256,
    Range1d.maskVal.getD (Range1d.bytePrefix.getD x 0) 0 < 256 ∧
      (Range1d.bytePrefix.getD x 0 = 8 ↔ x = 0) ∧
      ∀ t < 8, (Range1d.maskVal.getD (Range1d.bytePrefix.getD x 0) 0).testBit t = true ↔
        ∀ k < 8, t ≤ k → x.testBit k = false := by
  decide +kernel

theorem testBit_byte (v b : ℕ) {t : ℕ} (ht : t < 8) :
    (v / 256 ^ b % 256).testBit t = v.testBit (8 * b + t) := by
  rw [show (256 : ℕ) = 2 ^ 8 from rfl, ← pow_mul, Nat.testBit_mod_two_pow,
    Nat.testBit_div_two_pow, Nat.add_comm t]
  simp [ht]

namespace Range1d

variable {a c : ℕ}

theorem xor_byte_lt (ha : a < 256) (hc : c < 256) : a ^^^ c < 256 :=
  show a ^^^ c < 2 ^ 8 from Nat.xor_lt_two_pow ha hc

theorem getCommonPrefixLength_lt (ha : a < 256) (hc : c < 256) :
    (getCommonPrefixLength a c).2 < 256 := (tables_spec _ (xor_byte_lt ha hc)).1

/-- The bytes share 8 bits if they are equal. -/
theorem getCommonPrefixLength_eq_iff (ha : a < 256) (hc : c < 256) :
    (getCommonPrefixLength a c).1 = 8 ↔ a = c := by
  exact (tables_spec _ (xor_byte_lt ha hc)).2.1.trans Nat.xor_eq_zero_iff

theorem testBit_getCommonPrefixLength (ha : a < 256) (hc : c < 256) {t : ℕ} (ht : t < 8) :
    (getCommonPrefixLength a c).2.testBit t = true ↔
      ∀ k < 8, t ≤ k → a.testBit k = c.testBit k := by
  refine ((tables_spec _ (xor_byte_lt ha hc)).2.2 t ht).trans ?_
  simp only [Nat.testBit_xor, bne_eq_false_iff_eq]

theorem getMaskLeFrom_lt (r : Range1d) (b : ℕ) : (getMaskLeFrom r b).1 < 256 ^ b := by
  induction b with
  | zero => exact Nat.zero_lt_one
  | succ b ih =>
      have hp := getCommonPrefixLength_lt (Nat.mod_lt (r.low / 256 ^ b) (by decide))
        (Nat.mod_lt (r.high / 256 ^ b) (by decide))
      have hmul := Nat.mul_le_mul_right (256 ^ b) (Nat.le_of_lt_succ hp)
      have hpos := Nat.pow_pos (show 0 < 256 by decide) (n := b)
      rw [getMaskLeFrom, pow_succ]
      split <;> simp only <;> omega

theorem getMaskLe_lt (r : Range1d) (bytes : ℕ) : r.getMaskLe bytes < 256 ^ bytes :=
  getMaskLeFrom_lt r bytes

/-- A bit of the mask is set if the bounds agree from this bit upwards. -/
theorem testBit_getMaskLeFrom (r : Range1d) (b j : ℕ) :
    (getMaskLeFrom r b).1.testBit j = true ↔
      j < 8 * b ∧ ∀ k, j ≤ k → k < 8 * b → r.low.testBit k = r.high.testBit k := by
  induction b with
  | zero => simp [getMaskLeFrom]
  | succ b ih =>
      have hlow := Nat.mod_lt (r.low / 256 ^ b) (show 256 > 0 by decide)
      have hhigh := Nat.mod_lt (r.high / 256 ^ b) (show 256 > 0 by decide)
      have hrest := getMaskLeFrom_lt r b
      set p := getCommonPrefixLength (r.low / 256 ^ b % 256) (r.high / 256 ^ b % 256) with hp
      have hpow : 256 ^ b = 2 ^ (8 * b) := by rw [pow_mul]; rfl
      -- what the byte says about the bits from `8 * b` upwards
      have hbyte : ∀ t, t < 8 → (p.2.testBit t = true ↔ ∀ k, 8 * b + t ≤ k → k < 8 * (b + 1) →
          r.low.testBit k = r.high.testBit k) := by
        intro t ht
        rw [hp, testBit_getCommonPrefixLength hlow hhigh ht]
        constructor
        · intro h k htk hk
          have := h (k - 8 * b) (by omega) (by omega)
          rwa [testBit_byte _ _ (by omega), testBit_byte _ _ (by omega),
            show 8 * b + (k - 8 * b) = k by omega] at this
        · intro h k hk htk
          rw [testBit_byte _ _ hk, testBit_byte _ _ hk]
          exact h _ (by omega) (by omega)
      have hp2 : p.2 < 2 ^ 8 := getCommonPrefixLength_lt hlow hhigh
      have htop : ∀ t, 8 ≤ t → p.2.testBit t = false := fun t ht =>
        Nat.testBit_lt_two_pow (hp2.trans_le (Nat.pow_le_pow_right (by decide) ht))
      by_cases h8 : p.1 = 8
      · have hall : ∀ k, 8 * b ≤ k → k < 8 * (b + 1) → r.low.testBit k = r.high.testBit k := by
          refine (hbyte 0 (by decide)).mp ?_
          rw [hp, testBit_getCommonPrefixLength hlow hhigh (by decide),
            (getCommonPrefixLength_eq_iff hlow hhigh).mp h8]
          exact fun _ _ _ => rfl
        rw [getMaskLeFrom]
        simp only [← hp, h8, bne_self_eq_false, Bool.false_eq_true, if_false]
        rw [hpow, Nat.mul_comm, Nat.testBit_two_pow_mul_add _ (hpow ▸ hrest)]
        split
        · next hj =>
            rw [ih]
            refine and_congr (by omega) ⟨fun h k hjk hk => ?_, fun h k hjk hk => h k hjk (by omega)⟩
            rcases Nat.lt_or_ge k (8 * b) with hkb | hkb
            · exact h k hjk hkb
            · exact hall k hkb hk
        · next hj =>
            rcases Nat.lt_or_ge (j - 8 * b) 8 with ht | ht
            · rw [hbyte _ ht]
              exact ⟨fun _ => ⟨by omega, fun k hjk hk => hall k (by omega) hk⟩,
                fun _ k hjk hk => hall k (by omega) hk⟩
            · rw [htop _ ht]
              simp only [Bool.false_eq_true, false_iff, not_and]
              omega
      · rw [getMaskLeFrom]
        simp only [← hp, bne_iff_ne, ne_eq, h8, not_false_eq_true, if_true]
        rw [hpow, Nat.mul_comm, Nat.testBit_two_pow_mul]
        rcases Nat.lt_or_ge j (8 * b) with hj | hj
        · simp only [Nat.not_le.mpr hj, decide_false, Bool.false_and, Bool.false_eq_true, false_iff]
          rintro ⟨-, h⟩
          -- a bit of this byte differs
          refine h8 ((getCommonPrefixLength_eq_iff hlow hhigh).mpr (Nat.eq_of_testBit_eq fun t => ?_))
          rcases Nat.lt_or_ge t 8 with ht | ht
          · rw [testBit_byte _ _ ht, testBit_byte _ _ ht]
            exact h _ (by omega) (by omega)
          · have hle : 2 ^ 8 ≤ 2 ^ t := Nat.pow_le_pow_right (by decide) ht
            rw [Nat.testBit_lt_two_pow (hlow.trans_le hle), Nat.testBit_lt_two_pow (hhigh.trans_le hle)]
        · simp only [hj, decide_true, Bool.true_and]
          rcases Nat.lt_or_ge (j - 8 * b) 8 with ht | ht
          · rw [hbyte _ ht, show 8 * b + (j - 8 * b) = j by omega]
            exact ⟨fun h => ⟨by omega, h⟩, And.right⟩
          · rw [htop _ ht]
            simp only [Bool.false_eq_true, false_iff, not_and]
            omega

end Range1d

/-! ## Bytes in the other order -/

theorem byte_swab {b j : ℕ} (hj : j < b) (v : ℕ) :
    swab b v / 256 ^ j % 256 = v / 256 ^ (b - 1 - j) % 256 := by
  induction b generalizing v with
  | zero => omega
  | succ b ih =>
      have hrest := swab_lt b (v / 256)
      rw [swab]
      rcases Nat.lt_or_ge j b with hjb | hjb
      · have hpow : 256 ^ b = 256 ^ j * (256 * 256 ^ (b - 1 - j)) := by
          rw [← Nat.mul_assoc, ← pow_succ, ← pow_add]
          congr 1
          omega
        rw [hpow, Nat.mul_left_comm, Nat.mul_add_div (Nat.pow_pos (by decide)),
          Nat.mul_left_comm (v % 256), Nat.mul_add_mod, ih hjb, Nat.div_div_eq_div_mul,
          show b + 1 - 1 - j = b - 1 - j + 1 by omega, pow_succ, Nat.mul_comm 256]
      · obtain rfl : j = b := by omega
        rw [Nat.mul_comm, Nat.mul_add_div (Nat.pow_pos (by decide)), Nat.div_eq_of_lt hrest,
          Nat.add_zero, Nat.mod_mod, show j + 1 - 1 - j = 0 by omega, pow_zero, Nat.div_one]

theorem eq_of_bytes {a c b : ℕ} (ha : a < 256 ^ b) (hc : c < 256 ^ b)
    (h : ∀ j < b, a / 256 ^ j % 256 = c / 256 ^ j % 256) : a = c := by
  refine Nat.eq_of_testBit_eq fun i => ?_
  rcases Nat.lt_or_ge i (8 * b) with hi | hi
  · have := congrArg (·.testBit (i % 8)) (h (i / 8) (by omega))
    simp only [testBit_byte _ _ (Nat.mod_lt i (show 8 > 0 by decide)), Nat.div_add_mod] at this
    exact this
  · have hle : 256 ^ b ≤ 2 ^ i := by
      rw [show (256 : ℕ) = 2 ^ 8 from rfl, ← pow_mul]
      exact Nat.pow_le_pow_right (by decide) hi
    rw [Nat.testBit_lt_two_pow (ha.trans_le hle), Nat.testBit_lt_two_pow (hc.trans_le hle)]

/-- Two exchanges restore the value. -/
theorem swab_swab {b v : ℕ} (hv : v < 256 ^ b) : swab b (swab b v) = v := by
  refine eq_of_bytes (swab_lt _ _) hv fun j hj => ?_
  rw [byte_swab hj, byte_swab (by omega), show b - 1 - (b - 1 - j) = j by omega]

theorem swab_eq_iff {b v w : ℕ} (hv : v < 256 ^ b) (hw : w < 256 ^ b) :
    swab b v = w ↔ v = swab b w :=
  ⟨fun h => by rw [← h, swab_swab hv], fun h => by rw [h, swab_swab hw]⟩

/-- A mask may be applied in either order of the bytes. -/
theorem swab_and (b x y : ℕ) : swab b (x &&& y) = swab b x &&& swab b y := by
  refine eq_of_bytes (swab_lt _ _) (Nat.and_le_left.trans_lt (swab_lt _ _)) fun j hj => ?_
  have hbyte : ∀ a c t : ℕ,
      (a &&& c) / 256 ^ t % 256 = (a / 256 ^ t % 256) &&& (c / 256 ^ t % 256) := by
    intro a c t
    rw [show (256 : ℕ) = 2 ^ 8 from rfl, ← pow_mul]
    simp only [← Nat.shiftRight_eq_div_pow, Nat.shiftRight_and_distrib, Nat.and_mod_two_pow]
  rw [byte_swab hj, hbyte, hbyte, byte_swab hj, byte_swab hj]

@[simp] theorem swab_zero (b : ℕ) : swab b 0 = 0 := by
  induction b with
  | zero => rfl
  | succ b ih => simp [swab, ih]

/-- The first byte of a value becomes the last one. -/
theorem swab_mul_add {b t rest : ℕ} (ht : t < 256) (hrest : rest < 256 ^ b) :
    swab (b + 1) (t * 256 ^ b + rest) = t + 256 * swab b rest := by
  have hpos : 0 < 256 ^ b := Nat.pow_pos (by decide)
  have hswab := swab_lt b rest
  refine eq_of_bytes (swab_lt _ _) (by rw [pow_succ]; omega) fun j hj => ?_
  rw [byte_swab hj, Nat.add_sub_cancel]
  rcases Nat.eq_zero_or_pos j with rfl | hjpos
  · rw [Nat.sub_zero, Nat.mul_comm, Nat.mul_add_div hpos, Nat.div_eq_of_lt hrest]
    simp [Nat.mod_eq_of_lt ht]
  · obtain ⟨i, rfl⟩ := Nat.exists_eq_succ_of_ne_zero hjpos.ne'
    have hpow : 256 ^ b = 256 ^ (b - (i + 1)) * (256 * 256 ^ i) := by
      rw [← pow_succ', ← pow_add]
      congr 1
      omega
    rw [pow_succ', ← Nat.div_div_eq_div_mul, Nat.add_mul_div_left _ _ (by decide),
      Nat.div_eq_of_lt ht, Nat.zero_add, byte_swab (by omega), hpow, Nat.mul_left_comm,
      Nat.mul_add_div (Nat.pow_pos (by decide)), Nat.mul_left_comm t, Nat.mul_add_mod,
      show b - 1 - i = b - (i + 1) by omega]

namespace Range1d

/-- The mask depends on the bytes of the bounds only. -/
theorem getMaskLeFrom_congr {r s : Range1d} {b : ℕ}
    (hlow : ∀ j < b, r.low / 256 ^ j % 256 = s.low / 256 ^ j % 256)
    (hhigh : ∀ j < b, r.high / 256 ^ j % 256 = s.high / 256 ^ j % 256) :
    getMaskLeFrom r b = getMaskLeFrom s b := by
  induction b with
  | zero => rfl
  | succ b ih =>
      rw [getMaskLeFrom, getMaskLeFrom, hlow b (Nat.lt_succ_self b), hhigh b (Nat.lt_succ_self b),
        ih (fun j hj => hlow j (by omega)) (fun j hj => hhigh j (by omega))]

/-- The two loops find the same prefix, each in its own byte order. -/
theorem getMaskBeFrom_eq_pair (r : Range1d) (b : ℕ) :
    getMaskBeFrom b r =
      (swab b (getMaskLeFrom (r.toBe b) b).1, (getMaskLeFrom (r.toBe b) b).2) := by
  induction b generalizing r with
  | zero => rfl
  | succ b ih =>
      have hfirst : ∀ v, swab (b + 1) v / 256 ^ b % 256 = v % 256 := by
        intro v
        rw [byte_swab (Nat.lt_succ_self b), show b + 1 - 1 - b = 0 by omega, pow_zero, Nat.div_one]
      have hrest : getMaskLeFrom (r.toBe (b + 1)) b =
          getMaskLeFrom (toBe ⟨r.low / 256, r.high / 256⟩ b) b := by
        have hbyte : ∀ v, ∀ j < b,
            swab (b + 1) v / 256 ^ j % 256 = swab b (v / 256) / 256 ^ j % 256 := by
          intro v j hj
          rw [byte_swab (by omega), byte_swab hj, Nat.div_div_eq_div_mul, ← pow_succ',
            show b + 1 - 1 - j = b - 1 - j + 1 by omega]
        exact getMaskLeFrom_congr (hbyte r.low) (hbyte r.high)
      have hp := getCommonPrefixLength_lt (Nat.mod_lt r.low (show 256 > 0 by decide))
        (Nat.mod_lt r.high (show 256 > 0 by decide))
      rw [getMaskLeFrom, getMaskBeFrom]
      simp only [toBe, hfirst]
      split
      · rw [← Nat.add_zero (_ * 256 ^ b), swab_mul_add hp (Nat.pow_pos (by decide)), swab_zero,
          Nat.mul_zero, Nat.add_zero]
      · rw [swab_mul_add hp (getMaskLeFrom_lt _ b), ih, ← hrest]
        rfl

theorem getMaskBeFrom_eq (r : Range1d) (b : ℕ) :
    (getMaskBeFrom b r).1 = swab b (getMaskLeFrom (r.toBe b) b).1 :=
  congrArg Prod.fst (getMaskBeFrom_eq_pair r b)

/-- The mask of a range held in the other byte order. -/
theorem getMaskBe_toBe {r : Range1d} {bytes : ℕ} (hlow : r.low < 256 ^ bytes)
    (hhigh : r.high < 256 ^ bytes) :
    (r.toBe bytes).getMaskBe bytes = swab bytes (r.getMaskLe bytes) := by
  rw [getMaskBe, getMaskBeFrom_eq]
  simp only [toBe, swab_swab hlow, swab_swab hhigh]
  rfl

theorem testBit_getMaskLe (r : Range1d) (bytes j : ℕ) :
    (r.getMaskLe bytes).testBit j = true ↔
      j < 8 * bytes ∧ ∀ k, j ≤ k → k < 8 * bytes → r.low.testBit k = r.high.testBit k :=
  testBit_getMaskLeFrom r bytes j

/-- A value under a prefix mask gives the mask back. -/
theorem getMaskLe_fromMask {bytes v m : ℕ} (hm : IsPrefixMask (8 * bytes) m) (hv : v &&& m = v) :
    (fromMask bytes v m).getMaskLe bytes = m := by
  have hmono := (isPrefixMask_iff_testBit hm.lt).mp hm
  refine Nat.eq_of_testBit_eq fun j => Bool.eq_iff_iff.mpr ?_
  rw [testBit_getMaskLe]
  have hagree : ∀ k, k < 8 * bytes →
      (v.testBit k = (v ||| bitNot (8 * bytes) m).testBit k ↔ m.testBit k = true) := by
    intro k hk
    have hvk := congrArg (·.testBit k) hv
    simp only [Nat.testBit_and] at hvk
    rw [Nat.testBit_or, testBit_bitNot hm.lt]
    revert hvk
    cases v.testBit k <;> cases m.testBit k <;> simp [hk]
  constructor
  · rintro ⟨hj, h⟩
    exact (hagree j hj).mp (h j le_rfl hj)
  · intro hj
    have hlt : j < 8 * bytes := by
      by_contra hge
      rw [Nat.testBit_lt_two_pow (hm.lt.trans_le (Nat.pow_le_pow_right (by decide) (by omega)))]
        at hj
      cases hj
    refine ⟨hlt, fun k hjk hk => (hagree k hk).mpr ?_⟩
    rcases Nat.eq_or_lt_of_le hjk with rfl | hjk
    · exact hj
    · exact hmono j k hjk hk hj

end Range1d

end Pcv
