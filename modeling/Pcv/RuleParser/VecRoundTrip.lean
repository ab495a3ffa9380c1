import Pcv.RuleParser.RuleVecUtils
import Mathlib.Tactic.IntervalCases

/-!
# What the vector codec gives back

For each kind of field a value and its mask are written and read again from the same index.  A
field of one or of eight segments comes back, with the exceptions of the 16-bit rule forms.  The
fields of two, three or four segments are written from the lowest word and read from the highest,
or the other way round, so that only a value that reads the same from both ends comes back.
-/

namespace Pcv

variable {α : Type*} {n k i z : ℕ} {v m V M X Y : ℕ}

/-! ## Values written to an array -/

theorem pushAll_fst (xs : List α) (i : ℕ) (dst : ℕ → α) : (pushAll xs i dst).1 = i + xs.length := by
  induction xs generalizing i dst with
  | nil => rfl
  | cons x xs ih =>
      rw [List.length_cons, Nat.add_comm xs.length, ← Nat.add_assoc]
      exact ih (i + 1) _

/-- What stands before the index is kept. -/
theorem pushAll_of_lt (xs : List α) (dst : ℕ → α) {j : ℕ} (h : j < i) :
    (pushAll xs i dst).2 j = dst j := by
  induction xs generalizing i dst with
  | nil => rfl
  | cons x xs ih => exact (ih _ (Nat.lt_succ_of_lt h)).trans (Function.update_of_ne h.ne _ _)

/-- The values stand one after the other. -/
theorem pushAll_getElem (xs : List α) (i : ℕ) (dst : ℕ → α) {j : ℕ} (h : j < xs.length) :
    (pushAll xs i dst).2 (i + j) = xs[j] := by
  induction xs generalizing i j dst with
  | nil => cases h
  | cons x xs ih =>
      cases j with
      | zero => exact (pushAll_of_lt xs _ (Nat.lt_succ_self i)).trans (Function.update_self i x dst)
      | succ j =>
          rw [← Nat.add_assoc, Nat.add_right_comm]
          exact ih (i + 1) _ (Nat.lt_of_succ_lt_succ h)

theorem pushAll_map {ι : Type*} (g : ι → α) (l : List ι) (i : ℕ) (dst : ℕ → α) {j : ℕ}
    (h : j < l.length) : (pushAll (l.map g) i dst).2 (i + j) = g l[j] := by
  rw [pushAll_getElem _ _ _ (by simpa using h), List.getElem_map]

/-! ## Words under a mask -/

theorem word16_and (a c i : ℕ) : word16 (a &&& c) i = word16 a i &&& word16 c i := by
  simp only [word16, ← Nat.shiftRight_eq_div_pow, Nat.shiftRight_and_distrib, Nat.and_mod_two_pow]

theorem word16_or_bitNot (hM : M < 2 ^ (16 * n)) (hi : i < n) :
    word16 (V ||| bitNot (16 * n) M) i = word16 V i ||| bitNot 16 (word16 M i) := by
  refine Nat.eq_of_testBit_eq fun t => ?_
  rcases Nat.lt_or_ge t 16 with ht | ht
  · rw [testBit_word16 _ _ ht, Nat.testBit_or, Nat.testBit_or, testBit_bitNot hM,
      testBit_bitNot (word16_lt M i), testBit_word16 _ _ ht, testBit_word16 _ _ ht]
    simp [ht, show 16 * i + t < 16 * n by omega]
  · have hle : 2 ^ 16 ≤ 2 ^ t := Nat.pow_le_pow_right (by decide) ht
    rw [Nat.testBit_lt_two_pow ((word16_lt _ i).trans_le hle), Nat.testBit_lt_two_pow
      ((Nat.or_lt_two_pow (word16_lt V i) (bitNot_lt 16 _)).trans_le hle)]

/-- The words of a prefix are prefixes. -/
theorem IsPrefixMask.word16 (hM : IsPrefixMask (16 * n) M) (hi : i < n) :
    IsPrefixMask 16 (word16 M i) := by
  rw [isPrefixMask_iff_testBit (word16_lt M i)]
  intro s t hst ht hs
  rw [testBit_word16 _ _ (hst.trans ht)] at hs
  rw [testBit_word16 _ _ ht]
  exact (isPrefixMask_iff_testBit hM.lt).mp hM _ _ (by omega) (by omega) hs

/-- The words of a structure, each read in the other byte order, are the words of the structure
read in the other byte order, from the other end. -/
theorem swab_word16 (v : ℕ) (hi : i < n) :
    swab 2 (word16 v i) = word16 (swab (2 * n) v) (n - 1 - i) := by
  refine eq_of_bytes (swab_lt _ _) (word16_lt _ _) fun j hj => ?_
  have hbyte : ∀ a s t, t < 2 → word16 a s / 256 ^ t % 256 = a / 256 ^ (2 * s + t) % 256 := by
    intro a s t ht
    have hpow : 2 ^ 16 = 256 ^ t * (256 * 256 ^ (1 - t)) := by
      rw [← pow_succ', ← pow_add, show t + (1 - t + 1) = 2 by omega]
      rfl
    rw [Pcv.word16, hpow, Nat.mod_mul_right_div_self, Nat.mod_mul_right_mod, pow_mul,
      Nat.div_div_eq_div_mul, pow_add, pow_mul]
    rfl
  rw [byte_swab hj, hbyte _ _ _ (by omega), hbyte _ _ _ hj, byte_swab (by omega),
    show 2 * n - 1 - (2 * (n - 1 - i) + j) = 2 * i + (2 - 1 - j) by omega]

/-! ## Words in the other order -/

/-- The words of the number read the same from both ends. -/
def Palindrome (n V : ℕ) : Prop := ∀ i < n, word16 V i = word16 V (n - 1 - i)

theorem eq_iff_palindrome (hX : X < 2 ^ (16 * n)) (hV : V < 2 ^ (16 * n))
    (hwords : ∀ i < n, word16 X i = word16 V (n - 1 - i)) : X = V ↔ Palindrome n V := by
  constructor
  · rintro rfl
    exact hwords
  · exact fun h => eq_of_words hX hV fun i hi => (hwords i hi).trans (h i hi).symm

/-- A range whose words are put together in the other order has the value and the mask it was
made of if the mask is empty, or if it is full and the value is a palindrome. -/
theorem reversed_iff (hn : 2 ≤ n) (hM : IsPrefixMask (16 * n) M) (hV : V &&& M = V)
    (hX : X < 2 ^ (16 * n)) (hwordsX : ∀ i < n, word16 X i = word16 V (n - 1 - i))
    (hwordsY : ∀ i < n, word16 Y i = word16 (V ||| bitNot (16 * n) M) (n - 1 - i)) :
    (X = V ∧ (⟨X, Y⟩ : Range1d).getMaskLe (2 * n) = M) ↔
      M = 0 ∨ M = 2 ^ (16 * n) - 1 ∧ Palindrome n V := by
  have hVlt : V < 2 ^ (16 * n) := (hV ▸ Nat.and_le_right).trans_lt hM.lt
  have hpal := eq_iff_palindrome hX hVlt hwordsX
  have hbitX : ∀ i < n, ∀ t < 16, X.testBit (16 * i + t) = V.testBit (16 * (n - 1 - i) + t) := by
    intro i hi t ht
    rw [← testBit_word16 _ _ ht, hwordsX i hi, testBit_word16 _ _ ht]
  have hbitY : ∀ i < n, ∀ t < 16, Y.testBit (16 * i + t) =
      (V.testBit (16 * (n - 1 - i) + t) || !M.testBit (16 * (n - 1 - i) + t)) := by
    intro i hi t ht
    rw [← testBit_word16 _ _ ht, hwordsY i hi, testBit_word16 _ _ ht, Nat.testBit_or,
      testBit_bitNot hM.lt]
    simp [show 16 * (n - 1 - i) + t < 16 * n by omega]
  constructor
  · rintro ⟨hXV, hmask⟩
    obtain ⟨z, hz, rfl⟩ := hM
    rcases Nat.eq_zero_or_pos z with rfl | hzpos
    · exact .inr ⟨rfl, hpal.mp hXV⟩
    rcases Nat.eq_or_lt_of_le hz with rfl | hzlt
    · exact .inl (Nat.sub_self _)
    -- the highest free bit of the lowest word is found in the highest word
    set t := min z 16 - 1 with ht
    have htop : (2 ^ (16 * n) - 2 ^ z).testBit (16 * (n - 1) + t) = true := by
      rw [testBit_prefixMask hz, decide_eq_true_eq]
      omega
    have hfree : (2 ^ (16 * n) - 2 ^ z).testBit t = false := by
      rw [testBit_prefixMask hz, decide_eq_false_iff_not]
      omega
    have hVt : V.testBit t = false := by rw [← hV, Nat.testBit_and, hfree, Bool.and_false]
    rw [← hmask, Range1d.testBit_getMaskLe] at htop
    have hagree := htop.2 _ le_rfl (by omega)
    simp only at hagree
    rw [hbitX _ (by omega) _ (by omega), hbitY _ (by omega) _ (by omega), Nat.sub_self,
      Nat.mul_zero, Nat.zero_add, hVt, hfree] at hagree
    cases hagree
  · rintro (rfl | ⟨rfl, h⟩)
    · obtain rfl : V = 0 := by rw [← hV, Nat.and_zero]
      refine ⟨hpal.mpr fun i _ => by simp only [word16_zero_left], Nat.eq_of_testBit_eq fun j => ?_⟩
      rw [Nat.zero_testBit, ← Bool.not_eq_true, Range1d.testBit_getMaskLe]
      rintro ⟨hj, hagree⟩
      have := hagree (16 * (n - 1) + 15) (by omega) (by omega)
      simp only at this
      rw [hbitX _ (by omega) _ (by omega), hbitY _ (by omega) _ (by omega)] at this
      simp at this
    · refine ⟨hpal.mpr h, Nat.eq_of_testBit_eq fun j => Bool.eq_iff_iff.mpr ?_⟩
      rw [Range1d.testBit_getMaskLe, Nat.testBit_two_pow_sub_one, decide_eq_true_eq,
        show 8 * (2 * n) = 16 * n by omega]
      refine ⟨And.left, fun hj => ⟨hj, fun k _ hk => ?_⟩⟩
      have hX := hbitX (k / 16) (by omega) (k % 16) (by omega)
      have hY := hbitY (k / 16) (by omega) (k % 16) (by omega)
      rw [Nat.div_add_mod] at hX hY
      show X.testBit k = Y.testBit k
      rw [hX, hY, Nat.testBit_two_pow_sub_one]
      simp [show 16 * (n - 1 - k / 16) + k % 16 < 16 * n by omega]

/-- The words of a number in the other order. -/
def revWords (n V : ℕ) : ℕ := ofWords16 ((List.range n).map fun i => word16 V (n - 1 - i))

theorem lt_of_mem_revWords (n V : ℕ) :
    ∀ w ∈ (List.range n).map fun i => word16 V (n - 1 - i), w < 2 ^ 16 :=
  List.forall_mem_map.mpr fun _ _ => word16_lt _ _

theorem word16_revWords (V : ℕ) {i : ℕ} (hi : i < n) :
    word16 (revWords n V) i = word16 V (n - 1 - i) := by
  rw [revWords, word16_ofWords16 (lt_of_mem_revWords n V)]
  simp [List.getD_eq_getElem?_getD, hi]

theorem two_pow_words (n : ℕ) : 2 ^ (16 * n) = 256 ^ (2 * n) := by
  rw [show (256 : ℕ) = 2 ^ 8 from rfl, ← pow_mul, ← Nat.mul_assoc]

theorem revWords_lt {b : ℕ} (hb : 2 * n = b) (V : ℕ) : revWords n V < 256 ^ b := by
  have := ofWords16_lt (lt_of_mem_revWords n V)
  rwa [List.length_map, List.length_range, two_pow_words, hb] at this

theorem revWords_iff (hn : 2 ≤ n) (hM : IsPrefixMask (16 * n) M) (hV : V &&& M = V) :
    (revWords n V = V ∧ (⟨revWords n V, revWords n (V ||| bitNot (16 * n) M)⟩ : Range1d).getMaskLe
        (2 * n) = M) ↔ M = 0 ∨ M = 2 ^ (16 * n) - 1 ∧ Palindrome n V :=
  reversed_iff hn hM hV (two_pow_words n ▸ revWords_lt rfl V) (fun _ hi => word16_revWords V hi)
    fun _ hi => word16_revWords _ hi

section Read

variable {s : ℕ → ℕ}

/-- Two words that are put together the first one highest. -/
theorem revWords_two (h : ∀ j < 2, s j = word16 V j) : s 0 <<< 16 ||| s 1 = revWords 2 V := by
  rw [h 0 (by decide), h 1 (by decide), shiftLeft_or (word16_lt V 1)]
  simp [revWords, List.range_succ, ofWords16]

theorem revWords_four (h : ∀ j < 4, s j = word16 V j) :
    [0, 1, 2, 3].foldl (fun low i2 => low <<< 16 ||| s i2) 0 = revWords 4 V := by
  simp only [List.foldl_cons, List.foldl_nil, h 0 (by decide), h 1 (by decide), h 2 (by decide),
    h 3 (by decide), shiftLeft_or (word16_lt V _)]
  simp [revWords, List.range_succ, ofWords16]

/-- A third word is followed by an empty one. -/
theorem revWords_three (h : ∀ j < 3, s j = word16 V j) :
    [0, 1, 2].foldl (fun low i2 => (low ||| s i2) <<< 16) 0 = 2 ^ 16 * revWords 3 V := by
  rw [List.foldl_cons, List.foldl_cons, List.foldl_cons, List.foldl_nil, h 0 (by decide),
    h 1 (by decide), h 2 (by decide), Nat.zero_or, shiftLeft_or (word16_lt V 1),
    shiftLeft_or (word16_lt V 2), Nat.shiftLeft_eq, Nat.mul_comm]
  simp [revWords, List.range_succ, ofWords16]

end Read

/-- A segment of a value and its mask. -/
theorem fromMask_word16 (hM : M < 2 ^ (16 * n)) (hi : i < n) :
    Range1d.fromMask 2 (word16 V i) (word16 M i) =
      ⟨word16 V i, word16 (V ||| bitNot (16 * n) M) i⟩ := by
  rw [word16_or_bitNot hM hi]
  rfl

/-- Eight bytes of which the last two are left out. -/
theorem swab_eight_mod {Z : ℕ} : swab 8 Z % 2 ^ 48 = swab 6 (Z / 2 ^ 16) := by
  refine eq_of_bytes (b := 6) (Nat.mod_lt _ (by decide)) (swab_lt _ _) fun j hj => ?_
  have hpow : 2 ^ 48 = 256 ^ j * (256 * 256 ^ (5 - j)) := by
    rw [← pow_succ', ← pow_add, show j + (5 - j + 1) = 6 by omega]
    rfl
  rw [hpow, Nat.mod_mul_right_div_self, Nat.mod_mul_right_mod, byte_swab (by omega), byte_swab hj,
    show (2 : ℕ) ^ 16 = 256 ^ 2 from rfl, Nat.div_div_eq_div_mul, ← pow_add,
    show 2 + (6 - 1 - j) = 8 - 1 - j by omega]

/-- Two bytes that both bounds have as zeros do not change the mask of the others. -/
theorem getMaskLe_shift (X Y : ℕ) :
    (⟨2 ^ 16 * X, 2 ^ 16 * Y⟩ : Range1d).getMaskLe 8 / 2 ^ 16 = (⟨X, Y⟩ : Range1d).getMaskLe 6 := by
  refine Nat.eq_of_testBit_eq fun j => Bool.eq_iff_iff.mpr ?_
  rw [Nat.testBit_div_two_pow, Range1d.testBit_getMaskLe, Range1d.testBit_getMaskLe]
  simp only [Nat.testBit_two_pow_mul]
  constructor
  · rintro ⟨hj, h⟩
    refine ⟨by omega, fun k hjk hk => ?_⟩
    have := h (k + 16) (by omega) (by omega)
    simpa using this
  · rintro ⟨hj, h⟩
    refine ⟨by omega, fun k hjk hk => ?_⟩
    rw [h (k - 16) (by omega) (by omega)]

namespace VecField

/-- Reading a value and its mask from where they were written gives them back, and both functions
advance the index by as much. -/
def RuleRoundTrip (k : VecField) (v m i : ℕ) (dst : ℕ → Range1d) : Prop :=
  k.popRule i (k.pushRule v m i dst).2 = ((v, m), (k.pushRule v m i dst).1)

def PacketRoundTrip (k : VecField) (v i : ℕ) (dst : ℕ → ℕ) : Prop :=
  k.popPacket i (k.pushPacket v i dst).2 = (v, (k.pushPacket v i dst).1)

/-- The rule form has in each segment the bits of the value and of the mask that the packet form
puts there. -/
def FormsAgree (k : VecField) (v m i : ℕ) (dst : ℕ → Range1d) (dst' : ℕ → ℕ) : Prop :=
  (k.pushRule v m i dst).1 = (k.pushPacket v i dst').1 ∧
    ∀ j, i ≤ j → j < (k.pushRule v m i dst).1 → (k.pushRule v m i dst).2 j =
      Range1d.fromMask 2 ((k.pushPacket v i dst').2 j) ((k.pushPacket m i dst').2 j)

/-- The value, in the byte order of the field, reads the same from both ends. -/
def Symmetric (k : VecField) (v : ℕ) : Prop := Palindrome (k.bytes / 2) (k.own v)

/-- The values and masks that the rule form gives back. -/
def RuleSurvives (k : VecField) (v m : ℕ) : Prop :=
  match k with
  | bits8 | bits128 | bits128be => True
  | bits16 => v < 2 ^ 8 ∧ 0xff00 ≤ m
  | bits16be => False
  | bits32 | bits32be | ethAddr | bits64be =>
      k.own m = 0 ∨ k.own m = 2 ^ (8 * k.bytes) - 1 ∧ k.Symmetric v

/-- The values that the packet form gives back. -/
def PacketSurvives (k : VecField) (v : ℕ) : Prop :=
  match k with
  | bits8 | bits16 | bits16be | bits128 | bits128be => True
  | bits32 | bits32be | ethAddr | bits64be => k.Symmetric v

/-- The values and masks of which both forms put the same bits into each segment. -/
def SegmentsAgree (k : VecField) (v m : ℕ) : Prop :=
  match k with
  | bits32 => k.Symmetric v ∧ k.Symmetric m
  | bits8 | bits16 | bits16be | bits32be | ethAddr | bits64be | bits128 | bits128be => True

section RuleForm

variable {dst : ℕ → Range1d}

theorem RuleRoundTrip.iff_of_pop {k : VecField} {low mask : ℕ}
    (h : k.popRule i (k.pushRule v m i dst).2 = ((low, mask), (k.pushRule v m i dst).1)) :
    k.RuleRoundTrip v m i dst ↔ low = v ∧ mask = m := by
  rw [RuleRoundTrip, h, Prod.mk.injEq, Prod.mk.injEq]
  exact and_iff_left rfl

/-- Bounds that are put together in the other order and then turned around give the value and the
mask back if they are those in the byte order of the field. -/
theorem swab_revWords_iff {b : ℕ} (hb : 2 * n = b) (hn : 2 ≤ n)
    (hm : IsPrefixMask (16 * n) (swab b m)) (hmlt : m < 256 ^ b) (hv : v &&& m = v) :
    (swab b (revWords n (swab b v)) = v ∧ swab b ((⟨revWords n (swab b v),
        revWords n (swab b v ||| bitNot (16 * n) (swab b m))⟩ : Range1d).getMaskLe b) = m) ↔
      swab b m = 0 ∨ swab b m = 2 ^ (16 * n) - 1 ∧ Palindrome n (swab b v) := by
  have hvlt : v < 256 ^ b := (hv ▸ Nat.and_le_right).trans_lt hmlt
  have hpart := revWords_iff hn hm (V := swab b v) (by rw [← swab_and, hv])
  rw [hb] at hpart
  rw [swab_eq_iff (revWords_lt hb _) hvlt, swab_eq_iff (Range1d.getMaskLe_lt _ _) hmlt]
  exact hpart

theorem ruleRoundTrip_bits32 (hm : IsPrefixMask (16 * 2) m) (hv : v &&& m = v) :
    bits32.RuleRoundTrip v m i dst ↔ m = 0 ∨ m = 2 ^ (16 * 2) - 1 ∧ Palindrome 2 v := by
  have hcell : ∀ j < 2, (RuleVec.push32 v m i dst).2 (i + (1 - j)) =
      ⟨word16 v j, word16 (v ||| bitNot (16 * 2) m) j⟩ := by
    intro j hj
    rw [← fromMask_word16 hm.lt hj, RuleVec.push32, pushAll_getElem _ _ _ (show 1 - j < 2 by omega)]
    interval_cases j <;> rfl
  refine (RuleRoundTrip.iff_of_pop ?_).trans (revWords_iff le_rfl hm hv)
  rw [← revWords_two fun j hj => congrArg Range1d.low (hcell j hj),
    ← revWords_two fun j hj => congrArg Range1d.high (hcell j hj)]
  rfl

theorem ruleRoundTrip_bits32be (hm : IsPrefixMask (16 * 2) (swab 4 m))
    (hmlt : m < 256 ^ 4) (hv : v &&& m = v) : bits32be.RuleRoundTrip v m i dst ↔
      swab 4 m = 0 ∨
        swab 4 m = 2 ^ (16 * 2) - 1 ∧ Palindrome 2 (swab 4 v) := by
  have hcell : ∀ j < 2, (RuleVec.push32be v m i dst).2 (i + j) = ⟨word16 (swab 4 v) j,
      word16 (swab 4 v ||| bitNot (16 * 2) (swab 4 m)) j⟩ := by
    intro j hj
    rw [← fromMask_word16 hm.lt hj, RuleVec.push32be, pushAll_getElem _ _ _ (by simpa using hj)]
    interval_cases j <;> rfl
  refine (RuleRoundTrip.iff_of_pop ?_).trans (swab_revWords_iff rfl le_rfl hm hmlt hv)
  rw [← Range1d.getMaskBe_toBe (revWords_lt rfl _) (revWords_lt rfl _),
    ← revWords_two fun j hj => congrArg Range1d.low (hcell j hj),
    ← revWords_two fun j hj => congrArg Range1d.high (hcell j hj)]
  rfl

theorem ruleRoundTrip_bits64be (hm : IsPrefixMask (16 * 4) (swab 8 m))
    (hmlt : m < 256 ^ 8) (hv : v &&& m = v) : bits64be.RuleRoundTrip v m i dst ↔
      swab 8 m = 0 ∨
        swab 8 m = 2 ^ (16 * 4) - 1 ∧ Palindrome 4 (swab 8 v) := by
  have hcell : ∀ j < 4, (RuleVec.push64be v m i dst).2 (i + j) = ⟨word16 (swab 8 v) j,
      word16 (swab 8 v ||| bitNot (16 * 4) (swab 8 m)) j⟩ := by
    intro j hj
    rw [← fromMask_word16 hm.lt hj, RuleVec.push64be, pushAll_getElem _ _ _ (by simpa using hj)]
    interval_cases j <;> rfl
  refine (RuleRoundTrip.iff_of_pop ?_).trans (swab_revWords_iff rfl (by decide) hm hmlt hv)
  rw [← Range1d.getMaskBe_toBe (revWords_lt rfl _) (revWords_lt rfl _),
    ← revWords_four fun j hj => congrArg Range1d.low (hcell j hj),
    ← revWords_four fun j hj => congrArg Range1d.high (hcell j hj)]
  rfl

theorem ruleRoundTrip_ethAddr (hm : IsPrefixMask (16 * 3) (swab 6 m))
    (hmlt : m < 256 ^ 6) (hv : v &&& m = v) : ethAddr.RuleRoundTrip v m i dst ↔
      swab 6 m = 0 ∨
        swab 6 m = 2 ^ (16 * 3) - 1 ∧ Palindrome 3 (swab 6 v) := by
  have hcell : ∀ j < 3, (RuleVec.pushEthAddr v m i dst).2 (i + j) = ⟨word16 (swab 6 v) j,
      word16 (swab 6 v ||| bitNot (16 * 3) (swab 6 m)) j⟩ := by
    intro j hj
    have hword := fun x => (swab_word16 x (show 2 - j < 3 by omega))
    rw [← fromMask_word16 hm.lt hj, RuleVec.pushEthAddr,
      pushAll_getElem _ _ _ (by simpa using hj)]
    rw [show 3 - 1 - (2 - j) = j by omega] at hword
    rw [← hword, ← hword]
    interval_cases j <;> rfl
  have hshift : ∀ X, X < 256 ^ 6 → 2 ^ 16 * X < 256 ^ 8 := by
    intro X hX
    rw [show 256 ^ 8 = 2 ^ 16 * 256 ^ 6 by norm_num]
    omega
  have hlow := revWords_three fun j hj => congrArg Range1d.low (hcell j hj)
  have hhigh := revWords_three fun j hj => congrArg Range1d.high (hcell j hj)
  -- the two bytes behind the address are left out again
  have hvalue : swab 8 (2 ^ 16 * revWords 3 (swab 6 v)) % 2 ^ 48 =
      swab 6 (revWords 3 (swab 6 v)) := by
    rw [swab_eight_mod, Nat.mul_div_cancel_left _ (by decide)]
  have hmask : ∀ Y, Y < 256 ^ 6 →
      (Range1d.toBe ⟨2 ^ 16 * revWords 3 (swab 6 v), 2 ^ 16 * Y⟩ 8).getMaskBe 8 % 2 ^ 48 =
        swab 6 ((⟨revWords 3 (swab 6 v), Y⟩ : Range1d).getMaskLe 6) := by
    intro Y hY
    rw [Range1d.getMaskBe_toBe (hshift _ (revWords_lt rfl _)) (hshift _ hY), swab_eight_mod,
      getMaskLe_shift]
  refine (RuleRoundTrip.iff_of_pop ?_).trans (swab_revWords_iff rfl (by decide) hm hmlt hv)
  rw [← hvalue, ← hmask _ (revWords_lt rfl _), ← hlow, ← hhigh]
  rfl

/-- The low bytes of a range. -/
theorem fromMask_mod (hm : m < 2 ^ 16) :
    (v ||| bitNot 16 m) % 2 ^ 8 = v % 2 ^ 8 ||| bitNot 8 (m % 2 ^ 8) := by
  rw [Nat.or_mod_two_pow, show bitNot 16 m % 2 ^ 8 = bitNot 8 (m % 2 ^ 8) by
    simp only [bitNot]
    omega]

theorem ruleRoundTrip_bits8 (hm : IsPrefixMask (8 * 1) m) (hv : v &&& m = v) :
    bits8.RuleRoundTrip v m i dst := by
  have hvlt : v < 2 ^ 8 := (hv ▸ Nat.and_le_right).trans_lt hm.lt
  have hcell : (RuleVec.push8 v m i dst).2 i = ⟨v, v ||| bitNot 16 m⟩ := Function.update_self ..
  refine (RuleRoundTrip.iff_of_pop ?_).mpr ⟨Nat.mod_eq_of_lt hvlt, Range1d.getMaskLe_fromMask hm hv⟩
  show RuleVec.pop8 i (RuleVec.push8 v m i dst).2 = _
  rw [RuleVec.pop8, hcell]
  simp only [fromMask_mod (hm.lt.trans (by decide)), Nat.mod_eq_of_lt hvlt, Nat.mod_eq_of_lt hm.lt]
  rfl

/-- The upper byte of the value and of the mask are lost. -/
theorem ruleRoundTrip_bits16 (hm : IsPrefixMask 16 m) (hv : v &&& m = v) :
    bits16.RuleRoundTrip v m i dst ↔ v < 2 ^ 8 ∧ 0xff00 ≤ m := by
  have hmlt := hm.lt
  have hm16 : IsPrefixMask (8 * 2) (0xff00 + m % 2 ^ 8) := by
    obtain ⟨z, hz, rfl⟩ := hm
    refine ⟨min z 8, by omega, ?_⟩
    interval_cases z <;> rfl
  have hand : v % 2 ^ 8 &&& (0xff00 + m % 2 ^ 8) = v % 2 ^ 8 := by
    have hbytes : (v % 2 ^ 8 + 256 * 0) &&& (m % 2 ^ 8 + 256 * 255) =
        (v % 2 ^ 8 &&& m % 2 ^ 8) + 256 * (0 &&& 255) :=
      and_two_bytes (Nat.mod_lt v (by decide)) (Nat.mod_lt m (by decide))
    rw [← Nat.and_mod_two_pow, hv] at hbytes
    rw [Nat.add_comm]
    exact hbytes
  have hcell : (RuleVec.push16 v m i dst).2 i = ⟨v, v ||| bitNot 16 m⟩ := Function.update_self ..
  have hpop : bits16.popRule i (bits16.pushRule v m i dst).2 =
      ((v % 2 ^ 8, 0xff00 + m % 2 ^ 8), i + 1) := by
    rw [← Range1d.getMaskLe_fromMask hm16 hand]
    show RuleVec.pop16 i (RuleVec.push16 v m i dst).2 = _
    rw [RuleVec.pop16, hcell]
    simp only [fromMask_mod hmlt, Range1d.fromMask]
    rw [show bitNot (8 * 2) (0xff00 + m % 2 ^ 8) = bitNot 8 (m % 2 ^ 8) by
      simp only [bitNot]
      omega]
  rw [RuleRoundTrip.iff_of_pop hpop]
  omega

/-- The index is not advanced. -/
theorem not_ruleRoundTrip_bits16be : ¬ bits16be.RuleRoundTrip v m i dst := by
  intro h
  have hindex : i = i + 1 := congrArg Prod.snd h
  omega

theorem ofWords16_word16 {v : ℕ} (hv : v < 2 ^ (16 * n)) :
    ofWords16 ((List.range n).map (word16 v)) = v := by
  have hlt : ∀ w ∈ (List.range n).map (word16 v), w < 2 ^ 16 :=
    List.forall_mem_map.mpr fun _ _ => word16_lt _ _
  have hofWords := ofWords16_lt hlt
  rw [List.length_map, List.length_range] at hofWords
  refine eq_of_words hofWords hv fun i hi => ?_
  rw [word16_ofWords16 hlt]
  simp [List.getD_eq_getElem?_getD, hi]

/-- Eight ranges whose values and masks are the words of a value and of a mask. -/
theorem words_eq {value mask : ℕ → ℕ} (hv : v < 2 ^ (16 * 8)) (hm : m < 2 ^ (16 * 8))
    (h : ∀ j < 8, value j = word16 v j ∧ mask j = word16 m j) :
    ofWords16 ((List.range 8).map value) = v ∧ ofWords16 ((List.range 8).map mask) = m := by
  constructor
  · rw [List.map_congr_left fun j hj => (h j (List.mem_range.mp hj)).1, ofWords16_word16 hv]
  · rw [List.map_congr_left fun j hj => (h j (List.mem_range.mp hj)).2, ofWords16_word16 hm]

theorem ruleRoundTrip_bits128 (hm : IsPrefixMask (16 * 8) m) (hv : v &&& m = v) :
    bits128.RuleRoundTrip v m i dst := by
  have hvlt : v < 2 ^ (16 * 8) := (hv ▸ Nat.and_le_right).trans_lt hm.lt
  have hcell : ∀ j < 8, (RuleVec.push128 v m i dst).2 (i + (7 - j)) =
      Range1d.fromMask 2 (word16 v j) (word16 m j) := by
    intro j hj
    rw [RuleVec.push128, pushAll_getElem _ _ _ (by simp; omega)]
    interval_cases j <;> rfl
  refine (RuleRoundTrip.iff_of_pop rfl).mpr (words_eq hvlt hm.lt fun j hj => ?_)
  simp only [pushRule, hcell j hj]
  exact ⟨rfl, Range1d.getMaskLe_fromMask (hm.word16 hj) (by rw [← word16_and, hv])⟩

theorem ruleRoundTrip_bits128be (hm : IsPrefixMask (16 * 8) (swab 16 m))
    (hmlt : m < 2 ^ (16 * 8)) (hv : v &&& m = v) : bits128be.RuleRoundTrip v m i dst := by
  have hvlt : v < 2 ^ (16 * 8) := (hv ▸ Nat.and_le_right).trans_lt hmlt
  have hcell : ∀ j < 8, (RuleVec.push128be v m i dst).2 (i + j) =
      Range1d.fromMask 2 (swab 2 (word16 v j)) (swab 2 (word16 m j)) := by
    intro j hj
    rw [RuleVec.push128be, pushAll_getElem _ _ _ (by simpa using hj)]
    interval_cases j <;> rfl
  refine (RuleRoundTrip.iff_of_pop rfl).mpr (words_eq hvlt hmlt fun j hj => ?_)
  have hword : IsPrefixMask (8 * 2) (swab 2 (word16 m j)) := by
    rw [swab_word16 m hj]
    exact hm.word16 (by omega)
  have hand : swab 2 (word16 v j) &&& swab 2 (word16 m j) = swab 2 (word16 v j) := by
    rw [← swab_and, ← word16_and, hv]
  have hhigh : (Range1d.fromMask 2 (swab 2 (word16 v j)) (swab 2 (word16 m j))).high < 256 ^ 2 :=
    Nat.or_lt_two_pow (n := 16) (swab_lt 2 _) (bitNot_lt 16 _)
  simp only [pushRule, hcell j hj]
  refine ⟨swab_swab (word16_lt v j), ?_⟩
  rw [Range1d.getMaskBe_toBe (swab_lt 2 _) hhigh, Range1d.getMaskLe_fromMask hword hand]
  exact swab_swab (word16_lt m j)

end RuleForm

section PacketForm

variable {dst : ℕ → ℕ}

theorem PacketRoundTrip.iff_of_pop {k : VecField} {value : ℕ}
    (h : k.popPacket i (k.pushPacket v i dst).2 = (value, (k.pushPacket v i dst).1)) :
    k.PacketRoundTrip v i dst ↔ value = v := by
  rw [PacketRoundTrip, h, Prod.mk.injEq]
  exact and_iff_left rfl

theorem revWords_eq_iff (hV : V < 2 ^ (16 * n)) : revWords n V = V ↔ Palindrome n V :=
  eq_iff_palindrome (two_pow_words n ▸ revWords_lt rfl V) hV fun _ hi => word16_revWords V hi

theorem swab_revWords_eq_iff {b : ℕ} (hb : 2 * n = b) (hv : v < 256 ^ b) :
    swab b (revWords n (swab b v)) = v ↔ Palindrome n (swab b v) := by
  have hlt : swab b v < 2 ^ (16 * n) := by
    rw [two_pow_words, hb]
    exact swab_lt _ _
  rw [swab_eq_iff (revWords_lt hb _) hv]
  exact revWords_eq_iff hlt

theorem push32_words (hv : v < 2 ^ (16 * 2)) : ∀ j < 2,
    (PacketVec.push32 v i dst).2 (i + j) = word16 v j := by
  intro j hj
  have hlow : v &&& 0xffff = word16 v 0 := by
    rw [word16_zero]
    exact Nat.and_two_pow_sub_one_eq_mod v 16
  have hhigh : v >>> 16 = word16 v 1 := by
    rw [Nat.shiftRight_eq_div_pow, word16]
    omega
  rw [PacketVec.push32, hlow, hhigh, pushAll_getElem _ _ _ (by simpa using hj)]
  interval_cases j <;> rfl

theorem packetRoundTrip_bits32 (hv : v < 2 ^ (16 * 2)) :
    bits32.PacketRoundTrip v i dst ↔ Palindrome 2 v := by
  refine (PacketRoundTrip.iff_of_pop ?_).trans (revWords_eq_iff hv)
  rw [← revWords_two (push32_words hv)]
  rfl

theorem packetRoundTrip_bits32be (hv : v < 256 ^ 4) :
    bits32be.PacketRoundTrip v i dst ↔ Palindrome 2 (swab 4 v) := by
  have hcell : ∀ j < 2, (PacketVec.push32be v i dst).2 (i + j) = word16 (swab 4 v) j := by
    intro j hj
    have hindex : [0, 1][j] = j := by interval_cases j <;> rfl
    rw [PacketVec.push32be, pushAll_map _ _ _ _ hj, hindex]
  have hlow := revWords_two hcell
  rw [Nat.add_zero] at hlow
  refine (PacketRoundTrip.iff_of_pop ?_).trans (swab_revWords_eq_iff rfl hv)
  show PacketVec.pop32be i (PacketVec.push32be v i dst).2 = _
  rw [PacketVec.pop32be, hlow]
  rfl

theorem packetRoundTrip_bits64be (hv : v < 256 ^ 8) :
    bits64be.PacketRoundTrip v i dst ↔ Palindrome 4 (swab 8 v) := by
  have hcell : ∀ j < 4, (PacketVec.push64be v i dst).2 (i + j) = word16 (swab 8 v) j := by
    intro j hj
    have hindex : [0, 1, 2, 3][j] = j := by interval_cases j <;> rfl
    rw [PacketVec.push64be, pushAll_map _ _ _ _ hj, hindex]
  have hlow := revWords_four hcell
  refine (PacketRoundTrip.iff_of_pop ?_).trans (swab_revWords_eq_iff rfl hv)
  show PacketVec.pop64be i (PacketVec.push64be v i dst).2 = _
  rw [PacketVec.pop64be, hlow]
  rfl

theorem packetRoundTrip_ethAddr (hv : v < 256 ^ 6) :
    ethAddr.PacketRoundTrip v i dst ↔ Palindrome 3 (swab 6 v) := by
  have hcell : ∀ j < 3, (PacketVec.pushEthAddr v i dst).2 (i + j) = word16 (swab 6 v) j := by
    intro j hj
    have hword := swab_word16 v (show 2 - j < 3 by omega)
    rw [show 3 - 1 - (2 - j) = j by omega] at hword
    rw [← hword, PacketVec.pushEthAddr, pushAll_getElem _ _ _ (by simpa using hj)]
    interval_cases j <;> rfl
  have hvalue : swab 8 (2 ^ 16 * revWords 3 (swab 6 v)) % 2 ^ 48 =
      swab 6 (revWords 3 (swab 6 v)) := by
    rw [swab_eight_mod, Nat.mul_div_cancel_left _ (by decide)]
  refine (PacketRoundTrip.iff_of_pop ?_).trans (swab_revWords_eq_iff rfl hv)
  rw [← hvalue, ← revWords_three hcell]
  rfl

theorem packetRoundTrip_bits8 (hv : v < 2 ^ 8) : bits8.PacketRoundTrip v i dst := by
  have hcell : (PacketVec.push8 v i dst).2 i = v := Function.update_self ..
  refine (PacketRoundTrip.iff_of_pop rfl).mpr ?_
  simp only [pushPacket, hcell, Nat.mod_eq_of_lt hv]

theorem packetRoundTrip_bits16 : bits16.PacketRoundTrip v i dst :=
  (PacketRoundTrip.iff_of_pop rfl).mpr (Function.update_self ..)

theorem packetRoundTrip_bits16be (hv : v < 256 ^ 2) : bits16be.PacketRoundTrip v i dst := by
  have hcell : (PacketVec.push16be v i dst).2 i = swab 2 v := Function.update_self ..
  refine (PacketRoundTrip.iff_of_pop rfl).mpr ?_
  simp only [pushPacket, hcell, swab_swab hv]

theorem packetRoundTrip_bits128 (hv : v < 2 ^ (16 * 8)) : bits128.PacketRoundTrip v i dst := by
  have hcell : ∀ j < 8, (PacketVec.push128 v i dst).2 (i + (7 - j)) = word16 v j := by
    intro j hj
    rw [PacketVec.push128, pushAll_getElem _ _ _ (by simp; omega)]
    interval_cases j <;> rfl
  exact (PacketRoundTrip.iff_of_pop rfl).mpr (words_eq hv hv fun j hj => ⟨hcell j hj, hcell j hj⟩).1

theorem packetRoundTrip_bits128be (hv : v < 2 ^ (16 * 8)) :
    bits128be.PacketRoundTrip v i dst := by
  have hcell : ∀ j < 8, swab 2 ((PacketVec.push128be v i dst).2 (i + j)) = word16 v j := by
    intro j hj
    have hword : swab 2 (swab 2 (word16 v j)) = word16 v j := swab_swab (word16_lt v j)
    rw [PacketVec.push128be, pushAll_getElem _ _ _ (by simpa using hj), ← hword]
    interval_cases j <;> rfl
  exact (PacketRoundTrip.iff_of_pop rfl).mpr (words_eq hv hv fun j hj => ⟨hcell j hj, hcell j hj⟩).1

end PacketForm

/-! ## The segments of the two forms -/

section Forms

variable {dst : ℕ → Range1d} {dst' : ℕ → ℕ}

/-- Forms that cut the value and the mask alike agree. -/
theorem formsAgree_of_map {ι : Type*} {k : VecField} (l : List ι) (g : ℕ → ι → ℕ)
    (hrule : k.pushRule v m i dst =
      pushAll (l.map fun x => Range1d.fromMask 2 (g v x) (g m x)) i dst)
    (hpacket : ∀ w, k.pushPacket w i dst' = pushAll (l.map (g w)) i dst') :
    k.FormsAgree v m i dst dst' := by
  rw [FormsAgree, hrule, hpacket, hpacket]
  simp only [pushAll_fst, List.length_map]
  refine ⟨trivial, fun j hij hj => ?_⟩
  obtain ⟨t, rfl⟩ := Nat.exists_eq_add_of_le hij
  have ht : t < l.length := by omega
  rw [pushAll_map _ _ _ _ ht, pushAll_map _ _ _ _ ht, pushAll_map _ _ _ _ ht]

theorem fromMask_inj {a b a' b' : ℕ} (hb : IsPrefixMask (8 * 2) b) (hb' : IsPrefixMask (8 * 2) b')
    (ha : a &&& b = a) (ha' : a' &&& b' = a') :
    Range1d.fromMask 2 a b = Range1d.fromMask 2 a' b' ↔ a = a' ∧ b = b' := by
  refine ⟨fun h => ⟨congrArg Range1d.low h, ?_⟩, fun h => by rw [h.1, h.2]⟩
  rw [← Range1d.getMaskLe_fromMask hb ha, h, Range1d.getMaskLe_fromMask hb' ha']

/-- One form begins with the upper word, the other one with the lower word. -/
theorem formsAgree_bits32 (hm : IsPrefixMask (16 * 2) m) (hv : v &&& m = v)
    (hvlt : v < 2 ^ (16 * 2)) :
    bits32.FormsAgree v m i dst dst' ↔ Palindrome 2 v ∧ Palindrome 2 m := by
  have hpacket : ∀ w, w < 2 ^ (16 * 2) → ∀ j < 2,
      (bits32.pushPacket w i dst').2 (i + j) = word16 w j := fun w hw => push32_words hw
  have hrule : ∀ j < 2, (bits32.pushRule v m i dst).2 (i + j) =
      Range1d.fromMask 2 (word16 v (1 - j)) (word16 m (1 - j)) := by
    intro j hj
    have hindex : [1, 0][j] = 1 - j := by interval_cases j <;> rfl
    show (RuleVec.push32 v m i dst).2 (i + j) = _
    rw [RuleVec.push32, pushAll_map _ _ _ _ hj, hindex]
  have hcell : ∀ j < 2, (bits32.pushRule v m i dst).2 (i + j) =
        Range1d.fromMask 2 ((bits32.pushPacket v i dst').2 (i + j))
          ((bits32.pushPacket m i dst').2 (i + j)) ↔
      word16 v (1 - j) = word16 v j ∧ word16 m (1 - j) = word16 m j := by
    intro j hj
    rw [hrule j hj, hpacket v hvlt j hj, hpacket m hm.lt j hj]
    exact fromMask_inj (hm.word16 (by omega)) (hm.word16 hj) (by rw [← word16_and, hv])
      (by rw [← word16_and, hv])
  constructor
  · rintro ⟨-, h⟩
    have heq := fun j hj => (hcell j hj).mp
      (h (i + j) (Nat.le_add_right i j) (show i + j < i + 1 + 1 by omega))
    exact ⟨fun j hj => (heq j hj).1.symm, fun j hj => (heq j hj).2.symm⟩
  · rintro ⟨hpalv, hpalm⟩
    refine ⟨rfl, fun j hij hj => ?_⟩
    obtain ⟨t, rfl⟩ := Nat.exists_eq_add_of_le hij
    have ht : t < 2 := by
      have : i + t < i + 1 + 1 := hj
      omega
    exact (hcell t ht).mpr ⟨(hpalv t ht).symm, (hpalm t ht).symm⟩

end Forms

/-- Exactly the values and masks described are given back, and exactly for those described do both
forms put the same bits into each segment. -/
theorem pop_push_iff (k : VecField) (hv : v < 256 ^ k.bytes) (i : ℕ) (dst : ℕ → Range1d)
    (dst' : ℕ → ℕ) :
    (k.PacketRoundTrip v i dst' ↔ k.PacketSurvives v) ∧
      ∀ m, m < 256 ^ k.bytes → IsPrefixMask (8 * k.bytes) (k.own m) → v &&& m = v →
        (k.RuleRoundTrip v m i dst ↔ k.RuleSurvives v m) ∧
          (k.FormsAgree v m i dst dst' ↔ k.SegmentsAgree v m) := by
  cases k with
  | bits8 =>
      refine ⟨iff_of_true (packetRoundTrip_bits8 hv) trivial, fun m _ hm hand =>
        ⟨iff_of_true (ruleRoundTrip_bits8 hm hand) trivial, iff_of_true ?_ trivial⟩⟩
      exact formsAgree_of_map [()] (fun w _ => w) rfl fun _ => rfl
  | bits16 =>
      refine ⟨iff_of_true packetRoundTrip_bits16 trivial, fun m _ hm hand =>
        ⟨ruleRoundTrip_bits16 hm hand, iff_of_true ?_ trivial⟩⟩
      exact formsAgree_of_map [()] (fun w _ => w) rfl fun _ => rfl
  | bits16be =>
      refine ⟨iff_of_true (packetRoundTrip_bits16be hv) trivial, fun m _ hm hand =>
        ⟨iff_of_false not_ruleRoundTrip_bits16be id, iff_of_true ?_ trivial⟩⟩
      exact formsAgree_of_map [()] (fun w _ => swab 2 w) rfl fun _ => rfl
  | bits32 =>
      have hv : v < 2 ^ (16 * 2) := by rw [two_pow_words]; exact hv
      exact ⟨packetRoundTrip_bits32 hv, fun m _ hm hand =>
        ⟨ruleRoundTrip_bits32 hm hand, formsAgree_bits32 hm hand hv⟩⟩
  | bits32be =>
      refine ⟨packetRoundTrip_bits32be hv, fun m hmlt hm hand =>
        ⟨ruleRoundTrip_bits32be hm hmlt hand, iff_of_true ?_ trivial⟩⟩
      exact formsAgree_of_map [0, 1] (fun w i2 => word16 (swab 4 w) i2) rfl fun _ => rfl
  | ethAddr =>
      refine ⟨packetRoundTrip_ethAddr hv, fun m hmlt hm hand =>
        ⟨ruleRoundTrip_ethAddr hm hmlt hand, iff_of_true ?_ trivial⟩⟩
      exact formsAgree_of_map [2, 1, 0] (fun w i2 => swab 2 (word16 w i2)) rfl fun _ => rfl
  | bits64be =>
      refine ⟨packetRoundTrip_bits64be hv, fun m hmlt hm hand =>
        ⟨ruleRoundTrip_bits64be hm hmlt hand, iff_of_true ?_ trivial⟩⟩
      exact formsAgree_of_map [0, 1, 2, 3] (fun w i2 => word16 (swab 8 w) i2) rfl fun _ => rfl
  | bits128 =>
      have hv : v < 2 ^ (16 * 8) := by rw [two_pow_words]; exact hv
      refine ⟨iff_of_true (packetRoundTrip_bits128 hv) trivial, fun m _ hm hand =>
        ⟨iff_of_true (ruleRoundTrip_bits128 hm hand) trivial, iff_of_true ?_ trivial⟩⟩
      exact formsAgree_of_map [7, 6, 5, 4, 3, 2, 1, 0] word16 rfl fun _ => rfl
  | bits128be =>
      have hv : v < 2 ^ (16 * 8) := by rw [two_pow_words]; exact hv
      refine ⟨iff_of_true (packetRoundTrip_bits128be hv) trivial, fun m hmlt hm hand =>
        ⟨iff_of_true (ruleRoundTrip_bits128be hm ?_ hand) trivial, iff_of_true ?_ trivial⟩⟩
      · rw [two_pow_words]
        exact hmlt
      · exact formsAgree_of_map [0, 1, 2, 3, 4, 5, 6, 7] (fun w i2 => swab 2 (word16 w i2)) rfl
          fun _ => rfl

/-- The broadcast address survives. -/
theorem pop_push_iff_broadcast :
    ethAddr.PacketRoundTrip (2 ^ 48 - 1) 0 (fun _ => 0) ∧
      ethAddr.RuleRoundTrip (2 ^ 48 - 1) (2 ^ 48 - 1) 0 (fun _ => ⟨0, 0⟩) := by
  have hsym : ethAddr.Symmetric (2 ^ 48 - 1) := by
    show ∀ i < 3, _
    decide
  obtain ⟨hpacket, hrule⟩ := pop_push_iff ethAddr (v := 2 ^ 48 - 1) (by decide) 0 (fun _ => ⟨0, 0⟩)
    fun _ => 0
  refine ⟨hpacket.mpr hsym, (hrule _ (by decide) ⟨0, by decide, by decide⟩ (by decide)).1.mpr ?_⟩
  exact .inr ⟨by decide, hsym⟩

/-- The halves of a 32-bit value are exchanged. -/
theorem not_packetRoundTrip_one :
    ¬ ∀ k : VecField, ∀ v < 256 ^ k.bytes, ∀ i dst, k.PacketRoundTrip v i dst := by
  intro h
  have hvalue := congrArg Prod.fst (h bits32 1 (by decide) 0 fun _ => 0)
  exact absurd hvalue (by decide)

end VecField

end Pcv
