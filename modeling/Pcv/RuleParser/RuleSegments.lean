import Pcv.Library.Words
import Pcv.RuleParser.Rule

/-!
# OpenFlow rules as ranges of 16 bits

A header is cut into words in the order in which `rule_to_array_16b` writes the fields, 98 of
them for the 44 fields.  The array has 177 ranges.  Those that no field writes are left at
`[0, 0]`, so that a packet is found only if it has zeros there, and the IPv6 fields are pinned to
zero by `set_wildcard`.  Apart from this the written ranges say what the fields of the rule say.
-/

namespace Pcv

namespace OFField

/-- The words of a field, in the order in which they are written; word 0 is the lowest. -/
def layout (f : OFField) : List ℕ :=
  if f = .ethDst ∨ f = .ethSrc then [2, 1, 0]
  else match f.type with
    | .uint8 | .uint16 => [0]
    | .uint32 => [0, 1]
    | .uint64 => [0, 1, 2, 3]
    | .ipv6 => [4, 5, 6, 7, 0, 1, 2, 3]

/-- The bits of the header field. -/
def bits (f : OFField) : ℕ := if f.type = .uint8 then 8 else 16 * f.layout.length

/-- The ranges that are written for a field. -/
def ranges (f : OFField) (r : Range1d) : List Range1d :=
  match f.type with
  | .uint8 => [⟨r.low, if r.high = keyMax 1 then keyMax 2 else r.high⟩]
  | .uint16 => [r]
  | _ => f.layout.map fun i => ⟨word16 r.low i, word16 r.high i⟩

end OFField

/-- What a rule asks of a field: nothing, if the field is left as constructed, or a value of the
range it is set to. -/
inductive FieldMatch
  | any
  | range (r : Range1d)
deriving DecidableEq

namespace FieldMatch

def Allows : FieldMatch → ℕ → Prop
  | any, _ => True
  | range r, v => r.inRange v = true

/-- The range is one of the field; a field of several words is given by an exact value or by a
prefix. -/
def WellFormed (f : OFField) : FieldMatch → Prop
  | any => True
  | range r => r.low ≤ r.high ∧ r.high < 2 ^ f.bits ∧
      (1 < f.layout.length → ∃ z, IsAligned r.low r.high z)

/-- The value of the member of the rule. -/
def build (m : FieldMatch) (f : OFField) : Range1d :=
  match m with
  | any => RuleOF151.new.fields f
  | range r => r

end FieldMatch

/-- A rule as constructed, in which some fields are set. -/
def RuleOF151.ofMatches (m : OFField → FieldMatch) : RuleOF151 where
  fields f := (m f).build f

/-- The words of a header, in the order of the fields. -/
def headerSegments (header : OFField → ℕ) : List ℕ :=
  OFField.writeOrder.flatMap fun f => f.layout.map (word16 (header f))

/-- With the given segments behind those of the fields, a header is in the ranges of the rule
exactly if the rule allows all its fields. -/
def RuleOF151.MeansWith (m : OFField → FieldMatch) (rest : List ℕ) : Prop :=
  ∀ header : OFField → ℕ, (∀ f, header f < 2 ^ f.bits) →
    (List.Forall₂ (fun s (r : Range1d) => r.inRange s = true) (headerSegments header ++ rest)
      (RuleOF151.ofMatches m).ruleToArray16b ↔ ∀ f, (m f).Allows (header f))

/-- The segments that no field writes constrain nothing, and the others say what the rule says. -/
def RuleOF151.MeansFields (m : OFField → FieldMatch) : Prop :=
  ∀ rest : List ℕ, rest.length = 79 → (∀ s ∈ rest, s < 2 ^ 16) → RuleOF151.MeansWith m rest

/-! ## What is written -/

/-- Ranges written one after the other. -/
theorem Cursor.foldl_put (d : Range1d) (n : ℕ) (rs : List Range1d) (ws : List Range1d) :
    rs.foldl Cursor.put ⟨ws ++ List.replicate (rs.length + n) d, ws.length⟩ =
      ⟨ws ++ rs ++ List.replicate n d, (ws ++ rs).length⟩ := by
  induction rs generalizing ws with
  | nil => simp
  | cons r rs ih =>
      have hput : Cursor.put ⟨ws ++ List.replicate ((r :: rs).length + n) d, ws.length⟩ r =
          ⟨(ws ++ [r]) ++ List.replicate (rs.length + n) d, (ws ++ [r]).length⟩ := by
        rw [List.length_cons, Nat.add_right_comm, List.replicate_succ]
        simp [Cursor.put]
      rw [List.foldl_cons, hput, ih, List.append_assoc ws, List.singleton_append]

theorem Range1d.word_eq (r : Range1d) (i : ℕ) : r.word i = ⟨word16 r.low i, word16 r.high i⟩ := by
  have hmask : ∀ v : ℕ, v &&& 0xffff = v % 2 ^ 16 := fun v => Nat.and_two_pow_sub_one_eq_mod v 16
  simp only [Range1d.word, hmask, Nat.shiftRight_eq_div_pow, word16, Nat.mul_comm i]

theorem Range1d.word_ipv6High (r : Range1d) (i : ℕ) :
    r.ipv6High.word i = ⟨word16 r.low (i + 4), word16 r.high (i + 4)⟩ := by
  have hword : ∀ v : ℕ, word16 (v / 2 ^ 64) i = word16 v (i + 4) := by
    intro v
    rw [word16, word16, Nat.div_div_eq_div_mul, ← pow_add, Nat.mul_add, Nat.add_comm]
  rw [Range1d.word_eq, Range1d.ipv6High, hword, hword]

theorem Range1d.word_ipv6Low (r : Range1d) {i : ℕ} (hi : i < 4) :
    r.ipv6Low.word i = ⟨word16 r.low i, word16 r.high i⟩ := by
  have hpow : 2 ^ 64 = 2 ^ (16 * i) * (2 ^ 16 * 2 ^ (48 - 16 * i)) := by
    rw [← pow_add, ← pow_add]
    congr 1
    omega
  have hword : ∀ v : ℕ, word16 (v % 2 ^ 64) i = word16 v i := by
    intro v
    rw [word16, word16, hpow, Nat.mod_mul_right_div_self, Nat.mod_mul_right_mod]
  rw [Range1d.word_eq, Range1d.ipv6Low, hword, hword]

namespace OFField

theorem fill_eq (f : OFField) (c : Cursor) (r : Range1d) :
    f.fill c r = (f.ranges r).foldl Cursor.put c := by
  unfold fill ranges layout
  by_cases heth : f = .ethDst ∨ f = .ethSrc
  · have htype : f.type = .uint64 := by rcases heth with rfl | rfl <;> rfl
    simp [heth, htype, fillEth, Range1d.word_eq]
  · simp only [heth, if_false]
    cases f.type with
    | uint8 => simp [fill8]
    | uint16 => simp [fill16]
    | uint32 => simp [fill32, Range1d.word_eq]
    | uint64 => simp [fill64, Range1d.word_eq, List.range_succ]
    | ipv6 =>
        simp [fillIpv6, List.range_succ, Range1d.word_ipv6High, Range1d.word_ipv6Low]

theorem length_ranges (f : OFField) (r : Range1d) : (f.ranges r).length = f.layout.length := by
  unfold ranges
  split
  · next h => cases f <;> first | rfl | cases h
  · next h => cases f <;> first | rfl | cases h
  · rw [List.length_map]

theorem mem_layout (f : OFField) (i : ℕ) : i ∈ f.layout ↔ i < f.layout.length := by
  cases f <;> simp [layout, type] <;> omega

end OFField

/-- The fields are written to the first 98 ranges. -/
theorem RuleOF151.ruleToArray16b_eq (r : RuleOF151) : r.ruleToArray16b =
    (OFField.writeOrder.flatMap fun f => f.ranges (r.fields f)) ++
      List.replicate 79 ⟨0, 0⟩ := by
  have hlen : (OFField.writeOrder.flatMap fun f => f.ranges (r.fields f)).length = 98 := by
    simp only [List.length_flatMap, OFField.length_ranges]
    decide
  have hput := Cursor.foldl_put ⟨0, 0⟩ 79
    (OFField.writeOrder.flatMap fun f => f.ranges (r.fields f)) []
  rw [hlen] at hput
  simp only [RuleOF151.ruleToArray16b, OFField.fill_eq]
  rw [← List.foldl_flatMap]
  exact congrArg Cursor.cells hput

/-! ## What the ranges of a field say -/

section Field

variable {f : OFField} {r : Range1d} {v : ℕ}

/-- A byte is widened to a word. -/
theorem OFField.forall₂_uint8 (hf : f.type = .uint8) (hv : v < 2 ^ f.bits) :
    List.Forall₂ (fun s (r : Range1d) => r.inRange s = true) (f.layout.map (word16 v))
      (f.ranges r) ↔ r.inRange v = true := by
  have hlayout : f.layout = [0] := by cases f <;> first | rfl | cases hf
  have hv : v < 256 := by rwa [bits, if_pos hf] at hv
  simp only [ranges, hf, hlayout, List.map_cons, List.map_nil, List.forall₂_cons,
    List.Forall₂.nil, and_true, Range1d.inRange_iff, word16_of_lt (hv.trans (by decide))]
  split
  · next hhigh => simp only [hhigh, keyMax]; omega
  · rfl

theorem OFField.forall₂_uint16 (hf : f.type = .uint16) (hv : v < 2 ^ f.bits) :
    List.Forall₂ (fun s (r : Range1d) => r.inRange s = true) (f.layout.map (word16 v))
      (f.ranges r) ↔ r.inRange v = true := by
  have hlayout : f.layout = [0] := by cases f <;> first | rfl | cases hf
  have hv : v < 2 ^ 16 := by simpa [bits, hf, hlayout] using hv
  simp [ranges, hf, hlayout, word16_of_lt hv]

/-- A longer field is compared word by word. -/
theorem OFField.forall₂_words (h8 : f.type ≠ .uint8) (h16 : f.type ≠ .uint16) :
    List.Forall₂ (fun s (r : Range1d) => r.inRange s = true) (f.layout.map (word16 v))
      (f.ranges r) ↔
      ∀ i < f.layout.length, word16 r.low i ≤ word16 v i ∧ word16 v i ≤ word16 r.high i := by
  have hranges : f.ranges r = f.layout.map fun i => ⟨word16 r.low i, word16 r.high i⟩ := by
    unfold ranges
    split
    · next h => exact absurd h h8
    · next h => exact absurd h h16
    · rfl
  rw [hranges, List.forall₂_map_left_iff, List.forall₂_map_right_iff, List.forall₂_same]
  simp only [OFField.mem_layout, Range1d.inRange_iff]

/-- The words of a value are in the ranges of a field exactly if the rule allows the value. -/
theorem FieldMatch.forall₂_iff {m : FieldMatch} (hm : m.WellFormed f)
    (hany : f.type = .ipv6 → m ≠ .any) (hv : v < 2 ^ f.bits) :
    List.Forall₂ (fun s (r : Range1d) => r.inRange s = true) (f.layout.map (word16 v))
      (f.ranges (m.build f)) ↔ m.Allows v := by
  by_cases h8 : f.type = .uint8
  · rw [OFField.forall₂_uint8 h8 hv]
    cases m with
    | range r => exact Iff.rfl
    | any =>
        have hv : v < 256 := by rwa [OFField.bits, if_pos h8] at hv
        have hmax : f.type.max = 255 := by rw [h8]; rfl
        rw [Range1d.inRange_iff]
        exact iff_of_true ⟨Nat.zero_le v, (Nat.le_of_lt_succ hv).trans_eq hmax.symm⟩ trivial
  by_cases h16 : f.type = .uint16
  · rw [OFField.forall₂_uint16 h16 hv]
    cases m with
    | range r => exact Iff.rfl
    | any =>
        have hlayout : f.layout = [0] := by cases f <;> first | rfl | cases h16
        have hv : v < 2 ^ 16 := by simpa [OFField.bits, h8, hlayout] using hv
        have hmax : f.type.max = 65535 := by rw [h16]; rfl
        rw [Range1d.inRange_iff]
        exact iff_of_true ⟨Nat.zero_le v, (Nat.le_of_lt_succ hv).trans_eq hmax.symm⟩ trivial
  rw [OFField.forall₂_words h8 h16]
  have hbits : f.bits = 16 * f.layout.length := by rw [OFField.bits, if_neg h8]
  cases m with
  | range r =>
      obtain ⟨-, hhigh, haligned⟩ := hm
      have hlong : 1 < f.layout.length := by
        cases f <;> first | decide | exact absurd rfl h8 | exact absurd rfl h16
      obtain ⟨z, haligned⟩ := haligned hlong
      rw [hbits] at hv hhigh
      rw [Allows, Range1d.inRange_iff]
      exact haligned.words_iff hv hhigh
  | any =>
      refine iff_of_true (fun i hi => ?_) trivial
      have hmax : ∃ n, f.layout.length ≤ n ∧ f.type.max = 2 ^ (16 * n) - 1 := by
        cases f <;> first | exact absurd rfl (hany rfl) | exact absurd rfl h8 |
          exact absurd rfl h16 | exact ⟨2, by decide, rfl⟩ | exact ⟨4, by decide, rfl⟩
      obtain ⟨n, hn, hmax⟩ := hmax
      simp only [build, RuleOF151.new, OFType.setWildcard, word16_zero_left, hmax,
        word16_max (hi.trans_le hn)]
      exact ⟨Nat.zero_le _, Nat.le_pred_of_lt (word16_lt v i)⟩

end Field

/-- A header that a rule allows. -/
def FieldMatch.value : FieldMatch → ℕ
  | any => 0
  | range r => r.low

theorem FieldMatch.WellFormed.value_lt {f : OFField} {m : FieldMatch} (h : m.WellFormed f) :
    m.value < 2 ^ f.bits := by
  cases m with
  | any => exact Nat.two_pow_pos _
  | range r => exact h.1.trans_lt h.2.1

theorem FieldMatch.WellFormed.allows_value {f : OFField} {m : FieldMatch} (h : m.WellFormed f) :
    m.Allows m.value := by
  cases m with
  | any => trivial
  | range r => exact (Range1d.inRange_iff _ _).mpr ⟨le_rfl, h.1⟩

/-- An IPv6 field that is left as constructed takes zero only. -/
theorem OFField.not_forall₂_ipv6 {f : OFField} (hf : f.type = .ipv6) :
    ¬ List.Forall₂ (fun s (r : Range1d) => r.inRange s = true) (f.layout.map (word16 1))
      (f.ranges (FieldMatch.any.build f)) := by
  rw [OFField.forall₂_words (by rw [hf]; decide) (by rw [hf]; decide)]
  intro h
  have hmax : (FieldMatch.any.build f).high = 0 := by
    show f.type.max = 0
    rw [hf]
    rfl
  have hlow := (h 0 (by cases f <;> decide)).2
  rw [hmax, word16_zero_left] at hlow
  exact absurd hlow (by decide)

namespace RuleOF151

/-- The ranges of a rule, field by field and behind the fields. -/
theorem forall₂_ruleToArray16b (m : OFField → FieldMatch) (header : OFField → ℕ) {rest : List ℕ}
    (hrest : rest.length = 79) :
    List.Forall₂ (fun s (r : Range1d) => r.inRange s = true) (headerSegments header ++ rest)
        (ofMatches m).ruleToArray16b ↔
      (∀ f : OFField, List.Forall₂ (fun s (r : Range1d) => r.inRange s = true)
        (f.layout.map (word16 (header f))) (f.ranges ((m f).build f))) ∧ ∀ s ∈ rest, s = 0 := by
  have hlen : ∀ f : OFField, (f.layout.map (word16 (header f))).length =
      (f.ranges ((m f).build f)).length := fun f => by
    rw [List.length_map, OFField.length_ranges]
  have hflat : (headerSegments header).length =
      (OFField.writeOrder.flatMap fun f => f.ranges ((m f).build f)).length := by
    simp only [headerSegments, List.length_flatMap, hlen]
  rw [ruleToArray16b_eq]
  refine (forall₂_append_iff hflat).trans (and_congr ?_ ?_)
  · rw [headerSegments, forall₂_flatMap_iff hlen]
    exact ⟨fun h f => h f f.mem_writeOrder, fun h f _ => h f⟩
  · rw [forall₂_replicate_right_iff hrest]
    simp

/-- The ranges never say what the fields say: they do so only if the segments behind the fields
are zero and no IPv6 field is left as constructed. -/
theorem not_meansFields (m : OFField → FieldMatch) (hm : ∀ f, (m f).WellFormed f) :
    ¬ MeansFields m ∧ ∀ rest : List ℕ, rest.length = 79 →
      (MeansWith m rest ↔ (∀ s ∈ rest, s = 0) ∧ ∀ f : OFField, f.type = .ipv6 → m f ≠ .any) := by
  have hwith : ∀ rest : List ℕ, rest.length = 79 →
      (MeansWith m rest ↔ (∀ s ∈ rest, s = 0) ∧ ∀ f : OFField, f.type = .ipv6 → m f ≠ .any) := by
    intro rest hrest
    constructor
    · intro h
      -- a header the rule allows, in which an IPv6 field left as constructed is one
      set header : OFField → ℕ := fun f =>
        if f.type = .ipv6 ∧ m f = .any then 1 else (m f).value with hheader
      have hlt : ∀ f, header f < 2 ^ f.bits := by
        intro f
        simp only [hheader]
        split
        · exact Nat.one_lt_two_pow (by cases f <;> decide)
        · exact (hm f).value_lt
      have hallows : ∀ f, (m f).Allows (header f) := by
        intro f
        simp only [hheader]
        split
        · next hany => rw [hany.2]; trivial
        · exact (hm f).allows_value
      obtain ⟨hfields, hzero⟩ :=
        (forall₂_ruleToArray16b m header hrest).mp ((h header hlt).mpr hallows)
      refine ⟨hzero, fun f hf hany => OFField.not_forall₂_ipv6 hf ?_⟩
      have := hfields f
      rwa [show header f = 1 from if_pos ⟨hf, hany⟩, hany] at this
    · rintro ⟨hzero, hany⟩ header hlt
      rw [forall₂_ruleToArray16b m header hrest]
      constructor
      · rintro ⟨hfields, -⟩ f
        exact (FieldMatch.forall₂_iff (hm f) (hany f) (hlt f)).mp (hfields f)
      · intro hallows
        exact ⟨fun f => (FieldMatch.forall₂_iff (hm f) (hany f) (hlt f)).mpr (hallows f), hzero⟩
  refine ⟨fun h => ?_, hwith⟩
  have hone := h (List.replicate 79 1) (by simp) (by simp)
  have := ((hwith _ (by simp)).mp hone).1 1 (by simp)
  exact absurd this (by decide)

/-- A rule for one Ethernet type. -/
theorem not_meansFields_ethType :
    ¬ MeansFields (Function.update (fun _ => .any) .ethType (.range ⟨0x800, 0x800⟩)) := by
  refine (not_meansFields _ fun f => ?_).1
  cases f <;> first | trivial | exact ⟨by decide, by decide, fun h => absurd h (by decide)⟩

/-- A rule as constructed. -/
theorem not_meansFields_new : ¬ MeansFields fun _ => .any := by
  intro h
  have hheader := (h (List.replicate 79 1) rfl (by decide) (fun _ => 0)
    fun f => Nat.two_pow_pos _).mpr fun _ => trivial
  have hzero := ((forall₂_ruleToArray16b _ _ rfl).mp hheader).2 1 (by decide)
  exact absurd hzero (by decide)

end RuleOF151

end Pcv
