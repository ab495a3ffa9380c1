import Pcv.Common.RangeMask
import Mathlib.Data.List.Pairwise

/-!
# The conversion of an Open vSwitch flow

A rule of Open vSwitch is a flow together with a mask, and a packet matches it when it has the
bits of the flow where the mask is set.  The packet specification cuts the flow into segments
of one or two bytes.  `flowToArray` makes a range of each segment, and `getVal` reads the value
that the search compares with it.

The ranges say what the mask says only for some masks: those of two bytes have to be prefixes,
and a segment of one byte is widened to two bytes in a way that leaves its range open above.
-/

namespace Pcv

namespace StructFlow

/-- The memory of a flow, of its mask or of a packet. -/
abbrev Bytes := ℕ → Fin 256

/-- `in_packet_position_t`. -/
structure InPacketPosition where
  offset : ℕ
  size : ℕ
  isBigEndian : Bool
deriving DecidableEq

/-- `*reinterpret_cast<const uint16_t*>(f + offset)` on a little-endian machine. -/
def readU16 (f : Bytes) (offset : ℕ) : ℕ := (f offset).val + 256 * (f (offset + 1)).val

/-- `BTreeSearch::get_val`, for the segment `p`. -/
def getVal (valVec : Bytes) (p : InPacketPosition) : ℕ :=
  if p.size = 1 then (valVec p.offset).val
  else if p.isBigEndian then swab 2 (readU16 valVec p.offset)
  else readU16 valVec p.offset

/-- Two bytes in the order of the segment. -/
def readOrdered (f : Bytes) (spec : InPacketPosition) : ℕ :=
  if spec.isBigEndian then swab 2 (readU16 f spec.offset) else readU16 f spec.offset

/-- The body of the loop of `flow_to_array`. -/
def segmentRange (f masks : Bytes) (spec : InPacketPosition) : Range1d :=
  let v := readOrdered f spec
  let m := readOrdered masks spec
  if spec.size = 1 then
    let v := v &&& 0xff
    let m := m &&& 0xff
    let v := if m = 0 then 0 else v
    Range1d.fromMask 2 v m
  else Range1d.fromMask 2 v m

/-- `flow_to_array`. -/
def flowToArray (structFlowPacketSpec : List InPacketPosition) (f masks : Bytes) : List Range1d :=
  structFlowPacketSpec.map (segmentRange f masks)

/-! ## When the ranges mean what the mask means -/

/-- A segment is one byte, or two bytes in one of the two orders. -/
def InPacketPosition.WellFormed (p : InPacketPosition) : Prop :=
  p.size = 2 ∨ p.size = 1 ∧ p.isBigEndian = false

instance (p : InPacketPosition) : Decidable p.WellFormed := inferInstanceAs (Decidable (_ ∨ _))

/-- The bytes of a segment. -/
def InPacketPosition.bytes (p : InPacketPosition) : List ℕ := List.range' p.offset p.size

/-- The packet has the bits of the flow where the mask is set. -/
def MaskedEq (f masks packet : Bytes) (p : InPacketPosition) : Prop :=
  ∀ o ∈ p.bytes, (packet o).val &&& (masks o).val = (f o).val &&& (masks o).val

/-- The value read from the packet lies in the range made of the flow, for every segment, exactly
if the packet agrees with the flow under the mask on all the bytes of the segments. -/
def MeansMask (spec : List InPacketPosition) (f masks : Bytes) : Prop :=
  ∀ packet : Bytes, List.Forall₂ (fun p (r : Range1d) => r.inRange (getVal packet p) = true) spec
    (flowToArray spec f masks) ↔ ∀ p ∈ spec, MaskedEq f masks packet p

/-- The mask of the segment is a prefix; the mask of a single byte is, moreover, the byte of the
flow. -/
def PrefixSegment (f masks : Bytes) (p : InPacketPosition) : Prop :=
  if p.size = 1 then f p.offset = masks p.offset ∧ IsPrefixMask 8 (masks p.offset).val
  else IsPrefixMask 16 (readOrdered masks p)

section Segment

variable {f masks packet : Bytes} {p : InPacketPosition}

theorem mem_bytes {o : ℕ} : o ∈ p.bytes ↔ p.offset ≤ o ∧ o < p.offset + p.size := by
  simp [InPacketPosition.bytes]

/-- Two bytes are read as a low and a high one. -/
theorem exists_order (h : p.size = 2) : ∃ i j, i ≠ j ∧ (∀ o, o ∈ p.bytes ↔ o = i ∨ o = j) ∧
    ∀ f : Bytes, readOrdered f p = (f i).val + 256 * (f j).val := by
  have hmem : ∀ o, o ∈ p.bytes ↔ o = p.offset ∨ o = p.offset + 1 := by
    intro o
    rw [mem_bytes, h]
    omega
  cases hbe : p.isBigEndian with
  | false => exact ⟨p.offset, p.offset + 1, by omega, hmem, fun f => by simp [readOrdered, hbe, readU16]⟩
  | true =>
      refine ⟨p.offset + 1, p.offset, by omega, fun o => by rw [hmem, or_comm], fun f => ?_⟩
      simp [readOrdered, hbe, readU16, swab_two _ _ (f p.offset).isLt (f (p.offset + 1)).isLt]

theorem getVal_two (h : p.size = 2) : getVal packet p = readOrdered packet p := by
  simp [getVal, h, readOrdered]

theorem readOrdered_lt (h : p.size = 2) (f : Bytes) : readOrdered f p < 2 ^ 16 := by
  obtain ⟨i, j, -, -, hf⟩ := exists_order h
  have := (f i).isLt
  have := (f j).isLt
  rw [hf]
  omega

/-- The bytes agree under the mask if the words do. -/
theorem maskedEq_two (h : p.size = 2) : MaskedEq f masks packet p ↔
    readOrdered packet p &&& readOrdered masks p = readOrdered f p &&& readOrdered masks p := by
  obtain ⟨i, j, -, hmem, hf⟩ := exists_order h
  have hlow : ∀ g : Bytes, (g i).val &&& (masks i).val < 256 := fun g =>
    Nat.and_le_left.trans_lt (g i).isLt
  rw [hf, hf, hf, and_two_bytes (packet i).isLt (masks i).isLt,
    and_two_bytes (f i).isLt (masks i).isLt]
  have hpacket := hlow packet
  have hflow := hlow f
  constructor
  · intro heq
    rw [heq i ((hmem i).mpr (.inl rfl)), heq j ((hmem j).mpr (.inr rfl))]
  · intro heq o ho
    rcases (hmem o).mp ho with rfl | rfl <;> omega

theorem readOrdered_and (h : p.size = 2) (hf : ∀ o, (f o).val &&& (masks o).val = (f o).val) :
    readOrdered f p &&& readOrdered masks p = readOrdered f p := by
  obtain ⟨i, j, -, -, hord⟩ := exists_order h
  rw [hord, hord, and_two_bytes (f i).isLt (masks i).isLt, hf, hf]

/-- What the range of a segment of two bytes says. -/
theorem inRange_two (h : p.size = 2) : (segmentRange f masks p).inRange (getVal packet p) = true ↔
    readOrdered f p ≤ readOrdered packet p ∧
      readOrdered packet p ≤ readOrdered f p ||| bitNot 16 (readOrdered masks p) := by
  rw [getVal_two h, Range1d.inRange_iff]
  simp [segmentRange, h, Range1d.fromMask]

theorem maskedEq_one (h : p.size = 1) : MaskedEq f masks packet p ↔
    (packet p.offset).val &&& (masks p.offset).val = (f p.offset).val &&& (masks p.offset).val := by
  have hmem : ∀ o, o ∈ p.bytes ↔ o = p.offset := by
    intro o
    rw [mem_bytes, h]
    omega
  simp [MaskedEq, hmem]

/-- What the range of a single byte says: it has no upper end. -/
theorem inRange_one (h : p.size = 1) (hbe : p.isBigEndian = false)
    (hf : ∀ o, (f o).val &&& (masks o).val = (f o).val) :
    (segmentRange f masks p).inRange (getVal packet p) = true ↔
      (f p.offset).val ≤ (packet p.offset).val := by
  have hlow : ∀ g : Bytes, readOrdered g p &&& 0xff = (g p.offset).val := by
    intro g
    have := (g p.offset).isLt
    rw [show (0xff : ℕ) = 2 ^ 8 - 1 from rfl, Nat.and_two_pow_sub_one_eq_mod, readOrdered, hbe,
      readU16]
    simp only [Bool.false_eq_true, if_false]
    omega
  have hp := (packet p.offset).isLt
  have hm := (masks p.offset).isLt
  have hval : getVal packet p = (packet p.offset).val := by simp [getVal, h]
  rw [hval, Range1d.inRange_iff]
  simp only [segmentRange, h, if_true, hlow, Range1d.fromMask]
  have hzero : (if (masks p.offset).val = 0 then 0 else (f p.offset).val) = (f p.offset).val := by
    split
    · next h0 =>
        have := hf p.offset
        rw [h0, Nat.and_zero] at this
        exact this
    · rfl
  have htop : (packet p.offset).val ≤ (f p.offset).val ||| bitNot (8 * 2) (masks p.offset).val := by
    refine le_trans ?_ Nat.right_le_or
    simp only [bitNot]
    omega
  rw [hzero]
  exact ⟨And.left, fun hle => ⟨hle, htop⟩⟩

/-- A segment with a prefix mask says what the mask says. -/
theorem PrefixSegment.inRange_iff (h : PrefixSegment f masks p) (hp : p.WellFormed)
    (hf : ∀ o, (f o).val &&& (masks o).val = (f o).val) :
    (segmentRange f masks p).inRange (getVal packet p) = true ↔ MaskedEq f masks packet p := by
  rcases hp with hsize | ⟨hsize, hbe⟩
  · rw [PrefixSegment, hsize, if_neg (by decide)] at h
    rw [inRange_two hsize, maskedEq_two hsize, readOrdered_and hsize hf]
    exact h.interval_iff (readOrdered_and hsize hf) (readOrdered_lt hsize packet)
  · rw [PrefixSegment, hsize, if_pos rfl] at h
    obtain ⟨heq, hmask⟩ := h
    rw [inRange_one hsize hbe hf, maskedEq_one hsize, hf, heq]
    rw [← hmask.interval_iff (Nat.and_self _) (packet p.offset).isLt]
    refine ⟨fun hle => ⟨hle, ?_⟩, And.left⟩
    have hlast : (masks p.offset).val ||| bitNot 8 (masks p.offset).val = 2 ^ 8 - 1 := by
      refine Nat.eq_of_testBit_eq fun i => ?_
      rw [Nat.testBit_or, testBit_bitNot hmask.lt, Nat.testBit_two_pow_sub_one]
      rcases Nat.lt_or_ge i 8 with hi | hi
      · cases (masks p.offset).val.testBit i <;> simp [hi]
      · rw [Nat.testBit_lt_two_pow (hmask.lt.trans_le (Nat.pow_le_pow_right (by decide) hi))]
        simp
    have := (packet p.offset).isLt
    omega

/-- A segment that says what the mask says has a prefix mask. -/
theorem prefixSegment_of_inRange_iff (hp : p.WellFormed)
    (hf : ∀ o, (f o).val &&& (masks o).val = (f o).val)
    (h : ∀ packet : Bytes, (segmentRange f masks p).inRange (getVal packet p) = true ↔
      MaskedEq f masks packet p) : PrefixSegment f masks p := by
  rcases hp with hsize | ⟨hsize, hbe⟩
  · rw [PrefixSegment, hsize, if_neg (by decide)]
    obtain ⟨i, j, hij, -, hord⟩ := exists_order hsize
    refine isPrefixMask_of_interval (readOrdered_lt hsize masks) (readOrdered_and hsize hf)
      fun x hx hlow hhigh => ?_
    have hword : readOrdered (fun o => if o = i then Fin.ofNat 256 x else Fin.ofNat 256 (x / 256)) p
        = x := by
      rw [hord]
      simp only [if_true, if_neg hij.symm, Fin.ofNat]
      omega
    have := (h fun o => if o = i then Fin.ofNat 256 x else Fin.ofNat 256 (x / 256)).mp
      ((inRange_two hsize).mpr (by rw [hword]; exact ⟨hlow, hhigh⟩))
    rwa [maskedEq_two hsize, hword, readOrdered_and hsize hf] at this
  · rw [PrefixSegment, hsize, if_pos rfl]
    have hiff : ∀ x : Fin 256, (f p.offset).val ≤ x.val ↔
        x.val &&& (masks p.offset).val = (f p.offset).val := by
      intro x
      have := h fun _ => x
      rwa [inRange_one hsize hbe hf, maskedEq_one hsize, hf] at this
    have heq : (f p.offset).val = (masks p.offset).val := by
      have := (hiff 255).mp (Nat.le_of_lt_succ (f p.offset).isLt)
      rw [← this]
      show (2 ^ 8 - 1) &&& _ = _
      rw [Nat.and_comm, Nat.and_two_pow_sub_one_of_lt_two_pow (masks p.offset).isLt]
    refine ⟨Fin.ext heq, isPrefixMask_of_interval (masks p.offset).isLt (hf p.offset)
      fun x hx hlow _ => (hiff ⟨x, hx⟩).mp hlow⟩

end Segment

/-! ## The ranges against the mask -/

section Flow

variable {f masks : Bytes} {spec : List InPacketPosition}

/-- No byte belongs to two segments. -/
def Disjoint (spec : List InPacketPosition) : Prop :=
  spec.Pairwise fun p q => ∀ o ∈ p.bytes, o ∉ q.bytes

instance : Decidable (Disjoint spec) :=
  inferInstanceAs (Decidable (spec.Pairwise fun p q => ∀ o ∈ p.bytes, o ∉ q.bytes))

theorem forall₂_flowToArray (packet : Bytes) :
    List.Forall₂ (fun p (r : Range1d) => r.inRange (getVal packet p) = true) spec
        (flowToArray spec f masks) ↔
      ∀ p ∈ spec, (segmentRange f masks p).inRange (getVal packet p) = true := by
  rw [flowToArray, List.forall₂_map_right_iff, List.forall₂_same]

/-- What is read from a packet for a segment depends on the bytes of the segment only. -/
theorem getVal_congr {packet other : Bytes} {p : InPacketPosition} (hp : p.WellFormed)
    (h : ∀ o ∈ p.bytes, packet o = other o) : getVal packet p = getVal other p := by
  rcases hp with hsize | ⟨hsize, -⟩
  · obtain ⟨i, j, -, hmem, hord⟩ := exists_order hsize
    rw [getVal_two hsize, getVal_two hsize, hord, hord, h i ((hmem i).mpr (.inl rfl)),
      h j ((hmem j).mpr (.inr rfl))]
  · simp only [getVal, hsize, if_true]
    rw [h p.offset (mem_bytes.mpr (by omega))]

theorem maskedEq_congr {packet other : Bytes} {p : InPacketPosition}
    (h : ∀ o ∈ p.bytes, packet o = other o) :
    MaskedEq f masks packet p ↔ MaskedEq f masks other p := by
  constructor <;> intro heq o ho
  · rw [← h o ho, heq o ho]
  · rw [h o ho, heq o ho]

/-- The flow itself is in all its ranges. -/
theorem inRange_self {p : InPacketPosition} (hp : p.WellFormed)
    (hf : ∀ o, (f o).val &&& (masks o).val = (f o).val) :
    (segmentRange f masks p).inRange (getVal f p) = true := by
  rcases hp with hsize | ⟨hsize, hbe⟩
  · exact (inRange_two hsize).mpr ⟨le_rfl, Nat.left_le_or⟩
  · exact (inRange_one hsize hbe hf).mpr le_rfl

/-- If the segments share no byte, each of them can be tried on its own: the rest of the packet is
taken from the flow. -/
theorem MeansMask.segment (h : MeansMask spec f masks) (hwf : ∀ p ∈ spec, p.WellFormed)
    (hf : ∀ o, (f o).val &&& (masks o).val = (f o).val) (hdisj : Disjoint spec)
    {p : InPacketPosition} (hp : p ∈ spec) (packet : Bytes) :
    (segmentRange f masks p).inRange (getVal packet p) = true ↔ MaskedEq f masks packet p := by
  set mixed : Bytes := fun o => if o ∈ p.bytes then packet o else f o with hmixed
  have hown : ∀ o ∈ p.bytes, mixed o = packet o := fun o ho => by simp [hmixed, ho]
  have hrest : ∀ q ∈ spec, q ≠ p → ∀ o ∈ q.bytes, mixed o = f o := by
    intro q hq hne o ho
    have hsym : Std.Symm fun p q : InPacketPosition => ∀ o ∈ p.bytes, o ∉ q.bytes :=
      ⟨fun _ _ hpq o ho hmem => hpq o hmem ho⟩
    have : o ∉ p.bytes := List.Pairwise.forall hdisj hq hp hne o ho
    simp [hmixed, this]
  have hwhole := (forall₂_flowToArray mixed).symm.trans (h mixed)
  rw [← getVal_congr (hwf p hp) hown, ← maskedEq_congr hown]
  constructor
  · intro hin
    refine hwhole.mp (fun q hq => ?_) p hp
    by_cases hqp : q = p
    · rwa [hqp]
    · rw [getVal_congr (hwf q hq) (hrest q hq hqp)]
      exact inRange_self (hwf q hq) hf
  · intro heq
    refine hwhole.mpr (fun q hq => ?_) p hp
    by_cases hqp : q = p
    · rwa [hqp]
    · exact (maskedEq_congr (hrest q hq hqp)).mpr fun o _ => rfl

/-- The ranges of a flow say what its mask says if all the segments have prefix masks; if the
segments share no byte, they do so in no other case. -/
theorem meansMask_iff (hwf : ∀ p ∈ spec, p.WellFormed)
    (hf : ∀ o, (f o).val &&& (masks o).val = (f o).val) :
    ((∀ p ∈ spec, PrefixSegment f masks p) → MeansMask spec f masks) ∧
      (Disjoint spec → (MeansMask spec f masks ↔ ∀ p ∈ spec, PrefixSegment f masks p)) := by
  have hmeans : (∀ p ∈ spec, PrefixSegment f masks p) → MeansMask spec f masks := by
    intro hmask packet
    rw [forall₂_flowToArray]
    exact forall₂_congr fun p hp => (hmask p hp).inRange_iff (hwf p hp) hf
  refine ⟨hmeans, fun hdisj => ⟨fun h p hp => ?_, hmeans⟩⟩
  exact prefixSegment_of_inRange_iff (hwf p hp) hf (h.segment hwf hf hdisj hp)

/-- A protocol byte, and an address whose upper byte is given. -/
theorem meansMask_iff_protocolAddress :
    MeansMask [⟨0, 1, false⟩, ⟨2, 2, true⟩] (fun o => if o = 0 then 255 else if o = 2 then 10 else 0)
      (fun o => if o = 0 ∨ o = 2 then 255 else 0) := by
  refine (meansMask_iff (by decide) fun o => ?_).1 ?_
  · split_ifs <;> simp_all
  · intro p hp
    rcases List.mem_pair.mp hp with rfl | rfl
    · exact ⟨rfl, 0, by decide, by decide⟩
    · exact ⟨8, by decide, by decide⟩

/-- A byte that is given exactly: its range takes larger values as well. -/
theorem not_meansMask_byte : ¬ ((∀ p ∈ [(⟨0, 1, false⟩ : InPacketPosition)], p.WellFormed) ∧
      (∀ o : ℕ, (((fun _ => 6 : Bytes) o).val &&& ((fun _ => 255 : Bytes) o).val) =
        ((fun _ => 6 : Bytes) o).val) →
    MeansMask [⟨0, 1, false⟩] (fun _ => 6) (fun _ => 255)) := by
  intro h
  have hmeans := h ⟨by decide, fun _ => show (6 : ℕ) &&& 255 = 6 by decide⟩ fun _ => 17
  have hin : ∀ p ∈ [(⟨0, 1, false⟩ : InPacketPosition)], MaskedEq (fun _ => 6) (fun _ => 255)
      (fun _ => 17) p := hmeans.mp ((forall₂_flowToArray _).mpr (by decide))
  have := hin _ (List.mem_singleton.mpr rfl) 0 (by decide)
  exact absurd this (by decide)

end Flow

end StructFlow

end Pcv
