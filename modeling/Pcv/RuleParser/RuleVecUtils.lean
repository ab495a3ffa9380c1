import Pcv.Common.RangeMask
import Pcv.Library.Words
import Mathlib.Logic.Function.Basic

/-!
# Fields written to vectors of 16 bits, and read back

The functions of `vec_build` come in two forms.  The functions of `RuleVec` write a value and a
mask as ranges and read them back from ranges; those of `PacketVec` do the same with a value
alone.  Each takes the index at which it writes or reads, and returns the index behind.

The structures that the source accesses through pointers to 16-bit words (`eth_addr`, `in6_addr`,
`uint128_t`) are represented by the numbers that their bytes in memory make up, the first byte
lowest, so that word `i` of the structure is `word16 v i`.  The memory is of 16-bit values; the
shifts by which they are put together lose no bits, and are not truncated.
-/

namespace Pcv

/-- `dst[i++] = x`, for the given values one after the other. -/
def pushAll {α : Type*} (xs : List α) (i : ℕ) (dst : ℕ → α) : ℕ × (ℕ → α) :=
  xs.foldl (fun s x => (s.1 + 1, Function.update s.2 s.1 x)) (i, dst)

/-- What is read back: the value and the mask, and the index behind. -/
abbrev PopRule := (ℕ × ℕ) × ℕ

/-- What is read back: the value, and the index behind. -/
abbrev PopPacket := ℕ × ℕ

namespace RuleVec

variable (v m i : ℕ) (dst src : ℕ → Range1d)

def push8 := pushAll [Range1d.fromMask 2 v m] i dst

def pop8 : PopRule :=
  let low := (src i).low % 2 ^ 8
  let high := (src i).high % 2 ^ 8
  let r : Range1d := ⟨low, high⟩
  ((r.low, r.getMaskLe 1), i + 1)

def push16 := pushAll [Range1d.fromMask 2 v m] i dst

/-- The locals of the source are bytes here, too. -/
def pop16 : PopRule :=
  let low := (src i).low % 2 ^ 8
  let high := (src i).high % 2 ^ 8
  let r : Range1d := ⟨low, high⟩
  ((r.low, r.getMaskLe 2), i + 1)

def push16be := pushAll [Range1d.fromMask 2 (swab 2 v) (swab 2 m)] i dst

/-- The index is left as it is. -/
def pop16be : PopRule :=
  let s := (src i).toBe 2
  ((s.low, s.getMaskBe 2), i)

def push32 :=
  pushAll ([1, 0].map fun i2 => Range1d.fromMask 2 (word16 v i2) (word16 m i2)) i dst

def pop32 : PopRule :=
  let low := (src (i + 1)).low <<< 16 ||| (src i).low
  let high := (src (i + 1)).high <<< 16 ||| (src i).high
  let res : Range1d := ⟨low, high⟩
  ((res.low, res.getMaskLe 4), i + 2)

def push32be :=
  let v' := swab 4 v
  let m' := swab 4 m
  pushAll ([0, 1].map fun i2 => Range1d.fromMask 2 (word16 v' i2) (word16 m' i2)) i dst

def pop32be : PopRule :=
  let low := (src i).low <<< 16 ||| (src (i + 1)).low
  let high := (src i).high <<< 16 ||| (src (i + 1)).high
  let res := Range1d.toBe ⟨low, high⟩ 4
  ((res.low, res.getMaskBe 4), i + 2)

def pushEthAddr :=
  pushAll ([2, 1, 0].map fun i2 =>
    Range1d.fromMask 2 (swab 2 (word16 v i2)) (swab 2 (word16 m i2))) i dst

def popEthAddr : PopRule :=
  let low := [0, 1, 2].foldl (fun low i2 => (low ||| (src (i + i2)).low) <<< 16) 0
  let high := [0, 1, 2].foldl (fun high i2 => (high ||| (src (i + i2)).high) <<< 16) 0
  let r := Range1d.toBe ⟨low, high⟩ 8
  ((r.low % 2 ^ 48, r.getMaskBe 8 % 2 ^ 48), i + 3)

def push64be :=
  let v' := swab 8 v
  let m' := swab 8 m
  pushAll ([0, 1, 2, 3].map fun i2 => Range1d.fromMask 2 (word16 v' i2) (word16 m' i2)) i dst

def pop64be : PopRule :=
  let low := [0, 1, 2, 3].foldl (fun low i2 => low <<< 16 ||| (src (i + i2)).low) 0
  let high := [0, 1, 2, 3].foldl (fun high i2 => high <<< 16 ||| (src (i + i2)).high) 0
  let res := Range1d.toBe ⟨low, high⟩ 8
  ((res.low, res.getMaskBe 8), i + 4)

def push128be :=
  pushAll ([0, 1, 2, 3, 4, 5, 6, 7].map fun i2 =>
    Range1d.fromMask 2 (swab 2 (word16 v i2)) (swab 2 (word16 m i2))) i dst

/-- All the words of the value and of the mask are assigned. -/
def pop128be : PopRule :=
  let r := fun i2 => (src (i + i2)).toBe 2
  ((ofWords16 ((List.range 8).map fun i2 => (r i2).low),
    ofWords16 ((List.range 8).map fun i2 => (r i2).getMaskBe 2)), i + 8)

def push128 :=
  pushAll ([7, 6, 5, 4, 3, 2, 1, 0].map fun i2 =>
    Range1d.fromMask 2 (word16 v i2) (word16 m i2)) i dst

/-- Word `i2` is read in turn `7 - i2`. -/
def pop128 : PopRule :=
  let r := fun i2 => src (i + (7 - i2))
  ((ofWords16 ((List.range 8).map fun i2 => (r i2).low),
    ofWords16 ((List.range 8).map fun i2 => (r i2).getMaskLe 2)), i + 8)

end RuleVec

namespace PacketVec

variable (v i : ℕ) (dst src : ℕ → ℕ)

def push8 := pushAll [v] i dst

def pop8 : PopPacket := (src i % 2 ^ 8, i + 1)

def push16 := pushAll [v] i dst

def pop16 : PopPacket := (src i, i + 1)

def push16be := pushAll [swab 2 v] i dst

def pop16be : PopPacket := (swab 2 (src i), i + 1)

def push32 := pushAll [v &&& 0xffff, v >>> 16] i dst

def pop32 : PopPacket := (src i <<< 16 ||| src (i + 1), i + 2)

def push32be := pushAll ([0, 1].map fun i2 => word16 (swab 4 v) i2) i dst

def pop32be : PopPacket := (swab 4 (src i <<< 16 ||| src (i + 1)), i + 2)

def pushEthAddr := pushAll ([2, 1, 0].map fun i2 => swab 2 (word16 v i2)) i dst

def popEthAddr : PopPacket :=
  let low := [0, 1, 2].foldl (fun low i2 => (low ||| src (i + i2)) <<< 16) 0
  (swab 8 low % 2 ^ 48, i + 3)

def push64be := pushAll ([0, 1, 2, 3].map fun i2 => word16 (swab 8 v) i2) i dst

def pop64be : PopPacket :=
  let low := [0, 1, 2, 3].foldl (fun low i2 => low <<< 16 ||| src (i + i2)) 0
  (swab 8 low, i + 4)

def push128be := pushAll ([0, 1, 2, 3, 4, 5, 6, 7].map fun i2 => swab 2 (word16 v i2)) i dst

def pop128be : PopPacket :=
  (ofWords16 ((List.range 8).map fun i2 => swab 2 (src (i + i2))), i + 8)

def push128 := pushAll ([7, 6, 5, 4, 3, 2, 1, 0].map fun i2 => word16 v i2) i dst

def pop128 : PopPacket := (ofWords16 ((List.range 8).map fun i2 => src (i + (7 - i2))), i + 8)

end PacketVec

/-! ## The pairs of functions -/

/-- The kinds of fields. -/
inductive VecField
  | bits8 | bits16 | bits16be | bits32 | bits32be | ethAddr | bits64be | bits128 | bits128be
deriving DecidableEq, Repr

namespace VecField

def bytes : VecField → ℕ
  | bits8 => 1
  | bits16 | bits16be => 2
  | bits32 | bits32be => 4
  | ethAddr => 6
  | bits64be => 8
  | bits128 | bits128be => 16

/-- The value in the byte order of the field: its first byte in memory is the highest, if the
field is big-endian. -/
def own (k : VecField) (v : ℕ) : ℕ :=
  match k with
  | bits8 | bits16 | bits32 | bits128 => v
  | bits16be | bits32be | ethAddr | bits64be | bits128be => swab k.bytes v

def pushRule : VecField → ℕ → ℕ → ℕ → (ℕ → Range1d) → ℕ × (ℕ → Range1d)
  | bits8 => RuleVec.push8
  | bits16 => RuleVec.push16
  | bits16be => RuleVec.push16be
  | bits32 => RuleVec.push32
  | bits32be => RuleVec.push32be
  | ethAddr => RuleVec.pushEthAddr
  | bits64be => RuleVec.push64be
  | bits128 => RuleVec.push128
  | bits128be => RuleVec.push128be

def popRule : VecField → ℕ → (ℕ → Range1d) → PopRule
  | bits8 => RuleVec.pop8
  | bits16 => RuleVec.pop16
  | bits16be => RuleVec.pop16be
  | bits32 => RuleVec.pop32
  | bits32be => RuleVec.pop32be
  | ethAddr => RuleVec.popEthAddr
  | bits64be => RuleVec.pop64be
  | bits128 => RuleVec.pop128
  | bits128be => RuleVec.pop128be

def pushPacket : VecField → ℕ → ℕ → (ℕ → ℕ) → ℕ × (ℕ → ℕ)
  | bits8 => PacketVec.push8
  | bits16 => PacketVec.push16
  | bits16be => PacketVec.push16be
  | bits32 => PacketVec.push32
  | bits32be => PacketVec.push32be
  | ethAddr => PacketVec.pushEthAddr
  | bits64be => PacketVec.push64be
  | bits128 => PacketVec.push128
  | bits128be => PacketVec.push128be

def popPacket : VecField → ℕ → (ℕ → ℕ) → PopPacket
  | bits8 => PacketVec.pop8
  | bits16 => PacketVec.pop16
  | bits16be => PacketVec.pop16be
  | bits32 => PacketVec.pop32
  | bits32be => PacketVec.pop32be
  | ethAddr => PacketVec.popEthAddr
  | bits64be => PacketVec.pop64be
  | bits128 => PacketVec.pop128
  | bits128be => PacketVec.pop128be

end VecField

end Pcv
