import Mathlib.Data.Vector.Basic
import Mathlib.Tactic.Common

/-!
# One-dimensional ranges

`Range1d` is the key of every tree in this development: a closed interval of an
unsigned integer type.  The type is described by the number of its bytes, so
that its largest value is `256 ^ bytes - 1`; the values themselves are natural
numbers, since the classifier only compares them.

`overlaps` is translated as it stands in the source.  It is not the symmetric
test one expects: a range that begins inside the other one and ends behind it is
not reported.  `Meets` is the symmetric notion the name suggests, and
`overlaps_iff` says exactly where the two differ.
-/

namespace Pcv

/-- A closed interval of keys. -/
structure Range1d where
  low : ℕ
  high : ℕ
deriving DecidableEq, Repr, Inhabited

/-- `std::numeric_limits<T>::max()` of an unsigned type of `bytes` bytes. -/
def keyMax (bytes : ℕ) : ℕ := 256 ^ bytes - 1

namespace Range1d

/-- The range that contains every value of the key type. -/
def wildcard (bytes : ℕ) : Range1d := ⟨0, keyMax bytes⟩

def isWildcard (r : Range1d) (bytes : ℕ) : Bool :=
  r.low == 0 && r.high == keyMax bytes

def inRange (r : Range1d) (val : ℕ) : Bool :=
  decide (val ≥ r.low) && decide (val ≤ r.high)

/-- The source's overlap test: `other` begins in `r`, or `other` contains `r`. -/
def overlaps (r other : Range1d) : Bool :=
  (decide (r.low ≤ other.low) && decide (r.high ≥ other.low)) ||
    (decide (other.low ≤ r.low) && decide (other.high ≥ r.high))

/-- A range of the key type: the bounds are in order and representable. -/
def Valid (bytes : ℕ) (r : Range1d) : Prop :=
  r.low ≤ r.high ∧ r.high ≤ keyMax bytes

/-- Two ranges share at least one value. -/
def Meets (r other : Range1d) : Prop :=
  r.low ≤ other.high ∧ other.low ≤ r.high

/-- Two ranges share no value. -/
def Disjoint (r other : Range1d) : Prop :=
  r.high < other.low ∨ other.high < r.low

/-- The range ends before the other one begins. -/
def Before (r other : Range1d) : Prop :=
  r.low ≤ r.high ∧ r.high < other.low

instance (r other : Range1d) : Decidable (Meets r other) :=
  inferInstanceAs (Decidable (_ ∧ _))

instance (r other : Range1d) : Decidable (Disjoint r other) :=
  inferInstanceAs (Decidable (_ ∨ _))

instance (bytes : ℕ) (r : Range1d) : Decidable (Valid bytes r) :=
  inferInstanceAs (Decidable (_ ∧ _))

@[simp] theorem inRange_iff (r : Range1d) (val : ℕ) :
    r.inRange val = true ↔ r.low ≤ val ∧ val ≤ r.high := by
  simp [inRange]

theorem isWildcard_iff (r : Range1d) (bytes : ℕ) :
    r.isWildcard bytes = true ↔ r = wildcard bytes := by
  obtain ⟨l, h⟩ := r
  simp [isWildcard, wildcard]

theorem disjoint_iff_not_meets (r other : Range1d) : Disjoint r other ↔ ¬ Meets r other := by
  simp only [Disjoint, Meets]
  omega

theorem Disjoint.symm {r other : Range1d} (h : Disjoint r other) : Disjoint other r :=
  Or.symm h

/-- A range whose bounds are in order meets itself. -/
theorem not_disjoint_self {r : Range1d} (h : r.low ≤ r.high) : ¬ Disjoint r r := by
  simp only [Disjoint]
  omega

/-- Disjoint ranges have no value in common. -/
theorem Disjoint.not_inRange {r other : Range1d} (h : Disjoint r other) {v : ℕ}
    (hr : r.inRange v = true) : other.inRange v = false := by
  rw [inRange_iff] at hr
  have hnot : ¬ (other.low ≤ v ∧ v ≤ other.high) := by
    rcases h with h | h <;> omega
  simpa [inRange] using hnot

theorem Before.low_lt {r other : Range1d} (h : Before r other) : r.low < other.low :=
  h.1.trans_lt h.2

/-- A value of a range does not lie in the ranges behind it. -/
theorem Before.not_inRange {r other : Range1d} (h : Before r other) {v : ℕ}
    (hr : r.inRange v = true) : other.inRange v = false :=
  Disjoint.not_inRange (.inl h.2) hr

/-- Two ranges that share no value stand one before the other. -/
theorem Disjoint.before {r other : Range1d} (h : Disjoint r other) (hr : r.low ≤ r.high)
    (ho : other.low ≤ other.high) : Before r other ∨ Before other r :=
  h.imp (⟨hr, ·⟩) (⟨ho, ·⟩)

/-- The source's test, against the symmetric one: it misses exactly the pairs in
which `other` begins before `r`, reaches into it and ends before `r` does. -/
theorem overlaps_iff (r other : Range1d) (hr : r.low ≤ r.high) (ho : other.low ≤ other.high) :
    r.overlaps other = true ↔
      Meets r other ∧ ¬ (other.low < r.low ∧ other.high < r.high) := by
  simp only [overlaps, Meets, ge_iff_le, Bool.or_eq_true, Bool.and_eq_true, decide_eq_true_eq]
  omega

/-! ## Masks -/

/-- The number of leading zero bits of a byte, the source's `bytePrefix` table. -/
def bytePrefix : List ℕ :=
  [8, 7] ++ List.replicate 2 6 ++ List.replicate 4 5 ++ List.replicate 8 4 ++
    List.replicate 16 3 ++ List.replicate 32 2 ++ List.replicate 64 1 ++ List.replicate 128 0

/-- The byte whose first bits are set, the source's `mask_val` table. -/
def maskVal : List ℕ :=
  [0, 0b10000000, 0b11000000, 0b11100000, 0xf0, 0b11111000, 0b11111100, 0b11111110, 0xff]

/-- The length of the common bit prefix of two bytes, and its mask. -/
def getCommonPrefixLength (a b : ℕ) : ℕ × ℕ :=
  let pl := bytePrefix.getD (a ^^^ b) 0
  (pl, maskVal.getD pl 0)

/-- The loop of `_get_mask_le`: byte `b - 1` first, down to byte `0`, leaving it
after the first byte that is not shared in full. -/
def getMaskLeFrom (r : Range1d) : ℕ → ℕ × ℕ
  | 0 => (0, 0)
  | b + 1 =>
      let p := getCommonPrefixLength (r.low / 256 ^ b % 256) (r.high / 256 ^ b % 256)
      if p.1 != 8 then (p.2 * 256 ^ b, p.1)
      else
        let rest := getMaskLeFrom r b
        (p.2 * 256 ^ b + rest.1, p.1 + rest.2)

/-- The mask of the common prefix of the two bounds and its length in bits. -/
def getMaskLeLen (r : Range1d) (bytes : ℕ) : ℕ × ℕ := getMaskLeFrom r bytes

def getMaskLe (r : Range1d) (bytes : ℕ) : ℕ := (getMaskLeLen r bytes).1

end Range1d

end Pcv
