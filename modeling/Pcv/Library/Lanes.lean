import Mathlib.Data.List.Basic
import Mathlib.Tactic.Common

/-!
# Registers cut into lanes

A vector register is a bit vector that instructions read as lanes of one width.  Every
instruction below is defined by the lanes of its result, and its lemma says what one lane, or one
bit, of the result is.  Lanes of different widths over the same register meet in their bits.

The intrinsics keep their names, without the prefix for the register's width.
-/

namespace Pcv

variable {n w : ℕ}

/-- The `i`-th lane of `w` bits, from the lowest. -/
def lane (w : ℕ) (x : BitVec n) (i : ℕ) : BitVec w := x.extractLsb' (w * i) w

/-- The register with the given lanes. -/
def ofLanes (n : ℕ) (f : ℕ → BitVec w) : BitVec n :=
  (BitVec.iunfoldr (fun i (_ : Unit) => ((), (f (i / w)).getLsbD (i % w))) ()).2

theorem getLsbD_lane {x : BitVec n} {i j : ℕ} (h : j < w) :
    (lane w x i).getLsbD j = x.getLsbD (w * i + j) := by
  simp [lane, h]

theorem getLsbD_ofLanes {f : ℕ → BitVec w} {k : ℕ} (h : k < n) :
    (ofLanes n f).getLsbD k = (f (k / w)).getLsbD (k % w) :=
  BitVec.iunfoldr_getLsbD (fun _ => ()) ⟨k, h⟩ fun _ => rfl

theorem lane_ofLanes {f : ℕ → BitVec w} {i : ℕ} (h : w * (i + 1) ≤ n) :
    lane w (ofLanes n f) i = f i := by
  refine BitVec.eq_of_getLsbD_eq fun j hj => ?_
  have hn : w * i + j < n := by
    rw [Nat.mul_succ] at h
    omega
  have hdiv : (w * i + j) / w = i := by
    rw [Nat.mul_add_div (by omega), Nat.div_eq_of_lt hj, Nat.add_zero]
  rw [getLsbD_lane hj, getLsbD_ofLanes hn, hdiv, Nat.mul_add_mod, Nat.mod_eq_of_lt hj]

/-- All bits of a lane set, or none. -/
def fill (w : ℕ) (b : Bool) : BitVec w := if b then BitVec.allOnes w else 0

theorem getLsbD_fill {b : Bool} {j : ℕ} (h : j < w) : (fill w b).getLsbD j = b := by
  cases b <;> simp [fill, h]

/-! ## The instructions -/

/-- A register of 256 bits. -/
abbrev M256i := BitVec 256

/-- `set1_epi32`: one value in every lane. -/
def set1Epi32 (a : BitVec 32) : M256i := ofLanes 256 fun _ => a

/-- `set_epi32`: the lanes from the highest to the lowest. -/
def setEpi32 (e7 e6 e5 e4 e3 e2 e1 e0 : BitVec 32) : M256i :=
  ofLanes 256 fun i => [e0, e1, e2, e3, e4, e5, e6, e7].getD i 0

/-- `add_epi32`: the lanes added, modulo their width. -/
def addEpi32 (a b : M256i) : M256i := ofLanes 256 fun i => lane 32 a i + lane 32 b i

/-- `cmpgt_epi32`: the signed comparison of the lanes. -/
def cmpgtEpi32 (a b : M256i) : M256i :=
  ofLanes 256 fun i => fill 32 ((lane 32 b i).slt (lane 32 a i))

/-- A signed number that does not fit into 16 bits becomes the nearest that does. -/
def saturate16 (x : BitVec 32) : BitVec 16 :=
  if x.toInt < -32768 then 0x8000 else if 32767 < x.toInt then 0x7fff else x.setWidth 16

/-- `packs_epi32`: the saturated lanes of `a` and `b`, the lower halves of both before the
upper halves. -/
def packsEpi32 (a b : M256i) : M256i :=
  ofLanes 256 fun i =>
    saturate16 (lane 32 (if i % 8 < 4 then a else b) (4 * (i / 8) + i % 4))

/-- `permutevar8x32_epi32`: lane `i` of the result is the lane of `a` that lane `i` of `idx`
names in its lowest three bits. -/
def permutevar8x32Epi32 (a idx : M256i) : M256i :=
  ofLanes 256 fun i => lane 32 a ((lane 32 idx i).toNat % 8)

/-- `movemask_epi8`: the highest bit of every byte. -/
def movemaskEpi8 (a : M256i) : BitVec 32 :=
  ofLanes 32 fun i => BitVec.ofBool (lane 8 a i).msb

/-- `tzcnt`: the number of zeros below the lowest bit that is set, and the width if none is. -/
def tzcnt (x : BitVec n) : ℕ := (List.range n).findIdx x.getLsbD

variable {a b : M256i} {i : ℕ}

theorem lane_set1Epi32 {v : BitVec 32} (h : i < 8) : lane 32 (set1Epi32 v) i = v :=
  lane_ofLanes (by omega)

theorem lane_setEpi32 {e7 e6 e5 e4 e3 e2 e1 e0 : BitVec 32} (h : i < 8) :
    lane 32 (setEpi32 e7 e6 e5 e4 e3 e2 e1 e0) i =
      [e0, e1, e2, e3, e4, e5, e6, e7].getD i 0 :=
  lane_ofLanes (by omega)

theorem lane_addEpi32 (h : i < 8) : lane 32 (addEpi32 a b) i = lane 32 a i + lane 32 b i :=
  lane_ofLanes (by omega)

theorem lane_cmpgtEpi32 (h : i < 8) :
    lane 32 (cmpgtEpi32 a b) i = fill 32 ((lane 32 b i).slt (lane 32 a i)) :=
  lane_ofLanes (by omega)

/-- Saturation keeps the outcome of a comparison. -/
theorem saturate16_fill (c : Bool) : saturate16 (fill 32 c) = fill 16 c := by
  cases c <;> decide

theorem lane_packsEpi32 (h : i < 16) :
    lane 16 (packsEpi32 a b) i =
      saturate16 (lane 32 (if i % 8 < 4 then a else b) (4 * (i / 8) + i % 4)) :=
  lane_ofLanes (by omega)

theorem lane_permutevar8x32Epi32 (h : i < 8) :
    lane 32 (permutevar8x32Epi32 a b) i = lane 32 a ((lane 32 b i).toNat % 8) :=
  lane_ofLanes (by omega)

/-- A lane of 16 bits inside a lane of 32. -/
theorem lane16_lane32 {x : BitVec n} {k : ℕ} (h : k < 2) :
    lane 16 (lane 32 x i) k = lane 16 x (2 * i + k) := by
  refine BitVec.eq_of_getLsbD_eq fun j hj => ?_
  rw [getLsbD_lane hj, getLsbD_lane (by omega), getLsbD_lane hj]
  congr 1
  omega

theorem getLsbD_movemaskEpi8 (h : i < 32) :
    (movemaskEpi8 a).getLsbD i = a.getLsbD (8 * i + 7) := by
  rw [movemaskEpi8, getLsbD_ofLanes h, Nat.div_one, Nat.mod_one, BitVec.getLsbD_ofBool,
    BitVec.msb_eq_getLsbD_last, getLsbD_lane (by omega)]
  simp

/-! ## Searching for the first lane -/

theorem findIdx_range_eq {p : ℕ → Bool} {m k : ℕ} (hk : k ≤ m)
    (hbelow : ∀ i < k, p i = false) (hat : k < m → p k = true) :
    (List.range m).findIdx p = k := by
  rcases Nat.lt_or_eq_of_le hk with hlt | rfl
  · have hlen : k < (List.range m).length := by simpa using hlt
    exact (List.findIdx_eq hlen).2
      ⟨by simpa using hat hlt, fun i hi => by simpa using hbelow i hi⟩
  · have hnone : (List.range k).findIdx p = (List.range k).length :=
      List.findIdx_eq_length.2 fun i hi => hbelow i (List.mem_range.1 hi)
    simpa using hnone

/-- In a mask where every lane fills `c` bits the first bit belongs to the first lane. -/
theorem findIdx_range_mul {c : ℕ} (hc : 0 < c) (p : ℕ → Bool) (n : ℕ) :
    (List.range (c * n)).findIdx (fun i => p (i / c)) = c * (List.range n).findIdx p := by
  have hle : (List.range n).findIdx p ≤ n := by
    simpa using @List.findIdx_le_length _ p (List.range n)
  refine findIdx_range_eq (Nat.mul_le_mul_left c hle) (fun i hi => ?_) fun hlt => ?_
  · have hlt : i / c < (List.range n).findIdx p := Nat.div_lt_of_lt_mul hi
    simpa using List.not_of_lt_findIdx hlt
  · have hlen : (List.range n).findIdx p < (List.range n).length := by
      simpa using Nat.lt_of_mul_lt_mul_left hlt
    rw [Nat.mul_div_cancel_left _ hc]
    simpa using List.findIdx_getElem (w := hlen)

theorem findIdx_congr {α : Type} {p q : α → Bool} {l : List α} (h : ∀ x ∈ l, p x = q x) :
    l.findIdx p = l.findIdx q :=
  Nat.le_antisymm (List.findIdx_le_findIdx fun x hx hq => by rwa [h x hx])
    (List.findIdx_le_findIdx fun x hx hp => by rwa [← h x hx])

/-- Two counts of which one cannot exceed the other agree only element by element. -/
theorem countP_eq_iff {α : Type} {p q : α → Bool} {l : List α} (h : ∀ x ∈ l, p x → q x) :
    l.countP p = l.countP q ↔ ∀ x ∈ l, p x = q x := by
  induction l with
  | nil => simp
  | cons x l ih =>
      rw [List.forall_mem_cons] at h
      have hle := List.countP_mono_left h.2
      rw [List.countP_cons, List.countP_cons, List.forall_mem_cons, ← ih h.2]
      cases hp : p x <;> cases hq : q x
      · simp
      · simp
        omega
      · exact absurd (h.1 hp) (by simp [hq])
      · simp

/-- In a sorted list the elements up to a bound are those before the first above it. -/
theorem findIdx_eq_countP {α : Type} {r : α → α → Prop} {p : α → Bool} {l : List α}
    (hl : l.Pairwise r) (hp : ∀ x y, r x y → p x → p y) :
    l.findIdx p = l.countP (!p ·) := by
  induction l with
  | nil => rfl
  | cons x l ih =>
      rw [List.pairwise_cons] at hl
      rw [List.findIdx_cons, List.countP_cons, ih hl.2]
      cases hx : p x with
      | false => simp
      | true =>
          have : l.countP (!p ·) = 0 :=
            List.countP_eq_zero.2 fun y hy => by simp [hp x y (hl.1 y hy) hx]
          simp [this]

end Pcv
