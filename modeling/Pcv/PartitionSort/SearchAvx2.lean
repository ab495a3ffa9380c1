import Pcv.PartitionSort.BTreeSearch
import Pcv.Library.Lanes

/-!
# The vectorised search for a value

`search_avx2` compares the sixteen keys of a node at once.  The instructions compare signed
numbers only, so `_mm256_cmpgt_epu32` moves its operands by half the range, but it moves only
the first of the two.  The search therefore looks for the value moved by half the range
(`valIndex_searchAvx2`): it finds the place of the value itself exactly when no key lies between
the two (`valIndex_searchAvx2_eq_iff`).
-/

namespace Pcv

namespace SearchFn

/-- `_mm256_cmpgt_epu32`: the offset is added to the first operand alone. -/
def cmpgtEpu32 (a b : M256i) : M256i :=
  let offset : BitVec 32 := 1 <<< 31
  let fixVal := set1Epi32 offset
  cmpgtEpi32 (addEpi32 a fixVal) b

/-- `search_avx2<uint32_t>`. -/
def searchAvx2 (keys : Vector M256i 2) (val : BitVec 32) : SearchResult :=
  let value := set1Epi32 val
  let cmp1 := cmpgtEpu32 keys[0] value
  let cmp2 := cmpgtEpu32 keys[1] value
  let permMask := setEpi32 7 6 3 2 5 4 1 0
  let cmp := permutevar8x32Epi32 (packsEpi32 cmp1 cmp2) permMask
  let mask := movemaskEpi8 cmp
  ⟨tzcnt mask / 2, false⟩

/-- The sixteen keys of two loaded registers. -/
def keyList (keys : Vector M256i 2) : List (BitVec 32) :=
  (List.range 16).map fun i => lane 32 (if i < 8 then keys[0] else keys[1]) (i % 8)

/-- The two registers that hold the given keys. -/
def ofKeys (f : ℕ → BitVec 32) : Vector M256i 2 :=
  #v[ofLanes 256 f, ofLanes 256 fun i => f (8 + i)]

/-- Every sixteen keys are the keys of two registers. -/
theorem keyList_ofKeys (f : ℕ → BitVec 32) : keyList (ofKeys f) = (List.range 16).map f := by
  have hfirst : (ofKeys f)[0] = ofLanes 256 f := rfl
  have hsecond : (ofKeys f)[1] = ofLanes 256 fun i => f (8 + i) := rfl
  refine List.map_congr_left fun i hi => ?_
  have hi : i < 16 := List.mem_range.1 hi
  split
  · rename_i hlow
    rw [hfirst, lane_ofLanes (by omega), Nat.mod_eq_of_lt hlow]
  · rename_i hhigh
    rw [hsecond, lane_ofLanes (by omega)]
    congr 1
    omega

variable {a b : M256i} {val : BitVec 32} {i : ℕ}

/-- The value that the comparison really uses. -/
def moved (val : BitVec 32) : BitVec 32 := val + 1 <<< 31

theorem slt_add_offset (k v : BitVec 32) : v.slt (k + 1 <<< 31) = decide (moved v < k) := by
  have hk := k.isLt
  have hv := v.isLt
  have hoff : (1 <<< 31 : BitVec 32).toNat = 2 ^ 31 := by decide
  rw [BitVec.slt_eq_decide, decide_eq_decide, BitVec.lt_def, moved, BitVec.toInt_eq_toNat_cond,
    BitVec.toInt_eq_toNat_cond, BitVec.toNat_add, BitVec.toNat_add, hoff]
  split <;> split <;> omega

theorem lane_cmpgtEpu32 (h : i < 8) :
    lane 32 (cmpgtEpu32 a (set1Epi32 val)) i = fill 32 (decide (moved val < lane 32 a i)) := by
  rw [cmpgtEpu32, lane_cmpgtEpi32 h, lane_addEpi32 h, lane_set1Epi32 h, lane_set1Epi32 h,
    slt_add_offset]

/-- Where the pack and the permutation after it take word `i` from. -/
def packedFrom (i : ℕ) : ℕ := 2 * [0, 1, 4, 5, 2, 3, 6, 7].getD (i / 2) 0 + i % 2

theorem packedFrom_spec :
    ∀ i < 16, packedFrom i < 16 ∧ (packedFrom i % 8 < 4 ↔ i < 8) ∧
      4 * (packedFrom i / 8) + packedFrom i % 4 = i % 8 := by
  decide

theorem lane_permMask :
    ∀ i < 8, (lane 32 (setEpi32 7 6 3 2 5 4 1 0) i).toNat % 8 =
      [0, 1, 4, 5, 2, 3, 6, 7].getD i 0 := by
  intro i hi
  rw [lane_setEpi32 hi]
  revert i
  decide

/-- The permutation undoes the interleaving of the pack: the words are in the order of the
keys. -/
theorem lane_permuted (h : i < 16) :
    lane 16 (permutevar8x32Epi32 (packsEpi32 a b) (setEpi32 7 6 3 2 5 4 1 0)) i =
      saturate16 (lane 32 (if i < 8 then a else b) (i % 8)) := by
  obtain ⟨hlt, hhalf, hindex⟩ := packedFrom_spec i h
  have hpair : 2 * (i / 2) + i % 2 = i := Nat.div_add_mod i 2
  calc lane 16 (permutevar8x32Epi32 (packsEpi32 a b) (setEpi32 7 6 3 2 5 4 1 0)) i
      = lane 16 (lane 32 (permutevar8x32Epi32 (packsEpi32 a b)
          (setEpi32 7 6 3 2 5 4 1 0)) (i / 2)) (i % 2) := by
        rw [lane16_lane32 (by omega), hpair]
    _ = lane 16 (packsEpi32 a b) (packedFrom i) := by
        rw [lane_permutevar8x32Epi32 (by omega), lane_permMask _ (by omega),
          lane16_lane32 (by omega), packedFrom]
    _ = saturate16 (lane 32 (if i < 8 then a else b) (i % 8)) := by
        rw [lane_packsEpi32 hlt, hindex]
        simp only [hhalf]

/-- Every word of the comparisons fills two bits of the mask. -/
theorem tzcnt_movemaskEpi8 {c : M256i} {q : ℕ → Bool}
    (hc : ∀ j < 16, lane 16 c j = fill 16 (q j)) :
    tzcnt (movemaskEpi8 c) = 2 * (List.range 16).findIdx q := by
  have hmask : ∀ i ∈ List.range 32, (movemaskEpi8 c).getLsbD i = q (i / 2) := by
    intro i hi
    have hi : i < 32 := List.mem_range.1 hi
    have hbit : 16 * (i / 2) + (8 * (i % 2) + 7) = 8 * i + 7 := by omega
    have hword : 8 * (i % 2) + 7 < 16 := by omega
    rw [getLsbD_movemaskEpi8 hi, ← hbit, ← getLsbD_lane hword, hc _ (by omega),
      getLsbD_fill hword]
  rw [tzcnt, findIdx_congr hmask]
  exact findIdx_range_mul (by decide) q 16

/-- The search looks for the first key above the moved value. -/
theorem valIndex_searchAvx2 (keys : Vector M256i 2) (val : BitVec 32) :
    (searchAvx2 keys val).valIndex = (keyList keys).findIdx (moved val < ·) := by
  have hcmp (a : M256i) (j : ℕ) :
      lane 32 (cmpgtEpu32 a (set1Epi32 val)) (j % 8) =
        fill 32 (moved val < lane 32 a (j % 8)) :=
    lane_cmpgtEpu32 (Nat.mod_lt j (by decide))
  have hwords : ∀ j < 16,
      lane 16 (permutevar8x32Epi32
        (packsEpi32 (cmpgtEpu32 keys[0] (set1Epi32 val)) (cmpgtEpu32 keys[1] (set1Epi32 val)))
        (setEpi32 7 6 3 2 5 4 1 0)) j =
      fill 16 (moved val < lane 32 (if j < 8 then keys[0] else keys[1]) (j % 8)) := by
    intro j hj
    rw [lane_permuted hj, ← saturate16_fill, ← hcmp]
    split <;> rfl
  have hindex := tzcnt_movemaskEpi8 hwords
  rw [keyList, List.findIdx_map]
  show tzcnt _ / 2 = _
  rw [hindex, Nat.mul_div_cancel_left _ (by decide : 0 < 2)]
  rfl

variable {keys : Vector M256i 2}

/-- Among sorted keys the search counts those up to the moved value. -/
theorem valIndex_eq_countP (hkeys : (keyList keys).Pairwise (· ≤ ·)) :
    (searchAvx2 keys val).valIndex = (keyList keys).countP (· ≤ moved val) := by
  have habove (x y : BitVec 32) (hxy : x ≤ y) (hx : decide (moved val < x) = true) :
      decide (moved val < y) = true := by
    simp only [decide_eq_true_eq, BitVec.lt_def, BitVec.le_def] at *
    omega
  have hnot (k : BitVec 32) : (!decide (moved val < k)) = decide (k ≤ moved val) := by
    simp only [← decide_not, BitVec.not_lt]
  simp only [valIndex_searchAvx2, findIdx_eq_countP hkeys habove, hnot]

/-- The key lies between the value and the place where the search looks for it. -/
def Between (val k : BitVec 32) : Prop :=
  if val.toNat < 2 ^ 31 then val.toNat < k.toNat ∧ k.toNat ≤ val.toNat + 2 ^ 31
  else val.toNat - 2 ^ 31 < k.toNat ∧ k.toNat ≤ val.toNat

theorem le_iff_le_moved (val k : BitVec 32) :
    (k ≤ moved val ↔ k ≤ val) ↔ ¬ Between val k := by
  have hk := k.isLt
  have hv := val.isLt
  have hoff : (1 <<< 31 : BitVec 32).toNat = 2 ^ 31 := by decide
  rw [Between, BitVec.le_def, BitVec.le_def, moved, BitVec.toNat_add, hoff]
  split <;> omega

theorem le_or_le_moved (val : BitVec 32) :
    (∀ k, k ≤ val → k ≤ moved val) ∨ ∀ k, k ≤ moved val → k ≤ val :=
  (BitVec.le_total val (moved val)).imp (fun h _ hk => BitVec.le_trans hk h)
    fun h _ hk => BitVec.le_trans hk h

/-- On sorted keys the search counts the keys up to the value exactly when no key lies between
the value and the place where it looks for it. -/
theorem valIndex_searchAvx2_eq_iff (hkeys : (keyList keys).Pairwise (· ≤ ·)) :
    (searchAvx2 keys val).valIndex = (keyList keys).countP (· ≤ val) ↔
      ∀ k ∈ keyList keys, ¬ Between val k := by
  rw [valIndex_eq_countP hkeys]
  have hagree : (keyList keys).countP (· ≤ moved val) = (keyList keys).countP (· ≤ val) ↔
      ∀ k ∈ keyList keys, decide (k ≤ moved val) = decide (k ≤ val) := by
    rcases le_or_le_moved val with hle | hle
    · rw [eq_comm, countP_eq_iff fun k _ => by simpa using hle k]
      simp only [eq_comm]
    · exact countP_eq_iff fun k _ => by simpa using hle k
  simp only [hagree, decide_eq_decide, le_iff_le_moved]

/-- The keys `1` to `16`. -/
def firstKeys : Vector M256i 2 := ofKeys fun i => BitVec.ofNat 32 (i + 1)

theorem sorted_firstKeys : (keyList firstKeys).Pairwise (· ≤ ·) := by
  rw [firstKeys, keyList_ofKeys]
  decide

theorem valIndex_searchAvx2_eq_iff_firstKeys :
    (keyList firstKeys).Pairwise (· ≤ ·) ∧
      ((searchAvx2 firstKeys 20).valIndex = (keyList firstKeys).countP (· ≤ 20) ↔
        ∀ k ∈ keyList firstKeys, ¬ Between 20 k) :=
  ⟨sorted_firstKeys, valIndex_searchAvx2_eq_iff sorted_firstKeys⟩

/-- Eight of the keys are at most `8`, but the search passes all sixteen. -/
theorem valIndex_firstKeys :
    (keyList firstKeys).Pairwise (· ≤ ·) ∧ (keyList firstKeys).countP (· ≤ 8) = 8 ∧
      (searchAvx2 firstKeys 8).valIndex = 16 := by
  refine ⟨sorted_firstKeys, ?_, ?_⟩
  · rw [firstKeys, keyList_ofKeys]
    decide
  · rw [valIndex_eq_countP sorted_firstKeys, firstKeys, keyList_ofKeys]
    decide

end SearchFn

end Pcv
