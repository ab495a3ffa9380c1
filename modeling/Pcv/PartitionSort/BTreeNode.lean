import Pcv.PartitionSort.MempoolDynamic
import Pcv.PartitionSort.RuleValue

/-!
# The node of a layered B-tree

A node keeps, slot by slot, the keys with their values and the links to the next
layer, and between them the links to its children.  A compressed node keeps keys
of consecutive levels instead, and for each of them the field it belongs to.

Links are indexes into the memory pool; `INVALID_INDEX` and the null pointer are
`none`.  Slots at `keyCnt` and behind it keep whatever was last stored there.
-/

namespace Pcv

/-- A key together with the value stored for it and the link to its next layer. -/
structure KeyInfo (V : Type) where
  key : Range1d
  value : V
  nextLevel : Option ℕ
deriving DecidableEq

/-- `_BTreeNode`. -/
structure Node (V : Type) where
  keys : Store Range1d
  dimIndex : Store ℕ
  value : Store V
  nextLevel : Store (Option ℕ)
  childIndex : Store (Option ℕ)
  keyCnt : ℕ
  isLeaf : Bool
  isCompressed : Bool
  parent : Option ℕ

/-- The least number of keys of a node that is not a root. -/
def BTreeCfg.minDegree (cfg : BTreeCfg) : ℕ := cfg.T - 1

/-- The number of slots of a node. -/
def BTreeCfg.maxDegree (cfg : BTreeCfg) : ℕ := 2 * cfg.T - 1

namespace Node

variable {V : Type}

/-- The constructor of a node. -/
def make (cfg : BTreeCfg) [RuleValue V] : Node V where
  keys := Store.fill ⟨keyMax cfg.keyBytes, keyMax cfg.keyBytes⟩
  dimIndex := Store.fill 0
  value := Store.fill RuleValue.invalid
  nextLevel := Store.fill none
  childIndex := Store.fill none
  keyCnt := 0
  isLeaf := true
  isCompressed := false
  parent := none

def getDim (n : Node V) (index : ℕ) : ℕ := n.dimIndex.get index

def setDim (n : Node V) (index val : ℕ) : Node V :=
  { n with dimIndex := n.dimIndex.set index val }

def getKey (n : Node V) (index : ℕ) : KeyInfo V :=
  ⟨n.keys.get index, n.value.get index, n.nextLevel.get index⟩

def setKey (n : Node V) (index : ℕ) (keyInfo : KeyInfo V) : Node V :=
  { n with
    keys := n.keys.set index keyInfo.key
    value := n.value.set index keyInfo.value
    nextLevel := n.nextLevel.set index keyInfo.nextLevel }

def setKeyCnt (n : Node V) (keyCnt : ℕ) : Node V := { n with keyCnt := keyCnt }

/-- The assignment `n.value[index] = v`. -/
def setValue (n : Node V) (index : ℕ) (v : V) : Node V :=
  { n with value := n.value.set index v }

/-- The assignment `n.next_level[index] = link`. -/
def setNextLevel (n : Node V) (index : ℕ) (link : Option ℕ) : Node V :=
  { n with nextLevel := n.nextLevel.set index link }

/-- The assignment `n.child_index[index] = link`. -/
def setChildIndex (n : Node V) (index : ℕ) (link : Option ℕ) : Node V :=
  { n with childIndex := n.childIndex.set index link }

def setParent (n : Node V) (parent : Option ℕ) : Node V := { n with parent := parent }

/-- Reset every link of a node, to the next layers and to the children. -/
def cleanChildren (n : Node V) : Node V :=
  { n with nextLevel := Store.fill none, childIndex := Store.fill none }

/-- Copy the key, value and next-layer link of slot `srcI` of `src` to slot
`dstI` of `dst`. -/
def moveKey (src : Node V) (srcI : ℕ) (dst : Node V) (dstI : ℕ) : Node V :=
  dst.setKey dstI (src.getKey srcI)

/-- `for (j = cnt - 1; j >= i; j--) move_key(j, j + 1)`. -/
def shiftKeysRight (n : Node V) (i : ℕ) : ℕ → Node V
  | 0 => n
  | j + 1 => if i ≤ j then (n.moveKey j n (j + 1)).shiftKeysRight i j else n

/-- `for (j = i; cnt steps; j++) move_key(j + 1, j)`. -/
def shiftKeysLeft (n : Node V) (i : ℕ) : ℕ → Node V
  | 0 => n
  | cnt + 1 => (n.moveKey (i + 1) n i).shiftKeysLeft (i + 1) cnt

/-- `for (j = 0; cnt steps; j++) src.move_key(srcI + j, dst, dstI + j)`. -/
def moveKeys (src : Node V) (srcI : ℕ) (dst : Node V) (dstI : ℕ) : ℕ → Node V
  | 0 => dst
  | cnt + 1 => src.moveKeys (srcI + 1) (src.moveKey srcI dst dstI) (dstI + 1) cnt

/-! ### Reading back what was written -/

@[simp] theorem getKey_setKey_self (n : Node V) (i : ℕ) (k : KeyInfo V) :
    (n.setKey i k).getKey i = k := by
  simp [getKey, setKey]

theorem getKey_setKey (n : Node V) (i j : ℕ) (k : KeyInfo V) :
    (n.setKey i k).getKey j = if j = i then k else n.getKey j := by
  simp only [getKey, setKey, Store.get_set]
  split <;> rfl

theorem getKey_setKey_of_ne (n : Node V) {i j : ℕ} (k : KeyInfo V) (h : j ≠ i) :
    (n.setKey i k).getKey j = n.getKey j := by
  rw [getKey_setKey, if_neg h]

theorem getKey_setValue (n : Node V) (i j : ℕ) (v : V) :
    (n.setValue i v).getKey j =
      if j = i then { n.getKey j with value := v } else n.getKey j := by
  simp only [getKey, setValue, Store.get_set]
  split <;> rfl

theorem getKey_setNextLevel (n : Node V) (i j : ℕ) (link : Option ℕ) :
    (n.setNextLevel i link).getKey j =
      if j = i then { n.getKey j with nextLevel := link } else n.getKey j := by
  simp only [getKey, setNextLevel, Store.get_set]
  split <;> rfl

@[simp] theorem getKey_setKeyCnt (n : Node V) (c i : ℕ) :
    (n.setKeyCnt c).getKey i = n.getKey i := rfl

@[simp] theorem getKey_setChildIndex (n : Node V) (i j : ℕ) (link : Option ℕ) :
    (n.setChildIndex i link).getKey j = n.getKey j := rfl

@[simp] theorem getKey_setParent (n : Node V) (p : Option ℕ) (i : ℕ) :
    (n.setParent p).getKey i = n.getKey i := rfl

@[simp] theorem getKey_setDim (n : Node V) (i j d : ℕ) :
    (n.setDim i d).getKey j = n.getKey j := rfl

theorem getDim_setDim (n : Node V) (i j d : ℕ) :
    (n.setDim i d).getDim j = if j = i then d else n.getDim j := by
  simp only [getDim, setDim, Store.get_set]

@[simp] theorem getDim_setKey (n : Node V) (i j : ℕ) (k : KeyInfo V) :
    (n.setKey i k).getDim j = n.getDim j := rfl

/-- The fields of a node that moving keys around does not touch. -/
structure SameFrame (n n' : Node V) : Prop where
  keyCnt : n'.keyCnt = n.keyCnt
  isLeaf : n'.isLeaf = n.isLeaf
  isCompressed : n'.isCompressed = n.isCompressed
  parent : n'.parent = n.parent
  childIndex : n'.childIndex = n.childIndex
  dimIndex : n'.dimIndex = n.dimIndex

theorem SameFrame.refl (n : Node V) : SameFrame n n := ⟨rfl, rfl, rfl, rfl, rfl, rfl⟩

theorem SameFrame.trans {a b c : Node V} (h : SameFrame a b) (h' : SameFrame b c) :
    SameFrame a c :=
  ⟨h'.keyCnt.trans h.keyCnt, h'.isLeaf.trans h.isLeaf, h'.isCompressed.trans h.isCompressed,
    h'.parent.trans h.parent, h'.childIndex.trans h.childIndex, h'.dimIndex.trans h.dimIndex⟩

theorem sameFrame_setKey (n : Node V) (i : ℕ) (k : KeyInfo V) : SameFrame n (n.setKey i k) :=
  ⟨rfl, rfl, rfl, rfl, rfl, rfl⟩

theorem sameFrame_moveKey (src dst : Node V) (i j : ℕ) :
    SameFrame dst (src.moveKey i dst j) := sameFrame_setKey dst j _

/-! ### The three block moves -/

theorem shiftKeysRight_sameFrame (n : Node V) (i cnt : ℕ) :
    SameFrame n (n.shiftKeysRight i cnt) := by
  induction cnt generalizing n with
  | zero => exact .refl n
  | succ j ih =>
      unfold shiftKeysRight
      split
      · exact (sameFrame_moveKey n n j (j + 1)).trans (ih _)
      · exact .refl n

/-- Shifting right opens a gap at `i`: the slots behind it hold what the slot
before them held, up to slot `cnt`. -/
theorem getKey_shiftKeysRight (n : Node V) (i cnt j : ℕ) :
    (n.shiftKeysRight i cnt).getKey j =
      if i < j ∧ j ≤ cnt then n.getKey (j - 1) else n.getKey j := by
  induction cnt generalizing n with
  | zero => rw [if_neg (by omega), shiftKeysRight]
  | succ c ih =>
      unfold shiftKeysRight
      by_cases hic : i ≤ c
      · rw [if_pos hic, ih, moveKey]
        by_cases hj : i < j ∧ j ≤ c
        · rw [if_pos hj, if_pos (by omega), getKey_setKey_of_ne _ _ (by omega)]
        · rw [if_neg hj, getKey_setKey]
          by_cases hjc : j = c + 1
          · rw [if_pos hjc, if_pos (by omega), hjc]
            rfl
          · rw [if_neg hjc, if_neg (by omega)]
      · rw [if_neg hic, if_neg (by omega)]

theorem shiftKeysLeft_sameFrame (n : Node V) (i cnt : ℕ) :
    SameFrame n (n.shiftKeysLeft i cnt) := by
  induction cnt generalizing n i with
  | zero => exact .refl n
  | succ c ih => exact (sameFrame_moveKey n n (i + 1) i).trans (ih _ _)

/-- Shifting left closes the gap at `i`: each of the `cnt` slots from `i` on holds
what the slot behind it held. -/
theorem getKey_shiftKeysLeft (n : Node V) (i cnt j : ℕ) :
    (n.shiftKeysLeft i cnt).getKey j =
      if i ≤ j ∧ j < i + cnt then n.getKey (j + 1) else n.getKey j := by
  induction cnt generalizing n i with
  | zero => rw [if_neg (by omega), shiftKeysLeft]
  | succ c ih =>
      rw [shiftKeysLeft, ih, moveKey]
      by_cases hj : i + 1 ≤ j ∧ j < i + 1 + c
      · rw [if_pos hj, if_pos (by omega), getKey_setKey_of_ne _ _ (by omega)]
      · rw [if_neg hj, getKey_setKey]
        by_cases hji : j = i
        · rw [if_pos hji, if_pos (by omega), hji]
        · rw [if_neg hji, if_neg (by omega)]

theorem moveKeys_sameFrame (src dst : Node V) (i j cnt : ℕ) :
    SameFrame dst (src.moveKeys i dst j cnt) := by
  induction cnt generalizing dst i j with
  | zero => exact .refl dst
  | succ c ih => exact (sameFrame_moveKey src dst i j).trans (ih _ _ _)

/-- Moving a block copies `cnt` slots and leaves the other slots of the target. -/
theorem getKey_moveKeys (src dst : Node V) (i j cnt x : ℕ) :
    (src.moveKeys i dst j cnt).getKey x =
      if j ≤ x ∧ x < j + cnt then src.getKey (i + (x - j)) else dst.getKey x := by
  induction cnt generalizing dst i j with
  | zero => rw [if_neg (by omega), moveKeys]
  | succ c ih =>
      rw [moveKeys, ih, moveKey]
      by_cases hx : j + 1 ≤ x ∧ x < j + 1 + c
      · rw [if_pos hx, if_pos (by omega)]
        congr 1
        omega
      · rw [if_neg hx, getKey_setKey]
        by_cases hxj : x = j
        · rw [if_pos hxj, if_pos (by omega), hxj, Nat.sub_self, Nat.add_zero]
        · rw [if_neg hxj, if_neg (by omega)]

end Node

end Pcv
