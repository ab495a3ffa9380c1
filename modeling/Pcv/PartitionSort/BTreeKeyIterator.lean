import Pcv.PartitionSort.BTreeSearch

/-!
# Iteration over the keys of a layer

A position is a node and the index of a key in it; the end is the null node with
index `0`.  The successor and the predecessor of a position are found through the
parent links, by scanning the parent for the child one comes from.
-/

namespace Pcv

namespace BTreeKeyIterator

/-- `BTreeKeyIterator::State`. -/
structure State where
  actual : Option ℕ
  index : ℕ
deriving DecidableEq, Repr

/-- The position behind the last key. -/
def State.end : State := ⟨none, 0⟩

variable {V : Type}

/-- The loop of `index_of_child` from child `i` on. -/
def indexOfChildFrom (p : Node V) (ch : ℕ) : ℕ → ℕ → ℕ
  | 0, i => i
  | cnt + 1, i => if p.childIndex.get i = some ch then i else indexOfChildFrom p ch cnt (i + 1)

/-- `index_of_child`: the index of the link from `p` to `ch`. -/
def indexOfChild (p : Node V) (ch : ℕ) : ℕ := indexOfChildFrom p ch (p.keyCnt + 1) 0

/-- `get_most_left`. -/
def getMostLeft (mem : Store (Node V)) (depth : ℕ) (n : Option ℕ) : Except Fault ℕ :=
  BTreeSearch.leftMost mem depth n

/-- The loop of `get_most_left_after`: `p` is the node to look at, `ch` the child
one comes from. -/
def getMostLeftAfter (mem : Store (Node V)) (depth : ℕ) :
    ℕ → Option ℕ → ℕ → Except Fault State
  | _, none, _ => .ok State.end
  | 0, some _, _ => .error .nonTermination
  | fuel + 1, some p, ch => do
      let np := mem.get p
      let myIndex := indexOfChild np ch
      if myIndex + 1 < np.keyCnt then
        return ⟨some (← getMostLeft mem depth (np.childIndex.get (myIndex + 1))), 0⟩
      else getMostLeftAfter mem depth fuel np.parent p

/-- The climb of `getSucc_global` from the end of a leaf. -/
def succClimb (mem : Store (Node V)) : ℕ → Option ℕ → ℕ → Except Fault State
  | _, none, _ => .ok State.end
  | 0, some _, _ => .error .nonTermination
  | fuel + 1, some p, n =>
      let i := indexOfChild (mem.get p) n
      if i = (mem.get p).keyCnt then succClimb mem fuel (mem.get p).parent p
      else .ok ⟨some p, i⟩

/-- `getSucc_global`. -/
def getSuccGlobal (mem : Store (Node V)) (depth node idx : ℕ) : Except Fault State := do
  let nd := mem.get node
  if nd.isLeaf then
    if (idx : ℤ) < (nd.keyCnt : ℤ) - 1 then return ⟨some node, idx + 1⟩
    else succClimb mem depth nd.parent node
  else
    match nd.childIndex.get (idx + 1) with
    | some ch => return ⟨some (← getMostLeft mem depth (some ch)), 0⟩
    | none => getMostLeftAfter mem depth depth nd.parent node

/-- The climb of `getPred_global` from the beginning of a leaf. -/
def predClimb (mem : Store (Node V)) : ℕ → Option ℕ → ℕ → Except Fault State
  | _, none, _ => .ok State.end
  | 0, some _, _ => .error .nonTermination
  | fuel + 1, some p, n =>
      let i := indexOfChild (mem.get p) n
      if i > 0 then .ok ⟨some p, i - 1⟩
      else predClimb mem fuel (mem.get p).parent p

/-- `getPred_global`. -/
def getPredGlobal (mem : Store (Node V)) (depth node idx : ℕ) : Except Fault State := do
  let nd := mem.get node
  if nd.isLeaf then
    if idx > 0 then return ⟨some node, idx - 1⟩
    else predClimb mem depth nd.parent node
  else
    let ch ← BTreeSearch.rightMost mem depth (nd.childIndex.get idx)
    return ⟨some ch, (mem.get ch).keyCnt - 1⟩

/-- `operator++`; the end has no successor. -/
def State.succ (mem : Store (Node V)) (depth : ℕ) (s : State) : Except Fault State :=
  match s.actual with
  | some n => getSuccGlobal mem depth n s.index
  | none => .error .outOfRange

/-- `operator--`; the end has no predecessor. -/
def State.pred (mem : Store (Node V)) (depth : ℕ) (s : State) : Except Fault State :=
  match s.actual with
  | some n => getPredGlobal mem depth n s.index
  | none => .error .outOfRange

end BTreeKeyIterator

end Pcv
