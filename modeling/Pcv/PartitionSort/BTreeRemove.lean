import Pcv.PartitionSort.BTreeInsert

/-!
# Removal from a layered B-tree

`remove` looks up the chain of keys equal to the ranges of the rule and walks it
from its end: a key with a next layer only loses its value, any other key is
taken out of its layer with `remove1d`, the deletion of a B-tree.
-/

namespace Pcv

namespace BTreeRemove

open Navigator DynamicMempool BTreeSearch

variable {V : Type} [RuleValue V]

/-- `removeFromLeaf`. -/
def removeFromLeaf (node idx : ℕ) : NodeM V Unit :=
  update node fun n => (n.shiftKeysLeft idx (n.keyCnt - (idx + 1))).setKeyCnt (n.keyCnt - 1)

/-- `for (i = cnt; i >= 0; --i) child_index[i + 1] = child_index[i]`. -/
def shiftChildIndexRight (n : Node V) : ℕ → Node V
  | 0 => n.setChildIndex 1 (n.childIndex.get 0)
  | i + 1 => shiftChildIndexRight (n.setChildIndex (i + 2) (n.childIndex.get (i + 1))) i

/-- `for (j = i; cnt steps; j++) child_index[j] = child_index[j + 1]`. -/
def shiftChildIndexLeft (n : Node V) (i : ℕ) : ℕ → Node V
  | 0 => n
  | cnt + 1 => shiftChildIndexLeft (n.setChildIndex i (n.childIndex.get (i + 1))) (i + 1) cnt

/-- `borrowFromPrev`: the last key of the previous sibling goes up to the node,
and the key between the two goes down to the child. -/
def borrowFromPrev (node idx : ℕ) : NodeM V Unit := do
  let ch ← deref ((← read node).childIndex.get idx)
  let sib ← deref ((← read node).childIndex.get (idx - 1))
  update ch fun c => c.shiftKeysRight 0 c.keyCnt
  if !(← read ch).isLeaf then
    update ch fun c => shiftChildIndexRight c c.keyCnt
  let n ← read node
  update ch fun c => n.moveKey (idx - 1) c 0
  if !(← read ch).isLeaf then
    let s ← read sib
    setChild ch 0 (s.childIndex.get s.keyCnt)
  let s ← read sib
  update node fun n => s.moveKey (s.keyCnt - 1) n (idx - 1)
  update ch fun c => c.setKeyCnt (c.keyCnt + 1)
  update sib fun s => s.setKeyCnt (s.keyCnt - 1)

/-- `borrowFromNext`: the first key of the next sibling goes up to the node, and
the key between the two goes down to the child. -/
def borrowFromNext (node idx : ℕ) : NodeM V Unit := do
  let ch ← deref ((← read node).childIndex.get idx)
  let sib ← deref ((← read node).childIndex.get (idx + 1))
  let n ← read node
  update ch fun c => n.moveKey idx c c.keyCnt
  if !(← read ch).isLeaf then
    let c ← read ch
    setChild ch (c.keyCnt + 1) ((← read sib).childIndex.get 0)
  let s ← read sib
  update node fun n => s.moveKey 0 n idx
  update sib fun s => s.shiftKeysLeft 0 (s.keyCnt - 1)
  if !(← read sib).isLeaf then
    update sib fun s => shiftChildIndexLeft s 0 s.keyCnt
  update ch fun c => c.setKeyCnt (c.keyCnt + 1)
  update sib fun s => s.setKeyCnt (s.keyCnt - 1)

/-- `transfer_items(src, 0, dst, dstStart, cnt)`. -/
def transferItems (src dst dstStart cnt : ℕ) : NodeM V Unit := do
  let s ← read src
  update dst fun d => s.moveKeys 0 d dstStart cnt
  if !(← read dst).isLeaf then
    moveChildren src 0 dst dstStart (cnt + 1)

/-- `merge`: append the key between two children and the next child to the child,
and release the next child. -/
def merge (cfg : BTreeCfg) (node idx : ℕ) : NodeM V Unit := do
  let ch ← deref ((← read node).childIndex.get idx)
  let sib ← deref ((← read node).childIndex.get (idx + 1))
  let n ← read node
  update ch fun c => n.moveKey idx c cfg.minDegree
  transferItems sib ch (cfg.minDegree + 1) (← read sib).keyCnt
  update node fun n =>
    shiftChildIndexLeft (n.shiftKeysLeft idx (n.keyCnt - (idx + 1))) (idx + 1)
      (n.keyCnt - (idx + 1))
  let sibCnt := (← read sib).keyCnt
  update ch fun c => c.setKeyCnt (c.keyCnt + sibCnt + 1)
  update node fun n => n.setKeyCnt (n.keyCnt - 1)
  update sib Node.cleanChildren
  release sib

/-- The number of keys of the child `idx` of a node. -/
def childKeyCnt (node idx : ℕ) : NodeM V ℕ := do
  return (← read (← deref ((← read node).childIndex.get idx))).keyCnt

/-- `fill`: give the child `idx` one key more than the least number. -/
def fill (cfg : BTreeCfg) (node idx : ℕ) : NodeM V Unit := do
  let prevRich ← if idx ≠ 0 then
      do pure (decide ((← childKeyCnt node (idx - 1)) ≥ cfg.minDegree + 1))
    else pure false
  if prevRich then borrowFromPrev node idx
  else
    let keyCnt := (← read node).keyCnt
    let nextRich ← if idx ≠ keyCnt then
        do pure (decide ((← childKeyCnt node (idx + 1)) ≥ cfg.minDegree + 1))
      else pure false
    if nextRich then borrowFromNext node idx
    else if idx ≠ keyCnt then merge cfg node idx
    else merge cfg node (idx - 1)

mutual

/-- `remove(node, k)`: delete the key from the subtree of a node. -/
def removeKey (cfg : BTreeCfg) : ℕ → ℕ → Range1d → NodeM V Unit
  | 0, _, _ => throw .nonTermination
  | fuel + 1, node, k => do
      let nd ← read node
      let idx := findKey nd k
      if idx < nd.keyCnt ∧ (nd.getKey idx).key = k then
        if nd.isLeaf then removeFromLeaf node idx
        else removeFromNonLeaf cfg fuel node idx
      else if nd.isLeaf then throw (.keyDoesNotExist k)
      else
        let flag := decide (idx = nd.keyCnt)
        if (← childKeyCnt node idx) < cfg.minDegree + 1 then fill cfg node idx
        let nd ← read node
        let c ← if flag ∧ idx > nd.keyCnt then deref (nd.childIndex.get (idx - 1))
          else deref (nd.childIndex.get idx)
        removeKey cfg fuel c k

/-- `removeFromNonLeaf`: replace the key by its predecessor or its successor, or
merge the children around it. -/
def removeFromNonLeaf (cfg : BTreeCfg) : ℕ → ℕ → ℕ → NodeM V Unit
  | 0, _, _ => throw .nonTermination
  | fuel + 1, node, idx => do
      let depth := callDepth cfg (← MonadState.get)
      let k := (← read node).getKey idx
      if (← childKeyCnt node idx) ≥ cfg.minDegree + 1 then
        let pred ← BTreeInsert.reading fun mem => getPred mem depth node idx
        update node (·.setKey idx pred)
        removeKey cfg fuel (← deref ((← read node).childIndex.get idx)) pred.key
      else if (← childKeyCnt node (idx + 1)) ≥ cfg.minDegree + 1 then
        let succ ← BTreeInsert.reading fun mem => getSucc mem depth node idx
        update node (·.setKey idx succ)
        removeKey cfg fuel (← deref ((← read node).childIndex.get (idx + 1))) succ.key
      else
        merge cfg node idx
        removeKey cfg fuel (← deref ((← read node).childIndex.get idx)) k.key

end

/-- `remove_1d`: delete a key from a layer, and return the new root of the layer. -/
def remove1d (cfg : BTreeCfg) (k : Range1d) (currentRoot : ℕ) : NodeM V (Option ℕ) := do
  let depth := callDepth cfg (← MonadState.get)
  removeKey cfg depth currentRoot k
  let nd ← read currentRoot
  if nd.keyCnt = 0 then
    let newRoot ← if nd.isLeaf then pure none
      else do
        let c ← deref (nd.childIndex.get 0)
        update c (·.setParent none)
        pure (some c)
    update currentRoot Node.cleanChildren
    release currentRoot
    return newRoot
  else return some currentRoot

/-- The loop of `remove` over the path, from its end: `cnt` entries are left.  The
result is the root of the tree. -/
def removeAlong {D : ℕ} (cfg : BTreeCfg) (order : DimensionOrder D) (rule : RuleSpec D V)
    (path : List PathItem) : ℕ → Option ℕ → NodeM V (Option ℕ)
  | 0, treeRoot => pure treeRoot
  | i + 1, treeRoot => do
      let key ← BTreeInsert.reading fun _ => keyAt order rule i
      match path[i]? with
      | none => throw .outOfRange
      | some b =>
          let nl := (← read b.node).nextLevel.get b.index
          if nl.isSome then
            update b.node (·.setValue b.index RuleValue.invalid)
            return treeRoot
          let newRoot ← remove1d cfg key b.root
          if some b.root = treeRoot then return newRoot
          match i with
          | 0 => throw .outOfRange
          | i' + 1 =>
              match path[i']? with
              | none => throw .outOfRange
              | some prev =>
                  setNextLayer prev.node prev.index nl
                  removeAlong cfg order rule path i treeRoot

end BTreeRemove

/-- `BTreeImp::remove`. -/
def BTree.remove {V : Type} [RuleValue V] (cfg : BTreeCfg) (t : BTree cfg.D)
    (rule : RuleSpec cfg.D V) : NodeM V (BTree cfg.D) := do
  let depth := callDepth cfg (← MonadState.get)
  let path ← BTreeInsert.reading fun mem =>
    BTreeSearch.searchPath mem t.dimensionOrder rule depth depth t.root 0
  let root ← BTreeRemove.removeAlong cfg t.dimensionOrder rule path path.length t.root
  return { t with root := root }

end Pcv
