import Pcv.PartitionSort.BTreeSearch

/-!
# Insertion into a layered B-tree

The functions of `BTreeInsert` call one another: inserting into a layer may build
the next layer, and inserting into a compressed node may cut it and insert into
one of the pieces.  They are one mutual definition here, with a bound on the
depth of the calls as first argument.

The level of the cookie is passed by value: the source changes it through a
reference, but no function reads it again after a call it has handed it to.
-/

namespace Pcv

/-- The state of an insertion: where it is and how far it has to go. -/
structure InsertCookie (D : ℕ) (V : Type) where
  dimensionOrder : DimensionOrder D
  level : ℕ
  requiresLevels : ℕ
  rule : RuleSpec D V

namespace InsertCookie

variable {D : ℕ} {V : Type}

/-- The loop of `total_levels_required_cnt`, from level `i` downwards. -/
def totalLevelsRequiredFrom (bytes : ℕ) (order : DimensionOrder D) (rule : RuleSpec D V) :
    ℕ → ℕ
  | 0 => 1
  | i + 1 =>
      match order[i]? with
      | some d =>
          if !(rule.first.get d).isWildcard bytes then i + 1
          else totalLevelsRequiredFrom bytes order rule i
      | none => totalLevelsRequiredFrom bytes order rule i

/-- `total_levels_required_cnt`: one plus the last level that is not a wildcard,
and one for a rule of wildcards only. -/
def totalLevelsRequiredCnt (bytes : ℕ) (order : DimensionOrder D) (rule : RuleSpec D V) : ℕ :=
  totalLevelsRequiredFrom bytes order rule D

/-- The constructor. -/
def make (bytes : ℕ) (order : DimensionOrder D) (rule : RuleSpec D V) : InsertCookie D V :=
  ⟨order, 0, totalLevelsRequiredCnt bytes order rule, rule⟩

/-- `get_actual_key`; the array accesses are checked. -/
def getActualKey (c : InsertCookie D V) : NodeM V Range1d :=
  match c.dimensionOrder[c.level]? with
  | some d => pure (c.rule.first.get d)
  | none => throw .outOfRange

/-- The field tested at the current level; the array access is checked. -/
def getActualDim (c : InsertCookie D V) : NodeM V ℕ :=
  match c.dimensionOrder[c.level]? with
  | some d => pure d.val
  | none => throw .outOfRange

def additionalLevelRequiredCnt (c : InsertCookie D V) : ℕ := c.requiresLevels - c.level - 1

def requiredMoreLevels (c : InsertCookie D V) : Bool := decide (c.level + 1 < c.requiresLevels)

/-- The cookie at another level. -/
def atLevel (c : InsertCookie D V) (level : ℕ) : InsertCookie D V := { c with level := level }

end InsertCookie

namespace BTreeInsert

open Navigator DynamicMempool

variable {D : ℕ} {V : Type} [RuleValue V]

/-- A computation that only reads the nodes. -/
def reading {α : Type} (f : Store (Node V) → Except Fault α) : NodeM V α := do
  match f (← MonadState.get).mempool with
  | .ok a => pure a
  | .error e => throw e

/-- `split_child`: move the upper half of the full child `y` of `node` to a new
node, and the key between the halves up to slot `i` of `node`. -/
def splitChild (cfg : BTreeCfg) (node i y : ℕ) : NodeM V Unit := do
  let z ← newNode cfg
  let ny ← read y
  update z fun nz =>
    ny.moveKeys (cfg.minDegree + 1)
      ({ nz with isLeaf := ny.isLeaf }.setKeyCnt cfg.minDegree) 0 cfg.minDegree
  if !ny.isLeaf then
    moveChildren y (cfg.minDegree + 1) z 0 (cfg.minDegree + 1)
  update y (·.setKeyCnt cfg.minDegree)
  let keyCnt := (← read node).keyCnt
  shiftChildrenRight node i (keyCnt - i)
  setChild node (i + 1) (some z)
  let ny ← read y
  update node fun n =>
    (ny.moveKey cfg.minDegree (n.shiftKeysRight i keyCnt) i).setKeyCnt (keyCnt + 1)

/-- The number of keys of the node, among its first `i`, that do not begin behind
`k`: one plus the index at which the scan from the right stops. -/
def scanLeft (nd : Node V) (k : Range1d) : ℕ → ℕ
  | 0 => 0
  | i + 1 => if (nd.getKey i).key.low > k.low then scanLeft nd k i else i + 1

/-- The length of the common prefix of the keys of a compressed node and of the
ranges of the rule from the level of the cookie on. -/
def keepKeysCnt (nd : Node V) (c : InsertCookie D V) : ℕ → ℕ → NodeM V ℕ
  | 0, keep => pure keep
  | cnt + 1, keep => do
      let k ← (c.atLevel (c.level + keep)).getActualKey
      if (nd.getKey keep).key != k then return keep
      keepKeysCnt nd c cnt (keep + 1)

/-- Copy `cnt` keys with their fields, for the pieces of a compressed node. -/
def copyKeys (src : Node V) (srcI : ℕ) (dst : Node V) (dstI : ℕ) : ℕ → Node V
  | 0 => dst
  | cnt + 1 =>
      copyKeys src (srcI + 1)
        ((dst.setKey dstI (src.getKey srcI)).setDim dstI (src.getDim srcI)) (dstI + 1) cnt

/-- `decompress_node`: separate key `index` of a compressed node, and return the
root of the layer that holds it alone. -/
def decompressNode (cfg : BTreeCfg) (node index : ℕ) : NodeM V ℕ := do
  let nd ← read node
  if nd.keyCnt ≤ index then
    let nl ← newNode cfg
    setNextLayer node (index - 1) (some nl)
    return nl
  else if index = 0 then
    if nd.keyCnt = 1 then return node
    let nl ← newNode cfg
    update nl fun n =>
      { (copyKeys nd 1 n 0 (nd.keyCnt - 1)).setKeyCnt (nd.keyCnt - 1) with
        isCompressed := decide (nd.keyCnt - 1 > 1) }
    setNextLayer node 0 (some nl)
    update node fun n => { n.setKeyCnt 1 with isCompressed := false }
    return node
  else
    let keysToNnlCnt := nd.keyCnt - index - 1
    let nnl ← if keysToNnlCnt ≠ 0 then do
        let nnl ← newNode cfg
        update nnl fun n =>
          { (copyKeys nd (index + 1) n 0 keysToNnlCnt).setKeyCnt keysToNnlCnt with
            isCompressed := decide (keysToNnlCnt > 1) }
        pure (some nnl)
      else pure none
    let nl ← newNode cfg
    update nl fun n => (n.setKey 0 (nd.getKey index)).setKeyCnt 1
    setNextLayer node (index - 1) (some nl)
    if nnl.isSome then setNextLayer nl 0 nnl
    update node fun n => { n.setKeyCnt index with isCompressed := decide (index > 1) }
    return nl

/-- The loop of `insert_compressed`: store the keys of the rule in the slots from
`i` on, `cnt` of them, and return the cookie at the level of the last one. -/
def insertCompressedFrom (root keysToInsert : ℕ) :
    ℕ → ℕ → InsertCookie D V → NodeM V (InsertCookie D V)
  | 0, _, c => pure c
  | cnt + 1, i, c => do
      let k ← c.getActualKey
      let rv := if i = keysToInsert - 1 then c.rule.second else RuleValue.invalid
      let dim ← c.getActualDim
      update root fun n => (n.setKey i ⟨k, rv, none⟩).setDim i dim
      if cnt = 0 then return c
      insertCompressedFrom root keysToInsert cnt (i + 1) (c.atLevel (c.level + 1))

mutual

/-- `insert(root, cookie)`: continue behind the longest chain of keys that is
already stored, or update the value at its end. -/
def insert (cfg : BTreeCfg) : ℕ → Option ℕ → InsertCookie D V → NodeM V (Option ℕ)
  | 0, _, _ => throw .nonTermination
  | fuel + 1, root, c => do
      let depth := callDepth cfg (← MonadState.get)
      let path ← reading fun mem =>
        BTreeSearch.searchPath mem c.dimensionOrder c.rule depth depth root c.level
      match path.getLast? with
      | some b =>
          let c := c.atLevel (c.level + (path.length - 1))
          if c.requiredMoreLevels then
            let c := c.atLevel (c.level + 1)
            let n ← read b.node
            if n.isCompressed then
              insertInToCompressedAt cfg fuel b.node c (b.index + 1)
            else
              let insRoot ← insertToRoot cfg fuel (n.nextLevel.get b.index) c
              setNextLayer b.node b.index insRoot
          else
            update b.node (·.setValue b.index c.rule.second)
          return root
      | none => insertToRoot cfg fuel root c

/-- `insert_non_full`: insert into the subtree of a node that has a free slot. -/
def insertNonFull (cfg : BTreeCfg) : ℕ → ℕ → InsertCookie D V → NodeM V Unit
  | 0, _, _ => throw .nonTermination
  | fuel + 1, node, c => do
      let k ← c.getActualKey
      let nd ← read node
      let i := scanLeft nd k nd.keyCnt
      if nd.isLeaf then
        let rv := if c.requiredMoreLevels then RuleValue.invalid else c.rule.second
        update node fun n =>
          ((n.shiftKeysRight i nd.keyCnt).setKey i ⟨k, rv, none⟩).setKeyCnt (nd.keyCnt + 1)
        if c.requiredMoreLevels then
          let nl ← insertToRoot cfg fuel ((← read node).nextLevel.get i) (c.atLevel (c.level + 1))
          setNextLayer node i nl
      else
        let ch ← deref (nd.childIndex.get i)
        if (← read ch).keyCnt = cfg.maxDegree then
          splitChild cfg node i ch
          let nd ← read node
          let i := if (nd.getKey i).key.low < k.low then i + 1 else i
          insertNonFull cfg fuel (← deref (nd.childIndex.get i)) c
        else
          insertNonFull cfg fuel ch c

/-- `insert_in_to_compressed`: find the common prefix with the node first. -/
def insertInToCompressed (cfg : BTreeCfg) : ℕ → ℕ → InsertCookie D V → NodeM V Unit
  | 0, _, _ => throw .nonTermination
  | fuel + 1, root, c => do
      let nd ← read root
      let keep ← keepKeysCnt nd c nd.keyCnt 0
      insertInToCompressedAt cfg fuel root (c.atLevel (c.level + keep)) keep

/-- `_insert_in_to_compressed`: the first `keepKeysCnt` keys of the node are the
same in the rule, and the cookie is at the level behind them. -/
def insertInToCompressedAt (cfg : BTreeCfg) :
    ℕ → ℕ → InsertCookie D V → ℕ → NodeM V Unit
  | 0, _, _, _ => throw .nonTermination
  | fuel + 1, root, c, keep => do
      let nd ← read root
      if keep = nd.keyCnt then
        if c.level < c.requiresLevels then
          let nl ← insert cfg fuel (nd.nextLevel.get (keep - 1)) c
          setNextLayer root (keep - 1) nl
        else
          update root (·.setValue (keep - 1) c.rule.second)
      else
        let n ← decompressNode cfg root keep
        let _ ← insert cfg fuel (some n) c

/-- `insert_compressed`: store the ranges of the rule in a node, as many as fit,
and the others in the next layers. -/
def insertCompressed (cfg : BTreeCfg) : ℕ → ℕ → InsertCookie D V → ℕ → NodeM V Unit
  | 0, _, _, _ => throw .nonTermination
  | fuel + 1, root, c, keysToInsert => do
      let first := (← read root).keyCnt
      let last := min cfg.maxDegree (first + keysToInsert)
      let c ← insertCompressedFrom root keysToInsert (last - first) first c
      update root (·.setKeyCnt last)
      if c.requiredMoreLevels then
        let endNextLevel := (← read root).nextLevel.get (last - 1)
        let nl ← insertToRoot cfg fuel endNextLevel (c.atLevel (c.level + 1))
        setNextLayer root (last - 1) nl
      update root fun n => { n with isCompressed := decide (last > 1) }

/-- `insert_in_to_new_node`: a new layer for the rest of the rule. -/
def insertInToNewNode (cfg : BTreeCfg) : ℕ → InsertCookie D V → NodeM V ℕ
  | 0, _ => throw .nonTermination
  | fuel + 1, c => do
      let k ← c.getActualKey
      let root ← newNode cfg
      let nlCnt :=
        if cfg.pathCompression && c.requiredMoreLevels then c.additionalLevelRequiredCnt else 0
      if nlCnt > 0 then
        insertCompressed cfg fuel root c (nlCnt + 1)
      else
        update root fun n => (n.setKey 0 ⟨k, c.rule.second, none⟩).setKeyCnt 1
        if c.requiredMoreLevels then
          let nl ← insertToRoot cfg fuel ((← read root).nextLevel.get 0) (c.atLevel (c.level + 1))
          setNextLayer root 0 nl
      return root

/-- `insert_to_root`: insert a key that the layer does not hold, and return the
new root of the layer. -/
def insertToRoot (cfg : BTreeCfg) : ℕ → Option ℕ → InsertCookie D V → NodeM V (Option ℕ)
  | 0, _, _ => throw .nonTermination
  | fuel + 1, none, c => do
      let root ← insertInToNewNode cfg fuel c
      return some root
  | fuel + 1, some root, c => do
      let nd ← read root
      if nd.isCompressed then
        insertInToCompressed cfg fuel root c
        return some root
      else if nd.keyCnt = cfg.maxDegree then
        let k ← c.getActualKey
        let s ← newNode cfg
        update s fun n => { n with isLeaf := false }
        setChild s 0 (some root)
        splitChild cfg s 0 root
        let ns ← read s
        let i := if (ns.getKey 0).key.low < k.low then 1 else 0
        insertNonFull cfg fuel (← deref (ns.childIndex.get i)) c
        return some s
      else
        insertNonFull cfg fuel root c
        return some root

end

end BTreeInsert

/-- `BTreeImp::insert`. -/
def BTree.insert {V : Type} [RuleValue V] (cfg : BTreeCfg) (t : BTree cfg.D)
    (rule : RuleSpec cfg.D V) : NodeM V (BTree cfg.D) := do
  let depth := callDepth cfg (← MonadState.get)
  let root ← BTreeInsert.insert cfg depth t.root
    (InsertCookie.make cfg.keyBytes t.dimensionOrder rule)
  return { t with root := root }

end Pcv
