import Pcv.PartitionSort.BTree

/-!
# Search in a layered B-tree

The search functions only read the nodes, so they are functions of the memory.
A read that the source does not guard, of a dimension order behind its end or of
a null node, is the fault `outOfRange`.

`search_seq` and its relatives exist once for a value and once for a range.  The
two forms walk in the same way and differ in their two tests, which a `Probe`
collects.
-/

namespace Pcv

/-- The outcome of the search in one node: the index of the key that was hit, or
the index of the child to go on with. -/
structure SearchResult where
  valIndex : ℕ
  inRange : Bool
deriving DecidableEq, Repr

/-- The two tests of a search: it ends before a key that begins behind `point`, and
it has found its key when `hit` says so. -/
structure Probe where
  point : ℕ
  hit : Range1d → Bool

/-- Search for the key that contains a value. -/
def Probe.ofValue (val : ℕ) : Probe := ⟨val, fun k => k.inRange val⟩

/-- Search for a key equal to a range. -/
def Probe.ofRange (val : Range1d) : Probe := ⟨val.low, fun k => k == val⟩

namespace BTreeSearch

variable {V : Type} {D : ℕ}

/-- The loop of `search_seq` from slot `i` on. -/
def searchSeqFrom (keys : Store Range1d) (p : Probe) : ℕ → ℕ → SearchResult
  | 0, i => ⟨i, false⟩
  | cnt + 1, i =>
      if p.point < (keys.get i).low then ⟨i, false⟩
      else if p.hit (keys.get i) then ⟨i, true⟩
      else searchSeqFrom keys p cnt (i + 1)

/-- `search_seq`. -/
def searchSeq (keys : Store Range1d) (keyCnt : ℕ) (p : Probe) : SearchResult :=
  searchSeqFrom keys p keyCnt 0

/-- `search_compressed_seq`: only the first key is looked at. -/
def searchCompressedSeq (keys : Store Range1d) (p : Probe) : SearchResult :=
  ⟨0, p.hit (keys.get 0)⟩

/-- `search_possition_1d`: the node and the index of the key in the layer of `n`. -/
def searchPossition1d (mem : Store (Node V)) (p : Probe) :
    ℕ → Option ℕ → Except Fault (Option (ℕ × ℕ))
  | _, none => .ok none
  | 0, some _ => .error .nonTermination
  | fuel + 1, some n =>
      let nd := mem.get n
      let s := if nd.isCompressed then searchCompressedSeq nd.keys p
        else searchSeq nd.keys nd.keyCnt p
      if s.inRange then .ok (some (n, s.valIndex))
      else if nd.isLeaf || nd.isCompressed then .ok none
      else searchPossition1d mem p fuel (nd.childIndex.get s.valIndex)

/-- `get_val`: the value a packet has in a field. -/
def getVal (val : KeyVec D) (dim : ℕ) : Except Fault ℕ :=
  match val[dim]? with
  | some v => .ok v
  | none => .error .outOfRange

/-- What `search_rest_of_path_in_compressed_node` carries along its loop. -/
structure RestOfPath (V : Type) where
  res : V
  nextN : Option ℕ
  addToI : ℕ

/-- The loop of `search_rest_of_path_in_compressed_node` from slot `i2` on. -/
def searchRestFrom [RuleValue V] (nd : Node V) (val : KeyVec D) :
    ℕ → ℕ → RestOfPath V → Except Fault (RestOfPath V)
  | 0, _, s => .ok s
  | cnt + 1, i2, s => do
      let v ← getVal val (nd.getDim i2)
      if !(nd.getKey i2).key.inRange v then return s
      let res := if isValid (nd.getKey i2).value then (nd.getKey i2).value else s.res
      match nd.nextLevel.get i2 with
      | some next => searchRestFrom nd val cnt (i2 + 1) ⟨res, some next, i2 + 1⟩
      | none => searchRestFrom nd val cnt (i2 + 1) { s with res := res }

/-- `search_rest_of_path_in_compressed_node`. -/
def searchRestOfPathInCompressedNode [RuleValue V] (nd : Node V) (val : KeyVec D) (res : V) :
    Except Fault (RestOfPath V) :=
  let v0 := (nd.getKey 0).value
  searchRestFrom nd val (nd.keyCnt - 1) 1 ⟨if isValid v0 then v0 else res, none, 0⟩

/-- The loop of `search`: `i` is the level index, `res` the last match so far.
`depth` bounds the walk inside a layer. -/
def searchFrom [RuleValue V] (mem : Store (Node V)) (order : DimensionOrder D) (val : KeyVec D)
    (depth : ℕ) : ℕ → Option ℕ → ℕ → V → Except Fault V
  | _, none, _, res => .ok res
  | 0, some _, _, _ => .error .nonTermination
  | fuel + 1, some n, i, res => do
      match order[i]? with
      | none => throw .outOfRange
      | some d =>
          let v ← getVal val d
          match ← searchPossition1d mem (.ofValue v) depth (some n) with
          | none => return res
          | some (n, index) =>
              let nd := mem.get n
              if nd.isCompressed then
                let s ← searchRestOfPathInCompressedNode nd val res
                searchFrom mem order val depth fuel s.nextN (i + s.addToI) s.res
              else
                let v := (nd.getKey index).value
                searchFrom mem order val depth fuel (nd.nextLevel.get index) (i + 1)
                  (if isValid v then v else res)

/-- `get_pred`: the last key of the subtree before key `idx`. -/
def rightMost (mem : Store (Node V)) : ℕ → Option ℕ → Except Fault ℕ
  | _, none => .error .outOfRange
  | 0, some _ => .error .nonTermination
  | fuel + 1, some n =>
      if (mem.get n).isLeaf then .ok n
      else rightMost mem fuel ((mem.get n).childIndex.get (mem.get n).keyCnt)

/-- `get_succ`: the first key of the subtree behind key `idx`. -/
def leftMost (mem : Store (Node V)) : ℕ → Option ℕ → Except Fault ℕ
  | _, none => .error .outOfRange
  | 0, some _ => .error .nonTermination
  | fuel + 1, some n =>
      if (mem.get n).isLeaf then .ok n
      else leftMost mem fuel ((mem.get n).childIndex.get 0)

def getPred (mem : Store (Node V)) (fuel node idx : ℕ) : Except Fault (KeyInfo V) := do
  let cur ← rightMost mem fuel ((mem.get node).childIndex.get idx)
  return (mem.get cur).getKey ((mem.get cur).keyCnt - 1)

def getSucc (mem : Store (Node V)) (fuel node idx : ℕ) : Except Fault (KeyInfo V) := do
  let cur ← leftMost mem fuel ((mem.get node).childIndex.get (idx + 1))
  return (mem.get cur).getKey 0

/-- The loop of `findKey` from slot `i` on. -/
def findKeyFrom (nd : Node V) (k : Range1d) : ℕ → ℕ → ℕ
  | 0, i => i
  | cnt + 1, i => if (nd.getKey i).key.low < k.low then findKeyFrom nd k cnt (i + 1) else i

/-- `findKey`: the first index whose key does not begin before `k`. -/
def findKey (nd : Node V) (k : Range1d) : ℕ := findKeyFrom nd k nd.keyCnt 0

/-- One entry of a path: the root of the layer, the node and the index of the key. -/
structure PathItem where
  root : ℕ
  node : ℕ
  index : ℕ
deriving DecidableEq, Repr

/-- The range the rule has at a level. -/
def keyAt (order : DimensionOrder D) (rule : RuleSpec D V) (level : ℕ) :
    Except Fault Range1d :=
  match order[level]? with
  | some d => .ok (rule.first.get d)
  | none => .error .outOfRange

/-- The loop of `search_path` over the keys of a compressed node: the entries from
slot `i2` on, and whether all the remaining keys matched. -/
def searchPathInCompressed (nd : Node V) (n : ℕ) (order : DimensionOrder D)
    (rule : RuleSpec D V) (level : ℕ) : ℕ → ℕ → Except Fault (List PathItem × Bool)
  | 0, _ => .ok ([], true)
  | cnt + 1, i2 => do
      let k ← keyAt order rule (level + i2)
      if (nd.getKey i2).key != k then return ([], false)
      let rest ← searchPathInCompressed nd n order rule level cnt (i2 + 1)
      return (⟨n, n, i2⟩ :: rest.1, rest.2)

/-- `search_path`: the keys equal to the ranges of the rule, level by level. -/
def searchPath (mem : Store (Node V)) (order : DimensionOrder D) (rule : RuleSpec D V)
    (depth : ℕ) : ℕ → Option ℕ → ℕ → Except Fault (List PathItem)
  | _, none, _ => .ok []
  | 0, some _, _ => .error .nonTermination
  | fuel + 1, some n, level => do
      let k ← keyAt order rule level
      match ← searchPossition1d mem (.ofRange k) depth (some n) with
      | none => return []
      | some (node, index) =>
          let nd := mem.get node
          if nd.isCompressed && decide (index < (mem.get n).keyCnt) then
            let rest ← searchPathInCompressed (mem.get n) n order rule level
              ((mem.get n).keyCnt - 1) 1
            let items := ⟨n, node, index⟩ :: rest.1
            if rest.2 then
              let next ← searchPath mem order rule depth fuel
                ((mem.get n).nextLevel.get ((mem.get n).keyCnt - 1)) (level + (mem.get n).keyCnt)
              return items ++ next
            else return items
          else
            let next ← searchPath mem order rule depth fuel (nd.nextLevel.get index) (level + 1)
            return ⟨n, node, index⟩ :: next

end BTreeSearch

/-- `BTreeImp::search`: the value of the deepest key that matches the packet. -/
def BTree.search {V : Type} [RuleValue V] (cfg : BTreeCfg) (pool : NodeAllocator V)
    (t : BTree cfg.D) (val : KeyVec cfg.D) : Except Fault V :=
  BTreeSearch.searchFrom pool.mempool t.dimensionOrder val (callDepth cfg pool)
    (callDepth cfg pool) t.root 0 RuleValue.invalid

end Pcv
