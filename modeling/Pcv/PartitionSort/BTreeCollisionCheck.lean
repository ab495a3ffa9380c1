import Pcv.PartitionSort.BTreeKeyIterator

/-!
# The collision check

`doesRuleColide` walks down the layers along the keys that are equal to the
ranges of the rule.  In the first layer without such a key it looks for a key
that overlaps the range of the rule.

Inside a compressed node the slot to compare is the distance of the level from
`start_of_this_node`.  A read behind the slots of a node is the fault
`outOfRange`; a read behind its keys is not guarded and yields what the slot last
held.
-/

namespace Pcv

namespace BTreeCollisionCheck

open BTreeKeyIterator BTreeSearch

variable {V : Type} {D : ℕ}

/-- `search_closest_lower_or_equal_key`: the key that contains `val`, or else a key
before it, or the end. -/
def searchClosestLowerOrEqualKey (mem : Store (Node V)) (depth val : ℕ) :
    ℕ → Option ℕ → Except Fault State
  | _, none => .ok State.end
  | 0, some _ => .error .nonTermination
  | fuel + 1, some n =>
      let nd := mem.get n
      let s := searchSeq nd.keys nd.keyCnt (.ofValue val)
      if s.inRange then .ok ⟨some n, s.valIndex⟩
      else if nd.isLeaf then getPredGlobal mem depth n 0
      else searchClosestLowerOrEqualKey mem depth val fuel (nd.childIndex.get s.valIndex)

/-- The loop over the keys from a position on: is there one that overlaps the
range before the first one that begins behind it? -/
def overlapFrom (mem : Store (Node V)) (depth : ℕ) (dVal : Range1d) :
    ℕ → State → Except Fault Bool
  | _, ⟨none, _⟩ => .ok false
  | 0, ⟨some _, _⟩ => .error .nonTermination
  | fuel + 1, ⟨some n, index⟩ => do
      let k := ((mem.get n).getKey index).key
      if k.overlaps dVal then return true
      if k.low > dVal.high then return false
      overlapFrom mem depth dVal fuel (← getSuccGlobal mem depth n index)

/-- The check of a layer that is not compressed: the position of a key equal to
the range, or the answer. -/
def checkLayer (cfg : BTreeCfg) (mem : Store (Node V)) (depth n : ℕ) (dVal : Range1d) :
    Except Fault (State ⊕ Bool) := do
  let pLow ← searchClosestLowerOrEqualKey mem depth dVal.low depth (some n)
  match pLow with
  | ⟨some node, index⟩ =>
      if ((mem.get node).getKey index).key = dVal then return .inl pLow
      else return .inr (← overlapFrom mem depth dVal (depth * cfg.maxDegree) pLow)
  | ⟨none, _⟩ =>
      let first ← getMostLeft mem depth (some n)
      return .inr (← overlapFrom mem depth dVal (depth * cfg.maxDegree) ⟨some first, 0⟩)

/-- The loop of `does_rule_colide`: `cnt` levels are left, the first of them is
`level`. -/
def doesRuleColideFrom (cfg : BTreeCfg) (mem : Store (Node V)) (order : DimensionOrder D)
    (rule : RuleSpec D V) (depth : ℕ) : ℕ → ℕ → Option ℕ → ℕ → Except Fault Bool
  | 0, _, _, _ => .ok false
  | _ + 1, _, none, _ => .ok false
  | cnt + 1, level, some n, startOfThisNode => do
      let dVal ← keyAt order rule level
      let nd := mem.get n
      if nd.isCompressed then
        let inNodeKeyI := level - startOfThisNode
        if cfg.maxDegree ≤ inNodeKeyI then throw .outOfRange
        let k := (nd.getKey inNodeKeyI).key
        if k = dVal then
          let n' := if inNodeKeyI + 1 = nd.keyCnt then nd.nextLevel.get inNodeKeyI else some n
          doesRuleColideFrom cfg mem order rule depth cnt (level + 1) n' startOfThisNode
        else return k.overlaps dVal
      else
        match ← checkLayer cfg mem depth n dVal with
        | .inr answer => return answer
        | .inl ⟨some node, index⟩ =>
            if level = D - 1 then
              doesRuleColideFrom cfg mem order rule depth cnt (level + 1) (some n)
                startOfThisNode
            else
              doesRuleColideFrom cfg mem order rule depth cnt (level + 1)
                ((mem.get node).nextLevel.get index) level
        | .inl ⟨none, _⟩ => return false

end BTreeCollisionCheck

/-- `BTreeImp::does_rule_colide`. -/
def BTree.doesRuleColide {V : Type} (cfg : BTreeCfg) (pool : NodeAllocator V) (t : BTree cfg.D)
    (rule : RuleSpec cfg.D V) : Except Fault Bool :=
  BTreeCollisionCheck.doesRuleColideFrom cfg pool.mempool t.dimensionOrder rule
    (callDepth cfg pool) cfg.D 0 t.root 0

end Pcv
