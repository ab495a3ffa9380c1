import Pcv.PartitionSort.BTreeSearch

/-!
# Extraction of the rules of a tree

`_BTreeToRules` walks through all the nodes and keeps the ranges on the way in
`actual_path`, one for each field; a field that the way has not met is a
wildcard.
-/

namespace Pcv

namespace BTreeToRules

variable {D : ℕ} {V : Type} [RuleValue V]

/-- The members of `_BTreeToRules`: the current path and the rules found so far. -/
structure State (D : ℕ) (V : Type) where
  actualPath : Vector Range1d D
  res : List (RuleSpec D V)

/-- `actual_path[dimension_order[level]] = k`; the array accesses are checked. -/
def State.setPath (s : State D V) (order : DimensionOrder D) (level : ℕ) (k : Range1d) :
    Except Fault (State D V) :=
  match order[level]? with
  | some d => .ok { s with actualPath := s.actualPath.set d k d.isLt }
  | none => .error .outOfRange

/-- `save_actual_path`, done for valid values. -/
def State.save (s : State D V) (v : V) : State D V :=
  if isValid v then { s with res := s.res ++ [⟨s.actualPath, v⟩] } else s

/-- The loop over the keys of a node from slot `i` on.  In a compressed node
(`step = 1`) every key belongs to a level of its own. -/
def keysFrom (toRules : Option ℕ → ℕ → State D V → Except Fault (State D V)) (nd : Node V)
    (order : DimensionOrder D) (step : ℕ) : ℕ → ℕ → ℕ → State D V → Except Fault (State D V)
  | 0, _, _, s => .ok s
  | cnt + 1, i, level, s => do
      let s ← s.setPath order level (nd.getKey i).key
      let s := s.save (nd.getKey i).value
      let s ← toRules (nd.nextLevel.get i) (level + 1) s
      keysFrom toRules nd order step cnt (i + 1) (level + step) s

/-- The loop that turns the fields of `cnt` levels back to wildcards. -/
def resetFrom (bytes : ℕ) (order : DimensionOrder D) :
    ℕ → ℕ → State D V → Except Fault (State D V)
  | 0, _, s => .ok s
  | cnt + 1, level, s => do
      let s ← s.setPath order level (Range1d.wildcard bytes)
      resetFrom bytes order cnt (level + 1) s

/-- The loop over the children of a node. -/
def childrenFrom (toRules : Option ℕ → ℕ → State D V → Except Fault (State D V)) (nd : Node V)
    (level : ℕ) : ℕ → ℕ → State D V → Except Fault (State D V)
  | 0, _, s => .ok s
  | cnt + 1, i, s => do
      let s ← match nd.childIndex.get i with
        | some c => toRules (some c) level s
        | none => .ok s
      childrenFrom toRules nd level cnt (i + 1) s

/-- `to_rules(n, level)`. -/
def toRulesFrom (cfg : BTreeCfg) (mem : Store (Node V)) (order : DimensionOrder D) :
    ℕ → Option ℕ → ℕ → State D V → Except Fault (State D V)
  | _, none, _, s => .ok s
  | 0, some _, _, _ => .error .nonTermination
  | fuel + 1, some n, level, s => do
      let nd := mem.get n
      if nd.isCompressed then
        let s ← keysFrom (toRulesFrom cfg mem order fuel) nd order 1 nd.keyCnt 0 level s
        resetFrom cfg.keyBytes order nd.keyCnt level s
      else
        let s ← keysFrom (toRulesFrom cfg mem order fuel) nd order 0 nd.keyCnt 0 level s
        let s ← s.setPath order level (Range1d.wildcard cfg.keyBytes)
        childrenFrom (toRulesFrom cfg mem order fuel) nd level (nd.keyCnt + 1) 0 s

end BTreeToRules

/-- `_BTreeToRules::to_rules`. -/
def BTree.toRules {V : Type} [RuleValue V] (cfg : BTreeCfg) (pool : NodeAllocator V)
    (t : BTree cfg.D) : Except Fault (List (RuleSpec cfg.D V)) := do
  let s ← BTreeToRules.toRulesFrom cfg pool.mempool t.dimensionOrder (callDepth cfg pool) t.root 0
    ⟨Vector.replicate cfg.D (Range1d.wildcard cfg.keyBytes), []⟩
  return s.res

end Pcv
