import Pcv.Common.ArrayResorter
import Pcv.PartitionSort.BTreeRemove
import Pcv.PartitionSort.BTreeCollisionCheck
import Pcv.PartitionSort.DimensionOrderResolver

/-!
# The PartitionSort classifier

The classifier keeps several trees, sorted by the greatest priority of the rules
they were given.  `trees` is the array of pointers; a pointer is an index into
`infos`, and stays the same when the array is resorted.

`insert`, `try_insert_to_tree_without_collisions` and `update_dimension_order`
call one another.  They are one mutual definition with a bound on the depth of
the calls, and a fault of its own when the bound is exceeded; the loop over the rules
of a tree re-reads their number in every turn.
-/

namespace Pcv

/-- The template parameters of the classifier. -/
structure ClassifierCfg extends BTreeCfg where
  MAX_TREE_CNT : ℕ
  TREE_FIXATION_THRESHOLD : ℕ

/-- The mask of a rule, field by field. -/
abbrev RuleMask (D : ℕ) := Vector ℕ D

/-- `get_rule_mask`. -/
def RuleSpec.getRuleMask {D : ℕ} {V : Type} (bytes : ℕ) (r : RuleSpec D V) : RuleMask D :=
  r.first.map fun k => k.getMaskLe bytes

/-- `std::unordered_map`, of which no algorithm uses the order. -/
abbrev UnorderedMap (α β : Type) := List (α × β)

namespace UnorderedMap

variable {α β : Type} [DecidableEq α]

def find (m : UnorderedMap α β) (a : α) : Option β := List.lookup a m

def assign (m : UnorderedMap α β) (a : α) (b : β) : UnorderedMap α β :=
  (a, b) :: m.filter fun e => decide (e.1 ≠ a)

def erase (m : UnorderedMap α β) (a : α) : UnorderedMap α β :=
  m.filter fun e => decide (e.1 ≠ a)

end UnorderedMap

/-- `tree_info`. -/
structure TreeInfo (D : ℕ) (V : Type) where
  tree : BTree D
  maxPriority : ℕ
  usedDimCnt : ℕ
  rules : List (RuleSpec D V)
  updatePending : Bool
  usedRuleMasks : UnorderedMap (RuleMask D) ℕ

/-- The constructor of `tree_info`. -/
def TreeInfo.make (D : ℕ) (V : Type) : TreeInfo D V := ⟨BTree.make D, 0, 0, [], false, []⟩

/-- `PartitionSortClassifer`, with the pool its trees share. -/
structure PartitionSortClassifer (D : ℕ) (V : Type) where
  pool : NodeAllocator V
  infos : Store (TreeInfo D V)
  trees : Store ℕ
  treeCnt : ℕ
  ruleToTree : UnorderedMap (RuleSpec D V) ℕ

namespace PartitionSortClassifer

variable {D : ℕ} {V : Type}

/-- The constructor: `MAX_TREE_CNT` empty trees, none of them in use. -/
def make (D : ℕ) (pool : NodeAllocator V) : PartitionSortClassifer D V where
  pool := pool
  infos := Store.fill (TreeInfo.make D V)
  trees := ⟨fun i => i, []⟩
  treeCnt := 0
  ruleToTree := []

/-- What the classifier can throw, or go wrong with. -/
inductive ClassifierFault
  /-- A fault of the trees or of their nodes. -/
  | node (fault : Fault)
  /-- `std::runtime_error` of `PartitionSortClassifer::insert`. -/
  | allTreesUsed
  /-- The calls of the classifier are nested more deeply than the bound given to them. -/
  | tooDeep
deriving DecidableEq, Repr

/-- The text of the exceptions that carry one. -/
def ClassifierFault.what : ClassifierFault → Option String
  | .node fault => fault.what
  | .allTreesUsed => some "all tress used (need to implement tree merging)"
  | .tooDeep => none

/-- A computation over a classifier. -/
abbrev M (D : ℕ) (V : Type) := EStateM ClassifierFault (PartitionSortClassifer D V)

/-- Run a computation over the nodes. -/
def onPool {α : Type} (x : NodeM V α) : M D V α := fun s =>
  match x s.pool with
  | .ok a p => .ok a { s with pool := p }
  | .error e p => .error (.node e) { s with pool := p }

/-- `*trees[i]`. -/
def info (s : PartitionSortClassifer D V) (i : ℕ) : TreeInfo D V := s.infos.get (s.trees.get i)

/-- Change the tree a pointer leads to. -/
def updateInfo (t : ℕ) (f : TreeInfo D V → TreeInfo D V) : M D V Unit :=
  modify fun s => { s with infos := s.infos.set t (f (s.infos.get t)) }

/-- `resort_on_priority_change`. -/
def resortOnPriorityChange (originalI : ℕ) : M D V Unit :=
  modify fun s => { s with
    trees := ArrayResorter.arrayResort (fun t => (s.infos.get t).maxPriority) s.trees s.treeCnt
      originalI }

/-- `used_rule_mask_incr`. -/
def usedRuleMaskIncr (t : TreeInfo D V) (m : RuleMask D) : TreeInfo D V :=
  match UnorderedMap.find t.usedRuleMasks m with
  | none => { t with usedRuleMasks := UnorderedMap.assign t.usedRuleMasks m 1 }
  | some c => { t with usedRuleMasks := UnorderedMap.assign t.usedRuleMasks m (c + 1) }

/-- `used_rule_mask_decr`; there has to be an entry for the mask. -/
def usedRuleMaskDecr (t : TreeInfo D V) (m : RuleMask D) : Option (TreeInfo D V) :=
  match UnorderedMap.find t.usedRuleMasks m with
  | none => none
  | some c =>
      if c - 1 = 0 then some { t with usedRuleMasks := UnorderedMap.erase t.usedRuleMasks m }
      else some { t with usedRuleMasks := UnorderedMap.assign t.usedRuleMasks m (c - 1) }

/-- The loop that moves the fields of the new rule in front of the other unused
ones, once the order of the tree is fixed; `dI` is the first position, `cnt` the
number of positions to look at. -/
def lockDims (bytes : ℕ) (rule : RuleSpec D V) :
    ℕ → ℕ → DimensionOrder D × ℕ → DimensionOrder D × ℕ
  | 0, _, s => s
  | cnt + 1, dI, (order, used) =>
      match order[dI]? with
      | none => (order, used)
      | some d =>
          if !(rule.first.get d).isWildcard bytes then
            lockDims bytes rule cnt (dI + 1) (order.swapIfInBounds used dI, used + 1)
          else lockDims bytes rule cnt (dI + 1) (order, used)

section Update

variable [RuleValue V] [DecidableEq V]

/-- A computation over one tree and the pool, for the tree a pointer leads to. -/
def onTree (cfg : ClassifierCfg) (t : ℕ) (f : BTree cfg.D → NodeM V (BTree cfg.D)) :
    M cfg.D V Unit := do
  let tree ← onPool (f ((← get).infos.get t).tree)
  updateInfo t fun ti => { ti with tree := tree }

/-- `does_rule_colide` of the tree a pointer leads to. -/
def collides (cfg : ClassifierCfg) (t : ℕ) (rule : RuleSpec cfg.D V) : M cfg.D V Bool := do
  let s ← get
  match (s.infos.get t).tree.doesRuleColide cfg.toBTreeCfg s.pool rule with
  | .ok b => return b
  | .error e => throw (.node e)

/-- The trees in the order in which `insert` tries them: those that hold a rule
with the same mask, then the others. -/
def triedFirst (s : PartitionSortClassifer D V) (mask : RuleMask D) (i : ℕ) : Bool :=
  (UnorderedMap.find (s.info i).usedRuleMasks mask).isSome

mutual

/-- `update_dimension_order(*t, ruleToAddBefore)`. -/
def updateDimensionOrder (std : IntervalSort) (cfg : ClassifierCfg) :
    ℕ → ℕ → Option (RuleSpec cfg.D V) → M cfg.D V Unit
  | 0, _, _ => throw .tooDeep
  | fuel + 1, t, ruleToAddBefore => do
      if ((← get).infos.get t).updatePending then
        match ruleToAddBefore with
        | some rule =>
            onTree cfg t fun tree => tree.insert cfg.toBTreeCfg rule
            updateInfo t fun ti => { ti with rules := ti.rules ++ [rule] }
        | none => pure ()
      else
        updateInfo t fun ti => { ti with updatePending := true }
        match ruleToAddBefore with
        | some rule => updateInfo t fun ti => { ti with rules := ti.rules ++ [rule] }
        | none => pure ()
        let ti := (← get).infos.get t
        let newDimOrder := GreedyDimensionOrderResolver.resolve std cfg.keyBytes ti.rules
          ti.tree.dimensionOrder
        if ti.tree.dimensionOrder ≠ newDimOrder.1 then
          let depth := callDepth cfg.toBTreeCfg (← get).pool
          onPool (BTree.destroyNode depth ti.tree.root)
          updateInfo t fun ti => { ti with
            tree := ⟨none, newDimOrder.1⟩
            usedDimCnt := newDimOrder.2 }
          rebuildFrom std cfg fuel t 0
        else
          match ruleToAddBefore with
          | some rule => onTree cfg t fun tree => tree.insert cfg.toBTreeCfg rule
          | none => pure ()
        updateInfo t fun ti => { ti with updatePending := false }

/-- The loop of the rebuild over the rules from index `j` on. -/
def rebuildFrom (std : IntervalSort) (cfg : ClassifierCfg) : ℕ → ℕ → ℕ → M cfg.D V Unit
  | 0, _, _ => throw .tooDeep
  | fuel + 1, t, j => do
      match ((← get).infos.get t).rules[j]? with
      | none => pure ()
      | some r =>
          if ← collides cfg t r then
            insertRule std cfg fuel r
          else
            onTree cfg t fun tree => tree.insert cfg.toBTreeCfg r
          rebuildFrom std cfg fuel t (j + 1)

/-- `try_insert_to_tree_without_collisions`. -/
def tryInsertToTreeWithoutCollisions (std : IntervalSort) (cfg : ClassifierCfg) :
    ℕ → RuleSpec cfg.D V → RuleMask cfg.D → ℕ → M cfg.D V Bool
  | 0, _, _, _ => throw .tooDeep
  | fuel + 1, rule, thisRuleMask, treeI => do
      let t := (← get).trees.get treeI
      if ← collides cfg t rule then return false
      updateInfo t fun ti => { ti with rules := ti.rules ++ [rule] }
      modify fun s => { s with ruleToTree := UnorderedMap.assign s.ruleToTree rule t }
      updateInfo t fun ti => usedRuleMaskIncr ti thisRuleMask
      let ti := (← get).infos.get t
      if ti.rules.length < cfg.TREE_FIXATION_THRESHOLD then
        updateDimensionOrder std cfg fuel t (some rule)
      else
        let locked := lockDims cfg.keyBytes rule (cfg.D - ti.usedDimCnt) ti.usedDimCnt
          (ti.tree.dimensionOrder, ti.usedDimCnt)
        updateInfo t fun ti => { ti with
          tree := { ti.tree with dimensionOrder := locked.1 }
          usedDimCnt := locked.2 }
        onTree cfg t fun tree => tree.insert cfg.toBTreeCfg rule
      if priority rule.second > ((← get).infos.get t).maxPriority then
        updateInfo t fun ti => { ti with maxPriority := priority rule.second }
        resortOnPriorityChange treeI
      return true

/-- The loops of `insert` over the trees from index `i` on, `cnt` of them.  Those
of the first loop (`first = true`) hold a rule with the same mask, those of the
second do not. -/
def tryTreesFrom (std : IntervalSort) (cfg : ClassifierCfg) :
    ℕ → RuleSpec cfg.D V → RuleMask cfg.D → Bool → ℕ → ℕ → M cfg.D V Bool
  | 0, _, _, _, _, _ => throw .tooDeep
  | _ + 1, _, _, _, 0, _ => return false
  | fuel + 1, rule, thisRuleMask, first, cnt + 1, i => do
      if triedFirst (← get) thisRuleMask i = first then
        if ← tryInsertToTreeWithoutCollisions std cfg fuel rule thisRuleMask i then return true
      tryTreesFrom std cfg fuel rule thisRuleMask first cnt (i + 1)

/-- `insert`. -/
def insertRule (std : IntervalSort) (cfg : ClassifierCfg) : ℕ → RuleSpec cfg.D V → M cfg.D V Unit
  | 0, _ => throw .tooDeep
  | fuel + 1, rule => do
      let thisRuleMask := rule.getRuleMask cfg.keyBytes
      if ← tryTreesFrom std cfg fuel rule thisRuleMask true (← get).treeCnt 0 then return ()
      if ← tryTreesFrom std cfg fuel rule thisRuleMask false (← get).treeCnt 0 then return ()
      let s ← get
      if s.treeCnt < cfg.MAX_TREE_CNT then
        let t := s.trees.get s.treeCnt
        updateInfo t fun ti => { ti with maxPriority := priority rule.second }
        let ti := s.infos.get t
        if ti.rules.length = 0 then
          let dor := GreedyDimensionOrderResolver.resolve std cfg.keyBytes [rule]
            ti.tree.dimensionOrder
          updateInfo t fun ti => { ti with
            tree := { ti.tree with dimensionOrder := dor.1 }
            usedDimCnt := dor.2 }
        onTree cfg t fun tree => tree.insert cfg.toBTreeCfg rule
        updateInfo t fun ti => { ti with rules := ti.rules ++ [rule] }
        modify fun s => { s with ruleToTree := UnorderedMap.assign s.ruleToTree rule t }
        updateInfo t fun ti => usedRuleMaskIncr ti thisRuleMask
        if ((← get).infos.get t).rules.length > 1 then
          updateDimensionOrder std cfg fuel t none
        modify fun s => { s with treeCnt := s.treeCnt + 1 }
        resortOnPriorityChange ((← get).treeCnt - 1)
      else
        throw .allTreesUsed

end

/-- `remove`.  The reads through the iterator behind `rule_to_tree.erase` see the
entry as it was before. -/
def removeRule (std : IntervalSort) (cfg : ClassifierCfg) (fuel : ℕ) (rule : RuleSpec cfg.D V) :
    M cfg.D V Unit := do
  match UnorderedMap.find (← get).ruleToTree rule with
  | none => pure ()
  | some t =>
      onTree cfg t fun tree => tree.remove cfg.toBTreeCfg rule
      modify fun s => { s with ruleToTree := UnorderedMap.erase s.ruleToTree rule }
      match usedRuleMaskDecr ((← get).infos.get t) (rule.getRuleMask cfg.keyBytes) with
      | none => throw (.node .outOfRange)
      | some ti => updateInfo t fun _ => ti
      if ((← get).infos.get t).rules.length < cfg.TREE_FIXATION_THRESHOLD then
        updateDimensionOrder std cfg fuel t none

end Update

section Search

variable [RuleValue V]

/-- The loop of `search` over the trees from index `i` on, `cnt` of them. -/
def searchFrom (cfg : ClassifierCfg) (s : PartitionSortClassifer cfg.D V) (val : KeyVec cfg.D) :
    ℕ → ℕ → V → Except Fault V
  | 0, _, actualFound => .ok actualFound
  | cnt + 1, i, actualFound => do
      let res ← (s.info i).tree.search cfg.toBTreeCfg s.pool val
      let actualFound :=
        if isValid res && (!isValid actualFound ||
          decide (priority actualFound < priority res)) then res else actualFound
      if isValid actualFound && (decide (i + 1 ≥ s.treeCnt) ||
          decide ((s.info (i + 1)).maxPriority ≤ priority actualFound)) then
        return actualFound
      searchFrom cfg s val cnt (i + 1) actualFound

/-- `search`. -/
def search (cfg : ClassifierCfg) (s : PartitionSortClassifer cfg.D V) (val : KeyVec cfg.D) :
    Except Fault V :=
  searchFrom cfg s val s.treeCnt 0 RuleValue.invalid

end Search

end PartitionSortClassifer

end Pcv
