import Pcv.Library.Procedures
import Pcv.PartitionSort.PartitionSortClassifier

/-!
# The calls of the classifier

`insert`, `try_insert_to_tree_without_collisions` and `update_dimension_order`, with the
loops they are written with, are a family of procedures in the sense of
`Pcv.Library.Procedures`.  Their straight pieces have names here, `body` puts the pieces
and the calls in sequence, and the functions of the classifier are the runs of these
bodies (`run_insert` and its companions).
-/

namespace Pcv

namespace PartitionSortClassifer

variable {D : ℕ} {V : Type}

/-- The rules a tree keeps a copy of. -/
abbrev rules (s : PartitionSortClassifer D V) (t : ℕ) : List (RuleSpec D V) :=
  (s.infos.get t).rules

/-- The tree is being updated. -/
abbrev pending (s : PartitionSortClassifer D V) (t : ℕ) : Bool := (s.infos.get t).updatePending

/-- A call of one of the functions, or of one of the loops in them. -/
inductive Call (D : ℕ) (V : Type)
  | update (t : ℕ) (ruleToAddBefore : Option (RuleSpec D V))
  | rebuild (t j : ℕ)
  | tryInsert (rule : RuleSpec D V) (mask : RuleMask D) (treeI : ℕ)
  | tryTrees (rule : RuleSpec D V) (mask : RuleMask D) (first : Bool) (cnt i : ℕ)
  | insert (rule : RuleSpec D V)

/-- What a call returns. -/
@[reducible] def Call.Res : Call D V → Type
  | .update _ _ => Unit
  | .rebuild _ _ => Unit
  | .tryInsert _ _ _ => Bool
  | .tryTrees _ _ _ _ _ => Bool
  | .insert _ => Unit

/-- A program of the classifier. -/
abbrev CallProg (D : ℕ) (V : Type) :=
  Prog ClassifierFault (PartitionSortClassifer D V) (Call.Res (D := D) (V := V))

/-- A step of such a program. -/
abbrev perform {α : Type} (x : M D V α) : CallProg D V α := Prog.perform x

/-- A call in such a program. -/
abbrev invoke (c : Call D V) : CallProg D V c.Res := Prog.invoke c

section Phases

variable [RuleValue V] [DecidableEq V]

/-- `update_dimension_order` for a tree that is being updated already. -/
def insertPending (cfg : ClassifierCfg) (t : ℕ) : Option (RuleSpec cfg.D V) → M cfg.D V Unit
  | some rule => do
      onTree cfg t fun tree => tree.insert cfg.toBTreeCfg rule
      updateInfo t fun ti => { ti with rules := ti.rules ++ [rule] }
  | none => pure ()

/-- The tree is marked, and keeps a copy of the new rule. -/
def beginUpdate (t : ℕ) (ruleToAddBefore : Option (RuleSpec D V)) : M D V Unit := do
  updateInfo t fun ti => { ti with updatePending := true }
  match ruleToAddBefore with
  | some rule => updateInfo t fun ti => { ti with rules := ti.rules ++ [rule] }
  | none => pure ()

/-- The order that the rules of the tree ask for. -/
def wantedOrder (std : IntervalSort) (cfg : ClassifierCfg) (s : PartitionSortClassifer cfg.D V)
    (t : ℕ) : DimensionOrder cfg.D × ℕ :=
  GreedyDimensionOrderResolver.resolve std cfg.keyBytes (s.rules t)
    (s.infos.get t).tree.dimensionOrder

/-- The tree gives up its nodes and gets another order. -/
def emptyTree (cfg : ClassifierCfg) (t : ℕ) (root : Option ℕ)
    (newDimOrder : DimensionOrder cfg.D × ℕ) : M cfg.D V Unit := do
  let depth := callDepth cfg.toBTreeCfg (← get).pool
  onPool (BTree.destroyNode depth root)
  updateInfo t fun ti => { ti with
    tree := ⟨none, newDimOrder.1⟩
    usedDimCnt := newDimOrder.2 }

/-- The new rule goes into a tree whose order stays. -/
def insertGiven (cfg : ClassifierCfg) (t : ℕ) : Option (RuleSpec cfg.D V) → M cfg.D V Unit
  | some rule => onTree cfg t fun tree => tree.insert cfg.toBTreeCfg rule
  | none => pure ()

/-- The mark is taken away. -/
def endUpdate (t : ℕ) : M D V Unit := updateInfo t fun ti => { ti with updatePending := false }

/-- The bookkeeping of a rule that a tree takes. -/
def register (rule : RuleSpec D V) (mask : RuleMask D) (t : ℕ) : M D V Unit := do
  updateInfo t fun ti => { ti with rules := ti.rules ++ [rule] }
  modify fun s => { s with ruleToTree := UnorderedMap.assign s.ruleToTree rule t }
  updateInfo t fun ti => usedRuleMaskIncr ti mask

/-- The rule goes into a tree whose order is fixed, save for the fields that no rule used. -/
def insertFixed (cfg : ClassifierCfg) (rule : RuleSpec cfg.D V) (t : ℕ) (ti : TreeInfo cfg.D V) :
    M cfg.D V Unit := do
  let locked := lockDims cfg.keyBytes rule (cfg.D - ti.usedDimCnt) ti.usedDimCnt
    (ti.tree.dimensionOrder, ti.usedDimCnt)
  updateInfo t fun ti => { ti with
    tree := { ti.tree with dimensionOrder := locked.1 }
    usedDimCnt := locked.2 }
  onTree cfg t fun tree => tree.insert cfg.toBTreeCfg rule

/-- The greatest priority of the tree is kept up to date, and with it the order of the trees. -/
def raisePriority (rule : RuleSpec D V) (t treeI : ℕ) : M D V Unit := do
  if priority rule.second > ((← get).infos.get t).maxPriority then
    updateInfo t fun ti => { ti with maxPriority := priority rule.second }
    resortOnPriorityChange treeI

/-- The first tree that is not in use is set up for the rule. -/
def openTree (std : IntervalSort) (cfg : ClassifierCfg) (rule : RuleSpec cfg.D V) (t : ℕ)
    (ti : TreeInfo cfg.D V) : M cfg.D V Unit := do
  updateInfo t fun ti => { ti with maxPriority := priority rule.second }
  if ti.rules.length = 0 then
    let dor := GreedyDimensionOrderResolver.resolve std cfg.keyBytes [rule]
      ti.tree.dimensionOrder
    updateInfo t fun ti => { ti with
      tree := { ti.tree with dimensionOrder := dor.1 }
      usedDimCnt := dor.2 }
  onTree cfg t fun tree => tree.insert cfg.toBTreeCfg rule

/-- One more tree is in use. -/
def countTree : M D V Unit := do
  modify fun s => { s with treeCnt := s.treeCnt + 1 }
  resortOnPriorityChange ((← get).treeCnt - 1)

/-- `remove` up to the call of `update_dimension_order`; the tree that call is made for. -/
def unregister (cfg : ClassifierCfg) (rule : RuleSpec cfg.D V) : M cfg.D V (Option ℕ) := do
  match UnorderedMap.find (← get).ruleToTree rule with
  | none => return none
  | some t =>
      onTree cfg t fun tree => tree.remove cfg.toBTreeCfg rule
      modify fun s => { s with ruleToTree := UnorderedMap.erase s.ruleToTree rule }
      match usedRuleMaskDecr ((← get).infos.get t) (rule.getRuleMask cfg.keyBytes) with
      | none => throw (.node .outOfRange)
      | some ti => updateInfo t fun _ => ti
      if ((← get).infos.get t).rules.length < cfg.TREE_FIXATION_THRESHOLD then return some t
      else return none

/-- The bodies of the functions, with their calls. -/
def body (std : IntervalSort) (cfg : ClassifierCfg) :
    ∀ c : Call cfg.D V, CallProg cfg.D V c.Res
  | .update t rule => do
      if (← perform get).pending t then perform (insertPending cfg t rule)
      else
        perform (beginUpdate t rule)
        let s ← perform get
        if (s.infos.get t).tree.dimensionOrder ≠ (wantedOrder std cfg s t).1 then
          perform (emptyTree cfg t (s.infos.get t).tree.root (wantedOrder std cfg s t))
          invoke (.rebuild t 0)
        else perform (insertGiven cfg t rule)
        perform (endUpdate t)
  | .rebuild t j => do
      match ((← perform get).rules t)[j]? with
      | none => pure ()
      | some r =>
          if ← perform (collides cfg t r) then invoke (.insert r)
          else perform (onTree cfg t fun tree => tree.insert cfg.toBTreeCfg r)
          invoke (.rebuild t (j + 1))
  | .tryInsert rule mask treeI => do
      let t := (← perform get).trees.get treeI
      if ← perform (collides cfg t rule) then return false
      perform (register rule mask t)
      let ti := (← perform get).infos.get t
      if ti.rules.length < cfg.TREE_FIXATION_THRESHOLD then invoke (.update t (some rule))
      else perform (insertFixed cfg rule t ti)
      perform (raisePriority rule t treeI)
      return true
  | .tryTrees _ _ _ 0 _ => return false
  | .tryTrees rule mask first (cnt + 1) i => do
      if triedFirst (← perform get) mask i = first then
        if ← invoke (.tryInsert rule mask i) then return true
      invoke (.tryTrees rule mask first cnt (i + 1))
  | .insert rule => do
      let mask := rule.getRuleMask cfg.keyBytes
      if ← invoke (.tryTrees rule mask true (← perform get).treeCnt 0) then return ()
      if ← invoke (.tryTrees rule mask false (← perform get).treeCnt 0) then return ()
      let s ← perform get
      if s.treeCnt < cfg.MAX_TREE_CNT then
        let t := s.trees.get s.treeCnt
        perform (openTree std cfg rule t (s.infos.get t))
        perform (register rule mask t)
        if ((← perform get).rules t).length > 1 then invoke (.update t none)
        perform countTree
      else perform (throw .allTreesUsed)

end Phases

/-! ## The functions as runs of these bodies -/

private theorem ite_bind {α β : Type} {c : Prop} [Decidable c] (x y : M D V α)
    (f : α → M D V β) : ((if c then x else y) >>= f) = if c then x >>= f else y >>= f :=
  apply_ite (· >>= f) c x y

section Equations

variable [RuleValue V] [DecidableEq V] (std : IntervalSort) (cfg : ClassifierCfg)

/-- Run a call of the classifier, with a bound on the depth of the calls in it. -/
abbrev run (fuel : ℕ) (c : Call cfg.D V) : M cfg.D V c.Res :=
  runBounded (body std cfg) ClassifierFault.tooDeep fuel c

variable (fuel : ℕ)

theorem run_eq :
    (∀ t rule, run std cfg fuel (.update t rule) = updateDimensionOrder (V := V) std cfg fuel t rule) ∧
      (∀ t j, run std cfg fuel (.rebuild t j) = rebuildFrom (V := V) std cfg fuel t j) ∧
      (∀ rule mask i, run std cfg fuel (.tryInsert rule mask i) =
        tryInsertToTreeWithoutCollisions (V := V) std cfg fuel rule mask i) ∧
      (∀ rule mask first cnt i, run std cfg fuel (.tryTrees rule mask first cnt i) =
        tryTreesFrom (V := V) std cfg fuel rule mask first cnt i) ∧
      ∀ rule, run std cfg fuel (.insert rule) = insertRule (V := V) std cfg fuel rule := by
  induction fuel with
  | zero =>
    refine ⟨fun t rule => ?_, fun t j => ?_, fun rule mask i => ?_,
      fun rule mask first cnt i => ?_, fun rule => ?_⟩
    · rw [updateDimensionOrder]; rfl
    · rw [rebuildFrom]; rfl
    · rw [tryInsertToTreeWithoutCollisions]; rfl
    · rw [tryTreesFrom]; rfl
    · rw [insertRule]; rfl
  | succ fuel ih =>
    obtain ⟨hupdate, hrebuild, htry, htrees, hinsert⟩ := ih
    refine ⟨fun t rule => ?_, fun t j => ?_, fun rule mask i => ?_,
      fun rule mask first cnt i => ?_, fun rule => ?_⟩
    · cases rule with
      | none =>
        rw [updateDimensionOrder]
        simp only [run, runBounded, body, Prog.exec_bind, Prog.exec_ite, Prog.exec_perform,
          Prog.exec_invoke, insertPending, beginUpdate, emptyTree, insertGiven, endUpdate,
          bind_assoc, pure_bind, ← hrebuild]
        rfl
      | some rule =>
        rw [updateDimensionOrder]
        simp only [run, runBounded, body, Prog.exec_bind, Prog.exec_ite, Prog.exec_perform,
          Prog.exec_invoke, insertPending, beginUpdate, emptyTree, insertGiven, endUpdate,
          bind_assoc, ← hrebuild]
        rfl
    · rw [rebuildFrom]
      simp only [run, runBounded, body, Prog.exec_bind, Prog.exec_perform, ← hrebuild, ← hinsert]
      congr 1
      funext s
      simp only [rules]
      cases (s.infos.get t).rules[j]? with
      | none => rfl
      | some r =>
        simp only [Prog.exec_bind, Prog.exec_ite, Prog.exec_perform, Prog.exec_invoke]
    · rw [tryInsertToTreeWithoutCollisions]
      simp only [run, runBounded, body, Prog.exec_bind, Prog.exec_ite, Prog.exec_perform,
        Prog.exec_invoke, Prog.exec_pure, register, insertFixed, raisePriority, bind_assoc, ite_bind,
        pure_bind, ← hupdate]
    · cases cnt with
      | zero =>
        rw [tryTreesFrom]
        rfl
      | succ cnt =>
        rw [tryTreesFrom]
        simp only [run, runBounded, body, Prog.exec_bind, Prog.exec_ite, Prog.exec_perform,
          Prog.exec_invoke, Prog.exec_pure, ← htry, ← htrees]
    · rw [insertRule]
      simp only [run, runBounded, body, Prog.exec_bind, Prog.exec_ite, Prog.exec_perform,
        Prog.exec_invoke, Prog.exec_pure, openTree, register, countTree, bind_assoc, ite_bind,
        ← htrees, ← hupdate]

theorem run_update (t : ℕ) (rule : Option (RuleSpec cfg.D V)) :
    run std cfg fuel (.update t rule) = updateDimensionOrder (V := V) std cfg fuel t rule :=
  (run_eq std cfg fuel).1 t rule

theorem run_insert (rule : RuleSpec cfg.D V) :
    run std cfg fuel (.insert rule) = insertRule (V := V) std cfg fuel rule :=
  (run_eq std cfg fuel).2.2.2.2 rule

theorem removeRule_eq (rule : RuleSpec cfg.D V) :
    removeRule std cfg fuel rule = (do
      match ← unregister cfg rule with
      | none => pure ()
      | some t => run std cfg fuel (.update t none)) := by
  unfold removeRule unregister
  rw [bind_assoc]
  congr 1
  funext s
  cases UnorderedMap.find s.ruleToTree rule with
  | none => rfl
  | some t =>
    simp only [bind_assoc]
    congr 1
    funext _
    congr 1
    funext _
    congr 1
    funext s'
    cases usedRuleMaskDecr (s'.infos.get t) (RuleSpec.getRuleMask cfg.keyBytes rule) with
    | none => rfl
    | some ti =>
      simp only [bind_assoc, ite_bind, pure_bind, ← run_update]

end Equations

end PartitionSortClassifer

end Pcv
