import Pcv.PartitionSort.BTreeNode

/-!
# The layered B-tree and the access to its nodes

`BTree` is the tree object: its root and the order in which its levels test the
fields.  The nodes live in a memory pool that several trees share, so the
operations are computations over the pool.

The second half are the accessors of `_BTreeNodeNavigator`, through which every
algorithm reads and writes the links of a node.
-/

namespace Pcv

/-- The pool of the nodes. -/
abbrev NodeAllocator (V : Type) := DynamicMempool (Node V)

/-- A computation over the nodes. -/
abbrev NodeM (V : Type) := EStateM Fault (NodeAllocator V)

/-- `_BTree`, without the reference to the shared pool. -/
structure BTree (D : ℕ) where
  root : Option ℕ
  dimensionOrder : DimensionOrder D
deriving DecidableEq

/-- The order a tree is constructed with: the fields as they are numbered. -/
def BTree.identityOrder (D : ℕ) : DimensionOrder D := Vector.ofFn id

def BTree.make (D : ℕ) : BTree D := ⟨none, identityOrder D⟩

/-- A bound on the nesting of calls and on the turns of a loop over nodes.  Each
of them moves on to another node of the pool, with a bounded number of calls in
between. -/
def callDepth (cfg : BTreeCfg) {V : Type} (pool : NodeAllocator V) : ℕ :=
  4 * (pool.ITEM_CNT + cfg.D) + 8

namespace Navigator

variable {V : Type}

/-- Use of a pointer that must not be null. -/
def deref : Option ℕ → NodeM V ℕ
  | some n => pure n
  | none => throw .outOfRange

/-- Allocate a new node. -/
def newNode (cfg : BTreeCfg) [RuleValue V] : NodeM V ℕ :=
  DynamicMempool.get (Node.make cfg)

/-- `set_child`: link a child and make the node its parent. -/
def setChild (n index : ℕ) : Option ℕ → NodeM V Unit
  | none => DynamicMempool.update n (·.setChildIndex index none)
  | some child => do
      DynamicMempool.update n (·.setChildIndex index (some child))
      DynamicMempool.update child (·.setParent (some n))

/-- `set_next_layer`. -/
def setNextLayer (n index : ℕ) (nextLayerRoot : Option ℕ) : NodeM V Unit :=
  DynamicMempool.update n (·.setNextLevel index nextLayerRoot)

/-- `move_child`. -/
def moveChild (n srcI dst dstI : ℕ) : NodeM V Unit := do
  setChild dst dstI ((← DynamicMempool.read n).childIndex.get srcI)

/-- `for (j = 0; cnt steps; j++) set_child(dst, dstI + j, child(n, srcI + j))`. -/
def moveChildren (n srcI dst dstI : ℕ) : ℕ → NodeM V Unit
  | 0 => pure ()
  | cnt + 1 => do
      moveChild n srcI dst dstI
      moveChildren n (srcI + 1) dst (dstI + 1) cnt

/-- `for (j = cnt; j >= i + 1; j--) move_child(n, j, n, j + 1)`; the argument is
`cnt - i`, the number of steps. -/
def shiftChildrenRight (n i : ℕ) : ℕ → NodeM V Unit
  | 0 => pure ()
  | steps + 1 => do
      moveChild n (i + steps + 1) n (i + steps + 2)
      shiftChildrenRight n i steps

end Navigator

namespace BTree

variable {V : Type}

/-- The loop of `destroy_node` over the children, or over the next layers. -/
def destroyLinks (destroyNode : Option ℕ → NodeM V Unit) (link : Node V → ℕ → Option ℕ)
    (n : ℕ) : ℕ → ℕ → NodeM V Unit
  | 0, _ => pure ()
  | cnt + 1, i => do
      destroyNode (link (← DynamicMempool.read n) i)
      destroyLinks destroyNode link n cnt (i + 1)

/-- `destroy_node`: release a node with everything reachable from it. -/
def destroyNode : ℕ → Option ℕ → NodeM V Unit
  | _, none => pure ()
  | 0, some _ => throw .nonTermination
  | fuel + 1, some n => do
      let nd ← DynamicMempool.read n
      if !nd.isLeaf then
        destroyLinks (destroyNode fuel) (fun nd i => nd.childIndex.get i) n (nd.keyCnt + 1) 0
      destroyLinks (destroyNode fuel) (fun nd i => nd.nextLevel.get i) n nd.keyCnt 0
      DynamicMempool.release n

end BTree

end Pcv
