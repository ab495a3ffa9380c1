import Pcv.Common.Range
import Pcv.Library.Ensures
import Pcv.Library.Store

/-!
# The memory pool

`DynamicMempool` hands out cells of a fixed array and takes them back.  The free
cells form a singly linked list that is threaded through the info array; a null
link marks the end of the list and also every cell that is in use.

The pool is the one without a lock, which the trees use.  Allocation and release
are computations over the pool.  A failure keeps the pool it was raised in, since
the algorithms that allocate do not undo what they did before.
-/

namespace Pcv

/-- What can be thrown, or go wrong without being checked. -/
inductive Fault
  /-- `std::bad_alloc`: the pool is exhausted. -/
  | badAlloc
  /-- `std::runtime_error` of `DynamicMempool::release`. -/
  | doubleFree (index : ℕ)
  /-- `std::runtime_error` of `DynamicMempool::getById` and `getId`. -/
  | deallocated (index : ℕ)
  /-- `std::runtime_error` of `BTreeRemove::remove`. -/
  | keyDoesNotExist (key : Range1d)
  /-- An array is read or written outside its bounds, or a null node is used. -/
  | outOfRange
  /-- The recursion is deeper than the data structure allows. -/
  | nonTermination
deriving DecidableEq, Repr

/-- The text of the exceptions that carry one. -/
def Fault.what : Fault → Option String
  | .doubleFree index => some ("Double free " ++ toString index)
  | .deallocated index => some ("Item " ++ toString index ++ " is deallocated")
  | .keyDoesNotExist key =>
      some ("The key " ++ toString key.low ++ ":" ++ toString key.high ++
        " does not exist in the tree")
  | _ => none

/-- The pool: the objects, the links of the free list and its first item. -/
structure DynamicMempool (α : Type) where
  ITEM_CNT : ℕ
  mempool : Store α
  nextFree : Store (Option ℕ)
  firstFree : Option ℕ

namespace DynamicMempool

variable {α : Type}

/-- The constructor: every cell is free and linked to the next one. -/
def make (ITEM_CNT : ℕ) (raw : α) : DynamicMempool α where
  ITEM_CNT := ITEM_CNT
  mempool := Store.fill raw
  nextFree := ⟨fun i => if i + 1 < ITEM_CNT then some (i + 1) else none, []⟩
  firstFree := some 0

/-- Allocate a cell and construct `obj` in it. -/
def get (obj : α) : EStateM Fault (DynamicMempool α) ℕ := do
  let p ← MonadState.get
  match p.firstFree with
  | none => throw .badAlloc
  | some indx =>
      MonadState.set { p with
        mempool := p.mempool.set indx obj
        nextFree := p.nextFree.set indx none
        firstFree := p.nextFree.get indx }
      return indx

/-- Prepend a cell to the list of the free items. -/
def release (indx : ℕ) : EStateM Fault (DynamicMempool α) Unit := do
  let p ← MonadState.get
  if (p.nextFree.get indx).isSome then
    throw (.doubleFree indx)
  else
    MonadState.set { p with
      nextFree := p.nextFree.set indx p.firstFree
      firstFree := some indx }

/-! ### The outcome of `get` and `release` -/

theorem get_of_none {p : DynamicMempool α} (h : p.firstFree = none) (obj : α) :
    get obj p = .error .badAlloc p := by
  simp [get, h, Bind.bind, EStateM.bind, stateGet_eq, stateThrow_eq]

theorem get_of_some {p : DynamicMempool α} {i : ℕ} (h : p.firstFree = some i) (obj : α) :
    get obj p = .ok i { p with
      mempool := p.mempool.set i obj
      nextFree := p.nextFree.set i none
      firstFree := p.nextFree.get i } := by
  simp [get, h, Bind.bind, EStateM.bind, stateGet_eq, stateSet_eq, Pure.pure, EStateM.pure]

theorem release_of_some {p : DynamicMempool α} {i j : ℕ} (h : p.nextFree.get i = some j) :
    release i p = .error (.doubleFree i) p := by
  simp [release, h, Bind.bind, EStateM.bind, stateGet_eq, stateThrow_eq]

theorem release_of_none {p : DynamicMempool α} {i : ℕ} (h : p.nextFree.get i = none) :
    release i p = .ok ⟨⟩ { p with
      nextFree := p.nextFree.set i p.firstFree
      firstFree := some i } := by
  simp [release, h, Bind.bind, EStateM.bind, stateGet_eq, stateSet_eq]

/-! ### Status -/

/-- The loop of `size` that counts the free items, from a link on. -/
def countFree (nextFree : Store (Option ℕ)) : ℕ → Option ℕ → ℕ → Except Fault ℕ
  | _, none, unused => .ok unused
  | 0, some _, _ => .error .nonTermination
  | fuel + 1, some i, unused => countFree nextFree fuel (nextFree.get i) (unused + 1)

/-- `size`.  A free list of more than `ITEM_CNT` items is a cycle. -/
def size (p : DynamicMempool α) : Except Fault ℕ :=
  match p.firstFree with
  | none => .ok 0
  | some i => do
      let unused ← countFree p.nextFree p.ITEM_CNT (some i) 0
      return p.ITEM_CNT - unused

/-- Where the array of the objects lies: its address and the size of an item. -/
structure Placement where
  base : ℕ
  itemSize : ℕ
  pos : 0 < itemSize

/-- The address of an item. -/
def Placement.addr (a : Placement) (indx : ℕ) : ℕ := a.base + indx * a.itemSize

/-- The check of an id that is compiled in without `NDEBUG`. -/
def checkId (p : DynamicMempool α) (ndebug : Bool) (id : ℕ) : Except Fault Unit :=
  if ndebug then .ok ()
  else if p.ITEM_CNT ≤ id then .error .outOfRange
  else if (p.nextFree.get id).isSome then .error (.deallocated id)
  else .ok ()

/-- `getById`: the address of an item. -/
def getById (a : Placement) (ndebug : Bool) (id : ℕ) (p : DynamicMempool α) : Except Fault ℕ := do
  checkId p ndebug id
  return a.addr id

/-- `getId`: the id of the item at an address. -/
def getId (a : Placement) (ndebug : Bool) (addr : ℕ) (p : DynamicMempool α) : Except Fault ℕ := do
  let id := (addr - a.base) / a.itemSize
  checkId p ndebug id
  return id

/-- Read an object of the pool. -/
def read (indx : ℕ) : EStateM Fault (DynamicMempool α) α :=
  return (← MonadState.get).mempool.get indx

/-- Overwrite an object of the pool. -/
def write (indx : ℕ) (obj : α) : EStateM Fault (DynamicMempool α) Unit :=
  modify fun p => { p with mempool := p.mempool.set indx obj }

/-- Change an object of the pool in place. -/
def update (indx : ℕ) (f : α → α) : EStateM Fault (DynamicMempool α) Unit :=
  modify fun p => { p with mempool := p.mempool.set indx (f (p.mempool.get indx)) }

end DynamicMempool

end Pcv
