import Pcv.PartitionSort.MempoolDynamic

/-!
# The lock of the memory pool

With `THREAD_SAFE` every call takes a spinlock, and the normal exits give it back.  The other
exits leave it taken: `get` and `size` of an exhausted pool, and the release of a cell that is
seen to be free.  The next call, of any thread, then spins without an end.

The pool behind the lock is the one without it.  A call is one step here, since a call that
waits for the lock changes nothing.
-/

namespace Pcv

/-- A pool with `THREAD_SAFE`. -/
structure LockedMempool (α : Type) where
  lock : Bool
  pool : DynamicMempool α

namespace LockedMempool

variable {α : Type}

/-- How a call ends: with a result, with an exception, or not at all. -/
inductive Outcome
  | returned (result : Option ℕ)
  | thrown (e : Fault)
  | spins
deriving DecidableEq

/-- The call has come to an end. -/
def Outcome.ends : Outcome → Bool
  | spins => false
  | _ => true

/-- `acquire_lock`; it does not end while the lock is taken. -/
def acquireLock (p : LockedMempool α) : Option (LockedMempool α) :=
  if p.lock then none else some { p with lock := true }

/-- `release_lock`. -/
def releaseLock (p : LockedMempool α) : LockedMempool α := { p with lock := false }

/-- `size`. -/
def size (p : LockedMempool α) : Outcome × LockedMempool α :=
  match p.acquireLock with
  | none => (.spins, p)
  | some p =>
      match p.pool.firstFree with
      | none => (.returned (some 0), p)
      | some i =>
          match DynamicMempool.countFree p.pool.nextFree p.pool.ITEM_CNT (some i) 0 with
          | .ok unused => (.returned (some (p.pool.ITEM_CNT - unused)), p.releaseLock)
          -- a free list that is a cycle
          | .error _ => (.spins, p)

/-- `get`. -/
def get (obj : α) (p : LockedMempool α) : Outcome × LockedMempool α :=
  match p.acquireLock with
  | none => (.spins, p)
  | some p =>
      match DynamicMempool.get obj p.pool with
      | .error e pool => (.thrown e, { p with pool := pool })
      | .ok indx pool => (.returned (some indx), releaseLock { p with pool := pool })

/-- `release`. -/
def release (indx : ℕ) (p : LockedMempool α) : Outcome × LockedMempool α :=
  match p.acquireLock with
  | none => (.spins, p)
  | some p =>
      match DynamicMempool.release indx p.pool with
      | .error e pool => (.thrown e, { p with pool := pool })
      | .ok _ pool => (.returned none, releaseLock { p with pool := pool })

/-- A call of the pool. -/
inductive Call (α : Type)
  | get (obj : α)
  | release (indx : ℕ)
  | size

namespace Call

/-- The call, run in a state of the pool. -/
def run : Call α → LockedMempool α → Outcome × LockedMempool α
  | get obj, p => p.get obj
  | release indx, p => p.release indx
  | size, p => p.size

/-- The pool is not exhausted where an item is allocated or the items are counted, and a cell
that is released is not linked to another one. -/
def Safe (p : DynamicMempool α) : Call α → Prop
  | get _ => p.firstFree ≠ none
  | release indx => p.nextFree.get indx = none
  | size => p.firstFree ≠ none

instance (p : DynamicMempool α) (c : Call α) : Decidable (c.Safe p) :=
  match c with
  | get _ => inferInstanceAs (Decidable (_ ≠ none))
  | release indx => inferInstanceAs (Decidable (p.nextFree.get indx = none))
  | size => inferInstanceAs (Decidable (_ ≠ none))

end Call

/-- A call that has come to an end: the states in front of it and behind it, and its outcome. -/
structure Step (α : Type) where
  before : LockedMempool α
  call : Call α
  outcome : Outcome
  after : LockedMempool α

/-- The calls of any threads, one after the other, as far as they come to an end. -/
def steps : List (Call α) → LockedMempool α → List (Step α)
  | [], _ => []
  | c :: cs, p =>
      let (o, p') := c.run p
      if o.ends then ⟨p, c, o, p'⟩ :: steps cs p' else []

/-- The lock is free behind every call, and the next call can take it. -/
def FreesLock (cs : List (Call α)) (p : LockedMempool α) : Prop :=
  ∀ s ∈ steps cs p, s.after.lock = false ∧ s.after.acquireLock.isSome = true

instance (cs : List (Call α)) (p : LockedMempool α) : Decidable (FreesLock cs p) :=
  inferInstanceAs (Decidable (∀ s ∈ steps cs p, _ ∧ _))

/-! ## One call -/

theorem acquireLock_of_free {p : LockedMempool α} (h : p.lock = false) :
    p.acquireLock = some { p with lock := true } := by
  rw [acquireLock, h]
  rfl

/-- While the lock is taken, no call comes to an end. -/
theorem Call.run_of_taken {p : LockedMempool α} (h : p.lock = true) (c : Call α) :
    c.run p = (.spins, p) := by
  have hacquire : p.acquireLock = none := by rw [acquireLock, h]; rfl
  cases c <;> simp only [run, LockedMempool.get, LockedMempool.release, LockedMempool.size, hacquire]

/-- A call gives the lock back exactly if it meets the condition. -/
theorem Call.run_lock_iff {p : LockedMempool α} (h : p.lock = false) (c : Call α)
    (hends : (c.run p).1.ends = true) : (c.run p).2.lock = false ↔ c.Safe p.pool := by
  have hacquire := acquireLock_of_free h
  cases c with
  | get obj =>
    simp only [run, LockedMempool.get, hacquire, Safe]
    cases hfirst : p.pool.firstFree with
    | none => simp [DynamicMempool.get_of_none hfirst]
    | some i => simp [DynamicMempool.get_of_some hfirst, releaseLock]
  | release indx =>
    simp only [run, LockedMempool.release, hacquire, Safe]
    cases hlink : p.pool.nextFree.get indx with
    | none => simp [DynamicMempool.release_of_none hlink, releaseLock]
    | some j => simp [DynamicMempool.release_of_some hlink]
  | size =>
    simp only [run, LockedMempool.size, hacquire, Safe] at hends ⊢
    cases hfirst : p.pool.firstFree with
    | none => simp
    | some i =>
      simp only [hfirst] at hends ⊢
      cases hcount : DynamicMempool.countFree p.pool.nextFree p.pool.ITEM_CNT (some i) 0 with
      | ok unused => simp [releaseLock]
      | error e =>
        rw [hcount] at hends
        cases hends

/-! ## Runs -/

/-- In a run from a state with a free lock, the lock is free behind every call exactly if every
call meets the condition in the state it is made in. -/
theorem freesLock_iff (cs : List (Call α)) {p : LockedMempool α} (h : p.lock = false) :
    FreesLock cs p ↔ ∀ s ∈ steps cs p, s.call.Safe s.before.pool := by
  induction cs generalizing p with
  | nil => simp [FreesLock, steps]
  | cons c cs ih =>
    by_cases hends : (c.run p).1.ends = true
    · have hsteps : steps (c :: cs) p =
          ⟨p, c, (c.run p).1, (c.run p).2⟩ :: steps cs (c.run p).2 := if_pos hends
      have hlock := c.run_lock_iff h hends
      rw [FreesLock, hsteps, List.forall_mem_cons, List.forall_mem_cons]
      constructor
      · rintro ⟨⟨hfree, -⟩, hrest⟩
        exact ⟨hlock.mp hfree, (ih hfree).mp hrest⟩
      · rintro ⟨hsafe, hrest⟩
        have hfree := hlock.mpr hsafe
        refine ⟨⟨hfree, ?_⟩, (ih hfree).mpr hrest⟩
        rw [acquireLock_of_free hfree]
        rfl
    · have hsteps : steps (c :: cs) p = [] := if_neg hends
      simp [FreesLock, hsteps]

/-- A pool of two cells with a free lock. -/
def twoCells : LockedMempool ℕ := ⟨false, DynamicMempool.make 2 0⟩

/-- Two allocations and a release, of which the last one finds the cell in use. -/
theorem freesLock_iff_twoCells :
    FreesLock [.get 7, .get 8, .release 0, .size] twoCells ∧
      (steps [.get 7, .get 8, .release 0, .size] twoCells).map (·.outcome) =
        [.returned (some 0), .returned (some 1), .returned none, .returned (some 1)] :=
  ⟨(freesLock_iff _ rfl).mpr (by decide), by decide⟩

/-- The size of an exhausted pool is returned with the lock taken. -/
theorem not_freesLock_exhausted : ¬ FreesLock [.get 7, .get 8, .size] twoCells := by decide

end LockedMempool

end Pcv
