import Pcv.Library.Spinlock
import Pcv.PartitionSort.MempoolLock
import Pcv.PartitionSort.MempoolRun

/-!
# Threads that share a memory pool

With `THREAD_SAFE` any threads may use a pool at the same time.  Here a call is the sequence of its
accesses to the pool, between which the other threads go on.  Alone, it does what the call in one
step does (`Call.code_run`).

As long as a thread releases only items that it has got, no item is handed out twice, whatever the
interleaving, and the calls look as if they were made one after the other.  A call that throws is the
last one that ends.
-/

namespace Pcv

open Spinlock

/-- The pool without its objects.  A call does not look at more while it has the lock; the object of
an item is constructed behind it. -/
structure Links where
  ITEM_CNT : ℕ
  nextFree : Store (Option ℕ)
  firstFree : Option ℕ

def DynamicMempool.links {α : Type} (p : DynamicMempool α) : Links :=
  ⟨p.ITEM_CNT, p.nextFree, p.firstFree⟩

namespace LockedMempool

/-! ## The accesses of a call -/

/-- `get`, between `acquire_lock` and its end. -/
def getSection : Section Links Outcome :=
  .access id fun p =>
    match p.firstFree with
    | none => .leave (.thrown .badAlloc) false
    | some indx =>
        .access id fun p =>
          let tmp := p.nextFree.get indx
          .access (fun p => { p with nextFree := p.nextFree.set indx none }) fun _ =>
            .access (fun p => { p with firstFree := tmp }) fun _ => .leave (.returned (some indx)) true

/-- `release`, between `acquire_lock` and its end. -/
def releaseSection (indx : ℕ) : Section Links Outcome :=
  .access id fun p =>
    if (p.nextFree.get indx).isSome then .leave (.thrown (.doubleFree indx)) false
    else
      .access (fun p => { p with nextFree := p.nextFree.set indx p.firstFree }) fun _ =>
        .access (fun p => { p with firstFree := some indx }) fun _ => .leave (.returned none) true

/-- The loop of `size`, from an item on.  It does not end if it finds more items than there are. -/
def countSection (ITEM_CNT : ℕ) : ℕ → Option ℕ → ℕ → Section Links Outcome
  | _, none, unused => .leave (.returned (some (ITEM_CNT - unused))) true
  | 0, some _, _ => .hang
  | fuel + 1, some i, unused =>
      .access id fun p => countSection ITEM_CNT fuel (p.nextFree.get i) (unused + 1)

/-- `size`, between `acquire_lock` and its end. -/
def sizeSection : Section Links Outcome :=
  .access id fun p =>
    match p.firstFree with
    | none => .leave (.returned (some 0)) false
    | some i => countSection p.ITEM_CNT p.ITEM_CNT (some i) 0

variable {α : Type}

def Call.code : Call α → Section Links Outcome
  | get _ => getSection
  | release indx => releaseSection indx
  | size => sizeSection

theorem countSection_run (ITEM_CNT fuel : ℕ) (link : Option ℕ) (unused : ℕ) (l : Links) :
    (countSection ITEM_CNT fuel link unused).run l =
      match DynamicMempool.countFree l.nextFree fuel link unused with
      | .ok unused => (some (.returned (some (ITEM_CNT - unused)), true), l)
      | .error _ => (none, l) := by
  induction fuel generalizing link unused with
  | zero => cases link <;> rfl
  | succ fuel ih =>
    cases link with
    | none => rfl
    | some i => exact ih _ _

/-- The accesses of a call, without those of others in between, do what the call in one step does. -/
theorem Call.code_run (c : Call α) (p : DynamicMempool α) : c.code.run p.links =
    match c.run ⟨false, p⟩ with
    | (.spins, _) => (none, p.links)
    | (o, p') => (some (o, !p'.lock), p'.pool.links) := by
  cases c with
  | get obj =>
    simp only [run, LockedMempool.get, acquireLock_of_free]
    cases hfirst : p.firstFree with
    | none =>
      rw [DynamicMempool.get_of_none hfirst]
      simp [code, getSection, Section.run, DynamicMempool.links, hfirst]
    | some i =>
      rw [DynamicMempool.get_of_some hfirst]
      simp [code, getSection, Section.run, DynamicMempool.links, hfirst, releaseLock]
  | release indx =>
    simp only [run, LockedMempool.release, acquireLock_of_free]
    cases hlink : p.nextFree.get indx with
    | none =>
      rw [DynamicMempool.release_of_none hlink]
      simp [code, releaseSection, Section.run, DynamicMempool.links, hlink, releaseLock]
    | some j =>
      rw [DynamicMempool.release_of_some hlink]
      simp [code, releaseSection, Section.run, DynamicMempool.links, hlink]
  | size =>
    simp only [run, LockedMempool.size, acquireLock_of_free]
    cases hfirst : p.firstFree with
    | none => simp [code, sizeSection, Section.run, DynamicMempool.links, hfirst]
    | some i =>
      have hrun : (Call.size : Call α).code.run p.links =
          (countSection p.ITEM_CNT p.ITEM_CNT (some i) 0).run p.links := by
        simp [code, sizeSection, Section.run, DynamicMempool.links, hfirst]
      rw [hrun, countSection_run]
      cases hcount : DynamicMempool.countFree p.nextFree p.ITEM_CNT (some i) 0 with
      | ok unused => simp [DynamicMempool.links, hcount, releaseLock]
      | error e => simp [DynamicMempool.links, hcount]

/-! ## Who holds the items -/

section Threads

variable {ι : Type} [DecidableEq ι]

/-- The items in use after a call that has ended. -/
def inUseAfter (live : Multiset ℕ) : Call α → Outcome → Multiset ℕ
  | .get _, .returned (some indx) => indx ::ₘ live
  | .release indx, .returned _ => live.erase indx
  | _, _ => live

/-- The items that the threads hold after a call that has ended. -/
def hold (m : Multiset (ι × ℕ)) (e : Event ι (Call α) Outcome) : Multiset (ι × ℕ) :=
  match e.call, e.result with
  | .get _, .returned (some indx) => (e.thread, indx) ::ₘ m
  | .release indx, .returned _ => m.erase (e.thread, indx)
  | _, _ => m

/-- The items that the threads hold after some calls. -/
def holders (events : List (Event ι (Call α) Outcome)) : Multiset (ι × ℕ) := events.foldl hold 0

/-- A thread releases only items that it holds. -/
def ReleasesOwn (events : List (Event ι (Call α) Outcome)) (i : ι) : Call α → Prop
  | .release indx => (i, indx) ∈ holders events
  | _ => True

variable {N : ℕ} {raw : α} {p : DynamicMempool α} {free : List ℕ} {live : Multiset ℕ}
  {events : List (Event ι (Call α) Outcome)} {cfg : Config ι (Call α) Links Outcome}

theorem holders_concat (events : List (Event ι (Call α) Outcome)) (e : Event ι (Call α) Outcome) :
    holders (events ++ [e]) = hold (holders events) e := by
  rw [holders, List.foldl_append]
  rfl

/-- A call changes nothing about the items of the other threads. -/
theorem mem_hold_of_ne {m : Multiset (ι × ℕ)} {e : Event ι (Call α) Outcome} {i : ι} (x : ℕ)
    (hne : i ≠ e.thread) : (i, x) ∈ hold m e ↔ (i, x) ∈ m := by
  have hpair : ∀ y, (i, x) ≠ (e.thread, y) := fun y heq => hne (Prod.ext_iff.mp heq).1
  rw [hold]
  split
  · rw [Multiset.mem_cons]
    exact or_iff_right (hpair _)
  · exact Multiset.mem_erase_of_ne (hpair _)
  · exact Iff.rfl

theorem map_hold {m : Multiset (ι × ℕ)} {e : Event ι (Call α) Outcome}
    (hown : ∀ x, e.call = .release x → (e.thread, x) ∈ m) :
    (hold m e).map Prod.snd = inUseAfter (m.map Prod.snd) e.call e.result := by
  obtain ⟨i, c, o⟩ := e
  cases c with
  | get obj =>
    cases o with
    | returned result =>
      cases result with
      | none => rfl
      | some x => exact Multiset.map_cons _ _ _
    | thrown f => rfl
    | spins => rfl
  | release x =>
    cases o with
    | returned result => exact Multiset.map_erase_of_mem Prod.snd m (hown x rfl)
    | thrown f => rfl
    | spins => rfl
  | size => rfl

/-- A call that releases nothing but an item in use ends, and tells which items are in use behind
it. -/
theorem exists_code_run (h : DynamicMempool.Partitioned N p free live) (c : Call α)
    (hown : ∀ x, c = .release x → x ∈ live) :
    ∃ (o : Outcome) (unlocks : Bool) (p' : DynamicMempool α) (free' : List ℕ),
      c.code.run p.links = (some (o, unlocks), p'.links) ∧
        DynamicMempool.Partitioned N p' free' (inUseAfter live c o) ∧
          ((∃ f, o = .thrown f) → unlocks = false) := by
  rw [Call.code_run]
  cases c with
  | get obj =>
    simp only [Call.run, LockedMempool.get, acquireLock_of_free]
    cases free with
    | nil =>
      rw [h.get_nil]
      exact ⟨.thrown .badAlloc, false, p, [], rfl, h, fun _ => rfl⟩
    | cons i free =>
      obtain ⟨p', hget, hp'⟩ := h.get obj
      rw [hget]
      refine ⟨.returned (some i), true, p', free, rfl, hp', ?_⟩
      rintro ⟨_, hf⟩
      cases hf
  | release x =>
    simp only [Call.run, LockedMempool.release, acquireLock_of_free]
    obtain ⟨p', hrelease, hp'⟩ := h.release (hown x rfl)
    rw [hrelease]
    refine ⟨.returned none, true, p', x :: free, rfl, hp', ?_⟩
    rintro ⟨_, hf⟩
    cases hf
  | size =>
    simp only [Call.run, LockedMempool.size, acquireLock_of_free]
    cases hfirst : p.firstFree with
    | none => exact ⟨.returned (some 0), false, p, free, rfl, h, fun _ => rfl⟩
    | some i =>
      have hlen : free.length ≤ p.ITEM_CNT := by
        rw [h.ITEM_CNT, ← h.length_add_card]
        exact Nat.le_add_right _ _
      have hcount := DynamicMempool.countFree_of_chain h.chain p.ITEM_CNT 0
      rw [hfirst, if_pos hlen] at hcount
      simp only [hcount]
      refine ⟨.returned (some (p.ITEM_CNT - (0 + free.length))), true, p, free, rfl, h, ?_⟩
      rintro ⟨_, hf⟩
      cases hf

/-! ## What the threads reach -/

/-- Items are released only by the threads that hold them: those that are about to be released, and
those that have been. -/
structure Owning (events : List (Event ι (Call α) Outcome))
    (cfg : Config ι (Call α) Links Outcome) : Prop where
  waiting : ∀ i x, cfg.phase i = .waiting (.release x) → (i, x) ∈ holders events
  inside : ∀ i x rest, cfg.phase i = .inside (.release x) rest → (i, x) ∈ holders events
  released : ∀ before e behind, events = before ++ e :: behind → ∀ x, e.call = .release x →
    (e.thread, x) ∈ holders before

omit [DecidableEq ι] in
theorem released_concat {e : Event ι (Call α) Outcome} {P : List (Event ι (Call α) Outcome) →
      Event ι (Call α) Outcome → Prop} (h : ∀ before e' behind, events = before ++ e' :: behind →
        P before e') (he : P events e) :
    ∀ before e' behind, events ++ [e] = before ++ e' :: behind → P before e' := by
  intro before e' behind heq
  rcases List.eq_nil_or_concat behind with rfl | ⟨behind, last, rfl⟩
  · obtain ⟨rfl, hlast⟩ := List.append_inj' heq rfl
    obtain rfl := List.singleton_inj.mp hlast
    exact he
  · rw [List.concat_eq_append, ← List.cons_append, ← List.append_assoc] at heq
    exact h before e' behind (List.append_inj' heq rfl).1

/-- A step of a thread that releases only what it holds. -/
theorem Owning.step {events' : List (Event ι (Call α) Outcome)}
    {cfg' : Config ι (Call α) Links Outcome} (h : Owning events cfg)
    (hstep : Spinlock.Step Call.code (ReleasesOwn events) cfg events' cfg') :
    Owning (events ++ events') cfg' := by
  have hupdate : ∀ {i j : ι} {q q' : Phase (Call α) Links Outcome},
      Function.update cfg.phase i q j = q' → j = i ∧ q = q' ∨ j ≠ i ∧ cfg.phase j = q' := by
    intro i j q q' heq
    rcases eq_or_ne j i with rfl | hne
    · rw [Function.update_self] at heq
      exact Or.inl ⟨rfl, heq⟩
    · rw [Function.update_of_ne hne] at heq
      exact Or.inr ⟨hne, heq⟩
  cases hstep with
  | @call i c hidle hmay =>
    rw [List.append_nil]
    refine ⟨fun j x hj => ?_, fun j x rest hj => ?_, h.released⟩
    · rcases hupdate hj with ⟨rfl, hq⟩ | ⟨-, hj⟩
      · cases hq
        exact hmay
      · exact h.waiting j x hj
    · rcases hupdate hj with ⟨-, hq⟩ | ⟨-, hj⟩
      · cases hq
      · exact h.inside j x rest hj
  | spin hwait hlocked =>
    rw [List.append_nil]
    exact h
  | @acquire i c hwait hfree =>
    rw [List.append_nil]
    refine ⟨fun j x hj => ?_, fun j x rest hj => ?_, h.released⟩
    · rcases hupdate hj with ⟨-, hq⟩ | ⟨-, hj⟩
      · cases hq
      · exact h.waiting j x hj
    · rcases hupdate hj with ⟨rfl, hq⟩ | ⟨-, hj⟩
      · cases hq
        exact h.waiting j x hwait
      · exact h.inside j x rest hj
  | @access i c write next hin =>
    rw [List.append_nil]
    refine ⟨fun j x hj => ?_, fun j x rest hj => ?_, h.released⟩
    · rcases hupdate hj with ⟨-, hq⟩ | ⟨-, hj⟩
      · cases hq
      · exact h.waiting j x hj
    · rcases hupdate hj with ⟨rfl, hq⟩ | ⟨-, hj⟩
      · cases hq
        exact h.inside j x _ hin
      · exact h.inside j x rest hj
  | @leave i c result unlocks hin =>
    refine ⟨fun j x hj => ?_, fun j x rest hj => ?_, released_concat h.released fun x hc => ?_⟩
    · rcases hupdate hj with ⟨-, hq⟩ | ⟨hne, hj⟩
      · cases hq
      · rw [holders_concat, mem_hold_of_ne x hne]
        exact h.waiting j x hj
    · rcases hupdate hj with ⟨-, hq⟩ | ⟨hne, hj⟩
      · cases hq
      · rw [holders_concat, mem_hold_of_ne x hne]
        exact h.inside j x rest hj
    · obtain rfl : c = .release x := hc
      exact h.inside i x _ hin

theorem owning_of_reaches {start : Links} (h : Reaches Call.code ReleasesOwn start events cfg) :
    Owning events cfg := by
  induction h with
  | start =>
    refine ⟨fun _ _ hi => ?_, fun _ _ _ hi => ?_, fun before e behind heq => ?_⟩
    · cases hi
    · cases hi
    · simp at heq
  | step _ hstep ih => exact ih.step hstep

/-- Between the calls, the items that are held and the free ones are all the items. -/
theorem exists_partitioned (hN : 2 ≤ N) (raw : α) {locked : Bool} {s : Links}
    (hs : Serial Call.code (DynamicMempool.make N ()).links events locked s)
    (hown : ∀ before e behind, events = before ++ e :: behind → ∀ x, e.call = .release x →
      (e.thread, x) ∈ holders before) :
    ∃ (p : DynamicMempool α) (free : List ℕ), p.links = s ∧
      DynamicMempool.Partitioned N p free ((holders events).map Prod.snd) := by
  induction hs with
  | nil => exact ⟨DynamicMempool.make N raw, _, rfl, DynamicMempool.partitioned_make hN⟩
  | @concat events s s' i c result unlocks hs hrun ih =>
    obtain ⟨p, free, rfl, hp⟩ := ih fun before e behind heq =>
      hown before e (behind ++ [⟨i, c, result⟩]) (by rw [heq, List.append_assoc]; rfl)
    have howns : ∀ x, c = .release x → (i, x) ∈ holders events := fun x hc =>
      hown events ⟨i, c, result⟩ [] rfl x hc
    obtain ⟨o, u, p', free', hrun', hp', -⟩ := exists_code_run hp c fun x hc =>
      Multiset.mem_map.mpr ⟨_, howns x hc, rfl⟩
    cases hrun'.symm.trans hrun
    refine ⟨p', free', rfl, ?_⟩
    rw [holders_concat, map_hold howns]
    exact hp'

/-- What can be relied upon while threads share a pool of `N` items. -/
structure SharedSafely (N : ℕ) (events : List (Event ι (Call α) Outcome))
    (cfg : Config ι (Call α) Links Outcome) : Prop where
  mutex : ∀ i j, cfg.Inside i → cfg.Inside j → i = j
  serialized : Serialized Call.code (DynamicMempool.make N ()).links events cfg
  /-- No item is held twice. -/
  distinct : ((holders events).map Prod.snd).Nodup
  lt : ∀ h ∈ holders events, h.2 < N
  /-- A thread that has the lock comes to the end of its call. -/
  leaves : ∀ i c rest, cfg.phase i = .inside c rest → (rest.run cfg.shared).1.isSome = true
  /-- The items that nobody holds are free. -/
  freeList : (∀ i, ¬ cfg.Inside i) → ∃ free,
    FreeChain cfg.shared.nextFree cfg.shared.firstFree free ∧ free.Nodup ∧
      ∀ x, x ∈ free ↔ x < N ∧ x ∉ (holders events).map Prod.snd
  /-- Behind an exception no call ends any more. -/
  last : ∀ before e behind, events = before ++ e :: behind → (∃ f, e.result = .thrown f) →
    behind = [] ∧ cfg.locked = true

/-- In every interleaving of threads that release only items that they hold, the pool is shared
safely. -/
theorem sharedSafely_of_reaches (hN : 2 ≤ N) (raw : α)
    (h : Reaches Call.code ReleasesOwn (DynamicMempool.make N ()).links events cfg) :
    SharedSafely N events cfg := by
  have hser := h.serialized
  have hown := owning_of_reaches h
  obtain ⟨locked, s, hs⟩ := hser.serial
  obtain ⟨p, free, -, hp⟩ := exists_partitioned hN raw hs hown.released
  have hsound := hp.sound
  refine ⟨fun i j => hser.mutex, hser, hsound.nodup, fun x hx => ?_, fun i c rest hi => ?_,
    fun hout => ?_, fun before e behind heq hthrown => ?_⟩
  · exact hsound.live_lt _ (Multiset.mem_map.mpr ⟨x, hx, rfl⟩)
  · cases hser with
    | outside hout _ => exact absurd ⟨c, rest, hi⟩ (hout i)
    | inside s k d rest' hk hone _ hs hrun =>
      obtain rfl := hone i ⟨c, rest, hi⟩
      cases hi.symm.trans hk
      obtain ⟨p, free, rfl, hp⟩ := exists_partitioned hN raw hs hown.released
      obtain ⟨o, u, p', free', hrun', -, -⟩ := exists_code_run hp c fun x hc => by
        subst hc
        exact Multiset.mem_map.mpr ⟨_, hown.inside i x rest hi, rfl⟩
      rw [hrun, hrun']
      rfl
  · cases hser with
    | outside _ hs =>
      obtain ⟨p, free, hlinks, hp⟩ := exists_partitioned hN raw hs hown.released
      rw [← hlinks]
      exact hp.sound.freeList
    | inside s k d rest hk _ _ _ _ => exact absurd ⟨d, rest, hk⟩ (hout k)
  · have hlast : ∀ {locked s}, Serial Call.code (DynamicMempool.make N ()).links events locked s →
        behind = [] ∧ locked = true := by
      intro locked s hs
      rw [heq] at hs
      obtain ⟨s₁, s₂, unlocks, hs₁, hrun, hlast⟩ := hs.of_append
      obtain ⟨p, free, rfl, hp⟩ := exists_partitioned hN raw hs₁ fun before' e' behind' heq' =>
        hown.released before' e' (behind' ++ e :: behind) (by rw [heq, heq', List.append_assoc]; rfl)
      obtain ⟨o, u, p', free', hrun', -, hthrows⟩ := exists_code_run hp e.call fun x hc =>
        Multiset.mem_map.mpr ⟨_, hown.released before e behind heq x hc, rfl⟩
      cases hrun'.symm.trans hrun
      exact hlast (hthrows hthrown)
    cases hser with
    | outside _ hs => exact hlast hs
    | inside s k d rest _ _ _ hs _ => cases (hlast hs).2

/-- Two threads allocate from a pool of two items.  The second one waits for the lock while the first
one is inside. -/
theorem sharedSafely_of_reaches_two :
    ∃ (events : List (Event Bool (Call Char) Outcome)) (cfg : Config Bool (Call Char) Links Outcome),
      events.map (·.result) = [.returned (some 0)] ∧ cfg.Inside true ∧ SharedSafely 2 events cfg := by
  have h : Reaches (ι := Bool) (Call.code (α := Char)) ReleasesOwn (DynamicMempool.make 2 ()).links
      [] ⟨false, _, fun _ => .idle⟩ := .start
  have h := h.step (.call (i := false) (c := Call.get 'a') rfl (show True from trivial))
  have h := h.step (.call (i := true) (c := Call.get 'b') rfl (show True from trivial))
  have h := h.step (.acquire (i := false) rfl rfl)
  have h := h.step (.access (i := false) rfl)
  have h := h.step (.spin (i := true) rfl rfl)
  have h := h.step (.access (i := false) rfl)
  have h := h.step (.access (i := false) rfl)
  have h := h.step (.access (i := false) rfl)
  have h := h.step (.leave (i := false) rfl)
  have h := h.step (.acquire (i := true) rfl rfl)
  exact ⟨_, _, rfl, ⟨_, _, rfl⟩, sharedSafely_of_reaches (by decide) 'c' h⟩

end Threads

end LockedMempool

end Pcv
