import Mathlib.Data.List.Induction
import Mathlib.Logic.Function.Basic
import Mathlib.Tactic.Common

/-!
# Threads behind a lock

Any number of threads make calls on a state that they share.  A call waits for a lock, accesses the
state step by step, and leaves with a result; it may leave the lock taken.  The accesses of a thread
and the waiting of the others are interleaved in every way.

`Reaches.serialized` says that all this looks as if the calls had been made one after the other,
in the order in which they took the lock.
-/

namespace Pcv

namespace Spinlock

universe u v w x

/-- What a call does while it has the lock. -/
inductive Section (σ : Type u) (ρ : Type v)
  /-- An access to the shared state.  What follows depends on what it was before. -/
  | access (write : σ → σ) (next : σ → Section σ ρ)
  /-- The end of the call: its result, and whether the lock is given back. -/
  | leave (result : ρ) (unlocks : Bool)
  /-- A loop without an end. -/
  | hang

/-- The section without any interruption: how it ends, and the shared state at its end. -/
def Section.run {σ : Type u} {ρ : Type v} : Section σ ρ → σ → Option (ρ × Bool) × σ
  | access write next, s => (next s).run (write s)
  | leave result unlocks, s => (some (result, unlocks), s)
  | hang, s => (none, s)

/-- Where a thread is. -/
inductive Phase (κ : Type w) (σ : Type u) (ρ : Type v)
  | idle
  | waiting (c : κ)
  | inside (c : κ) (rest : Section σ ρ)

/-- All the threads, and what they share. -/
structure Config (ι : Type x) (κ : Type w) (σ : Type u) (ρ : Type v) where
  locked : Bool
  shared : σ
  phase : ι → Phase κ σ ρ

/-- A call that has ended. -/
structure Event (ι : Type x) (κ : Type w) (ρ : Type v) where
  thread : ι
  call : κ
  result : ρ

variable {ι : Type x} {κ : Type w} {σ : Type u} {ρ : Type v}

/-- The thread is between taking the lock and leaving. -/
def Config.Inside (cfg : Config ι κ σ ρ) (i : ι) : Prop :=
  ∃ c rest, cfg.phase i = .inside c rest

section Runs

variable [DecidableEq ι] (code : κ → Section σ ρ)

/-- A thread makes a step, by which a call may end. -/
inductive Step (allowed : ι → κ → Prop) : Config ι κ σ ρ → List (Event ι κ ρ) → Config ι κ σ ρ → Prop
  | call {cfg : Config ι κ σ ρ} {i : ι} {c : κ} : cfg.phase i = .idle → allowed i c →
      Step allowed cfg [] { cfg with phase := Function.update cfg.phase i (.waiting c) }
  | spin {cfg : Config ι κ σ ρ} {i : ι} {c : κ} : cfg.phase i = .waiting c → cfg.locked = true →
      Step allowed cfg [] cfg
  | acquire {cfg : Config ι κ σ ρ} {i : ι} {c : κ} : cfg.phase i = .waiting c → cfg.locked = false →
      Step allowed cfg []
        { cfg with locked := true, phase := Function.update cfg.phase i (.inside c (code c)) }
  | access {cfg : Config ι κ σ ρ} {i : ι} {c : κ} {write : σ → σ} {next : σ → Section σ ρ} :
      cfg.phase i = .inside c (.access write next) →
        Step allowed cfg []
          { cfg with
            shared := write cfg.shared
            phase := Function.update cfg.phase i (.inside c (next cfg.shared)) }
  | leave {cfg : Config ι κ σ ρ} {i : ι} {c : κ} {result : ρ} {unlocks : Bool} :
      cfg.phase i = .inside c (.leave result unlocks) →
        Step allowed cfg [⟨i, c, result⟩]
          { cfg with
            locked := !unlocks && cfg.locked
            phase := Function.update cfg.phase i .idle }

/-- What the threads can reach, with the calls that have ended until then.  What a thread may call
can depend on these. -/
inductive Reaches (allowed : List (Event ι κ ρ) → ι → κ → Prop) (start : σ) :
    List (Event ι κ ρ) → Config ι κ σ ρ → Prop
  | start : Reaches allowed start [] ⟨false, start, fun _ => .idle⟩
  | step {events events' : List (Event ι κ ρ)} {cfg cfg' : Config ι κ σ ρ} :
      Reaches allowed start events cfg → Step code (allowed events) cfg events' cfg' →
        Reaches allowed start (events ++ events') cfg'

/-- The calls made one after the other, and whether the last one has left the lock taken. -/
inductive Serial (start : σ) : List (Event ι κ ρ) → Bool → σ → Prop
  | nil : Serial start [] false start
  | concat {events : List (Event ι κ ρ)} {s s' : σ} {i : ι} {c : κ} {result : ρ} {unlocks : Bool} :
      Serial start events false s → (code c).run s = (some (result, unlocks), s') →
        Serial start (events ++ [⟨i, c, result⟩]) (!unlocks) s'

/-- Either nobody has been let in since the last call has ended, or one thread is inside, and what
it has left to do leads to where its call leads from there. -/
inductive Serialized (start : σ) (events : List (Event ι κ ρ)) (cfg : Config ι κ σ ρ) : Prop
  | outside : (∀ i, ¬ cfg.Inside i) → Serial code start events cfg.locked cfg.shared →
      Serialized start events cfg
  | inside (s : σ) (i : ι) (c : κ) (rest : Section σ ρ) : cfg.phase i = .inside c rest →
      (∀ j, cfg.Inside j → j = i) → cfg.locked = true → Serial code start events false s →
        rest.run cfg.shared = (code c).run s → Serialized start events cfg

variable {code} {allowed : List (Event ι κ ρ) → ι → κ → Prop} {start : σ}
  {events events' : List (Event ι κ ρ)} {cfg cfg' : Config ι κ σ ρ}

/-- The phase of a thread after another one, or the thread itself, has gone on. -/
theorem inside_update {i j : ι} {p : Phase κ σ ρ} {locked : Bool} {shared : σ} :
    (Config.mk locked shared (Function.update cfg.phase i p)).Inside j ↔
      (j = i ∧ ∃ c rest, p = .inside c rest) ∨ (j ≠ i ∧ cfg.Inside j) := by
  simp only [Config.Inside]
  rcases eq_or_ne j i with rfl | hne
  · simp
  · simp [hne]

/-- One step keeps the calls in the order in which they took the lock. -/
theorem Serialized.step {may : ι → κ → Prop} (h : Serialized code start events cfg)
    (hstep : Step code may cfg events' cfg') : Serialized code start (events ++ events') cfg' := by
  cases hstep with
  | @call i c hidle hmay =>
    rw [List.append_nil]
    have hinside : ∀ j, (Config.mk cfg.locked cfg.shared
        (Function.update cfg.phase i (.waiting c))).Inside j ↔ cfg.Inside j := by
      intro j
      rw [inside_update]
      constructor
      · rintro (⟨-, _, _, hp⟩ | ⟨-, hj⟩)
        · cases hp
        · exact hj
      · intro hj
        refine Or.inr ⟨?_, hj⟩
        rintro rfl
        obtain ⟨_, _, hp⟩ := hj
        rw [hidle] at hp
        cases hp
    cases h with
    | outside hout hs => exact .outside (fun j hj => hout j ((hinside j).mp hj)) hs
    | inside s k d rest hk hone hlocked hs hrun =>
      refine .inside s k d rest ?_ (fun j hj => hone j ((hinside j).mp hj)) hlocked hs hrun
      have hne : k ≠ i := by
        rintro rfl
        rw [hidle] at hk
        cases hk
      exact (Function.update_of_ne hne _ _).trans hk
  | spin hwait hlocked => rwa [List.append_nil]
  | @acquire i c hwait hfree =>
    rw [List.append_nil]
    cases h with
    | outside hout hs =>
      rw [hfree] at hs
      refine .inside cfg.shared i c (code c) (Function.update_self ..) (fun j hj => ?_) rfl hs rfl
      rcases inside_update.mp hj with ⟨rfl, -⟩ | ⟨-, hj⟩
      · rfl
      · exact absurd hj (hout j)
    | inside s k d rest hk hone hlocked hs hrun =>
      rw [hfree] at hlocked
      cases hlocked
  | @access i c write next hin =>
    rw [List.append_nil]
    cases h with
    | outside hout hs => exact absurd ⟨c, _, hin⟩ (hout i)
    | inside s k d rest hk hone hlocked hs hrun =>
      obtain rfl := hone i ⟨c, _, hin⟩
      rw [hin] at hk
      cases hk
      refine .inside s i c _ (Function.update_self ..) (fun j hj => ?_) hlocked hs hrun
      rcases inside_update.mp hj with ⟨rfl, -⟩ | ⟨-, hj⟩
      · rfl
      · exact hone j hj
  | @leave i c result unlocks hin =>
    cases h with
    | outside hout hs => exact absurd ⟨c, _, hin⟩ (hout i)
    | inside s k d rest hk hone hlocked hs hrun =>
      obtain rfl := hone i ⟨c, _, hin⟩
      rw [hin] at hk
      cases hk
      refine .outside (fun j hj => ?_) ?_
      · rcases inside_update.mp hj with ⟨-, _, _, hp⟩ | ⟨hne, hj⟩
        · cases hp
        · exact hne (hone j hj)
      · rw [hlocked, Bool.and_true]
        exact hs.concat hrun.symm

/-- In every interleaving, the calls that have ended give the results, and leave the shared state,
that they do one after the other. -/
theorem Reaches.serialized (h : Reaches code allowed start events cfg) :
    Serialized code start events cfg := by
  induction h with
  | start =>
    refine .outside ?_ .nil
    rintro i ⟨c, rest, hp⟩
    cases hp
  | step _ hstep ih => exact ih.step hstep

omit [DecidableEq ι] in
/-- No two threads are inside. -/
theorem Serialized.mutex (h : Serialized code start events cfg) {i j : ι} (hi : cfg.Inside i)
    (hj : cfg.Inside j) : i = j := by
  cases h with
  | outside hout _ => exact absurd hi (hout i)
  | inside s k d rest _ hone _ _ _ => rw [hone i hi, hone j hj]

omit [DecidableEq ι] in
/-- The calls that have ended were made one after the other. -/
theorem Serialized.serial (h : Serialized code start events cfg) :
    ∃ locked s, Serial code start events locked s := by
  cases h with
  | outside _ hs => exact ⟨_, _, hs⟩
  | inside s _ _ _ _ _ _ hs _ => exact ⟨_, _, hs⟩

omit [DecidableEq ι] in
/-- Every call has run from the state that the calls before it have left.  If it has left the lock
taken, it was the last one, and the lock is still taken. -/
theorem Serial.of_append {e : Event ι κ ρ} {locked : Bool} {s : σ}
    (h : Serial code start (events ++ e :: events') locked s) :
    ∃ s₁ s₂ unlocks, Serial code start events false s₁ ∧
      (code e.call).run s₁ = (some (e.result, unlocks), s₂) ∧ (unlocks = false → events' = [] ∧ locked = true) := by
  induction events' using List.reverseRecOn generalizing locked s with
  | nil =>
    generalize heq : events ++ [e] = l at h
    cases h with
    | nil => simp at heq
    | concat hs hrun =>
      obtain ⟨rfl, he⟩ := List.append_inj' heq rfl
      cases List.singleton_inj.mp he
      exact ⟨_, _, _, hs, hrun, fun hunlocks => ⟨rfl, by rw [hunlocks]; rfl⟩⟩
  | append_singleton events' e' ih =>
    rw [← List.cons_append, ← List.append_assoc] at h
    generalize heq : events ++ e :: events' ++ [e'] = l at h
    cases h with
    | nil => simp at heq
    | concat hs hrun =>
      obtain ⟨rfl, -⟩ := List.append_inj' heq rfl
      obtain ⟨s₁, s₂, unlocks, hs₁, hrun₁, hlast⟩ := ih hs
      refine ⟨s₁, s₂, unlocks, hs₁, hrun₁, fun hunlocks => ?_⟩
      cases (hlast hunlocks).2

end Runs

end Spinlock

end Pcv
