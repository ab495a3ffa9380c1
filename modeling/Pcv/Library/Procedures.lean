import Pcv.Library.Ensures
import Mathlib.Logic.Relation
import Mathlib.Order.WellFounded

/-!
# Procedures that call one another

A family of procedures over a state is given by a body for every call: a program that
takes steps, which are computations over the state, and makes calls.  The calls of a
family are one type, `Call`, with the arguments in them, and `Res c` is the type of what
the call `c` returns.

Such a family is run with a bound on the depth of the calls, and with an error of its
own where the bound is exceeded (`runBounded`).  A greater bound changes no outcome but
this error, so the procedures terminate from a state exactly when some bound is enough.

A `Contract` says what every call may rely on, and what it owes.  There are two rules
for it.  Where every call is smaller than the one that makes it, in a well-founded
order, a bound that is enough exists, and the contract holds (`exists_ensures`).  The
second rule is about every bound and asks for nothing to decrease; it may use what is
known of all the calls that are made (`ensures_of_calls`).

Two contracts that are shown one after the other, the second with the first at hand, hold
at once (`Prog.Ensures.both`).

The call stacks of a run are the chains of the relation `Calls`: a call made in some
state makes another one, in the state reached by then.  The calls inside a call that ends
are found by running it (`mem_callsInside`).
-/

namespace Pcv

variable {ε σ Call : Type} {Res : Call → Type} {α β : Type}

/-- A program over the state `σ` with the errors `ε`, whose procedures return `Res`. -/
inductive Prog (ε σ : Type) {Call : Type} (Res : Call → Type) (α : Type) : Type 1
  | ret (a : α)
  | step {β : Type} (x : EStateM ε σ β) (next : β → Prog ε σ Res α)
  | call (c : Call) (next : Res c → Prog ε σ Res α)

/-- What the calls may rely on, what they owe when they return, and what when they fail. -/
structure Contract (ε σ : Type) {Call : Type} (Res : Call → Type) where
  pre : Call → σ → Prop
  post : ∀ c : Call, σ → Res c → σ → Prop
  err : Call → σ → ε → σ → Prop

/-- The contract for the calls of which more is known. -/
def Contract.within (K : Contract ε σ Res) (P : Call → σ → Prop) : Contract ε σ Res :=
  { K with pre := fun c s => K.pre c s ∧ P c s }

/-- Two contracts at once. -/
def Contract.both (K L : Contract ε σ Res) : Contract ε σ Res where
  pre c s := K.pre c s ∧ L.pre c s
  post c s a s' := K.post c s a s' ∧ L.post c s a s'
  err c s e s' := K.err c s e s' ∧ L.err c s e s'

/-- The contract `L` where the calls are known to keep to `K`. -/
def Contract.given (L K : Contract ε σ Res) : Contract ε σ Res :=
  { K.both L with pre := L.pre }

namespace Prog

/-- One program after another. -/
protected def bind : Prog ε σ Res α → (α → Prog ε σ Res β) → Prog ε σ Res β
  | .ret a, f => f a
  | .step x next, f => .step x fun b => (next b).bind f
  | .call c next, f => .call c fun a => (next a).bind f

instance : Monad (Prog ε σ Res) where
  pure := .ret
  bind := Prog.bind

/-- The program that takes one step. -/
def perform (x : EStateM ε σ α) : Prog ε σ Res α := .step x .ret

/-- The program that makes one call. -/
def invoke (c : Call) : Prog ε σ Res (Res c) := .call c .ret

/-- Run a program, with an implementation of the calls. -/
def exec (impl : ∀ c : Call, EStateM ε σ (Res c)) : Prog ε σ Res α → EStateM ε σ α
  | .ret a => Pure.pure a
  | .step x next => x >>= fun b => (next b).exec impl
  | .call c next => impl c >>= fun a => (next a).exec impl

/-- The call `c'` is made in the state `s'` when the program is run from `s`. -/
def Makes (impl : ∀ c : Call, EStateM ε σ (Res c)) :
    Prog ε σ Res α → σ → Call → σ → Prop
  | .ret _, _, _, _ => False
  | .step x next, s, c', s' => ∃ b s₁, x s = .ok b s₁ ∧ (next b).Makes impl s₁ c' s'
  | .call c next, s, c', s' =>
      (c = c' ∧ s = s') ∨ ∃ a s₁, impl c s = .ok a s₁ ∧ (next a).Makes impl s₁ c' s'

/-- The calls that are made when the program is run from `s`, one after the other. -/
def calls (impl : ∀ c : Call, EStateM ε σ (Res c)) : Prog ε σ Res α → σ → List (Call × σ)
  | .ret _, _ => []
  | .step x next, s =>
      match x s with
      | .ok b s₁ => (next b).calls impl s₁
      | .error _ _ => []
  | .call c next, s =>
      (c, s) :: match impl c s with
        | .ok a s₁ => (next a).calls impl s₁
        | .error _ _ => []

/-- The program is correct if the calls it makes keep to the contract. -/
def Ensures (K : Contract ε σ Res) (E : ε → σ → Prop) :
    Prog ε σ Res α → σ → (α → σ → Prop) → Prop
  | .ret a, s, Q => Q a s
  | .step x next, s, Q => Pcv.Ensures E x s fun b s' => (next b).Ensures K E s' Q
  | .call c next, s, Q => K.pre c s ∧ (∀ e s', K.err c s e s' → E e s') ∧
      ∀ a s', K.post c s a s' → (next a).Ensures K E s' Q

/-- Every step of the program, whichever way it ends, goes from a state to a related one. -/
def Steps (R : σ → σ → Prop) : Prog ε σ Res α → Prop
  | .ret _ => True
  | .step x next => (∀ s, Pcv.Ensures (fun _ s' => R s s') x s fun _ s' => R s s') ∧
      ∀ b, (next b).Steps R
  | .call _ next => ∀ a, (next a).Steps R

/-! ## Running programs -/

section Exec

variable {impl : ∀ c : Call, EStateM ε σ (Res c)}

@[simp] theorem exec_pure (a : α) : (Pure.pure a : Prog ε σ Res α).exec impl = Pure.pure a := rfl

@[simp] theorem exec_invoke (c : Call) :
    (invoke c : Prog ε σ Res (Res c)).exec impl = impl c := by
  show (impl c >>= fun a => Pure.pure a) = impl c
  rw [bind_pure]

@[simp] theorem exec_perform (x : EStateM ε σ α) :
    (perform x : Prog ε σ Res α).exec impl = x := by
  show (x >>= fun a => Pure.pure a) = x
  rw [bind_pure]

@[simp] theorem exec_bind (p : Prog ε σ Res α) (f : α → Prog ε σ Res β) :
    (p >>= f).exec impl = p.exec impl >>= fun a => (f a).exec impl := by
  show (p.bind f).exec impl = _
  induction p with
  | ret a =>
      rw [Prog.bind, exec, pure_bind]
  | step x next ih =>
      rw [exec, bind_assoc, Prog.bind, exec]
      congr 1
      funext b
      exact ih b
  | call c next ih =>
      rw [exec, bind_assoc, Prog.bind, exec]
      congr 1
      funext a
      exact ih a

@[simp] theorem makes_pure (a : α) (s : σ) (c : Call) (s' : σ) :
    (Pure.pure a : Prog ε σ Res α).Makes impl s c s' ↔ False := Iff.rfl

@[simp] theorem makes_perform (x : EStateM ε σ α) (s : σ) (c : Call) (s' : σ) :
    (perform x : Prog ε σ Res α).Makes impl s c s' ↔ False :=
  ⟨fun ⟨_, _, _, h⟩ => h, False.elim⟩

@[simp] theorem makes_invoke (d : Call) (s : σ) (c : Call) (s' : σ) :
    (invoke d : Prog ε σ Res (Res d)).Makes impl s c s' ↔ d = c ∧ s = s' :=
  ⟨fun h => h.elim id fun ⟨_, _, _, h⟩ => h.elim, Or.inl⟩

theorem makes_bind (p : Prog ε σ Res α) (f : α → Prog ε σ Res β) (s : σ) (c : Call) (s' : σ) :
    (p >>= f).Makes impl s c s' ↔ p.Makes impl s c s' ∨
      ∃ a s₁, p.exec impl s = .ok a s₁ ∧ (f a).Makes impl s₁ c s' := by
  show (p.bind f).Makes impl s c s' ↔ _
  induction p generalizing s with
  | ret a =>
      rw [Prog.bind, exec]
      constructor
      · exact fun h => Or.inr ⟨a, s, rfl, h⟩
      · rintro (h | ⟨_, _, heq, h⟩)
        · exact h.elim
        · cases heq
          exact h
  | step x next ih =>
      rw [Prog.bind, Makes, Makes, exec]
      cases hx : x s with
      | ok b s₁ => simpa [hx, Bind.bind, EStateM.bind] using ih b s₁
      | error e s₁ => simp [hx, Bind.bind, EStateM.bind]
  | call d next ih =>
      rw [Prog.bind, Makes, Makes, exec, or_assoc]
      apply or_congr Iff.rfl
      cases hx : impl d s with
      | ok a s₁ => simpa [hx, Bind.bind, EStateM.bind] using ih a s₁
      | error e s₁ => simp [hx, Bind.bind, EStateM.bind]

theorem makes_iff_mem_calls (p : Prog ε σ Res α) (s : σ) (g : Call × σ) :
    p.Makes impl s g.1 g.2 ↔ g ∈ p.calls impl s := by
  induction p generalizing s with
  | ret a => simp [Makes, calls]
  | step x next ih =>
      rw [Makes, calls]
      cases hx : x s with
      | ok b s₁ => simpa [hx] using ih b s₁
      | error e s₁ => simp
  | call c next ih =>
      rw [Makes, calls, List.mem_cons]
      apply or_congr
      · rw [Prod.ext_iff, eq_comm (a := c), eq_comm (a := s)]
      · cases hx : impl c s with
        | ok a s₁ => simpa [hx] using ih a s₁
        | error e s₁ => simp

/-- A call that fails is the end of the program that makes it. -/
theorem Makes.exec_error {p : Prog ε σ Res α} {s s' t : σ} {c : Call} {e : ε}
    (h : p.Makes impl s c s') (he : impl c s' = .error e t) : p.exec impl s = .error e t := by
  induction p generalizing s with
  | ret a => exact h.elim
  | step x next ih =>
      obtain ⟨b, s₁, hx, h⟩ := h
      simp only [exec, Bind.bind, EStateM.bind, hx, ih b h]
  | call d next ih =>
      rcases h with ⟨rfl, rfl⟩ | ⟨a, s₁, hx, h⟩
      · simp only [exec, Bind.bind, EStateM.bind, he]
      · simp only [exec, Bind.bind, EStateM.bind, hx, ih a h]

theorem exec_ite {c : Prop} [Decidable c] (p q : Prog ε σ Res α) :
    (if c then p else q).exec impl = if c then p.exec impl else q.exec impl :=
  apply_ite (exec impl) c p q

end Exec

/-! ## The rules for the parts of a program -/

namespace Ensures

variable {K : Contract ε σ Res} {E : ε → σ → Prop} {s : σ}
variable {Q : α → σ → Prop} {R : β → σ → Prop}

theorem pure {a : α} (h : Q a s) : (Pure.pure a : Prog ε σ Res α).Ensures K E s Q := h

theorem perform {x : EStateM ε σ α} (h : Pcv.Ensures E x s Q) :
    (perform x : Prog ε σ Res α).Ensures K E s Q := h

theorem invoke {c : Call} {Q : Res c → σ → Prop} (hpre : K.pre c s)
    (herr : ∀ e s', K.err c s e s' → E e s') (hpost : ∀ a s', K.post c s a s' → Q a s') :
    (invoke c : Prog ε σ Res (Res c)).Ensures K E s Q :=
  ⟨hpre, herr, hpost⟩

theorem conseq {p : Prog ε σ Res α} {E' : ε → σ → Prop} {Q' : α → σ → Prop}
    (h : p.Ensures K E s Q) (hE : ∀ e s', E e s' → E' e s') (hQ : ∀ a s', Q a s' → Q' a s') :
    p.Ensures K E' s Q' := by
  induction p generalizing s with
  | ret a => exact hQ a s h
  | step x next ih => exact Pcv.Ensures.conseq h hE fun b s' hb => ih b hb
  | call c next ih =>
      exact ⟨h.1, fun e s' he => hE e s' (h.2.1 e s' he), fun a s' ha => ih a (h.2.2 a s' ha)⟩

theorem mono {p : Prog ε σ Res α} {Q' : α → σ → Prop} (h : p.Ensures K E s Q)
    (hQ : ∀ a s', Q a s' → Q' a s') : p.Ensures K E s Q' :=
  h.conseq (fun _ _ he => he) hQ

theorem bind {p : Prog ε σ Res α} {f : α → Prog ε σ Res β}
    (h : p.Ensures K E s fun a s' => (f a).Ensures K E s' R) : (p >>= f).Ensures K E s R := by
  show (p.bind f).Ensures K E s R
  induction p generalizing s with
  | ret a => exact h
  | step x next ih => exact Pcv.Ensures.mono h fun b s' hb => ih b hb
  | call c next ih => exact ⟨h.1, h.2.1, fun a s' ha => ih a (h.2.2 a s' ha)⟩

theorem ite {c : Prop} [Decidable c] {p q : Prog ε σ Res α} (hp : c → p.Ensures K E s Q)
    (hq : ¬ c → q.Ensures K E s Q) : (if c then p else q).Ensures K E s Q := by
  by_cases hc : c
  · simpa [hc] using hp hc
  · simpa [hc] using hq hc

/-- What is shown for a contract holds for one that asks for no more and owes as much. -/
theorem imp_contract {L : Contract ε σ Res} {p : Prog ε σ Res α} (h : p.Ensures K E s Q)
    (hpre : ∀ c s, K.pre c s → L.pre c s) (herr : ∀ c s e s', L.err c s e s' → K.err c s e s')
    (hpost : ∀ c s a s', L.post c s a s' → K.post c s a s') : p.Ensures L E s Q := by
  induction p generalizing s with
  | ret a => exact h
  | step x next ih => exact Pcv.Ensures.mono h fun b s' hb => ih b hb
  | call c next ih =>
      exact ⟨hpre c s h.1, fun e s' he => h.2.1 e s' (herr c s e s' he),
        fun a s' ha => ih a (h.2.2 a s' (hpost c s a s' ha))⟩

end Ensures

/-- What is shown of a program for two contracts holds at once, for a contract that asks for as much
and owes no more than both. -/
theorem Ensures.combine {K L M : Contract ε σ Res} {E F : ε → σ → Prop} {p : Prog ε σ Res α} {s : σ}
    {Q R : α → σ → Prop} (hK : p.Ensures K E s Q) (hL : p.Ensures L F s R)
    (hpre : ∀ c s, K.pre c s → L.pre c s → M.pre c s)
    (hpost : ∀ c s a s', M.post c s a s' → K.post c s a s' ∧ L.post c s a s')
    (herr : ∀ c s e s', M.err c s e s' → K.err c s e s' ∧ L.err c s e s') :
    p.Ensures M (fun e s' => E e s' ∧ F e s') s fun a s' => Q a s' ∧ R a s' := by
  induction p generalizing s with
  | ret a => exact ⟨hK, hL⟩
  | step x next ih =>
      cases hx : x s with
      | ok b s₁ => exact .of_ok hx (ih b (hK.ok hx) (hL.ok hx))
      | error e s₁ => exact .of_error hx ⟨Pcv.Ensures.error hK hx, Pcv.Ensures.error hL hx⟩
  | call c next ih =>
      obtain ⟨hpre₁, herr₁, hpost₁⟩ := hK
      obtain ⟨hpre₂, herr₂, hpost₂⟩ := hL
      refine ⟨hpre c s hpre₁ hpre₂, fun e s' he => ?_, fun a s' ha => ?_⟩
      · obtain ⟨he₁, he₂⟩ := herr c s e s' he
        exact ⟨herr₁ e s' he₁, herr₂ e s' he₂⟩
      · obtain ⟨ha₁, ha₂⟩ := hpost c s a s' ha
        exact ih a (hpost₁ a s' ha₁) (hpost₂ a s' ha₂)

/-- What is shown for two contracts, the second one with what the calls owe to the first, holds for
both at once. -/
theorem Ensures.both {K L : Contract ε σ Res} {P : Call → σ → Prop} {E F : ε → σ → Prop}
    {p : Prog ε σ Res α} {s : σ} {Q R : α → σ → Prop} (hK : p.Ensures (K.within P) E s Q)
    (hL : p.Ensures (L.given K) F s R) :
    p.Ensures ((K.both L).within P) (fun e s' => E e s' ∧ F e s') s
      fun a s' => Q a s' ∧ R a s' :=
  hK.combine hL (fun _ _ h₁ h₂ => ⟨⟨h₁.1, h₂⟩, h₁.2⟩) (fun _ _ _ _ h => ⟨h.1, h⟩)
    fun _ _ _ _ h => ⟨h.1, h⟩

/-- A correct program runs correctly, when the calls it makes do; the errors in `D` may come from
anywhere. -/
theorem Ensures.exec {K : Contract ε σ Res} {E : ε → σ → Prop} {D : ε → Prop}
    {impl : ∀ c : Call, EStateM ε σ (Res c)} {p : Prog ε σ Res α} {s : σ} {Q : α → σ → Prop}
    (h : p.Ensures K E s Q)
    (himpl : ∀ c s', p.Makes impl s c s' → K.pre c s' →
      Pcv.Ensures (fun e t => D e ∨ K.err c s' e t) (impl c) s' (K.post c s')) :
    Pcv.Ensures (fun e t => D e ∨ E e t) (p.exec impl) s Q := by
  induction p generalizing s with
  | ret a => exact h
  | step x next ih =>
      apply Pcv.Ensures.bind
      cases hx : x s with
      | ok b s₁ =>
          exact .of_ok hx (ih b (h.ok hx) fun c s' hc => himpl c s' ⟨b, s₁, hx, hc⟩)
      | error e s₁ => exact .of_error hx (Or.inr (Pcv.Ensures.error h hx))
  | call c next ih =>
      obtain ⟨hpre, herr, hpost⟩ := h
      have hc := himpl c s (Or.inl ⟨rfl, rfl⟩) hpre
      apply Pcv.Ensures.bind
      cases hx : impl c s with
      | ok a s₁ =>
          exact .of_ok hx (ih a (hpost a s₁ (hc.ok hx))
            fun c' s' hc' => himpl c' s' (Or.inr ⟨a, s₁, hx, hc'⟩))
      | error e s₁ => exact .of_error hx ((hc.error hx).imp id (herr e s₁))

/-- The calls a correct program makes satisfy what they may rely on. -/
theorem Ensures.pre_of_makes {K : Contract ε σ Res} {E : ε → σ → Prop}
    {impl : ∀ c : Call, EStateM ε σ (Res c)} {p : Prog ε σ Res α} {s : σ} {Q : α → σ → Prop}
    (h : p.Ensures K E s Q)
    (himpl : ∀ c s₁ a s₂, p.Makes impl s c s₁ → K.pre c s₁ → impl c s₁ = .ok a s₂ →
      K.post c s₁ a s₂) {c : Call} {s' : σ} (hc : p.Makes impl s c s') : K.pre c s' := by
  induction p generalizing s with
  | ret a => exact hc.elim
  | step x next ih =>
      obtain ⟨b, s₁, hx, hc⟩ := hc
      exact ih b (h.ok hx)
        (fun c s₂ a s₃ hmakes => himpl c s₂ a s₃ ⟨b, s₁, hx, hmakes⟩) hc
  | call d next ih =>
      rcases hc with ⟨rfl, rfl⟩ | ⟨a, s₁, hx, hc⟩
      · exact h.1
      · exact ih a (h.2.2 a s₁ (himpl d s a s₁ (Or.inl ⟨rfl, rfl⟩) h.1 hx))
          (fun c s₂ a' s₃ hmakes => himpl c s₂ a' s₃ (Or.inr ⟨a, s₁, hx, hmakes⟩)) hc

/-! ## Steps in a preorder -/

namespace Steps

variable {R : σ → σ → Prop}

theorem pure (a : α) : (Pure.pure a : Prog ε σ Res α).Steps R := trivial

theorem perform {x : EStateM ε σ α}
    (h : ∀ s, Pcv.Ensures (fun _ s' => R s s') x s fun _ s' => R s s') :
    (perform x : Prog ε σ Res α).Steps R :=
  ⟨h, fun _ => trivial⟩

theorem invoke (c : Call) : (invoke c : Prog ε σ Res (Res c)).Steps R := fun _ => trivial

theorem bind {p : Prog ε σ Res α} {f : α → Prog ε σ Res β} (hp : p.Steps R)
    (hf : ∀ a, (f a).Steps R) : (p >>= f).Steps R := by
  show (p.bind f).Steps R
  induction p with
  | ret a => exact hf a
  | step x next ih => exact ⟨hp.1, fun b => ih b (hp.2 b)⟩
  | call c next ih => exact fun a => ih a (hp a)

theorem ite {c : Prop} [Decidable c] {p q : Prog ε σ Res α} (hp : p.Steps R) (hq : q.Steps R) :
    (if c then p else q).Steps R := by
  by_cases hc : c
  · simpa [hc] using hp
  · simpa [hc] using hq

variable {impl : ∀ c : Call, EStateM ε σ (Res c)}

/-- A program whose steps are related goes from a state to a related one, when its calls do. -/
theorem exec (hrefl : ∀ s, R s s) (htrans : ∀ s₁ s₂ s₃, R s₁ s₂ → R s₂ s₃ → R s₁ s₃)
    (himpl : ∀ c s, Pcv.Ensures (fun _ s' => R s s') (impl c) s fun _ s' => R s s')
    {p : Prog ε σ Res α} (hp : p.Steps R) (s : σ) :
    Pcv.Ensures (fun _ s' => R s s') (p.exec impl) s fun _ s' => R s s' := by
  induction p generalizing s with
  | ret a => exact hrefl s
  | step x next ih =>
      exact .bind ((hp.1 s).mono fun b s₁ hb => (ih b (hp.2 b) s₁).conseq
        (fun _ s₂ h => htrans _ _ _ hb h) fun _ s₂ h => htrans _ _ _ hb h)
  | call c next ih =>
      exact .bind ((himpl c s).mono fun a s₁ ha => (ih a (hp a) s₁).conseq
        (fun _ s₂ h => htrans _ _ _ ha h) fun _ s₂ h => htrans _ _ _ ha h)

/-- The state in which a call is made is related to the one the program was started in. -/
theorem of_makes (hrefl : ∀ s, R s s) (htrans : ∀ s₁ s₂ s₃, R s₁ s₂ → R s₂ s₃ → R s₁ s₃)
    (himpl : ∀ c s, Pcv.Ensures (fun _ s' => R s s') (impl c) s fun _ s' => R s s')
    {p : Prog ε σ Res α} (hp : p.Steps R) {s s' : σ} {c : Call} (hc : p.Makes impl s c s') :
    R s s' := by
  induction p generalizing s with
  | ret a => exact hc.elim
  | step x next ih =>
      obtain ⟨b, s₁, hx, hc⟩ := hc
      exact htrans _ _ _ ((hp.1 s).ok hx) (ih b (hp.2 b) hc)
  | call d next ih =>
      rcases hc with ⟨rfl, rfl⟩ | ⟨a, s₁, hx, hc⟩
      · exact hrefl s
      · exact htrans _ _ _ ((himpl d s).ok hx) (ih a (hp a) hc)

/-- A call that fails is the end of the program that makes it; of a call that returns, the
state is related to the one the program leaves. -/
theorem exec_of_makes (hrefl : ∀ s, R s s)
    (htrans : ∀ s₁ s₂ s₃, R s₁ s₂ → R s₂ s₃ → R s₁ s₃)
    (himpl : ∀ c s, Pcv.Ensures (fun _ s' => R s s') (impl c) s fun _ s' => R s s')
    {p : Prog ε σ Res α} (hp : p.Steps R) {s s' : σ} {c : Call} (hc : p.Makes impl s c s') :
    (∃ e t, impl c s' = .error e t ∧ p.exec impl s = .error e t) ∨
      ∃ a t', impl c s' = .ok a t' ∧
        Pcv.Ensures (fun _ t => R t' t) (p.exec impl) s fun _ t => R t' t := by
  induction p generalizing s with
  | ret a => exact hc.elim
  | step x next ih =>
      obtain ⟨b, s₁, hx, hc⟩ := hc
      rcases ih b (hp.2 b) hc with ⟨e, t, hce, hpe⟩ | ⟨a, t', hca, hpa⟩
      · refine Or.inl ⟨e, t, hce, ?_⟩
        simp only [Prog.exec, Bind.bind, EStateM.bind, hx, hpe]
      · exact Or.inr ⟨a, t', hca, .bind_ok hx hpa⟩
  | call d next ih =>
      rcases hc with ⟨rfl, rfl⟩ | ⟨a, s₁, hx, hc⟩
      · cases hx : impl d s with
        | ok a t' =>
            exact Or.inr ⟨a, t', rfl, .bind_ok hx (exec hrefl htrans himpl (hp a) t')⟩
        | error e t =>
            refine Or.inl ⟨e, t, rfl, ?_⟩
            simp only [Prog.exec, Bind.bind, EStateM.bind, hx]
      · rcases ih a (hp a) hc with ⟨e, t, hce, hpe⟩ | ⟨a', t', hca, hpa⟩
        · refine Or.inl ⟨e, t, hce, ?_⟩
          simp only [Prog.exec, Bind.bind, EStateM.bind, hx, hpe]
        · exact Or.inr ⟨a', t', hca, .bind_ok hx hpa⟩

end Steps

end Prog

/-! ## Computations that are cut off -/

/-- `x` does what `y` does, or gives up with the error `e`. -/
def CutOff (e : ε) (x y : EStateM ε σ α) : Prop :=
  ∀ s, (∃ s', x s = .error e s') ∨ x s = y s

namespace CutOff

variable {e : ε}

theorem refl (x : EStateM ε σ α) : CutOff e x x := fun _ => Or.inr rfl

theorem trans {x y z : EStateM ε σ α} (h : CutOff e x y) (h' : CutOff e y z) :
    CutOff e x z := by
  intro s
  rcases h s with hx | hx
  · exact Or.inl hx
  · rw [hx]
    exact h' s

theorem bind {x y : EStateM ε σ α} {f g : α → EStateM ε σ β} (h : CutOff e x y)
    (hf : ∀ a, CutOff e (f a) (g a)) : CutOff e (x >>= f) (y >>= g) := by
  intro s
  simp only [Bind.bind, EStateM.bind]
  rcases h s with ⟨s', hx⟩ | hx
  · exact Or.inl ⟨s', by rw [hx]⟩
  · rw [← hx]
    cases x s with
    | ok a s₁ => exact hf a s₁
    | error e' s₁ => exact Or.inr rfl

/-- An outcome other than giving up is the outcome of the full computation. -/
theorem eq_ok {x y : EStateM ε σ α} (h : CutOff e x y) {s s' : σ} {a : α}
    (hx : x s = .ok a s') : y s = .ok a s' := by
  rcases h s with ⟨s₁, he⟩ | he
  · rw [hx] at he
    cases he
  · rw [← he, hx]

theorem eq_error {x y : EStateM ε σ α} (h : CutOff e x y) {s s' : σ} {e' : ε} (hne : e' ≠ e)
    (hx : x s = .error e' s') : y s = .error e' s' := by
  rcases h s with ⟨s₁, he⟩ | he
  · rw [hx] at he
    cases he
    exact (hne rfl).elim
  · rw [← he, hx]

theorem ensures {x y : EStateM ε σ α} (h : CutOff e x y) {E : ε → σ → Prop} {s : σ}
    {Q : α → σ → Prop} (hx : Ensures E x s Q) (hE : ∀ s', ¬ E e s') : Ensures E y s Q := by
  cases hxs : x s with
  | ok a s' => exact .of_ok (h.eq_ok hxs) (hx.ok hxs)
  | error e' s' =>
      refine .of_error (h.eq_error ?_ hxs) (hx.error hxs)
      rintro rfl
      exact hE s' (hx.error hxs)

end CutOff

/-! ## Procedures -/

section Procedures

variable (body : ∀ c : Call, Prog ε σ Res (Res c)) (tooDeep : ε)

/-- Run a call; calls that are nested more deeply than the bound are an error. -/
def runBounded : ℕ → ∀ c : Call, EStateM ε σ (Res c)
  | 0, _ => throw tooDeep
  | n + 1, c => (body c).exec (runBounded n)

/-- The call `f` makes the call `g`, in the states that stand beside them. -/
def Calls (f g : Call × σ) : Prop :=
  ∃ n, (body f.1).Makes (runBounded body tooDeep n) f.2 g.1 g.2

/-- The call stacks of a run of the call `root`, the innermost call first. -/
inductive CallStack (root : Call × σ) : List (Call × σ) → Prop
  | root : CallStack root [root]
  | call {f g : Call × σ} {fs : List (Call × σ)} :
      CallStack root (f :: fs) → Calls body tooDeep f g → CallStack root (g :: f :: fs)

/-- The call that is found by going from a call to one of those it makes, by their numbers. -/
def callAt (n : ℕ) : List ℕ → Call × σ → Option (Call × σ)
  | [], f => some f
  | k :: ks, f =>
      match ((body f.1).calls (runBounded body tooDeep n) f.2)[k]? with
      | some g => callAt n ks g
      | none => none

/-- The call, those it makes, those that these make, and so on down to a depth. -/
def callsInside : ℕ → Call × σ → List (Call × σ)
  | 0, f => [f]
  | n + 1, f =>
      f :: ((body f.1).calls (runBounded body tooDeep n) f.2).flatMap (callsInside n)

/-- The call ends, normally or with an error, and leaves the state `t`. -/
def Ends (f : Call × σ) (t : σ) : Prop :=
  ∃ n, (∃ a, runBounded body tooDeep n f.1 f.2 = .ok a t) ∨
    ∃ e, e ≠ tooDeep ∧ runBounded body tooDeep n f.1 f.2 = .error e t

variable {body tooDeep}

theorem calls_of_mem {n : ℕ} {f g : Call × σ}
    (h : g ∈ (body f.1).calls (runBounded body tooDeep n) f.2) : Calls body tooDeep f g :=
  ⟨n, (Prog.makes_iff_mem_calls _ _ _).mpr h⟩

theorem reflTransGen_of_callAt {n : ℕ} {ks : List ℕ} {f g : Call × σ}
    (h : callAt body tooDeep n ks f = some g) :
    Relation.ReflTransGen (Calls body tooDeep) f g := by
  induction ks generalizing f with
  | nil =>
      cases h
      exact .refl
  | cons k ks ih =>
      rw [callAt] at h
      split at h
      next g' hg' => exact .head (calls_of_mem (List.mem_of_getElem? hg')) (ih h)
      next => cases h

theorem CutOff.exec {impl impl' : ∀ c : Call, EStateM ε σ (Res c)}
    (h : ∀ c, CutOff tooDeep (impl c) (impl' c)) (p : Prog ε σ Res α) :
    CutOff tooDeep (p.exec impl) (p.exec impl') := by
  induction p with
  | ret a => exact .refl _
  | step x next ih => exact .bind (.refl x) ih
  | call c next ih => exact .bind (h c) ih

theorem CutOff.makes {impl impl' : ∀ c : Call, EStateM ε σ (Res c)}
    (h : ∀ c, CutOff tooDeep (impl c) (impl' c)) {p : Prog ε σ Res α} {s s' : σ} {c : Call}
    (hc : p.Makes impl s c s') : p.Makes impl' s c s' := by
  induction p generalizing s with
  | ret a => exact hc
  | step x next ih =>
      obtain ⟨b, s₁, hx, hc⟩ := hc
      exact ⟨b, s₁, hx, ih b hc⟩
  | call d next ih =>
      rcases hc with hc | ⟨a, s₁, hx, hc⟩
      · exact Or.inl hc
      · exact Or.inr ⟨a, s₁, (h d).eq_ok hx, ih a hc⟩

/-- A program that is not cut off makes the calls that it makes in full. -/
theorem CutOff.calls_eq {impl impl' : ∀ c : Call, EStateM ε σ (Res c)}
    (h : ∀ c, CutOff tooDeep (impl c) (impl' c)) {p : Prog ε σ Res α} {s : σ}
    (hp : ∀ t, p.exec impl s ≠ .error tooDeep t) : p.calls impl' s = p.calls impl s := by
  induction p generalizing s with
  | ret a => rfl
  | step x next ih =>
      rw [Prog.calls, Prog.calls]
      cases hx : x s with
      | ok b s₁ =>
          refine ih b fun t ht => hp t ?_
          simp only [Prog.exec, Bind.bind, EStateM.bind, hx, ht]
      | error e s₁ => rfl
  | call c next ih =>
      rw [Prog.calls, Prog.calls]
      rcases h c s with ⟨t, ht⟩ | heq
      · refine absurd ?_ (hp t)
        simp only [Prog.exec, Bind.bind, EStateM.bind, ht]
      rw [← heq]
      cases hx : impl c s with
      | ok a s₁ =>
          refine congrArg _ (ih a fun t ht => hp t ?_)
          simp only [Prog.exec, Bind.bind, EStateM.bind, hx, ht]
      | error e s₁ => rfl

/-- A greater bound makes a difference only where a smaller one is exceeded. -/
theorem runBounded_le {n m : ℕ} (hnm : n ≤ m) (c : Call) :
    CutOff tooDeep (runBounded body tooDeep n c) (runBounded body tooDeep m c) := by
  induction n generalizing m c with
  | zero => exact fun s => Or.inl ⟨s, rfl⟩
  | succ n ih =>
      obtain ⟨m, rfl⟩ := Nat.exists_eq_add_of_le' (show 1 ≤ m by omega)
      exact .exec (fun c => ih (by omega) c) (body c)

/-- What a call returns does not depend on a bound that is not exceeded. -/
theorem runBounded_eq_ok {n m : ℕ} {c : Call} {s s' : σ} {a : Res c}
    (hn : runBounded body tooDeep n c s = .ok a s')
    (hm : ∀ t, runBounded body tooDeep m c s ≠ .error tooDeep t) :
    runBounded body tooDeep m c s = .ok a s' := by
  rcases le_total n m with hle | hle
  · exact (runBounded_le hle c).eq_ok hn
  · rcases runBounded_le hle c s with ⟨t, ht⟩ | heq
    · exact (hm t ht).elim
    · exact heq.trans hn

/-- The calls inside a call that ends are found by running it. -/
theorem mem_callsInside {n : ℕ} {f g : Call × σ}
    (hn : ∀ t, runBounded body tooDeep n f.1 f.2 ≠ .error tooDeep t)
    (h : Relation.ReflTransGen (Calls body tooDeep) f g) : g ∈ callsInside body tooDeep n f := by
  induction n generalizing f with
  | zero => exact absurd rfl (hn f.2)
  | succ n ih =>
      rcases h.cases_head with rfl | ⟨k, ⟨m, hm⟩, hrest⟩
      · exact List.mem_cons_self
      -- the calls are the same with any greater bound
      have hmem : k ∈ (body f.1).calls (runBounded body tooDeep n) f.2 := by
        rw [← CutOff.calls_eq (runBounded_le (le_max_left n m)) hn]
        exact (Prog.makes_iff_mem_calls _ _ _).mp (CutOff.makes (runBounded_le (le_max_right n m)) hm)
      refine List.mem_cons_of_mem _ (List.mem_flatMap.mpr ⟨k, hmem, ih (fun t ht => hn t ?_) hrest⟩)
      exact ((Prog.makes_iff_mem_calls _ _ _).mpr hmem).exec_error ht

variable (body tooDeep) in
/-- The contract for calls that have been run. -/
def Contract.ran (K : Contract ε σ Res) : Contract ε σ Res :=
  { K with post := fun c s a s' => K.post c s a s' ∧ ∃ n, runBounded body tooDeep n c s = .ok a s' }

/-- The rule for every bound.  The bodies may use a property that is known of all the calls that
are made, and what these did when they were run. -/
theorem ensures_of_calls_ran (K : Contract ε σ Res) (rel : Call → σ → Call → σ → Prop)
    (X : Call → σ → Prop)
    (hX : ∀ c s c' s', X c s → Calls body tooDeep (c, s) (c', s') → X c' s')
    (hbody : ∀ c s, K.pre c s → X c s →
      (body c).Ensures ((K.ran body tooDeep).within (rel c s)) (K.err c s) s (K.post c s))
    (n : ℕ) (c : Call) (s : σ) (hpre : K.pre c s) (hx : X c s) :
    Ensures (fun e s' => e = tooDeep ∨ K.err c s e s') (runBounded body tooDeep n c) s
      (K.post c s) := by
  induction n generalizing c s with
  | zero => exact .throw (Or.inl rfl)
  | succ n ih =>
      refine (hbody c s hpre hx).exec fun c' s' hc hpre' => ?_
      have h := ih c' s' hpre'.1 (hX c s c' s' hx ⟨n, hc⟩)
      cases hrun : runBounded body tooDeep n c' s' with
      | ok a t => exact .of_ok hrun ⟨h.ok hrun, n, hrun⟩
      | error e t => exact .of_error hrun (h.error hrun)

/-- The calls that are made may rely on what the contract says. -/
theorem pre_of_calls_ran (K : Contract ε σ Res) (rel : Call → σ → Call → σ → Prop)
    (X : Call → σ → Prop)
    (hX : ∀ c s c' s', X c s → Calls body tooDeep (c, s) (c', s') → X c' s')
    (hbody : ∀ c s, K.pre c s → X c s →
      (body c).Ensures ((K.ran body tooDeep).within (rel c s)) (K.err c s) s (K.post c s))
    {f g : Call × σ} (hpre : K.pre f.1 f.2) (hx : X f.1 f.2) (hg : Calls body tooDeep f g) :
    K.pre g.1 g.2 := by
  obtain ⟨n, hn⟩ := hg
  refine ((hbody f.1 f.2 hpre hx).pre_of_makes (fun c s a s' hmakes hc hok => ?_) hn).1
  exact ⟨(ensures_of_calls_ran K rel X hX hbody n c s hc.1 (hX _ _ c s hx ⟨n, hmakes⟩)).ok hok, n,
    hok⟩

/-- What is shown without a look at what the calls did when they were run. -/
theorem Prog.Ensures.ran {K : Contract ε σ Res} {P : Call → σ → Prop} {E : ε → σ → Prop}
    {p : Prog ε σ Res α} {s : σ} {Q : α → σ → Prop} (h : p.Ensures (K.within P) E s Q) :
    p.Ensures ((K.ran body tooDeep).within P) E s Q := by
  have htwice : p.Ensures ((K.ran body tooDeep).within P) (fun e s' => E e s' ∧ E e s') s
      fun a s' => Q a s' ∧ Q a s' :=
    h.combine h (fun _ _ h _ => h) (fun _ _ _ _ h => ⟨h.1, h.1⟩) fun _ _ _ _ h => ⟨h, h⟩
  exact htwice.conseq (fun _ _ h => h.1) fun _ _ h => h.1

/-- What is shown for two contracts, the second one with what the calls owe to the first and with
what they did when they were run. -/
theorem Prog.Ensures.both_ran {K L : Contract ε σ Res} {P : Call → σ → Prop} {E F : ε → σ → Prop}
    {p : Prog ε σ Res α} {s : σ} {Q R : α → σ → Prop} (hK : p.Ensures (K.within P) E s Q)
    (hL : p.Ensures ((L.given K).ran body tooDeep) F s R) :
    p.Ensures (((K.both L).ran body tooDeep).within P) (fun e s' => E e s' ∧ F e s') s
      fun a s' => Q a s' ∧ R a s' :=
  hK.combine hL (fun _ _ h₁ h₂ => ⟨⟨h₁.1, h₂⟩, h₁.2⟩) (fun _ _ _ _ h => ⟨h.1.1, h⟩)
    fun _ _ _ _ h => ⟨h.1, h⟩

/-- The rule for every bound, where nothing is asked of what the calls did. -/
theorem ensures_of_calls (K : Contract ε σ Res) (rel : Call → σ → Call → σ → Prop)
    (X : Call → σ → Prop)
    (hX : ∀ c s c' s', X c s → Calls body tooDeep (c, s) (c', s') → X c' s')
    (hbody : ∀ c s, K.pre c s → X c s →
      (body c).Ensures (K.within (rel c s)) (K.err c s) s (K.post c s))
    (n : ℕ) (c : Call) (s : σ) (hpre : K.pre c s) (hx : X c s) :
    Ensures (fun e s' => e = tooDeep ∨ K.err c s e s') (runBounded body tooDeep n c) s
      (K.post c s) :=
  ensures_of_calls_ran K rel X hX (fun c s hc hx => (hbody c s hc hx).ran) n c s hpre hx

theorem pre_of_calls (K : Contract ε σ Res) (rel : Call → σ → Call → σ → Prop)
    (X : Call → σ → Prop)
    (hX : ∀ c s c' s', X c s → Calls body tooDeep (c, s) (c', s') → X c' s')
    (hbody : ∀ c s, K.pre c s → X c s →
      (body c).Ensures (K.within (rel c s)) (K.err c s) s (K.post c s))
    {f g : Call × σ} (hpre : K.pre f.1 f.2) (hx : X f.1 f.2) (hg : Calls body tooDeep f g) :
    K.pre g.1 g.2 :=
  pre_of_calls_ran K rel X hX (fun c s hc hx => (hbody c s hc hx).ran) hpre hx hg

/-- Every body keeps to the contract, and makes only calls that are related to its own. -/
def Contract.Met (K : Contract ε σ Res) (body : ∀ c : Call, Prog ε σ Res (Res c))
    (rel : Call → σ → Call → σ → Prop) : Prop :=
  ∀ c s, K.pre c s → (body c).Ensures (K.within (rel c s)) (K.err c s) s (K.post c s)

/-- For every bound, a call keeps to its contract or the bound is exceeded. -/
theorem Contract.Met.ensures_or {K : Contract ε σ Res} {rel : Call → σ → Call → σ → Prop}
    (h : K.Met body rel) (n : ℕ) {c : Call} {s : σ} (hpre : K.pre c s) :
    Ensures (fun e s' => e = tooDeep ∨ K.err c s e s') (runBounded body tooDeep n c) s
      (K.post c s) :=
  ensures_of_calls K rel (fun _ _ => True) (fun _ _ _ _ _ _ => trivial)
    (fun c s hc _ => h c s hc) n c s hpre trivial

section Met

variable {K : Contract ε σ Res} {rel : Call → σ → Call → σ → Prop} {W : Type} [Preorder W]
  [WellFoundedLT W] {μ : Call → σ → W}

/-- The rule for termination: where every call is smaller than the one that makes it, some
bound on the depth is enough. -/
theorem Contract.Met.exists_ensures (h : K.Met body rel)
    (hμ : ∀ c s c' s', rel c s c' s' → μ c' s' < μ c s)
    (hdeep : ∀ c s s', ¬ K.err c s tooDeep s') (c : Call) (s : σ) (hpre : K.pre c s) :
    ∃ n, Ensures (K.err c s) (runBounded body tooDeep n c) s (K.post c s) := by
  suffices main : ∀ w c s, μ c s = w → K.pre c s →
      ∃ n, Ensures (K.err c s) (runBounded body tooDeep n c) s (K.post c s) from
    main _ c s rfl hpre
  intro w
  induction w using WellFoundedLT.induction with
  | ind w ih =>
      rintro c s rfl hpre
      suffices hprog : ∀ {α : Type} (p : Prog ε σ Res α) (s₁ : σ) (E : ε → σ → Prop)
          (Q : α → σ → Prop), (∀ s', ¬ E tooDeep s') →
            p.Ensures (K.within (rel c s)) E s₁ Q →
              ∃ n, Ensures E (p.exec (runBounded body tooDeep n)) s₁ Q by
        obtain ⟨n, hn⟩ := hprog (body c) s _ _ (hdeep c s) (h c s hpre)
        exact ⟨n + 1, hn⟩
      intro α p
      induction p with
      | ret a => exact fun s₁ E Q _ hp => ⟨0, hp⟩
      | step x next ihp =>
          intro s₁ E Q hE hp
          cases hx : x s₁ with
          | ok b s₂ =>
              obtain ⟨n, hn⟩ := ihp b s₂ E Q hE (hp.ok hx)
              exact ⟨n, .bind_ok hx hn⟩
          | error e s₂ => exact ⟨0, .bind (.of_error hx (Ensures.error hp hx))⟩
      | call d next ihp =>
          rintro s₁ E Q hE ⟨⟨hd, hrel⟩, herr, hpost⟩
          obtain ⟨n, hn⟩ := ih _ (hμ c s d s₁ hrel) d s₁ rfl hd
          cases hx : runBounded body tooDeep n d s₁ with
          | ok a s₂ =>
              obtain ⟨m, hm⟩ := ihp a s₂ E Q hE (hpost a s₂ (hn.ok hx))
              refine ⟨max n m, .bind_ok ((runBounded_le (le_max_left n m) d).eq_ok hx) ?_⟩
              exact (CutOff.exec (runBounded_le (le_max_right n m)) (next a)).ensures hm hE
          | error e s₂ => exact ⟨n, .bind (.of_error hx (herr e s₂ (hn.error hx)))⟩

/-- The calls that are made may rely on what the contract says, and are related to the call
that makes them. -/
theorem Contract.Met.of_calls (h : K.Met body rel)
    (hμ : ∀ c s c' s', rel c s c' s' → μ c' s' < μ c s)
    (hdeep : ∀ c s s', ¬ K.err c s tooDeep s') {f g : Call × σ} (hpre : K.pre f.1 f.2)
    (hg : Calls body tooDeep f g) : K.pre g.1 g.2 ∧ rel f.1 f.2 g.1 g.2 := by
  obtain ⟨n, hn⟩ := hg
  refine (h f.1 f.2 hpre).pre_of_makes (fun c s a s' _ hc hok => ?_) hn
  obtain ⟨m, hm⟩ := h.exists_ensures hμ hdeep c s hc.1
  have := (runBounded_le (le_max_right n m) c).ensures hm (hdeep c s)
  exact this.ok ((runBounded_le (le_max_left n m) c).eq_ok hok)

/-- From some bound on, a call has one outcome, and the bound is not exceeded. -/
theorem Contract.Met.settles (h : K.Met body rel)
    (hμ : ∀ c s c' s', rel c s c' s' → μ c' s' < μ c s)
    (hdeep : ∀ c s s', ¬ K.err c s tooDeep s') {c : Call} {s : σ} (hpre : K.pre c s) :
    ∃ r, (∀ s', r ≠ .error tooDeep s') ∧
      ∃ n, ∀ m, n ≤ m → runBounded body tooDeep m c s = r := by
  obtain ⟨n, hn⟩ := h.exists_ensures hμ hdeep c s hpre
  refine ⟨runBounded body tooDeep n c s, fun s' hs' => hdeep c s s' (hn.error hs'), n,
    fun m hm => ?_⟩
  rcases runBounded_le hm c s with ⟨s', hs'⟩ | heq
  · exact (hdeep c s s' (hn.error hs')).elim
  · exact heq.symm

end Met

/-! ## Procedures whose steps go up in a preorder -/

section Steps

variable {R : σ → σ → Prop}

theorem steps_runBounded (hrefl : ∀ s, R s s)
    (htrans : ∀ s₁ s₂ s₃, R s₁ s₂ → R s₂ s₃ → R s₁ s₃) (hbody : ∀ c, (body c).Steps R) (n : ℕ)
    (c : Call) (s : σ) :
    Ensures (fun _ s' => R s s') (runBounded body tooDeep n c) s fun _ s' => R s s' := by
  induction n generalizing c s with
  | zero => exact .throw (hrefl s)
  | succ n ih => exact (hbody c).exec hrefl htrans (fun c s => ih c s) s

theorem Calls.steps (hrefl : ∀ s, R s s) (htrans : ∀ s₁ s₂ s₃, R s₁ s₂ → R s₂ s₃ → R s₁ s₃)
    (hbody : ∀ c, (body c).Steps R) {f g : Call × σ} (hg : Calls body tooDeep f g) :
    R f.2 g.2 := by
  obtain ⟨n, hn⟩ := hg
  exact (hbody f.1).of_makes hrefl htrans (steps_runBounded hrefl htrans hbody n) hn

/-- When a call ends, so do the calls it makes, and before it. -/
theorem Calls.exists_ends (hrefl : ∀ s, R s s)
    (htrans : ∀ s₁ s₂ s₃, R s₁ s₂ → R s₂ s₃ → R s₁ s₃) (hbody : ∀ c, (body c).Steps R)
    {f g : Call × σ} (hg : Calls body tooDeep f g) {t : σ} (hf : Ends body tooDeep f t) :
    ∃ t', Ends body tooDeep g t' ∧ R t' t := by
  obtain ⟨n, hn⟩ := hg
  obtain ⟨m, hm⟩ := hf
  have hmakes := CutOff.makes (runBounded_le (le_max_left n m)) hn
  have hrun : (∃ a, runBounded body tooDeep (max n m + 1) f.1 f.2 = .ok a t) ∨
      ∃ e, e ≠ tooDeep ∧ runBounded body tooDeep (max n m + 1) f.1 f.2 = .error e t := by
    have hle : CutOff tooDeep (runBounded body tooDeep m f.1)
        (runBounded body tooDeep (max n m + 1) f.1) :=
      runBounded_le (by omega) f.1
    rcases hm with ⟨a, ha⟩ | ⟨e, he, hr⟩
    · exact Or.inl ⟨a, hle.eq_ok ha⟩
    · exact Or.inr ⟨e, he, hle.eq_error he hr⟩
  rcases (hbody f.1).exec_of_makes hrefl htrans (steps_runBounded hrefl htrans hbody _) hmakes
    with ⟨e, t', hge, hfe⟩ | ⟨a, t', hga, hfa⟩
  · rcases hrun with ⟨a, ha⟩ | ⟨e', he', hr⟩
    · rw [runBounded, hfe] at ha
      cases ha
    · rw [runBounded, hfe] at hr
      cases hr
      exact ⟨t, ⟨_, Or.inr ⟨e, he', hge⟩⟩, hrefl t⟩
  · refine ⟨t', ⟨_, Or.inl ⟨a, hga⟩⟩, ?_⟩
    rcases hrun with ⟨b, hb⟩ | ⟨e, he, hr⟩
    · exact hfa.ok hb
    · exact hfa.error hr

end Steps

end Procedures

end Pcv
