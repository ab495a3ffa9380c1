import Mathlib.Tactic.Common

/-!
# Postconditions of stateful computations that may fail

`Ensures E x s Q` says that running the computation `x` from the state `s`
either returns normally, with a result and a state that satisfy `Q`, or raises
an error that `E` allows.  The error keeps the state it was raised in, so `E`
may also speak about what a failed computation leaves behind.

The rules below follow the structure of a program: one for each monadic
operation, a consequence rule, and a rule for a computation whose run is already
known.
-/

namespace Pcv

universe u

variable {ε σ α β : Type u}

/-! ## The basic operations -/

theorem stateGet_eq (s : σ) : (MonadState.get : EStateM ε σ σ) s = .ok s s := rfl

theorem stateSet_eq (s s' : σ) : (MonadState.set s' : EStateM ε σ PUnit) s = .ok ⟨⟩ s' := rfl

theorem stateModifyGet_eq (f : σ → α × σ) (s : σ) :
    (MonadState.modifyGet f : EStateM ε σ α) s = .ok (f s).1 (f s).2 := rfl

theorem stateThrow_eq (e : ε) (s : σ) : (MonadExcept.throw e : EStateM ε σ α) s = .error e s := rfl

/-- A bind whose first half has a known normal run. -/
theorem bind_of_ok {x : EStateM ε σ α} {f : α → EStateM ε σ β} {a : α} {s s₁ : σ}
    (hx : x s = .ok a s₁) : (x >>= f) s = f a s₁ := by
  simp only [Bind.bind, EStateM.bind, hx]

/-- A bind whose first half fails. -/
theorem bind_of_error {x : EStateM ε σ α} {f : α → EStateM ε σ β} {e : ε} {s s₁ : σ}
    (hx : x s = .error e s₁) : (x >>= f) s = .error e s₁ := by
  simp only [Bind.bind, EStateM.bind, hx]

/-- When a bind returns, so have its halves. -/
theorem exists_of_bind_eq_ok {x : EStateM ε σ α} {f : α → EStateM ε σ β} {b : β} {s s' : σ}
    (h : (x >>= f) s = .ok b s') : ∃ a s₁, x s = .ok a s₁ ∧ f a s₁ = .ok b s' := by
  cases hx : x s with
  | ok a s₁ => exact ⟨a, s₁, rfl, (bind_of_ok hx).symm.trans h⟩
  | error e s₁ =>
    simp only [Bind.bind, EStateM.bind, hx] at h
    cases h

/-! ## Postconditions -/

/-- Every run of `x` from `s` ends in `Q` or in an error that `E` allows. -/
def Ensures (E : ε → σ → Prop) (x : EStateM ε σ α) (s : σ) (Q : α → σ → Prop) : Prop :=
  match x s with
  | .ok a s' => Q a s'
  | .error e s' => E e s'

namespace Ensures

variable {E E' : ε → σ → Prop} {x : EStateM ε σ α} {f : α → EStateM ε σ β} {s : σ}
variable {Q Q' : α → σ → Prop} {R : β → σ → Prop}

theorem of_ok {a : α} {s' : σ} (h : x s = .ok a s') (hQ : Q a s') : Ensures E x s Q := by
  simpa [Ensures, h] using hQ

theorem of_error {e : ε} {s' : σ} (h : x s = .error e s') (hE : E e s') :
    Ensures E x s Q := by
  simpa [Ensures, h] using hE

/-- What a normal return tells. -/
theorem ok {a : α} {s' : σ} (h : Ensures E x s Q) (hx : x s = .ok a s') : Q a s' := by
  simpa [Ensures, hx] using h

/-- What an error tells. -/
theorem error {e : ε} {s' : σ} (h : Ensures E x s Q) (hx : x s = .error e s') : E e s' := by
  simpa [Ensures, hx] using h

theorem conseq (h : Ensures E x s Q) (hE : ∀ e s', E e s' → E' e s')
    (hQ : ∀ a s', Q a s' → Q' a s') : Ensures E' x s Q' := by
  unfold Ensures at h ⊢
  cases hx : x s with
  | ok a s' => rw [hx] at h; exact hQ a s' h
  | error e s' => rw [hx] at h; exact hE e s' h

theorem mono (h : Ensures E x s Q) (hQ : ∀ a s', Q a s' → Q' a s') : Ensures E x s Q' :=
  h.conseq (fun _ _ he => he) hQ

/-- Two postconditions at once. -/
theorem and (h : Ensures E x s Q) (h' : Ensures E' x s Q') :
    Ensures (fun e s' => E e s' ∧ E' e s') x s fun a s' => Q a s' ∧ Q' a s' := by
  cases hx : x s with
  | ok a s' => exact .of_ok hx ⟨h.ok hx, h'.ok hx⟩
  | error e s' => exact .of_error hx ⟨h.error hx, h'.error hx⟩

/-- What is returned is what the run returns. -/
theorem with_run (h : Ensures E x s Q) : Ensures E x s fun a s' => x s = .ok a s' ∧ Q a s' := by
  cases hx : x s with
  | ok a s' => exact .of_ok hx ⟨rfl, h.ok hx⟩
  | error e s' => exact .of_error hx (h.error hx)

theorem pure {a : α} (h : Q a s) : Ensures E (Pure.pure a) s Q := h

theorem bind (h : Ensures E x s fun a s' => Ensures E (f a) s' R) :
    Ensures E (x >>= f) s R := by
  unfold Ensures at h ⊢
  simp only [Bind.bind, EStateM.bind]
  cases hx : x s with
  | ok a s' => simpa [hx, Ensures] using h
  | error e s' => simpa [hx] using h

/-- The outcome of a bind is an outcome of its second half. -/
theorem of_bind (h : Ensures E (x >>= f) s R) : Ensures E x s fun a s' => Ensures E (f a) s' R := by
  unfold Ensures at h ⊢
  simp only [Bind.bind, EStateM.bind] at h
  cases hx : x s with
  | ok a s' => simpa [hx] using h
  | error e s' => simpa [hx] using h

/-- A bind whose first half has a known normal run. -/
theorem bind_ok {a : α} {s' : σ} (hx : x s = .ok a s') (h : Ensures E (f a) s' R) :
    Ensures E (x >>= f) s R :=
  bind (of_ok hx h)

theorem ite {c : Prop} [Decidable c] {y : EStateM ε σ α} (h : c → Ensures E x s Q)
    (h' : ¬ c → Ensures E y s Q) : Ensures E (if c then x else y) s Q := by
  by_cases hc : c
  · simpa [hc] using h hc
  · simpa [hc] using h' hc

/-- A step that is done in one of two cases only, in front of the rest of a program. -/
theorem when {c : Prop} [Decidable c] {x : EStateM ε σ PUnit} {f : PUnit → EStateM ε σ β}
    (h : Ensures E ((if c then x else Pure.pure ⟨⟩) >>= f) s R) :
    Ensures E (if c then x >>= f else f ⟨⟩) s R := by
  by_cases hc : c
  · simpa [hc] using h
  · simpa [hc, Ensures, Bind.bind, Pure.pure, EStateM.bind, EStateM.pure] using h

/-- A loop over a list: the invariant speaks of the part that has been worked off. -/
theorem foldlM {xs : List β} {f : α → β → EStateM ε σ α} {I : List β → α → σ → Prop} {a : α}
    (hstep : ∀ pre x suf a s, xs = pre ++ x :: suf → I pre a s →
      Ensures E (f a x) s (I (pre ++ [x])))
    (h : I [] a s) : Ensures E (xs.foldlM f a) s (I xs) := by
  have main : ∀ suf pre a s, xs = pre ++ suf → I pre a s →
      Ensures E (suf.foldlM f a) s (I xs) := by
    intro suf
    induction suf with
    | nil =>
        rintro pre a s rfl h
        exact Ensures.pure (by simpa using h)
    | cons x suf ih =>
        intro pre a s hxs h
        rw [List.foldlM_cons]
        exact bind ((hstep pre x suf a s hxs h).mono fun a' s' h' =>
          ih (pre ++ [x]) a' s' (by simp [hxs]) h')
  exact main xs [] a s rfl h

theorem get {Q : σ → σ → Prop} (h : Q s s) : Ensures E MonadState.get s Q := h

theorem set {Q : PUnit → σ → Prop} {s' : σ} (h : Q ⟨⟩ s') :
    Ensures E (MonadStateOf.set s') s Q := h

theorem modify {Q : PUnit → σ → Prop} {g : σ → σ} (h : Q ⟨⟩ (g s)) :
    Ensures E (modifyGet fun t => (PUnit.unit, g t)) s Q := h

theorem throw {e : ε} (h : E e s) : Ensures E (MonadExcept.throw e) s Q := h

end Ensures

end Pcv
