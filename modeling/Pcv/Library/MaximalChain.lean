import Mathlib.Data.List.Basic
import Mathlib.Tactic.Common

/-!
# Maximal chains

A chain goes from element to element by a relation, one level deeper with each step, as long as
an element that is good for the level can be found.  A chain is built from its end: the empty
chain, where no first element is good, and one more element in front.
-/

namespace Pcv

variable {α : Type}

/-- A chain from one of the elements `first` at level `lvl`, along `succ`, that cannot be
continued. -/
structure MaximalChain (succ : α → α → Prop) (good : ℕ → α → Prop) (first : α → Prop) (lvl : ℕ)
    (l : List α) : Prop where
  holds : ∀ j a, l[j]? = some a → good (lvl + j) a
  head : ∀ a ∈ l.head?, first a
  linked : ∀ j a b, l[j]? = some a → l[j + 1]? = some b → succ a b
  ended : ∀ a ∈ l.getLast?, ∀ b, succ a b → ¬ good (lvl + l.length) b
  eq_nil_iff : l = [] ↔ ∀ a, first a → ¬ good lvl a

namespace MaximalChain

variable {succ : α → α → Prop} {good : ℕ → α → Prop} {first : α → Prop} {lvl : ℕ}

theorem nil (h : ∀ a, first a → ¬ good lvl a) : MaximalChain succ good first lvl [] where
  holds := by simp
  head := by simp
  linked := by simp
  ended := by simp
  eq_nil_iff := by simpa using h

theorem congr_first {first' : α → Prop} {l : List α} (h : MaximalChain succ good first lvl l)
    (hfirst : ∀ a, first a ↔ first' a) : MaximalChain succ good first' lvl l where
  holds := h.holds
  head := fun a ha => (hfirst a).1 (h.head a ha)
  linked := h.linked
  ended := h.ended
  eq_nil_iff := by simpa only [hfirst] using h.eq_nil_iff

/-- A good element in front of a chain that its successors begin. -/
theorem cons {a : α} {l : List α} (ha : first a) (hgood : good lvl a)
    (h : MaximalChain succ good (succ a) (lvl + 1) l) :
    MaximalChain succ good first lvl (a :: l) where
  holds := by
    intro j b hb
    cases j with
    | zero =>
        obtain rfl : a = b := by simpa using hb
        exact hgood
    | succ j =>
        have := h.holds j b (by simpa using hb)
        rwa [Nat.add_assoc, Nat.add_comm 1] at this
  head := by simpa using ha
  linked := by
    intro j b c hb hc
    cases j with
    | zero =>
        obtain rfl : a = b := by simpa using hb
        exact h.head c (by simpa [List.head?_eq_getElem?] using hc)
    | succ j => exact h.linked j b c (by simpa using hb) (by simpa using hc)
  ended := by
    intro b hb
    cases l with
    | nil =>
        obtain rfl : a = b := by simpa using hb
        exact h.eq_nil_iff.1 rfl
    | cons c l =>
        have := h.ended b (by simpa using hb)
        rwa [Nat.add_assoc, Nat.add_comm 1] at this
  eq_nil_iff := by simpa using ⟨a, ha, hgood⟩

end MaximalChain

end Pcv
