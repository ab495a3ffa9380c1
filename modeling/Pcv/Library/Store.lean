import Mathlib.Data.List.Basic
import Mathlib.Data.Multiset.AddSub

/-!
# Total stores addressed by natural numbers

A store is a memory whose every cell has a value: a default one, given by a
function of the address, until the cell is written.  Only the written cells are
kept, and a write replaces the old entry, so a store stays as small as the set
of addresses that were ever written and evaluates well.

Two stores are compared cell by cell through `Store.get`; the order in which the
written cells happen to be kept carries no meaning.
-/

namespace Pcv

universe u

/-- A memory: `init` gives the value of a cell before its first write, `cells`
lists the cells written since. -/
structure Store (α : Type u) where
  init : ℕ → α
  cells : List (ℕ × α)

namespace Store

variable {α : Type u}

/-- A store in which every cell holds the same value. -/
def fill (a : α) : Store α := ⟨fun _ => a, []⟩

/-- The value of cell `i`. -/
def get (s : Store α) (i : ℕ) : α :=
  match s.cells.lookup i with
  | some a => a
  | none => s.init i

/-- Write `a` to cell `i`. -/
def set (s : Store α) (i : ℕ) (a : α) : Store α :=
  { s with cells := (i, a) :: s.cells.filter fun c => c.1 != i }

@[simp] theorem get_fill (a : α) (i : ℕ) : (fill a).get i = a := rfl

private theorem lookup_filter_ne (cells : List (ℕ × α)) {i j : ℕ} (h : j ≠ i) :
    (cells.filter fun c => c.1 != i).lookup j = cells.lookup j := by
  induction cells with
  | nil => rfl
  | cons c cs ih =>
      obtain ⟨k, a⟩ := c
      by_cases hk : k = i
      · subst hk
        have hjk : (j == k) = false := by simpa using h
        simp [List.lookup_cons, hjk, ih]
      · by_cases hj : j = k
        · subst hj
          simp [hk]
        · have hjk : (j == k) = false := by simpa using hj
          simp [hk, List.lookup_cons, hjk, ih]

@[simp] theorem get_set_self (s : Store α) (i : ℕ) (a : α) : (s.set i a).get i = a := by
  simp [get, set]

theorem get_set_of_ne (s : Store α) {i j : ℕ} (a : α) (h : j ≠ i) :
    (s.set i a).get j = s.get j := by
  have hji : (j == i) = false := by simpa using h
  simp [get, set, List.lookup_cons, hji, lookup_filter_ne _ h]

theorem get_set (s : Store α) (i j : ℕ) (a : α) :
    (s.set i a).get j = if j = i then a else s.get j := by
  by_cases h : j = i
  · subst h; simp
  · simp [h, get_set_of_ne]

/-- Writing back what a cell holds changes no cell. -/
@[simp] theorem get_set_get (s : Store α) (i j : ℕ) : (s.set i (s.get i)).get j = s.get j := by
  rw [get_set]
  split <;> simp_all

/-! ## Stores that agree on some cells -/

/-- The cells of `fp` hold in `s'` what they hold in `s`. -/
def Agree (fp : Multiset ℕ) (s s' : Store α) : Prop :=
  ∀ i ∈ fp, s'.get i = s.get i

namespace Agree

variable {fp fp' : Multiset ℕ} {s s' s'' : Store α}

theorem refl (fp : Multiset ℕ) (s : Store α) : Agree fp s s := fun _ _ => rfl

theorem trans (h : Agree fp s s') (h' : Agree fp s' s'') : Agree fp s s'' :=
  fun i hi => (h' i hi).trans (h i hi)

theorem mono (h : Agree fp s s') (hle : fp' ≤ fp) : Agree fp' s s' :=
  fun i hi => h i (Multiset.mem_of_le hle hi)

theorem add (h : Agree fp s s') (h' : Agree fp' s s') : Agree (fp + fp') s s' :=
  fun i hi => (Multiset.mem_add.mp hi).elim (h i) (h' i)

theorem set {i : ℕ} {a : α} (h : Agree fp s s') (hi : i ∉ fp) : Agree fp s (s'.set i a) := by
  intro j hj
  have hne : j ≠ i := fun hji => hi (hji ▸ hj)
  rw [get_set_of_ne _ _ hne, h j hj]

end Agree

end Store

end Pcv
