import Pcv.Library.TrieRemove
import Pcv.Library.TrieToList

/-!
# The values of a trie

`EachValue P t` says that every value of a trie satisfies `P`, those that only fill a place
included.  An insertion keeps such a property when the values it writes have it, and a
deletion when the value has it that marks a place as empty.  What a search finds, and what is
listed, has the property.
-/

namespace Pcv

universe u v

namespace Trie

variable {κ : Type u} {V : Type v} {P Q : V → Prop} {t t' : Trie κ V}

/-- Every value satisfies `P`. -/
def EachValue (P : V → Prop) : Trie κ V → Prop
  | nil => True
  | cons _ v next rest => P v ∧ next.EachValue P ∧ rest.EachValue P

theorem eachValue_append {A B : Trie κ V} :
    (A.append B).EachValue P ↔ A.EachValue P ∧ B.EachValue P := by
  induction A with
  | nil => simp [EachValue]
  | cons k v next rest _ ih => simp only [EachValue, cons_append, ih, and_assoc]

theorem EachValue.mono (h : t.EachValue P) (hPQ : ∀ v, P v → Q v) : t.EachValue Q := by
  induction t with
  | nil => trivial
  | cons k v next rest ihn ihr => exact ⟨hPQ _ h.1, ihn h.2.1, ihr h.2.2⟩

theorem eachValue_path {fill last : V} (hfill : P fill) (hlast : P last) (ks : List κ) :
    (path fill ks last).EachValue P := by
  induction ks with
  | nil => trivial
  | cons k ks ih =>
      refine ⟨?_, ih, trivial⟩
      split
      · exact hlast
      · exact hfill

theorem EachValue.of_mem_toList {valid : V → Bool} (h : t.EachValue P) {e : List κ × V}
    (he : e ∈ t.toList valid) : P e.2 := by
  induction t generalizing e with
  | nil => simp [toList] at he
  | cons k v next rest ihn ihr =>
      simp only [toList, List.mem_append, List.mem_map] at he
      rcases he with (he | ⟨e, he, rfl⟩) | he
      · split at he
        · obtain rfl := List.mem_singleton.mp he
          exact h.1
        · simp at he
      · have : P e.2 := ihn h.2.1 he
        exact this
      · exact ihr h.2.2 he

variable {pos : κ → ℕ} {fill invalid last : V} {ρ : List κ}

/-- An insertion writes no other values. -/
theorem Ins.eachValue {need : ℕ} (h : Ins pos fill invalid last need ρ t t')
    (ht : t.EachValue P) (hfill : P fill) (hinvalid : P invalid) (hlast : P last) :
    t'.EachValue P := by
  induction h with
  | first => exact eachValue_path hfill hlast _
  | new =>
      obtain ⟨hA, hB⟩ := eachValue_append.mp ht
      refine eachValue_append.mpr ⟨hA, ?_, eachValue_path hfill hlast _, hB⟩
      split
      · exact hlast
      · exact hinvalid
  | here =>
      obtain ⟨hA, -, hnext, hB⟩ := eachValue_append.mp ht
      exact eachValue_append.mpr ⟨hA, hlast, hnext, hB⟩
  | down _ ih =>
      obtain ⟨hA, hv, hnext, hB⟩ := eachValue_append.mp ht
      exact eachValue_append.mpr ⟨hA, hv, ih hnext, hB⟩

theorem Cleared.eachValue (h : Cleared pos invalid ρ t t') (ht : t.EachValue P)
    (hinvalid : P invalid) : t'.EachValue P := by
  induction h with
  | here =>
      obtain ⟨hA, -, hnext, hB⟩ := eachValue_append.mp ht
      exact eachValue_append.mpr ⟨hA, hinvalid, hnext, hB⟩
  | down _ ih =>
      obtain ⟨hA, hv, hnext, hB⟩ := eachValue_append.mp ht
      exact eachValue_append.mpr ⟨hA, hv, ih hnext, hB⟩

/-- A deletion writes no other values. -/
theorem Del.eachValue (h : Del pos invalid ρ t t') (ht : t.EachValue P) (hinvalid : P invalid) :
    t'.EachValue P := by
  cases h with
  | absent => exact ht
  | cleared h => exact h.eachValue ht hinvalid
  | cut =>
      obtain ⟨hA, -, -, hB⟩ := eachValue_append.mp ht
      exact eachValue_append.mpr ⟨hA, hB⟩

end Trie

end Pcv
