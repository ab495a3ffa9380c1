import Mathlib.Data.List.Basic
import Mathlib.Tactic.Common

/-!
# The longest match of a key among tables

An entry has a length, which says what part of a key it looks at, and is kept in the table of this
length under the part that it looks for.  A later entry with the same length and the same part takes
the place of an earlier one.  A key is looked up in one table after the other, from the longest
length on.  So the entry that is found is one of the longest that match, and the latest of these
(`longestMatch_findSome`).
-/

namespace Pcv

/-- An entry of the table of its length. -/
structure TableEntry (κ V : Type) where
  length : ℕ
  key : κ
  value : V

namespace TableEntry

variable {κ V : Type} {mask : ℕ → κ → κ} {es : List (TableEntry κ V)} {e : TableEntry κ V}
  {n : ℕ} {k : κ} {v : V}

/-- The part of the key that the entry looks at is the one that it looks for. -/
def Hits (mask : ℕ → κ → κ) (e : TableEntry κ V) (k : κ) : Prop := mask e.length k = e.key

/-- The entry that was found is one of the longest that match the key, and the last of these. -/
structure LongestMatch (mask : ℕ → κ → κ) (es : List (TableEntry κ V)) (k : κ)
    (res : Option V) : Prop where
  miss : res = none ↔ ∀ e ∈ es, ¬ e.Hits mask k
  hit : ∀ v, res = some v → ∃ before e after, es = before ++ e :: after ∧ e.value = v ∧
    e.Hits mask k ∧ (∀ e' ∈ before, e'.Hits mask k → e'.length ≤ e.length) ∧
      ∀ e' ∈ after, e'.Hits mask k → e'.length < e.length

variable [DecidableEq κ]

/-- What the table of a length keeps under a key. -/
def latest (es : List (TableEntry κ V)) (n : ℕ) (k : κ) : Option V :=
  (es.reverse.find? fun e => decide (e.length = n ∧ e.key = k)).map value

theorem latest_concat (es : List (TableEntry κ V)) (e : TableEntry κ V) (n : ℕ) (k : κ) :
    latest (es ++ [e]) n k =
      if e.length = n ∧ e.key = k then some e.value else latest es n k := by
  simp only [latest, List.reverse_append, List.reverse_singleton, List.singleton_append,
    List.find?_cons]
  by_cases h : e.length = n ∧ e.key = k
  · simp only [h, and_self, decide_true, if_true, Option.map_some]
  · simp only [h, decide_false, if_false]

theorem latest_eq_none_iff : latest es n k = none ↔ ∀ e ∈ es, e.length = n → e.key ≠ k := by
  simp [latest]

/-- What is kept was the last one to be kept. -/
theorem exists_of_latest (h : latest es n k = some v) : ∃ before e after,
    es = before ++ e :: after ∧ e.length = n ∧ e.key = k ∧ e.value = v ∧
      ∀ e' ∈ after, e'.length = n → e'.key ≠ k := by
  obtain ⟨e, hfind, rfl⟩ := Option.map_eq_some_iff.mp h
  obtain ⟨he, after, before, hes, hafter⟩ := List.find?_eq_some_iff_append.mp hfind
  obtain ⟨rfl, rfl⟩ := of_decide_eq_true he
  refine ⟨before.reverse, e, after.reverse, ?_, rfl, rfl, rfl, fun e' he' hlen hkey => ?_⟩
  · rw [← List.reverse_reverse es, hes]
    simp
  · exact absurd (hafter e' (List.mem_reverse.mp he')) (by simp [hlen, hkey])

/-- The search from the longest length on finds the longest match. -/
theorem longestMatch_findSome {ns : List ℕ} (hns : ns.Pairwise (· > ·))
    (hall : ∀ e ∈ es, e.length ∈ ns) (k : κ) :
    LongestMatch mask es k (ns.findSome? fun n => latest es n (mask n k)) := by
  have hempty : ∀ e ∈ es, latest es e.length (mask e.length k) = none → ¬ e.Hits mask k :=
    fun e he hnone hhits => latest_eq_none_iff.mp hnone e he rfl hhits.symm
  constructor
  · rw [List.findSome?_eq_none_iff]
    constructor
    · intro hmiss e he
      exact hempty e he (hmiss _ (hall e he))
    · intro hmiss n _
      refine latest_eq_none_iff.mpr fun e he hlen hkey => hmiss e he ?_
      rw [Hits, hlen, hkey]
  · intro v hv
    obtain ⟨longer, n, shorter, rfl, hfound, hlonger⟩ := List.findSome?_eq_some_iff.mp hv
    obtain ⟨before, e, after, hes, rfl, hkey, hvalue, hafter⟩ := exists_of_latest hfound
    -- an entry of a longer length would have been found before
    have hle : ∀ e' ∈ es, e'.Hits mask k → e'.length ≤ e.length := by
      intro e' he' hhits
      rcases List.mem_append.mp (hall e' he') with hmem | hmem
      · exact absurd hhits (hempty e' he' (hlonger _ hmem))
      · rcases List.mem_cons.mp hmem with heq | hmem
        · exact Nat.le_of_eq heq
        · exact Nat.le_of_lt ((List.pairwise_cons.mp (List.pairwise_append.mp hns).2.1).1 _ hmem)
    refine ⟨before, e, after, hes, hvalue, hkey.symm, fun e' he' => hle e' ?_, fun e' he' hhits => ?_⟩
    · rw [hes]
      exact List.mem_append_left _ he'
    · refine Nat.lt_of_le_of_ne (hle e' ?_ hhits) fun hlen => ?_
      · rw [hes]
        exact List.mem_append_right _ (List.mem_cons_of_mem _ he')
      · refine hafter e' he' hlen ?_
        rw [← hhits, hlen]

end TableEntry

end Pcv
