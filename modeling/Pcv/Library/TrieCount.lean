import Pcv.Library.TrieToList
import Mathlib.Data.List.Dedup
import Mathlib.Data.List.Infix

/-!
# The number of keys in a trie

Every key of a trie stands at the end of one stored sequence.  So a trie that was made by insertions
has as many keys as the inserted sequences have beginnings, where a beginning that several of them
share is counted once, and none is longer than its sequence needs it to be.
-/

namespace Pcv

universe u v

namespace Trie

variable {κ : Type u} {V : Type v}

/-- The number of the keys. -/
def count : Trie κ V → ℕ
  | nil => 0
  | cons _ _ next rest => 1 + next.count + rest.count

@[simp] theorem count_nil : (nil : Trie κ V).count = 0 := rfl

@[simp] theorem count_cons (k : κ) (v : V) (next rest : Trie κ V) :
    (cons k v next rest).count = 1 + next.count + rest.count := rfl

/-- All the sequences are listed if every value is taken for valid. -/
theorem length_toList_true (t : Trie κ V) : (t.toList fun _ => true).length = t.count := by
  induction t with
  | nil => rfl
  | cons k v next rest ihn ihr =>
    simp only [toList, if_true, List.length_append, List.length_map, List.length_singleton, ihn, ihr,
      count_cons]

variable [DecidableEq κ] {before : κ → κ → Prop} {valid : V → Bool} {need : List κ → ℕ}

/-- The beginnings of some sequences, as far as these are needed, each of them once. -/
def beginnings (need : List κ → ℕ) (rs : List (List κ)) : List (List κ) :=
  (rs.flatMap fun ρ => (ρ.take (need ρ)).inits.filter (· ≠ [])).dedup

theorem mem_beginnings {rs : List (List κ)} {π : List κ} :
    π ∈ beginnings need rs ↔ π ≠ [] ∧ ∃ ρ ∈ rs, π <+: ρ.take (need ρ) := by
  simp only [beginnings, List.mem_dedup, List.mem_flatMap, List.mem_filter, List.mem_inits,
    decide_eq_true_eq]
  exact ⟨fun ⟨ρ, hρ, hp, hne⟩ => ⟨hne, ρ, hρ, hp⟩, fun ⟨hne, ρ, hρ, hp⟩ => ⟨ρ, hρ, hp, hne⟩⟩

/-- What is stored are the beginnings of the inserted sequences. -/
theorem Represents.lookup_iff {rs : List (List κ × V)} {t : Trie κ V}
    (hr : Represents before valid need rs t) {π : List κ} :
    (∃ w, t.lookup π = some w) ↔ π ∈ beginnings need (rs.map Prod.fst) := by
  rw [mem_beginnings]
  constructor
  · rintro ⟨w, hl⟩
    obtain ⟨r, hmem, hp⟩ := hr.covered π w hl
    refine ⟨?_, r.1, List.mem_map_of_mem hmem, hp⟩
    rintro rfl
    simp at hl
  · rintro ⟨hne, ρ, hρ, hp⟩
    obtain ⟨r, hmem, rfl⟩ := List.mem_map.mp hρ
    obtain ⟨w, hlast⟩ := lastValue_isSome hmem
    obtain ⟨n, hn, -, hl, -⟩ := hr.of_last r.1 w hlast
    have hpre : π <+: r.1.take n := hp.trans (List.take_prefix_take_left hn)
    exact Option.ne_none_iff_exists'.mp (lookup_ne_none_of_isPrefix hl hpre hne)

/-- The number of the keys in a trie that was made by insertions. -/
theorem Represents.count_eq (hirrefl : ∀ a, ¬ before a a) {rs : List (List κ × V)} {t : Trie κ V}
    (hr : Represents before valid need rs t) :
    t.count = (beginnings need (rs.map Prod.fst)).length := by
  have hlist : ∀ {π w}, (π, w) ∈ t.toList (fun _ => true) ↔ t.lookup π = some w := by
    intro π w
    rw [mem_toList hirrefl hr.separated, and_iff_left rfl]
  have hnodup : ((t.toList fun _ => true).map Prod.fst).Nodup := by
    refine (nodup_toList hirrefl hr.separated).map_on fun a ha b hb heq => ?_
    have hab := (hlist.mp ha).symm.trans ((congrArg (fun π => t.lookup π) heq).trans (hlist.mp hb))
    exact Prod.ext heq (Option.some.inj hab)
  rw [← length_toList_true, ← List.length_map (f := Prod.fst)]
  refine List.Perm.length_eq ((List.perm_ext_iff_of_nodup hnodup (List.nodup_dedup _)).mpr ?_)
  intro π
  rw [← beginnings, ← hr.lookup_iff]
  simp only [List.mem_map, Prod.exists, exists_and_right, exists_eq_right, hlist]

end Trie

end Pcv
