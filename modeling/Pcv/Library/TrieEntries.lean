import Pcv.Library.TrieToList

/-!
# The entries of a trie

`EachEntry P front t` says that every value of a trie satisfies `P` together with the keys that
lead to it, where `front` are the keys above the first layer.  An insertion keeps such a property
when the value it writes has it, under as many keys of the new sequence as are asked for.
-/

namespace Pcv

universe u v

namespace Trie

variable {κ : Type u} {V : Type v} {P Q : List κ → V → Prop} {front : List κ} {t t' : Trie κ V}

/-- Every value satisfies `P` together with its keys. -/
def EachEntry (P : List κ → V → Prop) : List κ → Trie κ V → Prop
  | _, nil => True
  | front, cons k v next rest =>
      P (front ++ [k]) v ∧ next.EachEntry P (front ++ [k]) ∧ rest.EachEntry P front

theorem eachEntry_append {A B : Trie κ V} :
    (A.append B).EachEntry P front ↔ A.EachEntry P front ∧ B.EachEntry P front := by
  induction A with
  | nil => simp [EachEntry]
  | cons k v next rest _ ih => simp only [cons_append, EachEntry, ih, and_assoc]

theorem EachEntry.mono (h : t.EachEntry P front) (hPQ : ∀ π v, P π v → Q π v) :
    t.EachEntry Q front := by
  induction t generalizing front with
  | nil => trivial
  | cons k v next rest ihn ihr => exact ⟨hPQ _ _ h.1, ihn h.2.1, ihr h.2.2⟩

theorem eachEntry_path {fill last : V} (hfill : ∀ π, P π fill) {ks : List κ}
    (hlast : ks ≠ [] → P (front ++ ks) last) : (path fill ks last).EachEntry P front := by
  induction ks generalizing front with
  | nil => trivial
  | cons k ks ih =>
      have hlast := hlast (List.cons_ne_nil _ _)
      refine ⟨?_, ih fun _ => by rwa [List.append_assoc, List.singleton_append], trivial⟩
      split
      · next hnil => rwa [hnil] at hlast
      · exact hfill _

theorem EachEntry.of_mem_toList {valid : V → Bool} (h : t.EachEntry P front) {e : List κ × V}
    (he : e ∈ t.toList valid) : P (front ++ e.1) e.2 := by
  induction t generalizing front e with
  | nil => simp [toList] at he
  | cons k v next rest ihn ihr =>
      simp only [toList, List.mem_append, List.mem_map] at he
      rcases he with (he | ⟨e, he, rfl⟩) | he
      · split at he
        · obtain rfl := List.mem_singleton.mp he
          exact h.1
        · simp at he
      · have := ihn h.2.1 he
        rwa [List.append_assoc] at this
      · exact ihr h.2.2 he

theorem hits_append {hit : ℕ → κ → Bool} {lvl : ℕ} {as bs : List κ} :
    Hits hit lvl (as ++ bs) ↔ Hits hit lvl as ∧ Hits hit (lvl + as.length) bs := by
  induction as generalizing lvl with
  | nil => simp [Hits]
  | cons a as ih =>
      rw [List.cons_append, Hits, ih, Hits, and_assoc, List.length_cons,
        show lvl + 1 + as.length = lvl + (as.length + 1) by omega]

variable {pos : κ → ℕ} {fill invalid last : V}

/-- An insertion writes its value under enough keys of its sequence. -/
theorem Ins.eachEntry {need : ℕ} {ρ : List κ} (h : Ins pos fill invalid last need ρ t t')
    (ht : t.EachEntry P front) (hfill : ∀ π, P π fill) (hinvalid : ∀ π, P π invalid)
    (hlast : ∀ n, 0 < n → need ≤ n → P (front ++ ρ.take n) last) : t'.EachEntry P front := by
  induction h generalizing front with
  | @first need ρ hneed => exact eachEntry_path hfill fun _ => hlast need hneed le_rfl
  | @new need k ρ A B hneed =>
      obtain ⟨hA, hB⟩ := eachEntry_append.mp ht
      refine eachEntry_append.mpr ⟨hA, ?_, eachEntry_path hfill fun _ => ?_, hB⟩
      · split
        · exact hlast 1 Nat.one_pos (by omega)
        · exact hinvalid _
      · have := hlast need hneed le_rfl
        obtain ⟨n, rfl⟩ : ∃ n, need = n + 1 := ⟨need - 1, by omega⟩
        rwa [List.take_succ_cons, ← List.singleton_append, ← List.append_assoc] at this
  | @here need k ρ A next B v hneed =>
      obtain ⟨hA, -, hnext, hB⟩ := eachEntry_append.mp ht
      exact eachEntry_append.mpr ⟨hA, hlast 1 Nat.one_pos hneed, hnext, hB⟩
  | @down need k ρ A next next' B v _ ih =>
      obtain ⟨hA, hv, hnext, hB⟩ := eachEntry_append.mp ht
      refine eachEntry_append.mpr ⟨hA, hv, ih hnext fun n _ hn => ?_, hB⟩
      have := hlast (n + 1) n.succ_pos (by omega)
      rwa [List.take_succ_cons, ← List.singleton_append, ← List.append_assoc] at this

end Trie

end Pcv
