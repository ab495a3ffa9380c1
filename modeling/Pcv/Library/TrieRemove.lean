import Pcv.Library.TrieInsert

/-!
# Deletion from a trie

`Del` says how a trie changes when a sequence of keys is taken out of it.  The sequence is
followed as far as it is there.  Where it ends above other keys, only the value there becomes
invalid; where nothing follows, everything on the way is deleted, provided that nothing else
is stored on the way behind the first key.

What is stored after a deletion was stored before, and is on the way to something that is
stored under another sequence.
-/

namespace Pcv

universe u v

namespace Trie

variable {κ : Type u} {V : Type v} {pos : κ → ℕ} {invalid : V}

/-- The trie is a single path, of keys the sequence begins with. -/
inductive Along : List κ → Trie κ V → Prop
  | nil {ρ : List κ} : Along ρ nil
  | cons {k : κ} {ρ : List κ} {v : V} {next : Trie κ V} :
      Along ρ next → Along (k :: ρ) (cons k v next nil)

/-- The value under the sequence becomes invalid; the sequence goes no further, but other
keys follow. -/
inductive Cleared (pos : κ → ℕ) (invalid : V) : List κ → Trie κ V → Trie κ V → Prop
  | here {k : κ} {ρ : List κ} {A next B : Trie κ V} {v : V} : next ≠ nil →
      (next.keys.Pairwise (fun a b => pos a < pos b) → ∀ k' ∈ ρ.head?, k' ∉ next.keys) →
      Cleared pos invalid (k :: ρ) (A.append (cons k v next B)) (A.append (cons k invalid next B))
  | down {k : κ} {ρ : List κ} {A next next' B : Trie κ V} {v : V} :
      Cleared pos invalid ρ next next' →
      Cleared pos invalid (k :: ρ) (A.append (cons k v next B)) (A.append (cons k v next' B))

/-- The sequence is taken out of the trie. -/
inductive Del (pos : κ → ℕ) (invalid : V) (ρ : List κ) : Trie κ V → Trie κ V → Prop
  | absent {t : Trie κ V} :
      (t.keys.Pairwise (fun a b => pos a < pos b) → ∀ k ∈ ρ.head?, k ∉ t.keys) →
      Del pos invalid ρ t t
  | cleared {t t' : Trie κ V} : Cleared pos invalid ρ t t' → Del pos invalid ρ t t'
  | cut {k : κ} {σ : List κ} {A next B : Trie κ V} {v : V} : ρ = k :: σ → Along σ next →
      Del pos invalid ρ (A.append (cons k v next B)) (A.append B)

/-! ## Keys that stay apart -/

section Separated

variable {before : κ → κ → Prop} {ρ : List κ} {t t' : Trie κ V}

theorem Cleared.separated (h : Cleared pos invalid ρ t t') (ht : t.Separated before) :
    t'.Separated before := by
  induction h with
  | here => simpa [separated_append, Separated] using ht
  | down _ ih =>
      obtain ⟨htA, ⟨hkB, htn, htB⟩, hAk⟩ := separated_append.mp ht
      exact separated_append.mpr ⟨htA, ⟨hkB, ih htn, htB⟩, hAk⟩

/-- A deletion keeps the trie separated. -/
theorem Del.separated (h : Del pos invalid ρ t t') (ht : t.Separated before) :
    t'.Separated before := by
  cases h with
  | absent => exact ht
  | cleared h => exact h.separated ht
  | cut _ _ =>
      obtain ⟨htA, ⟨-, -, htB⟩, hAk⟩ := separated_append.mp ht
      exact separated_append.mpr ⟨htA, htB, fun a ha b hb => hAk a ha b (by simp [hb])⟩

/-- The key of a separated layer stands behind other keys only. -/
theorem Separated.notMem_front (hpos : ∀ a b, before a b → pos a < pos b) {A next B : Trie κ V}
    {k : κ} {v : V} (h : (A.append (cons k v next B)).Separated before) : k ∉ A.keys := by
  obtain ⟨-, -, hAk⟩ := separated_append.mp h
  exact fun hk => absurd (hpos _ _ (hAk k hk k (by simp))) (lt_irrefl _)

end Separated

/-! ## What is still stored -/

section Lookup

variable [DecidableEq κ] {before : κ → κ → Prop} {ρ : List κ} {t t' : Trie κ V}

/-- On the way to something that is stored, and that does not lie on the way along `ρ`. -/
def Elsewhere (t : Trie κ V) (ρ π : List κ) : Prop :=
  ∃ π' w, π <+: π' ∧ t.lookup π' = some w ∧ ¬ π' <+: ρ

/-- What begins with another key than the sequence. -/
theorem elsewhere_of_head {a : κ} {π : List κ} {w : V} (hl : t.lookup (a :: π) = some w)
    (ha : ∀ k ∈ ρ.head?, k ≠ a) : t.Elsewhere ρ (a :: π) := by
  refine ⟨a :: π, w, List.prefix_refl _, hl, fun hp => ?_⟩
  cases ρ with
  | nil => simp at hp
  | cons k ρ => exact ha k rfl (List.cons_prefix_cons.mp hp).1.symm

/-- Something below the key `k`. -/
theorem Elsewhere.below {A next B : Trie κ V} {k : κ} {v : V} {π : List κ} (hkA : k ∉ A.keys)
    (h : next.Elsewhere ρ π) : (A.append (cons k v next B)).Elsewhere (k :: ρ) (k :: π) := by
  obtain ⟨π', w, hp, hl, hnot⟩ := h
  have hne : π' ≠ [] := by
    rintro rfl
    simp at hl
  refine ⟨k :: π', w, List.cons_prefix_cons.mpr ⟨rfl, hp⟩, ?_, fun hp' => ?_⟩
  · rw [lookup_at hkA, if_neg hne, hl]
  · exact hnot (List.cons_prefix_cons.mp hp').2

/-- A layer that is not empty stores something. -/
theorem exists_lookup_of_ne_nil (h : t ≠ nil) : ∃ k w, t.lookup [k] = some w := by
  cases t with
  | nil => exact absurd rfl h
  | cons k v next rest => exact ⟨k, v, by simp [lookup_cons]⟩

omit [DecidableEq κ] in
theorem Cleared.ne_nil (h : Cleared pos invalid ρ t t') : t' ≠ nil := by
  intro hnil
  cases h with
  | here => exact absurd (append_eq_nil hnil).2 (by simp)
  | down => exact absurd (append_eq_nil hnil).2 (by simp)

theorem Cleared.elsewhere (hpos : ∀ a b, before a b → pos a < pos b)
    (h : Cleared pos invalid ρ t t') (ht : t.Separated before) {π : List κ} {w : V}
    (hl : t'.lookup π = some w) : t.Elsewhere ρ π := by
  induction h generalizing π w with
  | @here k ρ A next B v hne hstop =>
      have hkA := ht.notMem_front hpos
      obtain ⟨-, ⟨-, htn, -⟩, -⟩ := separated_append.mp ht
      have hmiss := hstop (htn.pairwise.imp fun {a b} => hpos a b)
      cases π with
      | nil => simp at hl
      | cons a π =>
          by_cases hak : a = k
          · subst hak
            by_cases hπ : π = []
            · obtain ⟨b, w', hb⟩ := exists_lookup_of_ne_nil hne
              obtain ⟨π', w', hp, hl', hnot⟩ := elsewhere_of_head (ρ := ρ) hb
                fun k' hk' h => hmiss k' hk' (h ▸ mem_keys_of_lookup hb)
              subst hπ
              exact .below hkA ⟨π', w', List.nil_prefix, hl', hnot⟩
            · rw [lookup_at hkA, if_neg hπ] at hl
              obtain ⟨b, π, rfl⟩ := List.exists_cons_of_ne_nil hπ
              exact .below hkA (elsewhere_of_head hl
                fun k' hk' h => hmiss k' hk' (h ▸ mem_keys_of_lookup hl))
          · have hl' : (A.append (cons k v next B)).lookup (a :: π) = some w := by
              rwa [lookup_beside hak] at hl ⊢
            exact elsewhere_of_head hl' (by simpa [eq_comm] using hak)
  | @down k ρ A next next' B v hcl ih =>
      have hkA := ht.notMem_front hpos
      obtain ⟨-, ⟨-, htn, -⟩, -⟩ := separated_append.mp ht
      cases π with
      | nil => simp at hl
      | cons a π =>
          by_cases hak : a = k
          · subst hak
            by_cases hπ : π = []
            · obtain ⟨b, w', hb⟩ := exists_lookup_of_ne_nil hcl.ne_nil
              obtain ⟨π', w', -, hl', hnot⟩ := ih htn hb
              subst hπ
              exact .below hkA ⟨π', w', List.nil_prefix, hl', hnot⟩
            · rw [lookup_at hkA, if_neg hπ] at hl
              exact .below hkA (ih htn hl)
          · have hl' : (A.append (cons k v next B)).lookup (a :: π) = some w := by
              rwa [lookup_beside hak] at hl ⊢
            exact elsewhere_of_head hl' (by simpa [eq_comm] using hak)

/-- What is stored after a deletion does not depend on the deleted sequence. -/
theorem Del.elsewhere (hpos : ∀ a b, before a b → pos a < pos b) (h : Del pos invalid ρ t t')
    (ht : t.Separated before) {π : List κ} {w : V} (hl : t'.lookup π = some w) :
    t.Elsewhere ρ π := by
  cases h with
  | absent hmiss =>
      cases π with
      | nil => simp at hl
      | cons a π =>
          exact elsewhere_of_head hl fun k hk h =>
            hmiss (ht.pairwise.imp fun {a b} => hpos a b) k hk (h ▸ mem_keys_of_lookup hl)
  | cleared h => exact h.elsewhere hpos ht hl
  | @cut k σ A next B v hρ _ =>
      subst hρ
      have hkA := ht.notMem_front hpos
      obtain ⟨-, ⟨hkB, -, -⟩, -⟩ := separated_append.mp ht
      cases π with
      | nil => simp at hl
      | cons a π =>
          have hak : a ≠ k := by
            rintro rfl
            rcases List.mem_append.mp (keys_append A B ▸ mem_keys_of_lookup hl) with h | h
            · exact hkA h
            · exact absurd (hpos _ _ (hkB a h)) (lt_irrefl _)
          have hl' : (A.append (cons k v next B)).lookup (a :: π) = some w := by
            rwa [lookup_beside hak]
          exact elsewhere_of_head hl' (by simpa [eq_comm] using hak)

/-- The deletion of a sequence leaves nothing that only belongs to it. -/
theorem Covers.delete {need : List κ → ℕ} {rs : List (List κ)}
    (hpos : ∀ a b, before a b → pos a < pos b) (hc : Covers before need rs t)
    (h : Del pos invalid ρ t t') : Covers before need (rs.filter fun σ => σ ≠ ρ) t' where
  separated := h.separated hc.separated
  covered := by
    intro π w hl
    obtain ⟨π', w', hp, hl', hnot⟩ := h.elsewhere hpos hc.separated hl
    obtain ⟨σ, hmem, hp'⟩ := hc.covered π' w' hl'
    refine ⟨σ, List.mem_filter.mpr ⟨hmem, decide_eq_true ?_⟩, hp.trans hp'⟩
    rintro rfl
    exact hnot (hp'.trans (List.take_prefix _ _))

end Lookup

end Trie

end Pcv
