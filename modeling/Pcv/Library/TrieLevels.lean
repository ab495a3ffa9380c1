import Pcv.Library.TrieToList

/-!
# The keys of a trie at their levels

`EachKey P lvl t` says that every key of a trie satisfies `P` at its own level, where the
keys of the first layer are at level `lvl`.  An insertion keeps such a property when the
keys that have to be stored have it.
-/

namespace Pcv

universe u v

namespace Trie

variable {κ : Type u} {V : Type v} {P Q : ℕ → κ → Prop} {lvl : ℕ} {t : Trie κ V}

/-- Every key satisfies `P` at its level. -/
def EachKey (P : ℕ → κ → Prop) : ℕ → Trie κ V → Prop
  | _, nil => True
  | lvl, cons k _ next rest => P lvl k ∧ next.EachKey P (lvl + 1) ∧ rest.EachKey P lvl

theorem eachKey_append {A B : Trie κ V} :
    (A.append B).EachKey P lvl ↔ A.EachKey P lvl ∧ B.EachKey P lvl := by
  induction A with
  | nil => simp [EachKey]
  | cons k v next rest _ ih => simp only [cons_append, EachKey, ih, and_assoc]

theorem EachKey.mono (h : t.EachKey P lvl) (hPQ : ∀ lvl k, P lvl k → Q lvl k) :
    t.EachKey Q lvl := by
  induction t generalizing lvl with
  | nil => trivial
  | cons k v next rest ihn ihr => exact ⟨hPQ _ _ h.1, ihn h.2.1, ihr h.2.2⟩

theorem EachKey.of_mem_keys (h : t.EachKey P lvl) {k : κ} (hk : k ∈ t.keys) : P lvl k := by
  induction t with
  | nil => simp at hk
  | cons a v next rest _ ih =>
      rcases List.mem_cons.mp hk with rfl | hk
      · exact h.1
      · exact ih h.2.2 hk

theorem eachKey_path (fill last : V) {ks : List κ}
    (h : ∀ i k, ks[i]? = some k → P (lvl + i) k) : (path fill ks last).EachKey P lvl := by
  induction ks generalizing lvl with
  | nil => trivial
  | cons k ks ih =>
      refine ⟨h 0 k rfl, ih fun i a ha => ?_, trivial⟩
      rw [show lvl + 1 + i = lvl + (i + 1) by omega]
      exact h (i + 1) a (by simpa using ha)

/-- The keys of a listed sequence, each at its level. -/
theorem EachKey.of_mem_toList {valid : V → Bool} (h : t.EachKey P lvl) {e : List κ × V}
    (he : e ∈ t.toList valid) {i : ℕ} {k : κ} (hk : e.1[i]? = some k) : P (lvl + i) k := by
  induction t generalizing lvl i e with
  | nil => simp [toList] at he
  | cons a v next rest ihn ihr =>
      simp only [toList, List.mem_append, List.mem_map] at he
      rcases he with (he | ⟨e, he, rfl⟩) | he
      · split at he
        · obtain rfl := List.mem_singleton.mp he
          obtain ⟨rfl, rfl⟩ : i = 0 ∧ a = k := by
            cases i <;> simp_all
          exact h.1
        · simp at he
      · cases i with
        | zero =>
            obtain rfl : a = k := by simpa using hk
            exact h.1
        | succ i =>
            rw [show lvl + (i + 1) = lvl + 1 + i by omega]
            exact ihn h.2.1 he (by simpa using hk)
      · exact ihr h.2.2 he hk

/-- It is enough to look at the sequences that are stored. -/
theorem eachKey_of_lookup [DecidableEq κ] {before : κ → κ → Prop} (hirrefl : ∀ a, ¬ before a a)
    (ht : t.Separated before)
    (h : ∀ π w i k, t.lookup π = some w → π[i]? = some k → P (lvl + i) k) : t.EachKey P lvl := by
  induction t generalizing lvl with
  | nil => trivial
  | cons a v next rest ihn ihr =>
      obtain ⟨ha, hn, hr⟩ := ht
      refine ⟨h [a] v 0 a (by simp [lookup_cons]) rfl, ihn hn fun π w i k hl hk => ?_,
        ihr hr fun π w i k hl hk => ?_⟩
      · have hne : π ≠ [] := by
          rintro rfl
          simp at hk
        rw [show lvl + 1 + i = lvl + (i + 1) by omega]
        exact h (a :: π) w (i + 1) k (by simp [lookup_cons, hne, hl]) (by simpa using hk)
      · refine h π w i k ?_ hk
        cases π with
        | nil => simp at hk
        | cons c π =>
            have hca : c ≠ a := by
              rintro rfl
              exact hirrefl c (ha c (mem_keys_of_lookup hl))
            rwa [lookup_cons, if_neg hca]

variable {pos : κ → ℕ} {fill invalid last : V}

/-- An insertion adds the keys that have to be stored, and no others. -/
theorem Ins.eachKey {need : ℕ} {ρ : List κ} {t' : Trie κ V}
    (h : Ins pos fill invalid last need ρ t t') (ht : t.EachKey P lvl)
    (hρ : ∀ i k, i < need → ρ[i]? = some k → P (lvl + i) k) : t'.EachKey P lvl := by
  have htake : ∀ (n : ℕ) (ks : List κ) (m : ℕ),
      (∀ i k, i < n → ks[i]? = some k → P (m + i) k) →
        ∀ i k, (ks.take n)[i]? = some k → P (m + i) k := by
    intro n ks m hks i k hk
    rw [List.getElem?_take] at hk
    split at hk
    · exact hks i k (by assumption) hk
    · cases hk
  induction h generalizing lvl with
  | @first need ρ _ => exact eachKey_path _ _ (htake _ _ _ hρ)
  | @new need k ρ A B hneed _ _ _ _ =>
      obtain ⟨hA, hB⟩ := eachKey_append.mp ht
      refine eachKey_append.mpr ⟨hA, hρ 0 k hneed rfl, eachKey_path _ _ (htake _ _ _ ?_), hB⟩
      intro i a hi ha
      rw [show lvl + 1 + i = lvl + (i + 1) by omega]
      exact hρ (i + 1) a (by omega) (by simpa using ha)
  | here _ _ =>
      obtain ⟨hA, hkey⟩ := eachKey_append.mp ht
      exact eachKey_append.mpr ⟨hA, hkey⟩
  | @down need k ρ A next next' B v _ ih =>
      obtain ⟨hA, hk, hnext, hB⟩ := eachKey_append.mp ht
      refine eachKey_append.mpr ⟨hA, hk, ih hnext fun i a hi ha => ?_, hB⟩
      rw [show lvl + 1 + i = lvl + (i + 1) by omega]
      exact hρ (i + 1) a (by omega) (by simpa using ha)

end Trie

end Pcv
