import Pcv.Library.Trie

/-!
# Insertion into a trie

`Ins` says how a trie changes when a value is stored under a sequence of keys: the
sequence is followed as far as it is there already, and continues in a new path.
It is a relation, since in a layer with overlapping keys the place of a new key,
and whether an old one is found, is up to the search of the layer.  Only the first
keys of a sequence have to be stored; the others are followed when they are there.

`Represents` relates a trie to the sequence of the insertions that made it.
-/

namespace Pcv

universe u v

namespace Trie

variable {κ : Type u} {V : Type v} {pos : κ → ℕ} {fill invalid last : V}

/-- The value `last` is stored under a sequence of keys, of which at least the first
`need` are to be in the trie afterwards.  Beyond them the sequence is followed as far
as it is there.  The interior keys of a new path get the value `fill`, save that a new
key in a layer that was there before gets the value `invalid`. -/
inductive Ins (pos : κ → ℕ) (fill invalid last : V) : ℕ → List κ → Trie κ V → Trie κ V → Prop
  | first {need : ℕ} {ρ : List κ} : 0 < need →
      Ins pos fill invalid last need ρ nil (path fill (ρ.take need) last)
  | new {need : ℕ} {k : κ} {ρ : List κ} {A B : Trie κ V} : 0 < need → A.append B ≠ nil →
      (∀ a ∈ A.keys, pos a ≤ pos k) → (∀ b ∈ B.keys, pos k ≤ pos b) →
      ((A.append B).keys.Pairwise (fun a b => pos a < pos b) → k ∉ (A.append B).keys) →
      Ins pos fill invalid last need (k :: ρ) (A.append B)
        (A.append (cons k (if need = 1 then last else invalid)
          (path fill (ρ.take (need - 1)) last) B))
  | here {need : ℕ} {k : κ} {ρ : List κ} {A next B : Trie κ V} {v : V} : need ≤ 1 →
      (next.keys.Pairwise (fun a b => pos a < pos b) → ∀ k' ∈ ρ.head?, k' ∉ next.keys) →
      Ins pos fill invalid last need (k :: ρ) (A.append (cons k v next B))
        (A.append (cons k last next B))
  | down {need : ℕ} {k : κ} {ρ : List κ} {A next next' B : Trie κ V} {v : V} :
      Ins pos fill invalid last (need - 1) ρ next next' →
      Ins pos fill invalid last need (k :: ρ) (A.append (cons k v next B))
        (A.append (cons k v next' B))

theorem Ins.ne_nil {need : ℕ} {ρ : List κ} {t t' : Trie κ V}
    (h : Ins pos fill invalid last need ρ t t') (hρ : ρ ≠ []) : t' ≠ nil := by
  cases h with
  | first hneed =>
      obtain ⟨k, ρ, rfl⟩ := List.exists_cons_of_ne_nil hρ
      obtain ⟨n, rfl⟩ : ∃ n, need = n + 1 := ⟨need - 1, by omega⟩
      simp [path]
  | new => exact fun hnil => absurd (append_eq_nil hnil).2 (by simp)
  | here => exact fun hnil => absurd (append_eq_nil hnil).2 (by simp)
  | down => exact fun hnil => absurd (append_eq_nil hnil).2 (by simp)

/-! ## Keys that stay apart -/

section Fits

variable {before : κ → κ → Prop}

/-- At the first key at which the two sequences differ, one is before the other. -/
def Compatible (before : κ → κ → Prop) : List κ → List κ → Prop
  | [], _ => True
  | _ :: _, [] => True
  | a :: π, b :: ρ => a = b ∧ Compatible before π ρ ∨ before a b ∨ before b a

/-- The sequence is compatible with everything the trie stores. -/
def Fits (before : κ → κ → Prop) : List κ → Trie κ V → Prop
  | _, nil => True
  | [], cons .. => True
  | k :: ks, cons a _ next rest =>
      (a = k ∧ next.Fits before ks ∨ before a k ∨ before k a) ∧ rest.Fits before (k :: ks)

/-- It is enough to look at the first position at which the sequences differ. -/
theorem compatible_of_getElem? {π ρ : List κ}
    (h : ∀ i a b, π[i]? = some a → ρ[i]? = some b → π.take i = ρ.take i →
      a = b ∨ before a b ∨ before b a) : Compatible before π ρ := by
  induction π generalizing ρ with
  | nil => trivial
  | cons a π ih =>
      cases ρ with
      | nil => trivial
      | cons b ρ =>
          rcases h 0 a b rfl rfl rfl with rfl | hab
          · refine .inl ⟨rfl, ih fun i x y hx hy ht => ?_⟩
            exact h (i + 1) x y (by simpa using hx) (by simpa using hy) (by simpa using ht)
          · exact .inr hab

theorem Compatible.nil_right (π : List κ) : Compatible before π [] := by
  cases π <;> trivial

theorem Compatible.symm {π ρ : List κ} (h : Compatible before π ρ) : Compatible before ρ π := by
  induction π generalizing ρ with
  | nil => exact .nil_right ρ
  | cons a π ih =>
      cases ρ with
      | nil => trivial
      | cons b ρ =>
          rcases h with ⟨rfl, h⟩ | h | h
          · exact .inl ⟨rfl, ih h⟩
          · exact .inr (.inr h)
          · exact .inr (.inl h)

theorem Compatible.mono_left {π π' ρ : List κ} (h : Compatible before π ρ) (hp : π' <+: π) :
    Compatible before π' ρ := by
  induction π' generalizing π ρ with
  | nil => trivial
  | cons a π' ih =>
      obtain ⟨π, rfl⟩ := hp
      cases ρ with
      | nil => trivial
      | cons b ρ =>
          rcases h with ⟨rfl, h⟩ | h | h
          · exact .inl ⟨rfl, ih h (List.prefix_append _ _)⟩
          · exact .inr (.inl h)
          · exact .inr (.inr h)

theorem Fits.append {ks : List κ} {A B : Trie κ V} (h : (A.append B).Fits before ks) :
    A.Fits before ks ∧ B.Fits before ks := by
  induction A with
  | nil => exact ⟨by cases ks <;> trivial, h⟩
  | cons a v next rest _ ih =>
      cases ks with
      | nil => exact ⟨trivial, by cases B <;> trivial⟩
      | cons k ks =>
          obtain ⟨ha, hrest⟩ := h
          obtain ⟨hr, hB⟩ := ih hrest
          exact ⟨⟨ha, hr⟩, hB⟩

theorem Fits.key {k : κ} {ks : List κ} {t : Trie κ V} (h : t.Fits before (k :: ks)) :
    ∀ a ∈ t.keys, a = k ∨ before a k ∨ before k a := by
  induction t with
  | nil => simp
  | cons a v next rest _ ih =>
      intro c hc
      rcases List.mem_cons.mp hc with rfl | hc
      · exact h.1.imp And.left id
      · exact ih h.2 c hc

theorem separated_path (fill last : V) (ks : List κ) :
    (path fill ks last).Separated before := by
  induction ks with
  | nil => trivial
  | cons k ks ih => exact ⟨by simp, ih, trivial⟩

/-- Storing a sequence of keys that stay apart from those that are stored already
keeps the trie separated. -/
theorem Ins.separated (hpos : ∀ a b, before a b → pos a < pos b) {need : ℕ} {ρ : List κ}
    {t t' : Trie κ V} (h : Ins pos fill invalid last need ρ t t') (ht : t.Separated before)
    (hf : t.Fits before (ρ.take need)) : t'.Separated before := by
  induction h with
  | first _ => exact separated_path _ _ _
  | @new need k ρ A B hneed _ hA hB hk =>
      obtain ⟨htA, htB, hAB⟩ := separated_append.mp ht
      have hnot : k ∉ A.keys ++ B.keys := by
        simpa using hk (ht.pairwise.imp fun {a b} => hpos a b)
      obtain ⟨hkA, hkB⟩ : k ∉ A.keys ∧ k ∉ B.keys := by simpa using hnot
      rw [show need = (need - 1) + 1 by omega, List.take_succ_cons] at hf
      obtain ⟨hfA, hfB⟩ := hf.append
      refine separated_append.mpr ⟨htA, ⟨fun b hb => ?_, separated_path _ _ _, htB⟩, ?_⟩
      · rcases hfB.key b hb with rfl | hlt | hlt
        · exact absurd hb hkB
        · exact absurd (hB b hb) (Nat.not_le.mpr (hpos _ _ hlt))
        · exact hlt
      · intro a ha b hb
        rcases List.mem_cons.mp hb with rfl | hb
        · rcases hfA.key a ha with rfl | hlt | hlt
          · exact absurd ha hkA
          · exact hlt
          · exact absurd (hA a ha) (Nat.not_le.mpr (hpos _ _ hlt))
        · exact hAB a ha b hb
  | here => simpa [separated_append, Separated] using ht
  | @down need k ρ A next next' B v _ ih =>
      obtain ⟨htA, ⟨hkB, htn, htB⟩, hAk⟩ := separated_append.mp ht
      have hfn : next.Fits before (ρ.take (need - 1)) := by
        cases need with
        | zero => cases next <;> trivial
        | succ need =>
            rcases hf.append.2.1 with ⟨-, h⟩ | h | h
            · exact h
            · exact absurd (hpos _ _ h) (lt_irrefl _)
            · exact absurd (hpos _ _ h) (lt_irrefl _)
      exact separated_append.mpr ⟨htA, ⟨hkB, ih htn hfn, htB⟩, hAk⟩

end Fits

/-! ## What is stored afterwards -/

section Lookup

variable [DecidableEq κ] {before : κ → κ → Prop}

theorem lookup_path (fill last : V) (ks π : List κ) (hks : ks ≠ []) :
    (path fill ks last).lookup π =
      if π = ks then some last else if π ≠ [] ∧ π <+: ks then some fill else none := by
  induction ks generalizing π with
  | nil => exact absurd rfl hks
  | cons k ks ih =>
      cases π with
      | nil => simp
      | cons a π =>
          rw [path, lookup_cons]
          by_cases hak : a = k
          · subst hak
            by_cases hks' : ks = []
            · subst hks'
              by_cases hπ : π = []
              · simp [hπ]
              · have hnot : ¬ a :: π <+: [a] := by simpa [List.cons_prefix_cons] using hπ
                simp [hπ, path]
            · by_cases hπ : π = []
              · subst hπ
                simp [hks', Ne.symm hks']
              · simp [hπ, ih π hks', List.cons_prefix_cons]
          · have hnot : ¬ a :: π <+: k :: ks := by
              simp [List.cons_prefix_cons, hak]
            simp [hak, hnot]

/-- In a separated layer a key is found where it stands. -/
theorem lookup_at {A next B : Trie κ V} {k : κ} {v : V} {ks : List κ} (hk : k ∉ A.keys) :
    (A.append (cons k v next B)).lookup (k :: ks) =
      if ks = [] then some v else next.lookup ks := by
  rw [lookup_append_of_notMem hk, lookup_cons, if_pos rfl]

/-- What is stored under another key of the layer does not depend on this one. -/
theorem lookup_beside {A next B : Trie κ V} {k a : κ} {v : V} {ks : List κ}
    (ha : a ≠ k) :
    (A.append (cons k v next B)).lookup (a :: ks) = (A.append B).lookup (a :: ks) := by
  by_cases haA : a ∈ A.keys
  · rw [lookup_append_of_mem haA, lookup_append_of_mem haA]
  · rw [lookup_append_of_notMem haA, lookup_append_of_notMem haA, lookup_cons, if_neg ha]

/-- What an insertion under `ks` changes: the value under `ks` and under the interior
keys of a new path. -/
structure Stored (fill invalid last : V) (ks : List κ) (t t' : Trie κ V) : Prop where
  self : t'.lookup ks = some last
  old : ∀ π w, π ≠ ks → t.lookup π = some w → t'.lookup π = some w
  beside : ∀ π, ¬ π <+: ks → t'.lookup π = t.lookup π
  interior : ∀ π, π ≠ [] → π <+: ks → π ≠ ks → t.lookup π = none →
    t'.lookup π = some fill ∨ t'.lookup π = some invalid

theorem stored_path (fill invalid last : V) {ks : List κ} (hks : ks ≠ []) :
    Stored fill invalid last ks nil (path fill ks last) where
  self := by simp [lookup_path _ _ _ _ hks]
  old := by simp
  beside := by
    intro π hp
    have hne : π ≠ ks := fun h => hp (h ▸ List.prefix_refl _)
    simp [lookup_path _ _ _ _ hks, hne, hp]
  interior := by
    intro π hπ hp hne _
    simp [lookup_path _ _ _ _ hks, hne, hp, hπ]

/-- An insertion into the layer below a key. -/
theorem Stored.down {A next next' B : Trie κ V} {k : κ} {v : V} {ks : List κ} (hkA : k ∉ A.keys)
    (hks : ks ≠ []) (h : Stored fill invalid last ks next next') :
    Stored fill invalid last (k :: ks) (A.append (cons k v next B))
      (A.append (cons k v next' B)) where
  self := by rw [lookup_at hkA, if_neg hks, h.self]
  old := by
    intro π w hne hl
    cases π with
    | nil => simp at hl
    | cons a π =>
        by_cases hak : a = k
        · subst hak
          rw [lookup_at hkA] at hl ⊢
          by_cases hπ : π = []
          · simpa [hπ] using hl
          · rw [if_neg hπ] at hl ⊢
            exact h.old π w (fun he => hne (by rw [he])) hl
        · rwa [lookup_beside hak] at hl ⊢
  beside := by
    intro π hp
    cases π with
    | nil => simp at hp
    | cons a π =>
        by_cases hak : a = k
        · subst hak
          rw [lookup_at hkA, lookup_at hkA]
          by_cases hπ : π = []
          · simp [hπ]
          · rw [if_neg hπ, if_neg hπ]
            exact h.beside π fun hp' => hp (List.cons_prefix_cons.mpr ⟨rfl, hp'⟩)
        · rw [lookup_beside hak, lookup_beside hak]
  interior := by
    intro π _ hp hne hl
    cases π with
    | nil => contradiction
    | cons a π =>
        obtain ⟨rfl, hp'⟩ := List.cons_prefix_cons.mp hp
        rw [lookup_at hkA] at hl ⊢
        by_cases hπ : π = []
        · simp [hπ] at hl
        · rw [if_neg hπ] at hl ⊢
          exact h.interior π hπ hp' (fun he => hne (by rw [he])) hl

/-- A new key in a layer, with a path below it. -/
theorem stored_new {A B : Trie κ V} {k : κ} {ks : List κ} (hk : k ∉ (A.append B).keys) :
    Stored fill invalid last (k :: ks) (A.append B)
      (A.append (cons k (if ks = [] then last else invalid) (path fill ks last) B)) := by
  have hkA : k ∉ A.keys := fun h => hk (by simp [h])
  refine ⟨?_, ?_, ?_, ?_⟩
  · rw [lookup_at hkA]
    by_cases hks : ks = []
    · simp [hks]
    · rw [if_neg hks, (stored_path fill invalid last hks).self]
  · intro π w _ hl
    cases π with
    | nil => simp at hl
    | cons a π =>
        have hak : a ≠ k := by
          rintro rfl
          exact hk (mem_keys_of_lookup hl)
        rwa [lookup_beside hak]
  · intro π hp
    cases π with
    | nil => simp at hp
    | cons a π =>
        by_cases hak : a = k
        · subst hak
          have hp' : ¬ π <+: ks := fun h => hp (List.cons_prefix_cons.mpr ⟨rfl, h⟩)
          have hπ : π ≠ [] := by
            rintro rfl
            exact hp' List.nil_prefix
          rw [lookup_at hkA, if_neg hπ, lookup_eq_none_of_notMem hk]
          by_cases hks : ks = []
          · simp [hks, path]
          · rw [(stored_path fill invalid last hks).beside π hp', lookup_nil]
        · rw [lookup_beside hak]
  · intro π _ hp hne hl
    cases π with
    | nil => contradiction
    | cons a π =>
        obtain ⟨rfl, hp'⟩ := List.cons_prefix_cons.mp hp
        have hπks : π ≠ ks := fun h => hne (by rw [h])
        have hks : ks ≠ [] := by
          rintro rfl
          exact hπks (List.prefix_nil.mp hp')
        rw [lookup_at hkA]
        by_cases hπ : π = []
        · simp [hπ, hks]
        · rw [if_neg hπ]
          exact (stored_path fill invalid last hks).interior π hπ hp' hπks (by simp)

/-- An insertion stores the value under the first `n` keys, where `n` is `need` unless
more of the sequence is there already. -/
theorem Ins.stored (hpos : ∀ a b, before a b → pos a < pos b) {need : ℕ} {ρ : List κ}
    {t t' : Trie κ V} (h : Ins pos fill invalid last need ρ t t') (ht : t.Separated before)
    (hneed : need ≤ ρ.length) :
    ∃ n, need ≤ n ∧ 0 < n ∧ n ≤ ρ.length ∧ (n = need ∨ ∃ w, t.lookup (ρ.take n) = some w) ∧
      (∀ m, n < m → m ≤ ρ.length → t.lookup (ρ.take m) = none) ∧
      Stored fill invalid last (ρ.take n) t t' := by
  induction h with
  | @first need ρ h0 =>
      refine ⟨need, le_rfl, h0, hneed, .inl rfl, by simp, stored_path _ _ _ ?_⟩
      intro hnil
      have := congrArg List.length hnil
      simp only [List.length_take, List.length_nil] at this
      omega
  | @new need k ρ A B h0 _ _ _ hk =>
      have hnot : k ∉ (A.append B).keys := hk (ht.pairwise.imp fun {a b} => hpos a b)
      obtain ⟨m, rfl⟩ : ∃ m, need = m + 1 := ⟨need - 1, by omega⟩
      refine ⟨m + 1, le_rfl, h0, hneed, .inl rfl, ?_, ?_⟩
      · intro l hl _
        obtain ⟨l, rfl⟩ : ∃ l', l = l' + 1 := ⟨l - 1, by omega⟩
        rw [List.take_succ_cons, lookup_eq_none_of_notMem hnot]
      · have hnil : (m + 1 = 1) ↔ ρ.take m = [] := by
          rw [← List.length_eq_zero_iff, List.length_take]
          simp only [List.length_cons] at hneed
          omega
        have hif : (if m + 1 = 1 then last else invalid) =
            if ρ.take m = [] then last else invalid := if_congr hnil rfl rfl
        rw [List.take_succ_cons, hif, Nat.add_sub_cancel]
        exact stored_new hnot
  | @here need k ρ A next B v hle hstop =>
      obtain ⟨-, ⟨-, htn, -⟩, hAk⟩ := separated_append.mp ht
      have hkA : k ∉ A.keys := fun h => absurd (hpos _ _ (hAk k h k (by simp))) (lt_irrefl _)
      refine ⟨1, hle, by omega, by simp, ?_, ?_, ?_⟩
      · rcases Nat.lt_or_ge need 1 with h | h
        · refine .inr ⟨v, ?_⟩
          rw [List.take_succ_cons, List.take_zero, lookup_at hkA, if_pos rfl]
        · exact .inl (by omega)
      · intro m hm hmle
        obtain ⟨m, rfl⟩ : ∃ m', m = m' + 2 := ⟨m - 2, by omega⟩
        cases ρ with
        | nil => simp at hmle
        | cons k' ρ =>
            have hk' := hstop (htn.pairwise.imp fun {a b} => hpos a b) k' (by simp)
            rw [List.take_succ_cons, List.take_succ_cons, lookup_at hkA, if_neg (by simp),
              lookup_eq_none_of_notMem hk']
      · rw [List.take_succ_cons, List.take_zero]
        refine ⟨by rw [lookup_at hkA, if_pos rfl], ?_, ?_, ?_⟩
        · intro π w hne hl
          cases π with
          | nil => simp at hl
          | cons a π =>
              by_cases hak : a = k
              · subst hak
                have hπ : π ≠ [] := fun h => hne (by rw [h])
                rw [lookup_at hkA, if_neg hπ] at hl ⊢
                exact hl
              · rwa [lookup_beside hak] at hl ⊢
        · intro π hp
          cases π with
          | nil => simp at hp
          | cons a π =>
              by_cases hak : a = k
              · subst hak
                have hπ : π ≠ [] := by
                  rintro rfl
                  exact hp (List.prefix_refl _)
                rw [lookup_at hkA, lookup_at hkA, if_neg hπ, if_neg hπ]
              · rw [lookup_beside hak, lookup_beside hak]
        · intro π hπ hp hne _
          cases π with
          | nil => contradiction
          | cons a π =>
              obtain ⟨rfl, hp'⟩ := List.cons_prefix_cons.mp hp
              rw [List.prefix_nil.mp hp'] at hne
              exact absurd rfl hne
  | @down need k ρ A next next' B v hins ih =>
      obtain ⟨-, ⟨-, htn, -⟩, hAk⟩ := separated_append.mp ht
      have hkA : k ∉ A.keys := fun h => absurd (hpos _ _ (hAk k h k (by simp))) (lt_irrefl _)
      simp only [List.length_cons] at hneed
      obtain ⟨n, hn, hn0, hnle, hsrc, hmax, hst⟩ := ih htn (by omega)
      have hne : ∀ m, 0 < m → m ≤ ρ.length → ρ.take m ≠ [] := by
        intro m hm hmle hnil
        have := congrArg List.length hnil
        simp only [List.length_take, List.length_nil] at this
        omega
      refine ⟨n + 1, by omega, by omega, by simpa using hnle, ?_, ?_, ?_⟩
      · rw [List.take_succ_cons, lookup_at hkA, if_neg (hne n hn0 hnle)]
        rcases hsrc with rfl | hw
        · rcases Nat.eq_zero_or_pos need with rfl | hpos'
          · omega
          · exact .inl (by omega)
        · exact .inr hw
      · intro m hm hmle
        obtain ⟨m, rfl⟩ : ∃ m', m = m' + 1 := ⟨m - 1, by omega⟩
        simp only [List.length_cons] at hmle
        rw [List.take_succ_cons, lookup_at hkA, if_neg (hne m (by omega) (by omega)),
          hmax m (by omega) (by omega)]
      · rw [List.take_succ_cons]
        exact hst.down hkA (hne n hn0 hnle)

/-- A trie all of whose sequences are compatible with `ks` has room for it. -/
theorem fits_of_compatible (hpos : ∀ a b, before a b → pos a < pos b) {t : Trie κ V}
    (ht : t.Separated before) {ks : List κ}
    (h : ∀ π w, t.lookup π = some w → Compatible before π ks) : t.Fits before ks := by
  induction t generalizing ks with
  | nil => cases ks <;> trivial
  | cons a v next rest ihn ihr =>
      obtain ⟨ha, hn, hr⟩ := ht
      cases ks with
      | nil => trivial
      | cons k ks =>
          refine ⟨?_, ihr hr fun π w hl => h π w ?_⟩
          · by_cases hak : a = k
            · subst hak
              refine .inl ⟨rfl, ihn hn fun π w hl => ?_⟩
              have hne : π ≠ [] := by
                rintro rfl
                simp at hl
              rcases h (a :: π) w (by simp [lookup_cons, hne, hl]) with ⟨-, h⟩ | h | h
              · exact h
              · exact absurd (hpos _ _ h) (lt_irrefl _)
              · exact absurd (hpos _ _ h) (lt_irrefl _)
            · rcases h [a] v (by simp [lookup_cons]) with ⟨h, -⟩ | h
              · exact absurd h hak
              · exact .inr h
          · cases π with
            | nil => simp at hl
            | cons c π =>
                have hca : c ≠ a := by
                  rintro rfl
                  exact absurd (hpos _ _ (ha c (mem_keys_of_lookup hl))) (lt_irrefl _)
                rw [lookup_cons, if_neg hca]
                exact hl

end Lookup

/-! ## The sequence of the insertions -/

section Represents

variable [DecidableEq κ] {before : κ → κ → Prop} {valid : V → Bool}

/-- The value stored last under a sequence of keys. -/
def lastValue (rs : List (List κ × V)) (π : List κ) : Option V :=
  ((rs.filter fun r => r.1 = π).getLast?).map Prod.snd

theorem lastValue_concat (rs : List (List κ × V)) (ks π : List κ) (w : V) :
    lastValue (rs ++ [(ks, w)]) π = if π = ks then some w else lastValue rs π := by
  by_cases h : π = ks
  · simp [lastValue, h]
  · simp [lastValue, h, Ne.symm h]

theorem exists_of_lastValue {rs : List (List κ × V)} {π : List κ} {w : V}
    (h : lastValue rs π = some w) : (π, w) ∈ rs := by
  unfold lastValue at h
  obtain ⟨r, hr, rfl⟩ := Option.map_eq_some_iff.mp h
  have := List.mem_of_getLast? hr
  simp only [List.mem_filter, decide_eq_true_eq] at this
  obtain ⟨hmem, rfl⟩ := this
  exact hmem

theorem lastValue_isSome {rs : List (List κ × V)} {r : List κ × V} (h : r ∈ rs) :
    ∃ w, lastValue rs r.1 = some w := by
  have hmem : r ∈ rs.filter fun s => s.1 = r.1 := by simp [h]
  have hne : rs.filter (fun s => s.1 = r.1) ≠ [] := List.ne_nil_of_mem hmem
  refine ⟨((rs.filter fun s => s.1 = r.1).getLast hne).2, ?_⟩
  rw [lastValue, List.getLast?_eq_getLast_of_ne_nil hne, Option.map_some]

/-- The trie stores nothing but beginnings of the sequences `rs`, of which `need` says how
many keys are needed to tell them from the others. -/
structure Covers (before : κ → κ → Prop) (need : List κ → ℕ) (rs : List (List κ))
    (t : Trie κ V) : Prop where
  separated : t.Separated before
  covered : ∀ π w, t.lookup π = some w → ∃ ρ ∈ rs, π <+: ρ.take (need ρ)

theorem covers_nil {need : List κ → ℕ} : Covers before need [] (nil : Trie κ V) where
  separated := trivial
  covered := by simp

/-- The trie is what the insertions `rs` make, of sequences of which `need` says how
many keys are needed to tell them from the others. -/
structure Represents (before : κ → κ → Prop) (valid : V → Bool) (need : List κ → ℕ)
    (rs : List (List κ × V)) (t : Trie κ V) : Prop where
  separated : t.Separated before
  covered : ∀ π w, t.lookup π = some w → ∃ r ∈ rs, π <+: r.1.take (need r.1)
  of_valid : ∀ π w, t.lookup π = some w → valid w = true →
    ∃ r ∈ rs, π <+: r.1 ∧ need r.1 ≤ π.length
  of_last : ∀ ρ w, lastValue rs ρ = some w → ∃ n, need ρ ≤ n ∧ n ≤ ρ.length ∧
    t.lookup (ρ.take n) = some w ∧
      ∀ m w', n < m → m ≤ ρ.length → t.lookup (ρ.take m) = some w' → valid w' = false

variable {need : List κ → ℕ}

theorem represents_nil : Represents before valid need [] (nil : Trie κ V) where
  separated := trivial
  covered := by simp
  of_valid := by simp
  of_last := by simp [lastValue]

/-- What leads to a stored sequence is stored as well. -/
theorem lookup_ne_none_of_isPrefix {t : Trie κ V} {π ks : List κ} {w : V}
    (h : t.lookup ks = some w) (hp : π <+: ks) (hπ : π ≠ []) : t.lookup π ≠ none := by
  induction t generalizing π ks with
  | nil => simp at h
  | cons a v next rest ihn ihr =>
      cases π with
      | nil => contradiction
      | cons k π =>
          obtain ⟨ks, rfl⟩ := hp
          rw [List.cons_append, lookup_cons] at h
          rw [lookup_cons]
          by_cases hka : k = a
          · rw [if_pos hka] at h ⊢
            by_cases hπ' : π = []
            · simp [hπ']
            · rw [if_neg hπ']
              rw [if_neg (by simp [hπ'])] at h
              exact ihn h (List.prefix_append _ _) hπ'
          · rw [if_neg hka] at h ⊢
            exact ihr h (by simp) (by simp)

/-- One more sequence, which is compatible with all the earlier ones. -/
theorem Covers.insert (hpos : ∀ a b, before a b → pos a < pos b) {rs : List (List κ)}
    {t t' : Trie κ V} {ρ : List κ} (hc : Covers before need rs t) (hneed : need ρ ≤ ρ.length)
    (hcomp : ∀ σ ∈ rs, Compatible before (σ.take (need σ)) (ρ.take (need ρ)))
    (h : Ins pos fill invalid last (need ρ) ρ t t') : Covers before need (rs ++ [ρ]) t' := by
  have hfits : t.Fits before (ρ.take (need ρ)) := by
    refine fits_of_compatible hpos hc.separated fun π w hl => ?_
    obtain ⟨σ, hmem, hp⟩ := hc.covered π w hl
    exact (hcomp σ hmem).mono_left hp
  obtain ⟨n, -, -, -, hsrc, -, hst⟩ := h.stored hpos hc.separated hneed
  refine ⟨h.separated hpos hc.separated hfits, fun π w hl => ?_⟩
  by_cases hold : t.lookup π = none
  · refine ⟨ρ, by simp, ?_⟩
    have hp : π <+: ρ.take n := by
      by_contra hnp
      rw [hst.beside π hnp, hold] at hl
      cases hl
    rcases hsrc with rfl | ⟨w', hw'⟩
    · exact hp
    · have hπ : π ≠ [] := by
        rintro rfl
        simp at hl
      exact absurd hold (lookup_ne_none_of_isPrefix hw' hp hπ)
  · obtain ⟨w', hw'⟩ := Option.ne_none_iff_exists'.mp hold
    obtain ⟨σ, hmem, hp⟩ := hc.covered π w' hw'
    exact ⟨σ, by simp [hmem], hp⟩

theorem Represents.covers {rs : List (List κ × V)} {t : Trie κ V}
    (hr : Represents before valid need rs t) : Covers before need (rs.map Prod.fst) t where
  separated := hr.separated
  covered := fun π w hl => by
    obtain ⟨r, hmem, hp⟩ := hr.covered π w hl
    exact ⟨r.1, List.mem_map_of_mem hmem, hp⟩

/-- What is stored now was stored before or lies on the way to the new value. -/
theorem Stored.cases {ks : List κ} {t t' : Trie κ V} (h : Stored fill invalid last ks t t')
    (hfill : valid fill = false) (hinvalid : valid invalid = false) {π : List κ} {w : V}
    (hl : t'.lookup π = some w) (hne : π ≠ ks) :
    t.lookup π = some w ∨ (t.lookup π = none ∧ π <+: ks ∧ valid w = false) := by
  cases hlt : t.lookup π with
  | some w' =>
      rw [h.old π w' hne hlt] at hl
      exact .inl (by rw [← hl])
  | none =>
      have hp : π <+: ks := by
        by_contra hnp
        rw [h.beside π hnp, hlt] at hl
        cases hl
      have hπ : π ≠ [] := by
        rintro rfl
        simp at hl
      rcases h.interior π hπ hp hne hlt with h' | h' <;>
        · rw [h'] at hl
          obtain rfl := Option.some.inj hl
          exact .inr ⟨rfl, hp, ‹_›⟩

omit [DecidableEq κ] in
/-- Sequences that are told apart do not share a place. -/
theorem take_ne_take {rs : List (List κ × V)} {ρ : List κ} {n : ℕ}
    (hpad : ∀ r ∈ rs, ∀ n, need r.1 ≤ n → need ρ ≤ n → r.1.take n = ρ.take n → r.1 = ρ)
    (hlen : ∀ r ∈ rs, r.1.length = ρ.length) (hnle : n ≤ ρ.length) (hn : need ρ ≤ n)
    {r : List κ × V} (hr : r ∈ rs) (hne : r.1 ≠ ρ) {m : ℕ} (hm : need r.1 ≤ m)
    (hmle : m ≤ r.1.length) : r.1.take m ≠ ρ.take n := by
  intro heq
  have hmn : m = n := by
    have := congrArg List.length heq
    simp only [List.length_take, hlen r hr] at this hmle
    omega
  subst hmn
  exact hne (hpad r hr m hm hn heq)

/-- One more insertion, of a sequence that is compatible with all the earlier ones. -/
theorem Represents.insert (hpos : ∀ a b, before a b → pos a < pos b)
    (hfill : valid fill = false) (hinvalid : valid invalid = false)
    {rs : List (List κ × V)} {t t' : Trie κ V} {ρ : List κ}
    (hr : Represents before valid need rs t) (hneed : need ρ ≤ ρ.length)
    (hpad : ∀ r ∈ rs, ∀ n, need r.1 ≤ n → need ρ ≤ n → r.1.take n = ρ.take n → r.1 = ρ)
    (hlen : ∀ r ∈ rs, r.1.length = ρ.length)
    (hcomp : ∀ r ∈ rs, Compatible before (r.1.take (need r.1)) (ρ.take (need ρ)))
    (h : Ins pos fill invalid last (need ρ) ρ t t') :
    Represents before valid need (rs ++ [(ρ, last)]) t' := by
  have hcovers : Covers before need (rs.map Prod.fst ++ [ρ]) t' := by
    refine hr.covers.insert hpos hneed (fun σ hσ => ?_) h
    obtain ⟨r, hmem, rfl⟩ := List.mem_map.mp hσ
    exact hcomp r hmem
  obtain ⟨n, hn, hn0, hnle, hsrc, hmax, hst⟩ := h.stored hpos hr.separated hneed
  have hcase := fun π w => hst.cases hfill hinvalid (π := π) (w := w)
  have hother := fun r hmem hne m hm hmle =>
    take_ne_take hpad hlen hnle hn (r := r) hmem hne (m := m) hm hmle
  refine ⟨hcovers.separated, fun π w hl => ?_, fun π w hl hw => ?_, fun σ w hσ => ?_⟩
  · obtain ⟨σ, hσ, hp⟩ := hcovers.covered π w hl
    rcases List.mem_append.mp hσ with hσ | hσ
    · obtain ⟨r, hmem, rfl⟩ := List.mem_map.mp hσ
      exact ⟨r, by simp [hmem], hp⟩
    · obtain rfl : σ = ρ := by simpa using hσ
      exact ⟨(σ, last), by simp, hp⟩
  · by_cases heq : π = ρ.take n
    · refine ⟨(ρ, last), by simp, heq ▸ List.take_prefix _ _, ?_⟩
      rw [heq, List.length_take]
      simp only
      omega
    · rcases hcase π w hl heq with hl' | ⟨-, -, hinv⟩
      · obtain ⟨r, hmem, h₁, h₂⟩ := hr.of_valid π w hl' hw
        exact ⟨r, by simp [hmem], h₁, h₂⟩
      · rw [hw] at hinv
        cases hinv
  · rw [lastValue_concat] at hσ
    by_cases hσρ : σ = ρ
    · subst hσρ
      rw [if_pos rfl] at hσ
      obtain rfl := Option.some.inj hσ
      refine ⟨n, hn, hnle, hst.self, fun m w' hm hmle hl => ?_⟩
      have hnp : ¬ σ.take m <+: σ.take n := by
        intro hp
        have := hp.length_le
        simp only [List.length_take] at this
        omega
      rw [hst.beside _ hnp, hmax m hm hmle] at hl
      cases hl
    · rw [if_neg hσρ] at hσ
      obtain ⟨r, hmem, rfl⟩ : ∃ r ∈ rs, r.1 = σ := ⟨_, exists_of_lastValue hσ, rfl⟩
      obtain ⟨n', hn', hn'le, hl, hlast⟩ := hr.of_last _ w hσ
      refine ⟨n', hn', hn'le, hst.old _ w (hother r hmem hσρ n' hn' hn'le) hl,
        fun m w' hm hmle hl' => ?_⟩
      rcases hcase _ w' hl' (hother r hmem hσρ m (by omega) hmle) with h' | ⟨-, -, h'⟩
      · exact hlast m w' hm hmle h'
      · exact h'

/-- A value that is stored under a sequence before the last one does not count. -/
theorem lastValue_replace (rs : List (List κ × V)) (ks : List κ) (w : V) (π : List κ) :
    lastValue (rs.filter (fun r => r.1 ≠ ks) ++ [(ks, w)]) π = lastValue (rs ++ [(ks, w)]) π := by
  rw [lastValue_concat, lastValue_concat]
  by_cases h : π = ks
  · rw [if_pos h, if_pos h]
  · rw [if_neg h, if_neg h, lastValue, lastValue, List.filter_filter]
    congr 2
    refine List.filter_congr fun r _ => ?_
    by_cases hr : r.1 = π
    · simp [hr, h]
    · simp [hr]

/-- Only the last value under each sequence counts. -/
theorem Represents.of_lastValue {rs rs' : List (List κ × V)} {t : Trie κ V}
    (hr : Represents before valid need rs t) (hlast : ∀ ρ, lastValue rs' ρ = lastValue rs ρ) :
    Represents before valid need rs' t := by
  have hmem : ∀ r ∈ rs, ∃ r' ∈ rs', r'.1 = r.1 := by
    intro r hr
    obtain ⟨w, hw⟩ := lastValue_isSome hr
    exact ⟨_, exists_of_lastValue ((hlast r.1).trans hw), rfl⟩
  refine ⟨hr.separated, fun π w hl => ?_, fun π w hl hw => ?_, fun ρ w hρ => ?_⟩
  · obtain ⟨r, hrs, hp⟩ := hr.covered π w hl
    obtain ⟨r', hrs', heq⟩ := hmem r hrs
    exact ⟨r', hrs', heq ▸ hp⟩
  · obtain ⟨r, hrs, hp⟩ := hr.of_valid π w hl hw
    obtain ⟨r', hrs', heq⟩ := hmem r hrs
    exact ⟨r', hrs', heq ▸ hp⟩
  · exact hr.of_last ρ w ((hlast ρ).symm.trans hρ)

/-- A search yields the value stored last under the most specific sequence that is hit. -/
theorem Represents.search {hit : ℕ → κ → Bool}
    (hsep : ∀ l a b, before a b → hit l a = true → hit l b = false)
    {rs : List (List κ × V)} {t : Trie κ V} (hr : Represents before valid need rs t)
    (hvalid : ∀ r ∈ rs, valid r.2 = true) {lvl : ℕ}
    (hpad : ∀ r ∈ rs, ∀ π, π <+: r.1 → need r.1 ≤ π.length →
      (Hits hit lvl π ↔ Hits hit lvl r.1)) (res : V) :
    (t.search hit valid lvl res = res ∧ ∀ r ∈ rs, ¬ Hits hit lvl r.1) ∨
    ∃ r ∈ rs, Hits hit lvl r.1 ∧ lastValue rs r.1 = some (t.search hit valid lvl res) ∧
      ∀ r' ∈ rs, Hits hit lvl r'.1 → r'.1.take (need r'.1) <+: r.1 := by
  -- where the last value of a sequence that is hit is found
  have hstored : ∀ r ∈ rs, Hits hit lvl r.1 → ∃ n w, need r.1 ≤ n ∧ n ≤ r.1.length ∧
      lastValue rs r.1 = some w ∧ valid w = true ∧ t.lookup (r.1.take n) = some w ∧
      Hits hit lvl (r.1.take n) ∧
      ∀ m w', n < m → m ≤ r.1.length → t.lookup (r.1.take m) = some w' → valid w' = false := by
    intro r hmem hh
    obtain ⟨w, hw⟩ := lastValue_isSome hmem
    obtain ⟨n, hn, hnle, hl, hlast⟩ := hr.of_last _ w hw
    refine ⟨n, w, hn, hnle, hw, hvalid _ (exists_of_lastValue hw), hl, ?_, hlast⟩
    refine (hpad r hmem _ (List.take_prefix _ _) ?_).mpr hh
    rw [List.length_take]
    omega
  rcases search_spec hsep hr.separated lvl res with
    ⟨hres, hnone⟩ | ⟨π, w, hl, hw, hh, hres, hmax⟩
  · refine .inl ⟨hres, fun r hmem hhr => ?_⟩
    obtain ⟨n, w, -, -, -, hw, hl, hh, -⟩ := hstored r hmem hhr
    exact hnone _ _ hl hw hh
  · obtain ⟨r, hmem, hp, hlen⟩ := hr.of_valid π w hl hw
    have hhr := (hpad r hmem π hp hlen).mp hh
    refine .inr ⟨r, hmem, hhr, ?_, fun r' hmem' hhr' => ?_⟩
    · obtain ⟨n, w', hn, hnle, hlv, hw', hl', hh', hlast⟩ := hstored r hmem hhr
      have hnπ : n ≤ π.length := by
        have := (hmax _ _ hl' hw' hh').length_le
        rw [List.length_take] at this
        omega
      have hπ : r.1.take π.length = π := (List.prefix_iff_eq_take.mp hp).symm
      rcases Nat.eq_or_lt_of_le hnπ with rfl | hlt
      · rw [hπ, hl] at hl'
        rw [hlv, hres, ← Option.some.inj hl']
      · have := hlast π.length w hlt hp.length_le (by rw [hπ, hl])
        rw [hw] at this
        cases this
    · obtain ⟨n, w', hn, -, -, hw', hl', hh', -⟩ := hstored r' hmem' hhr'
      exact (List.take_prefix_take_left hn).trans ((hmax _ _ hl' hw' hh').trans hp)

end Represents

end Trie

end Pcv
