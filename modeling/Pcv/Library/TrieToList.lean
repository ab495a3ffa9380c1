import Pcv.Library.TrieInsert
import Mathlib.Data.List.Nodup

/-!
# The list of what a trie stores

`toList` lists the sequences with a valid value.  In a separated trie each of them
is listed once.

A trie that was made by insertions of pairwise different sequences keeps each of
them at one place (`Once`), so its list is the list of the insertions, up to the
order and up to the keys a sequence was cut off at.
-/

namespace Pcv

universe u v w

namespace Trie

variable {κ : Type u} {V : Type v} {β : Type w} {valid : V → Bool}

/-- The sequences with a valid value, and their values. -/
def toList (valid : V → Bool) : Trie κ V → List (List κ × V)
  | nil => []
  | cons k v next rest =>
      (if valid v then [([k], v)] else []) ++
        (next.toList valid).map (fun e => (k :: e.1, e.2)) ++ rest.toList valid

theorem ne_nil_of_mem_toList {t : Trie κ V} {e : List κ × V} (h : e ∈ t.toList valid) :
    e.1 ≠ [] := by
  induction t with
  | nil => simp [toList] at h
  | cons k v next rest _ ih =>
      simp only [toList, List.mem_append, List.mem_map] at h
      rcases h with (h | ⟨e, -, rfl⟩) | h
      · split at h
        · obtain rfl := List.mem_singleton.mp h
          simp
        · simp at h
      · simp
      · exact ih h

/-- What is listed is valid. -/
theorem valid_of_mem_toList {t : Trie κ V} {e : List κ × V} (h : e ∈ t.toList valid) :
    valid e.2 = true := by
  induction t generalizing e with
  | nil => simp [toList] at h
  | cons k v next rest ihn ihr =>
      simp only [toList, List.mem_append, List.mem_map] at h
      rcases h with (h | ⟨e, he, rfl⟩) | h
      · split at h
        · next hv => rwa [List.mem_singleton.mp h]
        · simp at h
      · have hv : valid e.2 = true := ihn he
        exact hv
      · exact ihr h

/-- A listed sequence begins with a key of the layer. -/
theorem head_mem_keys {t : Trie κ V} {k : κ} {ks : List κ} {w : V}
    (h : (k :: ks, w) ∈ t.toList valid) : k ∈ t.keys := by
  induction t with
  | nil => simp [toList] at h
  | cons a v next rest _ ih =>
      simp only [toList, List.mem_append, List.mem_map, Prod.mk.injEq, List.cons.injEq] at h
      rcases h with (h | ⟨e, -, ⟨rfl, -⟩, -⟩) | h
      · split at h
        · simp only [List.mem_singleton, Prod.mk.injEq, List.cons.injEq] at h
          simp [h.1.1]
        · simp at h
      · simp
      · simp [ih h]

section Lookup

variable [DecidableEq κ] {before : κ → κ → Prop}

/-- What is listed is what can be looked up. -/
theorem mem_toList (hirrefl : ∀ a, ¬ before a a) {t : Trie κ V} (ht : t.Separated before)
    {π : List κ} {w : V} :
    (π, w) ∈ t.toList valid ↔ t.lookup π = some w ∧ valid w = true := by
  induction t generalizing π with
  | nil => simp [toList]
  | cons k v next rest ihn ihr =>
      obtain ⟨hk, hn, hr⟩ := ht
      have hnot : k ∉ rest.keys := fun h => hirrefl k (hk k h)
      cases π with
      | nil =>
          have : ([], w) ∉ (cons k v next rest).toList valid :=
            fun h => ne_nil_of_mem_toList h rfl
          simp [this]
      | cons a ks =>
          have hown : (a :: ks, w) ∈ (if valid v then [([k], v)] else []) ↔
              a = k ∧ ks = [] ∧ v = w ∧ valid w = true := by
            split <;> grind
          have hbelow : (a :: ks, w) ∈ (next.toList valid).map (fun e => (k :: e.1, e.2)) ↔
              a = k ∧ (ks, w) ∈ next.toList valid := by
            simp only [List.mem_map, Prod.mk.injEq, List.cons.injEq, Prod.exists]
            constructor
            · rintro ⟨π, w', hmem, ⟨rfl, rfl⟩, rfl⟩
              exact ⟨rfl, hmem⟩
            · rintro ⟨rfl, hmem⟩
              exact ⟨ks, w, hmem, ⟨rfl, rfl⟩, rfl⟩
          rw [toList, List.mem_append, List.mem_append, hown, hbelow, ihn hn, ihr hr, lookup_cons]
          by_cases hak : a = k
          · have hrest : rest.lookup (a :: ks) = none := lookup_eq_none_of_notMem (hak ▸ hnot)
            rw [if_pos hak, hrest]
            by_cases hks : ks = []
            · simp [hak, hks]
            · simp [hak, hks]
          · simp [hak]

omit [DecidableEq κ] in
/-- No sequence is listed twice. -/
theorem nodup_toList (hirrefl : ∀ a, ¬ before a a) {t : Trie κ V} (ht : t.Separated before) :
    (t.toList valid).Nodup := by
  induction t with
  | nil => exact .nil
  | cons k v next rest ihn ihr =>
      obtain ⟨hk, hn, hr⟩ := ht
      have hnot : k ∉ rest.keys := fun h => hirrefl k (hk k h)
      have hbelow : ((next.toList valid).map fun e => (k :: e.1, e.2)).Nodup := by
        refine (ihn hn).map ?_
        rintro ⟨π, w⟩ ⟨π', w'⟩ heq
        simpa using heq
      rw [toList]
      refine List.Nodup.append (List.Nodup.append ?_ hbelow ?_) (ihr hr) ?_
      · split <;> simp
      · -- the value of the key itself is no value of the layer below
        intro e he he'
        obtain ⟨e', hmem, rfl⟩ := List.mem_map.mp he'
        split at he
        · have := ne_nil_of_mem_toList hmem
          simp_all
        · simp at he
      · -- the remaining keys are other keys
        rintro ⟨π, w⟩ he he'
        cases π with
        | nil => exact ne_nil_of_mem_toList he' rfl
        | cons a ks =>
            have ha := head_mem_keys he'
            suffices a = k from hnot (this ▸ ha)
            rcases List.mem_append.mp he with he | he
            · split at he
              · simp only [List.mem_singleton, Prod.mk.injEq, List.cons.injEq] at he
                exact he.1.1
              · simp at he
            · obtain ⟨e, -, heq⟩ := List.mem_map.mp he
              simp only [Prod.mk.injEq, List.cons.injEq] at heq
              exact heq.1.1.symm

/-! ## One sequence and the others -/

/-- What is listed under other sequences. -/
def others (valid : V → Bool) (ks : List κ) (t : Trie κ V) : List (List κ × V) :=
  (t.toList valid).filter fun e => e.1 ≠ ks

/-- An insertion adds its value to the list, and replaces what was listed under the sequence. -/
theorem Stored.toList_perm {fill invalid last : V} (hirrefl : ∀ a, ¬ before a a)
    {ks : List κ} {t t' : Trie κ V}
    (ht : t.Separated before) (ht' : t'.Separated before) (hfill : valid fill = false)
    (hinvalid : valid invalid = false) (hlast : valid last = true)
    (h : Stored fill invalid last ks t t') :
    (t'.toList valid).Perm ((ks, last) :: t.others valid ks) := by
  refine (List.perm_ext_iff_of_nodup (nodup_toList hirrefl ht') ?_).mpr ?_
  · refine List.nodup_cons.mpr ⟨fun hmem => ?_, (nodup_toList hirrefl ht).filter _⟩
    simp [others] at hmem
  rintro ⟨π, w⟩
  rw [mem_toList hirrefl ht', List.mem_cons, others, List.mem_filter, mem_toList hirrefl ht]
  by_cases hπ : π = ks
  · subst hπ
    rw [h.self]
    simp only [Option.some.injEq, Prod.mk.injEq, true_and, ne_eq, not_true_eq_false, decide_false,
      Bool.false_eq_true, and_false, or_false]
    exact ⟨fun hw => hw.1.symm, fun hw => ⟨hw.symm, hw ▸ hlast⟩⟩
  · simp only [Prod.mk.injEq, hπ, false_and, false_or, ne_eq, not_false_eq_true, decide_true,
      and_true]
    refine ⟨fun hl => ⟨?_, hl.2⟩, fun hl => ⟨h.old π w hπ hl.1, hl.2⟩⟩
    refine (h.cases hfill hinvalid hl.1 hπ).resolve_right fun hnew => ?_
    rw [hl.2] at hnew
    cases hnew.2.2

/-- A valid value under a sequence is listed once. -/
theorem toList_perm_of_lookup (hirrefl : ∀ a, ¬ before a a) {t : Trie κ V}
    (ht : t.Separated before) {ks : List κ} {w : V} (hl : t.lookup ks = some w)
    (hw : valid w = true) : (t.toList valid).Perm ((ks, w) :: t.others valid ks) := by
  refine (List.perm_ext_iff_of_nodup (nodup_toList hirrefl ht) ?_).mpr ?_
  · refine List.nodup_cons.mpr ⟨fun hmem => ?_, (nodup_toList hirrefl ht).filter _⟩
    simp [others] at hmem
  rintro ⟨π, w'⟩
  rw [List.mem_cons, others, List.mem_filter, mem_toList hirrefl ht]
  by_cases hπ : π = ks
  · subst hπ
    rw [hl]
    simp only [Option.some.injEq, Prod.mk.injEq, true_and, ne_eq, not_true_eq_false, decide_false,
      Bool.false_eq_true, and_false, or_false]
    exact ⟨fun h => h.1.symm, fun h => ⟨h.symm, h ▸ hw⟩⟩
  · simp [hπ]

theorem others_eq_toList (hirrefl : ∀ a, ¬ before a a) {t : Trie κ V}
    (ht : t.Separated before) {ks : List κ} (hl : ∀ w, t.lookup ks = some w → valid w = false) :
    t.others valid ks = t.toList valid := by
  refine List.filter_eq_self.mpr ?_
  rintro ⟨π, w⟩ hmem
  obtain ⟨hπ, hw⟩ := (mem_toList hirrefl ht).mp hmem
  refine decide_eq_true fun heq => ?_
  rw [hl w (heq ▸ hπ)] at hw
  cases hw

/-! ## Sequences that are stored once -/

variable {pos : κ → ℕ} {fill invalid last : V} {need : List κ → ℕ}

/-- Each of the sequences `rs` has a valid value at one place at most. -/
def Once (valid : V → Bool) (need : List κ → ℕ) (rs : List (List κ × V)) (t : Trie κ V) : Prop :=
  ∀ r ∈ rs, ∀ m n w w', need r.1 ≤ m → m ≤ r.1.length → need r.1 ≤ n → n ≤ r.1.length →
    t.lookup (r.1.take m) = some w → valid w = true →
      t.lookup (r.1.take n) = some w' → valid w' = true → m = n

/-- One more insertion, of a sequence that has not been inserted before. -/
theorem Once.insert (hpos : ∀ a b, before a b → pos a < pos b)
    (hfill : valid fill = false) (hinvalid : valid invalid = false)
    {rs : List (List κ × V)} {t t' : Trie κ V} {ρ : List κ}
    (ho : Once valid need rs t) (hr : Represents before valid need rs t)
    (hneed : need ρ ≤ ρ.length)
    (hpad : ∀ r ∈ rs, ∀ n, need r.1 ≤ n → need ρ ≤ n → r.1.take n = ρ.take n → r.1 = ρ)
    (hlen : ∀ r ∈ rs, r.1.length = ρ.length) (hnew : ∀ r ∈ rs, r.1 ≠ ρ)
    (h : Ins pos fill invalid last (need ρ) ρ t t') :
    Once valid need (rs ++ [(ρ, last)]) t' := by
  obtain ⟨n₀, hn₀, -, hnle, -, -, hst⟩ := h.stored hpos hr.separated hneed
  -- the new value is the only valid one that the insertion adds
  have hold : ∀ π w, t'.lookup π = some w → valid w = true → π ≠ ρ.take n₀ →
      t.lookup π = some w := by
    intro π w hl hw hne
    rcases hst.cases hfill hinvalid hl hne with hl' | ⟨-, -, hinv⟩
    · exact hl'
    · rw [hw] at hinv
      cases hinv
  intro r hmem m n w w' hm hmle hn hnle' hl hw hl' hw'
  rcases List.mem_append.mp hmem with hmem | hmem
  · have hne := fun j => take_ne_take hpad hlen hnle hn₀ hmem (hnew r hmem) (m := j)
    exact ho r hmem m n w w' hm hmle hn hnle' (hold _ w hl hw (hne m hm hmle)) hw
      (hold _ w' hl' hw' (hne n hn hnle')) hw'
  · obtain rfl := List.mem_singleton.mp hmem
    have hplace : ∀ j w, need ρ ≤ j → j ≤ ρ.length → t'.lookup (ρ.take j) = some w →
        valid w = true → j = n₀ := by
      intro j w hj hjle hl hw
      by_contra hne
      have hne' : ρ.take j ≠ ρ.take n₀ := by
        intro heq
        have := congrArg List.length heq
        simp only [List.length_take] at this
        omega
      obtain ⟨s, hs, hp, hneeds⟩ := hr.of_valid _ w (hold _ w hl hw hne') hw
      have hlens := hlen s hs
      simp only [List.length_take, Nat.min_eq_left hjle] at hneeds
      refine hnew s hs (hpad s hs j hneeds hj ?_)
      rw [List.prefix_iff_eq_take.mp hp]
      simp [Nat.min_eq_left hjle]
    exact (hplace m w hm hmle hl hw).trans (hplace n w' hn hnle' hl' hw').symm

theorem once_nil (t : Trie κ V) : Once valid need [] t := by
  intro r hr
  simp at hr

/-- The list of a trie is the list of the insertions.  A sequence may be listed without its
last keys, as long as `f` does not see the difference. -/
theorem Represents.toList_perm (hirrefl : ∀ a, ¬ before a a) {rs : List (List κ × V)}
    {t : Trie κ V} (hr : Represents before valid need rs t) (ho : Once valid need rs t)
    (hvalid : ∀ r ∈ rs, valid r.2 = true) (hdistinct : (rs.map Prod.fst).Nodup)
    (f : List κ → β)
    (hf : ∀ r ∈ rs, ∀ π, π <+: r.1 → need r.1 ≤ π.length → f π = f r.1)
    (hinj : ∀ r ∈ rs, ∀ s ∈ rs, f r.1 = f s.1 → r.1 = s.1) :
    ((t.toList valid).map fun e => (f e.1, e.2)).Perm (rs.map fun r => (f r.1, r.2)) := by
  have hlast : ∀ r ∈ rs, lastValue rs r.1 = some r.2 := by
    intro r hmem
    obtain ⟨w, hw⟩ := lastValue_isSome hmem
    have := List.inj_on_of_nodup_map hdistinct hmem (exists_of_lastValue hw) rfl
    rw [hw, this]
  -- a listed sequence is one of the insertions, cut off
  have hsrc : ∀ π w, (π, w) ∈ t.toList valid →
      ∃ r ∈ rs, ∃ n, need r.1 ≤ n ∧ n ≤ r.1.length ∧ π = r.1.take n ∧ w = r.2 := by
    intro π w hmem
    obtain ⟨hl, hw⟩ := (mem_toList hirrefl hr.separated).mp hmem
    obtain ⟨r, hrs, hp, hneed⟩ := hr.of_valid π w hl hw
    obtain ⟨n, hn, hnle, hl', -⟩ := hr.of_last _ _ (hlast r hrs)
    have hπ := List.prefix_iff_eq_take.mp hp
    have hmn : π.length = n := by
      refine ho r hrs _ n w r.2 hneed hp.length_le hn hnle ?_ hw hl' (hvalid r hrs)
      rw [← hπ]
      exact hl
    refine ⟨r, hrs, π.length, hneed, hp.length_le, hπ, ?_⟩
    rw [← hmn, ← hπ, hl] at hl'
    exact Option.some.inj hl'
  have hfst : ∀ r ∈ rs, ∀ n, need r.1 ≤ n → n ≤ r.1.length → f (r.1.take n) = f r.1 := by
    intro r hrs n hn hnle
    refine hf r hrs _ (List.take_prefix _ _) ?_
    rw [List.length_take]
    omega
  refine (List.perm_ext_iff_of_nodup ?_ ?_).mpr fun b => ?_
  · refine (nodup_toList hirrefl hr.separated).map_on ?_
    rintro ⟨π, w⟩ hmem ⟨π', w'⟩ hmem' heq
    obtain ⟨r, hrs, m, hm, hmle, rfl, rfl⟩ := hsrc π w hmem
    obtain ⟨s, hss, n, hn, hnle, rfl, rfl⟩ := hsrc π' w' hmem'
    simp only [Prod.mk.injEq, hfst r hrs m hm hmle, hfst s hss n hn hnle] at heq
    have hrs' : r = s := List.inj_on_of_nodup_map hdistinct hrs hss (hinj r hrs s hss heq.1)
    subst hrs'
    obtain ⟨hl, hw⟩ := (mem_toList hirrefl hr.separated).mp hmem
    obtain ⟨hl', hw'⟩ := (mem_toList hirrefl hr.separated).mp hmem'
    rw [ho r hrs m n _ _ hm hmle hn hnle hl hw hl' hw']
  · refine (List.Nodup.of_map _ hdistinct).map_on ?_
    rintro r hrs s hss heq
    simp only [Prod.mk.injEq] at heq
    exact List.inj_on_of_nodup_map hdistinct hrs hss (hinj r hrs s hss heq.1)
  · constructor
    · intro hb
      obtain ⟨⟨π, w⟩, hmem, rfl⟩ := List.mem_map.mp hb
      obtain ⟨r, hrs, n, hn, hnle, rfl, rfl⟩ := hsrc π w hmem
      exact List.mem_map.mpr ⟨r, hrs, by rw [hfst r hrs n hn hnle]⟩
    · intro hb
      obtain ⟨r, hrs, rfl⟩ := List.mem_map.mp hb
      obtain ⟨n, hn, hnle, hl, -⟩ := hr.of_last _ _ (hlast r hrs)
      refine List.mem_map.mpr ⟨(r.1.take n, r.2), ?_, by rw [hfst r hrs n hn hnle]⟩
      exact (mem_toList hirrefl hr.separated).mpr ⟨hl, hvalid r hrs⟩

end Lookup

end Trie

end Pcv
