import Pcv.Library.TrieInsert

/-!
# Insertions that fill their way

An insertion gives the interior keys of a new path the value `fill`.  Here `fill` is the
value that is inserted, so the keys on the way to a sequence answer in its place.

Not all of them do: a key that is put beside others gets no value, and a value that is
inserted later replaces the one on the way.  `Placeholder` says where a value is left over,
in terms of the sequences and their order alone, and `Fills` is the invariant of the trie
that says so.
-/

namespace Pcv

universe u v

namespace Trie

variable {κ : Type u} {V : Type v} [DecidableEq κ]
variable {pos : κ → ℕ} {before : κ → κ → Prop} {valid : V → Bool} {need : List κ → ℕ}
variable {fill invalid last : V}

/-- Nothing is stored under a sequence with one more key. -/
def Blank (t : Trie κ V) (π : List κ) : Prop := ∀ k, t.lookup (π ++ [k]) = none

omit [DecidableEq κ] in
private theorem take_ne_nil {m : ℕ} {ρ : List κ} (hm : 0 < m) (hρ : 0 < ρ.length) :
    ρ.take m ≠ [] := by
  rw [Ne, List.take_eq_nil_iff]
  rintro (h | rfl)
  · omega
  · simp at hρ

/-- An interior key of a new path is filled if its layer is new too, and gets no value if
the layer was there before. -/
theorem Ins.interior (hpos : ∀ a b, before a b → pos a < pos b) {n m : ℕ} {ρ : List κ}
    {t t' : Trie κ V} (h : Ins pos fill invalid last n ρ t t') (ht : t.Separated before)
    (hn : n ≤ ρ.length) (hm0 : 0 < m) (hm : m < n) (hl : t.lookup (ρ.take m) = none) :
    (t'.lookup (ρ.take m) = some fill ∧ t.Blank (ρ.take (m - 1))) ∨
      (t'.lookup (ρ.take m) = some invalid ∧ ¬ t.Blank (ρ.take (m - 1))) := by
  induction h generalizing m with
  | @first n ρ _ =>
      left
      refine ⟨?_, fun k => lookup_nil _⟩
      have hne : ρ.take n ≠ [] := take_ne_nil (by omega) (by omega)
      have hlen : (ρ.take m).length = m := by
        rw [List.length_take]
        omega
      have hlen' : (ρ.take n).length = n := by
        rw [List.length_take]
        omega
      rw [lookup_path _ _ _ _ hne, if_neg, if_pos]
      · refine ⟨fun hnil => ?_, List.take_prefix_take_left hm.le⟩
        rw [hnil, List.length_nil] at hlen
        omega
      · intro heq
        rw [heq] at hlen
        omega
  | @new n k ρ A B _ hAB _ _ hk =>
      have hnot : k ∉ (A.append B).keys := hk (ht.pairwise.imp fun {a b} => hpos a b)
      have hkA : k ∉ A.keys := fun h => hnot (by simp [h])
      simp only [List.length_cons] at hn
      obtain ⟨m, rfl⟩ : ∃ m', m = m' + 1 := ⟨m - 1, by omega⟩
      rw [List.take_succ_cons, lookup_at hkA, Nat.add_sub_cancel]
      rcases Nat.eq_zero_or_pos m with rfl | hm0
      · -- the key itself stands beside others
        right
        refine ⟨by simp [show n ≠ 1 by omega], fun hblank => ?_⟩
        cases htab : A.append B with
        | nil => exact hAB htab
        | cons a v next rest =>
            have := hblank a
            simp [htab, lookup_cons] at this
      · left
        have hρm : ρ.take m ≠ [] := take_ne_nil hm0 (by omega)
        have hρn : ρ.take (n - 1) ≠ [] := take_ne_nil (by omega) (by omega)
        rw [if_neg hρm, lookup_path _ _ _ _ hρn, if_neg, if_pos]
        · refine ⟨rfl, fun a => ?_⟩
          obtain ⟨m, rfl⟩ : ∃ m', m = m' + 1 := ⟨m - 1, by omega⟩
          rw [List.take_succ_cons, List.cons_append, lookup_eq_none_of_notMem hnot]
        · exact ⟨hρm, List.take_prefix_take_left (by omega)⟩
        · intro heq
          have := congrArg List.length heq
          simp only [List.length_take] at this
          omega
  | here hle => omega
  | @down n k ρ A next next' B v _ ih =>
      obtain ⟨-, ⟨-, htn, -⟩, hAk⟩ := separated_append.mp ht
      have hkA : k ∉ A.keys := fun h => absurd (hpos _ _ (hAk k h k (by simp))) (lt_irrefl _)
      simp only [List.length_cons] at hn
      obtain ⟨m, rfl⟩ : ∃ m', m = m' + 1 := ⟨m - 1, by omega⟩
      rw [List.take_succ_cons, lookup_at hkA] at hl ⊢
      by_cases hnil : ρ.take m = []
      · simp [hnil] at hl
      · rw [if_neg hnil] at hl ⊢
        have hm0 : 0 < m := by
          rcases Nat.eq_zero_or_pos m with rfl | h
          · exact absurd rfl hnil
          · exact h
        have hblank : (A.append (cons k v next B)).Blank ((k :: ρ).take (m + 1 - 1)) ↔
            next.Blank (ρ.take (m - 1)) := by
          obtain ⟨m, rfl⟩ : ∃ m', m = m' + 1 := ⟨m - 1, by omega⟩
          simp only [Blank, Nat.add_sub_cancel, List.take_succ_cons, List.cons_append,
            lookup_at hkA, List.append_eq_nil_iff, List.cons_ne_nil, and_false, if_false]
        rw [hblank]
        exact ih htn (by omega) hm0 (by omega) hl

/-! ## What is left over -/

/-- The value of the insertion number `j` is left over at its first `n` keys: no earlier
insertion went on behind the first `n - 1` of them, and no later one ended with them. -/
structure Placeholder (need : List κ → ℕ) (rs : List (List κ × V)) (j n : ℕ)
    (r : List κ × V) : Prop where
  entry : rs[j]? = some r
  pos : 0 < n
  lt_need : n < need r.1
  first : ∀ (i : ℕ) (s : List κ × V), i < j → rs[i]? = some s → n ≤ need s.1 →
    s.1.take (n - 1) ≠ r.1.take (n - 1)
  kept : ∀ (i : ℕ) (s : List κ × V), j < i → rs[i]? = some s → need s.1 ≤ n →
    s.1.take n ≠ r.1.take n

/-- The insertion number `i` may have written under `π`: all its keys that count are in
`π`, and if `π` is longer it was there before. -/
structure EndsAt (need : List κ → ℕ) (rs : List (List κ × V)) (i : ℕ) (s : List κ × V)
    (π : List κ) : Prop where
  entry : rs[i]? = some s
  isPrefix : π <+: s.1
  need_le : need s.1 ≤ π.length
  earlier : π.length = need s.1 ∨ ∃ (i' : ℕ) (s' : List κ × V), i' < i ∧ rs[i']? = some s' ∧
    π <+: s'.1.take (need s'.1)

/-- The trie that insertions make which fill their way. -/
structure Fills (before : κ → κ → Prop) (valid : V → Bool) (need : List κ → ℕ)
    (rs : List (List κ × V)) (t : Trie κ V) : Prop where
  covers : Covers before need (rs.map Prod.fst) t
  stored : ∀ r ∈ rs, ∀ n, 0 < n → n ≤ need r.1 → t.lookup (r.1.take n) ≠ none
  of_valid : ∀ π w, t.lookup π = some w → valid w = true →
    (∃ i s, EndsAt need rs i s π) ∨ ∃ j n r, Placeholder need rs j n r ∧ π = r.1.take n
  of_last : ∀ ρ w, lastValue rs ρ = some w → ∃ n, need ρ ≤ n ∧ n ≤ ρ.length ∧
    t.lookup (ρ.take n) = some w ∧
      ∀ m w', n < m → m ≤ ρ.length → t.lookup (ρ.take m) = some w' → valid w' = true →
        ∃ j r, Placeholder need rs j m r ∧ ρ.take m = r.1.take m
  of_placeholder : ∀ j n r, Placeholder need rs j n r → t.lookup (r.1.take n) = some r.2

theorem fills_nil : Fills before valid need [] (nil : Trie κ V) where
  covers := covers_nil
  stored := by simp
  of_valid := by simp
  of_last := by simp [lastValue]
  of_placeholder := fun _ _ _ h => by simpa using h.entry

/-! ## One more insertion -/

section Insert

variable {rs : List (List κ × V)} {t t' : Trie κ V} {ρ : List κ}

omit [DecidableEq κ] in
theorem EndsAt.concat {i : ℕ} {s : List κ × V} {π : List κ} (h : EndsAt need rs i s π)
    (x : List κ × V) : EndsAt need (rs ++ [x]) i s π where
  entry := List.getElem?_append_left (List.getElem?_eq_some_iff.mp h.entry).1 ▸ h.entry
  isPrefix := h.isPrefix
  need_le := h.need_le
  earlier := h.earlier.imp id fun ⟨i', s', hi', hs', hp⟩ =>
    ⟨i', s', hi', by
      rw [List.getElem?_append_left (List.getElem?_eq_some_iff.mp hs').1, hs'], hp⟩

omit [DecidableEq κ] in
/-- The value that is left over stays there unless the new insertion ends with the keys. -/
theorem Placeholder.concat {j n : ℕ} {r : List κ × V} (h : Placeholder need rs j n r)
    {x : List κ × V} (hx : need x.1 ≤ n → x.1.take n ≠ r.1.take n) :
    Placeholder need (rs ++ [x]) j n r := by
  have hj := (List.getElem?_eq_some_iff.mp h.entry).1
  refine ⟨by rw [List.getElem?_append_left hj, h.entry], h.pos, h.lt_need,
    fun i s hij hs => ?_, fun i s hij hs => ?_⟩
  · rw [List.getElem?_append_left (hij.trans hj)] at hs
    exact h.first i s hij hs
  · rcases Nat.lt_or_ge i rs.length with hi | hi
    · rw [List.getElem?_append_left hi] at hs
      exact h.kept i s hij hs
    · rw [List.getElem?_append_right hi] at hs
      obtain ⟨-, rfl⟩ : i - rs.length = 0 ∧ x = s := by
        simpa [List.getElem?_singleton] using hs
      exact hx

omit [DecidableEq κ] in
theorem Placeholder.of_concat {j n : ℕ} {r x : List κ × V}
    (h : Placeholder need (rs ++ [x]) j n r) (hj : j < rs.length) :
    Placeholder need rs j n r ∧ (need x.1 ≤ n → x.1.take n ≠ r.1.take n) := by
  have hentry := h.entry
  rw [List.getElem?_append_left hj] at hentry
  refine ⟨⟨hentry, h.pos, h.lt_need, fun i s hij hs => h.first i s hij ?_,
    fun i s hij hs => h.kept i s hij ?_⟩, h.kept rs.length x hj (by simp)⟩
  · rw [List.getElem?_append_left (hij.trans hj), hs]
  · rw [List.getElem?_append_left (List.getElem?_eq_some_iff.mp hs).1, hs]

/-- What is stored before the insertion goes on from an earlier sequence. -/
theorem Fills.exists_entry (h : Fills before valid need rs t) {π : List κ}
    (hl : t.lookup π ≠ none) : ∃ (i : ℕ) (s : List κ × V), rs[i]? = some s ∧ i < rs.length ∧
      π <+: s.1.take (need s.1) := by
  obtain ⟨w, hw⟩ := Option.ne_none_iff_exists'.mp hl
  obtain ⟨σ, hσ, hp⟩ := h.covers.covered π w hw
  obtain ⟨s, hs, rfl⟩ := List.mem_map.mp hσ
  obtain ⟨i, hi, hget⟩ := List.getElem_of_mem hs
  exact ⟨i, s, by rw [List.getElem?_eq_getElem hi, hget], hi, hp⟩

/-- A new layer on the way of an insertion: no earlier sequence goes on there. -/
theorem Fills.ne_of_blank (h : Fills before valid need rs t) (hlen : ∀ r ∈ rs, need r.1 ≤ r.1.length)
    {n : ℕ} (hn : 0 < n) (hblank : t.Blank (ρ.take (n - 1))) {s : List κ × V} (hs : s ∈ rs)
    (hneed : n ≤ need s.1) : s.1.take (n - 1) ≠ ρ.take (n - 1) := by
  intro heq
  have hlt : n - 1 < s.1.length := by
    have := hlen s hs
    omega
  refine h.stored s hs n hn hneed ?_
  rw [show n = n - 1 + 1 by omega, List.take_succ_eq_append_getElem hlt, heq]
  exact hblank _

/-- The way to a new value is filled behind the last key that was there. -/
theorem Fills.placeholder_of_blank (h : Fills before valid need rs t)
    (hneeds : ∀ r ∈ rs, need r.1 ≤ r.1.length) {m : ℕ} (hm0 : 0 < m) (hm : m < need ρ)
    (hblank : t.Blank (ρ.take (m - 1))) :
    Placeholder need (rs ++ [(ρ, last)]) rs.length m (ρ, last) where
  entry := by simp
  pos := hm0
  lt_need := hm
  first := fun i s hi hs hneed => by
    rw [List.getElem?_append_left hi] at hs
    exact h.ne_of_blank hneeds hm0 hblank (List.mem_of_getElem? hs) hneed
  kept := fun i s hi hs => by
    have hend : (rs ++ [(ρ, last)]).length ≤ i := by simpa using Nat.succ_le_of_lt hi
    rw [List.getElem?_eq_none hend] at hs
    cases hs

/-- A valid value that was not there before is the one that is left over on the way. -/
theorem Fills.of_new (hpos : ∀ a b, before a b → pos a < pos b)
    (hinvalid : valid invalid = false) (h : Fills before valid need rs t)
    (hneeds : ∀ r ∈ rs, need r.1 ≤ r.1.length) (hneed : need ρ ≤ ρ.length)
    (hins : Ins pos last invalid last (need ρ) ρ t t') {n : ℕ}
    (hsrc : n = need ρ ∨ ∃ w, t.lookup (ρ.take n) = some w)
    (hst : Stored last invalid last (ρ.take n) t t') {π : List κ} {w : V} (hne : π ≠ ρ.take n)
    (hold : t.lookup π = none) (hl : t'.lookup π = some w) (hw : valid w = true) :
    π = ρ.take π.length ∧
      Placeholder need (rs ++ [(ρ, last)]) rs.length π.length (ρ, last) := by
  have hp : π <+: ρ.take n := by
    by_contra hnp
    rw [hst.beside π hnp, hold] at hl
    cases hl
  have hπ : π ≠ [] := by
    rintro rfl
    simp at hl
  have hpre : π <+: ρ := hp.trans (List.take_prefix _ _)
  have htake : π = ρ.take π.length := List.prefix_iff_eq_take.mp hpre
  rcases hsrc with rfl | ⟨w', hw'⟩
  · have hle := hp.length_le
    rw [List.length_take] at hle
    have hlt : π.length < need ρ := by
      refine Nat.lt_of_le_of_ne (by omega) fun heq => hne ?_
      rw [← heq]
      exact htake
    have hm0 : 0 < π.length := List.length_pos_of_ne_nil hπ
    rcases hins.interior hpos h.covers.separated hneed hm0 hlt (htake ▸ hold) with
      ⟨-, hblank⟩ | ⟨hinv, -⟩
    · exact ⟨htake, h.placeholder_of_blank hneeds hm0 hlt hblank⟩
    · rw [← htake, hl] at hinv
      rw [Option.some.inj hinv, hinvalid] at hw
      cases hw
  · exact absurd hold (lookup_ne_none_of_isPrefix hw' hp hπ)

/-- One more insertion, of a sequence that is compatible with all the earlier ones. -/
theorem Fills.insert (hpos : ∀ a b, before a b → pos a < pos b)
    (hinvalid : valid invalid = false) (h : Fills before valid need rs t)
    (hneeds : ∀ r ∈ rs, need r.1 ≤ r.1.length) (hneed : need ρ ≤ ρ.length)
    (hpad : ∀ r ∈ rs, ∀ n, need r.1 ≤ n → need ρ ≤ n → r.1.take n = ρ.take n → r.1 = ρ)
    (hlen : ∀ r ∈ rs, r.1.length = ρ.length)
    (hcomp : ∀ r ∈ rs, Compatible before (r.1.take (need r.1)) (ρ.take (need ρ)))
    (hins : Ins pos last invalid last (need ρ) ρ t t') :
    Fills before valid need (rs ++ [(ρ, last)]) t' := by
  obtain ⟨n, hn, hn0, hnle, hsrc, hmax, hst⟩ := hins.stored hpos h.covers.separated hneed
  have hnew := fun (π : List κ) (w : V) =>
    h.of_new hpos hinvalid hneeds hneed hins hsrc hst (π := π) (w := w)
  have hother := fun r hmem hne m hm hmle =>
    take_ne_take hpad hlen hnle hn (r := r) hmem hne (m := m) hm hmle
  have hlenn : (ρ.take n).length = n := by
    rw [List.length_take]
    omega
  refine ⟨?_, ?_, ?_, ?_, ?_⟩
  · rw [List.map_append]
    refine h.covers.insert hpos hneed (fun σ hσ => ?_) hins
    obtain ⟨r, hmem, rfl⟩ := List.mem_map.mp hσ
    exact hcomp r hmem
  · -- what is stored stays, and the new sequence leads through all its beginnings
    intro r hr m hm hmle
    rcases List.mem_append.mp hr with hr | hr
    · obtain ⟨w, hw⟩ := Option.ne_none_iff_exists'.mp (h.stored r hr m hm hmle)
      by_cases heq : r.1.take m = ρ.take n
      · rw [heq, hst.self]
        simp
      · rw [hst.old _ w heq hw]
        simp
    · obtain rfl : r = (ρ, last) := by simpa using hr
      have hmle : m ≤ need ρ := hmle
      refine lookup_ne_none_of_isPrefix hst.self
        (List.take_prefix_take_left (hmle.trans hn)) (take_ne_nil hm (hn0.trans_le hnle))
  · intro π w hl hw
    by_cases heq : π = ρ.take n
    · -- the place of the new value
      refine .inl ⟨rs.length, (ρ, last), by simp, heq ▸ List.take_prefix _ _, ?_, ?_⟩
      · rw [heq, hlenn]
        exact hn
      · rcases hsrc with hnn | ⟨w', hw'⟩
        · exact .inl (by rw [heq, hlenn, hnn])
        · obtain ⟨i, s, hs, hi, hp⟩ := h.exists_entry (π := ρ.take n) (by simp [hw'])
          exact .inr ⟨i, s, hi, by rw [List.getElem?_append_left hi, hs], heq ▸ hp⟩
    · cases hold : t.lookup π with
      | none =>
          obtain ⟨htake, hplace⟩ := hnew π w heq hold hl hw
          exact .inr ⟨_, _, _, hplace, htake⟩
      | some w' =>
          rw [hst.old π w' heq hold, Option.some.injEq] at hl
          subst hl
          rcases h.of_valid π w' hold hw with ⟨i, s, hends⟩ | ⟨j, m, r, hplace, rfl⟩
          · exact .inl ⟨i, s, hends.concat _⟩
          · by_cases hkept : need ρ ≤ m → ρ.take m ≠ r.1.take m
            · exact .inr ⟨j, m, r, hplace.concat hkept, rfl⟩
            · -- the new sequence ends with these keys, or with more of them
              push Not at hkept
              have hr := List.mem_of_getElem? hplace.entry
              have hrlen := hneeds r hr
              have hlt := hplace.lt_need
              have hlenm : (r.1.take m).length = m := by
                rw [List.length_take]
                omega
              refine .inl ⟨rs.length, (ρ, last), by simp, ?_, ?_, ?_⟩
              · rw [← hkept.2]
                exact List.take_prefix _ _
              · rw [hlenm]
                exact hkept.1
              · have hj := (List.getElem?_eq_some_iff.mp hplace.entry).1
                exact .inr ⟨j, r, hj, by rw [List.getElem?_append_left hj, hplace.entry],
                  List.take_prefix_take_left hlt.le⟩
  · intro σ w hσ
    rw [lastValue_concat] at hσ
    by_cases hσρ : σ = ρ
    · subst hσρ
      rw [if_pos rfl] at hσ
      obtain rfl := Option.some.inj hσ
      refine ⟨n, hn, hnle, hst.self, fun m w' hm hmle hl hw' => ?_⟩
      -- behind the place of the new value nothing is stored
      have hnp : ¬ σ.take m <+: σ.take n := by
        intro hp
        have := hp.length_le
        simp only [List.length_take] at this
        omega
      rw [hst.beside _ hnp, hmax m hm hmle] at hl
      cases hl
    · rw [if_neg hσρ] at hσ
      obtain ⟨r, hmem, rfl⟩ : ∃ r ∈ rs, r.1 = σ := ⟨_, exists_of_lastValue hσ, rfl⟩
      obtain ⟨n', hn', hn'le, hl, hlast⟩ := h.of_last _ w hσ
      refine ⟨n', hn', hn'le, hst.old _ w (hother r hmem hσρ n' hn' hn'le) hl,
        fun m w' hm hmle hl' hw' => ?_⟩
      have hne := hother r hmem hσρ m (by omega) hmle
      have hlenm : (r.1.take m).length = m := by
        rw [List.length_take]
        omega
      cases hold : t.lookup (r.1.take m) with
      | none =>
          obtain ⟨htake, hplace⟩ := hnew _ w' hne hold hl' hw'
          rw [hlenm] at htake hplace
          exact ⟨_, _, hplace, htake⟩
      | some w'' =>
          rw [hst.old _ w'' hne hold, Option.some.injEq] at hl'
          subst hl'
          obtain ⟨j, r', hplace, htake⟩ := hlast m w'' hm hmle hold hw'
          refine ⟨j, r', hplace.concat fun hle heq => hσρ ?_, htake⟩
          exact hpad r hmem m (by omega) hle (by rw [htake, heq])
  · intro j m r hplace
    rcases Nat.lt_or_ge j rs.length with hj | hj
    · obtain ⟨hold, hkept⟩ := hplace.of_concat hj
      have hr := List.mem_of_getElem? hold.entry
      have hrlen := hneeds r hr
      have hlt := hplace.lt_need
      refine hst.old _ _ (fun heq => ?_) (h.of_placeholder j m r hold)
      have hmn : m = n := by
        have := congrArg List.length heq
        rw [hlenn, List.length_take] at this
        omega
      subst hmn
      exact hkept hn heq.symm
    · have hentry := hplace.entry
      rw [List.getElem?_append_right hj] at hentry
      obtain ⟨hj', rfl⟩ : j - rs.length = 0 ∧ (ρ, last) = r := by
        simpa [List.getElem?_singleton] using hentry
      have hlt : m < need ρ := hplace.lt_need
      have hnone : ∀ (i : ℕ) (s : List κ × V), rs[i]? = some s → m ≤ need s.1 →
          s.1.take (m - 1) ≠ ρ.take (m - 1) := by
        intro i s hs hle
        have hi := (List.getElem?_eq_some_iff.mp hs).1
        exact hplace.first i s (by omega) (by rw [List.getElem?_append_left hi, hs]) hle
      have hblank : ∀ π, ρ.take (m - 1) <+: π → m ≤ π.length → t.lookup π = none := by
        intro π hp hlen'
        by_contra hstored
        obtain ⟨i, s, hs, -, hps⟩ := h.exists_entry hstored
        have hle := hps.length_le
        rw [List.length_take] at hle
        refine hnone i s hs (by omega) ?_
        have hpre : ρ.take (m - 1) <+: s.1 := hp.trans (hps.trans (List.take_prefix _ _))
        rw [List.prefix_iff_eq_take.mp hpre, List.length_take]
        congr 1
        omega
      have hm0 := hplace.pos
      rcases hins.interior hpos h.covers.separated hneed hm0 hlt
        (hblank _ (List.take_prefix_take_left (by omega)) (by
          rw [List.length_take]
          omega)) with ⟨hfill, -⟩ | ⟨-, hnot⟩
      · exact hfill
      · refine absurd (fun k => hblank _ (List.prefix_append _ _) ?_) hnot
        rw [List.length_append, List.length_take, List.length_singleton]
        omega

end Insert

/-! ## What a search yields -/

section Search

variable {rs : List (List κ × V)} {t : Trie κ V} {hit : ℕ → κ → Bool} {lvl : ℕ}

/-- The value that is left over at the longest beginning of a sequence that is hit is the
result, unless a longer sequence is hit. -/
theorem Fills.search_placeholder
    (hsep : ∀ l a b, before a b → hit l a = true → hit l b = false)
    (h : Fills before valid need rs t) (hvalid : ∀ r ∈ rs, valid r.2 = true)
    (hneeds : ∀ r ∈ rs, need r.1 ≤ r.1.length)
    (hpad : ∀ r ∈ rs, ∀ π, π <+: r.1 → need r.1 ≤ π.length →
      (Hits hit lvl π ↔ Hits hit lvl r.1)) (res : V) {j n : ℕ} {r : List κ × V}
    (hplace : Placeholder need rs j n r) (hhit : Hits hit lvl (r.1.take n))
    (hlong : ∀ s ∈ rs, Hits hit lvl s.1 → need s.1 ≤ n)
    (hmax : ∀ j' n' r', Placeholder need rs j' n' r' → Hits hit lvl (r'.1.take n') → n' ≤ n) :
    t.search hit valid lvl res = r.2 := by
  have hmem := List.mem_of_getElem? hplace.entry
  have hplaced := h.of_placeholder j n r hplace
  rcases search_spec hsep h.covers.separated lvl res with
    ⟨-, hnone⟩ | ⟨π, w, hl, hw, hh, hres, hdeep⟩
  · exact absurd hhit (hnone _ _ hplaced (hvalid r hmem))
  · have hpre := hdeep _ _ hplaced (hvalid r hmem) hhit
    have hlenr : (r.1.take n).length = n := by
      have hle := hneeds r hmem
      have hlt := hplace.lt_need
      rw [List.length_take]
      omega
    -- it is enough that nothing valid is hit further down
    suffices hle : π.length ≤ n by
      rw [← hpre.eq_of_length_le (by rw [hlenr]; exact hle), hplaced] at hl
      rw [hres, Option.some.inj hl]
    rcases h.of_valid π w hl hw with ⟨i, s, hends⟩ | ⟨j', n', r', hplace', rfl⟩
    · by_contra hlt
      push Not at hlt
      have hs := List.mem_of_getElem? hends.entry
      have hneed := hlong s hs ((hpad s hs π hends.isPrefix hends.need_le).mp hh)
      have hagree : ∀ ρ : List κ, π <+: ρ → ρ.take n = r.1.take n := by
        intro ρ hρ
        have := List.prefix_iff_eq_take.mp (hpre.trans hρ)
        rw [hlenr] at this
        exact this.symm
      rcases lt_trichotomy i j with hij | rfl | hij
      · rcases hends.earlier with heq | ⟨i', s', hi', hs', hp⟩
        · omega
        · have hle := hp.length_le
          rw [List.length_take] at hle
          refine hplace.first i' s' (hi'.trans hij) hs' (by omega) ?_
          have htake := congrArg (List.take (n - 1)) (hagree s'.1 (hp.trans (List.take_prefix _ _)))
          rwa [List.take_take, List.take_take, Nat.min_eq_left (Nat.sub_le n 1)] at htake
      · have heq : s = r := Option.some.inj (hends.entry.symm.trans hplace.entry)
        have hlt' := hplace.lt_need
        rw [heq] at hneed
        omega
      · exact hplace.kept i s hij hends.entry hneed (hagree s.1 hends.isPrefix)
    · exact (List.length_take_le _ _).trans (hmax j' n' r' hplace' hh)

/-- Where every value that is left over lies on the way to a longer sequence that is hit, a
search yields the value stored last under the most specific sequence. -/
theorem Fills.search (hsep : ∀ l a b, before a b → hit l a = true → hit l b = false)
    (h : Fills before valid need rs t) (hvalid : ∀ r ∈ rs, valid r.2 = true)
    (hneeds : ∀ r ∈ rs, need r.1 ≤ r.1.length)
    (hpad : ∀ r ∈ rs, ∀ π, π <+: r.1 → need r.1 ≤ π.length →
      (Hits hit lvl π ↔ Hits hit lvl r.1)) (res : V)
    (hlonger : ∀ j n r, Placeholder need rs j n r → Hits hit lvl (r.1.take n) →
      ∃ s ∈ rs, Hits hit lvl s.1 ∧ n < need s.1) :
    (t.search hit valid lvl res = res ∧ ∀ r ∈ rs, ¬ Hits hit lvl r.1) ∨
    ∃ r ∈ rs, Hits hit lvl r.1 ∧ lastValue rs r.1 = some (t.search hit valid lvl res) ∧
      ∀ r' ∈ rs, Hits hit lvl r'.1 → r'.1.take (need r'.1) <+: r.1 := by
  have hstored : ∀ r ∈ rs, Hits hit lvl r.1 → ∃ n w, need r.1 ≤ n ∧ n ≤ r.1.length ∧
      lastValue rs r.1 = some w ∧ valid w = true ∧ t.lookup (r.1.take n) = some w ∧
      Hits hit lvl (r.1.take n) ∧
      ∀ m w', n < m → m ≤ r.1.length → t.lookup (r.1.take m) = some w' → valid w' = true →
        ∃ j r', Placeholder need rs j m r' ∧ r.1.take m = r'.1.take m := by
    intro r hmem hh
    obtain ⟨w, hw⟩ := lastValue_isSome hmem
    obtain ⟨n, hn, hnle, hl, hlast⟩ := h.of_last _ w hw
    refine ⟨n, w, hn, hnle, hw, hvalid _ (exists_of_lastValue hw), hl, ?_, hlast⟩
    refine (hpad r hmem _ (List.take_prefix _ _) ?_).mpr hh
    rw [List.length_take]
    omega
  rcases search_spec hsep h.covers.separated lvl res with
    ⟨hres, hnone⟩ | ⟨π, w, hl, hw, hh, hres, hmax⟩
  · refine .inl ⟨hres, fun r hmem hhr => ?_⟩
    obtain ⟨n, w, -, -, -, hw, hl, hh, -⟩ := hstored r hmem hhr
    exact hnone _ _ hl hw hh
  · -- no value is left over where the search ends
    have hplain : ∀ j r, ¬ (Placeholder need rs j π.length r ∧ π = r.1.take π.length) := by
      rintro j r ⟨hplace, htake⟩
      obtain ⟨s, hs, hhs, hlt⟩ := hlonger j _ r hplace (htake ▸ hh)
      obtain ⟨n, w', hn, hnle, -, hw', hl', hh', -⟩ := hstored s hs hhs
      have hle := (hmax _ _ hl' hw' hh').length_le
      rw [List.length_take] at hle
      omega
    obtain ⟨i, r, hends⟩ : ∃ i s, EndsAt need rs i s π := by
      rcases h.of_valid π w hl hw with hends | ⟨j, n, r, hplace, hπ⟩
      · exact hends
      · have hmem := List.mem_of_getElem? hplace.entry
        have hle := hneeds r hmem
        have hlt := hplace.lt_need
        have hlen : π.length = n := by
          rw [hπ, List.length_take]
          omega
        exact absurd ⟨hlen ▸ hplace, hlen ▸ hπ⟩ (hplain j r)
    have hmem := List.mem_of_getElem? hends.entry
    have hhr := (hpad r hmem π hends.isPrefix hends.need_le).mp hh
    refine .inr ⟨r, hmem, hhr, ?_, fun r' hmem' hhr' => ?_⟩
    · obtain ⟨n, w', hn, hnle, hlv, hw', hl', hh', hlast⟩ := hstored r hmem hhr
      have hnπ : n ≤ π.length := by
        have := (hmax _ _ hl' hw' hh').length_le
        rw [List.length_take] at this
        omega
      have hπ : r.1.take π.length = π := (List.prefix_iff_eq_take.mp hends.isPrefix).symm
      rcases Nat.eq_or_lt_of_le hnπ with rfl | hlt
      · rw [hπ, hl] at hl'
        rw [hlv, hres, ← Option.some.inj hl']
      · obtain ⟨j, r', hplace, htake⟩ :=
          hlast π.length w hlt hends.isPrefix.length_le (by rw [hπ, hl]) hw
        exact absurd ⟨hplace, hπ.symm.trans htake⟩ (hplain j r')
    · obtain ⟨n, w', hn, -, -, hw', hl', hh', -⟩ := hstored r' hmem' hhr'
      exact (List.take_prefix_take_left hn).trans ((hmax _ _ hl' hw' hh').trans hends.isPrefix)

end Search

end Trie

end Pcv
