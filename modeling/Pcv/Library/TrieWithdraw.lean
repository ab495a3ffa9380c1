import Pcv.Library.TrieRemove
import Pcv.Library.TrieToList

/-!
# What a trie represents after a deletion

A deletion follows its sequence as far as the trie goes.  If there is a valid value at this end,
then it is the value that was stored last under the sequence.  If besides none of the other
sequences is over on the way, then the deletion takes back the insertions of this one sequence:
the trie represents the others as before.

Both conditions are needed.  Where other sequences have made the way of this one longer, the end
holds no value, and the value stays behind further up.  And where another sequence is over on the
way, its value is deleted with the keys.
-/

namespace Pcv

universe u v

namespace Trie

variable {κ : Type u} {V : Type v} [DecidableEq κ] {before : κ → κ → Prop} {pos : κ → ℕ}
variable {invalid : V} {valid : V → Bool} {need : List κ → ℕ} {ρ : List κ} {t t' : Trie κ V}

/-- What is stored along a single path lies on the path. -/
theorem Along.isPrefix (h : Along ρ t) {π : List κ} {w : V} (hl : t.lookup π = some w) :
    π <+: ρ := by
  induction h generalizing π w with
  | nil => simp at hl
  | @cons k ρ v next _ ih =>
      cases π with
      | nil => exact List.nil_prefix
      | cons a π =>
          rw [lookup_cons] at hl
          by_cases ha : a = k
          · rw [if_pos ha] at hl
            refine List.cons_prefix_cons.mpr ⟨ha, ?_⟩
            by_cases hπ : π = []
            · exact hπ ▸ List.nil_prefix
            · rw [if_neg hπ] at hl
              exact ih hl
          · simp [if_neg ha] at hl

/-- A cleared sequence has lost its last value, and nothing else has changed. -/
theorem Cleared.exists_end (hpos : ∀ a b, before a b → pos a < pos b)
    (h : Cleared pos invalid ρ t t') (ht : t.Separated before) :
    ∃ m, 0 < m ∧ m ≤ ρ.length ∧ t.lookup (ρ.take m) ≠ none ∧
      (∀ k, m < k → k ≤ ρ.length → t.lookup (ρ.take k) = none) ∧
      t'.lookup (ρ.take m) = some invalid ∧ ∀ π, π ≠ ρ.take m → t'.lookup π = t.lookup π := by
  induction h with
  | @here k ρ A next B v hne hstop =>
      have hkA := ht.notMem_front hpos
      obtain ⟨-, ⟨-, htn, -⟩, -⟩ := separated_append.mp ht
      have hmiss := hstop (htn.pairwise.imp fun {a b} => hpos a b)
      refine ⟨1, by omega, by simp, ?_, fun j hj hjle => ?_, ?_, fun π hπ => ?_⟩
      · simp [lookup_at hkA]
      · obtain ⟨j, rfl⟩ : ∃ i, j = i + 1 := ⟨j - 1, by omega⟩
        cases ρ with
        | nil =>
            simp only [List.length_cons, List.length_nil] at hjle
            omega
        | cons b ρ =>
            obtain ⟨j, rfl⟩ : ∃ i, j = i + 1 := ⟨j - 1, by omega⟩
            rw [List.take_succ_cons, lookup_at hkA, List.take_succ_cons, if_neg (by simp)]
            exact lookup_eq_none_of_notMem (hmiss b rfl)
      · simp [lookup_at hkA]
      · cases π with
        | nil => simp
        | cons a π =>
            by_cases hak : a = k
            · subst hak
              have hne' : π ≠ [] := by
                rintro rfl
                simp at hπ
              rw [lookup_at hkA, lookup_at hkA, if_neg hne', if_neg hne']
            · rw [lookup_beside hak, lookup_beside hak]
  | @down k ρ A next next' B v hcl ih =>
      have hkA := ht.notMem_front hpos
      obtain ⟨-, ⟨-, htn, -⟩, -⟩ := separated_append.mp ht
      obtain ⟨m, hm, hmle, hold, hstop, hnew, hother⟩ := ih htn
      have hne : ∀ j, 0 < j → j ≤ ρ.length → ρ.take j ≠ [] := by
        intro j hj hjle hnil
        have := congrArg List.length hnil
        simp only [List.length_take, List.length_nil] at this
        omega
      refine ⟨m + 1, by omega, by simpa using hmle, ?_, fun j hj hjle => ?_, ?_, fun π hπ => ?_⟩
      · rwa [List.take_succ_cons, lookup_at hkA, if_neg (hne m hm hmle)]
      · obtain ⟨j, rfl⟩ : ∃ i, j = i + 1 := ⟨j - 1, by omega⟩
        have hjle : j ≤ ρ.length := by simpa using hjle
        rw [List.take_succ_cons, lookup_at hkA, if_neg (hne j (by omega) hjle)]
        exact hstop j (by omega) hjle
      · rwa [List.take_succ_cons, lookup_at hkA, if_neg (hne m hm hmle)]
      · cases π with
        | nil => simp
        | cons a π =>
            by_cases hak : a = k
            · subst hak
              rw [lookup_at hkA, lookup_at hkA]
              split
              · rfl
              · exact hother π fun h => hπ (by rw [h, List.take_succ_cons])
            · rw [lookup_beside hak, lookup_beside hak]

/-- The trie has a valid value where the sequence ends, as deep as the sequence needs or deeper. -/
def EndsValid (valid : V → Bool) (need : List κ → ℕ) (ρ : List κ) (t : Trie κ V) : Prop :=
  ∃ m w, need ρ ≤ m ∧ m ≤ ρ.length ∧ t.lookup (ρ.take m) = some w ∧ valid w = true ∧
    ∀ k, m < k → k ≤ ρ.length → t.lookup (ρ.take k) = none

/-- What a deletion does where the sequence has been stored: the place of its last value is
cleared, or all that lies on its way is gone. -/
theorem Del.lookup_cases (hpos : ∀ a b, before a b → pos a < pos b)
    (h : Del pos invalid ρ t t') (ht : t.Separated before) (hend : EndsValid valid need ρ t) :
    (∃ m, need ρ ≤ m ∧ m ≤ ρ.length ∧ (∃ w, t.lookup (ρ.take m) = some w ∧ valid w = true) ∧
      t'.lookup (ρ.take m) = some invalid ∧ ∀ π, π ≠ ρ.take m → t'.lookup π = t.lookup π) ∨
    ∃ a ∈ ρ.head?, ∀ π, (π.head? ≠ some a → t'.lookup π = t.lookup π) ∧
      (π.head? = some a → t'.lookup π = none ∧ (t.lookup π ≠ none → π <+: ρ)) := by
  obtain ⟨m, w, hm, hmle, hl, hw, hstop⟩ := hend
  cases h with
  | absent hmiss =>
      have hne : ρ ≠ [] := by
        rintro rfl
        simp at hl
      obtain ⟨a, σ, rfl⟩ := List.exists_cons_of_ne_nil hne
      have hmiss := hmiss (ht.pairwise.imp fun {a b} => hpos a b) a rfl
      cases m with
      | zero => simp at hl
      | succ m => exact absurd (mem_keys_of_lookup hl) hmiss
  | cleared h =>
      obtain ⟨n, -, hnle, hold, hstop', hnew, hother⟩ := h.exists_end hpos ht
      obtain rfl : n = m := by
        rcases Nat.lt_trichotomy n m with hlt | heq | hlt
        · rw [hstop' m hlt hmle] at hl
          cases hl
        · exact heq
        · exact absurd (hstop n hlt hnle) hold
      exact .inl ⟨n, hm, hmle, ⟨w, hl, hw⟩, hnew, hother⟩
  | @cut k σ A next B v hρ halong =>
      subst hρ
      have hkA := ht.notMem_front hpos
      obtain ⟨-, ⟨hkB, -, -⟩, -⟩ := separated_append.mp ht
      refine .inr ⟨k, rfl, fun π => ⟨fun hhead => ?_, fun hhead => ?_⟩⟩
      · cases π with
        | nil => simp
        | cons a π => rw [lookup_beside (by simpa using hhead)]
      · obtain ⟨π, rfl⟩ : ∃ τ, π = k :: τ := by
          cases π with
          | nil => simp at hhead
          | cons a π => exact ⟨π, by rw [Option.some.inj hhead]⟩
        refine ⟨lookup_eq_none_of_notMem ?_, fun hold => ?_⟩
        · rw [keys_append, List.mem_append]
          rintro (h | h)
          · exact hkA h
          · exact absurd (hpos _ _ (hkB k h)) (lt_irrefl _)
        · refine List.cons_prefix_cons.mpr ⟨rfl, ?_⟩
          by_cases hπ : π = []
          · exact hπ ▸ List.nil_prefix
          · rw [lookup_at hkA, if_neg hπ] at hold
            obtain ⟨w', hw'⟩ := Option.ne_none_iff_exists'.mp hold
            exact halong.isPrefix hw'

/-- What is still stored was stored before, up to the cleared value. -/
theorem Del.of_lookup (hpos : ∀ a b, before a b → pos a < pos b)
    (hinvalid : valid invalid = false) (h : Del pos invalid ρ t t') (ht : t.Separated before)
    (hend : EndsValid valid need ρ t) {π : List κ} {w : V} (hl : t'.lookup π = some w) :
    t.lookup π = some w ∨ valid w = false := by
  rcases h.lookup_cases hpos ht hend with ⟨m, -, -, -, hnew, hother⟩ | ⟨a, -, hcut⟩
  · by_cases hπ : π = ρ.take m
    · rw [hπ, hnew] at hl
      exact .inr (Option.some.inj hl ▸ hinvalid)
    · exact .inl (hother π hπ ▸ hl)
  · by_cases hhead : π.head? = some a
    · rw [((hcut π).2 hhead).1] at hl
      cases hl
    · exact .inl ((hcut π).1 hhead ▸ hl)

/-- The value of another sequence stays, provided that the other sequence is not over on the way. -/
theorem Del.lookup_eq (hpos : ∀ a b, before a b → pos a < pos b)
    (h : Del pos invalid ρ t t') (ht : t.Separated before) (hend : EndsValid valid need ρ t)
    {σ : List κ} {n : ℕ} (hlen : σ.length = ρ.length) (hn : need σ ≤ n) (hnle : n ≤ σ.length)
    (hpad : ∀ j, need σ ≤ j → need ρ ≤ j → σ.take j = ρ.take j → σ = ρ) (hne : σ ≠ ρ)
    (hout : ¬ σ.take (need σ) <+: ρ) {w : V} (hl : t.lookup (σ.take n) = some w) :
    t'.lookup (σ.take n) = some w := by
  rcases h.lookup_cases hpos ht hend with ⟨m, hm, hmle, -, -, hother⟩ | ⟨a, -, hcut⟩
  · rw [hother _ fun heq => ?_, hl]
    obtain rfl : n = m := by
      have := congrArg List.length heq
      simp only [List.length_take] at this
      omega
    exact hne (hpad n hn hm heq)
  · rw [((hcut _).1 fun hhead => ?_), hl]
    have hp := ((hcut _).2 hhead).2 (by rw [hl]; simp)
    exact hout ((List.take_prefix_take_left hn).trans hp)

/-- The sequence has a valid value at one place at most. -/
def OnceAt (valid : V → Bool) (need : List κ → ℕ) (ρ : List κ) (t : Trie κ V) : Prop :=
  ∀ m n w w', need ρ ≤ m → m ≤ ρ.length → need ρ ≤ n → n ≤ ρ.length →
    t.lookup (ρ.take m) = some w → valid w = true →
      t.lookup (ρ.take n) = some w' → valid w' = true → m = n

/-- Once the sequence has been deleted, no valid value is there for it. -/
theorem Del.invalid_of_lookup (hpos : ∀ a b, before a b → pos a < pos b)
    (hinvalid : valid invalid = false) (h : Del pos invalid ρ t t') (ht : t.Separated before)
    (honce : OnceAt valid need ρ t) (hend : EndsValid valid need ρ t) {π : List κ} {w : V}
    (hp : π <+: ρ) (hneed : need ρ ≤ π.length) (hl : t'.lookup π = some w) : valid w = false := by
  by_contra hw
  simp only [Bool.not_eq_false] at hw
  have hold : t.lookup π = some w := by
    rcases h.of_lookup hpos hinvalid ht hend hl with hold | hinv
    · exact hold
    · rw [hw] at hinv
      cases hinv
  have hπ := List.prefix_iff_eq_take.mp hp
  rcases h.lookup_cases hpos ht hend with
    ⟨m, hm, hmle, ⟨w', hw', hvalid⟩, hnew, -⟩ | ⟨a, ha, hcut⟩
  · have hlen := honce π.length m w w' hneed hp.length_le hm hmle (hπ ▸ hold) hw hw' hvalid
    rw [hπ, hlen, hnew] at hl
    rw [← Option.some.inj hl, hinvalid] at hw
    cases hw
  · cases π with
    | nil => simp at hl
    | cons b π =>
        obtain ⟨τ, rfl⟩ := hp
        rw [((hcut (b :: π)).2 ha).1] at hl
        cases hl

/-- The deletion of a sequence takes its insertions back. -/
theorem Represents.delete (hpos : ∀ a b, before a b → pos a < pos b)
    (hinvalid : valid invalid = false) {rs : List (List κ × V)}
    (hr : Represents before valid need rs t) (honce : OnceAt valid need ρ t)
    (hlen : ∀ r ∈ rs, r.1.length = ρ.length)
    (hpad : ∀ r ∈ rs, ∀ j, need r.1 ≤ j → need ρ ≤ j → r.1.take j = ρ.take j → r.1 = ρ)
    (hout : ∀ r ∈ rs, r.1.take (need r.1) <+: ρ → r.1 = ρ)
    (hend : EndsValid valid need ρ t) (h : Del pos invalid ρ t t') :
    Represents before valid need (rs.filter fun r => r.1 ≠ ρ) t' := by
  have hcovers : Covers before need ((rs.filter fun r => r.1 ≠ ρ).map Prod.fst) t' := by
    have := hr.covers.delete hpos h
    rwa [List.filter_map] at this
  refine ⟨hcovers.separated, fun π w hl => ?_, fun π w hl hw => ?_, fun σ w hσ => ?_⟩
  · obtain ⟨σ, hσ, hp⟩ := hcovers.covered π w hl
    obtain ⟨r, hr', rfl⟩ := List.mem_map.mp hσ
    exact ⟨r, hr', hp⟩
  · rcases h.of_lookup hpos hinvalid hr.separated hend hl with hold | hinv
    · obtain ⟨r, hrs, hp, hneed⟩ := hr.of_valid π w hold hw
      refine ⟨r, List.mem_filter.mpr ⟨hrs, decide_eq_true fun heq => ?_⟩, hp, hneed⟩
      subst heq
      rw [h.invalid_of_lookup hpos hinvalid hr.separated honce hend hp hneed hl] at hw
      cases hw
    · rw [hw] at hinv
      cases hinv
  · have hσρ : σ ≠ ρ := fun heq =>
      of_decide_eq_true (List.mem_filter.mp (exists_of_lastValue hσ)).2 heq
    have hlast : lastValue rs σ = some w := by
      rw [← hσ, lastValue, lastValue, List.filter_filter]
      congr 2
      refine List.filter_congr fun r _ => ?_
      by_cases hrσ : r.1 = σ
      · simp [hrσ, hσρ]
      · simp [hrσ]
    obtain ⟨r, hrs, rfl⟩ : ∃ r ∈ rs, r.1 = σ := ⟨_, exists_of_lastValue hlast, rfl⟩
    obtain ⟨n, hn, hnle, hl, hdeep⟩ := hr.of_last _ w hlast
    refine ⟨n, hn, hnle, h.lookup_eq hpos hr.separated hend (hlen r hrs) hn hnle (hpad r hrs) hσρ
      (fun hp => hσρ (hout r hrs hp)) hl, fun m w' hm hmle hl' => ?_⟩
    rcases h.of_lookup hpos hinvalid hr.separated hend hl' with hl' | hinv
    · exact hdeep m w' hm hmle hl'
    · exact hinv

/-- What was there once is there once, or gone. -/
theorem Once.delete (hpos : ∀ a b, before a b → pos a < pos b) (hinvalid : valid invalid = false)
    {rs : List (List κ × V)} (honce : Once valid need rs t) (ht : t.Separated before)
    (hend : EndsValid valid need ρ t) (h : Del pos invalid ρ t t') :
    Once valid need (rs.filter fun r => r.1 ≠ ρ) t' := by
  have hold : ∀ π w, t'.lookup π = some w → valid w = true → t.lookup π = some w := by
    intro π w hl hw
    rcases h.of_lookup hpos hinvalid ht hend hl with hl' | hinv
    · exact hl'
    · rw [hw] at hinv
      cases hinv
  intro r hmem m n w w' hm hmle hn hnle hl hw hl' hw'
  exact honce r (List.mem_filter.mp hmem).1 m n w w' hm hmle hn hnle (hold _ w hl hw) hw
    (hold _ w' hl' hw') hw'

end Trie

end Pcv
