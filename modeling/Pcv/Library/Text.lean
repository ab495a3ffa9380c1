import Mathlib.Data.List.Basic
import Mathlib.Data.List.Induction
import Mathlib.Tactic.Common
import Mathlib.Tactic.Ring

/-!
# Text: pieces, words and numerals

Lines of characters are taken apart in the two ways of the C++ streams: into the pieces between
the occurrences of a character, and into words between blanks.  A numeral is a row of digits; the
digits beyond nine are letters of either case.
-/

namespace Pcv

namespace Text

/-! ## Pieces -/

/-- The pieces of a text between the occurrences of `delim`; `acc` is the piece that is being read,
from its end.  Behind the last occurrence there is a piece only if a character follows. -/
def splitGo (delim : Char) : List Char → List Char → List (List Char)
  | [], acc => if acc.isEmpty then [] else [acc.reverse]
  | c :: s, acc => if c = delim then acc.reverse :: splitGo delim s [] else splitGo delim s (c :: acc)

/-- The pieces that `getline` reads one after the other. -/
def split (s : List Char) (delim : Char) : List (List Char) := splitGo delim s []

section Split

variable {delim : Char} {p s : List Char}

@[simp] theorem split_nil : split [] delim = [] := rfl

theorem splitGo_append (hp : delim ∉ p) (acc : List Char) :
    splitGo delim (p ++ delim :: s) acc = (acc.reverse ++ p) :: split s delim := by
  induction p generalizing acc with
  | nil => simp [splitGo, split]
  | cons c p ih =>
      rw [List.mem_cons, not_or] at hp
      rw [List.cons_append, splitGo, if_neg (Ne.symm hp.1), ih hp.2, List.reverse_cons,
        List.append_assoc, List.singleton_append]

/-- A piece in front of the delimiter. -/
theorem split_append (hp : delim ∉ p) : split (p ++ delim :: s) delim = p :: split s delim :=
  splitGo_append hp []

theorem splitGo_last (hp : delim ∉ p) (acc : List Char) (h : acc.reverse ++ p ≠ []) :
    splitGo delim p acc = [acc.reverse ++ p] := by
  induction p generalizing acc with
  | nil =>
      rw [List.append_nil] at h ⊢
      have hacc : acc ≠ [] := by
        rintro rfl
        exact h rfl
      simp [splitGo, hacc]
  | cons c p ih =>
      rw [List.mem_cons, not_or] at hp
      rw [splitGo, if_neg (Ne.symm hp.1), ih hp.2 _ (by simp), List.reverse_cons, List.append_assoc,
        List.singleton_append]

/-- A text without the delimiter is one piece. -/
theorem split_last (hp : delim ∉ p) (h : p ≠ []) : split p delim = [p] := splitGo_last hp [] h

/-- Texts each closed by the delimiter are its pieces. -/
theorem split_flatMap {ls : List (List Char)} (h : ∀ l ∈ ls, delim ∉ l) :
    split (ls.flatMap fun l => l ++ [delim]) delim = ls := by
  induction ls with
  | nil => rfl
  | cons l ls ih =>
      rw [List.forall_mem_cons] at h
      rw [List.flatMap_cons, List.append_assoc, List.singleton_append, split_append h.1, ih h.2]

/-- The pieces of texts each closed by the delimiter, with one more text behind them. -/
theorem split_flatMap_append {ls : List (List Char)} (h : ∀ l ∈ ls, delim ∉ l) (hp : delim ∉ p)
    (hne : p ≠ []) : split ((ls.flatMap fun l => l ++ [delim]) ++ p) delim = ls ++ [p] := by
  induction ls with
  | nil => exact split_last hp hne
  | cons l ls ih =>
      rw [List.forall_mem_cons] at h
      rw [List.flatMap_cons, List.append_assoc, List.append_assoc, List.singleton_append,
        split_append h.1, ih h.2, List.cons_append]

theorem mem_splitGo {acc : List Char} {t : List Char} (ht : t ∈ splitGo delim s acc) :
    ∀ c ∈ t, c ∈ acc ∨ c ∈ s := by
  induction s generalizing acc with
  | nil =>
      rw [splitGo] at ht
      split at ht
      · cases ht
      · obtain rfl := List.mem_singleton.mp ht
        exact fun c hc => .inl (List.mem_reverse.mp hc)
  | cons d s ih =>
      rw [splitGo] at ht
      split at ht
      · rcases List.mem_cons.mp ht with rfl | ht
        · exact fun c hc => .inl (List.mem_reverse.mp hc)
        · intro c hc
          rcases ih ht c hc with h | h
          · cases h
          · exact .inr (List.mem_cons_of_mem _ h)
      · intro c hc
        rcases ih ht c hc with h | h
        · rcases List.mem_cons.mp h with rfl | h
          · exact .inr List.mem_cons_self
          · exact .inl h
        · exact .inr (List.mem_cons_of_mem _ h)

/-- The pieces consist of characters of the text. -/
theorem mem_split {t : List Char} (ht : t ∈ split s delim) : ∀ c ∈ t, c ∈ s := fun c hc =>
  (mem_splitGo ht c hc).resolve_left (List.not_mem_nil)

end Split

/-! ## Words -/

/-- `isspace`. -/
def isSpace (c : Char) : Bool :=
  c == ' ' || c == '\t' || c == '\n' || c == '\x0b' || c == '\x0c' || c == '\r'

/-- The words of a text; `acc` is the word that is being read, from its end. -/
def wordsGo : List Char → List Char → List (List Char)
  | [], acc => if acc.isEmpty then [] else [acc.reverse]
  | c :: s, acc =>
      if isSpace c then if acc.isEmpty then wordsGo s [] else acc.reverse :: wordsGo s []
      else wordsGo s (c :: acc)

/-- The words of a text, between blanks. -/
def words (s : List Char) : List (List Char) := wordsGo s []

section Words

variable {w s : List Char}

/-- A word: it is not empty and has no blanks. -/
def IsWord (w : List Char) : Prop := w ≠ [] ∧ ∀ c ∈ w, isSpace c = false

theorem isWord_of_all (hne : w ≠ []) (h : w.all (fun c => !isSpace c) = true) : IsWord w :=
  ⟨hne, fun c hc => by simpa using List.all_eq_true.mp h c hc⟩

@[simp] theorem words_nil : words [] = [] := rfl

theorem words_blank {c : Char} (hc : isSpace c = true) : words (c :: s) = words s := by
  simp [words, wordsGo, hc]

theorem wordsGo_append {c : Char} (hc : isSpace c = true) (hw : ∀ d ∈ w, isSpace d = false)
    (acc : List Char) (h : acc.reverse ++ w ≠ []) :
    wordsGo (w ++ c :: s) acc = (acc.reverse ++ w) :: words s := by
  induction w generalizing acc with
  | nil =>
      rw [List.append_nil] at h ⊢
      have hacc : acc ≠ [] := by
        rintro rfl
        exact h rfl
      simp [wordsGo, words, hc, hacc]
  | cons d w ih =>
      rw [List.forall_mem_cons] at hw
      rw [List.cons_append, wordsGo, if_neg (by simp [hw.1]), ih hw.2 _ (by simp), List.reverse_cons,
        List.append_assoc, List.singleton_append]

/-- A word in front of a blank. -/
theorem words_append {c : Char} (hc : isSpace c = true) (hw : IsWord w) :
    words (w ++ c :: s) = w :: words s := wordsGo_append hc hw.2 [] hw.1

theorem wordsGo_last (hw : ∀ d ∈ w, isSpace d = false) (acc : List Char)
    (h : acc.reverse ++ w ≠ []) : wordsGo w acc = [acc.reverse ++ w] := by
  induction w generalizing acc with
  | nil =>
      rw [List.append_nil] at h ⊢
      have hacc : acc ≠ [] := by
        rintro rfl
        exact h rfl
      simp [wordsGo, hacc]
  | cons d w ih =>
      rw [List.forall_mem_cons] at hw
      rw [wordsGo, if_neg (by simp [hw.1]), ih hw.2 _ (by simp), List.reverse_cons,
        List.append_assoc, List.singleton_append]

theorem words_last (hw : IsWord w) : words w = [w] := wordsGo_last hw.2 [] hw.1

theorem isWord_of_mem_wordsGo {acc t : List Char} (hacc : ∀ c ∈ acc, isSpace c = false)
    (ht : t ∈ wordsGo s acc) : IsWord t := by
  have hdone : acc.isEmpty = false → IsWord acc.reverse := by
    intro h
    refine ⟨?_, fun c hc => hacc c (List.mem_reverse.mp hc)⟩
    rintro hnil
    rw [List.reverse_eq_nil_iff.mp hnil] at h
    cases h
  induction s generalizing acc with
  | nil =>
      rw [wordsGo] at ht
      split at ht
      · cases ht
      · next h =>
          obtain rfl := List.mem_singleton.mp ht
          exact hdone (Bool.eq_false_iff.mpr h)
  | cons d s ih =>
      have hnil : ([] : List Char).isEmpty = false → IsWord [].reverse := fun h => by cases h
      rw [wordsGo] at ht
      split at ht
      · split at ht
        · exact ih (fun c hc => by cases hc) ht hnil
        · next h =>
            rcases List.mem_cons.mp ht with rfl | ht
            · exact hdone (Bool.eq_false_iff.mpr h)
            · exact ih (fun c hc => by cases hc) ht hnil
      · next hd =>
          have hacc' : ∀ c ∈ d :: acc, isSpace c = false :=
            List.forall_mem_cons.mpr ⟨Bool.eq_false_iff.mpr hd, hacc⟩
          exact ih hacc' ht fun _ => ⟨by simp, fun c hc => hacc' c (List.mem_reverse.mp hc)⟩

theorem isWord_of_mem_words {t : List Char} (ht : t ∈ words s) : IsWord t :=
  isWord_of_mem_wordsGo (fun c hc => by cases hc) ht

end Words

/-! ## Numerals -/

/-- The value of a digit. -/
def digitVal (c : Char) : Option ℕ :=
  if '0' ≤ c ∧ c ≤ '9' then some (c.toNat - 48)
  else if 'a' ≤ c ∧ c ≤ 'f' then some (c.toNat - 87)
  else if 'A' ≤ c ∧ c ≤ 'F' then some (c.toNat - 55)
  else none

def isDigit (base : ℕ) (c : Char) : Bool := (digitVal c).any (· < base)

/-- The value of a row of digits. -/
def value (base : ℕ) (s : List Char) : ℕ := s.foldl (fun v c => v * base + (digitVal c).getD 0) 0

/-- A row of digits with the given value. -/
def IsNumeral (base : ℕ) (s : List Char) (n : ℕ) : Prop :=
  s ≠ [] ∧ (∀ c ∈ s, isDigit base c = true) ∧ value base s = n

theorem isNumeral_of_all {base n : ℕ} {s : List Char} (hne : s ≠ [])
    (h : s.all (isDigit base) = true) (hvalue : value base s = n) : IsNumeral base s n :=
  ⟨hne, List.all_eq_true.mp h, hvalue⟩

/-- The digits of a number, those beyond nine as capital letters. -/
def numeral (base n : ℕ) : List Char := (Nat.toDigits base n).map Char.toUpper

/-- Zeros in front of a text that is shorter than the given width. -/
def padZeros (width : ℕ) (s : List Char) : List Char :=
  List.replicate (width - s.length) '0' ++ s

section Numerals

variable {base n : ℕ} {s : List Char}

theorem digitVal_digitChar : ∀ d < 16, digitVal (Nat.digitChar d).toUpper = some d := by decide

theorem IsNumeral.notMem {c : Char} (hc : isDigit base c = false) (h : IsNumeral base s n) :
    c ∉ s := fun hmem => by
  have := h.2.1 c hmem
  rw [hc] at this
  cases this

theorem isSpace_of_isDigit {c : Char} (h : isDigit base c = true) : isSpace c = false := by
  by_contra hc
  rw [Bool.not_eq_false] at hc
  simp only [isSpace, Bool.or_eq_true, beq_iff_eq] at hc
  rcases hc with ((((rfl | rfl) | rfl) | rfl) | rfl) | rfl <;> cases h

theorem isAlphanum_of_isDigit {c : Char} (h : isDigit base c = true) : c.isAlphanum = true := by
  have hrange : '0' ≤ c ∧ c ≤ '9' ∨ 'a' ≤ c ∧ c ≤ 'f' ∨ 'A' ≤ c ∧ c ≤ 'F' := by
    by_contra hno
    rw [not_or, not_or] at hno
    simp [isDigit, digitVal, hno.1, hno.2.1, hno.2.2] at h
  have hlower : c ≤ 'f' → c ≤ 'z' := fun h => Nat.le_trans h (by decide)
  have hupper : c ≤ 'F' → c ≤ 'Z' := fun h => Nat.le_trans h (by decide)
  have hdef : c.isAlphanum = ((decide ('A' ≤ c ∧ c ≤ 'Z') || decide ('a' ≤ c) && decide (c ≤ 'z')) ||
      decide ('0' ≤ c) && decide (c ≤ '9')) := rfl
  simp only [hdef, Bool.or_eq_true, Bool.and_eq_true, decide_eq_true_eq]
  rcases hrange with ⟨h1, h2⟩ | ⟨h1, h2⟩ | ⟨h1, h2⟩
  · exact .inr ⟨h1, h2⟩
  · exact .inl (.inr ⟨h1, hlower h2⟩)
  · exact .inl (.inl ⟨h1, hupper h2⟩)

theorem IsNumeral.isWord (h : IsNumeral base s n) : IsWord s :=
  ⟨h.1, fun c hc => isSpace_of_isDigit (h.2.1 c hc)⟩

theorem value_append (s : List Char) (c : Char) :
    value base (s ++ [c]) = value base s * base + (digitVal c).getD 0 := by
  simp [value]

theorem value_append_append (s t : List Char) :
    value base (s ++ t) = value base s * base ^ t.length + value base t := by
  induction t using List.reverseRecOn with
  | nil => simp [value]
  | append_singleton t c ih =>
      rw [← List.append_assoc, value_append, ih, value_append, List.length_append,
        List.length_singleton, pow_succ]
      ring

theorem value_cons (c : Char) (t : List Char) :
    value base (c :: t) = (digitVal c).getD 0 * base ^ t.length + value base t := by
  have happend : value base ([c] ++ t) = _ := value_append_append [c] t
  simpa [value] using happend

theorem IsNumeral.append {c : Char} {d : ℕ} (h : IsNumeral base s n) (hc : digitVal c = some d)
    (hd : d < base) : IsNumeral base (s ++ [c]) (n * base + d) := by
  obtain ⟨-, hdigits, hvalue⟩ := h
  refine ⟨by simp, List.forall_mem_append.mpr ⟨hdigits, ?_⟩, ?_⟩
  · simp [isDigit, hc, hd]
  · rw [value_append, hvalue, hc]
    rfl

theorem isNumeral_digit {c : Char} {d : ℕ} (hc : digitVal c = some d) (hd : d < base) :
    IsNumeral base [c] d := by
  refine ⟨by simp, ?_, ?_⟩
  · simp [isDigit, hc, hd]
  · simp [value, hc]

theorem isNumeral_numeral (hbase : 1 < base) (hle : base ≤ 16) (n : ℕ) :
    IsNumeral base (numeral base n) n := by
  induction n using Nat.strongRecOn with
  | _ n ih =>
      rw [numeral, Nat.toDigits_eq_if hbase]
      split
      · next h =>
          exact isNumeral_digit (digitVal_digitChar n (Nat.lt_of_lt_of_le h hle)) h
      · next h =>
          have hmod := Nat.mod_lt n (show base > 0 by omega)
          have := (ih (n / base) (Nat.div_lt_self (by omega) hbase)).append
            (digitVal_digitChar (n % base) (Nat.lt_of_lt_of_le hmod hle)) hmod
          rw [Nat.div_add_mod'] at this
          simpa [numeral] using this

theorem value_replicate_zero (k : ℕ) (s : List Char) :
    value base (List.replicate k '0' ++ s) = value base s := by
  induction k with
  | zero => rfl
  | succ k ih =>
      rw [List.replicate_succ, List.cons_append, ← ih]
      simp only [value, List.foldl_cons, Nat.zero_mul]
      rfl

theorem IsNumeral.padZeros (hbase : 0 < base) (h : IsNumeral base s n) (width : ℕ) :
    IsNumeral base (padZeros width s) n := by
  obtain ⟨hne, hdigits, hvalue⟩ := h
  refine ⟨by simp [Text.padZeros, hne], ?_, by rw [Text.padZeros, value_replicate_zero, hvalue]⟩
  refine List.forall_mem_append.mpr ⟨fun c hc => ?_, hdigits⟩
  obtain rfl := (List.mem_replicate.mp hc).2
  simp [isDigit, digitVal, hbase]

end Numerals

end Text

end Pcv
