import Pcv.RuleParser.FlowText

/-!
# The readers at a text

What the readers of the values do at a cursor behind which a given text remains.
-/

namespace Pcv

open Text

/-- The text from the cursor on. -/
structure Remaining (line : List Char) (pos : ℕ) (s : List Char) : Prop where
  le : pos ≤ line.length
  drop : line.drop pos = s

section Cursor

variable {line s t : List Char} {pos : ℕ} {p : Char → Bool}

theorem remaining_zero (line : List Char) : Remaining line 0 line := ⟨Nat.zero_le _, rfl⟩

namespace Remaining

theorem length (h : Remaining line pos s) : line.length = pos + s.length := by
  have := h.le
  rw [← h.drop, List.length_drop]
  omega

theorem append (h : Remaining line pos (t ++ s)) : Remaining line (pos + t.length) s := by
  have := h.length
  rw [List.length_append] at this
  refine ⟨by omega, ?_⟩
  rw [← List.drop_drop, h.drop, List.drop_left]

theorem tail {c : Char} (h : Remaining line pos (c :: s)) : Remaining line (pos + 1) s :=
  h.append (t := [c])

theorem getElem? (h : Remaining line pos s) (i : ℕ) : (line)[pos + i]? = s[i]? := by
  rw [← h.drop, List.getElem?_drop]

/-- A character of the text. -/
theorem charAt {i : ℕ} {c : Char} (h : Remaining line pos s) (hc : s[i]? = some c) :
    charAt line (pos + i) = .ok c := by
  rw [Pcv.charAt, h.getElem?, hc]

/-- The null behind the text. -/
theorem charAt_end (h : Remaining line pos s) : Pcv.charAt line (pos + s.length) = .ok '\x00' := by
  rw [Pcv.charAt, h.getElem?, List.getElem?_eq_none le_rfl]
  exact if_pos h.length.symm

theorem charAt_undefined {i : ℕ} (h : Remaining line pos s) (hi : s.length < i) :
    Pcv.charAt line (pos + i) = .error .undefined := by
  rw [Pcv.charAt, h.getElem?, List.getElem?_eq_none hi.le]
  exact if_neg (by rw [h.length]; omega)

theorem readWhile (h : Remaining line pos (t ++ s)) (ht : ∀ c ∈ t, p c = true)
    (hs : ∀ c ∈ s.head?, p c = false) : readWhile p line pos = .ok (t, pos + t.length) := by
  have htake : (t ++ s).takeWhile p = t := by
    rw [List.takeWhile_append_of_pos ht]
    cases s with
    | nil => simp
    | cons c s => simp [hs c rfl]
  rw [Pcv.readWhile, if_pos h.le, h.drop]
  simp only [htake]

theorem readWhile_undefined (h : Remaining line pos s) {i : ℕ} (hi : s.length < i) :
    Pcv.readWhile p line (pos + i) = .error .undefined :=
  if_neg (by rw [h.length]; omega)

theorem readInt {base : ℕ} (h : Remaining line pos (t ++ s)) (hne : t ≠ [])
    (ht : ∀ c ∈ t, isDigit 10 c = true) (hs : ∀ c ∈ s.head?, isDigit 10 c = false)
    (hlt : value base t < 2 ^ 63) : readInt line pos base = .ok (value base t, pos + t.length) := by
  have hstol : stol t base = .ok (value base t) :=
    if_neg (not_or.mpr ⟨hne, Nat.not_le.mpr hlt⟩)
  simp only [Pcv.readInt, h.readWhile ht hs, bind, Except.bind, hstol]
  rfl

/-- There is no number in front of a character that is not a digit. -/
theorem readInt_thrown (h : Remaining line pos s) (hs : ∀ c ∈ s.head?, isDigit 10 c = false)
    (base : ℕ) :
    ∃ what, Pcv.readInt line pos base = .error (.thrown what) := by
  have hread := Remaining.readWhile (t := []) h (p := isDigit 10) (fun _ hc => by cases hc) hs
  refine ⟨"stol".toList, ?_⟩
  simp only [Pcv.readInt, hread, bind, Except.bind, stol, true_or, if_true]

end Remaining

end Cursor

/-- What follows a value: a separator comes first, and no character that a reader takes for a part
of a value is near. -/
structure Follows (rest : List Char) : Prop where
  head : ∀ c ∈ rest.head?, isSeparator c = true
  near : ∀ i < 4, ∀ c ∈ rest[i]?, c ≠ '/' ∧ c ≠ '.' ∧ c ≠ ':'

/-- The cursor is where the loop over the fields goes on with `rest`: at its start, behind its first
character, or in front of some letters and digits. -/
def Lands (line : List Char) (pos : ℕ) (rest : List Char) : Prop :=
  (∃ left, (∀ c ∈ left, c.isAlphanum = true) ∧ Remaining line pos (left ++ rest)) ∨
    ∃ c s, rest = c :: s ∧ Remaining line pos s

/-- The cursor is outside of the line, or where the loop over the fields stops inside the line. -/
def Stuck (line : List Char) (pos : ℕ) : Prop :=
  line.length < pos ∨ ∃ left c s, (∀ c ∈ left, c.isAlphanum = true) ∧ (c = '.' ∨ c = '/') ∧
    Remaining line pos (left ++ c :: s)

/-- What a reader does in front of `rest`: it goes on, and then the result is the right one if and
only if the value is readable; or the reader stops, and the value is not readable. -/
def Outcome {α : Type} (line rest : List Char) (x : Except ParseFault (α × ℕ)) (right : α → Prop)
    (readable : Prop) : Prop :=
  (∃ v pos, x = .ok (v, pos) ∧ Lands line pos rest ∧ (right v ↔ readable)) ∨
    (∀ v pos, x = .ok (v, pos) → Stuck line pos) ∧ ¬readable

section Values

variable {line rest s : List Char} {pos : ℕ}

theorem isDigit_of_isSeparator {c : Char} (h : isSeparator c = true) (base : ℕ) :
    isDigit base c = false := by
  simp only [isSeparator, Bool.or_eq_true, beq_iff_eq] at h
  rcases h with rfl | rfl <;> rfl

theorem Follows.not_isDigit (h : Follows rest) : ∀ c ∈ rest.head?, isDigit 10 c = false :=
  fun c hc => isDigit_of_isSeparator (h.head c hc) 10

theorem Remaining.lands (h : Remaining line pos rest) : Lands line pos rest :=
  .inl ⟨[], fun _ hc => (List.not_mem_nil hc).elim, h⟩

theorem Outcome.of_error {α : Type} {x : Except ParseFault (α × ℕ)} {right : α → Prop}
    {readable : Prop} (h : ∀ v, x ≠ .ok v) (hno : ¬readable) : Outcome line rest x right readable :=
  .inr ⟨fun v pos hx => (h (v, pos) hx).elim, hno⟩

/-! ## Decimal numbers -/

theorem readInt_numeral {t : List Char} {n : ℕ} (ht : IsNumeral 10 t n) (hn : n < 2 ^ 63)
    (hs : ∀ c ∈ s.head?, isDigit 10 c = false) (h : Remaining line pos (t ++ s)) :
    readInt line pos 10 = .ok (n, pos + t.length) := by
  have hread : readInt line pos 10 = .ok (value 10 t, pos + t.length) :=
    h.readInt ht.1 ht.2.1 hs (by rw [ht.2.2]; exact hn)
  rwa [ht.2.2] at hread

/-! ## Ethernet addresses -/

/-- What the reader makes of an octet: its leading decimal digits. -/
def decimalOctet (o : Char × Char) : ℕ := value 10 ([o.1, o.2].takeWhile (isDigit 10))

theorem digitVal_lt {base : ℕ} {c : Char} (h : isDigit base c = true) :
    ∃ d < base, digitVal c = some d := by
  rw [isDigit] at h
  cases hd : digitVal c with
  | none =>
      rw [hd] at h
      cases h
  | some d =>
      rw [hd] at h
      exact ⟨d, by simpa using h, rfl⟩

theorem decimalOctet_lt {o : Char × Char} (hdec : isDigit 10 o.1 = true) : decimalOctet o < 100 := by
  obtain ⟨a, ha, hda⟩ := digitVal_lt hdec
  cases h : isDigit 10 o.2 with
  | true =>
      obtain ⟨b, hb, hdb⟩ := digitVal_lt h
      simp [decimalOctet, hdec, h, value, hda, hdb]
      omega
  | false =>
      simp [decimalOctet, hdec, h, value, hda]
      omega

/-- The decimal reading of an octet is right for the octets up to nine only. -/
theorem decimalOctet_eq_iff {o : Char × Char} (h2 : isDigit 16 o.2 = true) (hdec : isDigit 10 o.1 = true) :
    value 16 [o.1, o.2] < 256 ∧
      (decimalOctet o = value 16 [o.1, o.2] ↔ value 16 [o.1, o.2] ≤ 9) := by
  obtain ⟨a, ha, hda⟩ := digitVal_lt hdec
  obtain ⟨b, hb, hdb⟩ := digitVal_lt h2
  have hhex : value 16 [o.1, o.2] = a * 16 + b := by simp [value, hda, hdb]
  rw [hhex]
  cases h : isDigit 10 o.2 with
  | true =>
      have hb10 : b < 10 := by simpa [isDigit, hdb] using h
      have hval : decimalOctet o = a * 10 + b := by simp [decimalOctet, hdec, h, value, hda, hdb]
      omega
  | false =>
      have hb10 : 10 ≤ b := by simpa [isDigit, hdb] using h
      have hval : decimalOctet o = a := by simp [decimalOctet, hdec, h, value, hda]
      omega

theorem not_le_nine {o : Char × Char} (h1 : isDigit 16 o.1 = true) (hdec : isDigit 10 o.1 = false) :
    ¬value 16 [o.1, o.2] ≤ 9 := by
  obtain ⟨a, -, hda⟩ := digitVal_lt h1
  have ha10 : 10 ≤ a := by simpa [isDigit, hda] using hdec
  have hhex : value 16 [o.1, o.2] = a * 16 + (digitVal o.2).getD 0 := by simp [value, hda]
  omega

theorem stoi_octet {o : Char × Char} {u : List Char} (h1 : isDigit 16 o.1 = true)
    (hu : ∀ c ∈ u.head?, isDigit 10 c = false) :
    (isDigit 10 o.1 = true → stoi (o.1 :: o.2 :: u) = .ok (decimalOctet o)) ∧
      (isDigit 10 o.1 = false → ∃ what, stoi (o.1 :: o.2 :: u) = .error (.thrown what)) := by
  have hspace : (o.1 :: o.2 :: u).dropWhile isSpace = o.1 :: o.2 :: u := by
    simp [isSpace_of_isDigit h1]
  have hsign := readSign_of_isDigit h1 (o.2 :: u)
  have htake : (o.1 :: o.2 :: u).takeWhile (isDigit 10) =
      [o.1, o.2].takeWhile (isDigit 10) := by
    have hnil : u.takeWhile (isDigit 10) = [] := by
      cases u with
      | nil => rfl
      | cons c u => simp [hu c rfl]
    simp [List.takeWhile_cons, hnil]
  simp only [stoi, hspace, hsign, htake, Bool.false_eq_true, if_false]
  constructor
  · intro hdec
    have hlt := (decimalOctet_lt hdec)
    have hne : [o.1, o.2].takeWhile (isDigit 10) ≠ [] := by simp [hdec]
    rw [decimalOctet] at hlt ⊢
    rw [if_neg]
    rintro (h | h | h)
    · exact hne h
    · omega
    · omega
  · intro hdec
    have hnil : [o.1, o.2].takeWhile (isDigit 10) = [] := by simp [hdec]
    exact ⟨_, if_pos (.inl hnil)⟩

/-- The octets are put together from the left. -/
theorem foldl_octets (f : Char × Char → ℕ) (octets : List (Char × Char)) {v : ℕ} :
    ∀ {k : ℕ}, (∀ o ∈ octets, f o < 256) → v < 256 ^ k → k + octets.length ≤ 8 →
      octets.foldl (fun val o => (val <<< 8) % 2 ^ 64 ||| f o) v =
        octets.foldl (fun val o => val * 256 + f o) v := by
  induction octets generalizing v with
  | nil => exact fun _ _ _ => rfl
  | cons o octets ih =>
      intro k hf hval hlen
      rw [List.forall_mem_cons] at hf
      rw [List.length_cons] at hlen
      have hnext : v * 256 + f o < 256 ^ (k + 1) := by
        rw [pow_succ]
        omega
      have hpow : (256 : ℕ) ^ (k + 1) ≤ 256 ^ 8 := Nat.pow_le_pow_right (by norm_num) (by omega)
      have h64 : (256 : ℕ) ^ 8 = 2 ^ 64 := by norm_num
      have hlt : v * 2 ^ 8 < 2 ^ 64 := by
        rw [← h64]
        exact (Nat.lt_of_le_of_lt (Nat.le_add_right _ _) hnext).trans_le hpow
      have hstep : (v <<< 8) % 2 ^ 64 ||| f o = v * 256 + f o := by
        rw [Nat.shiftLeft_eq, Nat.mod_eq_of_lt hlt, Nat.mul_comm v,
          ← Nat.two_pow_add_eq_or_of_lt (i := 8) hf.1]
        ring
      rw [List.foldl_cons, List.foldl_cons, hstep]
      exact ih hf.2 hnext (by omega)

/-- Numbers with the same number of octets are equal if the octets are. -/
theorem foldl_octets_inj {f g : Char × Char → ℕ} {octets : List (Char × Char)}
    (h : ∀ o ∈ octets, f o < 256 ∧ g o < 256) {v w : ℕ} :
    octets.foldl (fun val o => val * 256 + f o) v = octets.foldl (fun val o => val * 256 + g o) w ↔
      v = w ∧ ∀ o ∈ octets, f o = g o := by
  induction octets generalizing v w with
  | nil => simp
  | cons o octets ih =>
      rw [List.forall_mem_cons] at h
      rw [List.foldl_cons, List.foldl_cons, ih h.2, List.forall_mem_cons]
      have := h.1
      constructor
      · rintro ⟨heq, hrest⟩
        exact ⟨by omega, by omega, hrest⟩
      · rintro ⟨rfl, heq, hrest⟩
        exact ⟨by rw [heq], hrest⟩

theorem octetsText_cons (o : Char × Char) (octets : List (Char × Char)) (rest : List Char) :
    octetsText (o :: octets) ++ rest =
      o.1 :: o.2 :: (if octets = [] then rest else ':' :: (octetsText octets ++ rest)) := by
  obtain ⟨a, b⟩ := o
  cases octets with
  | nil => rfl
  | cons o octets => rfl

/-- One octet: the reader takes its leading decimal digits, or stops at a letter. -/
theorem readOctets_step {o : Char × Char} {u : List Char} (h1 : isDigit 16 o.1 = true)
    (hu : ∀ c ∈ u.head?, isDigit 10 c = false) (h : Remaining line pos (o.1 :: o.2 :: u))
    (n val : ℕ) :
    (isDigit 10 o.1 = true → readOctets line (n + 1) val pos = (do
        if (← charAt line (pos + 3)) = '/' then
          .error (.thrown "not implemented mask of the eth mac".toList)
        else readOctets line n ((val <<< 8) % 2 ^ 64 ||| decimalOctet o) (pos + 3))) ∧
      (isDigit 10 o.1 = false → ∀ v, readOctets line (n + 1) val pos ≠ .ok v) := by
  have hsub : substr line pos (pos + 2) = .ok (o.1 :: o.2 :: u.take pos) := by
    rw [substr, if_pos h.le, h.drop]
    rfl
  have hu' : ∀ c ∈ (u.take pos).head?, isDigit 10 c = false := by
    intro c hc
    cases u with
    | nil => simp at hc
    | cons d u =>
        cases pos with
        | zero => simp at hc
        | succ pos => exact hu c hc
  obtain ⟨hdigit, hletter⟩ := stoi_octet h1 hu'
  constructor
  · intro hdec
    have hval : ((decimalOctet o : ℤ) % 2 ^ 64).toNat = decimalOctet o := by
      have := decimalOctet_lt hdec
      omega
    simp only [readOctets, hsub, bind, Except.bind, hdigit hdec, hval]
  · intro hdec v
    obtain ⟨what, hwhat⟩ := hletter hdec
    simp only [readOctets, hsub, bind, Except.bind, hwhat]
    exact fun h => by cases h

/-- The address is read if every octet starts with a decimal digit and something follows. -/
theorem readOctets_eq {octets : List (Char × Char)}
    (hhex : ∀ o ∈ octets, isDigit 16 o.1 = true ∧ isDigit 16 o.2 = true) (hne : octets ≠ [])
    (hrest : Follows rest) (val : ℕ) (h : Remaining line pos (octetsText octets ++ rest)) :
    ((∀ o ∈ octets, isDigit 10 o.1 = true) ∧ rest ≠ [] →
      readOctets line octets.length val pos =
        .ok (octets.foldl (fun val o => (val <<< 8) % 2 ^ 64 ||| decimalOctet o) val,
          pos + 3 * octets.length)) ∧
    (¬((∀ o ∈ octets, isDigit 10 o.1 = true) ∧ rest ≠ []) →
      ∀ v, readOctets line octets.length val pos ≠ .ok v) := by
  induction octets generalizing val pos with
  | nil => exact (hne rfl).elim
  | cons o octets ih =>
      rw [List.forall_mem_cons] at hhex
      rw [octetsText_cons] at h
      by_cases hlast : octets = []
      · subst hlast
        rw [if_pos rfl] at h
        obtain ⟨hdigit, hletter⟩ := readOctets_step hhex.1.1 hrest.not_isDigit h 0 val
        cases hdec : isDigit 10 o.1 with
        | false => exact ⟨fun ⟨h, _⟩ => by simp [hdec] at h, fun _ => hletter hdec⟩
        | true =>
            rw [List.length_singleton, hdigit hdec]
            cases rest with
            | nil =>
                refine ⟨fun ⟨_, h⟩ => (h rfl).elim, fun _ v => ?_⟩
                rw [h.charAt_undefined (by simp)]
                exact fun h => by cases h
            | cons c rest =>
                refine ⟨fun _ => ?_, fun hno => (hno ⟨by simpa using hdec, by simp⟩).elim⟩
                have hnext : ∃ d, charAt line (pos + 3) = .ok d ∧ d ≠ '/' := by
                  cases rest with
                  | nil => exact ⟨_, h.charAt_end, by decide⟩
                  | cons d rest => exact ⟨d, h.charAt rfl, (hrest.near 1 (by decide) d rfl).1⟩
                obtain ⟨d, hd, hne⟩ := hnext
                simp only [hd, bind, Except.bind, if_neg hne]
                rfl
      · rw [if_neg hlast] at h
        have hcolon : ∀ c ∈ (':' :: (octetsText octets ++ rest)).head?, isDigit 10 c = false := by
          intro c hc
          cases hc
          rfl
        obtain ⟨hdigit, hletter⟩ := readOctets_step hhex.1.1 hcolon h octets.length val
        cases hdec : isDigit 10 o.1 with
        | false => exact ⟨fun ⟨h, _⟩ => by simp [hdec] at h, fun _ => hletter hdec⟩
        | true =>
            obtain ⟨d, hd, hne⟩ : ∃ d, charAt line (pos + 3) = .ok d ∧ d ≠ '/' := by
              obtain ⟨o', octets', rfl⟩ := List.exists_cons_of_ne_nil hlast
              refine ⟨o'.1, h.charAt (by rw [octetsText_cons]; rfl), ?_⟩
              rintro heq
              have := (hhex.2 o' List.mem_cons_self).1
              rw [heq] at this
              cases this
            have hih := ih hhex.2 hlast ((val <<< 8) % 2 ^ 64 ||| decimalOctet o)
              (h.append (t := [o.1, o.2, ':']))
            rw [List.length_cons, hdigit hdec, List.forall_mem_cons, List.foldl_cons,
              show pos + 3 * (octets.length + 1) = pos + 3 + 3 * octets.length by ring]
            simp only [hd, bind, Except.bind, if_neg hne, hdec, true_and]
            exact hih

theorem octetsText_length {octets : List (Char × Char)} (hne : octets ≠ []) :
    (octetsText octets).length + 1 = 3 * octets.length := by
  induction octets with
  | nil => exact (hne rfl).elim
  | cons o octets ih =>
      rw [← List.append_nil (octetsText _), octetsText_cons]
      split
      · next h =>
          subst h
          rfl
      · next h =>
          simp only [List.length_cons, List.append_nil]
          have := ih h
          omega

/-- The outcome for an Ethernet address. -/
theorem readEthMac_outcome {octets : List (Char × Char)} (hlen : octets.length = 6)
    (hhex : ∀ o ∈ octets, isDigit 16 o.1 = true ∧ isDigit 16 o.2 = true) (hrest : Follows rest)
    (h : Remaining line pos (octetsText octets ++ rest)) :
    Outcome line rest (readEthMac line pos) (· = (FlowValue.mac octets).range)
      ((FlowValue.mac octets).Readable rest.length) := by
  have hne : octets ≠ [] := by
    rintro rfl
    cases hlen
  have hread := readOctets_eq hhex hne hrest 0 h
  rw [hlen] at hread
  by_cases hgood : (∀ o ∈ octets, isDigit 10 o.1 = true) ∧ rest ≠ []
  · obtain ⟨hdec, hcons⟩ := hgood
    obtain ⟨c, rest, rfl⟩ := List.exists_cons_of_ne_nil hcons
    have hlt : ∀ o ∈ octets, decimalOctet o < 256 := fun o ho =>
      (decimalOctet_lt (hdec o ho)).trans (by decide)
    have hval := foldl_octets decimalOctet octets (k := 0) hlt (v := 0) (by decide) (by omega)
    refine .inl ⟨_, pos + 18, by rw [readEthMac, hread.1 ⟨hdec, hcons⟩, hval]; rfl, .inr ?_, ?_⟩
    · have := octetsText_length hne
      have htail := h.append.tail
      rw [hlen] at this
      rw [show pos + (octetsText octets).length + 1 = pos + 18 by omega] at htail
      exact ⟨c, rest, rfl, htail⟩
    · have hinj := foldl_octets_inj (f := decimalOctet) (g := fun o => value 16 [o.1, o.2])
        (v := 0) (w := 0) fun o ho => ⟨hlt o ho, (decimalOctet_eq_iff (hhex o ho).2 (hdec o ho)).1⟩
      simp only [FlowValue.range, FlowValue.Readable, Range1d.mk.injEq, and_self, hinj, true_and,
        List.length_cons, Nat.le_add_left, and_true]
      exact forall₂_congr fun o ho => (decimalOctet_eq_iff (hhex o ho).2 (hdec o ho)).2
  · refine .of_error (fun v hv => ?_) fun hr => hgood ⟨fun o ho => ?_, ?_⟩
    · cases hr : readOctets line 6 0 pos with
      | ok w => exact hread.2 hgood w hr
      | error e =>
          rw [readEthMac, hr] at hv
          cases hv
    · by_contra hdec
      exact not_le_nine (hhex o ho).1 (Bool.not_eq_true _ ▸ hdec) (hr.1 o ho)
    · rintro rfl
      exact absurd hr.2 (by decide)

/-! ## IPv4 addresses -/

theorem readIpv4Octets_step {t : List Char} {n addr : ℕ} (ht : IsNumeral 10 t n) (hn : n < 256)
    (hs : ∀ c ∈ s.head?, isDigit 10 c = false) (h : Remaining line pos (t ++ s))
    (haddr : addr < 16777216) (k : ℕ) :
    readIpv4Octets line (k + 1) addr pos =
      readIpv4Octets line k (addr * 256 + n) (pos + t.length + 1) := by
  have hor : (addr <<< 8) % 2 ^ 32 ||| n = addr * 256 + n := by
    rw [Nat.shiftLeft_eq, Nat.mod_eq_of_lt (by omega), Nat.mul_comm addr,
      ← Nat.two_pow_add_eq_or_of_lt (i := 8) hn]
  have hmod : (addr * 256 + n) % 2 ^ 32 = addr * 256 + n := Nat.mod_eq_of_lt (by omega)
  simp only [readIpv4Octets, readInt_numeral ht (by omega) hs h, bind, Except.bind, hor, hmod]

/-- The four octets are read, and one character more is skipped. -/
theorem readIpv4_eq {t0 t1 t2 t3 : List Char}
    (ht : ∀ t ∈ [t0, t1, t2, t3], ∃ n < 256, IsNumeral 10 t n) (hrest : Follows rest)
    (h : Remaining line pos ((FlowValue.ipv4 t0 t1 t2 t3).text ++ rest)) :
    readIpv4 line pos = .ok ((FlowValue.ipv4 t0 t1 t2 t3).range,
      pos + (FlowValue.ipv4 t0 t1 t2 t3).text.length + 1) := by
  simp only [List.forall_mem_cons] at ht
  obtain ⟨⟨n0, hn0, h0⟩, ⟨n1, hn1, h1⟩, ⟨n2, hn2, h2⟩, ⟨n3, hn3, h3⟩, -⟩ := ht
  have hdot : ∀ {u : List Char}, ∀ c ∈ ('.' :: u).head?, isDigit 10 c = false := by
    intro u c hc
    cases hc
    rfl
  simp only [FlowValue.text, List.append_assoc, List.cons_append] at h
  have hpos1 := h.append.tail
  have hpos2 := hpos1.append.tail
  have hpos3 := hpos2.append.tail
  have hval : ∀ t n, IsNumeral 10 t n → value 10 t = n := fun t n h => h.2.2
  have hnext : ∀ {a b n : ℕ}, a < b → n < 256 → a * 256 + n < b * 256 := by
    intro a b n ha hn
    omega
  have hlt1 := hnext Nat.one_pos hn0
  have hlt2 := hnext hlt1 hn1
  have hlt3 := hnext hlt2 hn2
  have hlen : pos + (FlowValue.ipv4 t0 t1 t2 t3).text.length + 1 =
      pos + t0.length + 1 + t1.length + 1 + t2.length + 1 + t3.length + 1 := by
    simp only [FlowValue.text, List.length_append, List.length_cons]
    ring
  rw [readIpv4, readIpv4Octets_step h0 hn0 hdot h (by decide),
    readIpv4Octets_step h1 hn1 hdot hpos1 (hlt1.trans (by norm_num)),
    readIpv4Octets_step h2 hn2 hdot hpos2 (hlt2.trans (by norm_num)),
    readIpv4Octets_step h3 hn3 hrest.not_isDigit hpos3 (hlt3.trans_le (by norm_num)), hlen]
  simp only [FlowValue.range, List.foldl_cons, List.foldl_nil, hval _ _ h0, hval _ _ h1,
    hval _ _ h2, hval _ _ h3]
  rfl

/-- A character in front of the first dot is passed over. -/
theorem readIpGo_digit {i : ℕ} {is : List ℕ} {c : Char} (hc : isDigit 10 c = true)
    (h : Remaining line pos s) (hi : s[i]? = some c) (old : Range1d) :
    readIpGo line (i :: is) old pos = readIpGo line is old pos := by
  have hcolon : c ≠ ':' := by
    rintro rfl
    cases hc
  have hdot : c ≠ '.' := by
    rintro rfl
    cases hc
  simp only [readIpGo, h.charAt hi, bind, Except.bind, if_neg hcolon, if_neg hdot]

theorem readIpGo_dot {i : ℕ} {is : List ℕ} (h : Remaining line pos s) (hi : s[i]? = some '.')
    {val : Range1d} {pos' : ℕ} (hread : readIpv4 line pos = .ok (val, pos')) (old : Range1d) :
    readIpGo line (i :: is) old pos = readIpGo line is val pos' := by
  simp only [readIpGo, h.charAt hi, bind, Except.bind, hread, if_neg (by decide : ('.' : Char) ≠ ':'),
    if_true]

/-- The outcome for an IPv4 address, of which the reader looks at the first three characters. -/
theorem readIp_outcome {t0 t1 t2 t3 : List Char}
    (ht : ∀ t ∈ [t0, t1, t2, t3], ∃ n < 256, IsNumeral 10 t n) (hrest : Follows rest)
    (h : Remaining line pos ((FlowValue.ipv4 t0 t1 t2 t3).text ++ rest)) (old : Range1d) :
    Outcome line rest (readIp line pos old) (· = (FlowValue.ipv4 t0 t1 t2 t3).range)
      ((FlowValue.ipv4 t0 t1 t2 t3).Readable rest.length) := by
  have hread := readIpv4_eq ht hrest h
  set val := FlowValue.ipv4 t0 t1 t2 t3 with hval
  have hbehind := h.append
  have hlength := h.length
  rw [List.length_append] at hlength
  obtain ⟨n0, -, h0⟩ := ht t0 (by simp)
  have htext : val.text ++ rest = t0 ++ '.' :: (t1 ++ '.' :: (t2 ++ '.' :: t3)) ++ rest := rfl
  rcases t0 with _ | ⟨a, _ | ⟨b, _ | ⟨c, t⟩⟩⟩
  · exact (h0.1 rfl).elim
  · have ha := h0.2.1 a (by simp)
    rw [readIp, readIpGo_digit ha h (by rw [htext]; rfl), readIpGo_dot h (by rw [htext]; rfl) hread]
    -- the third turn looks at the character three places behind the address
    rcases Nat.lt_or_ge rest.length 3 with hlt | hge
    · have hundefined : charAt line (pos + val.text.length + 1 + 2) = .error .undefined :=
        hbehind.charAt_undefined hlt
      refine .of_error (fun v hv => ?_) ?_
      · simp only [readIpGo, hundefined, bind, Except.bind] at hv
        cases hv
      · simp [hval, FlowValue.Readable, hlt]
    · obtain ⟨d, hd, hcolon, hdot⟩ :
          ∃ d, charAt line (pos + val.text.length + 1 + 2) = .ok d ∧ d ≠ ':' ∧ d ≠ '.' := by
        rcases Nat.eq_or_lt_of_le hge with heq | hlt
        · have hend := hbehind.charAt_end
          rw [← heq] at hend
          exact ⟨_, hend, by decide, by decide⟩
        · have hnear := hrest.near 3 (by decide) rest[3] (by simp [hlt])
          exact ⟨rest[3], hbehind.charAt (i := 3) (by simp [hlt]), hnear.2.2, hnear.2.1⟩
      obtain ⟨c, rest, rfl⟩ := List.exists_cons_of_ne_nil
        (show rest ≠ [] by rintro rfl; exact absurd hge (by decide))
      refine .inl ⟨val.range, pos + val.text.length + 1, ?_, .inr ⟨c, rest, rfl, hbehind.tail⟩, ?_⟩
      · simp only [readIpGo, hd, bind, Except.bind, if_neg hcolon, if_neg hdot]
      · exact iff_of_true rfl (.inl ⟨rfl, hge⟩)
  · have ha := h0.2.1 a (by simp)
    have hb := h0.2.1 b (by simp)
    rw [readIp, readIpGo_digit ha h (by rw [htext]; rfl), readIpGo_digit hb h (by rw [htext]; rfl),
      readIpGo_dot h (by rw [htext]; rfl) hread]
    cases rest with
    | nil =>
        refine .inr ⟨fun v pos' hv => .inl ?_, by simp [hval, FlowValue.Readable]⟩
        cases hv
        rw [hlength, List.length_nil]
        omega
    | cons c rest =>
        exact .inl ⟨val.range, _, rfl, .inr ⟨c, rest, rfl, hbehind.tail⟩,
          iff_of_true rfl (.inr ⟨rfl, Nat.succ_pos _⟩)⟩
  · have ha := h0.2.1 a (by simp)
    have hb := h0.2.1 b (by simp)
    have hc := h0.2.1 c (by simp)
    rw [readIp, readIpGo_digit ha h (by rw [htext]; rfl), readIpGo_digit hb h (by rw [htext]; rfl),
      readIpGo_digit hc h (by rw [htext]; rfl)]
    -- the address is not read at all
    refine .inr ⟨fun v pos' hv => .inr ?_, by simp [hval, FlowValue.Readable]⟩
    cases hv
    rw [htext, List.append_assoc, List.cons_append] at h
    exact ⟨_, '.', _, fun d hd => isAlphanum_of_isDigit (h0.2.1 d hd), .inl rfl, h⟩

/-! ## Numbers and masks -/

/-- A number that is read consists of the digits at the cursor. -/
theorem Remaining.readInt_ok {t : List Char} {base n pos' : ℕ} (h : Remaining line pos (t ++ s))
    (ht : ∀ c ∈ t, isDigit 10 c = true) (hs : ∀ c ∈ s.head?, isDigit 10 c = false)
    (hread : Pcv.readInt line pos base = .ok (n, pos')) :
    t ≠ [] ∧ n = value base t ∧ pos' = pos + t.length := by
  simp only [Pcv.readInt, h.readWhile ht hs, bind, Except.bind, stol] at hread
  split at hread
  · cases hread
  · next hif =>
      split at hif
      · cases hif
      · next hne =>
          cases hif
          cases hread
          exact ⟨fun h => hne (.inl h), rfl, rfl⟩

theorem readRange_decimal {t : List Char} {n : ℕ} (ht : IsNumeral 10 t n) (hn : n < 2 ^ 16)
    (hrest : Follows rest) (h : Remaining line pos (t ++ rest)) :
    readRange line pos = .ok (⟨n, n⟩, pos + t.length) := by
  obtain ⟨c, hc, hx⟩ : ∃ c, charAt line (pos + t.length) = .ok c ∧ c ≠ 'x' := by
    cases rest with
    | nil => exact ⟨_, h.append.charAt_end, by decide⟩
    | cons c rest =>
        refine ⟨c, h.append.charAt (i := 0) rfl, ?_⟩
        rintro rfl
        exact absurd (hrest.head _ rfl) (by decide)
  have hlt : n < 2 ^ 63 := hn.trans (by norm_num)
  simp only [readRange, readInt_numeral ht hlt hrest.not_isDigit h, bind, Except.bind, hc,
    Nat.mod_eq_of_lt hn, hx, and_false, if_false]
  rfl

/-- The steps of `read_range` behind `0x`. -/
theorem readRange_hex (h : Remaining line pos ('0' :: 'x' :: s)) :
    readRange line pos = (do
      let (a, pos) ← readInt line (pos + 2) 16
      let (m, pos) ← readInt line (pos + 3) 16
      return (⟨a % 2 ^ 16, (a % 2 ^ 16 + bitNot 16 (m % 2 ^ 16)) % 2 ^ 16⟩, pos)) := by
  have hzero : readInt line pos 10 = .ok (0, pos + 1) :=
    h.readInt (t := ['0']) (by decide) (List.forall_mem_singleton.mpr rfl)
      (by intro c hc; cases hc; rfl) (by decide)
  have hx : charAt line (pos + 1) = .ok 'x' := h.charAt rfl
  simp only [readRange, hzero, hx, bind, Except.bind, Nat.zero_mod, and_self, if_true]

/-- Digits of a text with value zero. -/
theorem isDigit_of_value_eq_zero {zeros : List Char} (hhex : ∀ c ∈ zeros, isDigit 16 c = true)
    (h : value 16 zeros = 0) : ∀ c ∈ zeros, isDigit 10 c = true := by
  induction zeros with
  | nil => exact fun c hc => (List.not_mem_nil hc).elim
  | cons c zeros ih =>
      rw [List.forall_mem_cons] at hhex ⊢
      obtain ⟨d, -, hd⟩ := digitVal_lt hhex.1
      rw [value_cons, hd, Option.getD_some] at h
      have hpos : 0 < 16 ^ zeros.length := Nat.pow_pos (by decide)
      have hd0 : d = 0 := by
        by_contra hne
        have := Nat.mul_le_mul (Nat.one_le_iff_ne_zero.mpr hne) hpos
        omega
      subst hd0
      exact ⟨by simp [isDigit, hd], ih hhex.2 (by omega)⟩

/-- A text of hexadecimal digits is decimal digits, or such with a letter behind them. -/
theorem digits_or_letter {v : List Char} (hhex : ∀ c ∈ v, isDigit 16 c = true) :
    (∀ c ∈ v, isDigit 10 c = true) ∨ ∃ front a back, v = front ++ a :: back ∧
      (∀ c ∈ front, isDigit 10 c = true) ∧ isDigit 10 a = false ∧
      value 16 front < value 16 v := by
  induction v with
  | nil => exact .inl fun c hc => (List.not_mem_nil hc).elim
  | cons c v ih =>
      rw [List.forall_mem_cons] at hhex
      obtain ⟨d, -, hd⟩ := digitVal_lt hhex.1
      cases hc : isDigit 10 c with
      | false =>
          refine .inr ⟨[], c, v, rfl, fun c hc => (List.not_mem_nil hc).elim, hc, ?_⟩
          have hge : 10 ≤ d := by simpa [isDigit, hd] using hc
          have hpos : 0 < 16 ^ v.length := Nat.pow_pos (by decide)
          rw [value_cons, hd, Option.getD_some]
          have := Nat.mul_le_mul hge hpos
          exact Nat.lt_of_lt_of_le (show 0 < 10 * 1 by decide) (by omega)
      | true =>
          rcases ih hhex.2 with hall | ⟨front, a, back, rfl, hfront, ha, hlt⟩
          · exact .inl (List.forall_mem_cons.mpr ⟨hc, hall⟩)
          · refine .inr ⟨c :: front, a, back, rfl, List.forall_mem_cons.mpr ⟨hc, hfront⟩, ha, ?_⟩
            rw [value_cons, value_cons, hd, Option.getD_some]
            have hlen : front.length ≤ (front ++ a :: back).length := by simp
            have := Nat.mul_le_mul_left d (Nat.pow_le_pow_right (show 0 < 16 by decide) hlen)
            omega

section Masked

variable {v m : List Char} {V M : ℕ}

/-- The denoted range, without the operations on bits. -/
theorem masked_range (hv : IsNumeral 16 v V) (hV : V < 2 ^ 16) (hm : IsNumeral 16 m M)
    (hM : IsPrefixMask 16 M) :
    (FlowValue.masked v m).range = ⟨V &&& M, (V &&& M) + (65535 - M)⟩ ∧
      (V &&& M) + (65535 - M) < 65536 := by
  have hand : (V &&& M) &&& M = V &&& M := by rw [Nat.and_assoc, Nat.and_self]
  have hor := hM.or_bitNot hand
  have hlt : (V &&& M) ||| bitNot 16 M < 2 ^ 16 :=
    Nat.or_lt_two_pow (Nat.lt_of_le_of_lt Nat.and_le_left hV) (bitNot_lt 16 M)
  have hnot : bitNot 16 M = 65535 - M := rfl
  rw [hor, hnot] at hlt
  refine ⟨?_, hlt⟩
  simp only [FlowValue.range, hv.2.2, hm.2.2, Range1d.fromMask, Nat.reduceMul, hor]
  rfl

/-- A range that is made of numbers up to the value and the mask is right for these only. -/
theorem masked_range_eq_iff (hv : IsNumeral 16 v V) (hV : V < 2 ^ 16) (hm : IsNumeral 16 m M)
    (hM : IsPrefixMask 16 M) {a e : ℕ} (ha : a < 2 ^ 16) (he : e ≤ M) :
    (⟨a, (a + bitNot 16 e) % 2 ^ 16⟩ : Range1d) = (FlowValue.masked v m).range ↔
      a = V &&& M ∧ e = M := by
  obtain ⟨hrange, hlt⟩ := masked_range hv hV hm hM
  have hnot : bitNot 16 e = 65535 - e := rfl
  have hMlt := hM.lt
  rw [hrange, hnot, Range1d.mk.injEq]
  constructor
  · rintro ⟨rfl, heq⟩
    exact ⟨rfl, by omega⟩
  · rintro ⟨rfl, rfl⟩
    exact ⟨rfl, Nat.mod_eq_of_lt hlt⟩

/-- The mask is read where a value of decimal digits ends. -/
theorem readRange_masked_digits (hv : IsNumeral 16 v V) (hV : V < 2 ^ 16) (hm : IsNumeral 16 m M)
    (hM : IsPrefixMask 16 M) (hrest : Follows rest)
    (h : Remaining line pos ((FlowValue.masked v m).text ++ rest))
    (hdigits : ∀ c ∈ v, isDigit 10 c = true) :
    Outcome line rest (readRange line pos) (· = (FlowValue.masked v m).range)
      ((FlowValue.masked v m).Readable rest.length) := by
  have hMlt := hM.lt
  have htext : (FlowValue.masked v m).text ++ rest =
      '0' :: 'x' :: (v ++ '/' :: '0' :: 'x' :: (m ++ rest)) := by
    simp [FlowValue.text]
  rw [htext] at h
  have hvalue : Remaining line (pos + 2) (v ++ '/' :: '0' :: 'x' :: (m ++ rest)) :=
    h.append (t := ['0', 'x'])
  have hmask : Remaining line (pos + 2 + v.length + 3) (m ++ rest) :=
    hvalue.append.append (t := ['/', '0', 'x'])
  have hreadv : readInt line (pos + 2) 16 = .ok (V, pos + 2 + v.length) := by
    have := hvalue.readInt hv.1 hdigits (by intro c hc; cases hc; rfl)
      (show value 16 v < 2 ^ 63 by rw [hv.2.2]; exact hV.trans (by norm_num))
    rwa [hv.2.2] at this
  have hreadable : (FlowValue.masked v m).Readable rest.length ↔
      (∀ c ∈ m, isDigit 10 c = true) ∧ V &&& M = V := by
    simp only [FlowValue.Readable, hv.2.2, hm.2.2]
    constructor
    · rintro (⟨-, hmd, hand⟩ | ⟨-, zeros, a, b, rfl, -, -, ha⟩)
      · exact ⟨hmd, hand⟩
      · rw [hdigits a (by simp)] at ha
        cases ha
    · exact fun ⟨hmd, hand⟩ => .inl ⟨hdigits, hmd, hand⟩
  rw [readRange_hex h, hreadable]
  simp only [hreadv, bind, Except.bind, Nat.mod_eq_of_lt hV]
  rcases digits_or_letter hm.2.1 with hmd | ⟨front, b, back, rfl, hfront, hb, hlt⟩
  · have hreadm : readInt line (pos + 2 + v.length + 3) 16 =
        .ok (M, pos + 2 + v.length + 3 + m.length) := by
      have := hmask.readInt hm.1 hmd hrest.not_isDigit
        (show value 16 m < 2 ^ 63 by rw [hm.2.2]; exact hMlt.trans (by norm_num))
      rwa [hm.2.2] at this
    rw [hreadm]
    refine .inl ⟨_, _, rfl, hmask.append.lands, ?_⟩
    simp only [Nat.mod_eq_of_lt hMlt, masked_range_eq_iff hv hV hm hM hV le_rfl, and_true]
    exact ⟨fun h => ⟨hmd, h.symm⟩, fun h => h.2.symm⟩
  · have hno : ¬((∀ c ∈ front ++ b :: back, isDigit 10 c = true) ∧ V &&& M = V) := by
      rintro ⟨hmd, -⟩
      rw [hmd b (by simp)] at hb
      cases hb
    rw [hm.2.2] at hlt
    rw [List.append_assoc, List.cons_append] at hmask
    cases hread : readInt line (pos + 2 + v.length + 3) 16 with
    | error e => exact .of_error (fun w hw => by cases hw) hno
    | ok w =>
        obtain ⟨n, pos'⟩ := w
        obtain ⟨-, rfl, rfl⟩ := hmask.readInt_ok hfront (by intro c hc; cases hc; exact hb) hread
        refine .inl ⟨_, _, rfl, .inl ⟨b :: back, ?_, hmask.append⟩, ?_⟩
        · exact fun c hc => isAlphanum_of_isDigit (hm.2.1 c (List.mem_append_right front hc))
        · have hlt' : value 16 front % 2 ^ 16 = value 16 front :=
            Nat.mod_eq_of_lt (hlt.trans hMlt)
          simp only [hlt', masked_range_eq_iff hv hV hm hM hV hlt.le]
          exact iff_of_false (fun h => hlt.ne h.2) hno

/-- At a letter in the value the reader stops, or takes up the text in the wrong place. -/
theorem readRange_masked_letter {front back : List Char} {a : Char} (hv : IsNumeral 16 v V)
    (hV : V < 2 ^ 16) (hm : IsNumeral 16 m M) (hM : IsPrefixMask 16 M)
    (h : Remaining line pos ((FlowValue.masked v m).text ++ rest)) (heq : v = front ++ a :: back)
    (hfront : ∀ c ∈ front, isDigit 10 c = true) (ha : isDigit 10 a = false)
    (hlt : value 16 front < value 16 v) :
    Outcome line rest (readRange line pos) (· = (FlowValue.masked v m).range)
      ((FlowValue.masked v m).Readable rest.length) := by
  have hMlt := hM.lt
  rw [hv.2.2] at hlt
  have htext : (FlowValue.masked v m).text ++ rest =
      '0' :: 'x' :: (front ++ a :: (back ++ '/' :: '0' :: 'x' :: (m ++ rest))) := by
    simp [FlowValue.text, heq]
  rw [htext] at h
  have hvalue : Remaining line (pos + 2)
      (front ++ a :: (back ++ '/' :: '0' :: 'x' :: (m ++ rest))) := h.append (t := ['0', 'x'])
  have hhead : ∀ c ∈ (a :: (back ++ '/' :: '0' :: 'x' :: (m ++ rest))).head?,
      isDigit 10 c = false := by
    intro c hc
    cases hc
    exact ha
  -- the digits in front of the letter are zeros, and one digit follows it
  have hreadable : (FlowValue.masked v m).Readable rest.length ↔
      M = 0 ∧ value 16 front = 0 ∧ front ≠ [] ∧ back.length = 1 := by
    simp only [FlowValue.Readable, hv.2.2, hm.2.2]
    constructor
    · rintro (⟨hvd, -⟩ | ⟨hM0, zeros, b, c, hzeros, hne, hzero, hb⟩)
      · rw [hvd a (heq ▸ by simp)] at ha
        cases ha
      · have hzd := isDigit_of_value_eq_zero
          (fun c hc => hv.2.1 c (hzeros ▸ List.mem_append_left _ hc)) hzero
        have hsame : front = zeros := by
          have := congrArg (List.takeWhile (isDigit 10)) (heq.symm.trans hzeros)
          simpa [List.takeWhile_append_of_pos hfront, List.takeWhile_append_of_pos hzd, ha, hb]
            using this
        subst hsame
        have hback := List.append_cancel_left (heq.symm.trans hzeros)
        cases hback
        exact ⟨hM0, hzero, hne, rfl⟩
    · rintro ⟨hM0, hzero, hne, hlen⟩
      obtain ⟨b, rfl⟩ := List.length_eq_one_iff.mp hlen
      exact .inr ⟨hM0, front, a, b, heq, hne, hzero, ha⟩
  rw [readRange_hex h, hreadable]
  by_cases hne : front = []
  · subst hne
    obtain ⟨what, hwhat⟩ := hvalue.readInt_thrown hhead 16
    rw [hwhat]
    exact .of_error (fun w hw => by cases hw) fun h => h.2.2.1 rfl
  have hVlt : value 16 front < 2 ^ 63 := (hlt.trans hV).trans (by norm_num)
  simp only [hvalue.readInt hne hfront hhead hVlt, bind, Except.bind,
    Nat.mod_eq_of_lt (hlt.trans hV)]
  have hbehind := hvalue.append
  match back with
  | [] =>
      have hmask : Remaining line (pos + 2 + front.length + 3) ('x' :: (m ++ rest)) :=
        hbehind.append (t := [a, '/', '0'])
      obtain ⟨what, hwhat⟩ := hmask.readInt_thrown (by intro c hc; cases hc; rfl) 16
      rw [hwhat]
      exact .of_error (fun w hw => by cases hw) fun h => absurd h.2.2.2 (by simp)
  | [b] =>
      have hmask : Remaining line (pos + 2 + front.length + 3) ('0' :: 'x' :: (m ++ rest)) :=
        hbehind.append (t := [a, b, '/'])
      have hzero : readInt line (pos + 2 + front.length + 3) 16 =
          .ok (0, pos + 2 + front.length + 3 + 1) :=
        hmask.readInt (t := ['0']) (by decide) (List.forall_mem_singleton.mpr rfl)
          (by intro c hc; cases hc; rfl) (by decide)
      rw [hzero]
      refine .inl ⟨_, _, rfl, .inl ⟨'x' :: m, ?_, hmask.tail⟩, ?_⟩
      · exact List.forall_mem_cons.mpr ⟨rfl, fun c hc => isAlphanum_of_isDigit (hm.2.1 c hc)⟩
      · simp only [Nat.zero_mod, masked_range_eq_iff hv hV hm hM (hlt.trans hV) (Nat.zero_le M)]
        constructor
        · rintro ⟨hand, rfl⟩
          exact ⟨rfl, by rw [hand, Nat.and_zero], hne, rfl⟩
        · rintro ⟨rfl, hzero, -, -⟩
          exact ⟨by rw [hzero, Nat.and_zero], rfl⟩
  | [b, c] =>
      have hmask : Remaining line (pos + 2 + front.length + 3) ('/' :: '0' :: 'x' :: (m ++ rest)) :=
        hbehind.append (t := [a, b, c])
      obtain ⟨what, hwhat⟩ := hmask.readInt_thrown (by intro c hc; cases hc; rfl) 16
      rw [hwhat]
      exact .of_error (fun w hw => by cases hw) fun h => absurd h.2.2.2 (by simp)
  | b :: c :: d :: back =>
      have hmask : Remaining line (pos + 2 + front.length + 3)
          (d :: back ++ '/' :: '0' :: 'x' :: (m ++ rest)) := hbehind.append (t := [a, b, c])
      have hhex : ∀ e ∈ d :: back, isDigit 16 e = true := by
        intro e he
        refine hv.2.1 e (heq ▸ ?_)
        simp only [List.mem_append, List.mem_cons] at he ⊢
        tauto
      refine .inr ⟨fun w pos' hw => .inr ?_, fun h => absurd h.2.2.2 (by simp)⟩
      cases hread : readInt line (pos + 2 + front.length + 3) 16 with
      | error e =>
          rw [hread] at hw
          cases hw
      | ok n =>
          rw [hread] at hw
          cases hw
          rcases digits_or_letter hhex with hall | ⟨front', a', back', heq', hfront', ha', -⟩
          · obtain ⟨-, -, hpos⟩ := hmask.readInt_ok hall (by intro c hc; cases hc; rfl) hread
            rw [hpos]
            exact ⟨[], '/', _, fun c hc => (List.not_mem_nil hc).elim, .inr rfl, hmask.append⟩
          · rw [heq'] at hmask hhex
            rw [List.append_assoc] at hmask
            obtain ⟨-, -, hpos⟩ := hmask.readInt_ok hfront' (by intro c hc; cases hc; exact ha') hread
            rw [hpos]
            exact ⟨a' :: back', '/', _, fun c hc => isAlphanum_of_isDigit
              (hhex c (List.mem_append_right _ hc)), .inr rfl, hmask.append⟩

end Masked

end Values

end Pcv
