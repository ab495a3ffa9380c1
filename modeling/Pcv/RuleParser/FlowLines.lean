import Pcv.RuleParser.FlowCursor

/-!
# The lines of a flow dump

The loop over the fields of a line takes the fields one after the other as long as every value is
readable.  A value that is not readable ends the reading, or leaves a wrong range in the rule, and
no later field can put this right.
-/

namespace Pcv

open Text

/-! ## Fields -/

/-- The assignments to the members that a name stands for. -/
def FlowName.assign (name : FlowName) (val : Range1d) (r : RuleOF151) : RuleOF151 :=
  name.fields.foldl (fun r f => r.setField f val) r

section Fields

variable {line rest s : List Char} {i n : ℕ} {r : RuleOF151} {name : FlowName} {val : FlowValue}

theorem outcome_decimal {t : List Char} {n : ℕ} (ht : IsNumeral 10 t n)
    (h : Remaining line i (t ++ rest)) :
    Outcome line rest (.ok (⟨n, n⟩, i + t.length)) (· = (FlowValue.decimal t).range)
      ((FlowValue.decimal t).Readable rest.length) := by
  refine .inl ⟨_, _, rfl, h.append.lands, iff_of_true ?_ trivial⟩
  simp only [FlowValue.range, ht.2.2]

/-- The outcome for the names whose values are decimal numbers of `k` bits. -/
theorem outcome_readInt {k : ℕ} (hk : k ≤ 32)
    (htakes : ∃ t, val = .decimal t ∧ ∃ n < 2 ^ k, IsNumeral 10 t n) (hrest : Follows rest)
    (h : Remaining line i (val.text ++ rest)) :
    Outcome line rest
      ((readInt line i 10).map fun w => ((⟨w.1 % 2 ^ k, w.1 % 2 ^ k⟩ : Range1d), w.2))
      (· = val.range) (val.Readable rest.length) := by
  obtain ⟨t, rfl, n, hn, ht⟩ := htakes
  have hlt : n < 2 ^ 63 := hn.trans_le (Nat.pow_le_pow_right (by decide) (hk.trans (by decide)))
  rw [readInt_numeral ht hlt hrest.not_isDigit h]
  simp only [Except.map, Nat.mod_eq_of_lt hn]
  exact outcome_decimal ht h

/-- The outcome for the names whose values may have a mask. -/
theorem outcome_readRange (h : FlowName.tpDst.Takes val) (hrest : Follows rest)
    (hi : Remaining line i (val.text ++ rest)) :
    Outcome line rest (readRange line i) (· = val.range) (val.Readable rest.length) := by
  cases val with
  | decimal t =>
      obtain ⟨n, hn, ht⟩ := h
      rw [readRange_decimal ht hn hrest hi]
      exact outcome_decimal ht hi
  | masked v m =>
      obtain ⟨⟨V, hV, hv⟩, M, hM, hm⟩ := h
      rcases digits_or_letter hv.2.1 with hdigits | ⟨front, a, back, heq, hfront, ha, hlt⟩
      · exact readRange_masked_digits hv hV hm hM hrest hi hdigits
      · exact readRange_masked_letter hv hV hm hM hi heq hfront ha hlt
  | mac octets => exact h.elim
  | ipv4 t0 t1 t2 t3 => exact h.elim

theorem assigns_readInt {k : ℕ} (f : Range1d → RuleOF151) (hk : k ≤ 32)
    (htakes : ∃ t, val = .decimal t ∧ ∃ n < 2 ^ k, IsNumeral 10 t n) (hrest : Follows rest)
    (h : Remaining line i (val.text ++ rest)) :
    ∃ x : Except ParseFault (Range1d × ℕ),
      (do let (d, i) ← readInt line i 10; return (f ⟨d % 2 ^ k, d % 2 ^ k⟩, i)) =
        x.map (fun w => (f w.1, w.2)) ∧
      Outcome line rest x (· = val.range) (val.Readable rest.length) := by
  refine ⟨_, ?_, outcome_readInt hk htakes hrest h⟩
  cases readInt line i 10 <;> rfl

theorem assigns_outcome {x : Except ParseFault (Range1d × ℕ)} {f : Range1d → RuleOF151}
    (hx : Outcome line rest x (· = val.range) (val.Readable rest.length)) :
    ∃ y : Except ParseFault (Range1d × ℕ),
      (do let (val, i) ← x; return (f val, i)) = y.map (fun w => (f w.1, w.2)) ∧
      Outcome line rest y (· = val.range) (val.Readable rest.length) := by
  refine ⟨x, ?_, hx⟩
  cases x <;> rfl

/-- The branch of a name assigns the range that is read to the members of the name. -/
theorem FlowName.read_outcome (htakes : name.Takes val) (hrest : Follows rest)
    (h : Remaining line i (val.text ++ rest)) (r : RuleOF151) :
    ∃ x : Except ParseFault (Range1d × ℕ),
      name.read line i r = x.map (fun w => (name.assign w.1 r, w.2)) ∧
      Outcome line rest x (· = val.range) (val.Readable rest.length) := by
  have hdecimal {k : ℕ} (hk : k ≤ 32)
      (htakes : ∃ t, val = .decimal t ∧ ∃ n < 2 ^ k, IsNumeral 10 t n)
      {f : Range1d → RuleOF151} := assigns_readInt f hk htakes hrest h
  have hof (x : Except ParseFault (Range1d × ℕ)) (f : Range1d → RuleOF151) :=
    @assigns_outcome line rest val x f
  cases name with
  | inPort =>
      refine hdecimal le_rfl ?_
      cases val with
      | decimal t => exact ⟨t, rfl, htakes⟩
      | _ => exact htakes.elim
  | ethType =>
      refine hdecimal (by decide) ?_
      cases val with
      | decimal t => exact ⟨t, rfl, htakes⟩
      | _ => exact htakes.elim
  | nwProto =>
      refine hdecimal (by decide) ?_
      cases val with
      | decimal t => exact ⟨t, rfl, htakes⟩
      | _ => exact htakes.elim
  | dlSrc | dlDst =>
      cases val with
      | mac octets => exact hof _ _ (readEthMac_outcome htakes.1 htakes.2 hrest h)
      | _ => exact htakes.elim
  | nwSrc =>
      cases val with
      | ipv4 t0 t1 t2 t3 => exact hof _ _ (readIp_outcome htakes hrest h (r.fields .ipv4Src))
      | _ => exact htakes.elim
  | nwDst =>
      cases val with
      | ipv4 t0 t1 t2 t3 => exact hof _ _ (readIp_outcome htakes hrest h (r.fields .ipv4Dst))
      | _ => exact htakes.elim
  | tpDst =>
      exact hof _ (fun val => FlowName.assign .tpDst val r) (outcome_readRange htakes hrest h)
  | tpSrc =>
      exact hof _ (fun val => FlowName.assign .tpSrc val r) (outcome_readRange htakes hrest h)
  | dlVlan | vlanVid => exact hof _ _ (outcome_readRange htakes hrest h)

end Fields

/-! ## The loop -/

section Loop

variable {line rest s seps left : List Char} {i n : ℕ} {r : RuleOF151}

theorem isIdChar_of_isAlphanum {c : Char} (h : c.isAlphanum = true) : isIdChar c = true := by
  simp [isIdChar, h]

theorem not_isSeparator_of_isIdChar {c : Char} (h : isIdChar c = true) : isSeparator c = false := by
  by_contra hc
  rw [Bool.not_eq_false] at hc
  simp only [isSeparator, Bool.or_eq_true, beq_iff_eq] at hc
  rcases hc with rfl | rfl <;> cases h

namespace FlowName

theorem isIdChar_text (name : FlowName) : ∀ c ∈ name.text, isIdChar c = true :=
  List.all_eq_true.mp (by cases name <;> decide)

theorem text_length (name : FlowName) : 6 ≤ name.text.length := by cases name <;> decide

theorem ofId_text (name : FlowName) : ofId name.text = some name := by cases name <;> decide

/-- Every name has an underscore. -/
theorem ofId_of_isAlphanum {id : List Char} (h : ∀ c ∈ id, c.isAlphanum = true) :
    ofId id = none := by
  refine List.find?_eq_none.mpr fun name _ hname => ?_
  have hid : id = name.text := by simpa using hname
  have hmem : '_' ∈ name.text := by cases name <;> decide
  exact absurd (h '_' (hid ▸ hmem)) (by decide)

end FlowName

/-- The start of a turn: separators are skipped and a name is read. -/
theorem skip_readId {id : List Char} (hseps : ∀ c ∈ seps, isSeparator c = true)
    (hid : ∀ c ∈ id, isIdChar c = true) (hs : ∀ c ∈ (id ++ s).head?, isSeparator c = false)
    (hs' : ∀ c ∈ s.head?, isIdChar c = false) (h : Remaining line i (seps ++ (id ++ s))) :
    skipSpaceAndComas line i = .ok (i + seps.length) ∧
      readId line (i + seps.length) = .ok (id, i + seps.length + id.length) := by
  constructor
  · simp only [skipSpaceAndComas, h.readWhile hseps hs, bind, Except.bind]
    rfl
  · exact h.append.readWhile hid hs'

/-- A turn for a known name. -/
theorem parseFields_item {name : FlowName} (hseps : ∀ c ∈ seps, isSeparator c = true)
    (h : Remaining line i (seps ++ (name.text ++ '=' :: s))) :
    parseFields line (n + 1) i r =
      (name.read line (i + seps.length + name.text.length + 1) r >>= fun w =>
        parseFields line n w.2 w.1) := by
  obtain ⟨c, t, hname⟩ := List.exists_cons_of_ne_nil
    (List.ne_nil_of_length_pos (Nat.lt_of_lt_of_le (by decide) name.text_length))
  have hhead : ∀ d ∈ (name.text ++ '=' :: s).head?, isSeparator d = false := by
    intro d hd
    rw [hname] at hd
    cases hd
    exact not_isSeparator_of_isIdChar (name.isIdChar_text c (hname ▸ List.mem_cons_self))
  obtain ⟨hskip, hid⟩ := skip_readId hseps name.isIdChar_text hhead
    (by intro d hd; cases hd; rfl) h
  have hne : name.text ≠ [] := by
    rw [hname]
    exact List.cons_ne_nil c t
  simp only [parseFields, hskip, hid, bind, Except.bind, if_neg hne, name.ofId_text]

/-- At the end of the line the loop stops. -/
theorem parseFields_end (hseps : ∀ c ∈ seps, isSeparator c = true) (h : Remaining line i seps) :
    parseFields line (n + 1) i r = .ok (r, line.length) := by
  have hnil : Remaining line i (seps ++ ([] ++ [])) := by simpa using h
  obtain ⟨hskip, hid⟩ := skip_readId hseps (fun _ hc => (List.not_mem_nil hc).elim)
    (fun _ hc => by cases hc) (fun _ hc => by cases hc) hnil
  simp only [parseFields, hskip, hid, bind, Except.bind, if_true, h.length]
  rfl

/-- A turn for letters and digits, which are no name. -/
theorem parseFields_left (hne : left ≠ []) (hleft : ∀ c ∈ left, c.isAlphanum = true)
    (hs : ∀ c ∈ s.head?, isIdChar c = false ∧ c ≠ '=') (h : Remaining line i (left ++ s)) :
    parseFields line (n + 1) i r = parseFields line n (i + left.length) r := by
  obtain ⟨a, t, rfl⟩ := List.exists_cons_of_ne_nil hne
  have hchars : ∀ c ∈ a :: t, isIdChar c = true := fun c hc => isIdChar_of_isAlphanum (hleft c hc)
  have hhead : ∀ c ∈ (a :: t ++ s).head?, isSeparator c = false := by
    intro c hc
    cases hc
    exact not_isSeparator_of_isIdChar (hchars a List.mem_cons_self)
  have hstart : Remaining line i ([] ++ (a :: t ++ s)) := h
  obtain ⟨hskip, hid⟩ := skip_readId (fun _ hc => (List.not_mem_nil hc).elim) hchars hhead
    (fun c hc => (hs c hc).1) hstart
  rw [List.length_nil, Nat.add_zero] at hskip hid
  have hvalue : readValue line (i + (a :: t).length) = .ok (i + (a :: t).length) := by
    obtain ⟨c, hc, hne⟩ : ∃ c, charAt line (i + (a :: t).length) = .ok c ∧ c ≠ '=' := by
      cases s with
      | nil => exact ⟨_, h.append.charAt_end, by decide⟩
      | cons c s => exact ⟨c, h.append.charAt (i := 0) rfl, (hs c rfl).2⟩
    simp only [readValue, hc, bind, Except.bind, if_pos hne]
    rfl
  simp only [parseFields, hskip, hid, bind, Except.bind, if_neg hne,
    FlowName.ofId_of_isAlphanum hleft, hvalue]

/-- The loop stops at a dot or a slash. -/
theorem parseFields_stop {c : Char} (hc : c = '.' ∨ c = '/') (h : Remaining line i (c :: s)) :
    parseFields line (n + 1) i r = .ok (r, i) := by
  have hstart : Remaining line i ([] ++ ([] ++ c :: s)) := h
  have hhead : ∀ d ∈ (c :: s).head?, isSeparator d = false ∧ isIdChar d = false := by
    intro d hd
    cases hd
    rcases hc with rfl | rfl <;> exact ⟨rfl, rfl⟩
  obtain ⟨hskip, hid⟩ := skip_readId (fun _ hc => (List.not_mem_nil hc).elim)
    (fun _ hc => (List.not_mem_nil hc).elim) (fun d hd => (hhead d hd).1)
    (fun d hd => (hhead d hd).2) hstart
  rw [List.length_nil, Nat.add_zero] at hskip hid
  simp only [parseFields, hskip, hid, bind, Except.bind, if_true]
  rfl

/-- Where it is stuck, the loop does not reach the end of the line. -/
theorem parseFields_stuck (h : Stuck line i) (n : ℕ) (r r' : RuleOF151) :
    parseFields line n i r ≠ .ok (r', line.length) := by
  have hstop : ∀ {c : Char} {s : List Char} {i : ℕ}, c = '.' ∨ c = '/' →
      Remaining line i (c :: s) → ∀ n, parseFields line n i r ≠ .ok (r', line.length) := by
    intro c s i hc h n
    cases n with
    | zero => exact fun h => by cases h
    | succ n =>
        rw [parseFields_stop hc h]
        intro heq
        have hlen := h.length
        simp only [Except.ok.injEq, Prod.mk.injEq] at heq
        rw [← heq.2, List.length_cons] at hlen
        omega
  cases n with
  | zero => exact fun h => by cases h
  | succ n =>
      rcases h with hlt | ⟨left, c, s, hleft, hc, h⟩
      · have hskip : skipSpaceAndComas line i = .error .undefined := by
          rw [skipSpaceAndComas, readWhile, if_neg (Nat.not_le.mpr hlt)]
          rfl
        simp only [parseFields, hskip, bind, Except.bind]
        exact fun h => by cases h
      · by_cases hnil : left = []
        · subst hnil
          exact hstop hc h (n + 1)
        · have hs : ∀ d ∈ (c :: s).head?, isIdChar d = false ∧ d ≠ '=' := by
            intro d hd
            cases hd
            rcases hc with rfl | rfl <;> exact ⟨rfl, by decide⟩
          rw [parseFields_left hnil hleft hs h]
          exact hstop hc h.append n

end Loop

/-! ## A whole line -/

/-- The assignments of the given ranges to the fields. -/
def assignAll : List FlowItem → List Range1d → RuleOF151 → RuleOF151
  | item :: items, v :: vs, r => assignAll items vs (item.name.assign v r)
  | _, _, r => r

section Items

variable {line seps : List Char} {i n : ℕ} {r : RuleOF151} {items : List FlowItem}

theorem follows_of_areFields {item : FlowItem} (h : AreFields (item :: items)) :
    Follows (item.seps ++ flowText items) := by
  obtain ⟨-, hseps, hne, -⟩ := h
  have hsep : ∀ {c : Char}, isSeparator c = true → c ≠ '/' ∧ c ≠ '.' ∧ c ≠ ':' := by
    intro c hc
    refine ⟨?_, ?_, ?_⟩ <;> rintro rfl <;> cases hc
  have hid : ∀ {c : Char}, isIdChar c = true → c ≠ '/' ∧ c ≠ '.' ∧ c ≠ ':' := by
    intro c hc
    refine ⟨?_, ?_, ?_⟩ <;> rintro rfl <;> cases hc
  constructor
  · intro c hc
    cases hitem : item.seps with
    | nil =>
        cases items with
        | nil =>
            rw [hitem] at hc
            cases hc
        | cons item' items => exact (hne (List.cons_ne_nil _ _) hitem).elim
    | cons d seps =>
        rw [hitem] at hc
        cases hc
        exact hseps c (hitem ▸ List.mem_cons_self)
  · intro i hi c hc
    rcases Nat.lt_or_ge i item.seps.length with hlt | hge
    · rw [List.getElem?_append_left hlt] at hc
      exact hsep (hseps c (List.mem_of_getElem? hc))
    · rw [List.getElem?_append_right hge] at hc
      cases items with
      | nil => cases hc
      | cons item' items =>
          have hpos := List.length_pos_iff.mpr (hne (List.cons_ne_nil _ _))
          have hlen := item'.name.text_length
          rw [flowText, List.getElem?_append_left (by omega)] at hc
          exact hid (item'.name.isIdChar_text c (List.mem_of_getElem? hc))

/-- Behind a value the loop comes to the separators in front of the next field, or further. -/
theorem parseFields_lands {item : FlowItem} (h : AreFields (item :: items)) {pos start : ℕ}
    (hstart : Remaining line start (item.seps ++ flowText items))
    (hlands : Lands line pos (item.seps ++ flowText items)) (hn : line.length + 1 < n + start) :
    ∃ n' pos' seps', parseFields line n pos r = parseFields line n' pos' r ∧
      (∀ c ∈ seps', isSeparator c = true) ∧ Remaining line pos' (seps' ++ flowText items) ∧
      line.length < n' + pos' := by
  have hlen := hstart.length
  rcases hlands with ⟨left, hleft, hpos⟩ | ⟨c, s, heq, hpos⟩
  · have hlen' := hpos.length
    rw [List.length_append] at hlen'
    obtain ⟨n, rfl⟩ := Nat.exists_eq_add_of_lt (show 0 < n by omega)
    rw [Nat.zero_add] at hn ⊢
    by_cases hnil : left = []
    · subst hnil
      exact ⟨n + 1, pos, item.seps, rfl, h.2.1, hpos, by rw [List.length_nil] at hlen'; omega⟩
    · have hs : ∀ d ∈ (item.seps ++ flowText items).head?, isIdChar d = false ∧ d ≠ '=' := by
        intro d hd
        have hsep := (follows_of_areFields h).head d hd
        constructor
        · by_contra hid
          rw [Bool.not_eq_false] at hid
          rw [not_isSeparator_of_isIdChar hid] at hsep
          cases hsep
        · rintro rfl
          cases hsep
      exact ⟨n, pos + left.length, item.seps, parseFields_left hnil hleft hs hpos, h.2.1,
        hpos.append, by omega⟩
  · have hlen' := hpos.length
    rw [heq, List.length_cons] at hlen
    cases hitem : item.seps with
    | nil =>
        cases items with
        | nil =>
            rw [hitem] at heq
            cases heq
        | cons item' items => exact (h.2.2.1 (List.cons_ne_nil _ _) hitem).elim
    | cons d seps =>
        rw [hitem, List.cons_append] at heq
        cases heq
        refine ⟨n, pos, seps, rfl, fun e he => h.2.1 e (hitem ▸ List.mem_cons_of_mem _ he), hpos, ?_⟩
        omega

/-- The loop over the fields: if it reaches the end of the line, it has assigned a range to every
field, and these are the denoted ranges if and only if every value is readable. -/
theorem parseFields_items (h : AreFields items) (hseps : ∀ c ∈ seps, isSeparator c = true)
    (hi : Remaining line i (seps ++ flowText items)) (hn : line.length < n + i) :
    (∃ vs : List Range1d, vs.length = items.length ∧
        parseFields line n i r = .ok (assignAll items vs r, line.length) ∧
        (vs = items.map (fun item => item.val.range) ↔ AllReadable items)) ∨
      (∀ r', parseFields line n i r ≠ .ok (r', line.length)) ∧ ¬AllReadable items := by
  have hle := hi.le
  obtain ⟨n, rfl⟩ := Nat.exists_eq_add_of_lt (show 0 < n by omega)
  rw [Nat.zero_add] at hn ⊢
  induction items generalizing seps i n r with
  | nil =>
      rw [flowText, List.append_nil] at hi
      exact .inl ⟨[], rfl, parseFields_end hseps hi, iff_of_true rfl trivial⟩
  | cons item items ih =>
      rw [flowText] at hi
      have hvalue := (hi.append.append).tail
      have hrest := hvalue.append
      have hname := item.name.text_length
      obtain ⟨x, hx, hout⟩ := FlowName.read_outcome h.1 (follows_of_areFields h) hvalue r
      rw [parseFields_item hseps hi, hx]
      rcases hout with ⟨v, pos, rfl, hlands, hiff⟩ | ⟨hstuck, hno⟩
      · obtain ⟨n', pos', seps', hsame, hseps', hpos', hn'⟩ :=
          parseFields_lands (r := item.name.assign v r) (n := n) h hrest hlands (by omega)
        have hle' := hpos'.le
        obtain ⟨m, rfl⟩ := Nat.exists_eq_add_of_lt (show 0 < n' by omega)
        rw [Nat.zero_add] at hn' hsame
        simp only [Except.map, bind, Except.bind, hsame]
        rcases ih h.2.2.2 hseps' hpos' hle' m hn' with ⟨vs, hlen, hvs, hall⟩ | ⟨hfail, hno⟩
        · refine .inl ⟨v :: vs, by rw [List.length_cons, hlen, List.length_cons], hvs, ?_⟩
          rw [List.map_cons, List.cons.injEq, hall]
          exact and_congr_left' hiff
        · exact .inr ⟨hfail, fun hread => hno hread.2⟩
      · refine .inr ⟨fun r' hr' => ?_, fun hread => hno hread.1⟩
        cases x with
        | error e => cases hr'
        | ok w => exact parseFields_stuck (hstuck w.1 w.2 rfl) n _ r' hr'

theorem assign_of_mem {name : FlowName} {f : OFField} (h : f ∈ name.fields) (val : Range1d) :
    (name.assign val r).fields f = val := by
  cases name <;> simp only [FlowName.fields, List.mem_cons, List.not_mem_nil, or_false] at h
  case tpDst | tpSrc => rcases h with rfl | rfl <;> rfl
  all_goals
    subst h
    rfl

theorem assign_of_notMem {name : FlowName} {f : OFField} (h : f ∉ name.fields) (val : Range1d) :
    (name.assign val r).fields f = r.fields f := by
  have hset : ∀ (fs : List OFField) (r : RuleOF151), f ∉ fs →
      (fs.foldl (fun r f => r.setField f val) r).fields f = r.fields f := by
    intro fs
    induction fs with
    | nil => exact fun _ _ => rfl
    | cons g fs ih =>
        intro r hf
        rw [List.mem_cons, not_or] at hf
        rw [List.foldl_cons, ih _ hf.2]
        exact Function.update_of_ne hf.1 val r.fields
  exact hset name.fields r h

theorem assignAll_of_notMem {f : OFField} (h : ∀ item ∈ items, f ∉ item.name.fields)
    (vs : List Range1d) : (assignAll items vs r).fields f = r.fields f := by
  induction items generalizing vs r with
  | nil => rfl
  | cons item items ih =>
      rw [List.forall_mem_cons] at h
      cases vs with
      | nil => rfl
      | cons v vs => rw [assignAll, ih h.2, assign_of_notMem h.1]

/-- No field overwrites another one, so that the rule has the denoted ranges if and only if these
were assigned. -/
theorem assignAll_iff (hnodup : (items.flatMap fun item => item.name.fields).Nodup)
    {vs : List Range1d} (hlen : vs.length = items.length) :
    (∀ item ∈ items, ∀ f ∈ item.name.fields, (assignAll items vs r).fields f = item.val.range) ↔
      vs = items.map fun item => item.val.range := by
  induction items generalizing vs r with
  | nil =>
      obtain rfl := List.length_eq_zero_iff.mp hlen
      simp
  | cons item items ih =>
      obtain ⟨v, vs, rfl⟩ := List.exists_cons_of_length_pos
        (show 0 < vs.length by rw [hlen]; exact Nat.succ_pos _)
      rw [List.flatMap_cons, List.nodup_append] at hnodup
      have hother : ∀ f ∈ item.name.fields, ∀ item' ∈ items, f ∉ item'.name.fields :=
        fun f hf item' hitem' hf' =>
          hnodup.2.2 f hf f (List.mem_flatMap.mpr ⟨item', hitem', hf'⟩) rfl
      have hhead : ∀ f ∈ item.name.fields,
          (assignAll items vs (item.name.assign v r)).fields f = v := fun f hf => by
        rw [assignAll_of_notMem (hother f hf), assign_of_mem hf]
      rw [List.forall_mem_cons, List.map_cons, List.cons.injEq, assignAll, ih hnodup.2.1
        (Nat.succ.inj hlen)]
      refine and_congr_left' ⟨fun h => ?_, fun h f hf => by rw [hhead f hf, h]⟩
      obtain ⟨f, fs, hfs⟩ := List.exists_cons_of_ne_nil
        (show item.name.fields ≠ [] by cases item.name <;> decide)
      have hf : f ∈ item.name.fields := hfs ▸ List.mem_cons_self
      rw [← h f hf, hhead f hf]

end Items

theorem Flow.head (flow : Flow) {c : Char} {s : List Char} (h : flow.text = c :: s) : c ≠ '#' := by
  rintro rfl
  rw [Flow.text] at h
  cases hlead : flow.lead with
  | cons d lead =>
      rw [hlead] at h
      cases h
      exact absurd (flow.lead_seps _ (hlead ▸ List.mem_cons_self)) (by decide)
  | nil =>
      cases hitems : flow.items with
      | nil =>
          rw [hlead, hitems] at h
          cases h
      | cons item items =>
          rw [hlead, hitems] at h
          have hhead : item.name.text.head? = some '#' := by
            have := item.name.text_length
            cases hname : item.name.text with
            | nil =>
                rw [hname] at this
                exact absurd this (by decide)
            | cons d t =>
                rw [List.nil_append, flowText, hname] at h
                cases h
                rfl
          exact absurd (item.name.isIdChar_text '#' (List.mem_of_mem_head? hhead)) (by decide)

/-- A flow is read as it is meant if and only if its line is not empty and every value is readable
in front of what follows it. -/
theorem readsFlow_iff (flow : Flow) :
    ReadsFlow flow ↔ flow.text ≠ [] ∧ AllReadable flow.items := by
  cases htext : flow.text with
  | nil =>
      refine iff_of_false ?_ fun h => h.1 rfl
      rintro ⟨r, hr, -⟩
      rw [htext] at hr
      cases hr
  | cons c s =>
      have hparse : parseFlow flow.text =
          some <$> parseFields flow.text (flow.text.length + 1) 0 .new := by
        rw [htext]
        exact if_neg (flow.head htext)
      have hrun := parseFields_items (r := .new) flow.areFields flow.lead_seps
        (remaining_zero flow.text) (Nat.lt_succ_self _)
      have hne : c :: s ≠ [] := List.cons_ne_nil c s
      simp only [ReadsFlow, hparse, hne, ne_eq, not_false_eq_true, true_and]
      rcases hrun with ⟨vs, hlen, hvs, hall⟩ | ⟨hfail, hno⟩
      · rw [hvs, ← hall, ← assignAll_iff (r := .new) flow.nodup hlen]
        constructor
        · rintro ⟨r, hr, hfields, -⟩
          cases hr
          exact hfields
        · exact fun h => ⟨_, rfl, h, fun f hf => assignAll_of_notMem hf vs⟩
      · refine iff_of_false ?_ hno
        rintro ⟨r, hr, -⟩
        cases hres : parseFields flow.text (flow.text.length + 1) 0 .new with
        | error e =>
            rw [hres] at hr
            cases hr
        | ok w =>
            rw [hres] at hr
            cases hr
            exact hfail r hres

/-- The cursor stops in an address with three digits in front of the first dot, an octet of an
Ethernet address is taken for a decimal number, and a letter in a mask is not taken for a digit. -/
theorem not_readsFlow :
    (∃ flow : Flow, flow.text = "nw_src=192.168.0.1, in_port=1".toList ∧ ¬ReadsFlow flow) ∧
      (∃ flow : Flow, flow.text = "dl_src=00:00:00:00:00:10, in_port=1".toList ∧ ¬ReadsFlow flow) ∧
      ∃ flow : Flow, flow.text = "tp_dst=0x50/0xfff0".toList ∧ ¬ReadsFlow flow := by
  have hport : FlowName.inPort.Takes (.decimal ['1']) :=
    ⟨1, by decide, isNumeral_of_all (by decide) (by decide) (by decide)⟩
  have haddress : FlowName.nwSrc.Takes
      (.ipv4 "192".toList "168".toList "0".toList "1".toList) := by
    have hoctets : ∀ t ∈ ["192".toList, "168".toList, "0".toList, "1".toList],
        t ≠ [] ∧ t.all (isDigit 10) = true ∧ value 10 t < 256 := by decide
    exact fun t ht => ⟨_, (hoctets t ht).2.2,
      isNumeral_of_all (hoctets t ht).1 (hoctets t ht).2.1 rfl⟩
  have hmac : FlowName.dlSrc.Takes
      (.mac [('0', '0'), ('0', '0'), ('0', '0'), ('0', '0'), ('0', '0'), ('1', '0')]) := by
    refine ⟨by decide, ?_⟩
    simp only [List.forall_mem_cons, List.not_mem_nil, false_imp_iff, implies_true, and_true]
    decide
  have hrange : FlowName.tpDst.Takes (.masked "50".toList "fff0".toList) :=
    ⟨⟨80, by decide, isNumeral_of_all (by decide) (by decide) (by decide)⟩, 65520,
      ⟨4, by decide, by decide⟩, isNumeral_of_all (by decide) (by decide) (by decide)⟩
  have hcomma : ∀ c ∈ ", ".toList, isSeparator c = true := List.all_eq_true.mp (by decide)
  have hnone : ∀ c ∈ ([] : List Char), isSeparator c = true := List.all_eq_true.mp rfl
  refine ⟨⟨⟨[], [⟨.nwSrc, _, ", ".toList⟩, ⟨.inPort, _, []⟩], hnone,
      ⟨haddress, hcomma, by decide, hport, hnone, by decide, trivial⟩, by decide⟩, rfl, ?_⟩,
    ⟨⟨[], [⟨.dlSrc, _, ", ".toList⟩, ⟨.inPort, _, []⟩], hnone,
      ⟨hmac, hcomma, by decide, hport, hnone, by decide, trivial⟩, by decide⟩, rfl, ?_⟩,
    ⟨⟨[], [⟨.tpDst, _, []⟩], hnone, ⟨hrange, hnone, by decide, trivial⟩, by decide⟩, rfl, ?_⟩⟩
  · rintro ⟨r, hr, -⟩
    have hstop : (parseFlow "nw_src=192.168.0.1, in_port=1".toList).map
        (fun w => w.map fun w => w.2) = .ok (some 10) := by decide +kernel
    have hlen := hstop.symm.trans (congrArg (fun x => x.map fun w => w.map fun w => w.2) hr)
    simp only [Except.map, Option.map_some, Except.ok.injEq, Option.some.injEq] at hlen
    exact absurd (show 10 = "nw_src=192.168.0.1, in_port=1".toList.length from hlen) (by decide)
  · rintro ⟨r, hr, hfields, -⟩
    have hval : (parseFlow "dl_src=00:00:00:00:00:10, in_port=1".toList).map
        (fun w => w.map fun w => w.1.fields .ethSrc) = .ok (some ⟨10, 10⟩) := by decide +kernel
    have hread := hval.symm.trans
      (congrArg (fun x => x.map fun w => w.map fun w => w.1.fields .ethSrc) hr)
    simp only [Except.map, Option.map_some, Except.ok.injEq, Option.some.injEq] at hread
    have hdenoted := hfields _ List.mem_cons_self .ethSrc (by decide)
    exact absurd (show (⟨10, 10⟩ : Range1d) = ⟨16, 16⟩ from hread.trans hdenoted) (by decide)
  · rintro ⟨r, hr, -⟩
    have hthrown : (parseFlow "tp_dst=0x50/0xfff0".toList).map (fun w => w.map fun w => w.2) =
        .error (.thrown "stol".toList) := by decide +kernel
    have hnone := hthrown.symm.trans (congrArg (fun x => x.map fun w => w.map fun w => w.2) hr)
    cases hnone

end Pcv
