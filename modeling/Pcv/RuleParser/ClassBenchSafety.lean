import Pcv.RuleParser.ClassBenchParse

/-!
# What a ClassBench line needs for the reader to be safe

Most malformed lines are not reported.  A line that begins with `@` and lacks a field, a piece of
an address or the mask of the protocol is read outside of the vectors, and so is one with a prefix
length above 32; an octet that is empty leaves a number without a value.  Ports in the wrong order
are taken as they are.
-/

namespace Pcv

open Text

/-! ## The property -/

/-- `parse` throws and appends nothing, or appends one rule whose ranges are in order; it does not
leave a vector or an array. -/
def ParsesSafely (tokens : List (List Char)) : Prop :=
  ∀ ruleset cost, match parse tokens ruleset cost with
    | (.ok (), rules) => ∃ r, rules = ruleset ++ [r] ∧ ∀ range ∈ r.ranges, range.low ≤ range.high
    | (.error (.thrown _), rules) => rules = ruleset
    | (.error .undefined, _) => False

/-! ## The condition -/

/-- Four octets and a prefix length up to 32 are there. -/
def AddressShape (token : List Char) : Prop :=
  match split token '/' with
  | address :: len :: _ =>
      (match split address '.' with
        | t0 :: t1 :: t2 :: t3 :: _ => t0 ≠ [] ∧ t1 ≠ [] ∧ t2 ≠ [] ∧ t3 ≠ []
        | _ => False) ∧ ∃ p ∈ readUnsigned len, p ≤ 32
  | _ => False

/-- The two texts are the ends of a range of ports. -/
def PortsInOrder (first last : List Char) : Prop :=
  ∀ low ∈ readUnsigned first, ∀ high ∈ readUnsigned last, low % 2 ^ 16 ≤ high % 2 ^ 16

/-- A protocol with an exact mask and no number in front of it. -/
def NoProtocol (token : List Char) : Prop :=
  ∃ proto rest, split token '/' = proto :: "0xFF".toList :: rest ∧ ∀ val, stoul proto ≠ .ok val

/-- The texts of a rule: every field is there, and the ports are in order unless the reader stops at
the protocol. -/
inductive RuleShape : List (List Char) → Prop
  | mk {sip dip sportLow colon sportHigh dportLow colon' dportHigh proto : List Char}
      {rest : List (List Char)} (hsip : AddressShape sip.tail) (hdip : AddressShape dip)
      (hproto : 2 ≤ (split proto '/').length)
      (hports : PortsInOrder sportLow sportHigh ∧ PortsInOrder dportLow dportHigh ∨
        NoProtocol proto) :
      RuleShape (sip :: dip :: sportLow :: colon :: sportHigh :: dportLow :: colon' :: dportHigh ::
        proto :: rest)

/-! ## Fields -/

section Fields

variable {token first last : List Char}

theorem addressShape_iff (hs : ∀ c ∈ token, isSpace c = false) :
    AddressShape token ↔ ∃ ptrange p, AddressText token ptrange p ∧ p ≤ 32 := by
  constructor
  · intro h
    rw [AddressShape] at h
    split at h
    · next address len lens hslash =>
        obtain ⟨h, p, hp, hle⟩ := h
        split at h
        · next t0 t1 t2 t3 octets hdot =>
            obtain ⟨h0, h1, h2, h3⟩ := h
            have hpiece : ∀ t ∈ split address '.', t ≠ [] → ∃ o, readUnsigned t = some o := by
              intro t ht
              refine exists_readUnsigned fun c hc => hs c ?_
              exact mem_split (hslash ▸ List.mem_cons_self) c (mem_split ht c hc)
            simp only [hdot, List.forall_mem_cons] at hpiece
            obtain ⟨f0, f1, f2, f3, -⟩ := hpiece
            obtain ⟨⟨o0, ho0⟩, ⟨o1, ho1⟩, ⟨o2, ho2⟩, ⟨o3, ho3⟩⟩ := And.intro (f0 h0)
              (And.intro (f1 h1) (And.intro (f2 h2) (f3 h3)))
            exact ⟨_, p, .mk hslash hdot ho0 ho1 ho2 ho3 hp, hle⟩
        · exact h.elim
    · exact h.elim
  · rintro ⟨-, p, ⟨hslash, hdot, h0, h1, h2, h3, hp⟩, hle⟩
    have hne : ∀ {t : List Char} {o}, readUnsigned t = some o → t ≠ [] := by
      rintro t o h rfl
      cases h
    simp only [AddressShape, hslash, hdot]
    exact ⟨⟨hne h0, hne h1, hne h2, hne h3⟩, p, hp, hle⟩

theorem addressShape_of_parse {range : Range1d} (hs : ∀ c ∈ token, isSpace c = false)
    (h : parseIPRange token = .ok range) : AddressShape token := by
  rw [addressShape_iff hs]
  by_contra hno
  rw [parseIPRange_undefined hno] at h
  cases h

theorem parseIPRange_of_shape (hs : ∀ c ∈ token, isSpace c = false) (h : AddressShape token) :
    ∃ range, parseIPRange token = .ok range ∧ range.low ≤ range.high := by
  obtain ⟨ptrange, p, htext, hp⟩ := (addressShape_iff hs).mp h
  exact parseIPRange_of_le htext hp

theorem parsePort_of_isWord (hfirst : IsWord first) (hlast : IsWord last) :
    ∃ range, parsePort first last = .ok range ∧
      (PortsInOrder first last ↔ range.low ≤ range.high) := by
  obtain ⟨low, hlow⟩ := exists_readUnsigned hfirst.2 hfirst.1
  obtain ⟨high, hhigh⟩ := exists_readUnsigned hlast.2 hlast.1
  refine ⟨⟨low % 2 ^ 16, high % 2 ^ 16⟩, ?_, ?_⟩
  · simp only [parsePort, atoui, hlow, hhigh]
    rfl
  · simp only [PortsInOrder, hlow, hhigh, Option.mem_some_iff, forall_eq']

theorem stoul_cases (s : List Char) :
    (∃ val, stoul s = .ok val) ∨ ∃ what, stoul s = .error (.thrown what) := by
  rw [stoul]
  split
  · exact .inr ⟨_, rfl⟩
  · split
    · exact .inr ⟨_, rfl⟩
    · split
      · exact .inl ⟨_, rfl⟩
      · exact .inl ⟨_, rfl⟩

/-- The protocol is a range in order, or an exception, if the mask is there. -/
theorem parseProtocol_cases (h : 2 ≤ (split token '/').length) :
    (∃ range, parseProtocol token = .ok range ∧ range.low ≤ range.high ∧ ¬NoProtocol token) ∨
      (∃ what, parseProtocol token = .error (.thrown what) ∧ NoProtocol token) := by
  obtain ⟨proto, mask, rest, hsplit⟩ : ∃ proto mask rest, split token '/' = proto :: mask :: rest := by
    match hsplit : split token '/', h with
    | proto :: mask :: rest, _ => exact ⟨proto, mask, rest, rfl⟩
  simp only [parseProtocol, NoProtocol, hsplit, elementAt, List.getElem?_cons_zero,
    List.getElem?_cons_succ, bind, Except.bind]
  split
  · next hmask =>
      refine .inl ⟨_, rfl, Nat.zero_le _, ?_⟩
      rintro ⟨_, _, heq, -⟩
      simp only [List.cons.injEq] at heq
      exact hmask heq.2.1
  · next hmask =>
      obtain rfl := Decidable.not_not.mp hmask
      rcases stoul_cases proto with ⟨val, hval⟩ | ⟨what, hwhat⟩
      · refine .inl ⟨⟨val % 2 ^ 16, val % 2 ^ 16⟩, by rw [hval]; rfl, le_rfl, ?_⟩
        rintro ⟨_, _, heq, hno⟩
        simp only [List.cons.injEq, true_and] at heq
        exact hno val (heq.1 ▸ hval)
      · refine .inr ⟨what, by rw [hwhat], proto, rest, rfl, fun val hval => ?_⟩
        rw [hwhat] at hval
        cases hval

theorem parseProtocol_of_short (h : ¬2 ≤ (split token '/').length) :
    parseProtocol token = .error .undefined := by
  have hnone : (split token '/')[1]? = none := List.getElem?_eq_none (by omega)
  simp only [parseProtocol, elementAt, hnone]
  rfl

end Fields

/-! ## One line -/

section Line

variable {address dip sportLow colon sportHigh dportLow colon' dportHigh proto : List Char}
  {rest tokens : List (List Char)}

/-- The rest of the reader, behind the first character. -/
theorem parseRule_at (address : List Char) (rest : List (List Char)) (cost : ℕ) :
    parseRule (('@' :: address) :: rest) cost = (do
      let sip ← parseIPRange address
      let dip ← parseIPRange (← elementAt rest 0)
      let sport ← parsePort (← elementAt rest 1) (← elementAt rest 3)
      let dport ← parsePort (← elementAt rest 4) (← elementAt rest 6)
      let proto ← parseProtocol (← elementAt rest 7)
      return { priority := cost, sip, dip, sport, dport, proto }) := rfl

theorem parseRule_eq {rsip rdip rsport rdport : Range1d} (hsip : parseIPRange address = .ok rsip)
    (hdip : parseIPRange dip = .ok rdip) (hsport : parsePort sportLow sportHigh = .ok rsport)
    (hdport : parsePort dportLow dportHigh = .ok rdport) (colon colon' proto : List Char)
    (rest : List (List Char)) (cost : ℕ) :
    parseRule (('@' :: address) :: dip :: sportLow :: colon :: sportHigh :: dportLow :: colon' ::
        dportHigh :: proto :: rest) cost =
      (parseProtocol proto).map fun range =>
        { priority := cost, sip := rsip, dip := rdip, sport := rsport, dport := rdport,
          proto := range } := by
  simp only [parseRule, elementAt, List.getElem?_cons_zero, List.getElem?_cons_succ, bind,
    Except.bind, hsip, hdip, hsport, hdport, ne_eq, not_true_eq_false, if_false]
  cases parseProtocol proto <;> rfl

/-- The line is safe unless its reader is undefined or makes a rule with a range out of order. -/
theorem parsesSafely_of_rule (h : ∀ cost : ℕ,
    (∃ r, parseRule tokens cost = .ok r ∧ ∀ range ∈ r.ranges, range.low ≤ range.high) ∨
      ∃ what, parseRule tokens cost = .error (.thrown what)) : ParsesSafely tokens := by
  intro ruleset cost
  rcases h cost with ⟨r, hr, horder⟩ | ⟨what, hwhat⟩
  · rw [parse, hr]
    exact ⟨r, rfl, horder⟩
  · rw [parse, hwhat]

theorem ParsesSafely.ne_undefined (h : ParsesSafely tokens) :
    parseRule tokens 0 ≠ .error .undefined := by
  intro hrule
  have := h [] 0
  rw [parse, hrule] at this
  exact this

/-- The texts of the fields, read off a line that is defined. -/
theorem exists_fields (hw : ∀ t ∈ ('@' :: address) :: rest, IsWord t)
    (h : parseRule (('@' :: address) :: rest) 0 ≠ .error .undefined) :
    ∃ dip sportLow colon sportHigh dportLow colon' dportHigh proto rest',
      rest = dip :: sportLow :: colon :: sportHigh :: dportLow :: colon' :: dportHigh :: proto ::
        rest' ∧ AddressShape address ∧ AddressShape dip ∧ 2 ≤ (split proto '/').length := by
  rw [parseRule_at] at h
  obtain ⟨rsip, hsip, h⟩ := (neverThrows_parseIPRange address).of_bind h
  obtain ⟨dip, hdip, h⟩ := (neverThrows_elementAt rest 0).of_bind h
  obtain ⟨rdip, hrdip, h⟩ := (neverThrows_parseIPRange dip).of_bind h
  obtain ⟨_, -, h⟩ := (neverThrows_elementAt rest 1).of_bind h
  obtain ⟨_, -, h⟩ := (neverThrows_elementAt rest 3).of_bind h
  obtain ⟨_, -, h⟩ := (neverThrows_parsePort _ _).of_bind h
  obtain ⟨_, -, h⟩ := (neverThrows_elementAt rest 4).of_bind h
  obtain ⟨_, -, h⟩ := (neverThrows_elementAt rest 6).of_bind h
  obtain ⟨_, -, h⟩ := (neverThrows_parsePort _ _).of_bind h
  obtain ⟨proto, hproto, h⟩ := (neverThrows_elementAt rest 7).of_bind h
  have hpieces : 2 ≤ (split proto '/').length := by
    by_contra hshort
    rw [parseProtocol_of_short hshort] at h
    exact h rfl
  have hlen : 8 ≤ rest.length := (List.getElem?_eq_some_iff.mp (elementAt_eq_ok.mp hproto)).1
  match rest, hlen with
  | t1 :: t2 :: t3 :: t4 :: t5 :: t6 :: t7 :: t8 :: rest', _ =>
      cases hdip
      cases hproto
      rw [List.forall_mem_cons, List.forall_mem_cons] at hw
      exact ⟨_, _, _, _, _, _, _, _, _, rfl,
        addressShape_of_parse (fun c hc => hw.1.2 c (List.mem_cons_of_mem _ hc)) hsip,
        addressShape_of_parse hw.2.1.2 hrdip, hpieces⟩

theorem parsesSafely_fields (hw : ∀ t ∈ ('@' :: address) :: dip :: sportLow :: colon :: sportHigh ::
      dportLow :: colon' :: dportHigh :: proto :: rest, IsWord t)
    (hsip : AddressShape address) (hdip : AddressShape dip) (hproto : 2 ≤ (split proto '/').length) :
    ParsesSafely (('@' :: address) :: dip :: sportLow :: colon :: sportHigh :: dportLow :: colon' ::
        dportHigh :: proto :: rest) ↔
      PortsInOrder sportLow sportHigh ∧ PortsInOrder dportLow dportHigh ∨ NoProtocol proto := by
  simp only [List.forall_mem_cons] at hw
  obtain ⟨hwsip, hwdip, hwsl, -, hwsh, hwdl, -, hwdh, -⟩ := hw
  obtain ⟨rsip, hrsip, hsiple⟩ :=
    parseIPRange_of_shape (fun c hc => hwsip.2 c (List.mem_cons_of_mem _ hc)) hsip
  obtain ⟨rdip, hrdip, hdiple⟩ := parseIPRange_of_shape hwdip.2 hdip
  obtain ⟨rsport, hrsport, hsport⟩ := parsePort_of_isWord hwsl hwsh
  obtain ⟨rdport, hrdport, hdport⟩ := parsePort_of_isWord hwdl hwdh
  have hrule := parseRule_eq hrsip hrdip hrsport hrdport colon colon' proto rest
  rw [hsport, hdport]
  rcases parseProtocol_cases hproto with ⟨range, hrange, hle, hno⟩ | ⟨what, hwhat, hno⟩
  · simp only [hno, or_false]
    constructor
    · intro h
      have := h [] 0
      rw [parse, hrule, hrange] at this
      obtain ⟨r, hr, horder⟩ := this
      cases hr
      exact ⟨horder rsport (by simp [RuleIpv4ACL.ranges]), horder rdport (by simp [RuleIpv4ACL.ranges])⟩
    · rintro ⟨hsle, hdle⟩
      refine parsesSafely_of_rule fun cost => .inl ⟨_, by rw [hrule, hrange]; rfl, ?_⟩
      simp only [RuleIpv4ACL.ranges, List.forall_mem_cons, List.not_mem_nil, false_imp_iff,
        implies_true, and_true]
      exact ⟨hsiple, hdiple, hsle, hdle, hle⟩
  · exact iff_of_true (parsesSafely_of_rule fun cost => .inr ⟨what, by rw [hrule, hwhat]; rfl⟩)
      (.inr hno)

end Line

/-- A line is read safely if and only if it does not begin with `@`, or every field is there, the
prefix lengths are at most 32, and the ports are in order or the protocol stops the reader. -/
theorem parsesSafely_iff (line : List Char) :
    ParsesSafely (words line) ↔
      ∃ first rest, words line = first :: rest ∧
        (first.head? ≠ some '@' ∨ RuleShape (first :: rest)) := by
  have hw : ∀ t ∈ words line, IsWord t := fun t ht => isWord_of_mem_words ht
  cases htokens : words line with
  | nil =>
      refine iff_of_false (fun h => h.ne_undefined rfl) ?_
      rintro ⟨_, _, h, -⟩
      cases h
  | cons first rest =>
      rw [htokens] at hw
      obtain ⟨c, address, rfl⟩ := List.exists_cons_of_ne_nil (hw first List.mem_cons_self).1
      by_cases hc : c = '@'
      · subst hc
        constructor
        · intro h
          obtain ⟨_, _, _, _, _, _, _, _, _, rfl, hsip, hdip, hproto⟩ :=
            exists_fields hw h.ne_undefined
          have hports := (parsesSafely_fields hw hsip hdip hproto).mp h
          exact ⟨_, _, rfl, .inr (.mk hsip hdip hproto hports)⟩
        · rintro ⟨_, _, heq, hshape⟩
          cases heq
          rcases hshape with hhead | hshape
          · exact (hhead rfl).elim
          · cases hshape with
            | mk hsip hdip hproto hports => exact (parsesSafely_fields hw hsip hdip hproto).mpr hports
      · refine iff_of_true (parsesSafely_of_rule fun cost => .inr ?_)
          ⟨_, _, rfl, .inl fun h => hc (Option.some.inj h)⟩
        exact ⟨_, if_pos hc⟩

/-- A line without its fields leaves the vector, a prefix length of 33 leaves the array, and ports in
the wrong order become a rule. -/
theorem not_parsesSafely :
    ¬ParsesSafely (words "@1.2.3.4/8".toList) ∧
      ¬ParsesSafely (words "@1.2.3.4/33 0.0.0.0/0 1 : 1 1 : 1 0x06/0xFF".toList) ∧
      ¬ParsesSafely (words "@1.2.3.4/8 0.0.0.0/0 2 : 1 1 : 1 0x06/0xFF".toList) := by
  refine ⟨fun h => h.ne_undefined (by decide +kernel), fun h => h.ne_undefined (by decide +kernel),
    fun h => ?_⟩
  have hparse : parse (words "@1.2.3.4/8 0.0.0.0/0 2 : 1 1 : 1 0x06/0xFF".toList) [] 0 =
      (.ok (), [
        { priority := 0, sip := ⟨16777216, 33554431⟩, sport := ⟨2, 1⟩, dport := ⟨1, 1⟩,
          proto := ⟨6, 6⟩ }]) := by decide +kernel
  have hrule := h [] 0
  rw [hparse] at hrule
  obtain ⟨r, hr, horder⟩ := hrule
  cases hr
  exact absurd (horder ⟨2, 1⟩ (by simp [RuleIpv4ACL.ranges])) (by decide)

end Pcv
