import Pcv.RuleParser.ClassBenchRoundTrip
import Pcv.RuleParser.RuleReader

/-!
# The two formats of rules with five fields

Rules are written as the lines of a ClassBench file and as the lines of an MSU file.  The first
file gives the rules back.  The second one does not: its reader parses every range into the source
address, so that the last one, the protocol, is all that is left of a line.
-/

namespace Pcv

open Text

/-! ## The files -/

/-- A rule, and the text of its tag in an MSU file. -/
structure TaggedRule where
  rule : RuleIpv4ACL
  tag : List Char

/-- The rule can be written in both formats, and the tag is a text that `atoi` reads. -/
structure TaggedRule.WellFormed (r : TaggedRule) : Prop where
  rule : r.rule.IsClassBench
  tag_ne : r.tag ≠ []
  tag_chars : ∀ c ∈ r.tag, c ≠ ',' ∧ c ≠ '\n'
  tag_value : ∃ v, atoi r.tag = .ok v

/-- Lines, each of them closed. -/
def fileOf (lines : List (List Char)) : List Char := lines.flatMap fun l => l ++ ['\n']

/-- The rules as a ClassBench file. -/
def classbenchFile (rules : List TaggedRule) : List Char :=
  fileOf (rules.map fun r => r.rule.print)

/-- The header of an MSU file: the first line is accepted, and so are the bounds in the third. -/
structure MSUHeader where
  first : List Char
  second : List Char
  third : List Char
  lines : ∀ l ∈ [first, second, third], '\n' ∉ l
  head : first.head? = some '!'
  reps : ∃ n, readReps first = .ok n
  bounds : ∃ ranges, (split third ',').mapM parseRange = .ok ranges

/-- `low:high`. -/
def colonRange (range : Range1d) : List Char :=
  numeral 10 range.low ++ ':' :: numeral 10 range.high

/-- The five ranges and the tag of a rule, between commas. -/
def msuLine (r : TaggedRule) : List Char :=
  (r.rule.ranges.flatMap fun range => colonRange range ++ [',']) ++ r.tag

/-- The rules as an MSU file. -/
def msuFile (header : MSUHeader) (rules : List TaggedRule) : List Char :=
  fileOf ([header.first, header.second, header.third] ++ rules.map msuLine)

/-- What is read has the ranges of the rules, in their order, and descending priorities. -/
def ReadsAs (file : List Char) (rules : List TaggedRule) : Prop :=
  ∃ rs, parseRules file = .ok (.inl rs) ∧
    rs.map (·.ranges) = rules.map (·.rule.ranges) ∧
    rs.Pairwise fun r r' => r'.priority < r.priority

/-! ## Lines of a file -/

section Lines

variable {l content : List Char} {ls : List (List Char)} {s : List Char}

theorem getline_append (hl : '\n' ∉ l) :
    getline (some (l ++ '\n' :: s)) content = (true, some s, l) := by
  have hp : ∀ c ∈ l, decide (c ≠ '\n') = true := fun c hc => by
    have : c ≠ '\n' := by
      rintro rfl
      exact hl hc
    simp [this]
  have htake : (l ++ '\n' :: s).takeWhile (· ≠ '\n') = l := by
    rw [List.takeWhile_append_of_pos hp]
    simp
  have hdrop : (l ++ '\n' :: s).dropWhile (· ≠ '\n') = '\n' :: s := by
    rw [List.dropWhile_append_of_pos hp]
    simp
  cases htext : l ++ '\n' :: s with
  | nil => simp at htext
  | cons c t =>
      rw [htext] at htake hdrop
      simp only [getline, hdrop, htake]

theorem fileOf_cons : fileOf (l :: ls) = l ++ '\n' :: fileOf ls := by
  simp [fileOf]

theorem linesOf_fileOf (h : ∀ l ∈ ls, '\n' ∉ l) : linesOf (some (fileOf ls)) = ls := split_flatMap h

end Lines

/-! ## The ClassBench file -/

section ClassBench

variable {rules : List TaggedRule} {ls : List (List Char)} {rs : List RuleIpv4ACL}

theorem RuleIpv4ACL.IsClassBench.newline_notMem {r : RuleIpv4ACL} (h : r.IsClassBench) :
    '\n' ∉ r.print := by
  have hnum : ∀ n, '\n' ∉ numeral 10 n := fun n =>
    (isNumeral_numeral (by decide) (by decide) n).notMem rfl
  have hword : ∀ {s : List Char}, (∀ c ∈ s, isSpace c = false) → '\n' ∉ s := fun h hmem =>
    absurd (h _ hmem) (by decide)
  have hsip := hword (printIpv4_numerals h.sip).isWord
  have hdip := hword (printIpv4_numerals h.dip).isWord
  have hproto := hword (printRange_hex h.proto).isWord.2
  rw [r.print_eq]
  simp [hnum, hsip, hdip, hproto]

/-- The loop over the lines counts in an `int`, and makes every rule of its line. -/
theorem parseLines_eq (h : ∀ r ∈ rs, r.IsClassBench) (ruleset : List RuleIpv4ACL) {k : ℕ}
    (hk : k < 2 ^ 31) :
    (k + rs.length < 2 ^ 31 → ∃ rs', rs'.map (·.ranges) = rs.map (·.ranges) ∧
      parseLines (rs.map (·.print)) ruleset k = .ok (ruleset ++ rs')) ∧
    (2 ^ 31 ≤ k + rs.length → parseLines (rs.map (·.print)) ruleset k = .error .undefined) := by
  induction rs generalizing ruleset k with
  | nil =>
      refine ⟨fun _ => ⟨[], rfl, by simp [parseLines]⟩, fun h => ?_⟩
      rw [List.length_nil] at h
      omega
  | cons r rs ih =>
      rw [List.forall_mem_cons] at h
      have hparse := parse_ruleText h.1.ruleText ruleset k
      simp only [List.length_cons, List.map_cons]
      by_cases hnext : k + 1 < 2 ^ 31
      · have hincr : increment k = .ok (k + 1) := if_pos hnext
        obtain ⟨hok, hundefined⟩ :=
          ih h.2 (ruleset ++ [{ r with priority := k, tag := -1 }]) hnext
        simp only [parseLines, hincr, bind, Except.bind, hparse]
        constructor
        · intro hlt
          obtain ⟨rs', hranges, hlines⟩ := hok (by omega)
          refine ⟨{ r with priority := k, tag := -1 } :: rs', ?_, ?_⟩
          · rw [List.map_cons, hranges]
            rfl
          · rw [hlines, List.append_assoc, List.singleton_append]
        · exact fun hge => hundefined (by omega)
      · have hincr : increment k = .error .undefined := if_neg hnext
        simp only [parseLines, hincr, bind, Except.bind]
        exact ⟨fun hlt => by omega, fun _ => trivial⟩

/-- Priorities that are counted down. -/
theorem pairwise_mapIdx (rs : List RuleIpv4ACL) (m : ℤ) :
    (rs.mapIdx fun i r => { r with priority := m - i : RuleIpv4ACL }).Pairwise
      fun r r' => r'.priority < r.priority := by
  rw [List.pairwise_iff_getElem]
  intro i j hi hj hij
  simp only [List.getElem_mapIdx]
  omega

theorem parseClassbench_eq (h : ∀ r ∈ rs, r.IsClassBench) :
    (rs.length < 2 ^ 31 → ∃ rs', rs'.map (·.ranges) = rs.map (·.ranges) ∧
      (rs'.Pairwise fun r r' => r'.priority < r.priority) ∧
      parseClassbench (fileOf (rs.map (·.print))) = .ok rs') ∧
    (2 ^ 31 ≤ rs.length →
      parseClassbench (fileOf (rs.map (·.print))) = .error .undefined) := by
  have hnewline : ∀ l ∈ rs.map (·.print), '\n' ∉ l := by
    intro l hl
    obtain ⟨r, hr, rfl⟩ := List.mem_map.mp hl
    exact (h r hr).newline_notMem
  obtain ⟨hok, hundefined⟩ := parseLines_eq h [] (Nat.two_pow_pos 31)
  rw [Nat.zero_add] at hok hundefined
  simp only [parseClassbench, linesOf_fileOf hnewline]
  constructor
  · intro hlt
    obtain ⟨rs', hranges, hlines⟩ := hok hlt
    refine ⟨_, ?_, pairwise_mapIdx rs' _, by rw [hlines]; rfl⟩
    rw [← hranges]
    exact List.ext_getElem (by simp) fun i h₁ h₂ => by simp [RuleIpv4ACL.ranges]
  · intro hge
    rw [hundefined hge]
    rfl

/-- The ClassBench file gives the rules back, unless it is empty or has too many lines. -/
theorem readsAs_classbenchFile (h : ∀ r ∈ rules, r.WellFormed) :
    ReadsAs (classbenchFile rules) rules ↔ rules ≠ [] ∧ rules.length < 2 ^ 31 := by
  have hrules : ∀ r ∈ rules.map (·.rule), r.IsClassBench := by
    intro r hr
    obtain ⟨t, ht, rfl⟩ := List.mem_map.mp hr
    exact (h t ht).rule
  obtain ⟨hok, hundefined⟩ := parseClassbench_eq hrules
  rw [List.length_map] at hok hundefined
  have hfile : classbenchFile rules = fileOf ((rules.map (·.rule)).map (·.print)) := by
    rw [classbenchFile, List.map_map]
    rfl
  rw [hfile]
  cases rules with
  | nil =>
      refine iff_of_false ?_ fun h => h.1 rfl
      rintro ⟨rs, hrs, -⟩
      cases hrs
  | cons t rules =>
      have hparse : parseRules (fileOf (((t :: rules).map (·.rule)).map (·.print))) =
          .inl <$> parseClassbench (fileOf (((t :: rules).map (·.rule)).map (·.print))) := by
        obtain ⟨s, hs⟩ : ∃ s, t.rule.print = '@' :: s := ⟨_, rfl⟩
        have hline := (h t List.mem_cons_self).rule.newline_notMem
        rw [List.map_cons, List.map_cons, fileOf_cons, parseRules, getline_append hline, hs]
        rfl
      have hne : t :: rules ≠ [] := List.cons_ne_nil t rules
      simp only [ReadsAs, hparse, hne, ne_eq, not_false_eq_true, true_and]
      constructor
      · rintro ⟨rs, hrs, -⟩
        by_contra hge
        rw [hundefined (Nat.not_lt.mp hge)] at hrs
        cases hrs
      · intro hlt
        obtain ⟨rs, hranges, hdesc, hrs⟩ := hok hlt
        refine ⟨rs, by rw [hrs]; rfl, ?_, hdesc⟩
        rw [hranges, List.map_map]
        rfl

end ClassBench

/-! ## The MSU file -/

section MSU

variable {rules : List TaggedRule} {t : TaggedRule}

theorem cidr_le_lt {address p : ℕ} (h : address < 2 ^ 32) (hp : p ≤ 32) :
    (cidr address p).low ≤ (cidr address p).high ∧ (cidr address p).high < 2 ^ 32 := by
  rw [cidr_eq h hp]
  exact ⟨(isAligned_mod (Nat.sub_le 32 p) _).le, Nat.mod_lt _ (Nat.two_pow_pos 32)⟩

theorem RuleIpv4ACL.IsClassBench.le_lt {r : RuleIpv4ACL} (h : r.IsClassBench) :
    ∀ range ∈ r.ranges, range.low ≤ range.high ∧ range.high < 2 ^ 32 := by
  obtain ⟨⟨a, ha, p, hp, hsip⟩, ⟨b, hb, q, hq, hdip⟩, hsport, hdport, hproto⟩ := h
  simp only [ranges, List.forall_mem_cons, List.not_mem_nil, false_imp_iff, implies_true, and_true]
  refine ⟨hsip ▸ cidr_le_lt ha hp, hdip ▸ cidr_le_lt hb hq, ⟨hsport.1, by omega⟩,
    ⟨hdport.1, by omega⟩, ?_⟩
  rcases hproto with ⟨v, hv, heq⟩ | heq
  · rw [heq]
    exact ⟨le_rfl, by simp only; omega⟩
  · rw [heq]
    decide

theorem parseRange_colonRange {range : Range1d} (hle : range.low ≤ range.high)
    (hlt : range.high < 2 ^ 32) : parseRange (colonRange range) = .ok range := by
  have hnum : ∀ n, IsNumeral 10 (numeral 10 n) n := isNumeral_numeral (by decide) (by decide)
  have hsplit : split (colonRange range) ':' = [numeral 10 range.low, numeral 10 range.high] := by
    rw [colonRange, split_append ((hnum _).notMem rfl), split_last ((hnum _).notMem rfl) (hnum _).1]
  have hlow : atoui (numeral 10 range.low) = .ok range.low :=
    atoui_eq_ok.mpr (readUnsigned_numeral (hnum _) (Nat.lt_of_le_of_lt hle hlt))
  have hhigh : atoui (numeral 10 range.high) = .ok range.high :=
    atoui_eq_ok.mpr (readUnsigned_numeral (hnum _) hlt)
  simp only [parseRange, hsplit, elementAt, List.getElem?_cons_zero, List.getElem?_cons_succ, bind,
    Except.bind, hlow, hhigh, if_neg (Nat.not_lt.mpr hle)]
  rfl

theorem colonRange_notMem {range : Range1d} {c : Char} (hc : isDigit 10 c = false) (hne : c ≠ ':') :
    c ∉ colonRange range := by
  have hnum : ∀ n, c ∉ numeral 10 n := fun n =>
    (isNumeral_numeral (by decide) (by decide) n).notMem hc
  simp [colonRange, hnum, hne]

/-- Of a line only the protocol is left, as the source address. -/
theorem msuRule_msuLine (h : t.WellFormed) (k : ℕ) :
    (k + 1 < 2 ^ 31 → ∃ v, msuRule (msuLine t) k =
      .ok ({ priority := k, tag := v, sip := t.rule.proto }, k + 1)) ∧
    (2 ^ 31 ≤ k + 1 → msuRule (msuLine t) k = .error .undefined) := by
  have hsplit : split (msuLine t) ',' = t.rule.ranges.map colonRange ++ [t.tag] := by
    have hcolon : ∀ l ∈ t.rule.ranges.map colonRange, ',' ∉ l := by
      intro l hl
      obtain ⟨range, -, rfl⟩ := List.mem_map.mp hl
      exact colonRange_notMem rfl (by decide)
    rw [← split_flatMap_append hcolon (fun hmem => (h.tag_chars ',' hmem).1 rfl) h.tag_ne,
      List.flatMap_map]
    rfl
  have hranges : (t.rule.ranges.map colonRange).foldlM (fun _ text => parseRange text)
      (Range1d.wildcard 4) = .ok t.rule.proto := by
    have hle := h.rule.le_lt
    simp only [RuleIpv4ACL.ranges, List.forall_mem_cons] at hle
    obtain ⟨h0, h1, h2, h3, h4, -⟩ := hle
    simp only [RuleIpv4ACL.ranges, List.map_cons, List.map_nil, List.foldlM_cons, List.foldlM_nil,
      parseRange_colonRange h0.1 h0.2, parseRange_colonRange h1.1 h1.2,
      parseRange_colonRange h2.1 h2.2, parseRange_colonRange h3.1 h3.2,
      parseRange_colonRange h4.1 h4.2, bind, Except.bind]
    rfl
  obtain ⟨v, hv⟩ := h.tag_value
  simp only [msuRule, hsplit, List.getLast?_append, List.getLast?_singleton, Option.or,
    List.dropLast_concat, hranges, bind, Except.bind]
  constructor
  · intro hlt
    have hincr : increment k = .ok (k + 1) := if_pos hlt
    exact ⟨v, by simp only [hincr, hv]; rfl⟩
  · intro hge
    have hincr : increment k = .error .undefined := if_neg (Nat.not_lt.mpr hge)
    simp only [hincr]

/-- The ranges that a line of an MSU file is read with. -/
def msuRanges (r : RuleIpv4ACL) : List Range1d :=
  [r.proto, .wildcard 4, .wildcard 2, .wildcard 2, .wildcard 2]

/-- The loop over the lines counts the priorities up. -/
theorem msuLines_eq (h : ∀ t ∈ rules, t.WellFormed) (rs : List RuleIpv4ACL) {k : ℕ}
    (hk : k < 2 ^ 31) :
    (k + rules.length < 2 ^ 31 → ∃ rs', rs'.map (·.ranges) = rules.map (msuRanges ·.rule) ∧
      (∀ r ∈ rs', (k : ℤ) ≤ r.priority) ∧
      (rs'.Pairwise fun r r' => r.priority < r'.priority) ∧
      msuLines (rules.map msuLine) rs k = .ok (rs ++ rs')) ∧
    (2 ^ 31 ≤ k + rules.length → msuLines (rules.map msuLine) rs k = .error .undefined) := by
  induction rules generalizing rs k with
  | nil =>
      refine ⟨fun _ => ⟨[], rfl, by simp, .nil, by simp [msuLines]⟩, fun h => ?_⟩
      rw [List.length_nil] at h
      omega
  | cons t rules ih =>
      rw [List.forall_mem_cons] at h
      obtain ⟨hread, hstop⟩ := msuRule_msuLine h.1 k
      simp only [List.length_cons, List.map_cons]
      by_cases hnext : k + 1 < 2 ^ 31
      · obtain ⟨v, hv⟩ := hread hnext
        set r : RuleIpv4ACL := { priority := k, tag := v, sip := t.rule.proto } with hr
        obtain ⟨hok, hundefined⟩ := ih h.2 (rs ++ [r]) hnext
        simp only [msuLines, hv, bind, Except.bind]
        constructor
        · intro hlt
          obtain ⟨rs', hranges, hge, hasc, hlines⟩ := hok (by omega)
          have hge' : ∀ r' ∈ rs', (k : ℤ) < r'.priority := fun r' hr' => by
            have := hge r' hr'
            omega
          refine ⟨r :: rs', by rw [List.map_cons, hranges]; rfl, ?_, .cons hge' hasc, ?_⟩
          · exact List.forall_mem_cons.mpr ⟨le_rfl, fun r' hr' => (hge' r' hr').le⟩
          · rw [hlines, List.append_assoc, List.singleton_append]
        · exact fun hge => hundefined (by omega)
      · simp only [msuLines, hstop (Nat.not_lt.mp hnext), bind, Except.bind]
        exact ⟨fun hlt => by omega, fun _ => trivial⟩

theorem TaggedRule.WellFormed.newline_notMem (h : t.WellFormed) : '\n' ∉ msuLine t := by
  have hcolon : ∀ range, '\n' ∉ colonRange range := fun range => colonRange_notMem rfl (by decide)
  have htag : '\n' ∉ t.tag := fun hmem => (h.tag_chars '\n' hmem).2 rfl
  simp [msuLine, hcolon, htag]

theorem parserMSU_eq (header : MSUHeader) (h : ∀ t ∈ rules, t.WellFormed) :
    (rules.length < 2 ^ 31 → ∃ rs, rs.map (·.ranges) = rules.map (msuRanges ·.rule) ∧
      (rs.Pairwise fun r r' => r'.priority < r.priority) ∧
      parserMSU (msuFile header rules) = .ok rs) ∧
    (2 ^ 31 ≤ rules.length → parserMSU (msuFile header rules) = .error .undefined) := by
  have hheader := header.lines
  simp only [List.forall_mem_cons] at hheader
  obtain ⟨h1, h2, h3, -⟩ := hheader
  obtain ⟨ranges, hbounds⟩ := header.bounds
  have hnewline : ∀ l ∈ rules.map msuLine, '\n' ∉ l := by
    intro l hl
    obtain ⟨t, ht, rfl⟩ := List.mem_map.mp hl
    exact (h t ht).newline_notMem
  obtain ⟨hok, hundefined⟩ := msuLines_eq h [] (Nat.two_pow_pos 31)
  rw [Nat.zero_add] at hok hundefined
  simp only [parserMSU, msuFile, List.cons_append, List.nil_append, fileOf_cons, getline_append h1,
    getline_append h2, getline_append h3, hbounds, bind, Except.bind, linesOf_fileOf hnewline]
  constructor
  · intro hlt
    obtain ⟨rs, hranges, -, hasc, hlines⟩ := hok hlt
    rw [List.nil_append] at hlines
    refine ⟨rs.map fun r => { r with priority := rs.length - r.priority }, ?_, ?_, ?_⟩
    · rw [← hranges, List.map_map]
      rfl
    · refine List.pairwise_map.mpr (hasc.imp fun h => ?_)
      simp only
      omega
    · rw [hlines]
      rfl
  · intro hge
    rw [hundefined hge]

/-- The MSU file gives the rules back if every rule is what is left of it: the largest 16-bit range
as the source address, and no other constraint. -/
theorem readsAs_msuFile (header : MSUHeader) (h : ∀ t ∈ rules, t.WellFormed) :
    ReadsAs (msuFile header rules) rules ↔ rules.length < 2 ^ 31 ∧
      ∀ t ∈ rules, t.rule.ranges = msuRanges t.rule := by
  obtain ⟨hok, hundefined⟩ := parserMSU_eq header h
  have hparse : parseRules (msuFile header rules) = .inl <$> parserMSU (msuFile header rules) := by
    obtain ⟨s, hs⟩ : ∃ s, header.first = '!' :: s := by
      have hhead := header.head
      cases hfirst : header.first with
      | nil =>
          rw [hfirst] at hhead
          cases hhead
      | cons c s =>
          rw [hfirst] at hhead
          cases hhead
          exact ⟨s, rfl⟩
    obtain ⟨n, hn⟩ := header.reps
    have hline := header.lines header.first (by simp)
    have hfile : msuFile header rules = header.first ++ '\n' ::
        fileOf ([header.second, header.third] ++ rules.map msuLine) := fileOf_cons
    rw [hs] at hline hn hfile
    conv_lhs => rw [parseRules, hfile, getline_append hline]
    simp only [if_true, hn, bind, Except.bind, ← hfile]
    rfl
  rw [ReadsAs, hparse]
  constructor
  · rintro ⟨rs, hrs, hranges, -⟩
    by_cases hlt : rules.length < 2 ^ 31
    · obtain ⟨rs', hranges', -, hrs'⟩ := hok hlt
      rw [hrs'] at hrs
      cases hrs
      refine ⟨hlt, fun t ht => ?_⟩
      exact (List.map_inj_left.mp (hranges.symm.trans hranges')) t ht
    · rw [hundefined (Nat.not_lt.mp hlt)] at hrs
      cases hrs
  · rintro ⟨hlt, hall⟩
    obtain ⟨rs, hranges, hdesc, hrs⟩ := hok hlt
    exact ⟨rs, by rw [hrs]; rfl, hranges.trans (List.map_congr_left fun t ht => (hall t ht).symm),
      hdesc⟩

end MSU

/-- Both files give the rules back, with descending priorities, if and only if there are rules, not
too many for an `int`, and all of them have `[0, 65535]` as the source address and wildcards
elsewhere. -/
theorem formats_agree_iff (header : MSUHeader) {rules : List TaggedRule}
    (h : ∀ t ∈ rules, t.WellFormed) :
    ReadsAs (classbenchFile rules) rules ∧ ReadsAs (msuFile header rules) rules ↔
      rules ≠ [] ∧ rules.length < 2 ^ 31 ∧ ∀ t ∈ rules, t.rule.sip = .wildcard 2 ∧
        t.rule.dip = .wildcard 4 ∧ t.rule.sport = .wildcard 2 ∧ t.rule.dport = .wildcard 2 ∧
        t.rule.proto = .wildcard 2 := by
  have hranges : ∀ t : TaggedRule, t.rule.ranges = msuRanges t.rule ↔ t.rule.sip = .wildcard 2 ∧
      t.rule.dip = .wildcard 4 ∧ t.rule.sport = .wildcard 2 ∧ t.rule.dport = .wildcard 2 ∧
      t.rule.proto = .wildcard 2 := by
    intro t
    simp only [RuleIpv4ACL.ranges, msuRanges, List.cons.injEq, and_true]
    constructor
    · rintro ⟨hsip, hdip, hsport, hdport, hproto⟩
      exact ⟨hsip.trans hproto, hdip, hsport, hdport, hproto⟩
    · rintro ⟨hsip, hdip, hsport, hdport, hproto⟩
      exact ⟨hsip.trans hproto.symm, hdip, hsport, hdport, hproto⟩
  simp only [readsAs_classbenchFile h, readsAs_msuFile header h, hranges]
  tauto

/-- A rule for all packets from the addresses up to `0.0.255.255`. -/
theorem formats_agree_iff_lowAddresses :
    ∃ header : MSUHeader, ∃ rules : List TaggedRule,
      ReadsAs (classbenchFile rules) rules ∧ ReadsAs (msuFile header rules) rules := by
  have hrule : ({ sip := .wildcard 2 } : RuleIpv4ACL).IsClassBench :=
    { sip := ⟨0, by decide, 16, by decide, by decide⟩
      dip := ⟨0, by decide, 0, by decide, by decide⟩
      sport := by decide
      dport := by decide
      proto := .inr rfl }
  have hwf : ∀ t ∈ [(⟨{ sip := .wildcard 2 }, ['7']⟩ : TaggedRule)], t.WellFormed := by
    intro t ht
    obtain rfl := List.mem_singleton.mp ht
    exact ⟨hrule, by decide, List.forall_mem_singleton.mpr (by decide), 7, by decide⟩
  let header : MSUHeader := ⟨"!1;4".toList, [], [], by decide, by decide, ⟨5, by decide⟩, [], rfl⟩
  refine ⟨header, _, (formats_agree_iff header hwf).mpr ⟨by decide, by decide, fun t ht => ?_⟩⟩
  obtain rfl := List.mem_singleton.mp ht
  exact ⟨rfl, rfl, rfl, rfl, rfl⟩

/-- The MSU file of a rule for `10.0.0.0/8`. -/
theorem not_formats_agree :
    ∃ header : MSUHeader, ∃ rules : List TaggedRule, (∀ t ∈ rules, t.WellFormed) ∧
      ¬(ReadsAs (classbenchFile rules) rules ∧ ReadsAs (msuFile header rules) rules) := by
  have hrule : ({ sip := cidr (10 * 256 ^ 3) 8 } : RuleIpv4ACL).IsClassBench :=
    { sip := ⟨10 * 256 ^ 3, by decide, 8, by decide, rfl⟩
      dip := ⟨0, by decide, 0, by decide, by decide⟩
      sport := by decide
      dport := by decide
      proto := .inr rfl }
  have hwf : ∀ t ∈ [(⟨{ sip := cidr (10 * 256 ^ 3) 8 }, ['7']⟩ : TaggedRule)], t.WellFormed := by
    intro t ht
    obtain rfl := List.mem_singleton.mp ht
    exact ⟨hrule, by decide, List.forall_mem_singleton.mpr (by decide), 7, by decide⟩
  let header : MSUHeader := ⟨"!1;4".toList, [], [], by decide, by decide, ⟨5, by decide⟩, [], rfl⟩
  refine ⟨header, _, hwf, fun h => ?_⟩
  have hranges := ((readsAs_msuFile header hwf).mp h.2).2 _ List.mem_cons_self
  exact absurd hranges (by decide)

end Pcv
