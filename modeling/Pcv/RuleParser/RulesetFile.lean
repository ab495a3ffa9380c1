import Pcv.Common.RangePrefix
import Pcv.RuleParser.RuleFormats
import Pcv.RuleParser.RuleIpv4
import Mathlib.Data.List.Sort

/-!
# The rules of a file, the most specific one first

`parse_ruleset_file` sorts the rules of a file by the number of bits that they ask for, and numbers
them from behind.  The rules of a ClassBench file can be cut into words: whatever the texts of the
addresses are, they are read as prefixes.  Only the ports can be out of order.
-/

namespace Pcv

open Text

/-- `cummulative_prefix_len`. -/
def RuleIpv4ACL.cummulativePrefixLen (r : RuleIpv4ACL) : ℕ :=
  r.sip.prefixLenLe 4 + r.dip.prefixLenLe 4 + r.sport.prefixLenLe 2 + r.dport.prefixLenLe 2 +
    r.proto.prefixLenLe 2

/-- `std::sort` with `rule_specifity_sort_predicate`.  The order of rules with the same length is
left open. -/
structure SpecifitySort where
  sort : List RuleIpv4ACL → List RuleIpv4ACL
  perm : ∀ l, (sort l).Perm l
  sorted : ∀ l, (sort l).Pairwise fun a b => ¬ b.cummulativePrefixLen > a.cummulativePrefixLen

/-- The insertion sort, one of the sorts that `std::sort` may be. -/
def SpecifitySort.insertion : SpecifitySort where
  sort := List.insertionSort fun a b => b.cummulativePrefixLen ≤ a.cummulativePrefixLen
  perm := List.perm_insertionSort _
  sorted l := by
    have : Std.Total fun a b : RuleIpv4ACL => b.cummulativePrefixLen ≤ a.cummulativePrefixLen :=
      ⟨fun a b => Nat.le_total _ _⟩
    have : IsTrans RuleIpv4ACL fun a b => b.cummulativePrefixLen ≤ a.cummulativePrefixLen :=
      ⟨fun _ _ _ h h' => Nat.le_trans h' h⟩
    exact (List.pairwise_insertionSort _ l).imp Nat.not_lt.mpr

/-- `parse_ruleset_file`.  A rule of another kind is taken for one with five fields. -/
def parseRulesetFile (std : SpecifitySort) (ruleFile : List Char) :
    Except ParseFault (List (RuleIpv4ACL × ℕ)) := do
  match ← parseRules ruleFile with
  | .inl rules =>
      let rules := std.sort rules
      return rules.mapIdx fun i r => (r, rules.length - i)
  | .inr _ => .error .undefined

/-! ## What the reader accepts -/

namespace RuleIpv4ACL

/-- The bounds of the ports are in order. -/
def PortsOrdered (r : RuleIpv4ACL) : Prop :=
  r.sport.low ≤ r.sport.high ∧ r.dport.low ≤ r.dport.high

/-- What every rule has that is read from a line. -/
structure Parsed (r : RuleIpv4ACL) : Prop where
  sip : r.sip.IsCidr 32
  dip : r.dip.IsCidr 32
  sport : r.sport.high ≤ keyMax 2
  dport : r.dport.high ≤ keyMax 2
  proto : r.proto.Valid 2

theorem Parsed.wellFormed_iff {r : RuleIpv4ACL} (h : r.Parsed) : r.WellFormed ↔ r.PortsOrdered :=
  ⟨fun hwf => ⟨hwf.sport.1, hwf.dport.1⟩,
    fun hp => ⟨h.sip, h.dip, ⟨hp.1, h.sport⟩, ⟨hp.2, h.dport⟩, h.proto⟩⟩

end RuleIpv4ACL

section Accepted

variable {token first last : List Char} {range : Range1d}

/-- An address that is read is a prefix. -/
theorem isCidr_of_parseIPRange (h : parseIPRange token = .ok range) : range.IsCidr 32 := by
  by_cases htext : ∃ ptrange p, AddressText token ptrange p ∧ p ≤ 32
  · obtain ⟨ptrange, p, htext, hp⟩ := htext
    rw [parseIPRange_of_text htext] at h
    have hlt := htext.octets_lt
    cases htext
    obtain ⟨m, hm, -⟩ := addressRange_of_le hlt hp
    cases hm.symm.trans h
    exact ⟨⟨_, isAligned_mod (Nat.sub_le 32 p) m⟩, Nat.mod_lt _ (by decide)⟩
  · rw [parseIPRange_undefined htext] at h
    cases h

theorem le_of_parsePort (h : parsePort first last = .ok range) : range.high ≤ keyMax 2 := by
  simp only [parsePort, bind_eq_ok] at h
  obtain ⟨low, -, high, -, heq⟩ := h
  cases heq
  exact Nat.le_of_lt_succ (Nat.mod_lt _ (by decide))

theorem valid_of_parseProtocol (h : parseProtocol token = .ok range) : range.Valid 2 := by
  simp only [parseProtocol, bind_eq_ok] at h
  obtain ⟨mask, -, h⟩ := h
  split at h
  · cases h
    exact ⟨Nat.zero_le _, le_rfl⟩
  · obtain ⟨proto, -, h⟩ := bind_eq_ok.mp h
    obtain ⟨val, -, h⟩ := bind_eq_ok.mp h
    cases h
    exact ⟨le_rfl, Nat.le_of_lt_succ (Nat.mod_lt _ (by decide))⟩

theorem parsed_of_parseRule {tokens : List (List Char)} {cost : ℕ} {r : RuleIpv4ACL}
    (h : parseRule tokens cost = .ok r) : r.Parsed := by
  obtain ⟨text, -, h⟩ := bind_eq_ok.mp h
  cases text with
  | nil => cases h
  | cons c address =>
    simp only at h
    split at h
    · cases h
    simp only [bind_eq_ok] at h
    obtain ⟨sip, hsip, _, -, dip, hdip, _, -, _, -, sport, hsport, _, -, _, -, dport, hdport, _, -,
      proto, hproto, heq⟩ := h
    cases heq
    exact ⟨isCidr_of_parseIPRange hsip, isCidr_of_parseIPRange hdip, le_of_parsePort hsport,
      le_of_parsePort hdport, valid_of_parseProtocol hproto⟩

theorem parsed_of_parseLines {lines : List (List Char)} {ruleset rules : List RuleIpv4ACL}
    {lineNumber : ℕ} (hruleset : ∀ r ∈ ruleset, r.Parsed)
    (h : parseLines lines ruleset lineNumber = .ok rules) : ∀ r ∈ rules, r.Parsed := by
  induction lines generalizing ruleset lineNumber with
  | nil =>
    cases h
    exact hruleset
  | cons content lines ih =>
    rw [parseLines, bind_eq_ok] at h
    obtain ⟨next, -, h⟩ := h
    cases hrule : parseRule (words content) lineNumber with
    | error e =>
      rw [parse, hrule] at h
      cases h
    | ok r =>
      rw [parse, hrule] at h
      refine ih (fun r' hr' => ?_) h
      rcases List.mem_append.mp hr' with hr' | hr'
      · exact hruleset r' hr'
      · rw [List.mem_singleton.mp hr']
        exact parsed_of_parseRule hrule

theorem parsed_of_parseClassbench {file : List Char} {rules : List RuleIpv4ACL}
    (h : parseClassbench file = .ok rules) : ∀ r ∈ rules, r.Parsed := by
  rw [parseClassbench, bind_eq_ok] at h
  obtain ⟨parsed, hparsed, h⟩ := h
  cases h
  intro r hr
  obtain ⟨i, hi, rfl⟩ := List.mem_mapIdx.mp hr
  have := parsed_of_parseLines (fun r hr => absurd hr List.not_mem_nil) hparsed _
    (List.getElem_mem hi)
  exact ⟨this.sip, this.dip, this.sport, this.dport, this.proto⟩

end Accepted

/-! ## What the file gives -/

/-- The rules of a file in the order of their prefix lengths, with descending identifiers. -/
structure RanksRules (parsed : List RuleIpv4ACL) (rules : List (RuleIpv4ACL × ℕ)) : Prop where
  perm : (rules.map Prod.fst).Perm parsed
  ids : rules.map Prod.snd = (List.range' 1 parsed.length).reverse
  specific : rules.Pairwise fun a b =>
    b.1.cummulativePrefixLen ≤ a.1.cummulativePrefixLen ∧ b.2 < a.2
  wellFormed : ∀ r ∈ rules, r.1.WellFormed ↔ r.1.PortsOrdered

section RulesetFile

variable {std : SpecifitySort} {file : List Char} {rules : List (RuleIpv4ACL × ℕ)}

/-- A file that begins with `@` is read as a ClassBench file. -/
theorem parseRules_of_head (hfile : file.head? = some '@') :
    parseRules file = (parseClassbench file).map .inl := by
  cases file with
  | nil => cases hfile
  | cons c s =>
    obtain rfl := Option.some.inj hfile
    have hcontent : ∃ input rest, getline (some ('@' :: s)) [] = (true, input, '@' :: rest) := by
      have htake : ('@' :: s).takeWhile (· ≠ '\n') = '@' :: s.takeWhile (· ≠ '\n') := by simp
      simp only [getline, htake]
      split
      · exact ⟨_, _, rfl⟩
      · exact ⟨_, _, rfl⟩
    obtain ⟨input, rest, hcontent⟩ := hcontent
    simp only [parseRules, hcontent]
    rw [if_neg (by decide), if_pos trivial]
    cases parseClassbench ('@' :: s) <;> rfl

theorem snd_mapIdx (l : List RuleIpv4ACL) :
    (l.mapIdx fun i r => (r, l.length - i)).map Prod.snd = (List.range' 1 l.length).reverse := by
  refine List.ext_getElem (by simp) fun i hi _ => ?_
  simp only [List.length_map, List.length_mapIdx] at hi
  simp only [List.getElem_map, List.getElem_mapIdx, List.getElem_reverse, List.length_range',
    List.getElem_range']
  omega

/-- The rules of a ClassBench file come in the order of their prefix lengths, the identifiers count
down to one, and a rule is well formed exactly if its ports are in order. -/
theorem ranksRules_of_parseRulesetFile (hfile : file.head? = some '@')
    (h : parseRulesetFile std file = .ok rules) :
    ∃ parsed, parseClassbench file = .ok parsed ∧ RanksRules parsed rules := by
  rw [parseRulesetFile, parseRules_of_head hfile] at h
  cases hparsed : parseClassbench file with
  | error e =>
    rw [hparsed] at h
    cases h
  | ok parsed =>
    rw [hparsed] at h
    cases h
    have hfst : ((std.sort parsed).mapIdx fun i r => (r, (std.sort parsed).length - i)).map Prod.fst =
        std.sort parsed := List.ext_getElem (by simp) fun i _ _ => by simp
    refine ⟨parsed, rfl, ?_, ?_, ?_, ?_⟩
    · rw [hfst]
      exact std.perm parsed
    · rw [snd_mapIdx, (std.perm parsed).length_eq]
    · rw [List.pairwise_iff_getElem]
      intro i j hi hj hij
      rw [List.length_mapIdx] at hi hj
      simp only [List.getElem_mapIdx]
      exact ⟨Nat.not_lt.mp (List.pairwise_iff_getElem.mp (std.sorted parsed) i j hi hj hij), by omega⟩
    · intro r hr
      obtain ⟨i, hi, rfl⟩ := List.mem_mapIdx.mp hr
      exact (parsed_of_parseClassbench hparsed _ ((std.perm parsed).mem_iff.mp
        (List.getElem_mem hi))).wellFormed_iff

/-- Two rules, of which the second one is the more specific one. -/
theorem ranksRules_of_parseRulesetFile_two :
    let file := ("@10.0.0.0/8\t0.0.0.0/0\t0 : 65535\t80 : 80\t0x06/0xFF\n" ++
      "@10.1.0.0/16\t0.0.0.0/0\t0 : 65535\t80 : 80\t0x06/0xFF\n").toList
    ∃ rules parsed, parseRulesetFile .insertion file = .ok rules ∧
      parseClassbench file = .ok parsed ∧ RanksRules parsed rules ∧ rules.length = 2 := by
  intro file
  have h : (parseRulesetFile .insertion file).toOption.any (·.length = 2) = true := by
    decide +kernel
  cases hrules : parseRulesetFile .insertion file with
  | error e =>
    rw [hrules] at h
    cases h
  | ok rules =>
    rw [hrules] at h
    obtain ⟨parsed, hparsed, hranks⟩ := ranksRules_of_parseRulesetFile (by decide) hrules
    exact ⟨rules, parsed, rfl, hparsed, hranks, of_decide_eq_true h⟩

end RulesetFile

end Pcv
