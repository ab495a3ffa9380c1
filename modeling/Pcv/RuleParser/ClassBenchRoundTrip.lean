import Pcv.RuleParser.ClassBenchParse
import Mathlib.Data.List.TakeWhile
import Mathlib.Data.Nat.Bitwise

/-!
# ClassBench text and the rules it stands for

`RuleText` relates the tokens of a line to the rule they denote: addresses are written as four
octets and a prefix length and denote the addresses with that prefix, ports and the protocol denote
the ranges that are written.  `parse` builds the denoted rule, and the text that `print` writes for
a rule denotes this rule.
-/

namespace Pcv

open Text

/-! ## The texts of the fields -/

/-- An address as four octets and a prefix length. -/
inductive AddressNumerals : List Char → Range1d → Prop
  | mk {t0 t1 t2 t3 len : List Char} {o0 o1 o2 o3 p : ℕ} (h0 : IsNumeral 10 t0 o0)
      (h1 : IsNumeral 10 t1 o1) (h2 : IsNumeral 10 t2 o2) (h3 : IsNumeral 10 t3 o3)
      (hp : IsNumeral 10 len p) (ho : ∀ o ∈ [o0, o1, o2, o3], o ≤ 255) (hle : p ≤ 32) :
      AddressNumerals (t0 ++ '.' :: (t1 ++ '.' :: (t2 ++ '.' :: t3)) ++ '/' :: len)
        (cidr (addressOf o0 o1 o2 o3) p)

/-- The two ends of a range of ports. -/
def PortNumerals (first last : List Char) (range : Range1d) : Prop :=
  IsNumeral 10 first range.low ∧ IsNumeral 10 last range.high ∧
    range.low ≤ range.high ∧ range.high ≤ 65535

/-- A protocol number with the exact mask, or any protocol. -/
inductive ProtocolNumerals : List Char → Range1d → Prop
  | exact {t : List Char} {v : ℕ} (h : IsNumeral 16 t v) (hv : v ≤ 65535) :
      ProtocolNumerals ('0' :: 'x' :: t ++ '/' :: "0xFF".toList) ⟨v, v⟩
  | any : ProtocolNumerals "0x00/0x00".toList (.wildcard 2)

/-- The tokens of a line denote the ranges of the rule; further tokens may follow. -/
inductive RuleText : List (List Char) → RuleIpv4ACL → Prop
  | mk {sip dip sportLow colon sportHigh dportLow colon' dportHigh proto : List Char}
      {rest : List (List Char)} {r : RuleIpv4ACL} (hsip : AddressNumerals sip r.sip)
      (hdip : AddressNumerals dip r.dip) (hsport : PortNumerals sportLow sportHigh r.sport)
      (hdport : PortNumerals dportLow dportHigh r.dport)
      (hproto : ProtocolNumerals proto r.proto) :
      RuleText (('@' :: sip) :: dip :: sportLow :: colon :: sportHigh :: dportLow :: colon' ::
        dportHigh :: proto :: rest) r

/-! ## Numerals in the readers -/

section Numerals

variable {t : List Char} {base n : ℕ}

theorem takeWhile_numeral (h : IsNumeral base t n) : t.takeWhile (isDigit base) = t :=
  List.takeWhile_eq_self_iff.mpr h.2.1

theorem dropWhile_isWord (h : IsWord t) : t.dropWhile isSpace = t := by
  obtain ⟨c, s, rfl⟩ := List.exists_cons_of_ne_nil h.1
  simp [h.2 c List.mem_cons_self]

theorem readUnsigned_numeral (h : IsNumeral 10 t n) (hn : n < 2 ^ 32) :
    readUnsigned t = some n := by
  have hsign : readSign t = (false, t) := by
    obtain ⟨c, s, rfl⟩ := List.exists_cons_of_ne_nil h.1
    exact readSign_of_isDigit (h.2.1 c List.mem_cons_self) s
  have hmax : ¬n > keyMax 4 := Nat.not_lt.mpr (Nat.le_sub_one_of_lt hn)
  simp only [readUnsigned, dropWhile_isWord h.isWord, if_neg h.1, hsign, takeWhile_numeral h,
    h.2.2, if_neg hmax, Bool.false_eq_true, if_false]

theorem stoul_numeral (h : IsNumeral 16 t n) (hn : n < 2 ^ 64) :
    stoul ('0' :: 'x' :: t) = .ok n := by
  have hskip : skipHexPrefix ('0' :: 'x' :: t) = t := by
    obtain ⟨c, s, rfl⟩ := List.exists_cons_of_ne_nil h.1
    simp [skipHexPrefix, h.2.1 c List.mem_cons_self]
  have hmax : ¬n > keyMax 8 := Nat.not_lt.mpr (Nat.le_sub_one_of_lt hn)
  have hdrop : ('0' :: 'x' :: t).dropWhile isSpace = '0' :: 'x' :: t := rfl
  have hsign : readSign ('0' :: 'x' :: t) = (false, '0' :: 'x' :: t) := rfl
  simp only [stoul, readHex, hdrop, hsign, hskip, takeWhile_numeral h, if_neg h.1, h.2.2,
    if_neg hmax, Bool.false_eq_true, if_false]

theorem parsePort_numerals {first last : List Char} {range : Range1d}
    (h : PortNumerals first last range) : parsePort first last = .ok range := by
  obtain ⟨hlow, hhigh, hle, hmax⟩ := h
  simp only [parsePort, atoui, readUnsigned_numeral hlow (by omega),
    readUnsigned_numeral hhigh (by omega), bind, Except.bind, pure, Except.pure,
    Nat.mod_eq_of_lt (show range.low < 2 ^ 16 by omega),
    Nat.mod_eq_of_lt (show range.high < 2 ^ 16 by omega)]

theorem parseProtocol_numerals {token : List Char} {range : Range1d}
    (h : ProtocolNumerals token range) : parseProtocol token = .ok range := by
  cases h with
  | @exact t v h hv =>
      have hslash : '/' ∉ '0' :: 'x' :: t := by
        simp only [List.mem_cons, not_or]
        exact ⟨by decide, by decide, h.notMem rfl⟩
      have hsplit : split ('0' :: 'x' :: t ++ '/' :: "0xFF".toList) '/' =
          ['0' :: 'x' :: t, "0xFF".toList] := by
        rw [split_append hslash, split_last (by decide) (by decide)]
      simp only [parseProtocol, hsplit, elementAt, List.getElem?_cons_zero,
        List.getElem?_cons_succ, bind, Except.bind, ne_eq, not_true_eq_false, if_false,
        stoul_numeral h (show v < 2 ^ 64 by omega), Nat.mod_eq_of_lt (show v < 2 ^ 16 by omega)]
      rfl
  | any => decide

end Numerals

/-! ## Addresses -/

theorem AddressNumerals.addressText {token : List Char} {range : Range1d}
    (h : AddressNumerals token range) :
    ∃ o0 o1 o2 o3 p, AddressText token [o0, o1, o2, o3] p ∧ (∀ o ∈ [o0, o1, o2, o3], o ≤ 255) ∧
      p ≤ 32 ∧ range = cidr (addressOf o0 o1 o2 o3) p := by
  obtain @⟨t0, t1, t2, t3, len, o0, o1, o2, o3, p, h0, h1, h2, h3, hp, ho, hle⟩ := h
  refine ⟨o0, o1, o2, o3, p, ?_, ho, hle, rfl⟩
  have hslash : '/' ∉ t0 ++ '.' :: (t1 ++ '.' :: (t2 ++ '.' :: t3)) := by
    simp only [List.mem_append, List.mem_cons, not_or]
    exact ⟨h0.notMem rfl, by decide, h1.notMem rfl, by decide, h2.notMem rfl, by decide,
      h3.notMem rfl⟩
  have hdot : split (t0 ++ '.' :: (t1 ++ '.' :: (t2 ++ '.' :: t3))) '.' = [t0, t1, t2, t3] := by
    rw [split_append (h0.notMem rfl), split_append (h1.notMem rfl), split_append (h2.notMem rfl),
      split_last (h3.notMem rfl) h3.1]
  have hlens : split len '/' = [len] := split_last (hp.notMem rfl) hp.1
  simp only [List.forall_mem_cons] at ho
  refine .mk ((split_append hslash).trans (by rw [hlens])) hdot (readUnsigned_numeral h0 ?_)
    (readUnsigned_numeral h1 ?_) (readUnsigned_numeral h2 ?_) (readUnsigned_numeral h3 ?_)
    (readUnsigned_numeral hp (by omega))
  all_goals omega

/-- A block of addresses, in 32 bits. -/
theorem cidr_eq {address p : ℕ} (h : address < 2 ^ 32) (hp : p ≤ 32) :
    cidr address p = ⟨2 ^ (32 - p) * (address / 2 ^ (32 - p)) % 2 ^ 32,
      (2 ^ (32 - p) * (address / 2 ^ (32 - p)) + (2 ^ (32 - p) - 1)) % 2 ^ 32⟩ := by
  have hle := Nat.mul_div_le address (2 ^ (32 - p))
  have hlt : 2 ^ (32 - p) * (address / 2 ^ (32 - p)) + (2 ^ (32 - p) - 1) < 2 ^ 32 := by
    have hpow : 2 ^ 32 = 2 ^ (32 - p) * 2 ^ p := by rw [← pow_add, Nat.sub_add_cancel hp]
    rw [hpow] at h ⊢
    have := Nat.mul_le_mul_left (2 ^ (32 - p)) (Nat.succ_le_of_lt (Nat.div_lt_of_lt_mul h))
    rw [Nat.mul_succ] at this
    have := Nat.two_pow_pos (32 - p)
    omega
  rw [Nat.mod_eq_of_lt (Nat.lt_of_le_of_lt hle h), Nat.mod_eq_of_lt hlt, cidr, Nat.mul_comm]

theorem parseIPRange_numerals {token : List Char} {range : Range1d}
    (h : AddressNumerals token range) : parseIPRange token = .ok range := by
  obtain ⟨o0, o1, o2, o3, p, htext, ho, hp, rfl⟩ := h.addressText
  have hlt : ∀ o ∈ [o0, o1, o2, o3], o < 256 := fun o h => Nat.lt_succ_of_le (ho o h)
  obtain ⟨m, hm, hblock⟩ := addressRange_of_le htext.octets_lt hp
  have haddress : addressOf o0 o1 o2 o3 < 2 ^ 32 := by
    simp only [List.forall_mem_cons] at ho
    simp only [addressOf]
    omega
  rw [parseIPRange_of_text htext, hm, hblock hlt, cidr_eq haddress hp]

/-! ## From text to rules -/

/-- A line that denotes a rule is parsed as this rule, with the given cost. -/
theorem parse_ruleText {tokens : List (List Char)} {r : RuleIpv4ACL} (h : RuleText tokens r)
    (ruleset : List RuleIpv4ACL) (cost : ℕ) :
    parse tokens ruleset cost = (.ok (), ruleset ++ [{ r with priority := cost, tag := -1 }]) := by
  obtain ⟨hsip, hdip, hsport, hdport, hproto⟩ := h
  simp only [parse, parseRule, elementAt, List.getElem?_cons_zero, List.getElem?_cons_succ, bind,
    Except.bind, ne_eq, not_true_eq_false, if_false, parseIPRange_numerals hsip,
    parseIPRange_numerals hdip, parsePort_numerals hsport, parsePort_numerals hdport,
    parseProtocol_numerals hproto]
  rfl

/-! ## From rules to text -/

/-- A rule that a line can denote. -/
structure RuleIpv4ACL.IsClassBench (r : RuleIpv4ACL) : Prop where
  sip : ∃ address < 2 ^ 32, ∃ p ≤ 32, r.sip = cidr address p
  dip : ∃ address < 2 ^ 32, ∃ p ≤ 32, r.dip = cidr address p
  sport : r.sport.low ≤ r.sport.high ∧ r.sport.high ≤ 65535
  dport : r.dport.low ≤ r.dport.high ∧ r.dport.high ≤ 65535
  proto : (∃ v ≤ 65535, r.proto = ⟨v, v⟩) ∨ r.proto = .wildcard 2

/-- The prefix length is found where the ends agree for the first time. -/
theorem prefixLenFrom_eq {ip : Range1d} {p : ℕ}
    (hlow : ∀ i < 32 - p, ip.low.testBit i ≠ ip.high.testBit i)
    (hp : 0 < p → ip.low.testBit (32 - p) = ip.high.testBit (32 - p)) {n : ℕ} (hpn : p ≤ n)
    (hn : n ≤ 32) : prefixLenFrom ip n = p := by
  induction n with
  | zero => exact (Nat.le_zero.mp hpn).symm
  | succ n ih =>
      have hbit : ∀ i, ip.low &&& 1 <<< i = ip.high &&& 1 <<< i ↔
          ip.low.testBit i = ip.high.testBit i := by
        intro i
        rw [Nat.one_shiftLeft, Nat.and_two_pow, Nat.and_two_pow]
        have hpos := Nat.two_pow_pos i
        cases ip.low.testBit i <;> cases ip.high.testBit i <;> simp [hpos.ne]
      simp only [prefixLenFrom, hbit]
      rcases Nat.eq_or_lt_of_le hpn with rfl | hlt
      · rw [if_pos (hp (Nat.succ_pos n))]
      · rw [if_neg (hlow _ (by omega)), ih (by omega) (by omega)]

theorem prefixLenFrom_cidr {address p : ℕ} (hp : p ≤ 32) : prefixLenFrom (cidr address p) 32 = p := by
  have hlow : ∀ i, (cidr address p).low.testBit i =
      if i < 32 - p then false else (address / 2 ^ (32 - p)).testBit (i - (32 - p)) := by
    intro i
    have := Nat.testBit_two_pow_mul_add (address / 2 ^ (32 - p)) (Nat.two_pow_pos (32 - p)) i
    rw [Nat.add_zero, Nat.mul_comm, Nat.zero_testBit] at this
    exact this
  have hhigh : ∀ i, (cidr address p).high.testBit i =
      if i < 32 - p then true else (address / 2 ^ (32 - p)).testBit (i - (32 - p)) := by
    intro i
    have hlt : 2 ^ (32 - p) - 1 < 2 ^ (32 - p) := Nat.sub_lt (Nat.two_pow_pos _) Nat.one_pos
    have := Nat.testBit_two_pow_mul_add (address / 2 ^ (32 - p)) hlt i
    rw [Nat.mul_comm, Nat.testBit_two_pow_sub_one] at this
    refine this.trans ?_
    split <;> simp_all
  refine prefixLenFrom_eq (fun i hi => ?_) (fun _ => ?_) hp le_rfl
  · rw [hlow, hhigh, if_pos hi, if_pos hi]
    decide
  · rw [hlow, hhigh, if_neg (Nat.lt_irrefl _), if_neg (Nat.lt_irrefl _)]

theorem addressOf_octets {ip : ℕ} (h : ip < 2 ^ 32) :
    addressOf (ip / 256 ^ 3 % 256) (ip / 256 ^ 2 % 256) (ip / 256 ^ 1 % 256) (ip / 256 ^ 0 % 256) =
      ip := by
  simp only [addressOf]
  omega

/-- The block of an address is the block of its first address. -/
theorem cidr_low (address p : ℕ) : cidr (cidr address p).low p = cidr address p := by
  simp only [cidr, Nat.mul_div_cancel _ (Nat.two_pow_pos (32 - p))]

theorem printIpv4_numerals {range : Range1d}
    (h : ∃ address < 2 ^ 32, ∃ p ≤ 32, range = cidr address p) :
    AddressNumerals (printIpv4 range) range := by
  obtain ⟨address, haddress, p, hp, rfl⟩ := h
  have hnum : ∀ n, IsNumeral 10 (numeral 10 n) n := isNumeral_numeral (by decide) (by decide)
  have hlow : (cidr address p).low < 2 ^ 32 :=
    Nat.lt_of_le_of_lt (Nat.div_mul_le_self address _) haddress
  have htext := AddressNumerals.mk (hnum ((cidr address p).low / 256 ^ 3 % 256))
    (hnum ((cidr address p).low / 256 ^ 2 % 256)) (hnum ((cidr address p).low / 256 ^ 1 % 256))
    (hnum ((cidr address p).low / 256 ^ 0 % 256)) (hnum p) (by simp; omega) hp
  rw [addressOf_octets hlow, cidr_low] at htext
  rw [printIpv4, prefixLenFrom_cidr hp]
  simpa [List.append_assoc] using htext

theorem printRange_hex {range : Range1d}
    (h : (∃ v ≤ 65535, range = ⟨v, v⟩) ∨ range = .wildcard 2) :
    ProtocolNumerals (printRange range true) range := by
  rcases h with ⟨v, hv, rfl⟩ | rfl
  · have hnum : IsNumeral 16 (padZeros 2 (numeral 16 v)) v :=
      (isNumeral_numeral (by decide) (by decide) v).padZeros (by decide) 2
    have htext := ProtocolNumerals.exact hnum hv
    have hmask : padZeros 2 (numeral 16 0xff) = "FF".toList := by decide
    simpa [printRange, hmask, List.append_assoc] using htext
  · have hprint : printRange (.wildcard 2) true = "0x00/0x00".toList := by decide
    rw [hprint]
    exact .any

theorem AddressNumerals.isWord {token : List Char} {range : Range1d}
    (h : AddressNumerals token range) : ∀ c ∈ token, isSpace c = false := by
  obtain ⟨h0, h1, h2, h3, hp, -, -⟩ := h
  simp only [List.forall_mem_append, List.forall_mem_cons]
  exact ⟨⟨h0.isWord.2, rfl, h1.isWord.2, rfl, h2.isWord.2, rfl, h3.isWord.2⟩, rfl, hp.isWord.2⟩

theorem ProtocolNumerals.isWord {token : List Char} {range : Range1d}
    (h : ProtocolNumerals token range) : IsWord token := by
  cases h with
  | exact h =>
      refine ⟨by simp, ?_⟩
      simp only [List.forall_mem_append, List.forall_mem_cons]
      exact ⟨⟨rfl, rfl, h.isWord.2⟩, rfl, (isWord_of_all (by decide) (by decide)).2⟩
  | any => exact isWord_of_all (by decide) (by decide)

theorem RuleIpv4ACL.print_eq (r : RuleIpv4ACL) :
    r.print = ('@' :: printIpv4 r.sip) ++ '\t' :: (printIpv4 r.dip ++ '\t' ::
      (numeral 10 r.sport.low ++ ' ' :: ([':'] ++ ' ' :: (numeral 10 r.sport.high ++ '\t' ::
        (numeral 10 r.dport.low ++ ' ' :: ([':'] ++ ' ' :: (numeral 10 r.dport.high ++ '\t' ::
          printRange r.proto true))))))) := by
  simp [print, printRange]

/-- The text of a rule denotes the rule. -/
theorem RuleIpv4ACL.IsClassBench.ruleText {r : RuleIpv4ACL} (h : r.IsClassBench) :
    RuleText (words r.print) r := by
  have hsip := printIpv4_numerals h.sip
  have hdip := printIpv4_numerals h.dip
  have hproto := printRange_hex h.proto
  have hnum : ∀ n, IsNumeral 10 (numeral 10 n) n := isNumeral_numeral (by decide) (by decide)
  have hat : IsWord ('@' :: printIpv4 r.sip) :=
    ⟨by simp, List.forall_mem_cons.mpr ⟨rfl, hsip.isWord⟩⟩
  have hdipw : IsWord (printIpv4 r.dip) := by
    refine ⟨?_, hdip.isWord⟩
    simp [printIpv4]
  have hcolon : IsWord [':'] := isWord_of_all (by decide) (by decide)
  have htokens : words r.print = ['@' :: printIpv4 r.sip, printIpv4 r.dip, numeral 10 r.sport.low,
      [':'], numeral 10 r.sport.high, numeral 10 r.dport.low, [':'], numeral 10 r.dport.high,
      printRange r.proto true] := by
    rw [r.print_eq, words_append rfl hat, words_append rfl hdipw, words_append rfl (hnum _).isWord,
      words_append rfl hcolon, words_append rfl (hnum _).isWord, words_append rfl (hnum _).isWord,
      words_append rfl hcolon, words_append rfl (hnum _).isWord, words_last hproto.isWord]
  rw [htokens]
  exact .mk hsip hdip ⟨hnum _, hnum _, h.sport.1, h.sport.2⟩
    ⟨hnum _, hnum _, h.dport.1, h.dport.2⟩ hproto

/-- A line is parsed as the rule it denotes, and the text of a rule is parsed as this rule. -/
theorem text_corresponds :
    (∀ line r, RuleText (words line) r → ∀ ruleset (cost : ℕ),
      parse (words line) ruleset cost =
        (.ok (), ruleset ++ [{ r with priority := cost, tag := -1 }])) ∧
    ∀ r : RuleIpv4ACL, r.IsClassBench → ∀ ruleset (cost : ℕ),
      parse (words r.print) ruleset cost =
        (.ok (), ruleset ++ [{ r with priority := cost, tag := -1 }]) :=
  ⟨fun _ _ h => parse_ruleText h, fun _ h => parse_ruleText h.ruleText⟩

/-- A rule for one protocol, and its text. -/
theorem text_corresponds_tcp :
    let r : RuleIpv4ACL :=
      { sip := cidr 707184592 30, dip := cidr 1874066208 32, dport := ⟨1521, 1521⟩, proto := ⟨6, 6⟩ }
    let line := "@42.38.199.208/30\t111.179.251.32/32\t0 : 65535\t1521 : 1521\t0x06/0xFF".toList
    parse (words line) [] 7 = (.ok (), [{ r with priority := 7 }]) ∧
      parse (words r.print) [] 7 = (.ok (), [{ r with priority := 7 }]) := by
  intro r line
  have hr : r.IsClassBench :=
    { sip := ⟨707184592, by decide, 30, by decide, rfl⟩
      dip := ⟨1874066208, by decide, 32, by decide, rfl⟩
      sport := by decide
      dport := by decide
      proto := .inl ⟨6, by decide, rfl⟩ }
  have hline : r.print = line := by decide +kernel
  exact ⟨text_corresponds.1 line r (hline ▸ hr.ruleText) [] 7, text_corresponds.2 r hr [] 7⟩

end Pcv
