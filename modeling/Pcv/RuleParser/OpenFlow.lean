import Pcv.RuleParser.ClassBench

/-!
# The reader of flow dumps

`parseOpenflow` reads the lines of a flow dump with a cursor into the line, which the readers of
the values move on.  A line is a `std::string`: behind its last character the cursor sees a null,
and any access behind that is undefined behaviour.
-/

namespace Pcv

open Text

/-! ## The cursor -/

/-- `line[pos]`. -/
def charAt (line : List Char) (pos : ℕ) : Except ParseFault Char :=
  match (line)[pos]? with
  | some c => .ok c
  | none => if pos = line.length then .ok '\x00' else .error .undefined

/-- A loop that reads characters as long as `p` holds, which does not hold for the null. -/
def readWhile (p : Char → Bool) (line : List Char) (pos : ℕ) : Except ParseFault (List Char × ℕ) :=
  if pos ≤ line.length then
    let n := (line.drop pos).takeWhile p
    .ok (n, pos + n.length)
  else .error .undefined

/-- `line.substr(pos, n)`. -/
def substr (line : List Char) (pos n : ℕ) : Except ParseFault (List Char) :=
  if pos ≤ line.length then .ok ((line.drop pos).take n)
  else .error (.thrown "basic_string::substr".toList)

def isSeparator (c : Char) : Bool := c == ' ' || c == ','

def isIdChar (c : Char) : Bool := c.isAlphanum || c == '_'

/-- `skip_space_and_comas`. -/
def skipSpaceAndComas (line : List Char) (pos : ℕ) : Except ParseFault ℕ := do
  let (_, pos) ← readWhile isSeparator line pos
  return pos

/-- `read_id`. -/
def readId : List Char → ℕ → Except ParseFault (List Char × ℕ) := readWhile isIdChar

/-! ## Values -/

/-- `stol`, of a text that consists of decimal digits. -/
def stol (n : List Char) (base : ℕ) : Except ParseFault ℕ :=
  if n = [] ∨ 2 ^ 63 ≤ value base n then .error (.thrown "stol".toList) else .ok (value base n)

/-- `read_int`. -/
def readInt (line : List Char) (pos base : ℕ) : Except ParseFault (ℕ × ℕ) := do
  let (n, pos) ← readWhile (isDigit 10) line pos
  return (← stol n base, pos)

/-- `stoi`. -/
def stoi (s : List Char) : Except ParseFault ℤ :=
  let (negative, s) := readSign (s.dropWhile isSpace)
  let digits := s.takeWhile (isDigit 10)
  let val : ℤ := if negative then -(value 10 digits : ℤ) else value 10 digits
  if digits = [] ∨ val < -2 ^ 31 ∨ 2 ^ 31 - 1 < val then .error (.thrown "stoi".toList) else .ok val

/-- The loop of `read_eth_mac`, for the given number of octets. -/
def readOctets (line : List Char) : ℕ → ℕ → ℕ → Except ParseFault (ℕ × ℕ)
  | 0, val, pos => .ok (val, pos)
  | n + 1, val, pos => do
      let octet ← stoi (← substr line pos (pos + 2))
      let val := (val <<< 8) % 2 ^ 64 ||| (octet % 2 ^ 64).toNat
      if (← charAt line (pos + 3)) = '/' then
        .error (.thrown "not implemented mask of the eth mac".toList)
      else readOctets line n val (pos + 3)

/-- `read_eth_mac`. -/
def readEthMac (line : List Char) (pos : ℕ) : Except ParseFault (Range1d × ℕ) := do
  let (val, pos) ← readOctets line 6 0 pos
  return (⟨val, val⟩, pos)

/-- The loop of `read_ipv4`, for the given number of octets. -/
def readIpv4Octets (line : List Char) : ℕ → ℕ → ℕ → Except ParseFault (ℕ × ℕ)
  | 0, addr, pos => .ok (addr, pos)
  | n + 1, addr, pos => do
      let (octet, pos) ← readInt line pos 10
      readIpv4Octets line n (((addr <<< 8) % 2 ^ 32 ||| octet) % 2 ^ 32) (pos + 1)

/-- `read_ipv4`. -/
def readIpv4 (line : List Char) (pos : ℕ) : Except ParseFault (Range1d × ℕ) := do
  let (addr, pos) ← readIpv4Octets line 4 0 pos
  return (⟨addr, addr⟩, pos)

/-- The loop of `read_ip`, for `i` in the given list. -/
def readIpGo (line : List Char) : List ℕ → Range1d → ℕ → Except ParseFault (Range1d × ℕ)
  | [], ipv4, pos => .ok (ipv4, pos)
  | i :: is, ipv4, pos => do
      let c ← charAt line (pos + i)
      if c = ':' then .error (.thrown "ipv6 parsing not implemented".toList)
      else if c = '.' then do
        let (ipv4, pos) ← readIpv4 line pos
        readIpGo line is ipv4 pos
      else readIpGo line is ipv4 pos

/-- `read_ip`; `ipv4` is the range of the rule, which may stay as it is. -/
def readIp (line : List Char) (pos : ℕ) (ipv4 : Range1d) : Except ParseFault (Range1d × ℕ) :=
  readIpGo line [0, 1, 2] ipv4 pos

/-- `read_range`. -/
def readRange (line : List Char) (pos : ℕ) : Except ParseFault (Range1d × ℕ) := do
  let (a, pos) ← readInt line pos 10
  let a := a % 2 ^ 16
  let c ← charAt line pos
  if a = 0 ∧ c = 'x' then
    let pos := pos + 1
    let (a, pos) ← readInt line pos 16
    let a := a % 2 ^ 16
    let pos := pos + 3
    let (m, pos) ← readInt line pos 16
    let h := (a + bitNot 16 (m % 2 ^ 16)) % 2 ^ 16
    return (⟨a, h⟩, pos)
  else return (⟨a, a⟩, pos)

/-- `read_value`, which is used for the names that are not known; its text is only printed. -/
def readValue (line : List Char) (pos : ℕ) : Except ParseFault ℕ := do
  if (← charAt line pos) ≠ '=' then return pos
  else
    let start := pos + 1
    let pos := start + ((line.drop start).takeWhile (· ≠ '=')).length
    if pos < line.length then
      -- back to the character in front of the next name
      return pos - 1 - ((line.take pos).reverse.takeWhile isIdChar).length
    else return pos

/-! ## A line -/

/-- The names that `parse_openflow` knows. -/
inductive FlowName
  | inPort | ethType | dlSrc | dlDst | nwProto | nwSrc | nwDst | tpDst | tpSrc | dlVlan | vlanVid
deriving DecidableEq, Repr

namespace FlowName

def text : FlowName → List Char
  | inPort => "in_port".toList
  | ethType => "eth_type".toList
  | dlSrc => "dl_src".toList
  | dlDst => "dl_dst".toList
  | nwProto => "nw_proto".toList
  | nwSrc => "nw_src".toList
  | nwDst => "nw_dst".toList
  | tpDst => "tp_dst".toList
  | tpSrc => "tp_src".toList
  | dlVlan => "dl_vlan".toList
  | vlanVid => "vlan_vid".toList

/-- The comparisons of `id` with the names, one after the other. -/
def ofId (id : List Char) : Option FlowName :=
  [inPort, ethType, dlSrc, dlDst, nwProto, nwSrc, nwDst, tpDst, tpSrc, dlVlan, vlanVid].find?
    fun name => id = name.text

end FlowName

/-- The branch for a known name; `i` is the position of the value. -/
def FlowName.read (name : FlowName) (line : List Char) (i : ℕ) (r : RuleOF151) :
    Except ParseFault (RuleOF151 × ℕ) := do
  match name with
  | .inPort =>
      let (d, i) ← readInt line i 10
      return (r.setField .inPort ⟨d % 2 ^ 32, d % 2 ^ 32⟩, i)
  | .ethType =>
      let (d, i) ← readInt line i 10
      return (r.setField .ethType ⟨d % 2 ^ 16, d % 2 ^ 16⟩, i)
  | .dlSrc =>
      let (val, i) ← readEthMac line i
      return (r.setField .ethSrc val, i)
  | .dlDst =>
      let (val, i) ← readEthMac line i
      return (r.setField .ethDst val, i)
  | .nwProto =>
      let (d, i) ← readInt line i 10
      return (r.setField .ipProto ⟨d % 2 ^ 8, d % 2 ^ 8⟩, i)
  | .nwSrc =>
      let (val, i) ← readIp line i (r.fields .ipv4Src)
      return (r.setField .ipv4Src val, i)
  | .nwDst =>
      let (val, i) ← readIp line i (r.fields .ipv4Dst)
      return (r.setField .ipv4Dst val, i)
  | .tpDst =>
      let (val, i) ← readRange line i
      return ((r.setField .tcpDst val).setField .udpDst val, i)
  | .tpSrc =>
      let (val, i) ← readRange line i
      return ((r.setField .tcpSrc val).setField .udpSrc val, i)
  | .dlVlan | .vlanVid =>
      let (val, i) ← readRange line i
      return (r.setField .vlanVid val, i)

/-- The `while` loop over the fields of a line.  A turn that goes on moves the cursor, so that
`line.length + 1` turns are enough. -/
def parseFields (line : List Char) : ℕ → ℕ → RuleOF151 → Except ParseFault (RuleOF151 × ℕ)
  | 0, _, _ => .error .undefined
  | n + 1, i, r => do
      let i ← skipSpaceAndComas line i
      let (id, i) ← readId line i
      if id = [] then return (r, i)
      else
        match FlowName.ofId id with
        | some name =>
            let (r, i) ← name.read line (i + 1) r
            parseFields line n i r
        | none =>
            let i ← readValue line i
            parseFields line n i r

/-- The rule that `parse_openflow` makes of a line, with the position at which it stops; an empty
line and a comment are passed over. -/
def parseFlow (line : List Char) : Except ParseFault (Option (RuleOF151 × ℕ)) :=
  match line with
  | [] => .ok none
  | c :: _ =>
      if c = '#' then .ok none else some <$> parseFields line (line.length + 1) 0 .new

/-- The loop of `parse_openflow` over the lines behind the header. -/
def parseFlows : List (List Char) → List RuleOF151 → Except ParseFault (List RuleOF151)
  | [], rules => .ok rules
  | line :: lines, rules => do
      match ← parseFlow line with
      | none => parseFlows lines rules
      | some (r, _) => parseFlows lines (rules ++ [r])

end Pcv
