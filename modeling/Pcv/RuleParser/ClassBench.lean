import Pcv.Library.Text
import Pcv.RuleParser.Rule

/-!
# The readers and the writer of ClassBench and MSU files

`parse` reads one line of a ClassBench file, given as its tokens, and appends a rule;
`parserMSU` reads a whole file of the other format.  A file is the text in it.

The readers index vectors and an array of four octets without a check, and read a number from a
text that may be empty, in which case the variable keeps an indeterminate value.  All this is
undefined behaviour; the model stops there with `ParseFault.undefined`.
-/

namespace Pcv

open Text

/-- How a reader ends without a result. -/
inductive ParseFault
  /-- An exception, with its text. -/
  | thrown (what : List Char)
  /-- An access outside of a vector, or the use of a variable that was not assigned. -/
  | undefined
deriving DecidableEq, Repr

/-- `v[i]`. -/
def elementAt {α : Type*} (v : List α) (i : ℕ) : Except ParseFault α :=
  match v[i]? with
  | some x => .ok x
  | none => .error .undefined

/-! ## Numbers -/

/-- A sign in front of a number, and what follows. -/
def readSign : List Char → Bool × List Char
  | '-' :: s => (true, s)
  | '+' :: s => (false, s)
  | s => (false, s)

theorem readSign_of_isDigit {base : ℕ} {c : Char} (h : isDigit base c = true) (s : List Char) :
    readSign (c :: s) = (false, c :: s) := by
  unfold readSign
  split
  · next heq =>
      cases heq
      cases h
  · next heq =>
      cases heq
      cases h
  · rfl

/-- `reader >> val`, for an unsigned number of 32 bits.  Nothing is assigned if only blanks are
left; without a digit the value is zero. -/
def readUnsigned (s : List Char) : Option ℕ :=
  let s := s.dropWhile isSpace
  if s = [] then none
  else
    let (negative, s) := readSign s
    let n := value 10 (s.takeWhile (isDigit 10))
    if n > keyMax 4 then some (keyMax 4)
    else if negative then some ((2 ^ 32 - n) % 2 ^ 32)
    else some n

/-- `atoui`. -/
def atoui (text : List Char) : Except ParseFault ℕ :=
  match readUnsigned text with
  | some val => .ok val
  | none => .error .undefined

/-- `0x` in front of a hexadecimal number is skipped if a digit follows. -/
def skipHexPrefix : List Char → List Char
  | '0' :: x :: c :: s =>
      if (x = 'x' ∨ x = 'X') ∧ isDigit 16 c then c :: s else '0' :: x :: c :: s
  | s => s

/-- The number that `strtoul` finds in base 16, if there is a digit. -/
def readHex (s : List Char) : Option (Bool × ℕ) :=
  let (negative, s) := readSign (s.dropWhile isSpace)
  let digits := (skipHexPrefix s).takeWhile (isDigit 16)
  if digits = [] then none else some (negative, value 16 digits)

/-- `std::stoul` in base 16: the value has 64 bits. -/
def stoul (s : List Char) : Except ParseFault ℕ :=
  match readHex s with
  | none => .error (.thrown "stoul".toList)
  | some (negative, n) =>
      if n > keyMax 8 then .error (.thrown "stoul".toList)
      else if negative then .ok ((2 ^ 64 - n) % 2 ^ 64)
      else .ok n

/-- `atoi`.  A value that an `int` cannot hold is undefined behaviour. -/
def atoi (s : List Char) : Except ParseFault ℤ :=
  let (negative, s) := readSign (s.dropWhile isSpace)
  let n := value 10 (s.takeWhile (isDigit 10))
  let val : ℤ := if negative then -n else n
  if val < -2 ^ 31 ∨ 2 ^ 31 - 1 < val then .error .undefined else .ok val

/-! ## One line -/

/-- An assignment to `ptrange[i]`. -/
def setOctet (i : ℤ) (f : ℕ → ℕ) (ptrange : List ℕ) : Except ParseFault (List ℕ) :=
  if 0 ≤ i ∧ i < 4 then .ok (ptrange.modify i.toNat f) else .error .undefined

/-- `for (int i = 3; i > 3 - n; i--) ptrange[i] = val`, from the turn for `i` on. -/
def fillOctets (val : ℕ) : ℕ → ℤ → List ℕ → Except ParseFault (List ℕ)
  | 0, _, ptrange => .ok ptrange
  | n + 1, i, ptrange => do
      let ptrange ← setOctet i (fun _ => val) ptrange
      fillOctets val n (i - 1) ptrange

/-- `if (masklit2 != 0)`, the octet in which the prefix ends is changed. -/
def setPartial (masklit1 masklit2 : ℕ) (f : ℕ → ℕ) (ptrange : List ℕ) :
    Except ParseFault (List ℕ) :=
  if masklit2 ≠ 0 then setOctet (3 - masklit1) f ptrange else .ok ptrange

/-- The octets put together, in 32 bits. -/
def joinOctets (ptrange : List ℕ) : ℕ :=
  ptrange.foldl (fun ip o => ((ip <<< 8) % 2 ^ 32 + o) % 2 ^ 32) 0

/-- The first half of `parse_IPRange`: the numbers in the token, `ptrange` and `mask`. -/
def readAddress (token : List Char) : Except ParseFault (List ℕ × ℕ) := do
  let splitSlash := split token '/'
  let splitIp := split (← elementAt splitSlash 0) '.'
  let o0 ← atoui (← elementAt splitIp 0)
  let o1 ← atoui (← elementAt splitIp 1)
  let o2 ← atoui (← elementAt splitIp 2)
  let o3 ← atoui (← elementAt splitIp 3)
  let mask ← atoui (← elementAt splitSlash 1)
  return ([o0, o1, o2, o3], mask)

/-- The second half of `parse_IPRange`: the start and the end of the range. -/
def addressRange (ptrange : List ℕ) (mask : ℕ) : Except ParseFault Range1d := do
  let mask := (2 ^ 32 + 32 - mask) % 2 ^ 32
  let masklit1 := mask / 8
  let masklit2 := mask % 8
  let ptrange ← fillOctets 0 masklit1 3 ptrange
  let ptrange ←
    setPartial masklit1 masklit2 (fun o => o &&& bitNot 32 (1 <<< masklit2 - 1)) ptrange
  let low := joinOctets ptrange
  let ptrange ← fillOctets 255 masklit1 3 ptrange
  let ptrange ← setPartial masklit1 masklit2 (fun o => o ||| (1 <<< masklit2 - 1)) ptrange
  let high := joinOctets ptrange
  return ⟨low, high⟩

/-- `parse_IPRange`. -/
def parseIPRange (token : List Char) : Except ParseFault Range1d := do
  let (ptrange, mask) ← readAddress token
  addressRange ptrange mask

/-- `parse_port`.  The numbers are cut to 16 bits. -/
def parsePort (first last : List Char) : Except ParseFault Range1d := do
  let low ← atoui first
  let high ← atoui last
  return ⟨low % 2 ^ 16, high % 2 ^ 16⟩

/-- `parse_protocol`. -/
def parseProtocol (lastToken : List Char) : Except ParseFault Range1d := do
  let splitSlash := split lastToken '/'
  if (← elementAt splitSlash 1) ≠ "0xFF".toList then return ⟨0, keyMax 2⟩
  else
    let val ← stoul (← elementAt splitSlash 0)
    return ⟨val % 2 ^ 16, val % 2 ^ 16⟩

/-- The rule that `parse` makes of the tokens of a line. -/
def parseRule (tokens : List (List Char)) (cost : ℕ) : Except ParseFault RuleIpv4ACL := do
  let first ← elementAt tokens 0
  match first with
  | [] => .error (.thrown "basic_string::at".toList)
  | c :: address =>
      if c ≠ '@' then .error (.thrown ("not a valid rule format".toList ++ first))
      else
        let sip ← parseIPRange address
        let dip ← parseIPRange (← elementAt tokens 1)
        let sport ← parsePort (← elementAt tokens 2) (← elementAt tokens 4)
        let dport ← parsePort (← elementAt tokens 5) (← elementAt tokens 7)
        let proto ← parseProtocol (← elementAt tokens 8)
        return { priority := cost, sip, dip, sport, dport, proto }

/-- `parse`: the rule is appended after everything is read. -/
def parse (tokens : List (List Char)) (ruleset : List RuleIpv4ACL) (cost : ℕ) :
    Except ParseFault Unit × List RuleIpv4ACL :=
  match parseRule tokens cost with
  | .ok tempRule => (.ok (), ruleset ++ [tempRule])
  | .error e => (.error e, ruleset)

/-! ## The text of a rule -/

/-- The loop of `print_ipv4`, from the given prefix length on. -/
def prefixLenFrom (ip : Range1d) : ℕ → ℕ
  | 0 => 0
  | prefixLen + 1 =>
      let m := 1 <<< (32 - (prefixLen + 1))
      if ip.low &&& m = ip.high &&& m then prefixLen + 1 else prefixLenFrom ip prefixLen

/-- `print_ipv4`. -/
def printIpv4 (ip : Range1d) : List Char :=
  let octet := fun i => numeral 10 (ip.low / 256 ^ i % 256)
  octet 3 ++ '.' :: octet 2 ++ '.' :: octet 1 ++ '.' :: octet 0 ++ '/' ::
    numeral 10 (prefixLenFrom ip 32)

/-- `print_range`. -/
def printRange (range : Range1d) (hex : Bool) : List Char :=
  if hex then
    let prefixMask := if range.low ≠ range.high then 0 else 0xff
    "0x".toList ++ padZeros 2 (numeral 16 range.low) ++ "/0x".toList ++
      padZeros 2 (numeral 16 prefixMask)
  else numeral 10 range.low ++ " : ".toList ++ numeral 10 range.high

/-- `operator<<` of a `Rule_Ipv4_ACL`. -/
def RuleIpv4ACL.print (r : RuleIpv4ACL) : List Char :=
  '@' :: printIpv4 r.sip ++ '\t' :: printIpv4 r.dip ++ '\t' :: printRange r.sport false ++
    '\t' :: printRange r.dport false ++ '\t' :: printRange r.proto true

end Pcv
