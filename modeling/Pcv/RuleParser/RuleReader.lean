import Pcv.RuleParser.OpenFlow

/-!
# Reading rule files

`parseRules` tells the three formats apart by the first line of a file and calls the reader of the
format.  A file is the text in it.  Line numbers and priorities are counted in an `int`, which must
not overflow.
-/

namespace Pcv

open Text

/-! ## Lines -/

/-- `getline`: what the stream and the text are afterwards, and whether a line was read.  The stream
is what is left of the file, or `none` behind its end, where the text stays as it is. -/
def getline (input : Option (List Char)) (content : List Char) :
    Bool × Option (List Char) × List Char :=
  match input with
  | none => (false, none, content)
  | some [] => (false, none, [])
  | some s =>
      match s.dropWhile (· ≠ '\n') with
      | [] => (true, none, s.takeWhile (· ≠ '\n'))
      | _ :: rest => (true, some rest, s.takeWhile (· ≠ '\n'))

/-- The lines that a loop over `getline` reads. -/
def linesOf (input : Option (List Char)) : List (List Char) :=
  match input with
  | none => []
  | some s => split s '\n'

/-- `n++` of an `int`. -/
def increment (n : ℕ) : Except ParseFault ℕ :=
  if n + 1 < 2 ^ 31 then .ok (n + 1) else .error .undefined

/-! ## ClassBench files -/

/-- `parse_rules` of a stream, for the lines that are left. -/
def parseLines : List (List Char) → List RuleIpv4ACL → ℕ → Except ParseFault (List RuleIpv4ACL)
  | [], ruleset, _ => .ok ruleset
  | content :: lines, ruleset, lineNumber => do
      let next ← increment lineNumber
      match parse (words content) ruleset lineNumber with
      | (.ok (), ruleset) => parseLines lines ruleset next
      | (.error e, _) => .error e

/-- `parse_classbench`. -/
def parseClassbench (file : List Char) : Except ParseFault (List RuleIpv4ACL) := do
  let rules ← parseLines (linesOf (some file)) [] 0
  let maxPri : ℤ := rules.length - 1
  return rules.mapIdx fun i r => { r with priority := maxPri - i }

/-! ## MSU files -/

/-- `parse_range`. -/
def parseRange (text : List Char) : Except ParseFault Range1d := do
  let splitColon := split text ':'
  let low ← atoui (← elementAt splitColon 0)
  let high ← atoui (← elementAt splitColon 1)
  if low > high then
    .error (.thrown ("Problematic range:".toList ++ numeral 10 low ++ '-' :: numeral 10 high))
  else return ⟨low, high⟩

/-- A line of rules of `parser_MSU`.  Every range is parsed into `sip`.  For an empty line
`split_comma.size() - 1` wraps around, and the loop leaves the vector. -/
def msuRule (content : List Char) (priority : ℕ) : Except ParseFault (RuleIpv4ACL × ℕ) :=
  match (split content ',').getLast? with
  | none => .error .undefined
  | some last => do
      let sip ← (split content ',').dropLast.foldlM (fun _ text => parseRange text) (.wildcard 4)
      let next ← increment priority
      let tag ← atoi last
      return ({ priority := priority, tag, sip }, next)

/-- The loop of `parser_MSU` over the lines with rules. -/
def msuLines : List (List Char) → List RuleIpv4ACL → ℕ → Except ParseFault (List RuleIpv4ACL)
  | [], rules, _ => .ok rules
  | content :: lines, rules, priority => do
      let (tempRule, priority) ← msuRule content priority
      msuLines lines (rules ++ [tempRule]) priority

/-- `parser_MSU`: three lines of header, the third with bounds that are parsed and not used. -/
def parserMSU (file : List Char) : Except ParseFault (List RuleIpv4ACL) := do
  let (_, input, content) := getline (some file) []
  let (_, input, content) := getline input content
  let (_, input, content) := getline input content
  let _ ← (split content ',').mapM parseRange
  let rules ← msuLines (linesOf input) [] 0
  return rules.map fun r => { r with priority := rules.length - r.priority }

/-! ## All formats -/

/-- `NXST_FLOW reply`. -/
def ofHeader : List Char := "NXST_FLOW reply".toList

/-- The number of repetitions in the first line of an MSU file, before it is divided by five. -/
def readReps (content : List Char) : Except ParseFault ℤ :=
  match (words content).getLast? with
  | none => .error .undefined
  | some last =>
      match (split last ';').getLast? with
      | none => .error .undefined
      | some piece => do
          let n ← atoi piece
          if n = 2 ^ 31 - 1 then .error .undefined else return n + 1

/-- `parse_rules` of a file. -/
def parseRules (file : List Char) :
    Except ParseFault (List RuleIpv4ACL ⊕ List RuleOF151) := do
  let (_, input, content) := getline (some file) []
  match content with
  | [] => .error (.thrown "File is empty".toList)
  | c :: _ =>
      if c = '!' then do
        let _ ← readReps content
        return .inl (← parserMSU file)
      else if c = '@' then return .inl (← parseClassbench file)
      else if ofHeader.length < content.length ∧ content.take ofHeader.length = ofHeader then
        return .inr (← parseFlows (linesOf input) [])
      else
        .error (.thrown ("unknown input format please use either MSU format or ".toList ++
          "ClassBench format (content[0]=='".toList ++ c :: "')".toList))

end Pcv
