import Pcv.RuleParser.OpenFlow

/-!
# The text of a flow

A flow is a row of fields with separators between them; a field is a name and a value of the kind
that belongs to the name.  `ReadsFlow` says that the reader of flow dumps does with the text of a
flow what one expects, and `FlowValue.Readable` is the condition on a field under which it does.
-/

namespace Pcv

open Text

/-! ## Values -/

/-- The text of a value, in its parts. -/
inductive FlowValue
  /-- A decimal number. -/
  | decimal (text : List Char)
  /-- The octets of an Ethernet address, of two hexadecimal digits each. -/
  | mac (octets : List (Char × Char))
  /-- The octets of an IPv4 address, in decimal. -/
  | ipv4 (t0 t1 t2 t3 : List Char)
  /-- A value and a mask, in hexadecimal. -/
  | masked (value mask : List Char)

/-- The octets of an Ethernet address with colons between them. -/
def octetsText : List (Char × Char) → List Char
  | [] => []
  | [(a, b)] => [a, b]
  | (a, b) :: octets => a :: b :: ':' :: octetsText octets

namespace FlowValue

def text : FlowValue → List Char
  | decimal t => t
  | mac octets => octetsText octets
  | ipv4 t0 t1 t2 t3 => t0 ++ '.' :: (t1 ++ '.' :: (t2 ++ '.' :: t3))
  | masked v m => '0' :: 'x' :: (v ++ '/' :: '0' :: 'x' :: m)

/-- The range that is denoted. -/
def range : FlowValue → Range1d
  | decimal t => ⟨value 10 t, value 10 t⟩
  | mac octets =>
      let val := octets.foldl (fun val o => val * 256 + value 16 [o.1, o.2]) 0
      ⟨val, val⟩
  | ipv4 t0 t1 t2 t3 =>
      let addr := [t0, t1, t2, t3].foldl (fun addr t => addr * 256 + value 10 t) 0
      ⟨addr, addr⟩
  | masked v m => .fromMask 2 (value 16 v &&& value 16 m) (value 16 m)

/-- The reader makes the right range of the value if `n` characters follow it. -/
def Readable : FlowValue → ℕ → Prop
  | decimal _, _ => True
  | mac octets, n => (∀ o ∈ octets, value 16 [o.1, o.2] ≤ 9) ∧ 1 ≤ n
  | ipv4 t0 _ _ _, n => t0.length = 1 ∧ 3 ≤ n ∨ t0.length = 2 ∧ 1 ≤ n
  | masked v m, _ =>
      ((∀ c ∈ v, isDigit 10 c = true) ∧ (∀ c ∈ m, isDigit 10 c = true) ∧
        value 16 v &&& value 16 m = value 16 v) ∨
      -- a slip of the cursor gives the full range, which a mask of zero stands for
      value 16 m = 0 ∧ ∃ zeros a b, v = zeros ++ [a, b] ∧ zeros ≠ [] ∧ value 16 zeros = 0 ∧
        isDigit 10 a = false

end FlowValue

/-! ## Fields -/

namespace FlowName

/-- The members of the rule that a name stands for. -/
def fields : FlowName → List OFField
  | inPort => [.inPort]
  | ethType => [.ethType]
  | dlSrc => [.ethSrc]
  | dlDst => [.ethDst]
  | nwProto => [.ipProto]
  | nwSrc => [.ipv4Src]
  | nwDst => [.ipv4Dst]
  | tpDst => [.tcpDst, .udpDst]
  | tpSrc => [.tcpSrc, .udpSrc]
  | dlVlan | vlanVid => [.vlanVid]

/-- The value is well formed, and of the kind of the name. -/
def Takes : FlowName → FlowValue → Prop
  | inPort, .decimal t => ∃ n < 2 ^ 32, IsNumeral 10 t n
  | ethType, .decimal t => ∃ n < 2 ^ 16, IsNumeral 10 t n
  | nwProto, .decimal t => ∃ n < 2 ^ 8, IsNumeral 10 t n
  | dlSrc, .mac octets | dlDst, .mac octets =>
      octets.length = 6 ∧ ∀ o ∈ octets, isDigit 16 o.1 = true ∧ isDigit 16 o.2 = true
  | nwSrc, .ipv4 t0 t1 t2 t3 | nwDst, .ipv4 t0 t1 t2 t3 =>
      ∀ t ∈ [t0, t1, t2, t3], ∃ n < 256, IsNumeral 10 t n
  | tpDst, v | tpSrc, v | dlVlan, v | vlanVid, v =>
      match v with
      | .decimal t => ∃ n < 2 ^ 16, IsNumeral 10 t n
      | .masked v m => (∃ n < 2 ^ 16, IsNumeral 16 v n) ∧ ∃ n, IsPrefixMask 16 n ∧ IsNumeral 16 m n
      | _ => False
  | _, _ => False

end FlowName

/-- A field with the separators behind it. -/
structure FlowItem where
  name : FlowName
  val : FlowValue
  seps : List Char

/-- The text of the fields. -/
def flowText : List FlowItem → List Char
  | [] => []
  | item :: items =>
      item.name.text ++ '=' :: (item.val.text ++ (item.seps ++ flowText items))

/-- The fields are well formed and separated. -/
def AreFields : List FlowItem → Prop
  | [] => True
  | item :: items =>
      item.name.Takes item.val ∧ (∀ c ∈ item.seps, isSeparator c = true) ∧
        (items ≠ [] → item.seps ≠ []) ∧ AreFields items

/-- A flow: separators and fields, each member of the rule being named at most once. -/
structure Flow where
  lead : List Char
  items : List FlowItem
  lead_seps : ∀ c ∈ lead, isSeparator c = true
  areFields : AreFields items
  nodup : (items.flatMap fun item => item.name.fields).Nodup

def Flow.text (flow : Flow) : List Char := flow.lead ++ flowText flow.items

/-- The reader reads the whole line and returns a rule with the ranges that are denoted; the other
members are wildcards. -/
def ReadsFlow (flow : Flow) : Prop :=
  ∃ r, parseFlow flow.text = .ok (some (r, flow.text.length)) ∧
    (∀ item ∈ flow.items, ∀ f ∈ item.name.fields, r.fields f = item.val.range) ∧
    ∀ f, (∀ item ∈ flow.items, f ∉ item.name.fields) → r.fields f = f.type.setWildcard

/-- Every value is readable in front of what follows it. -/
def AllReadable : List FlowItem → Prop
  | [] => True
  | item :: items =>
      item.val.Readable (item.seps ++ flowText items).length ∧ AllReadable items

end Pcv
