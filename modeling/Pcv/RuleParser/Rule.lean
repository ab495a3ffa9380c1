import Pcv.Common.RangeMask
import Mathlib.Logic.Function.Basic

/-!
# Parsed rules

The rules that the readers of rule files build, and their conversion to the ranges of 16 bits
that the classifiers work on.

An OpenFlow rule has 44 fields, which are written one after the other into an array of 177
ranges.  Its fields are named by `OFField`; a rule assigns a range to each of them.  The fields
declared as `ipv6_t`, a pair of 64-bit words, are represented by numbers of 128 bits, and the
words are read off with `ipv6High` and `ipv6Low`.
-/

namespace Pcv

/-- The members of `iParsedRule`. -/
structure ParsedRule where
  priority : ℤ := -1
  tag : ℤ := -1
deriving DecidableEq

/-- `Rule_Ipv4_ACL`, with the ranges its constructor gives it. -/
structure RuleIpv4ACL extends ParsedRule where
  sip : Range1d := .wildcard 4
  dip : Range1d := .wildcard 4
  sport : Range1d := .wildcard 2
  dport : Range1d := .wildcard 2
  proto : Range1d := .wildcard 2
deriving DecidableEq

/-- The ranges of a rule. -/
def RuleIpv4ACL.ranges (r : RuleIpv4ACL) : List Range1d := [r.sip, r.dip, r.sport, r.dport, r.proto]

/-! ## The fields of an OpenFlow rule -/

/-- The members of `Rule_OF_1_5_1`. -/
inductive OFField
  | inPort | inPhyPort | metadata | ethDst | ethSrc | ethType | vlanVid | vlanPcp
  | ipDscp | ipEcn | ipProto | ipv4Src | ipv4Dst | tcpSrc | tcpDst | udpSrc | udpDst
  | sctpSrc | sctpDst | icmpv4Type | icmpv4Code | arpOp | arpSpa | arpTpa | arpSha | arpTha
  | ipv6Src | ipv6Dst | ipv6Flabel | icmpv6Type | icmpv6Code | ipv6NdTarget | ipv6NdSll
  | ipv6NdTll | mplsLabel | mplsTc | mplsBos | pbbIsid | tunnelId | ipv6Exthdr | pbbUca
  | tcpFlags | actsetOutput | packetType
deriving DecidableEq, Repr

/-- The types the fields are declared with; `eth_t` is `uint64_t`, and `uint24_t` is
`uint32_t`. -/
inductive OFType
  | uint8 | uint16 | uint32 | uint64 | ipv6
deriving DecidableEq, Repr

namespace OFField

/-- The type a field is declared with. -/
def type : OFField → OFType
  | inPort | inPhyPort | ipv4Src | ipv4Dst | arpSpa | arpTpa | ipv6Flabel | mplsLabel | pbbIsid
  | actsetOutput | packetType => .uint32
  | metadata | ethDst | ethSrc | arpSha | arpTha | ipv6NdSll | ipv6NdTll | tunnelId => .uint64
  | ethType | vlanVid | tcpSrc | tcpDst | udpSrc | udpDst | sctpSrc | sctpDst | arpOp | ipv6Exthdr
  | tcpFlags => .uint16
  | vlanPcp | ipDscp | ipEcn | ipProto | icmpv4Type | icmpv4Code | icmpv6Type | icmpv6Code
  | mplsTc | mplsBos | pbbUca => .uint8
  | ipv6Src | ipv6Dst | ipv6NdTarget => .ipv6

/-- The order in which `rule_to_array_16b` writes the fields. -/
def writeOrder : List OFField :=
  [inPort, inPhyPort, metadata, ethDst, ethSrc, ethType, vlanVid, vlanPcp, ipDscp, ipEcn, ipProto,
    ipv4Src, ipv4Dst, tcpSrc, tcpDst, udpSrc, udpDst, sctpSrc, sctpDst, icmpv4Type, icmpv4Code,
    arpOp, arpSpa, arpTpa, arpSha, arpTha, ipv6Src, ipv6Dst, ipv6Flabel, icmpv6Type, icmpv6Code,
    ipv6NdTarget, ipv6NdSll, ipv6NdTll, mplsLabel, mplsTc, mplsBos, pbbIsid, tunnelId, ipv6Exthdr,
    pbbUca, tcpFlags, actsetOutput, packetType]

theorem mem_writeOrder (f : OFField) : f ∈ writeOrder := by cases f <;> decide

end OFField

/-- `std::numeric_limits<T>::max()`.  The template is not specialised for `ipv6_t`, so that it
gives a value-initialised object there, which is zero. -/
def OFType.max : OFType → ℕ
  | .uint8 => keyMax 1
  | .uint16 => keyMax 2
  | .uint32 => keyMax 4
  | .uint64 => keyMax 8
  | .ipv6 => 0

/-- `set_wildcard`. -/
def OFType.setWildcard (t : OFType) : Range1d := ⟨0, t.max⟩

/-- `Rule_OF_1_5_1`. -/
structure RuleOF151 extends ParsedRule where
  fields : OFField → Range1d

/-- The constructor of `Rule_OF_1_5_1`. -/
def RuleOF151.new : RuleOF151 where
  fields f := f.type.setWildcard

/-- An assignment to a member of the rule. -/
def RuleOF151.setField (r : RuleOF151) (f : OFField) (val : Range1d) : RuleOF151 :=
  { r with fields := Function.update r.fields f val }

/-! ## The conversion to ranges of 16 bits -/

/-- The array that is filled, and the pointer to the next range in it. -/
structure Cursor where
  cells : List Range1d
  begin : ℕ

/-- `*begin = r; begin++`. -/
def Cursor.put (c : Cursor) (r : Range1d) : Cursor := ⟨c.cells.set c.begin r, c.begin + 1⟩

/-- `R((val.low >> (i * 16)) & m, (val.high >> (i * 16)) & m)`. -/
def Range1d.word (val : Range1d) (i : ℕ) : Range1d :=
  ⟨val.low >>> (i * 16) &&& 0xffff, val.high >>> (i * 16) &&& 0xffff⟩

/-- `fill` of a `Range1d<uint8_t>`. -/
def fill8 (begin : Cursor) (val : Range1d) : Cursor :=
  begin.put ⟨val.low, if val.high = keyMax 1 then keyMax 2 else val.high⟩

/-- `fill` of a `Range1d<uint16_t>`. -/
def fill16 (begin : Cursor) (val : Range1d) : Cursor := begin.put val

/-- `fill` of a `Range1d<uint32_t>`. -/
def fill32 (begin : Cursor) (val : Range1d) : Cursor := (begin.put (val.word 0)).put (val.word 1)

/-- `fill_eth`. -/
def fillEth (begin : Cursor) (val : Range1d) : Cursor :=
  [2, 1, 0].foldl (fun c i => c.put (val.word i)) begin

/-- `fill` of a `Range1d<uint64_t>`. -/
def fill64 (begin : Cursor) (val : Range1d) : Cursor :=
  (List.range 4).foldl (fun c i => c.put (val.word i)) begin

/-- The members `high` of the two bounds. -/
def Range1d.ipv6High (val : Range1d) : Range1d := ⟨val.low / 2 ^ 64, val.high / 2 ^ 64⟩

/-- The members `low` of the two bounds. -/
def Range1d.ipv6Low (val : Range1d) : Range1d := ⟨val.low % 2 ^ 64, val.high % 2 ^ 64⟩

/-- `fill` of a `Range1d<ipv6_t>`. -/
def fillIpv6 (begin : Cursor) (val : Range1d) : Cursor :=
  let begin := (List.range 4).foldl (fun c i => c.put (val.ipv6High.word i)) begin
  (List.range 4).foldl (fun c i => c.put (val.ipv6Low.word i)) begin

/-- The function that writes a field: `fill_eth` for the two Ethernet addresses, else the `fill`
of the type. -/
def OFField.fill (f : OFField) (begin : Cursor) (val : Range1d) : Cursor :=
  if f = .ethDst ∨ f = .ethSrc then fillEth begin val
  else match f.type with
    | .uint8 => fill8 begin val
    | .uint16 => fill16 begin val
    | .uint32 => fill32 begin val
    | .uint64 => fill64 begin val
    | .ipv6 => fillIpv6 begin val

/-- `rule_to_array_16b` of a `Rule_OF_1_5_1`.  The ranges of a new array are `[0, 0]`. -/
def RuleOF151.ruleToArray16b (r : RuleOF151) : List Range1d :=
  (OFField.writeOrder.foldl (fun (a : Cursor) (f : OFField) => f.fill a (r.fields f))
    ⟨List.replicate 177 ⟨0, 0⟩, 0⟩).cells

/-- `rule_to_array_16b` of a `Rule_Ipv4_ACL`. -/
def RuleIpv4ACL.ruleToArray16b (r : RuleIpv4ACL) : List Range1d :=
  let p := fill32 ⟨List.replicate 7 ⟨0, 0⟩, 0⟩ r.sip
  let p := fill32 p r.dip
  ((p.cells.set 4 r.sport).set 5 r.dport).set 6 r.proto

end Pcv
