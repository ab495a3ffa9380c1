import Pcv.RuleParser.RuleIpv4

/-!
# Packets at the corners of a rule

The trace generator writes a packet that lies at a corner of a rule: in every field it takes
the lower or the upper bound.  Such a packet belongs to the rule, and the two decoders read
the chosen bounds back, each from packets of its own byte order.
-/

namespace Pcv

namespace TraceTools

/-- A packet while it is written, and `byte_offset`. -/
abbrev Writer := List ℕ × ℕ

/-- The bound of a range that is chosen. -/
def corner (val : Range1d) (useLow : Bool) : ℕ := if useLow then val.low else val.high

/-- `ramdom_corner_push_value` of a `Range1d<uint32_t>`. -/
def ramdomCornerPushValue32 (bigEndian : Bool) (w : Writer) (val : Range1d) (useLow : Bool) :
    Writer :=
  let v := corner val useLow
  let v := if bigEndian then swab 4 v else v
  ((w.1.set (w.2 / 2) (v % 2 ^ 16)).set (w.2 / 2 + 1) ((v >>> 16) % 2 ^ 16), w.2 + 4)

/-- `ramdom_corner_push_value` of a `Range1d<uint16_t>`. -/
def ramdomCornerPushValue16 (bigEndian : Bool) (w : Writer) (val : Range1d) (useLow : Bool) :
    Writer :=
  let v := corner val useLow
  let v := if bigEndian then swab 2 v else v
  (w.1.set (w.2 / 2) v, w.2 + 2)

/-- The outcomes `p < 0.5` of the random bits, one for each field. -/
structure Bits where
  sip : Bool
  dip : Bool
  sport : Bool
  dport : Bool
  proto : Bool
deriving DecidableEq

/-- `random_corner`; `newHdr` is the packet that is written over. -/
def randomCorner (rule : RuleIpv4ACL) (newHdr : List ℕ) (rand : Bits) (bigEndian : Bool) : List ℕ :=
  let w := ramdomCornerPushValue32 bigEndian (newHdr, 0) rule.sip rand.sip
  let w := ramdomCornerPushValue32 bigEndian w rule.dip rand.dip
  let w := ramdomCornerPushValue16 bigEndian w rule.sport rand.sport
  let w := ramdomCornerPushValue16 bigEndian w rule.dport rand.dport
  let w := ramdomCornerPushValue16 bigEndian w rule.proto rand.proto
  w.1

end TraceTools

/-- `reverse_endianity`. -/
def RuleIpv4ACL.reverseEndianity (r : RuleIpv4ACL) : RuleIpv4ACL :=
  { r with
    sip := r.sip.toBe 4
    dip := r.dip.toBe 4
    sport := r.sport.toBe 2
    dport := r.dport.toBe 2
    proto := r.proto.toBe 2 }

/-- `*((uint32_t*) &a[i])` on a little-endian machine. -/
def readU32 (a : List ℕ) (i : ℕ) : ℕ := a.getD i 0 + 2 ^ 16 * a.getD (i + 1) 0

/-- `exact_array_to_rule_le`. -/
def RuleIpv4ACL.exactArrayToRuleLe (a : List ℕ) : RuleIpv4ACL :=
  { sip := ⟨readU32 a 0, readU32 a 0⟩
    dip := ⟨readU32 a 2, readU32 a 2⟩
    sport := ⟨a.getD 4 0, a.getD 4 0⟩
    dport := ⟨a.getD 5 0, a.getD 5 0⟩
    proto := ⟨a.getD 6 0, a.getD 6 0⟩ }

/-- `exact_array_to_rule_be`. -/
def RuleIpv4ACL.exactArrayToRuleBe (a : List ℕ) : RuleIpv4ACL :=
  (exactArrayToRuleLe a).reverseEndianity

/-- The rule that asks for the values of one packet. -/
def RuleIpv4ACL.exact (p : PacketIpv4) : RuleIpv4ACL :=
  { sip := ⟨p.sip, p.sip⟩
    dip := ⟨p.dip, p.dip⟩
    sport := ⟨p.sport, p.sport⟩
    dport := ⟨p.dport, p.dport⟩
    proto := ⟨p.proto, p.proto⟩ }

namespace PacketIpv4

variable {p : PacketIpv4}

/-- The values with their bytes in the other order. -/
def swapped (p : PacketIpv4) : PacketIpv4 where
  sip := swab 4 p.sip
  dip := swab 4 p.dip
  sport := swab 2 p.sport
  dport := swab 2 p.dport
  proto := swab 2 p.proto

theorem swapped_valid (p : PacketIpv4) : p.swapped.Valid :=
  ⟨swab_lt 4 _, swab_lt 4 _, swab_lt 2 _, swab_lt 2 _, swab_lt 2 _⟩

theorem Valid.swapped_swapped (hp : p.Valid) : p.swapped.swapped = p := by
  simp only [swapped, swab_swab (b := 4) hp.sip, swab_swab (b := 4) hp.dip,
    swab_swab (b := 2) hp.sport, swab_swab (b := 2) hp.dport, swab_swab (b := 2) hp.proto]

end PacketIpv4

namespace RuleIpv4ACL

theorem reverseEndianity_exact (p : PacketIpv4) : (exact p).reverseEndianity = exact p.swapped :=
  rfl

/-- The decoder takes the words in the order in which they are in a packet. -/
theorem exactArrayToRuleLe_segments {p : PacketIpv4} (hp : p.Valid) :
    exactArrayToRuleLe p.segments = exact p := by
  have hword : ∀ {v : ℕ}, v < 2 ^ 32 → word16 v 0 + 2 ^ 16 * word16 v 1 = v := by
    intro v hv
    rw [← shiftLeft_or (word16_lt v 0), word16_one_shiftLeft_or hv]
  simp only [exactArrayToRuleLe, readU32, PacketIpv4.segments, List.getD_cons_zero,
    List.getD_cons_succ, hword hp.sip, hword hp.dip, exact]

end RuleIpv4ACL

namespace TraceTools

/-- The packet whose fields are the chosen bounds. -/
def cornerPacket (rule : RuleIpv4ACL) (rand : Bits) : PacketIpv4 where
  sip := corner rule.sip rand.sip
  dip := corner rule.dip rand.dip
  sport := corner rule.sport rand.sport
  dport := corner rule.dport rand.dport
  proto := corner rule.proto rand.proto

variable {rule : RuleIpv4ACL} {newHdr : List ℕ}

/-- All the words of the packet are written. -/
theorem randomCorner_eq (hlen : newHdr.length = 7) (rand : Bits) (bigEndian : Bool) :
    randomCorner rule newHdr rand bigEndian =
      (if bigEndian then (cornerPacket rule rand).swapped else cornerPacket rule rand).segments := by
  have hword : ∀ v : ℕ, (v >>> 16) % 65536 = word16 v 1 := fun v =>
    congrArg (· % 65536) (Nat.shiftRight_eq_div_pow v 16)
  match newHdr, hlen with
  | [_, _, _, _, _, _, _], _ =>
    cases bigEndian <;>
      simp [randomCorner, ramdomCornerPushValue32, ramdomCornerPushValue16, PacketIpv4.segments,
        PacketIpv4.swapped, cornerPacket, hword, word16_zero]

theorem corner_inRange {val : Range1d} (h : val.low ≤ val.high) (useLow : Bool) :
    val.inRange (corner val useLow) = true := by
  rw [Range1d.inRange_iff]
  cases useLow
  · exact ⟨h, le_rfl⟩
  · exact ⟨le_rfl, h⟩

theorem corner_lt {val : Range1d} {n : ℕ} (h : val.low ≤ val.high) (hn : val.high < n)
    (useLow : Bool) : corner val useLow < n :=
  ((Range1d.inRange_iff _ _).mp (corner_inRange h useLow)).2.trans_lt hn

theorem cornerPacket_valid (h : rule.WellFormed) (rand : Bits) : (cornerPacket rule rand).Valid where
  sip := corner_lt h.sip.le h.sip.2 _
  dip := corner_lt h.dip.le h.dip.2 _
  sport := corner_lt h.sport.1 (Nat.lt_succ_of_le h.sport.2) _
  dport := corner_lt h.dport.1 (Nat.lt_succ_of_le h.dport.2) _
  proto := corner_lt h.proto.1 (Nat.lt_succ_of_le h.proto.2) _

/-- The packet at a corner of a rule lies in the ranges of the rule, and the chosen bounds are
read back from it in both byte orders. -/
theorem randomCorner_spec (h : rule.WellFormed) (hlen : newHdr.length = 7) (rand : Bits) :
    List.Forall₂ (fun s (x : Range1d) => x.inRange s = true)
        (randomCorner rule newHdr rand false) rule.ruleToArray16b ∧
      (RuleIpv4ACL.exactArrayToRuleLe (randomCorner rule newHdr rand false)).ranges =
        (RuleIpv4ACL.exact (cornerPacket rule rand)).ranges ∧
      (RuleIpv4ACL.exactArrayToRuleBe (randomCorner rule newHdr rand true)).ranges =
        (RuleIpv4ACL.exact (cornerPacket rule rand)).ranges := by
  have hvalid := cornerPacket_valid h rand
  rw [randomCorner_eq hlen, randomCorner_eq hlen, if_neg (by decide), if_pos rfl]
  refine ⟨?_, ?_, ?_⟩
  · rw [h.forall₂_segments hvalid]
    exact ⟨corner_inRange h.sip.le _, corner_inRange h.dip.le _, corner_inRange h.sport.1 _,
      corner_inRange h.dport.1 _, corner_inRange h.proto.1 _⟩
  · rw [RuleIpv4ACL.exactArrayToRuleLe_segments hvalid]
  · rw [RuleIpv4ACL.exactArrayToRuleBe, RuleIpv4ACL.exactArrayToRuleLe_segments
      (cornerPacket rule rand).swapped_valid, RuleIpv4ACL.reverseEndianity_exact,
      hvalid.swapped_swapped]

/-- A corner with the lower source address and the upper ports. -/
theorem randomCorner_spec_networks :
    let rule : RuleIpv4ACL :=
      { sip := ⟨0x0a000000, 0x0affffff⟩, dip := ⟨0xc0a81000, 0xc0a81fff⟩,
        sport := ⟨1024, 65535⟩, dport := ⟨80, 443⟩, proto := ⟨6, 6⟩ }
    let rand : Bits := ⟨true, false, true, false, true⟩
    let newHdr := List.replicate 7 0
    randomCorner rule newHdr rand true = [0x000a, 0, 0xa8c0, 0xff1f, 4, 0xbb01, 0x0600] ∧
      (RuleIpv4ACL.exactArrayToRuleBe (randomCorner rule newHdr rand true)).ranges =
        [⟨0x0a000000, 0x0a000000⟩, ⟨0xc0a81fff, 0xc0a81fff⟩, ⟨1024, 1024⟩, ⟨443, 443⟩, ⟨6, 6⟩] :=
  ⟨by decide, (randomCorner_spec
    ⟨⟨⟨24, 0x0a, by decide⟩, by decide⟩, ⟨⟨12, 0xc0a81, by decide⟩, by decide⟩, by decide,
      by decide, by decide⟩ rfl _).2.2⟩

end TraceTools

end Pcv
