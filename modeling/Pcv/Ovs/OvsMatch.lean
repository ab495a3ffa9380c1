import Pcv.RuleParser.TraceTools

/-!
# Rules as matches of Open vSwitch

A match of Open vSwitch is a flow and a mask for each of its fields.  The addresses and ports
are kept in network byte order, the protocol is one byte.  `rule_ipv4_acl_to_ovs_match` swaps
each range and takes its mask in the swapped order, but the mask of the destination port is
that of the source port.  So the match says what the rule says exactly if the two port ranges
have the same size.
-/

namespace Pcv

namespace Ovs

/-- The fields of `struct flow` that are used. -/
structure FlowIpv4 where
  nwSrc : ℕ
  nwDst : ℕ
  tpSrc : ℕ
  tpDst : ℕ
  nwProto : ℕ
deriving DecidableEq

/-- `struct match`: the flow and the masks of its wildcards. -/
structure MatchIpv4 where
  flow : FlowIpv4
  masks : FlowIpv4
deriving DecidableEq

/-- `rule_ipv4_acl_to_ovs_match`; `nw_proto` has one byte. -/
def ruleIpv4AclToOvsMatch (r : RuleIpv4ACL) : MatchIpv4 :=
  let sip := r.sip.toBe 4
  let dip := r.dip.toBe 4
  let sport := r.sport.toBe 2
  let dport := r.dport.toBe 2
  { flow :=
      { nwSrc := sip.low
        nwDst := dip.low
        tpSrc := sport.low
        tpDst := dport.low
        nwProto := r.proto.low % 256 }
    masks :=
      { nwSrc := sip.getMaskBe 4
        nwDst := dip.getMaskBe 4
        tpSrc := sport.getMaskBe 2
        tpDst := sport.getMaskBe 2
        nwProto := r.proto.getMaskLe 2 % 256 } }

/-- `flow_from_packet`. -/
def flowFromPacket (p : List ℕ) : FlowIpv4 :=
  let r := RuleIpv4ACL.exactArrayToRuleLe p
  { nwSrc := r.sip.low
    nwDst := r.dip.low
    tpSrc := r.sport.low
    tpDst := r.dport.low
    nwProto := r.proto.low % 256 }

/-- The flow has the bits of the match where the masks are set. -/
def MatchIpv4.Matches (m : MatchIpv4) (f : FlowIpv4) : Prop :=
  f.nwSrc &&& m.masks.nwSrc = m.flow.nwSrc &&& m.masks.nwSrc ∧
    f.nwDst &&& m.masks.nwDst = m.flow.nwDst &&& m.masks.nwDst ∧
    f.tpSrc &&& m.masks.tpSrc = m.flow.tpSrc &&& m.masks.tpSrc ∧
    f.tpDst &&& m.masks.tpDst = m.flow.tpDst &&& m.masks.tpDst ∧
    f.nwProto &&& m.masks.nwProto = m.flow.nwProto &&& m.masks.nwProto

/-- The words of a packet with the addresses and ports in network byte order. -/
def networkWords (p : PacketIpv4) : List ℕ := { p.swapped with proto := p.proto }.segments

/-- Every range is a prefix: an exact value, an aligned range or all the values; the protocol
is a byte or left open. -/
structure Prefixes (r : RuleIpv4ACL) : Prop where
  sip : r.sip.IsCidr 32
  dip : r.dip.IsCidr 32
  sport : r.sport.IsCidr 16
  dport : r.dport.IsCidr 16
  proto : (∃ v, v < 256 ∧ r.proto = ⟨v, v⟩) ∨ r.proto = .wildcard 2

/-- The match finds the packets that lie in the ranges of the rule. -/
def MatchesAsRule (r : RuleIpv4ACL) : Prop :=
  ∀ p : PacketIpv4, p.Valid → p.proto < 256 →
    ((ruleIpv4AclToOvsMatch r).Matches (flowFromPacket (networkWords p)) ↔ r.Matches p)

end Ovs

namespace Range1d

variable {r : Range1d} {bytes z : ℕ}

/-- An aligned range is the range of its mask. -/
theorem mask_of_isAligned (h : IsAligned r.low r.high z) (hhigh : r.high < 2 ^ (8 * bytes)) :
    r.getMaskLe bytes = 2 ^ (8 * bytes) - 2 ^ z ∧ z ≤ 8 * bytes ∧
      r.low &&& r.getMaskLe bytes = r.low ∧ fromMask bytes r.low (r.getMaskLe bytes) = r := by
  obtain ⟨q, hlow, hhigh'⟩ := h
  have hpos := Nat.two_pow_pos z
  have hz : z ≤ 8 * bytes := by
    by_contra hlt
    have : 2 ^ (8 * bytes) < 2 ^ z := Nat.pow_lt_pow_right (by decide) (by omega)
    omega
  have hlt : r.low < 2 ^ (8 * bytes) := by omega
  have hv : r.low &&& (2 ^ (8 * bytes) - 2 ^ z) = r.low := by
    rw [and_prefixMask hlt hz, hlow, Nat.mul_div_cancel_left _ hpos]
  have hr : fromMask bytes r.low (2 ^ (8 * bytes) - 2 ^ z) = r := by
    rw [fromMask, hlow, or_bitNot_prefixMask hz, ← hhigh', ← hlow]
  have hget := getMaskLe_fromMask ⟨z, hz, rfl⟩ hv
  rw [hr] at hget
  exact ⟨hget, hz, by rw [hget, hv], by rw [hget, hr]⟩

namespace IsCidr

theorem low_and_mask (h : r.IsCidr (8 * bytes)) : r.low &&& r.getMaskLe bytes = r.low := by
  obtain ⟨⟨z, h⟩, hhigh⟩ := h
  exact (mask_of_isAligned h hhigh).2.2.1

theorem low_lt (h : r.IsCidr (8 * bytes)) : r.low < 256 ^ bytes := by
  obtain ⟨⟨z, h⟩, hhigh⟩ := h
  rw [pow_mul] at hhigh
  exact h.le.trans_lt hhigh

theorem high_lt (h : r.IsCidr (8 * bytes)) : r.high < 256 ^ bytes := by
  have := h.2
  rwa [pow_mul] at this

/-- The values of a prefix are those with its bits. -/
theorem inRange_iff_and (h : r.IsCidr (8 * bytes)) {x : ℕ} (hx : x < 256 ^ bytes) :
    r.inRange x = true ↔ x &&& r.getMaskLe bytes = r.low := by
  have hv := h.low_and_mask
  obtain ⟨⟨z, h⟩, hhigh⟩ := h
  obtain ⟨hmask, hz, -, hr⟩ := mask_of_isAligned h hhigh
  have hhigh' : r.high = r.low ||| bitNot (8 * bytes) (r.getMaskLe bytes) :=
    (congrArg Range1d.high hr).symm
  have hprefix : IsPrefixMask (8 * bytes) (r.getMaskLe bytes) := ⟨z, hz, hmask⟩
  rw [inRange_iff, hhigh']
  exact hprefix.interval_iff hv (by rw [pow_mul]; exact hx)

/-- Two prefixes have the same mask exactly if they have the same size. -/
theorem getMaskLe_eq_iff {s : Range1d} (h : r.IsCidr (8 * bytes)) (hs : s.IsCidr (8 * bytes)) :
    r.getMaskLe bytes = s.getMaskLe bytes ↔ r.high - r.low = s.high - s.low := by
  obtain ⟨⟨z, h⟩, hhigh⟩ := h
  obtain ⟨⟨z', h'⟩, hhigh'⟩ := hs
  rw [(mask_of_isAligned h hhigh).1, (mask_of_isAligned h' hhigh').1]
  have hz : 2 ^ z ≤ 2 ^ (8 * bytes) :=
    Nat.pow_le_pow_right (by decide) (mask_of_isAligned h hhigh).2.1
  have hz' : 2 ^ z' ≤ 2 ^ (8 * bytes) :=
    Nat.pow_le_pow_right (by decide) (mask_of_isAligned h' hhigh').2.1
  have hpos := Nat.two_pow_pos z
  have hpos' := Nat.two_pow_pos z'
  obtain ⟨q, hlow, hh⟩ := h
  obtain ⟨q', hlow', hh'⟩ := h'
  omega

/-- A field in network byte order is compared under the mask taken in this order. -/
theorem swab_and_iff {s : Range1d} (h : r.IsCidr (8 * bytes)) (hs : s.IsCidr (8 * bytes)) {x : ℕ}
    (hx : x < 256 ^ bytes) :
    swab bytes x &&& (s.toBe bytes).getMaskBe bytes =
        (r.toBe bytes).low &&& (s.toBe bytes).getMaskBe bytes ↔
      x &&& s.getMaskLe bytes = r.low &&& s.getMaskLe bytes := by
  rw [getMaskBe_toBe hs.low_lt hs.high_lt, toBe, ← swab_and, ← swab_and,
    swab_eq_iff (Nat.and_le_left.trans_lt hx) (swab_lt _ _),
    swab_swab (Nat.and_le_left.trans_lt h.low_lt)]

theorem swab_and_iff_inRange (h : r.IsCidr (8 * bytes)) {x : ℕ} (hx : x < 256 ^ bytes) :
    swab bytes x &&& (r.toBe bytes).getMaskBe bytes =
        (r.toBe bytes).low &&& (r.toBe bytes).getMaskBe bytes ↔ r.inRange x = true := by
  rw [h.swab_and_iff h hx, h.low_and_mask, h.inRange_iff_and hx]

end IsCidr

end Range1d

namespace Ovs

variable {r : RuleIpv4ACL} {p : PacketIpv4}

theorem flowFromPacket_networkWords (hp : p.Valid) (hproto : p.proto < 256) :
    flowFromPacket (networkWords p) =
      ⟨swab 4 p.sip, swab 4 p.dip, swab 2 p.sport, swab 2 p.dport, p.proto⟩ := by
  have hswapped := p.swapped_valid
  have hvalid : PacketIpv4.Valid { p.swapped with proto := p.proto } :=
    { sip := hswapped.sip, dip := hswapped.dip, sport := hswapped.sport, dport := hswapped.dport
      proto := hp.proto }
  rw [flowFromPacket, networkWords, RuleIpv4ACL.exactArrayToRuleLe_segments hvalid]
  simp only [RuleIpv4ACL.exact, PacketIpv4.swapped, Nat.mod_eq_of_lt hproto]

/-- The protocol is compared as a byte. -/
theorem proto_iff (h : (∃ v, v < 256 ∧ r.proto = ⟨v, v⟩) ∨ r.proto = .wildcard 2) {x : ℕ}
    (hx : x < 256) :
    x &&& r.proto.getMaskLe 2 % 256 = r.proto.low % 256 &&& r.proto.getMaskLe 2 % 256 ↔
      r.proto.inRange x = true := by
  rcases h with ⟨v, hv, heq⟩ | heq
  · have hmask : r.proto.getMaskLe 2 = 2 ^ (8 * 2) - 2 ^ 0 := by
      rw [heq]
      exact (Range1d.mask_of_isAligned (isAligned_self v) (by simp only; omega)).1
    have hbyte : ∀ y, y < 256 → y &&& (2 ^ (8 * 2) - 2 ^ 0) % 256 = y := fun y hy =>
      (Nat.and_two_pow_sub_one_eq_mod y 8).trans (Nat.mod_eq_of_lt hy)
    rw [hmask, heq, Range1d.inRange_iff, hbyte x hx, Nat.mod_eq_of_lt hv, hbyte v hv]
    simp only
    omega
  · have hmask : r.proto.getMaskLe 2 = 0 := by
      rw [heq]
      decide +kernel
    rw [hmask, heq, Range1d.inRange_iff]
    simp only [Nat.zero_mod, Nat.and_zero, Range1d.wildcard, keyMax, true_iff]
    omega

/-- Four fields say what the rule says, and the destination port is compared under the mask of
the source port. -/
theorem matches_iff (h : Prefixes r) (hp : p.Valid) (hproto : p.proto < 256) :
    (ruleIpv4AclToOvsMatch r).Matches (flowFromPacket (networkWords p)) ↔
      r.sip.inRange p.sip = true ∧ r.dip.inRange p.dip = true ∧ r.sport.inRange p.sport = true ∧
        p.dport &&& r.sport.getMaskLe 2 = r.dport.low &&& r.sport.getMaskLe 2 ∧
        r.proto.inRange p.proto = true := by
  rw [flowFromPacket_networkWords hp hproto, MatchIpv4.Matches, ruleIpv4AclToOvsMatch]
  exact and_congr (Range1d.IsCidr.swab_and_iff_inRange h.sip hp.sip)
    (and_congr (Range1d.IsCidr.swab_and_iff_inRange h.dip hp.dip)
      (and_congr (Range1d.IsCidr.swab_and_iff_inRange h.sport hp.sport)
        (and_congr (Range1d.IsCidr.swab_and_iff h.dport h.sport hp.dport)
          (proto_iff h.proto hproto))))

/-- The match says what the rule says exactly if the two port ranges have the same size. -/
theorem matchesAsRule_iff (h : Prefixes r) :
    MatchesAsRule r ↔ r.sport.high - r.sport.low = r.dport.high - r.dport.low := by
  have hsport : r.sport.IsCidr (8 * 2) := h.sport
  have hdport : r.dport.IsCidr (8 * 2) := h.dport
  rw [← hsport.getMaskLe_eq_iff hdport]
  constructor
  · intro hall
    refine mask_eq_of_forall (w := 16) (r.sport.getMaskLe_lt 2) (r.dport.getMaskLe_lt 2)
      hdport.low_lt fun x hx => ?_
    -- the packet that has the lower bounds in the other fields
    have hlow : ∀ {s : Range1d}, s.low ≤ s.high → s.inRange s.low = true := fun hs =>
      (Range1d.inRange_iff _ _).mpr ⟨le_rfl, hs⟩
    have hproto : r.proto.low < 256 ∧ r.proto.low ≤ r.proto.high := by
      rcases h.proto with ⟨v, hv, heq⟩ | heq
      · rw [heq]
        exact ⟨hv, le_rfl⟩
      · rw [heq]
        exact ⟨by decide, by decide⟩
    have hp : PacketIpv4.Valid ⟨r.sip.low, r.dip.low, r.sport.low, x, r.proto.low⟩ :=
      { sip := h.sip.le.trans_lt h.sip.2
        dip := h.dip.le.trans_lt h.dip.2
        sport := hsport.low_lt
        dport := hx
        proto := hproto.1.trans (by decide) }
    have hone := (matches_iff h hp hproto.1).symm.trans (hall _ hp hproto.1)
    simp only [RuleIpv4ACL.Matches, hlow h.sip.le, hlow h.dip.le, hlow h.sport.le,
      hlow hproto.2, true_and, and_true] at hone
    rw [hone, hdport.inRange_iff_and hx, hdport.low_and_mask]
  · intro hmask p hp hproto
    rw [matches_iff h hp hproto, hmask, hdport.low_and_mask, ← hdport.inRange_iff_and hp.dport]
    rfl

/-- A rule for exact ports is found. -/
theorem matchesAsRule_iff_exactPorts :
    MatchesAsRule { sport := ⟨1024, 1024⟩, dport := ⟨80, 80⟩, proto := ⟨6, 6⟩ } :=
  (matchesAsRule_iff
    { sip := ⟨⟨32, 0, by decide⟩, by decide⟩
      dip := ⟨⟨32, 0, by decide⟩, by decide⟩
      sport := ⟨⟨0, 1024, by decide⟩, by decide⟩
      dport := ⟨⟨0, 80, by decide⟩, by decide⟩
      proto := .inl ⟨6, by decide, rfl⟩ }).mpr (by decide)

/-- A rule for the destination port 80 alone finds every destination port. -/
theorem not_matchesAsRule_port80 :
    Prefixes { dport := ⟨80, 80⟩ } ∧ ¬ MatchesAsRule { dport := ⟨80, 80⟩ } := by
  refine ⟨?_, fun h => ?_⟩
  · exact
      { sip := ⟨⟨32, 0, by decide⟩, by decide⟩
        dip := ⟨⟨32, 0, by decide⟩, by decide⟩
        sport := ⟨⟨16, 0, by decide⟩, by decide⟩
        dport := ⟨⟨0, 80, by decide⟩, by decide⟩
        proto := .inr rfl }
  · have hp : PacketIpv4.Valid ⟨0, 0, 0, 81, 0⟩ :=
      ⟨by decide, by decide, by decide, by decide, by decide⟩
    have hmatch : (ruleIpv4AclToOvsMatch { dport := ⟨80, 80⟩ }).Matches
        (flowFromPacket (networkWords ⟨0, 0, 0, 81, 0⟩)) :=
      ⟨by decide +kernel, by decide +kernel, by decide +kernel, by decide +kernel,
        by decide +kernel⟩
    obtain ⟨-, -, -, hdport, -⟩ := (h _ hp (by decide)).mp hmatch
    exact absurd hdport (by decide)

/-- In packets whose last word is swapped as well, as the trace generator writes them, the
protocol is lost. -/
theorem flowFromPacket_swapped (p : PacketIpv4) (hproto : p.proto < 256) :
    (flowFromPacket p.swapped.segments).nwProto = 0 := by
  rw [flowFromPacket, RuleIpv4ACL.exactArrayToRuleLe_segments p.swapped_valid]
  simp only [RuleIpv4ACL.exact, PacketIpv4.swapped, swab, Nat.div_eq_of_lt hproto]
  omega

end Ovs

end Pcv
