import Pcv.RuleParser.RuleSegments

/-!
# Access control rules as ranges of 16 bits

A rule for IPv4 packets becomes seven ranges: two for each address, the low half first, and
one for each of the ports and the protocol.  The pair of ranges of an address says what the
address range says because the range is aligned, and it can be read back for every range.
-/

namespace Pcv

/-- `pop_32` of a range. -/
def RuleVec.popRange32 (i : ℕ) (src : ℕ → Range1d) : Range1d × ℕ :=
  let l := (src (i + 1)).low <<< 16 ||| (src i).low
  let h := (src (i + 1)).high <<< 16 ||| (src i).high
  (⟨l, h⟩, i + 2)

/-- `rule_from_array`. -/
def RuleIpv4ACL.ruleFromArray (arr : List Range1d) : RuleIpv4ACL :=
  let a := fun i => arr.getD i ⟨0, 0⟩
  let (sip, i) := RuleVec.popRange32 0 a
  let (dip, i) := RuleVec.popRange32 i a
  { sip := sip, dip := dip, sport := a i, dport := a (i + 1), proto := a (i + 2) }

/-- The values of the five fields of a packet. -/
structure PacketIpv4 where
  sip : ℕ
  dip : ℕ
  sport : ℕ
  dport : ℕ
  proto : ℕ
deriving DecidableEq

namespace PacketIpv4

/-- The values are those of fields of 32 and of 16 bits. -/
structure Valid (p : PacketIpv4) : Prop where
  sip : p.sip < 2 ^ 32
  dip : p.dip < 2 ^ 32
  sport : p.sport < 2 ^ 16
  dport : p.dport < 2 ^ 16
  proto : p.proto < 2 ^ 16

/-- The packet cut into words, the low half of an address first. -/
def segments (p : PacketIpv4) : List ℕ :=
  [word16 p.sip 0, word16 p.sip 1, word16 p.dip 0, word16 p.dip 1, p.sport, p.dport, p.proto]

end PacketIpv4

/-- A prefix of an address of `w` bits. -/
def Range1d.IsCidr (w : ℕ) (r : Range1d) : Prop :=
  (∃ z, IsAligned r.low r.high z) ∧ r.high < 2 ^ w

namespace RuleIpv4ACL

/-- The addresses are prefixes, and the other ranges have their bounds in order. -/
structure WellFormed (r : RuleIpv4ACL) : Prop where
  sip : r.sip.IsCidr 32
  dip : r.dip.IsCidr 32
  sport : r.sport.Valid 2
  dport : r.dport.Valid 2
  proto : r.proto.Valid 2

/-- Every field of the packet lies in the range of the rule. -/
def Matches (r : RuleIpv4ACL) (p : PacketIpv4) : Prop :=
  r.sip.inRange p.sip = true ∧ r.dip.inRange p.dip = true ∧ r.sport.inRange p.sport = true ∧
    r.dport.inRange p.dport = true ∧ r.proto.inRange p.proto = true

/-- The two words of a range of addresses. -/
theorem ruleToArray16b_eq (r : RuleIpv4ACL) : r.ruleToArray16b =
    [⟨word16 r.sip.low 0, word16 r.sip.high 0⟩, ⟨word16 r.sip.low 1, word16 r.sip.high 1⟩,
      ⟨word16 r.dip.low 0, word16 r.dip.high 0⟩, ⟨word16 r.dip.low 1, word16 r.dip.high 1⟩,
      r.sport, r.dport, r.proto] := by
  simp [ruleToArray16b, fill32, Cursor.put, Range1d.word_eq]

end RuleIpv4ACL

namespace Range1d.IsCidr

variable {r : Range1d}

theorem le {w : ℕ} (h : r.IsCidr w) : r.low ≤ r.high := by
  obtain ⟨⟨z, h⟩, -⟩ := h
  exact h.le

/-- Both words of an address are in their ranges exactly if the address is in its range. -/
theorem words_iff (h : r.IsCidr 32) {v : ℕ} (hv : v < 2 ^ 32) :
    (word16 r.low 0 ≤ word16 v 0 ∧ word16 v 0 ≤ word16 r.high 0) ∧
        (word16 r.low 1 ≤ word16 v 1 ∧ word16 v 1 ≤ word16 r.high 1) ↔
      r.inRange v = true := by
  obtain ⟨⟨z, h⟩, hhigh⟩ := h
  rw [inRange_iff, ← h.words_iff (n := 2) hv hhigh]
  simp only [Nat.forall_lt_succ_left, Nat.not_lt_zero, IsEmpty.forall_iff, implies_true, and_true,
    Nat.zero_add]

/-- Each word of the bounds is in order. -/
theorem words_le (h : r.IsCidr 32) :
    word16 r.low 0 ≤ word16 r.high 0 ∧ word16 r.low 1 ≤ word16 r.high 1 := by
  have := (h.words_iff (h.le.trans_lt h.2)).mpr ((inRange_iff _ _).mpr ⟨le_rfl, h.le⟩)
  exact ⟨this.1.2, this.2.2⟩

end Range1d.IsCidr

/-- A number of 32 bits is put together from its words. -/
theorem word16_one_shiftLeft_or {v : ℕ} (hv : v < 2 ^ 32) : word16 v 1 <<< 16 ||| word16 v 0 = v := by
  rw [shiftLeft_or (word16_lt v 0)]
  simp only [word16]
  omega

namespace RuleIpv4ACL

theorem WellFormed.forall₂_segments {r : RuleIpv4ACL} (h : r.WellFormed) {p : PacketIpv4}
    (hp : p.Valid) :
    List.Forall₂ (fun s (x : Range1d) => x.inRange s = true) p.segments r.ruleToArray16b ↔
      r.Matches p := by
  rw [ruleToArray16b_eq, Matches, ← h.sip.words_iff hp.sip, ← h.dip.words_iff hp.dip]
  simp only [PacketIpv4.segments, List.forall₂_cons, List.Forall₂.nil, and_true,
    Range1d.inRange_iff, and_assoc]

/-- The seven ranges say what the rule says, their bounds are in order, and the rule is read
back from them. -/
theorem ruleToArray16b_spec {r : RuleIpv4ACL} (h : r.WellFormed) :
    (∀ p : PacketIpv4, p.Valid →
      (List.Forall₂ (fun s (x : Range1d) => x.inRange s = true) p.segments r.ruleToArray16b ↔
        r.Matches p)) ∧
      (∀ x ∈ r.ruleToArray16b, x.low ≤ x.high) ∧
      (ruleFromArray r.ruleToArray16b).ranges = r.ranges := by
  refine ⟨fun p hp => h.forall₂_segments hp, ?_, ?_⟩
  · obtain ⟨hsip, hdip, hsport, hdport, hproto⟩ := h
    rw [ruleToArray16b_eq]
    simp only [List.forall_mem_cons, hsip.words_le, hdip.words_le, hsport.1, hdport.1, hproto.1,
      List.not_mem_nil, IsEmpty.forall_iff, implies_true, and_true]
  · have hlow : ∀ {x : Range1d}, x.IsCidr 32 → x.low < 2 ^ 32 := fun hx => hx.le.trans_lt hx.2
    rw [ruleToArray16b_eq]
    simp only [ruleFromArray, RuleVec.popRange32, ranges, List.getD_cons_zero, List.getD_cons_succ,
      word16_one_shiftLeft_or (hlow h.sip), word16_one_shiftLeft_or h.sip.2,
      word16_one_shiftLeft_or (hlow h.dip), word16_one_shiftLeft_or h.dip.2]

/-- A source network of 8 bits, a destination network of 20 bits and two ranges of ports. -/
theorem ruleToArray16b_spec_networks :
    let r : RuleIpv4ACL :=
      { sip := ⟨0x0a000000, 0x0affffff⟩, dip := ⟨0xc0a81000, 0xc0a81fff⟩,
        sport := ⟨1024, 65535⟩, dport := ⟨80, 80⟩, proto := ⟨6, 6⟩ }
    r.ruleToArray16b = [⟨0, 0xffff⟩, ⟨0x0a00, 0x0aff⟩, ⟨0x1000, 0x1fff⟩, ⟨0xc0a8, 0xc0a8⟩,
        ⟨1024, 65535⟩, ⟨80, 80⟩, ⟨6, 6⟩] ∧
      (ruleFromArray r.ruleToArray16b).ranges = r.ranges :=
  ⟨by decide, (ruleToArray16b_spec
    ⟨⟨⟨24, 0x0a, by decide⟩, by decide⟩, ⟨⟨12, 0xc0a81, by decide⟩, by decide⟩, by decide,
      by decide, by decide⟩).2.2⟩

end RuleIpv4ACL

end Pcv
