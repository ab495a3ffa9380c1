import Pcv.RuleParser.TraceTools

/-!
# The packets of a trace

`generate_packets_from_ruleset` repeats packets at the corners of the rules until there are enough of
them.  The random numbers are drawn outside of the model: a turn of the loop is given what it draws.
-/

namespace Pcv

namespace TraceTools

/-- How the generator ends without packets. -/
inductive TraceFault
  /-- An exception, with its text. -/
  | thrown (what : String)
  /-- A range of packets that is not there. -/
  | undefined
  /-- The loop goes on, and nothing is drawn any more. -/
  | notDrawn
deriving DecidableEq, Repr

/-- One turn of the loop in `header_gen`, for `n` filters: the filter, its corner, the number of
copies, which `pareto_distrib` computes in floating point, and what was in the memory of the
packet. -/
structure Draw (n : ℕ) where
  fi : Fin n
  corner : Bits
  copiesN : ℕ
  newHdr : Vector ℕ 7

/-- A value that is assigned to an `int`. -/
def toInt32 (v : ℤ) : ℤ := v.bmod (2 ^ 32)

variable {filters : List RuleIpv4ACL} {bigEndian : Bool}

/-- The packet of a turn. -/
def Draw.packet (d : Draw filters.length) (bigEndian : Bool) : List ℕ :=
  randomCorner (filters.get d.fi) d.newHdr.toList d.corner bigEndian

/-- The loop of `header_gen`. -/
def headerLoop (filters : List RuleIpv4ACL) (threshold : ℤ) (bigEndian : Bool) :
    List (Draw filters.length) → ℤ → List (List ℕ) → Except TraceFault (List (List ℕ))
  | [], numHeaders, tempPackets =>
      if numHeaders < threshold then .error .notDrawn else .ok tempPackets
  | d :: draws, numHeaders, tempPackets =>
      if numHeaders < threshold then
        headerLoop filters threshold bigEndian draws (toInt32 (numHeaders + d.copiesN))
          (tempPackets ++ List.replicate d.copiesN (d.packet bigEndian))
      else .ok tempPackets

/-- `header_gen`. -/
def headerGen (filters : List RuleIpv4ACL) (threshold : ℤ) (bigEndian : Bool)
    (draws : List (Draw filters.length)) : Except TraceFault (List (List ℕ)) := do
  let tempPackets ← headerLoop filters threshold bigEndian draws 0 []
  if threshold < 0 ∨ tempPackets.length < threshold then .error .undefined
  else return tempPackets.take threshold.toNat

/-- `generate_packets_from_ruleset`. -/
def generatePacketsFromRuleset (filters : List RuleIpv4ACL) (numPackets : ℕ) (bigEndian : Bool)
    (draws : List (Draw filters.length)) : Except TraceFault (List (List ℕ)) :=
  if filters.isEmpty then .error (.thrown "can not generate packets from empty rule set")
  else headerGen filters (toInt32 numPackets) bigEndian draws

theorem toInt32_of_lt {n : ℕ} (h : n < 2 ^ 31) : toInt32 n = n := by
  rw [toInt32, Int.bmod_def]
  split <;> omega

/-- The packet lies at a corner of one of the filters, whatever was in its memory. -/
def AtCorner (filters : List RuleIpv4ACL) (bigEndian : Bool) (packet : List ℕ) : Prop :=
  ∃ rule ∈ filters, ∃ rand, packet =
    (if bigEndian then (cornerPacket rule rand).swapped else cornerPacket rule rand).segments

theorem matches_cornerPacket {rule : RuleIpv4ACL} (h : rule.WellFormed) (rand : Bits) :
    rule.Matches (cornerPacket rule rand) :=
  ⟨corner_inRange h.sip.le _, corner_inRange h.dip.le _, corner_inRange h.sport.1 _,
    corner_inRange h.dport.1 _, corner_inRange h.proto.1 _⟩

theorem Draw.atCorner (d : Draw filters.length) : AtCorner filters bigEndian (d.packet bigEndian) :=
  ⟨_, List.get_mem _ _, d.corner, randomCorner_eq (by simp) _ _⟩

/-- The loop adds nothing but packets at corners. -/
theorem atCorner_of_headerLoop {threshold : ℤ} {draws : List (Draw filters.length)} {numHeaders : ℤ}
    {tempPackets packets : List (List ℕ)} (htemp : ∀ p ∈ tempPackets, AtCorner filters bigEndian p)
    (h : headerLoop filters threshold bigEndian draws numHeaders tempPackets = .ok packets) :
    ∀ p ∈ packets, AtCorner filters bigEndian p := by
  induction draws generalizing numHeaders tempPackets with
  | nil =>
    rw [headerLoop] at h
    split at h
    · cases h
    · cases h
      exact htemp
  | cons d draws ih =>
    rw [headerLoop] at h
    split at h
    · refine ih (fun p hp => ?_) h
      rcases List.mem_append.mp hp with hp | hp
      · exact htemp p hp
      · rw [List.eq_of_mem_replicate hp]
        exact d.atCorner
    · cases h
      exact htemp

/-- The loop has counted the packets when it ends, as long as the counter does not overflow. -/
theorem exists_headerLoop {n : ℕ} {draws : List (Draw filters.length)}
    (hcopies : ∀ d ∈ draws, n + d.copiesN ≤ 2 ^ 31) (tempPackets : List (List ℕ))
    (hsum : n ≤ tempPackets.length + (draws.map Draw.copiesN).sum) :
    ∃ packets, headerLoop filters n bigEndian draws tempPackets.length tempPackets = .ok packets ∧
      n ≤ packets.length := by
  induction draws generalizing tempPackets with
  | nil =>
    have hle : n ≤ tempPackets.length := by simpa using hsum
    refine ⟨tempPackets, ?_, hle⟩
    rw [headerLoop, if_neg (by omega)]
  | cons d draws ih =>
    rw [headerLoop]
    split
    next hlt =>
      have hd := hcopies d List.mem_cons_self
      have hnum : toInt32 ((tempPackets.length : ℤ) + d.copiesN) =
          ((tempPackets ++ List.replicate d.copiesN (d.packet bigEndian)).length : ℕ) := by
        rw [List.length_append, List.length_replicate, ← Nat.cast_add]
        exact toInt32_of_lt (by omega)
      rw [hnum]
      refine ih (fun d' hd' => hcopies d' (List.mem_cons_of_mem d hd')) _ ?_
      rw [List.length_append, List.length_replicate]
      rw [List.map_cons, List.sum_cons] at hsum
      omega
    next hge => exact ⟨tempPackets, rfl, by omega⟩

end TraceTools

end Pcv
