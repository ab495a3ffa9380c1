import Pcv.Library.TrieFill
import Pcv.PartitionSort.TreeOfRules

/-!
# Trees without path compression

Path compression decides how the nodes of a new path are made: as one node for all the
ranges behind the first level, or as one node for each range.  In the second case the
interior keys get the value of the rule.

Such a key answers for a rule that the packet does not match, unless something more
specific is found behind it or its value has been replaced.  `LeavesValue` says where a
value stays behind, and `compression_transparent_iff` that the two trees give the same
answers exactly if these values cannot be seen.
-/

namespace Pcv

open DynamicMempool

variable {D : ℕ} {V : Type}

/-! ## Where a value stays behind -/

/-- Rule number `j`, `r`, leaves its value behind its first `n` ranges: it needs more of them,
no earlier rule went on behind the first `n - 1` of them, and no later rule ends with them. -/
structure LeavesValue (bytes : ℕ) (order : DimensionOrder D) (rules : List (RuleSpec D V))
    (j n : ℕ) (r : RuleSpec D V) : Prop where
  entry : rules[j]? = some r
  pos : 0 < n
  lt_keyLength : n < r.keyLength bytes order
  first : ∀ (i : ℕ) (s : RuleSpec D V), i < j → rules[i]? = some s →
    n ≤ s.keyLength bytes order →
      (s.sequence order).take (n - 1) ≠ (r.sequence order).take (n - 1)
  kept : ∀ (i : ℕ) (s : RuleSpec D V), j < i → rules[i]? = some s →
    s.keyLength bytes order ≤ n → (s.sequence order).take n ≠ (r.sequence order).take n

/-- The packet lies in the first `n` ranges of the rule. -/
def LiesIn (order : DimensionOrder D) (r : RuleSpec D V) (n : ℕ) (v : KeyVec D) : Prop :=
  ∀ i, i < n → ∀ d, order[i]? = some d → (r.first.get d).inRange (v.get d) = true

theorem liesIn_iff_hits (order : DimensionOrder D) (r : RuleSpec D V) (n : ℕ) (v : KeyVec D) :
    LiesIn order r n v ↔ Trie.Hits (hitsAt order v) 0 ((r.sequence order).take n) := by
  rw [Trie.hits_iff]
  constructor
  · intro h i k hk
    have hi := (List.getElem?_eq_some_iff.mp hk).1
    simp only [List.length_take, RuleSpec.length_sequence] at hi
    have hord : order[i]? = some order[i] := by simp [show i < D by omega]
    rw [List.getElem?_take, if_pos (by omega), r.getElem?_sequence order (by omega)] at hk
    obtain rfl := Option.some.inj hk
    rw [Nat.zero_add, hitsAt, hord, rangeAt_eq hord]
    exact h i (by omega) _ hord
  · intro h i hi d hord
    have hiD : i < D := by
      by_contra hge
      simp [Vector.getElem?_eq_none (Nat.not_lt.mp hge)] at hord
    have := h i (r.first.get d) (by
      rw [List.getElem?_take, if_pos hi, r.getElem?_sequence order hiD, rangeAt_eq hord])
    rwa [Nat.zero_add, hitsAt, hord] at this

theorem getElem?_entries (order : DimensionOrder D) (rules : List (RuleSpec D V)) (i : ℕ) :
    (entries order rules)[i]? = rules[i]?.map fun r => (r.sequence order, r.second) :=
  List.getElem?_map ..

/-- The same in terms of the sequences of the ranges. -/
theorem placeholder_iff (bytes : ℕ) (order : DimensionOrder D) (rules : List (RuleSpec D V))
    (j n : ℕ) (e : List Range1d × V) :
    Trie.Placeholder (keyLength bytes) (entries order rules) j n e ↔
      ∃ r, e = (r.sequence order, r.second) ∧ LeavesValue bytes order rules j n r := by
  have hentry : ∀ (i : ℕ) (s : RuleSpec D V), rules[i]? = some s →
      (entries order rules)[i]? = some (s.sequence order, s.second) := fun i s hs => by
    rw [getElem?_entries, hs, Option.map_some]
  constructor
  · intro h
    have he := h.entry
    rw [getElem?_entries, Option.map_eq_some_iff] at he
    obtain ⟨r, hr, rfl⟩ := he
    exact ⟨r, rfl, hr, h.pos, h.lt_need,
      fun i s hi hs => h.first i _ hi (hentry i s hs),
      fun i s hi hs => h.kept i _ hi (hentry i s hs)⟩
  · rintro ⟨r, rfl, h⟩
    refine ⟨hentry j r h.entry, h.pos, h.lt_keyLength, fun i e hi he => ?_, fun i e hi he => ?_⟩
    · rw [getElem?_entries, Option.map_eq_some_iff] at he
      obtain ⟨s, hs, rfl⟩ := he
      exact h.first i s hi hs
    · rw [getElem?_entries, Option.map_eq_some_iff] at he
      obtain ⟨s, hs, rfl⟩ := he
      exact h.kept i s hi hs

/-! ## The tree without path compression -/

variable [RuleValue V] {cfg : BTreeCfg}

/-- The tree stores the rules, and on the way to them what they left behind. -/
structure BTree.StoresFilled (cfg : BTreeCfg) (pool : NodeAllocator V) (t : BTree cfg.D)
    (order : DimensionOrder cfg.D) (rules : List (RuleSpec cfg.D V)) (trie : Trie Range1d V)
    (fp : Multiset ℕ) : Prop where
  dimensionOrder : t.dimensionOrder = order
  holds : t.Holds cfg pool trie fp
  fills : Trie.Fills Range1d.Before isValid (keyLength cfg.keyBytes) (entries order rules) trie

omit [RuleValue V] in
theorem keyLength_le_of_mem_entries {bytes : ℕ} {order : DimensionOrder D} (hD : 0 < D)
    (rules : List (RuleSpec D V)) :
    ∀ e ∈ entries order rules, keyLength bytes e.1 ≤ e.1.length := by
  intro e he
  obtain ⟨r, -, rfl⟩ := List.mem_map.mp he
  exact keyLength_le _ (by simpa using hD)

/-- After any number of insertions of compatible rules. -/
theorem BTree.ensures_insertAll_filled {pool : NodeAllocator V} {order : DimensionOrder cfg.D}
    {rules : List (RuleSpec cfg.D V)} {rest : Multiset ℕ} (hT : 2 ≤ cfg.T) (hD : 0 < cfg.D)
    (hpc : cfg.pathCompression = false) (hvalid : ∀ r ∈ rules, r.Valid cfg.keyBytes)
    (hcomp : rules.Pairwise (RuleSpec.Compatible cfg.keyBytes order)) (ho : Owns pool rest) :
    Ensures OnlyBadAlloc (BTree.insertAll cfg ⟨none, order⟩ rules) pool fun t pool' =>
      ∃ trie fp, t.StoresFilled cfg pool' order rules trie fp ∧ Owns pool' (fp + rest) := by
  refine Ensures.foldlM (I := fun pre t pool' => ∃ trie fp,
    BTree.StoresFilled cfg pool' t order pre trie fp ∧ Owns pool' (fp + rest)) ?_ ?_
  · rintro pre r suf t pool' rfl ⟨trie, fp, ht, ho'⟩
    refine (BTree.ensures_insert (r := r) hT hD ht.holds ho').mono ?_
    rintro t' pool'' ⟨trie', fp', hins, hd, ho'', -, -, hord⟩
    rw [ht.dimensionOrder] at hins
    have hfill : fillValue cfg r.second = r.second := by simp [fillValue, hpc]
    rw [InsRule, hfill] at hins
    refine ⟨trie', fp', ⟨hord.trans ht.dimensionOrder, hd, ?_⟩, ho''⟩
    rw [entries, List.map_append]
    refine ht.fills.insert (fun _ _ h => h.low_lt) (by simp)
      (keyLength_le_of_mem_entries hD pre) (keyLength_le _ (by simpa using hD))
      (entries_told_apart order pre r) (length_of_mem_entries order pre r) ?_ hins
    intro e he
    obtain ⟨s, hs, rfl⟩ := List.mem_map.mp he
    exact ((List.pairwise_append.mp hcomp).2.2 s hs r (by simp)).take
      (hvalid s (by simp [hs])) (hvalid r (by simp))
  · exact ⟨.nil, 0, ⟨rfl, .null, Trie.fills_nil⟩, by simpa using ho⟩

/-! ## The two answers -/

omit [RuleValue V] in
/-- There is one best match. -/
theorem IsBestMatch.unique {rules : List (RuleSpec D V)} {v : KeyVec D} {r s : RuleSpec D V}
    (hr : IsBestMatch rules v r) (hs : IsBestMatch rules v s) : r = s := by
  have hmem : ∀ b, IsBestMatch rules v b → b ∈ rules := fun b hb =>
    (List.mem_filter.mp (List.mem_of_getLast? hb.last)).1
  have hbox : r.first = s.first := by
    refine Vector.ext fun d hd => ?_
    have hrs := hr.inside s (hmem s hs) hs.hits ⟨d, hd⟩
    have hsr := hs.inside r (hmem r hr) hr.hits ⟨d, hd⟩
    cases hrd : r.first.get ⟨d, hd⟩
    cases hsd : s.first.get ⟨d, hd⟩
    simp only [hrd, hsd] at hrs hsr
    have heq : r.first.get ⟨d, hd⟩ = s.first.get ⟨d, hd⟩ := by
      rw [hrd, hsd, Range1d.mk.injEq]
      omega
    exact heq
  have hlast := hr.last
  rw [hbox, hs.last] at hlast
  exact (Option.some.inj hlast).symm

/-- The answer of a tree of the rules, and the default value if there is none. -/
structure AnswersOrDefault (rules : List (RuleSpec D V)) (v : KeyVec D) (res : V) : Prop where
  answers : Answers rules v res
  default : isValid res = false → res = RuleValue.invalid

theorem AnswersOrDefault.unique {rules : List (RuleSpec D V)} {v : KeyVec D} {res res' : V}
    (h : AnswersOrDefault rules v res) (h' : AnswersOrDefault rules v res') : res = res' := by
  cases hres : isValid res with
  | false =>
      have hres' : isValid res' = false := h'.answers.1.mpr (h.answers.1.mp hres)
      rw [h.default hres, h'.default hres']
  | true =>
      have hres' : isValid res' = true := by
        by_contra hinv
        rw [h.answers.1.mpr (h'.answers.1.mp (by simpa using hinv))] at hres
        cases hres
      obtain ⟨r, hr, rfl⟩ := h.answers.2 hres
      obtain ⟨s, hs, rfl⟩ := h'.answers.2 hres'
      rw [hr.unique hs]

theorem answersOrDefault_of_mostSpecific {bytes : ℕ} {order : DimensionOrder D}
    (hp : order.IsPermutation) {rules : List (RuleSpec D V)}
    (hvalid : ∀ r ∈ rules, r.Valid bytes ∧ isValid r.second = true) {v : KeyVec D} {res : V}
    (h : (res = RuleValue.invalid ∧
        ∀ e ∈ entries order rules, ¬ Trie.Hits (hitsAt order v) 0 e.1) ∨
      ∃ e ∈ entries order rules, Trie.Hits (hitsAt order v) 0 e.1 ∧
        Trie.lastValue (entries order rules) e.1 = some res ∧
          ∀ e' ∈ entries order rules, Trie.Hits (hitsAt order v) 0 e'.1 →
            e'.1.take (keyLength bytes e'.1) <+: e.1) : AnswersOrDefault rules v res := by
  refine ⟨answers_of_mostSpecific hp hvalid h, fun hinv => ?_⟩
  rcases h with ⟨hres, -⟩ | ⟨e, -, -, hlast, -⟩
  · exact hres
  · obtain ⟨s, hs, heq⟩ := List.mem_map.mp (Trie.exists_of_lastValue hlast)
    rw [← (Prod.mk.inj heq).2, (hvalid s hs).2] at hinv
    cases hinv

section Search

variable {pool : NodeAllocator V} {t : BTree cfg.D} {order : DimensionOrder cfg.D}
variable {rules : List (RuleSpec cfg.D V)} {trie : Trie Range1d V} {fp rest : Multiset ℕ}
variable {v : KeyVec cfg.D}

omit [RuleValue V] in
theorem isValid_of_mem_entries [RuleValue V] {bytes : ℕ} {order : DimensionOrder D}
    {rules : List (RuleSpec D V)}
    (hvalid : ∀ r ∈ rules, r.Valid bytes ∧ isValid r.second = true) :
    ∀ e ∈ entries order rules, isValid e.2 = true := by
  intro e he
  obtain ⟨r, hr, rfl⟩ := List.mem_map.mp he
  exact (hvalid r hr).2

/-- The tree with path compression answers with the best match. -/
theorem BTree.Stores.search_eq (hp : order.IsPermutation)
    (hvalid : ∀ r ∈ rules, r.Valid cfg.keyBytes ∧ isValid r.second = true)
    (ht : t.Stores cfg pool order rules trie fp) (ho : Owns pool (fp + rest))
    (hv : ∀ d, v.get d ≤ keyMax cfg.keyBytes) :
    ∃ res, t.search cfg pool v = .ok res ∧ AnswersOrDefault rules v res := by
  refine ⟨_, BTree.search_eq ht.holds ht.represents.separated ho, ?_⟩
  rw [ht.dimensionOrder]
  exact answersOrDefault_of_mostSpecific hp hvalid (ht.represents.search
    (hitsAt_separated order v) (isValid_of_mem_entries hvalid) (hits_iff_of_keyLength_le hv)
    RuleValue.invalid)

/-- The packet comes to the first `n` ranges of `r`, and nothing behind them answers. -/
structure Sees (bytes : ℕ) (order : DimensionOrder D) (rules : List (RuleSpec D V))
    (v : KeyVec D) (n : ℕ) (r : RuleSpec D V) : Prop where
  leaves : ∃ j, LeavesValue bytes order rules j n r
  liesIn : LiesIn order r n v
  rules_le : ∀ s ∈ rules, s.Matches v → s.keyLength bytes order ≤ n
  leaves_le : ∀ j' n' r', LeavesValue bytes order rules j' n' r' → LiesIn order r' n' v → n' ≤ n

omit [RuleValue V] in
/-- A value left behind where the packet comes is seen, or another one further down, unless the
packet matches a rule with more ranges. -/
theorem exists_sees {bytes : ℕ} {order : DimensionOrder D} {rules : List (RuleSpec D V)}
    {v : KeyVec D} (hD : 0 < D) {j n : ℕ} {r : RuleSpec D V}
    (hleaves : LeavesValue bytes order rules j n r) (hin : LiesIn order r n v)
    (hle : ∀ s ∈ rules, s.Matches v → s.keyLength bytes order ≤ n) :
    ∃ n' r', Sees bytes order rules v n' r' := by
  induction hm : D - n using Nat.strong_induction_on generalizing j n r with
  | _ m ih =>
      by_cases hlast : ∀ j' n' r', LeavesValue bytes order rules j' n' r' →
          LiesIn order r' n' v → n' ≤ n
      · exact ⟨n, r, ⟨j, hleaves⟩, hin, hle, hlast⟩
      · push Not at hlast
        obtain ⟨j', n', r', hleaves', hin', hlt⟩ := hlast
        have hkey : r'.keyLength bytes order ≤ D := by
          have hle : keyLength bytes (r'.sequence order) ≤ (r'.sequence order).length :=
            keyLength_le bytes (by simpa using hD)
          rwa [r'.length_sequence order] at hle
        have hlt' := hleaves'.lt_keyLength
        exact ih (D - n') (by omega) hleaves' hin' (fun s hs hm => (hle s hs hm).trans hlt.le) rfl

/-- What the tree without path compression answers: a value that a packet sees on the way, or
else the best match. -/
theorem BTree.StoresFilled.search (hD : 0 < cfg.D) (hp : order.IsPermutation)
    (hvalid : ∀ r ∈ rules, r.Valid cfg.keyBytes ∧ isValid r.second = true)
    (ht : t.StoresFilled cfg pool order rules trie fp) (ho : Owns pool (fp + rest))
    (hv : ∀ d, v.get d ≤ keyMax cfg.keyBytes) :
    ∃ res, t.search cfg pool v = .ok res ∧
      (∀ n r, Sees cfg.keyBytes order rules v n r → res = r.second) ∧
      ((∀ n r, ¬ Sees cfg.keyBytes order rules v n r) → AnswersOrDefault rules v res) := by
  refine ⟨_, BTree.search_eq ht.holds ht.fills.covers.separated ho, fun n r hsees => ?_,
    fun hnone => ?_⟩
  · rw [ht.dimensionOrder]
    obtain ⟨j, hleaves⟩ := hsees.leaves
    refine ht.fills.search_placeholder (hitsAt_separated order v) (isValid_of_mem_entries hvalid)
      (keyLength_le_of_mem_entries hD rules) (hits_iff_of_keyLength_le hv) RuleValue.invalid
      ((placeholder_iff _ order rules j n _).mpr ⟨r, rfl, hleaves⟩)
      ((liesIn_iff_hits order r n v).mp hsees.liesIn) (fun e he hh => ?_) fun j' n' e he hh => ?_
    · obtain ⟨s, hs, rfl⟩ := List.mem_map.mp he
      exact hsees.rules_le s hs ((s.hits_sequence hp v).mp hh)
    · obtain ⟨r', rfl, hleaves'⟩ := (placeholder_iff _ order rules j' n' e).mp he
      exact hsees.leaves_le j' n' r' hleaves' ((liesIn_iff_hits order r' n' v).mpr hh)
  · rw [ht.dimensionOrder]
    refine answersOrDefault_of_mostSpecific hp hvalid (ht.fills.search
      (hitsAt_separated order v) (isValid_of_mem_entries hvalid)
      (keyLength_le_of_mem_entries hD rules) (hits_iff_of_keyLength_le hv) RuleValue.invalid ?_)
    intro j n e he hh
    obtain ⟨r, rfl, hleaves⟩ := (placeholder_iff _ order rules j n e).mp he
    by_contra hlonger
    obtain ⟨n', r', hsees⟩ := exists_sees hD hleaves ((liesIn_iff_hits order r n v).mpr hh)
      fun s hs hm => by
        by_contra hlt
        exact hlonger ⟨_, List.mem_map_of_mem hs, (s.hits_sequence hp v).mpr hm,
          Nat.not_le.mp hlt⟩
    exact hnone n' r' hsees

end Search

/-! ## Path compression can be seen -/

/-- Path compression makes no difference exactly if every value that a packet sees on the way
is the value of the best match for the packet. -/
theorem BTree.compression_transparent_iff {keyBytes T : ℕ} {order : DimensionOrder D}
    {rules : List (RuleSpec D V)} (hT : 2 ≤ T) (hD : 0 < D) (hp : order.IsPermutation)
    (hvalid : ∀ r ∈ rules, r.Valid keyBytes ∧ isValid r.second = true)
    (hcomp : rules.Pairwise (RuleSpec.Compatible keyBytes order)) (itemCnt itemCnt' : ℕ) :
    Ensures OnlyBadAlloc (BTree.insertAll ⟨keyBytes, D, T, true⟩ ⟨none, order⟩ rules)
      (DynamicMempool.make itemCnt (Node.make ⟨keyBytes, D, T, true⟩)) fun t pool =>
        Ensures OnlyBadAlloc (BTree.insertAll ⟨keyBytes, D, T, false⟩ ⟨none, order⟩ rules)
          (DynamicMempool.make itemCnt' (Node.make ⟨keyBytes, D, T, false⟩)) fun t' pool' =>
            (∀ v : KeyVec D, (∀ d, v.get d ≤ keyMax keyBytes) →
              t.search ⟨keyBytes, D, T, true⟩ pool v =
                t'.search ⟨keyBytes, D, T, false⟩ pool' v) ↔
              ∀ v : KeyVec D, (∀ d, v.get d ≤ keyMax keyBytes) →
                ∀ n r, Sees keyBytes order rules v n r →
                  ∃ b, IsBestMatch rules v b ∧ b.second = r.second := by
  refine (@BTree.ensures_insertAll V _ ⟨keyBytes, D, T, true⟩ _ order rules 0 hT hD rfl
    (fun r hr => (hvalid r hr).1) hcomp (owns_make itemCnt _)).mono ?_
  rintro t pool ⟨trie, fp, ht, ho⟩
  refine (@BTree.ensures_insertAll_filled V _ ⟨keyBytes, D, T, false⟩ _ order rules 0 hT hD rfl
    (fun r hr => (hvalid r hr).1) hcomp (owns_make itemCnt' _)).mono ?_
  rintro t' pool' ⟨trie', fp', ht', ho'⟩
  refine forall_congr' fun v => forall_congr' fun hv => ?_
  obtain ⟨res, hres, hbest⟩ := ht.search_eq hp hvalid ho hv
  obtain ⟨res', hres', hsees, hnone⟩ := ht'.search hD hp hvalid ho' hv
  rw [hres, hres', Except.ok.injEq]
  constructor
  · intro heq n r hsee
    obtain ⟨j, hleaves⟩ := hsee.leaves
    have hval : isValid res = true := by
      rw [heq, hsees n r hsee]
      exact (hvalid r (List.mem_of_getElem? hleaves.entry)).2
    obtain ⟨b, hb, hres⟩ := hbest.answers.2 hval
    exact ⟨b, hb, by rw [← hres, heq, hsees n r hsee]⟩
  · intro hall
    by_cases hsee : ∃ n r, Sees keyBytes order rules v n r
    · obtain ⟨n, r, hsee⟩ := hsee
      obtain ⟨b, hb, hbr⟩ := hall n r hsee
      rw [hsees n r hsee, ← hbr]
      have hval : isValid res = true := by
        by_contra hinv
        have hmem := (List.mem_filter.mp (List.mem_of_getLast? hb.last)).1
        exact hbest.answers.1.mp (by simpa using hinv) b hmem hb.hits
      obtain ⟨b', hb', rfl⟩ := hbest.answers.2 hval
      rw [hb.unique hb']
    · push Not at hsee
      exact hbest.unique (hnone hsee)

/-- Two rules that share their first range, and together cover the second field: nothing that
is left behind can be seen. -/
theorem BTree.compression_transparent_iff_halves :
    Ensures OnlyBadAlloc (BTree.insertAll ⟨1, 2, 2, true⟩ ⟨none, #v[1, 0]⟩
        [⟨#v[⟨0, 100⟩, ⟨3, 9⟩], RuleValueInt.make 1 1⟩,
          ⟨#v[⟨101, 255⟩, ⟨3, 9⟩], RuleValueInt.make 2 2⟩])
      (DynamicMempool.make 64 (Node.make ⟨1, 2, 2, true⟩)) fun t pool =>
        Ensures OnlyBadAlloc (BTree.insertAll ⟨1, 2, 2, false⟩ ⟨none, #v[1, 0]⟩
            [⟨#v[⟨0, 100⟩, ⟨3, 9⟩], RuleValueInt.make 1 1⟩,
              ⟨#v[⟨101, 255⟩, ⟨3, 9⟩], RuleValueInt.make 2 2⟩])
          (DynamicMempool.make 64 (Node.make ⟨1, 2, 2, false⟩)) fun t' pool' =>
            ∀ v : KeyVec 2, (∀ d, v.get d ≤ keyMax 1) →
              t.search ⟨1, 2, 2, true⟩ pool v = t'.search ⟨1, 2, 2, false⟩ pool' v := by
  refine (BTree.compression_transparent_iff (by decide) (by decide) (by decide) (by decide)
    (by decide) 64 64).mono fun t pool h => h.mono fun t' pool' h => h.mpr ?_
  intro v hv n r hsees
  obtain ⟨j, hleaves⟩ := hsees.leaves
  have hmem := List.mem_of_getElem? hleaves.entry
  have hfirst : r.first.get 1 = ⟨3, 9⟩ := by
    revert hmem
    simp only [List.mem_cons, List.not_mem_nil, or_false]
    rintro (rfl | rfl) <;> rfl
  have hin := hsees.liesIn 0 hleaves.pos 1 rfl
  rw [hfirst, Range1d.inRange_iff] at hin
  have hv0 : v.get 0 ≤ 255 := hv 0
  -- one of the two rules matches, and needs both its ranges
  have hle : 2 ≤ n := by
    rcases Nat.lt_or_ge 100 (v.get 0) with hhigh | hlow
    · refine hsees.rules_le ⟨#v[⟨101, 255⟩, ⟨3, 9⟩], RuleValueInt.make 2 2⟩ (by simp)
        (Fin.forall_fin_two.mpr ⟨?_, ?_⟩)
      · exact (Range1d.inRange_iff _ _).mpr ⟨hhigh, hv0⟩
      · exact (Range1d.inRange_iff _ _).mpr hin
    · refine hsees.rules_le ⟨#v[⟨0, 100⟩, ⟨3, 9⟩], RuleValueInt.make 1 1⟩ (by simp)
        (Fin.forall_fin_two.mpr ⟨?_, ?_⟩)
      · exact (Range1d.inRange_iff _ _).mpr ⟨Nat.zero_le _, hlow⟩
      · exact (Range1d.inRange_iff _ _).mpr hin
  have hlt := hleaves.lt_keyLength
  have hkey : r.keyLength 1 #v[1, 0] ≤ 2 := by
    revert hmem
    simp only [List.mem_cons, List.not_mem_nil, or_false]
    rintro (rfl | rfl) <;> decide
  omega

/-- What a new tree answers to a packet after the insertion of some rules. -/
def BTree.searchAfter (cfg : BTreeCfg) (order : DimensionOrder cfg.D)
    (rules : List (RuleSpec cfg.D V)) (itemCnt : ℕ) (v : KeyVec cfg.D) : Except Fault V :=
  match BTree.insertAll cfg ⟨none, order⟩ rules (DynamicMempool.make itemCnt (Node.make cfg)) with
  | .ok t pool => t.search cfg pool v
  | .error e _ => .error e

/-- One rule with two ranges: a packet in the first one only gets the value of the rule from
the tree without path compression. -/
theorem BTree.not_compression_transparent_single :
    (BTree.searchAfter ⟨1, 2, 2, true⟩ #v[0, 1] [⟨#v[⟨1, 1⟩, ⟨2, 2⟩], RuleValueInt.make 1 1⟩] 8
        #v[1, 5]).toOption ≠
      (BTree.searchAfter ⟨1, 2, 2, false⟩ #v[0, 1] [⟨#v[⟨1, 1⟩, ⟨2, 2⟩], RuleValueInt.make 1 1⟩] 8
        #v[1, 5]).toOption := by
  decide +kernel

end Pcv
