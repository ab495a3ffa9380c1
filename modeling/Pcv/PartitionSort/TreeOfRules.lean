import Pcv.PartitionSort.LayeredBTree

/-!
# Trees of compatible rules

A tree is meant for rules of which any two can be told apart by a search: at the
first level at which they differ, their ranges are disjoint, or one of the rules has
no more ranges than wildcards from there on.  Such rules are inserted one after
another; the tree then stores, for every packet, the value of the most specific rule
that matches it.
-/

namespace Pcv

open DynamicMempool

variable {D : ℕ} {V : Type}

/-! ## Rules and the sequences of their ranges -/

namespace RuleSpec

/-- The key length of a rule: one plus its last level that is no wildcard, at least one. -/
def keyLength (bytes : ℕ) (order : DimensionOrder D) (r : RuleSpec D V) : ℕ :=
  Pcv.keyLength bytes (r.sequence order)

/-- At the first level at which the rules differ, their ranges are disjoint or one of the
rules is already over. -/
def Compatible (bytes : ℕ) (order : DimensionOrder D) (r s : RuleSpec D V) : Prop :=
  ∀ i, i < D → (∀ j, j < i → rangeAt order r j = rangeAt order s j) →
    rangeAt order r i ≠ rangeAt order s i →
      (rangeAt order r i).Disjoint (rangeAt order s i) ∨ r.keyLength bytes order ≤ i ∨
        s.keyLength bytes order ≤ i

instance (bytes : ℕ) (order : DimensionOrder D) (r s : RuleSpec D V) :
    Decidable (r.Compatible bytes order s) :=
  inferInstanceAs (Decidable (∀ i, i < D → _))

/-- The box of the rule lies in the box of the other one. -/
def Inside (r s : RuleSpec D V) : Prop :=
  ∀ d : Fin D, (s.first.get d).low ≤ (r.first.get d).low ∧
    (r.first.get d).high ≤ (s.first.get d).high

instance (r s : RuleSpec D V) : Decidable (r.Inside s) :=
  inferInstanceAs (Decidable (∀ _ : Fin D, _))

@[simp] theorem length_sequence (order : DimensionOrder D) (r : RuleSpec D V) :
    (r.sequence order).length = D := length_rangesFrom _ _ _ _

theorem getElem?_sequence (order : DimensionOrder D) (r : RuleSpec D V) {i : ℕ} (h : i < D) :
    (r.sequence order)[i]? = some (rangeAt order r i) := by
  rw [sequence, getElem?_rangesFrom _ _ h, Nat.zero_add]

end RuleSpec

theorem DimensionOrder.IsPermutation.exists_index {order : DimensionOrder D}
    (h : order.IsPermutation) (d : Fin D) : ∃ i, i < D ∧ order[i]? = some d := by
  have hmem : d ∈ order.toList := h.mem_iff.mpr (List.mem_finRange d)
  obtain ⟨i, hi, heq⟩ := List.getElem_of_mem hmem
  have hi' : i < D := by simpa using hi
  exact ⟨i, hi', by simpa [hi'] using heq⟩

theorem rangeAt_eq {order : DimensionOrder D} {r : RuleSpec D V} {i : ℕ} {d : Fin D}
    (h : order[i]? = some d) : rangeAt order r i = r.first.get d := by
  simp only [rangeAt, h]

/-- The box of a rule determines the sequence of its ranges. -/
theorem RuleSpec.sequence_congr (order : DimensionOrder D) {r s : RuleSpec D V}
    (h : r.first = s.first) : r.sequence order = s.sequence order := by
  have : ∀ cnt lvl, rangesFrom order r cnt lvl = rangesFrom order s cnt lvl := by
    intro cnt
    induction cnt with
    | zero => exact fun _ => rfl
    | succ cnt ih => exact fun lvl => by simp [rangesFrom, rangeAt, h, ih]
  exact this D 0

/-- The sequence of the ranges determines the rule's box. -/
theorem RuleSpec.sequence_eq_iff {order : DimensionOrder D} (h : order.IsPermutation)
    {r s : RuleSpec D V} : r.sequence order = s.sequence order ↔ r.first = s.first := by
  constructor
  · intro heq
    refine Vector.ext fun d hd => ?_
    obtain ⟨i, hi, hord⟩ := h.exists_index ⟨d, hd⟩
    have := congrArg (·[i]?) heq
    simp only [getElem?_sequence _ _ hi, rangeAt_eq hord, Option.some.injEq] at this
    exact this
  · exact RuleSpec.sequence_congr order

/-- A packet hits the ranges of a rule one after another if it matches the rule. -/
theorem RuleSpec.hits_sequence {order : DimensionOrder D} (h : order.IsPermutation)
    (r : RuleSpec D V) (v : KeyVec D) :
    Trie.Hits (hitsAt order v) 0 (r.sequence order) ↔ r.Matches v := by
  rw [Trie.hits_iff]
  constructor
  · intro hall d
    obtain ⟨i, hi, hord⟩ := h.exists_index d
    have := hall i _ (r.getElem?_sequence order hi)
    rwa [rangeAt_eq hord, Nat.zero_add, hitsAt, hord] at this
  · intro hm i k hk
    have hi : i < D := by simpa using (List.getElem?_eq_some_iff.mp hk).1
    rw [r.getElem?_sequence order hi] at hk
    obtain rfl := Option.some.inj hk
    have hord : order[i]? = some order[i] := by simp [hi]
    rw [Nat.zero_add, hitsAt, hord, rangeAt_eq hord]
    exact hm _

/-- Two rules whose ranges agree as far as one of them needs, and as far as the other
needs, are the same. -/
theorem RuleSpec.sequence_eq_of_take {bytes n : ℕ} {order : DimensionOrder D}
    {r s : RuleSpec D V} (hr : r.keyLength bytes order ≤ n) (hs : s.keyLength bytes order ≤ n)
    (h : (r.sequence order).take n = (s.sequence order).take n) :
    r.sequence order = s.sequence order := by
  refine List.ext_getElem? fun i => ?_
  rcases Nat.lt_or_ge i n with hi | hi
  · have := congrArg (·[i]?) h
    simpa [List.getElem?_take, hi] using this
  · rcases Nat.lt_or_ge i D with hiD | hiD
    · have hwr := isWildcard_of_keyLength_le (hr.trans hi) (r.getElem?_sequence order hiD)
      have hws := isWildcard_of_keyLength_le (hs.trans hi) (s.getElem?_sequence order hiD)
      rw [Range1d.isWildcard_iff] at hwr hws
      rw [getElem?_sequence _ _ hiD, getElem?_sequence _ _ hiD, hwr, hws]
    · rw [List.getElem?_eq_none (by simpa using hiD), List.getElem?_eq_none (by simpa using hiD)]

/-- Compatible rules have compatible sequences of keys. -/
theorem RuleSpec.Compatible.take {bytes : ℕ} {order : DimensionOrder D} {r s : RuleSpec D V}
    (h : r.Compatible bytes order s) (hr : r.Valid bytes) (hs : s.Valid bytes) :
    Trie.Compatible Range1d.Before ((r.sequence order).take (r.keyLength bytes order))
      ((s.sequence order).take (s.keyLength bytes order)) := by
  refine Trie.compatible_of_getElem? fun i a b ha hb heq => ?_
  have hir : i < r.keyLength bytes order := by
    have := (List.getElem?_eq_some_iff.mp ha).1
    simp only [List.length_take] at this
    omega
  have his : i < s.keyLength bytes order := by
    have := (List.getElem?_eq_some_iff.mp hb).1
    simp only [List.length_take] at this
    omega
  have hiD : i < D := by
    have := (List.getElem?_eq_some_iff.mp ha).1
    simp only [List.length_take, length_sequence] at this
    omega
  rw [List.getElem?_take, if_pos hir, getElem?_sequence _ _ hiD] at ha
  rw [List.getElem?_take, if_pos his, getElem?_sequence _ _ hiD] at hb
  obtain rfl := Option.some.inj ha
  obtain rfl := Option.some.inj hb
  by_cases hne : rangeAt order r i = rangeAt order s i
  · exact .inl hne
  · have hprev : ∀ j, j < i → rangeAt order r j = rangeAt order s j := by
      intro j hj
      have := congrArg (·[j]?) heq
      simp only [List.getElem?_take, hj, if_true, show j < r.keyLength bytes order by omega,
        show j < s.keyLength bytes order by omega, getElem?_sequence _ _ (show j < D by omega),
        Option.some.injEq] at this
      exact this
    have hord : order[i]? = some order[i] := by simp [hiD]
    rcases h i hiD hprev hne with hdis | hle | hle
    · refine .inr (hdis.before ?_ ?_)
      · rw [rangeAt_eq hord]
        exact (hr _).1
      · rw [rangeAt_eq hord]
        exact (hs _).1
    · omega
    · omega

/-- A rule that shares the keys of another one contains it. -/
theorem RuleSpec.inside_of_take {bytes : ℕ} {order : DimensionOrder D} (h : order.IsPermutation)
    {r s : RuleSpec D V} (hr : r.Valid bytes)
    (hp : (s.sequence order).take (s.keyLength bytes order) <+: r.sequence order) : r.Inside s := by
  intro d
  obtain ⟨i, hi, hord⟩ := h.exists_index d
  have hsi := s.getElem?_sequence order hi
  have hri := r.getElem?_sequence order hi
  rw [rangeAt_eq hord] at hsi hri
  rcases Nat.lt_or_ge i (s.keyLength bytes order) with hlt | hge
  · have hget : ((s.sequence order).take (s.keyLength bytes order))[i]? =
        some (s.first.get d) := by rw [List.getElem?_take, if_pos hlt, hsi]
    obtain ⟨t, ht⟩ := hp
    have : (r.sequence order)[i]? = some (s.first.get d) := by
      rw [← ht, List.getElem?_append_left (List.getElem?_eq_some_iff.mp hget).1, hget]
    rw [hri] at this
    rw [Option.some.inj this]
    exact ⟨le_rfl, le_rfl⟩
  · have := isWildcard_of_keyLength_le hge hsi
    rw [Range1d.isWildcard_iff] at this
    rw [this]
    exact ⟨Nat.zero_le _, (hr d).2⟩

/-! ## What the tree answers -/

/-- The rule that matches a packet and lies in every other rule that does; among rules with
the same ranges it is the last one of the list. -/
structure IsBestMatch (rules : List (RuleSpec D V)) (v : KeyVec D) (r : RuleSpec D V) : Prop where
  last : (rules.filter fun s => s.first = r.first).getLast? = some r
  hits : r.Matches v
  inside : ∀ s ∈ rules, s.Matches v → r.Inside s

/-- The answer to a packet: the value of the best match, and an invalid value if no rule
matches. -/
def Answers [RuleValue V] (rules : List (RuleSpec D V)) (v : KeyVec D) (res : V) : Prop :=
  (isValid res = false ↔ ∀ r ∈ rules, ¬ r.Matches v) ∧
    (isValid res = true → ∃ r, IsBestMatch rules v r ∧ res = r.second)

section Run

variable [RuleValue V] {cfg : BTreeCfg}

/-- What has been inserted, as the trie sees it. -/
def entries (order : DimensionOrder D) (rules : List (RuleSpec D V)) : List (List Range1d × V) :=
  rules.map fun r => (r.sequence order, r.second)

omit [RuleValue V] in
/-- Sequences that agree as far as both of them need are the same. -/
theorem entries_told_apart {bytes : ℕ} (order : DimensionOrder D) (rules : List (RuleSpec D V))
    (r : RuleSpec D V) : ∀ e ∈ entries order rules, ∀ n, Pcv.keyLength bytes e.1 ≤ n →
      Pcv.keyLength bytes (r.sequence order) ≤ n → e.1.take n = (r.sequence order).take n →
        e.1 = r.sequence order := by
  rintro e he n hn hn' heq
  obtain ⟨s, -, rfl⟩ := List.mem_map.mp he
  exact RuleSpec.sequence_eq_of_take hn hn' heq

omit [RuleValue V] in
theorem length_of_mem_entries (order : DimensionOrder D) (rules : List (RuleSpec D V))
    (r : RuleSpec D V) : ∀ e ∈ entries order rules, e.1.length = (r.sequence order).length := by
  intro e he
  obtain ⟨s, -, rfl⟩ := List.mem_map.mp he
  simp

/-- The tree stores the rules: its trie is what inserting them one after another makes. -/
structure BTree.Stores (cfg : BTreeCfg) (pool : NodeAllocator V) (t : BTree cfg.D)
    (order : DimensionOrder cfg.D) (rules : List (RuleSpec cfg.D V)) (trie : Trie Range1d V)
    (fp : Multiset ℕ) : Prop where
  dimensionOrder : t.dimensionOrder = order
  holds : t.Holds cfg pool trie fp
  represents : Trie.Represents Range1d.Before isValid (keyLength cfg.keyBytes)
    (entries order rules) trie

theorem BTree.stores_nil {pool : NodeAllocator V} (order : DimensionOrder cfg.D) :
    BTree.Stores cfg pool ⟨none, order⟩ order [] .nil 0 :=
  ⟨rfl, .null, Trie.represents_nil⟩

/-- One more rule. -/
theorem BTree.Stores.ensures_insert {pool : NodeAllocator V} {t : BTree cfg.D}
    {order : DimensionOrder cfg.D} {rules : List (RuleSpec cfg.D V)} {trie : Trie Range1d V}
    {fp rest : Multiset ℕ} {r : RuleSpec cfg.D V} (hT : 2 ≤ cfg.T) (hD : 0 < cfg.D)
    (hpc : cfg.pathCompression = true) (hvalid : ∀ s ∈ rules, s.Valid cfg.keyBytes)
    (hr : r.Valid cfg.keyBytes) (hcomp : ∀ s ∈ rules, s.Compatible cfg.keyBytes order r)
    (ht : t.Stores cfg pool order rules trie fp) (ho : Owns pool (fp + rest)) :
    Ensures OnlyBadAlloc (t.insert cfg r) pool fun t' pool' => ∃ trie' fp',
      t'.Stores cfg pool' order (rules ++ [r]) trie' fp' ∧ InsRule cfg order r trie trie' ∧
        Owns pool' (fp' + rest) ∧ Store.Agree rest pool.mempool pool'.mempool ∧
          pool'.ITEM_CNT = pool.ITEM_CNT := by
  refine (BTree.ensures_insert (r := r) hT hD ht.holds ho).mono ?_
  rintro t' pool' ⟨trie', fp', hins, hd, ho', hagree, hN, hord⟩
  rw [ht.dimensionOrder] at hins
  refine ⟨trie', fp', ⟨hord.trans ht.dimensionOrder, hd, ?_⟩, hins, ho', hagree, hN⟩
  have hfill : fillValue cfg r.second = RuleValue.invalid := by simp [fillValue, hpc]
  rw [InsRule, hfill] at hins
  rw [entries, List.map_append]
  refine ht.represents.insert (fun _ _ h => h.low_lt) (by simp) (by simp)
    (keyLength_le _ (by simpa using hD)) (entries_told_apart order rules r)
    (length_of_mem_entries order rules r) ?_ hins
  · intro e he
    obtain ⟨s, hs, rfl⟩ := List.mem_map.mp he
    exact (hcomp s hs).take (hvalid s hs) hr

omit [RuleValue V] in
/-- The values stored last. -/
theorem lastValue_entries {order : DimensionOrder D} (hp : order.IsPermutation)
    (rules : List (RuleSpec D V)) (r : RuleSpec D V) :
    Trie.lastValue (entries order rules) (r.sequence order) =
      ((rules.filter fun s => s.first = r.first).getLast?).map RuleSpec.second := by
  have : (entries order rules).filter (fun e => e.1 = r.sequence order) =
      (rules.filter fun s => s.first = r.first).map fun s => (s.sequence order, s.second) := by
    rw [entries, List.filter_map]
    congr 1
    refine List.filter_congr fun s _ => ?_
    simp [RuleSpec.sequence_eq_iff hp]
  rw [Trie.lastValue, this, List.getLast?_map, Option.map_map]
  rfl

omit [RuleValue V] in
/-- Behind the key length there are wildcards only, which every packet hits. -/
theorem hits_iff_of_keyLength_le {bytes : ℕ} {order : DimensionOrder D}
    {rules : List (RuleSpec D V)} {v : KeyVec D} (hv : ∀ d, v.get d ≤ keyMax bytes) :
    ∀ e ∈ entries order rules, ∀ π, π <+: e.1 → keyLength bytes e.1 ≤ π.length →
      (Trie.Hits (hitsAt order v) 0 π ↔ Trie.Hits (hitsAt order v) 0 e.1) := by
  intro e he π hπ hlen
  rw [Trie.hits_iff, Trie.hits_iff]
  obtain ⟨τ, hτ⟩ := hπ
  constructor
  · intro hall i k hk
    rcases Nat.lt_or_ge i π.length with hi | hi
    · refine hall i k ?_
      rwa [← hτ, List.getElem?_append_left hi] at hk
    · have hw := isWildcard_of_keyLength_le (hlen.trans hi) hk
      rw [Range1d.isWildcard_iff] at hw
      obtain ⟨r, -, rfl⟩ := List.mem_map.mp he
      have hiD : i < D := by simpa using (List.getElem?_eq_some_iff.mp hk).1
      rw [Nat.zero_add, hitsAt_of_lt order v hiD, hw, Range1d.inRange_iff]
      exact ⟨Nat.zero_le _, hv _⟩
  · intro hall i k hk
    refine hall i k ?_
    rw [← hτ, List.getElem?_append_left (List.getElem?_eq_some_iff.mp hk).1, hk]

/-- The value stored last under the most specific sequence that a packet hits is the answer
to the packet. -/
theorem answers_of_mostSpecific {bytes : ℕ} {order : DimensionOrder D}
    (hp : order.IsPermutation) {rules : List (RuleSpec D V)}
    (hvalid : ∀ r ∈ rules, r.Valid bytes ∧ isValid r.second = true) {v : KeyVec D} {res : V}
    (h : (res = RuleValue.invalid ∧
        ∀ e ∈ entries order rules, ¬ Trie.Hits (hitsAt order v) 0 e.1) ∨
      ∃ e ∈ entries order rules, Trie.Hits (hitsAt order v) 0 e.1 ∧
        Trie.lastValue (entries order rules) e.1 = some res ∧
          ∀ e' ∈ entries order rules, Trie.Hits (hitsAt order v) 0 e'.1 →
            e'.1.take (keyLength bytes e'.1) <+: e.1) : Answers rules v res := by
  rcases h with ⟨hres, hnone⟩ | ⟨e, he, hh, hlast, hmax⟩
  · have hno : ∀ r ∈ rules, ¬ r.Matches v := by
      intro r hr hm
      exact hnone _ (List.mem_map_of_mem hr) ((r.hits_sequence hp v).mpr hm)
    rw [hres]
    exact ⟨by simpa using hno, by simp⟩
  · obtain ⟨r, hr, rfl⟩ := List.mem_map.mp he
    have hrm : r.Matches v := (r.hits_sequence hp v).mp hh
    have hvr : isValid res = true := by
      obtain ⟨s, hs, heq⟩ := List.mem_map.mp (Trie.exists_of_lastValue hlast)
      rw [← (Prod.mk.inj heq).2]
      exact (hvalid s hs).2
    rw [lastValue_entries hp] at hlast
    obtain ⟨b, hb, hbv⟩ := Option.map_eq_some_iff.mp hlast
    have hbm := List.mem_of_getLast? hb
    simp only [List.mem_filter, decide_eq_true_eq] at hbm
    obtain ⟨hbrules, hbr⟩ := hbm
    refine ⟨?_, fun _ => ⟨b, ⟨?_, ?_, ?_⟩, hbv.symm⟩⟩
    · rw [hvr]
      simp only [Bool.true_eq_false, false_iff, not_forall, not_not]
      exact ⟨r, hr, hrm⟩
    · rwa [hbr]
    · rw [RuleSpec.Matches, hbr]
      exact hrm
    · intro s hs hm
      have hpre := hmax _ (List.mem_map_of_mem hs) ((s.hits_sequence hp v).mpr hm)
      have := RuleSpec.inside_of_take hp (hvalid r hr).1 hpre
      rw [RuleSpec.Inside, hbr]
      exact this

/-- A search in a tree that stores the rules yields the value of the best match. -/
theorem BTree.Stores.search {pool : NodeAllocator V} {t : BTree cfg.D}
    {order : DimensionOrder cfg.D} {rules : List (RuleSpec cfg.D V)} {trie : Trie Range1d V}
    {fp rest : Multiset ℕ} (hp : order.IsPermutation)
    (hvalid : ∀ r ∈ rules, r.Valid cfg.keyBytes ∧ isValid r.second = true)
    (ht : t.Stores cfg pool order rules trie fp) (ho : Owns pool (fp + rest)) (v : KeyVec cfg.D)
    (hv : ∀ d, v.get d ≤ keyMax cfg.keyBytes) :
    ∃ res, t.search cfg pool v = .ok res ∧ Answers rules v res := by
  refine ⟨_, BTree.search_eq ht.holds ht.represents.separated ho, ?_⟩
  have hval : ∀ e ∈ entries order rules, isValid e.2 = true := by
    intro e he
    obtain ⟨r, hr, rfl⟩ := List.mem_map.mp he
    exact (hvalid r hr).2
  rw [ht.dimensionOrder]
  exact answers_of_mostSpecific hp hvalid (ht.represents.search (hitsAt_separated order v) hval
    (hits_iff_of_keyLength_le hv) RuleValue.invalid)

/-! ## Runs -/

/-- Insert the rules one after another. -/
def BTree.insertAll (cfg : BTreeCfg) (t : BTree cfg.D) (rules : List (RuleSpec cfg.D V)) :
    NodeM V (BTree cfg.D) :=
  rules.foldlM (fun t r => t.insert cfg r) t

/-- After any number of insertions of compatible rules the tree stores exactly these. -/
theorem BTree.ensures_insertAll {pool : NodeAllocator V} {order : DimensionOrder cfg.D}
    {rules : List (RuleSpec cfg.D V)} {rest : Multiset ℕ} (hT : 2 ≤ cfg.T) (hD : 0 < cfg.D)
    (hpc : cfg.pathCompression = true) (hvalid : ∀ r ∈ rules, r.Valid cfg.keyBytes)
    (hcomp : rules.Pairwise (RuleSpec.Compatible cfg.keyBytes order)) (ho : Owns pool rest) :
    Ensures OnlyBadAlloc (BTree.insertAll cfg ⟨none, order⟩ rules) pool fun t pool' =>
      ∃ trie fp, t.Stores cfg pool' order rules trie fp ∧ Owns pool' (fp + rest) := by
  refine Ensures.foldlM (I := fun pre t pool' => ∃ trie fp,
    BTree.Stores cfg pool' t order pre trie fp ∧ Owns pool' (fp + rest)) ?_ ?_
  · rintro pre r suf t pool' rfl ⟨trie, fp, ht, ho'⟩
    refine (ht.ensures_insert hT hD hpc (fun s hs => hvalid s (by simp [hs]))
      (hvalid r (by simp)) (fun s hs => ?_) ho').mono ?_
    · exact (List.pairwise_append.mp hcomp).2.2 s hs r (by simp)
    · rintro t' pool'' ⟨trie', fp', ht', -, ho'', -, -⟩
      exact ⟨trie', fp', ht', ho''⟩
  · exact ⟨.nil, 0, BTree.stores_nil order, by simpa using ho⟩

/-- A search in a tree of compatible rules answers every packet.  It neither runs forever nor
reads the order behind its end, which would be faults. -/
theorem BTree.search_insertAll {order : DimensionOrder cfg.D} {rules : List (RuleSpec cfg.D V)}
    (hT : 2 ≤ cfg.T) (hD : 0 < cfg.D) (hpc : cfg.pathCompression = true)
    (hp : order.IsPermutation)
    (hvalid : ∀ r ∈ rules, r.Valid cfg.keyBytes ∧ isValid r.second = true)
    (hcomp : rules.Pairwise (RuleSpec.Compatible cfg.keyBytes order)) (itemCnt : ℕ) :
    Ensures OnlyBadAlloc (BTree.insertAll cfg ⟨none, order⟩ rules)
      (DynamicMempool.make itemCnt (Node.make cfg)) fun t pool =>
        ∀ v : KeyVec cfg.D, (∀ d, v.get d ≤ keyMax cfg.keyBytes) →
          ∃ res, t.search cfg pool v = .ok res ∧ Answers rules v res := by
  refine (BTree.ensures_insertAll hT hD hpc (fun r hr => (hvalid r hr).1) hcomp
    (owns_make itemCnt _)).mono ?_
  rintro t pool ⟨trie, fp, ht, ho⟩ v hv
  exact ht.search hp hvalid ho v hv

/-- Two fields of one byte; a box, a rule inside it and a rule for one field only. -/
theorem BTree.search_insertAll_boxes :
    Ensures OnlyBadAlloc
      (BTree.insertAll ⟨1, 2, 2, true⟩ ⟨none, #v[1, 0]⟩
        [⟨#v[⟨0, 255⟩, ⟨3, 9⟩], RuleValueInt.make 1 1⟩, ⟨#v[⟨4, 5⟩, ⟨3, 9⟩], RuleValueInt.make 2 2⟩,
          ⟨#v[⟨7, 7⟩, ⟨10, 12⟩], RuleValueInt.make 3 3⟩])
      (DynamicMempool.make 64 (Node.make ⟨1, 2, 2, true⟩)) fun t pool =>
        ∀ v : KeyVec 2, (∀ d, v.get d ≤ keyMax 1) →
          ∃ res, t.search ⟨1, 2, 2, true⟩ pool v = .ok res ∧
            Answers [⟨#v[⟨0, 255⟩, ⟨3, 9⟩], RuleValueInt.make 1 1⟩,
              ⟨#v[⟨4, 5⟩, ⟨3, 9⟩], RuleValueInt.make 2 2⟩,
              ⟨#v[⟨7, 7⟩, ⟨10, 12⟩], RuleValueInt.make 3 3⟩] v res :=
  BTree.search_insertAll (by decide) (by decide) rfl (by decide)
    (by decide) (by decide) 64

/-! ## The representation invariant -/

/-- The representation invariant of a tree.  `Denotes` says how the nodes of each layer hang
together; on top of it the keys of each layer lie one before the other, and no node is
reached by two links. -/
def BTree.Invariant (cfg : BTreeCfg) (pool : NodeAllocator V) (t : BTree cfg.D) : Prop :=
  ∃ trie fp, t.Holds cfg pool trie fp ∧ trie.Separated Range1d.Before ∧ fp.Nodup

/-- The insertions of compatible rules keep the representation invariant. -/
theorem BTree.invariant_insertAll {order : DimensionOrder cfg.D} {rules : List (RuleSpec cfg.D V)}
    (hT : 2 ≤ cfg.T) (hD : 0 < cfg.D) (hpc : cfg.pathCompression = true)
    (hvalid : ∀ r ∈ rules, r.Valid cfg.keyBytes)
    (hcomp : rules.Pairwise (RuleSpec.Compatible cfg.keyBytes order)) (itemCnt : ℕ) :
    Ensures OnlyBadAlloc (BTree.insertAll cfg ⟨none, order⟩ rules)
      (DynamicMempool.make itemCnt (Node.make cfg)) fun t pool =>
        t.dimensionOrder = order ∧ t.Invariant cfg pool := by
  refine (BTree.ensures_insertAll hT hD hpc hvalid hcomp (owns_make itemCnt _)).mono ?_
  rintro t pool ⟨trie, fp, ht, ho⟩
  exact ⟨ht.dimensionOrder, trie, fp, ht.holds, ht.represents.separated,
    Multiset.nodup_of_le (Multiset.le_add_right _ _) ho.nodup⟩

/-- Two fields of one byte; a box, a rule inside it and a rule for one field only. -/
theorem BTree.invariant_insertAll_boxes :
    Ensures OnlyBadAlloc
      (BTree.insertAll ⟨1, 2, 2, true⟩ ⟨none, #v[1, 0]⟩
        [⟨#v[⟨0, 255⟩, ⟨3, 9⟩], RuleValueInt.make 1 1⟩, ⟨#v[⟨4, 5⟩, ⟨3, 9⟩], RuleValueInt.make 2 2⟩,
          ⟨#v[⟨7, 7⟩, ⟨10, 12⟩], RuleValueInt.make 3 3⟩])
      (DynamicMempool.make 64 (Node.make ⟨1, 2, 2, true⟩)) fun t pool =>
        t.dimensionOrder = #v[1, 0] ∧ t.Invariant ⟨1, 2, 2, true⟩ pool :=
  BTree.invariant_insertAll (by decide) (by decide) rfl (by decide)
    (by decide) 64

end Run

end Pcv
