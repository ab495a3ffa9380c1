import Pcv.PartitionSort.PathLookup
import Pcv.PartitionSort.TreeLevels

/-!
# The rules in a tree

`BTree.Contains` says that a tree stores given rules, no two of them with the same ranges.  The
extraction then lists each of these rules; it lists no others, save for values that were stored
for the ranges of one of them before.  An insertion adds its rule, or puts it in the place of a
rule with the same ranges.
-/

namespace Pcv

open BTreeSearch DynamicMempool

variable {D : ℕ} {V : Type}

/-- The rules and one more, which takes the place of a rule with the same ranges. -/
def withRule (rules : List (RuleSpec D V)) (r : RuleSpec D V) : List (RuleSpec D V) :=
  rules.filter (fun s => s.first ≠ r.first) ++ [r]

theorem mem_withRule {rules : List (RuleSpec D V)} {r s : RuleSpec D V} :
    s ∈ withRule rules r ↔ s = r ∨ s ∈ rules ∧ s.first ≠ r.first := by
  simp [withRule, or_comm]

theorem withRule_distinct {rules : List (RuleSpec D V)} (h : (rules.map RuleSpec.first).Nodup)
    (r : RuleSpec D V) : ((withRule rules r).map RuleSpec.first).Nodup := by
  rw [withRule, List.map_append, List.nodup_append]
  refine ⟨h.sublist (List.filter_sublist.map _), by simp, fun a ha b hb heq => ?_⟩
  obtain ⟨s, hs, rfl⟩ := List.mem_map.mp ha
  obtain rfl : b = r.first := by simpa using hb
  exact absurd heq (by simpa using (List.mem_filter.mp hs).2)

/-- What becomes of the listed rules `m` when the rule `r` is put into a tree.  A rule that is
listed already, and `placed` where it is going to be put, is replaced. -/
def Receives (r : RuleSpec D V) (placed : Prop) (m m' : Multiset (RuleSpec D V)) : Prop :=
  ∃ others, m' = r ::ₘ others ∧ (m = others ∨ ∃ a, a.first = r.first ∧ m = a ::ₘ others) ∧
    (placed → (∃ a ∈ m, a.first = r.first) → ∃ a, a.first = r.first ∧ m = a ::ₘ others)

namespace Receives

variable {r a : RuleSpec D V} {placed : Prop} {m m' : Multiset (RuleSpec D V)}

theorem mem_self (h : Receives r placed m m') : r ∈ m' := by
  obtain ⟨others, rfl, -⟩ := h
  exact Multiset.mem_cons_self r others

theorem of_mem (h : Receives r placed m m') (ha : a ∈ m') : a = r ∨ a ∈ m := by
  obtain ⟨others, rfl, hm, -⟩ := h
  refine (Multiset.mem_cons.mp ha).imp_right fun ha => ?_
  rcases hm with rfl | ⟨b, -, rfl⟩
  · exact ha
  · exact Multiset.mem_cons_of_mem ha

/-- A listed rule stays, or has been replaced. -/
theorem mem_or_replaced (h : Receives r placed m m') (ha : a ∈ m) : a ∈ m' ∨ a.first = r.first := by
  obtain ⟨others, rfl, hm, -⟩ := h
  rcases hm with rfl | ⟨b, hb, rfl⟩
  · exact Or.inl (Multiset.mem_cons_of_mem ha)
  · rcases Multiset.mem_cons.mp ha with rfl | ha
    · exact Or.inr hb
    · exact Or.inl (Multiset.mem_cons_of_mem ha)

/-- The ranges of the listed rules stay different, if the new rule takes the place of the one that
has its ranges. -/
theorem distinct (h : Receives r placed m m') (hm : (m.map RuleSpec.first).Nodup)
    (hplaced : ∀ a ∈ m, a.first = r.first → placed) : (m'.map RuleSpec.first).Nodup := by
  obtain ⟨others, rfl, hold, hreplaced⟩ := h
  have hothers : ∀ b, b.first = r.first → m = b ::ₘ others →
      ((r ::ₘ others).map RuleSpec.first).Nodup := by
    rintro b hb rfl
    rw [Multiset.map_cons] at hm ⊢
    rwa [← hb]
  rcases hold with rfl | ⟨b, hb, heq⟩
  · by_cases hmem : ∃ a ∈ m, a.first = r.first
    · obtain ⟨a, ha, hfirst⟩ := hmem
      obtain ⟨b, hb, heq⟩ := hreplaced (hplaced a ha hfirst) ⟨a, ha, hfirst⟩
      exact hothers b hb heq
    · rw [Multiset.map_cons, Multiset.nodup_cons]
      refine ⟨fun hr => ?_, hm⟩
      obtain ⟨a, ha, hfirst⟩ := Multiset.mem_map.mp hr
      exact hmem ⟨a, ha, hfirst⟩
  · exact hothers b hb heq

end Receives

variable [RuleValue V] {cfg : BTreeCfg}

/-- The last key on the path of the rule has a valid value. -/
def BTree.EndsValid (cfg : BTreeCfg) (pool : NodeAllocator V) (t : BTree cfg.D)
    (r : RuleSpec cfg.D V) : Prop :=
  ∀ path ∈ (searchPath pool.mempool t.dimensionOrder r (callDepth cfg pool) (callDepth cfg pool)
    t.root 0).toOption, ∃ b ∈ path.getLast?,
      isValid ((pool.mempool.get b.node).getKey b.index).value = true

instance (pool : NodeAllocator V) (t : BTree cfg.D) (r : RuleSpec cfg.D V) :
    Decidable (t.EndsValid cfg pool r) :=
  inferInstanceAs (Decidable (∀ path ∈ Except.toOption _, _))

/-- The rules of a trie, in the order of the tree. -/
def BTree.listed (cfg : BTreeCfg) (t : BTree cfg.D) (trie : Trie Range1d V) :
    Multiset (RuleSpec cfg.D V) :=
  rulesOf t.dimensionOrder 0 trie (Vector.replicate cfg.D (Range1d.wildcard cfg.keyBytes))

/-- The tree stores the rules, which have different ranges. -/
structure BTree.Contains (cfg : BTreeCfg) (pool : NodeAllocator V) (t : BTree cfg.D)
    (rules : List (RuleSpec cfg.D V)) (trie : Trie Range1d V) (fp : Multiset ℕ) : Prop where
  isPermutation : t.dimensionOrder.IsPermutation
  stores : t.Stores cfg pool t.dimensionOrder rules trie fp
  valid : ∀ r ∈ rules, r.Valid cfg.keyBytes ∧ isValid r.second = true
  distinct : (rules.map RuleSpec.first).Nodup

namespace BTree.Contains

variable {pool : NodeAllocator V} {t : BTree cfg.D} {rules : List (RuleSpec cfg.D V)}
  {trie : Trie Range1d V} {fp rest : Multiset ℕ} {r a : RuleSpec cfg.D V}

theorem nil {order : DimensionOrder cfg.D} (hp : order.IsPermutation) :
    BTree.Contains cfg pool ⟨none, order⟩ [] .nil 0 :=
  ⟨hp, BTree.stores_nil order, by simp, by simp⟩

theorem frame {pool' : NodeAllocator V} (h : t.Contains cfg pool rules trie fp)
    (hagree : Store.Agree fp pool.mempool pool'.mempool) : t.Contains cfg pool' rules trie fp :=
  { h with stores := { h.stores with holds := h.stores.holds.frame hagree } }

theorem separated (h : t.Contains cfg pool rules trie fp) : trie.Separated Range1d.Before :=
  h.stores.represents.separated

omit [RuleValue V] in
theorem before_irrefl (k : Range1d) : ¬ Range1d.Before k k :=
  fun h => lt_irrefl _ h.low_lt

/-- The extraction lists the rules of the trie. -/
theorem toRules (h : t.Contains cfg pool rules trie fp) (ho : Owns pool (fp + rest)) :
    ∃ out, t.toRules cfg pool = .ok out ∧ (out : Multiset (RuleSpec cfg.D V)) = t.listed cfg trie :=
  BTree.toRules_of_denotes h.isPermutation h.stores.holds ho

theorem mem_listed_iff (h : t.Contains cfg pool rules trie fp) : a ∈ t.listed cfg trie ↔
    ∃ π w, trie.lookup π = some w ∧ isValid w = true ∧ a = ⟨pathWith t.dimensionOrder 0 π
      (Vector.replicate cfg.D (Range1d.wildcard cfg.keyBytes)), w⟩ := by
  rw [listed, rulesOf, Multiset.mem_coe, List.mem_map]
  constructor
  · rintro ⟨⟨π, w⟩, hmem, rfl⟩
    obtain ⟨hl, hw⟩ := (Trie.mem_toList before_irrefl h.separated).mp hmem
    exact ⟨π, w, hl, hw, rfl⟩
  · rintro ⟨π, w, hl, hw, rfl⟩
    exact ⟨(π, w), (Trie.mem_toList before_irrefl h.separated).mpr ⟨hl, hw⟩, rfl⟩

/-- The value that is stored for a rule is its own. -/
theorem lastValue_eq (h : t.Contains cfg pool rules trie fp) (hr : r ∈ rules) :
    Trie.lastValue (entries t.dimensionOrder rules) (r.sequence t.dimensionOrder) =
      some r.second := by
  obtain ⟨w, hw⟩ := Trie.lastValue_isSome
    (show (r.sequence t.dimensionOrder, r.second) ∈ entries t.dimensionOrder rules from
      List.mem_map_of_mem hr)
  obtain ⟨s, hs, heq⟩ := List.mem_map.mp (Trie.exists_of_lastValue hw)
  rw [Prod.mk.injEq] at heq
  obtain rfl := List.inj_on_of_nodup_map h.distinct hs hr
    ((RuleSpec.sequence_eq_iff h.isPermutation).mp heq.1)
  rw [hw, heq.2]

theorem mem_listed (h : t.Contains cfg pool rules trie fp) (hr : r ∈ rules) :
    r ∈ t.listed cfg trie := by
  obtain ⟨n, hn, hnle, hl, -⟩ := h.stores.represents.of_last _ _ (h.lastValue_eq hr)
  refine h.mem_listed_iff.mpr ⟨_, _, hl, (h.valid r hr).2, ?_⟩
  rw [pathWith_eq_first h.isPermutation (List.take_prefix _ _)]
  rw [List.length_take, Nat.min_eq_left hnle]
  exact hn

theorem of_mem_listed (h : t.Contains cfg pool rules trie fp) (ha : a ∈ t.listed cfg trie) :
    ∃ r ∈ rules, r.first = a.first := by
  obtain ⟨π, w, hl, hw, rfl⟩ := h.mem_listed_iff.mp ha
  obtain ⟨e, he, hp, hneed⟩ := h.stores.represents.of_valid π w hl hw
  obtain ⟨r, hr, rfl⟩ := List.mem_map.mp he
  exact ⟨r, hr, (pathWith_eq_first h.isPermutation hp hneed).symm⟩

/-- A packet gets the value of the best match. -/
theorem search (h : t.Contains cfg pool rules trie fp) (ho : Owns pool (fp + rest))
    (v : KeyVec cfg.D) (hv : ∀ d, v.get d ≤ keyMax cfg.keyBytes) :
    ∃ res, t.search cfg pool v = .ok res ∧ Answers rules v res :=
  h.stores.search h.isPermutation h.valid ho v hv

/-- How far the ranges of a rule are stored. -/
theorem exists_path (h : t.Contains cfg pool rules trie fp) (ho : Owns pool (fp + rest))
    (r : RuleSpec cfg.D V) : ∃ path, searchPath pool.mempool t.dimensionOrder r (callDepth cfg pool)
      (callDepth cfg pool) t.root 0 = .ok path ∧
        Route cfg (.ofOrder t.dimensionOrder) pool.mempool t.dimensionOrder r 0 t.root trie fp path ∧
          StoredAlong pool.mempool t.dimensionOrder r 0 path trie := by
  have hcard := ho.card_le
  rw [Multiset.card_add] at hcard
  have hnd : fp.Nodup := Multiset.nodup_of_le (Multiset.le_add_right _ _) ho.nodup
  have hdepth : fp.card ≤ callDepth cfg pool := by
    simp only [callDepth]
    omega
  have hfuel : cfg.D < 0 + callDepth cfg pool := by
    simp only [callDepth]
    omega
  obtain ⟨path, hpath⟩ := exists_searchPath t.dimensionOrder r (callDepth cfg pool) h.stores.holds
    hnd hdepth hfuel
  have hr := Denotes.route h.stores.holds hnd hdepth hpath
  exact ⟨path, hpath, hr, hr.storedAlong h.separated⟩

omit [RuleValue V] in
theorem take_sequence (order : DimensionOrder cfg.D) (r : RuleSpec cfg.D V) {n : ℕ}
    (hn : n ≤ cfg.D) : (r.sequence order).take n = rangesFrom order r n 0 := by
  rw [RuleSpec.sequence_eq_append order r hn]
  exact List.take_left' (length_rangesFrom _ _ _ _)

/-- A listed rule is stored under as many ranges as it needs, or more. -/
theorem exists_place (h : t.Contains cfg pool rules trie fp) (ha : a ∈ t.listed cfg trie) :
    ∃ n w, a.keyLength cfg.keyBytes t.dimensionOrder ≤ n ∧ n ≤ cfg.D ∧
      trie.lookup ((a.sequence t.dimensionOrder).take n) = some w := by
  obtain ⟨s, hs, hfirst⟩ := h.of_mem_listed ha
  obtain ⟨n, hn, hnle, hl, -⟩ := h.stores.represents.of_last _ _ (h.lastValue_eq hs)
  rw [RuleSpec.sequence_congr t.dimensionOrder hfirst] at hn hnle hl
  exact ⟨n, _, hn, by simpa using hnle, hl⟩

/-- Where the path of a listed rule ends with a valid value, the rule is stored as deep as it can
be. -/
theorem exists_deepest (h : t.Contains cfg pool rules trie fp) (ho : Owns pool (fp + rest))
    (hends : t.EndsValid cfg pool r) (hmem : ∃ a ∈ t.listed cfg trie, a.first = r.first) :
    ∃ m w, r.keyLength cfg.keyBytes t.dimensionOrder ≤ m ∧ m ≤ cfg.D ∧
      trie.lookup ((r.sequence t.dimensionOrder).take m) = some w ∧ isValid w = true ∧
        ∀ k, m < k → k ≤ cfg.D → trie.lookup ((r.sequence t.dimensionOrder).take k) = none := by
  obtain ⟨path, hpath, hroute, halong⟩ := h.exists_path ho r
  obtain ⟨b, hb, hbv⟩ := hends path (by rw [hpath]; rfl)
  obtain ⟨a, ha, hbox⟩ := hmem
  obtain ⟨n, w, hn, hnle, hln⟩ := h.exists_place ha
  rw [RuleSpec.keyLength, RuleSpec.sequence_congr t.dimensionOrder hbox] at hn
  rw [RuleSpec.sequence_congr t.dimensionOrder hbox, take_sequence _ _ hnle] at hln
  have hle : path.length ≤ cfg.D := by
    have := hroute.level_le (List.ne_nil_of_mem (List.mem_of_getLast? hb))
    omega
  have hnp : n ≤ path.length := by
    by_contra hlt
    rw [halong.stops n (by omega)] at hln
    cases hln
  refine ⟨path.length, _, hn.trans hnp, hle, ?_, hbv, fun k hk hkle => ?_⟩
  · rw [take_sequence _ _ hle]
    exact halong.last b hb
  · rw [take_sequence _ _ hkle]
    exact halong.stops k hk

/-- What the insertion of a rule does to what is listed. -/
theorem receives {t' : BTree cfg.D} {pool' : NodeAllocator V} {rules' : List (RuleSpec cfg.D V)}
    {trie' : Trie Range1d V} {fp' : Multiset ℕ} (hD : 0 < cfg.D)
    (hpc : cfg.pathCompression = true) (h : t.Contains cfg pool rules trie fp)
    (h' : t'.Contains cfg pool' rules' trie' fp') (hord : t'.dimensionOrder = t.dimensionOrder)
    (hvalid : isValid r.second = true) (hins : InsRule cfg t.dimensionOrder r trie trie')
    (ho : Owns pool (fp + rest)) :
    Receives r (t.EndsValid cfg pool r) (t.listed cfg trie) (t'.listed cfg trie') := by
  have hlen : (r.sequence t.dimensionOrder).length = cfg.D := by simp
  have hfill : isValid (fillValue cfg r.second) = false := by simp [fillValue, hpc]
  obtain ⟨n, hn, -, hnle, hsrc, hmax, hst⟩ := hins.stored (fun _ _ hb => hb.low_lt) h.separated
    (keyLength_le _ (by simpa using hD))
  rw [hlen] at hnle hmax
  set place := (r.sequence t.dimensionOrder).take n with hplace
  set box : List Range1d × V → RuleSpec cfg.D V := fun e => ⟨pathWith t.dimensionOrder 0 e.1
    (Vector.replicate cfg.D (Range1d.wildcard cfg.keyBytes)), e.2⟩ with hbox
  have hfirst : ∀ v, box (place, v) = ⟨r.first, v⟩ := by
    intro v
    simp only [hbox]
    rw [pathWith_eq_first h.isPermutation (List.take_prefix _ _)]
    rw [List.length_take, hlen, Nat.min_eq_left hnle]
    exact hn
  have hlisted : t'.listed cfg trie' = r ::ₘ ↑((trie.others isValid place).map box) := by
    rw [listed, rulesOf, hord, Multiset.cons_coe]
    refine Multiset.coe_eq_coe.mpr (((hst.toList_perm before_irrefl h.separated h'.separated
      hfill (by simp) hvalid).map box).trans (.of_eq ?_))
    rw [List.map_cons, hfirst]
  have hreplaced : ∀ w, trie.lookup place = some w → isValid w = true →
      ∃ a, a.first = r.first ∧
        t.listed cfg trie = a ::ₘ ↑((trie.others isValid place).map box) := by
    intro w hl hw
    refine ⟨⟨r.first, w⟩, rfl, ?_⟩
    rw [listed, rulesOf, Multiset.cons_coe]
    refine Multiset.coe_eq_coe.mpr (((Trie.toList_perm_of_lookup before_irrefl h.separated hl
      hw).map box).trans (.of_eq ?_))
    rw [List.map_cons, hfirst]
  refine ⟨_, hlisted, ?_, fun hends hmem => ?_⟩
  · by_cases hw : ∃ w, trie.lookup place = some w ∧ isValid w = true
    · obtain ⟨w, hl, hw⟩ := hw
      exact Or.inr (hreplaced w hl hw)
    · refine Or.inl ?_
      rw [Trie.others_eq_toList before_irrefl h.separated fun w hl => ?_]
      · rfl
      · by_contra hvalid'
        exact hw ⟨w, hl, by simpa using hvalid'⟩
  · obtain ⟨m, w, hm, hmle, hlm, hwm, hdeepest⟩ := h.exists_deepest ho hends hmem
    have hnm : n = m := by
      refine le_antisymm ?_ ?_
      · by_contra hlt
        rcases hsrc with rfl | ⟨w', hl'⟩
        · exact hlt hm
        · rw [hplace, hdeepest n (by omega) hnle] at hl'
          cases hl'
      · by_contra hlt
        rw [hmax m (by omega) hmle] at hlm
        cases hlm
    subst hnm
    exact hreplaced w hlm hwm

/-- A compatible rule is put into the tree. -/
theorem ensures_insert (hT : 2 ≤ cfg.T) (hD : 0 < cfg.D) (hpc : cfg.pathCompression = true)
    (h : t.Contains cfg pool rules trie fp) (hr : r.Valid cfg.keyBytes)
    (hvalid : isValid r.second = true)
    (hcomp : ∀ s ∈ rules, s.Compatible cfg.keyBytes t.dimensionOrder r)
    (ho : Owns pool (fp + rest)) :
    Ensures OnlyBadAlloc (t.insert cfg r) pool fun t' pool' => ∃ trie' fp',
      t'.Contains cfg pool' (withRule rules r) trie' fp' ∧ Owns pool' (fp' + rest) ∧
        Store.Agree rest pool.mempool pool'.mempool ∧ t'.dimensionOrder = t.dimensionOrder ∧
          Receives r (t.EndsValid cfg pool r) (t.listed cfg trie) (t'.listed cfg trie') := by
  refine (h.stores.ensures_insert hT hD hpc (fun s hs => (h.valid s hs).1) hr hcomp ho).mono ?_
  rintro t' pool' ⟨trie', fp', ht', hins, ho', hagree, -⟩
  have hord := ht'.dimensionOrder
  have h' : t'.Contains cfg pool' (withRule rules r) trie' fp' := by
    refine ⟨hord ▸ h.isPermutation, ⟨rfl, ht'.holds, ?_⟩, fun s hs => ?_, withRule_distinct h.distinct r⟩
    · -- the value of a rule with the same ranges does not count any more
      rw [hord]
      refine ht'.represents.of_lastValue fun ρ => ?_
      rw [entries, entries, withRule, List.map_append, List.map_append, List.map_singleton]
      refine Eq.trans ?_ (Trie.lastValue_replace _ _ _ _)
      rw [List.filter_map]
      congr 3
      refine List.filter_congr fun s _ => ?_
      simp [RuleSpec.sequence_eq_iff h.isPermutation]
    · rcases mem_withRule.mp hs with rfl | hs
      · exact ⟨hr, hvalid⟩
      · exact h.valid s hs.1
  exact ⟨trie', fp', h', ho', hagree, hord, h.receives hD hpc h' hord hvalid hins ho⟩

/-! ## Another order of the unused levels -/

/-- The tree has no keys behind the levels that its rules use. -/
theorem within (h : t.Contains cfg pool rules trie fp) {n : ℕ}
    (hused : ∀ r ∈ rules, r.UsesFirst cfg.keyBytes t.dimensionOrder n) :
    trie.EachKey (WithinLevels cfg.keyBytes n) 0 := by
  refine Trie.eachKey_of_lookup before_irrefl h.separated fun π w i k hl hk => ?_
  obtain ⟨e, he, hp⟩ := h.stores.represents.covered π w hl
  obtain ⟨r, hr, rfl⟩ := List.mem_map.mp he
  have hi := (List.getElem?_eq_some_iff.mp hk).1
  have hle := hp.length_le
  rw [List.length_take, RuleSpec.length_sequence] at hle
  have hseq : (r.sequence t.dimensionOrder)[i]? = some k := by
    obtain ⟨τ, hτ⟩ : π <+: r.sequence t.dimensionOrder := hp.trans (List.take_prefix _ _)
    rw [← hτ, List.getElem?_append_left hi, hk]
  obtain ⟨d, hord⟩ : ∃ d, t.dimensionOrder[i]? = some d :=
    ⟨_, Vector.getElem?_eq_getElem (by omega)⟩
  rw [r.getElem?_sequence t.dimensionOrder (by omega), rangeAt_eq hord] at hseq
  have hlt : i < max 1 n := (hi.trans_le (hle.trans (Nat.min_le_left _ _))).trans_le
    (hused r hr).keyLength_le
  refine ⟨by rwa [Nat.zero_add], fun hn => ?_⟩
  rw [← Option.some.inj hseq]
  exact hused r hr i _ (by rwa [Nat.zero_add] at hn) hord

/-- The fields behind the levels in use may change places. -/
theorem reorder {order' : DimensionOrder cfg.D} {n : ℕ} (h : t.Contains cfg pool rules trie fp)
    (hused : ∀ r ∈ rules, r.UsesFirst cfg.keyBytes t.dimensionOrder n)
    (hk : t.dimensionOrder.KeepsFirst n order') :
    BTree.Contains cfg pool { t with dimensionOrder := order' } rules trie fp ∧
      BTree.listed cfg { t with dimensionOrder := order' } trie = t.listed cfg trie := by
  have hp' := hk.isPermutation h.isPermutation
  have hseq : ∀ r ∈ rules, r.sequence order' = r.sequence t.dimensionOrder :=
    fun r hr => (hused r hr).sequence_eq h.isPermutation hk
  have hentries : entries order' rules = entries t.dimensionOrder rules :=
    List.map_congr_left fun r hr => by rw [hseq r hr]
  refine ⟨⟨hp', ⟨rfl, Denotes.reorder h.stores.holds (h.within hused) hk.front, ?_⟩, h.valid,
    h.distinct⟩, ?_⟩
  · rw [hentries]
    exact h.stores.represents
  · refine congrArg _ (List.map_congr_left fun e he => ?_)
    obtain ⟨hl, hw⟩ := (Trie.mem_toList before_irrefl h.separated).mp he
    obtain ⟨e', he', hpre, hneed⟩ := h.stores.represents.of_valid _ _ hl hw
    obtain ⟨r, hr, rfl⟩ := List.mem_map.mp he'
    rw [pathWith_eq_first h.isPermutation hpre hneed]
    rw [← hseq r hr] at hpre hneed
    rw [pathWith_eq_first hp' hpre hneed]

end BTree.Contains

end Pcv
