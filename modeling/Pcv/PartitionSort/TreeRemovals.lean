import Pcv.Library.TrieWithdraw
import Pcv.PartitionSort.TreeContents
import Pcv.PartitionSort.TreeRuns

/-!
# Searching a tree after removals

A tree from which rules have been removed still answers every packet for the rules that are live,
and the extraction yields these rules (`BTree.Run.servesLive`), as long as each removed rule can be
told apart from the others: it lies in no other live rule, and the path of its ranges ends at its
value.

Rules may lie in the removed one.  Where they have made its path longer than it was, the path ends
at no value; otherwise they stay where they are.
-/

namespace Pcv

open DynamicMempool BTreeSearch

variable {V : Type} [RuleValue V] {cfg : BTreeCfg}

/-- What is asked of the live rules: one of them never cuts off another one, and none of them is
there twice or has an invalid value. -/
structure Consistent (cfg : BTreeCfg) (order : DimensionOrder cfg.D)
    (rules : List (RuleSpec cfg.D V)) : Prop where
  compatible : rules.Pairwise (RuleSpec.Compatible cfg.keyBytes order)
  distinct : (rules.map RuleSpec.first).Nodup
  valid : ∀ r ∈ rules, isValid r.second = true

instance (order : DimensionOrder cfg.D) (rules : List (RuleSpec cfg.D V)) :
    Decidable (Consistent cfg order rules) :=
  decidable_of_iff (_ ∧ _ ∧ _) ⟨fun ⟨a, b, c⟩ => ⟨a, b, c⟩, fun ⟨a, b, c⟩ => ⟨a, b, c⟩⟩

/-- The removed rule is live and lies in no other live rule, its path ends at its value, and what
`remove` takes apart belongs to it. -/
def Withdrawn (cfg : BTreeCfg) (order : DimensionOrder cfg.D) : RemovalRule cfg V :=
  fun live t pool r =>
    Consistent cfg order live ∧ (∃ s ∈ live, s.first = r.first) ∧
      (∀ s ∈ live, r.Inside s → s.first = r.first) ∧ t.EndsValid cfg pool r ∧
        t.Detachable cfg pool r

instance (order : DimensionOrder cfg.D) (live : List (RuleSpec cfg.D V)) (t : BTree cfg.D)
    (pool : NodeAllocator V) (r : RuleSpec cfg.D V) : Decidable (Withdrawn cfg order live t pool r) :=
  inferInstanceAs (Decidable (_ ∧ _))

variable {order : DimensionOrder cfg.D} {start pool : NodeAllocator V} {t : BTree cfg.D}
variable {live : List (RuleSpec cfg.D V)} {rest fp : Multiset ℕ} {r : RuleSpec cfg.D V}
variable {trie : Trie Range1d V}

theorem Consistent.of_append {suf : List (RuleSpec cfg.D V)}
    (h : Consistent cfg order (live ++ suf)) : Consistent cfg order live where
  compatible := (List.pairwise_append.mp h.compatible).1
  distinct := by
    have := h.distinct
    rw [List.map_append] at this
    exact (List.nodup_append.mp this).1
  valid := fun r hr => h.valid r (List.mem_append_left suf hr)

/-! ## One removal -/

namespace BTree.Contains

variable {rules : List (RuleSpec cfg.D V)} {a : RuleSpec cfg.D V}

/-- The ranges of a rule that is extracted once at most have a value at one place at most. -/
theorem onceAt (h : t.Contains cfg pool rules trie fp)
    (hcount : (t.listed cfg trie).countP (fun a => a.first = r.first) ≤ 1) :
    Trie.OnceAt isValid (keyLength cfg.keyBytes) (r.sequence t.dimensionOrder) trie := by
  intro m n w w' hm hmle hn hnle hl hw hl' hw'
  have hlisted : ∀ k v, keyLength cfg.keyBytes (r.sequence t.dimensionOrder) ≤ k →
      k ≤ (r.sequence t.dimensionOrder).length →
        trie.lookup ((r.sequence t.dimensionOrder).take k) = some v → isValid v = true →
          ((r.sequence t.dimensionOrder).take k, v) ∈ (trie.toList isValid).filter fun e =>
            pathWith t.dimensionOrder 0 e.1
              (Vector.replicate cfg.D (Range1d.wildcard cfg.keyBytes)) = r.first := by
    intro k v hk hkle hl hv
    refine List.mem_filter.mpr ⟨(Trie.mem_toList before_irrefl h.separated).mpr ⟨hl, hv⟩, ?_⟩
    refine decide_eq_true (pathWith_eq_first h.isPermutation (List.take_prefix _ _) ?_)
    rwa [List.length_take, Nat.min_eq_left hkle]
  have hlen : ((trie.toList isValid).filter fun e => pathWith t.dimensionOrder 0 e.1
      (Vector.replicate cfg.D (Range1d.wildcard cfg.keyBytes)) = r.first).length ≤ 1 := by
    rwa [listed, rulesOf, Multiset.coe_countP, List.countP_map, List.countP_eq_length_filter]
      at hcount
  have hm' := hlisted m w hm hmle hl hw
  have hn' := hlisted n w' hn hnle hl' hw'
  obtain ⟨e, hone⟩ := List.length_eq_one_iff.mp
    (Nat.le_antisymm hlen (List.length_pos_of_mem hm'))
  rw [hone, List.mem_singleton] at hm' hn'
  have := congrArg List.length (Prod.mk.inj (hm'.trans hn'.symm)).1
  simp only [List.length_take] at this
  omega

/-- A rule that lies in no other one and whose path ends at its value is taken out of the tree. -/
theorem ensures_remove (hT : 2 ≤ cfg.T) (h : t.Contains cfg pool rules trie fp)
    (hmem : ∃ s ∈ rules, s.first = r.first)
    (honce : Trie.OnceAt isValid (keyLength cfg.keyBytes) (r.sequence t.dimensionOrder) trie)
    (hout : ∀ s ∈ rules, r.Inside s → s.first = r.first) (hends : t.EndsValid cfg pool r)
    (hdetach : t.Detachable cfg pool r) (ho : Owns pool (fp + rest)) :
    Ensures (fun _ _ => True) (t.remove cfg r) pool fun t' pool' => ∃ trie' fp',
      t'.Contains cfg pool' (rules.filter fun s => s.first ≠ r.first) trie' fp' ∧
        Owns pool' (fp' + rest) ∧ Store.Agree rest pool.mempool pool'.mempool ∧
          t'.dimensionOrder = t.dimensionOrder ∧
            (∀ a, a ∈ t'.listed cfg trie' ↔ a ∈ t.listed cfg trie ∧ a.first ≠ r.first) ∧
              (Trie.Once isValid (keyLength cfg.keyBytes) (entries t.dimensionOrder rules) trie →
                Trie.Once isValid (keyLength cfg.keyBytes) (entries t'.dimensionOrder
                  (rules.filter fun s => s.first ≠ r.first)) trie') := by
  have hp := h.isPermutation
  obtain ⟨b, hb, hbr⟩ := hmem
  have hseq : ∀ s : RuleSpec cfg.D V,
      s.sequence t.dimensionOrder = r.sequence t.dimensionOrder ↔ s.first = r.first := fun s =>
    RuleSpec.sequence_eq_iff hp
  have hentries : entries t.dimensionOrder (rules.filter fun s => s.first ≠ r.first) =
      (entries t.dimensionOrder rules).filter fun e => e.1 ≠ r.sequence t.dimensionOrder := by
    rw [entries, entries, List.filter_map]
    refine congrArg _ (List.filter_congr fun s _ => ?_)
    simp [hseq]
  have hend : Trie.EndsValid isValid (keyLength cfg.keyBytes) (r.sequence t.dimensionOrder)
      trie := by
    obtain ⟨m, w, hm, hmle, hl, hw, hdeep⟩ :=
      h.exists_deepest ho hends ⟨b, h.mem_listed hb, hbr⟩
    refine ⟨m, w, hm, ?_, hl, hw, ?_⟩ <;> rw [RuleSpec.length_sequence]
    · exact hmle
    · exact hdeep
  have hover : ∀ s ∈ rules, (s.sequence t.dimensionOrder).take
      (keyLength cfg.keyBytes (s.sequence t.dimensionOrder)) <+: r.sequence t.dimensionOrder →
        s.first = r.first := by
    intro s hs hpre
    have hr : r.Valid cfg.keyBytes := by
      intro d
      rw [← hbr]
      exact (h.valid b hb).1 d
    exact hout s hs (RuleSpec.inside_of_take hp hr hpre)
  refine (BTree.ensures_remove hT (fun _ _ => trivial) h.stores.holds h.separated
    (fun path hpath => hdetach path (by rw [hpath]; rfl)) ho).mono ?_
  rintro t' pool' ⟨trie', fp', hdel, ht', ho', hagree, -, hord⟩
  have hpos : ∀ a b, Range1d.Before a b → a.low < b.low := fun _ _ h => h.low_lt
  have hrep := h.stores.represents.delete hpos RuleValue.invalid_not_valid honce
    (length_of_mem_entries _ rules r) (entries_told_apart _ rules r) (fun e he hpre => by
      obtain ⟨s, hs, rfl⟩ := List.mem_map.mp he
      exact (hseq s).mpr (hover s hs hpre)) hend hdel
  rw [← hentries, ← hord] at hrep
  have h' : t'.Contains cfg pool' (rules.filter fun s => s.first ≠ r.first) trie' fp' :=
    ⟨hord ▸ hp, ⟨rfl, ht', hrep⟩, fun s hs => h.valid s (List.mem_filter.mp hs).1,
      h.distinct.sublist (List.filter_sublist.map _)⟩
  refine ⟨trie', fp', h', ho', hagree, hord, fun a => ⟨fun ha => ?_, fun ha => ?_⟩, fun hall => ?_⟩
  · obtain ⟨s, hs, hsa⟩ := h'.of_mem_listed ha
    refine ⟨?_, hsa ▸ of_decide_eq_true (List.mem_filter.mp hs).2⟩
    obtain ⟨π, w, hl, hw, rfl⟩ := h'.mem_listed_iff.mp ha
    rcases hdel.of_lookup hpos RuleValue.invalid_not_valid h.separated hend hl with hold | hinv
    · exact h.mem_listed_iff.mpr ⟨π, w, hold, hw, by rw [hord]⟩
    · rw [hw] at hinv
      cases hinv
  · obtain ⟨ha, hne⟩ := ha
    obtain ⟨π, w, hl, hw, rfl⟩ := h.mem_listed_iff.mp ha
    refine h'.mem_listed_iff.mpr ⟨π, w, ?_, hw, by rw [hord]⟩
    rcases hdel.lookup_cases hpos h.separated hend with ⟨m, hm, hmle, -, -, hother⟩ | ⟨k, -, hcut⟩
    · rw [hother π fun heq => hne ?_, hl]
      refine heq ▸ pathWith_eq_first hp (List.take_prefix _ _) ?_
      rwa [List.length_take, Nat.min_eq_left hmle]
    · rw [(hcut π).1 fun hhead => hne ?_, hl]
      -- what is stored on the way of the rule belongs to it
      have hpre := ((hcut π).2 hhead).2 (by rw [hl]; simp)
      obtain ⟨e, he, hpe, hneed⟩ := h.stores.represents.of_valid π w hl hw
      obtain ⟨s, hs, rfl⟩ := List.mem_map.mp he
      refine (pathWith_eq_first hp hpe hneed).trans (hover s hs ?_)
      refine List.IsPrefix.trans ?_ hpre
      rw [List.prefix_iff_eq_take.mp hpe]
      exact List.take_prefix_take_left hneed
  · rw [hord, hentries]
    exact hall.delete hpos RuleValue.invalid_not_valid h.separated hend hdel

end BTree.Contains

/-! ## Runs of insertions and removals -/

/-- The tree contains the live rules, each of them once. -/
structure BTree.KeepsLive (cfg : BTreeCfg) (pool : NodeAllocator V) (t : BTree cfg.D)
    (live : List (RuleSpec cfg.D V)) (trie : Trie Range1d V) (fp : Multiset ℕ) : Prop where
  contains : t.Contains cfg pool live trie fp
  once : Trie.Once isValid (keyLength cfg.keyBytes) (entries t.dimensionOrder live) trie

/-- A rule with new ranges is put into the tree. -/
theorem BTree.KeepsLive.ensures_insert (hT : 2 ≤ cfg.T) (hD : 0 < cfg.D)
    (hpc : cfg.pathCompression = true) (h : t.KeepsLive cfg pool live trie fp)
    (hr : r.Valid cfg.keyBytes) (hcons : Consistent cfg t.dimensionOrder (live ++ [r]))
    (ho : Owns pool (fp + rest)) :
    Ensures OnlyBadAlloc (t.insert cfg r) pool fun t' pool' =>
      t'.dimensionOrder = t.dimensionOrder ∧ ∃ trie' fp',
        t'.KeepsLive cfg pool' (live ++ [r]) trie' fp' ∧ Owns pool' (fp' + rest) := by
  have hcomp : ∀ s ∈ live, s.Compatible cfg.keyBytes t.dimensionOrder r := fun s hs =>
    (List.pairwise_append.mp hcons.compatible).2.2 s hs r (by simp)
  have hnew : ∀ e ∈ entries t.dimensionOrder live, e.1 ≠ r.sequence t.dimensionOrder := by
    intro e he heq
    obtain ⟨s, hs, rfl⟩ := List.mem_map.mp he
    have hfirst := (RuleSpec.sequence_eq_iff h.contains.isPermutation).mp heq
    have hdistinct := hcons.distinct
    rw [List.map_append] at hdistinct
    exact (List.nodup_append.mp hdistinct).2.2 _ (List.mem_map_of_mem hs) _ (by simp) hfirst
  refine (h.contains.stores.ensures_insert hT hD hpc (fun s hs => (h.contains.valid s hs).1) hr
    hcomp ho).mono ?_
  rintro t' pool' ⟨trie', fp', ht', hins, ho', -, -⟩
  have hord := ht'.dimensionOrder
  refine ⟨hord, trie', fp', ⟨⟨hord ▸ h.contains.isPermutation, hord.symm ▸ ht', fun s hs => ?_,
    hcons.distinct⟩, ?_⟩, ho'⟩
  · refine ⟨?_, hcons.valid s hs⟩
    rcases List.mem_append.mp hs with hs | hs
    · exact (h.contains.valid s hs).1
    · obtain rfl := List.mem_singleton.mp hs
      exact hr
  · have hfill : fillValue cfg r.second = RuleValue.invalid := by simp [fillValue, hpc]
    rw [InsRule, hfill] at hins
    rw [hord, entries, List.map_append]
    exact h.once.insert (fun _ _ h => h.low_lt) (by simp) (by simp) h.contains.stores.represents
      (keyLength_le _ (by simpa using hD)) (entries_told_apart _ live r)
      (length_of_mem_entries _ live r) hnew hins

/-- A rule that can be told apart from the others is taken out of the tree. -/
theorem BTree.KeepsLive.ensures_remove (hT : 2 ≤ cfg.T)
    (h : t.KeepsLive cfg pool live trie fp)
    (hr : Withdrawn cfg t.dimensionOrder live t pool r) (ho : Owns pool (fp + rest)) :
    Ensures (fun _ _ => True) (t.remove cfg r) pool fun t' pool' =>
      t'.dimensionOrder = t.dimensionOrder ∧ ∃ trie' fp',
        t'.KeepsLive cfg pool' (live.filter fun s => s.first ≠ r.first) trie' fp' ∧
          Owns pool' (fp' + rest) := by
  obtain ⟨-, ⟨a, ha, har⟩, hout, hends, hdetach⟩ := hr
  have honce : Trie.OnceAt isValid (keyLength cfg.keyBytes) (r.sequence t.dimensionOrder) trie := by
    rw [← RuleSpec.sequence_congr t.dimensionOrder har]
    exact h.once _ (List.mem_map_of_mem ha)
  refine (h.contains.ensures_remove hT ⟨a, ha, har⟩ honce hout hends hdetach ho).mono ?_
  rintro t' pool' ⟨trie', fp', hc, ho', -, hord, -, hall⟩
  exact ⟨hord, trie', fp', ⟨hc, hall h.once⟩, ho'⟩

/-- Every state of a run whose live rules are consistent keeps them. -/
theorem BTree.Run.keepsLive (hT : 2 ≤ cfg.T) (hD : 0 < cfg.D)
    (hpc : cfg.pathCompression = true) (hp : order.IsPermutation) (ho : Owns start rest)
    (h : BTree.Run cfg order start (Withdrawn cfg order) t pool live)
    (hlive : Consistent cfg order live) :
    t.dimensionOrder = order ∧
      ∃ trie fp, t.KeepsLive cfg pool live trie fp ∧ Owns pool (fp + rest) := by
  induction h with
  | start => exact ⟨rfl, .nil, 0, ⟨.nil hp, Trie.once_nil _⟩, by simpa using ho⟩
  | insert _ hr hrun ih =>
      obtain ⟨hord, trie, fp, hkeeps, ho'⟩ := ih hlive.of_append
      obtain ⟨hord', hnext⟩ :=
        (hkeeps.ensures_insert hT hD hpc hr (hord.symm ▸ hlive) ho').ok hrun
      exact ⟨hord'.trans hord, hnext⟩
  | remove _ hr hrun ih =>
      obtain ⟨hord, trie, fp, hkeeps, ho'⟩ := ih hr.1
      obtain ⟨hord', hnext⟩ := (hkeeps.ensures_remove hT (hord.symm ▸ hr) ho').ok hrun
      exact ⟨hord'.trans hord, hnext⟩

/-- What a tree is for: every packet gets the value of the best match among the live rules, and
the live rules can be extracted. -/
structure BTree.ServesLive (cfg : BTreeCfg) (pool : NodeAllocator V) (t : BTree cfg.D)
    (live : List (RuleSpec cfg.D V)) : Prop where
  search : ∀ v : KeyVec cfg.D, (∀ d, v.get d ≤ keyMax cfg.keyBytes) →
    ∃ res, t.search cfg pool v = .ok res ∧ Answers live v res
  toRules : ∃ out, t.toRules cfg pool = .ok out ∧ out.Perm live

section Nested

/-- Two fields of one byte. -/
private abbrev twoBytes : BTreeCfg := ⟨1, 2, 2, true⟩

private abbrev freshPool : NodeAllocator RuleValueInt := DynamicMempool.make 8 (Node.make twoBytes)

/-- A rule for one value of the first field. -/
private abbrev wide : RuleSpec 2 RuleValueInt := .box ⟨1, 1⟩ ⟨0, 255⟩ 1 1

/-- A rule inside `wide`. -/
private abbrev narrow : RuleSpec 2 RuleValueInt := .box ⟨1, 1⟩ ⟨3, 9⟩ 2 2

private abbrev other : RuleSpec 2 RuleValueInt := .box ⟨4, 7⟩ ⟨3, 3⟩ 1 3

/-- When the inner rule is removed, the outer one is gone with it: nodes are all accounted for, but
a packet of the outer rule finds nothing. -/
theorem BTree.Run.not_servesLive_narrow : ∃ t pool,
    BTree.Run twoBytes #v[0, 1] freshPool (Detached twoBytes #v[0, 1]) t pool [wide] ∧
      ¬ t.ServesLive twoBytes pool [wide] := by
  have h : (BTree.afterOps twoBytes (Detached twoBytes #v[0, 1]) [.insert wide, .insert narrow,
      .remove narrow] ⟨none, #v[0, 1]⟩ freshPool []).map
        (fun s => (s.2.2, s.1.search twoBytes s.2.1 #v[1, 5])) =
          some ([wide], .ok RuleValue.invalid) := by decide +kernel
  obtain ⟨⟨t, pool, live⟩, hops, heq⟩ := Option.map_eq_some_iff.mp h
  obtain ⟨rfl, hsearch⟩ := Prod.mk.injEq .. |>.mp heq
  refine ⟨t, pool, BTree.Run.start.afterOps hops, fun hserves => ?_⟩
  obtain ⟨res, hres, hmiss, -⟩ := hserves.search #v[1, 5] (by decide)
  obtain rfl := Except.ok.inj (hsearch.symm.trans hres)
  exact hmiss.mp (by simp) wide (by simp) (by decide)

end Nested

end Pcv
