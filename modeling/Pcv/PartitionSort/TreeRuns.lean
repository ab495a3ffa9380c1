import Pcv.PartitionSort.MempoolRun
import Pcv.PartitionSort.PathRemove
import Pcv.PartitionSort.TreeNodes
import Pcv.PartitionSort.TreeOfRules

/-!
# Runs of insertions and removals

A run inserts rules into a tree and removes rules from it, and keeps a list of the rules
that are live.  The tree accounts for its nodes when those it holds allocated in the pool are
the ones it reaches, each by one link.

Removals keep the account only if what they take apart belongs to the removed rule alone:
`remove` cuts the link to every layer on its way up, whatever the layer still holds.
-/

namespace Pcv

open DynamicMempool BTreeSearch

variable {V : Type}

/-! ## The account of the nodes -/

section Account

variable {D : ℕ}

/-- A node that the links of the tree lead to. -/
def BTree.Reaches (pool : NodeAllocator V) (t : BTree D) (n : ℕ) : Prop :=
  ∃ r ∈ t.root, Relation.ReflTransGen (fun a b => b ∈ (pool.mempool.get a).links) r n

/-- Besides the nodes `rest`, which are none of the tree's, the nodes `fp` are allocated in the
pool.  These are the nodes that the tree reaches, and each of them is the target of one link:
the root of the tree, or a link of one of its nodes. -/
structure BTree.Accounts (pool : NodeAllocator V) (t : BTree D) (fp rest : Multiset ℕ) : Prop where
  owns : Owns pool (fp + rest)
  mem_iff : ∀ n, n ∈ fp ↔ t.Reaches pool n
  targets : (t.root.toList : Multiset ℕ) +
    fp.bind (fun n => ((pool.mempool.get n).links : Multiset ℕ)) = fp

end Account

variable [RuleValue V] {cfg : BTreeCfg}

omit [RuleValue V] in
/-- A tree accounts for the nodes in which it stores its trie. -/
theorem BTree.Holds.toAccounts {pool : NodeAllocator V} {t : BTree cfg.D} {trie : Trie Range1d V}
    {fp rest : Multiset ℕ} (ht : t.Holds cfg pool trie fp) (ho : Owns pool (fp + rest)) :
    t.Accounts pool fp rest where
  owns := ho
  mem_iff := by
    intro n
    rw [ht.spans.mem_iff n]
    simp [Part.links, BTree.Reaches]
  targets := ht.spans.eq_targets.symm

omit [RuleValue V] in
/-- `destroyNode` gives back all the nodes of a tree. -/
theorem BTree.Holds.ensures_destroyNode {pool : NodeAllocator V} {t : BTree cfg.D}
    {trie : Trie Range1d V} {fp rest : Multiset ℕ} {E : Fault → NodeAllocator V → Prop}
    (ht : t.Holds cfg pool trie fp) (ho : Owns pool (fp + rest)) :
    Ensures E (BTree.destroyNode (callDepth cfg pool) t.root) pool fun _ pool' =>
      Owns pool' rest := by
  have hcard := ho.card_le
  rw [Multiset.card_add] at hcard
  refine (destroys _ pool t.root fp rest ht.spans ho ?_).mono fun _ _ h => h.1
  simp only [callDepth]
  omega

/-! ## Runs -/

/-- When a removal is allowed: a condition on the live rules, the tree, the pool and the rule. -/
abbrev RemovalRule (cfg : BTreeCfg) (V : Type) :=
  List (RuleSpec cfg.D V) → BTree cfg.D → NodeAllocator V → RuleSpec cfg.D V → Prop

/-- The states of a tree, with the rules that are live, after insertions and removals that have
returned, of which each removal was allowed. -/
inductive BTree.Run (cfg : BTreeCfg) (order : DimensionOrder cfg.D) (start : NodeAllocator V)
    (allowed : RemovalRule cfg V) :
    BTree cfg.D → NodeAllocator V → List (RuleSpec cfg.D V) → Prop
  | start : Run cfg order start allowed ⟨none, order⟩ start []
  | insert {t t' : BTree cfg.D} {pool pool' : NodeAllocator V} {live : List (RuleSpec cfg.D V)}
      {r : RuleSpec cfg.D V} :
      Run cfg order start allowed t pool live → r.Valid cfg.keyBytes →
      t.insert cfg r pool = .ok t' pool' → Run cfg order start allowed t' pool' (live ++ [r])
  | remove {t t' : BTree cfg.D} {pool pool' : NodeAllocator V} {live : List (RuleSpec cfg.D V)}
      {r : RuleSpec cfg.D V} :
      Run cfg order start allowed t pool live → allowed live t pool r →
      t.remove cfg r pool = .ok t' pool' →
      Run cfg order start allowed t' pool' (live.filter fun s => s.first ≠ r.first)

/-- What `remove` takes apart for the rule belongs to the path of the rule. -/
def BTree.Detachable (cfg : BTreeCfg) (t : BTree cfg.D) (pool : NodeAllocator V)
    (r : RuleSpec cfg.D V) : Prop :=
  ∀ path ∈ (searchPath pool.mempool t.dimensionOrder r (callDepth cfg pool) (callDepth cfg pool)
    t.root 0).toOption, Removable pool.mempool path

instance (t : BTree cfg.D) (pool : NodeAllocator V) (r : RuleSpec cfg.D V) :
    Decidable (t.Detachable cfg pool r) :=
  inferInstanceAs (Decidable (∀ path ∈ Except.toOption _, _))

/-- The live rules are compatible, and the removed rule has its part of the tree to itself. -/
def Detached (cfg : BTreeCfg) (order : DimensionOrder cfg.D) : RemovalRule cfg V :=
  fun live t pool r =>
    live.Pairwise (RuleSpec.Compatible cfg.keyBytes order) ∧ t.Detachable cfg pool r

instance (order : DimensionOrder cfg.D) (live : List (RuleSpec cfg.D V)) (t : BTree cfg.D)
    (pool : NodeAllocator V) (r : RuleSpec cfg.D V) : Decidable (Detached cfg order live t pool r) :=
  inferInstanceAs (Decidable (_ ∧ _))

/-- A call that changes a tree. -/
inductive BTree.Op (cfg : BTreeCfg) (V : Type)
  | insert (r : RuleSpec cfg.D V)
  | remove (r : RuleSpec cfg.D V)

/-- The state of a tree after the calls, if they are allowed and return. -/
def BTree.afterOps (cfg : BTreeCfg) (allowed : RemovalRule cfg V)
    [∀ live t pool r, Decidable (allowed live t pool r)] :
    List (BTree.Op cfg V) → BTree cfg.D → NodeAllocator V → List (RuleSpec cfg.D V) →
      Option (BTree cfg.D × NodeAllocator V × List (RuleSpec cfg.D V))
  | [], t, pool, live => some (t, pool, live)
  | .insert r :: ops, t, pool, live =>
      if r.Valid cfg.keyBytes then
        match t.insert cfg r pool with
        | .ok t' pool' => afterOps cfg allowed ops t' pool' (live ++ [r])
        | .error _ _ => none
      else none
  | .remove r :: ops, t, pool, live =>
      if allowed live t pool r then
        match t.remove cfg r pool with
        | .ok t' pool' => afterOps cfg allowed ops t' pool' (live.filter fun s => s.first ≠ r.first)
        | .error _ _ => none
      else none

section Run

variable {order : DimensionOrder cfg.D} {start pool : NodeAllocator V} {t : BTree cfg.D}
variable {live : List (RuleSpec cfg.D V)} {rest : Multiset ℕ} {r : RuleSpec cfg.D V}

theorem BTree.Run.afterOps {allowed : RemovalRule cfg V}
    [∀ live t pool r, Decidable (allowed live t pool r)] {ops : List (BTree.Op cfg V)}
    {t' : BTree cfg.D} {pool' : NodeAllocator V} {live' : List (RuleSpec cfg.D V)}
    (h : BTree.Run cfg order start allowed t pool live)
    (hops : BTree.afterOps cfg allowed ops t pool live = some (t', pool', live')) :
    BTree.Run cfg order start allowed t' pool' live' := by
  induction ops generalizing t pool live with
  | nil =>
      cases hops
      exact h
  | cons op ops ih =>
      cases op with
      | insert r =>
          rw [BTree.afterOps] at hops
          split at hops
          next hr =>
            split at hops
            next hrun => exact ih (h.insert hr hrun) hops
            next => cases hops
          next => cases hops
      | remove r =>
          rw [BTree.afterOps] at hops
          split at hops
          next hr =>
            split at hops
            next hrun => exact ih (h.remove hr hrun) hops
            next => cases hops
          next => cases hops

/-- What holds in every state of a run: the tree stores a trie in nodes of its own, and as long
as the live rules are compatible, the trie stores nothing but what belongs to them. -/
structure BTree.Tended (cfg : BTreeCfg) (order : DimensionOrder cfg.D) (rest : Multiset ℕ)
    (t : BTree cfg.D) (pool : NodeAllocator V) (live : List (RuleSpec cfg.D V))
    (trie : Trie Range1d V) (fp : Multiset ℕ) : Prop where
  dimensionOrder : t.dimensionOrder = order
  holds : t.Holds cfg pool trie fp
  owns : Owns pool (fp + rest)
  valid : ∀ s ∈ live, s.Valid cfg.keyBytes
  covers : live.Pairwise (RuleSpec.Compatible cfg.keyBytes order) →
    Trie.Covers Range1d.Before (keyLength cfg.keyBytes) (live.map fun s => s.sequence order) trie

variable {trie : Trie Range1d V} {fp : Multiset ℕ}

theorem BTree.Tended.ensures_insert (hT : 2 ≤ cfg.T) (hD : 0 < cfg.D)
    (h : t.Tended cfg order rest pool live trie fp) (hr : r.Valid cfg.keyBytes) :
    Ensures OnlyBadAlloc (t.insert cfg r) pool fun t' pool' => pool'.ITEM_CNT = pool.ITEM_CNT ∧
      ∃ trie' fp', t'.Tended cfg order rest pool' (live ++ [r]) trie' fp' := by
  refine (BTree.ensures_insert hT hD h.holds h.owns).mono ?_
  rintro t' pool' ⟨trie', fp', hins, ht', ho', -, hN, hord⟩
  refine ⟨hN, trie', fp', hord.trans h.dimensionOrder, ht', ho', ?_, fun hcomp => ?_⟩
  · intro s hs
    rcases List.mem_append.mp hs with hs | hs
    · exact h.valid s hs
    · obtain rfl : s = r := by simpa using hs
      exact hr
  · obtain ⟨hlive, -, hcomp⟩ := List.pairwise_append.mp hcomp
    rw [h.dimensionOrder] at hins
    rw [List.map_append]
    refine (h.covers hlive).insert (fun _ _ h => h.low_lt) (keyLength_le _ (by simpa using hD))
      (fun σ hσ => ?_) hins
    obtain ⟨s, hs, rfl⟩ := List.mem_map.mp hσ
    exact (hcomp s hs r (by simp)).take (h.valid s hs) hr

theorem BTree.Tended.ensures_remove (hT : 2 ≤ cfg.T)
    (h : t.Tended cfg order rest pool live trie fp) (hr : Detached cfg order live t pool r) :
    Ensures (fun _ _ => True) (t.remove cfg r) pool fun t' pool' =>
      pool'.ITEM_CNT = pool.ITEM_CNT ∧ ∃ trie' fp', t'.Tended cfg order rest pool'
        (live.filter fun s => s.first ≠ r.first) trie' fp' := by
  obtain ⟨hcomp, hdetach⟩ := hr
  have hcovers := h.covers hcomp
  refine (BTree.ensures_remove hT (fun _ _ => trivial) h.holds hcovers.separated
    (fun path hpath => hdetach path (by rw [hpath]; rfl)) h.owns).mono ?_
  rintro t' pool' ⟨trie', fp', hdel, ht', ho', -, hN, hord⟩
  refine ⟨hN, trie', fp', hord.trans h.dimensionOrder, ht', ho',
    fun s hs => h.valid s (List.mem_filter.mp hs).1, fun _ => ?_⟩
  rw [h.dimensionOrder] at hdel
  obtain ⟨hsep, hcov⟩ := hcovers.delete (fun _ _ h => h.low_lt) hdel
  refine ⟨hsep, fun π w hl => ?_⟩
  obtain ⟨σ, hσ, hp⟩ := hcov π w hl
  obtain ⟨hmem, hne⟩ := List.mem_filter.mp hσ
  obtain ⟨s, hs, rfl⟩ := List.mem_map.mp hmem
  refine ⟨_, List.mem_map_of_mem (List.mem_filter.mpr ⟨hs, decide_eq_true fun hfirst => ?_⟩), hp⟩
  exact of_decide_eq_true hne (RuleSpec.sequence_congr order hfirst)

/-- Every state of a run is tended. -/
theorem BTree.Run.tended (hT : 2 ≤ cfg.T) (hD : 0 < cfg.D) (ho : Owns start rest)
    (h : BTree.Run cfg order start (Detached cfg order) t pool live) :
    pool.ITEM_CNT = start.ITEM_CNT ∧ ∃ trie fp, t.Tended cfg order rest pool live trie fp := by
  induction h with
  | start =>
      exact ⟨rfl, .nil, 0, rfl, .null, by simpa using ho, by simp, fun _ => Trie.covers_nil⟩
  | insert _ hr hrun ih =>
      obtain ⟨hN, trie, fp, hinv⟩ := ih
      obtain ⟨hN', htended⟩ := (hinv.ensures_insert hT hD hr).ok hrun
      exact ⟨hN'.trans hN, htended⟩
  | remove _ hr hrun ih =>
      obtain ⟨hN, trie, fp, hinv⟩ := ih
      obtain ⟨hN', htended⟩ := (hinv.ensures_remove hT hr).ok hrun
      exact ⟨hN'.trans hN, htended⟩

/-- In every state of a run whose removals are detached, the tree accounts for its nodes; when
all the rules have been removed, the tree is empty and the pool as full as before; and
`destroyNode` gives back all the nodes of the tree, none of them twice. -/
theorem BTree.Run.accounts (hT : 2 ≤ cfg.T) (hD : 0 < cfg.D) (ho : Owns start rest)
    (h : BTree.Run cfg order start (Detached cfg order) t pool live) :
    (∃ fp, t.Accounts pool fp rest) ∧
      (live = [] → t.root = none ∧ Owns pool rest ∧ pool.size = start.size) ∧
      Ensures (fun _ _ => False) (BTree.destroyNode (callDepth cfg pool) t.root) pool
        fun _ pool' => Owns pool' rest := by
  obtain ⟨hN, trie, fp, hinv⟩ := h.tended hT hD ho
  refine ⟨⟨fp, hinv.holds.toAccounts hinv.owns⟩, ?_, hinv.holds.ensures_destroyNode hinv.owns⟩
  rintro rfl
  have hnil : trie = .nil := by
    by_contra hne
    obtain ⟨k, w, hl⟩ := Trie.exists_lookup_of_ne_nil hne
    obtain ⟨σ, hσ, -⟩ := (hinv.covers .nil).covered _ _ hl
    simp at hσ
  have hroot : t.root = none := by
    cases hr : t.root with
    | none => rfl
    | some n =>
        have hd := hinv.holds
        rw [BTree.Holds, hr] at hd
        exact absurd hnil hd.ne_nil
  have ho' : Owns pool rest := by
    have hd := hinv.holds
    rw [BTree.Holds, hroot] at hd
    obtain ⟨-, rfl⟩ := hd.of_null
    simpa using hinv.owns
  exact ⟨hroot, ho', ho'.size_eq ho hN⟩

end Run

/-! ## Two short runs -/

section Short

/-- Two fields of one byte. -/
private abbrev twoFields : BTreeCfg := ⟨1, 2, 2, true⟩

private abbrev emptyPool : NodeAllocator RuleValueInt :=
  DynamicMempool.make 8 (Node.make twoFields)

private abbrev box (a b : ℕ) : RuleSpec 2 RuleValueInt := ⟨#v[⟨a, a⟩, ⟨b, b⟩], RuleValueInt.make 1 1⟩

/-- The test holds after the calls on an empty tree. -/
private def holdsAfter (allowed : RemovalRule twoFields RuleValueInt)
    [∀ live t pool r, Decidable (allowed live t pool r)] (ops : List (BTree.Op twoFields RuleValueInt))
    (test : BTree 2 → NodeAllocator RuleValueInt → List (RuleSpec 2 RuleValueInt) → Bool) : Bool :=
  match BTree.afterOps twoFields allowed ops ⟨none, #v[0, 1]⟩ emptyPool [] with
  | some (t, pool, live) => test t pool live
  | none => false

private theorem exists_of_holdsAfter {allowed : RemovalRule twoFields RuleValueInt}
    [∀ live t pool r, Decidable (allowed live t pool r)]
    {ops : List (BTree.Op twoFields RuleValueInt)}
    {test : BTree 2 → NodeAllocator RuleValueInt → List (RuleSpec 2 RuleValueInt) → Bool}
    (h : holdsAfter allowed ops test = true) :
    ∃ t pool live, BTree.Run twoFields #v[0, 1] emptyPool allowed t pool live ∧
      test t pool live = true := by
  unfold holdsAfter at h
  split at h
  next t pool live hops => exact ⟨t, pool, live, BTree.Run.start.afterOps hops, h⟩
  next => cases h

/-- Two rules with different first ranges come and go. -/
theorem BTree.Run.accounts_come_and_go :
    ∃ t pool, BTree.Run twoFields #v[0, 1] emptyPool (Detached twoFields #v[0, 1]) t pool [] ∧
      (∃ fp, t.Accounts pool fp 0) ∧ t.root = none ∧ Owns pool 0 := by
  obtain ⟨t, pool, live, hrun, hlive⟩ := exists_of_holdsAfter
    (show holdsAfter (Detached twoFields #v[0, 1]) [.insert (box 1 3), .insert (box 5 7),
      .remove (box 1 3), .remove (box 5 7)] (fun _ _ live => live.isEmpty) = true by decide +kernel)
  obtain rfl := List.isEmpty_iff.mp hlive
  obtain ⟨hacc, hempty, -⟩ := hrun.accounts (by decide) (by decide) (owns_make 8 _)
  obtain ⟨hroot, ho, -⟩ := hempty rfl
  exact ⟨t, pool, hrun, hacc, hroot, ho⟩

/-- Two rules share their first range.  When the first one is removed, the layer with the second
range of the other one is cut off, and its node stays allocated though nothing leads to it. -/
theorem BTree.Run.not_accounts_shared :
    ∃ t pool live, BTree.Run twoFields #v[0, 1] emptyPool (fun _ _ _ _ => True) t pool live ∧
      ¬ ∃ fp, t.Accounts pool fp 0 := by
  obtain ⟨t, pool, live, hrun, htest⟩ := exists_of_holdsAfter
    (show holdsAfter (fun _ _ _ _ => True) [.insert (box 1 3), .insert (box 1 7),
      .remove (box 1 3)] (fun t pool _ =>
        t.root.isNone && pool.ITEM_CNT == 8 && decide (pool.size = .ok 1)) = true by decide +kernel)
  simp only [Bool.and_eq_true, Option.isNone_iff_eq_none, decide_eq_true_eq, beq_iff_eq] at htest
  obtain ⟨⟨hroot, hN⟩, hsize⟩ := htest
  refine ⟨t, pool, live, hrun, ?_⟩
  rintro ⟨fp, hacc⟩
  have hfp : fp = 0 := by
    refine Multiset.eq_zero_of_forall_notMem fun n hn => ?_
    obtain ⟨r, hr, -⟩ := (hacc.mem_iff n).mp hn
    rw [hroot] at hr
    cases hr
  subst hfp
  have := hacc.owns.size_eq (owns_make 8 (Node.make twoFields)) hN
  rw [hsize, show (DynamicMempool.make 8 (Node.make twoFields)).size = .ok 0 by decide] at this
  cases this

end Short

end Pcv
