import Pcv.PartitionSort.LayeredTreeSearch
import Pcv.PartitionSort.PathInsert
import Mathlib.Data.List.DropRight
import Mathlib.Data.List.FinRange

/-!
# The layered tree as a whole

`BTree.Holds` says which trie a tree object stores, and in which nodes of the pool.
`insert` changes the trie as `Trie.Ins` says and leaves the nodes of other trees
alone; `search` is the search in the trie.

The only fault an insertion can end with is an exhausted pool, and a search ends
with none.
-/

namespace Pcv

open DynamicMempool
open Store (Agree)

/-- The order tests every field once. -/
def DimensionOrder.IsPermutation {D : ℕ} (order : DimensionOrder D) : Prop :=
  order.toList.Perm (List.finRange D)

instance {D : ℕ} (order : DimensionOrder D) : Decidable order.IsPermutation :=
  inferInstanceAs (Decidable (List.Perm _ _))

variable {V : Type} [RuleValue V] {cfg : BTreeCfg}

/-- The only fault is an exhausted pool. -/
def OnlyBadAlloc (e : Fault) (_ : NodeAllocator V) : Prop := e = .badAlloc

/-- The tree stores the trie in the nodes `fp`. -/
def BTree.Holds (cfg : BTreeCfg) (pool : NodeAllocator V) (t : BTree cfg.D) (trie : Trie Range1d V)
    (fp : Multiset ℕ) : Prop :=
  Denotes cfg (.ofOrder t.dimensionOrder) pool.mempool 0 (.link t.root) trie fp

variable {pool : NodeAllocator V} {t : BTree cfg.D} {trie : Trie Range1d V} {fp rest : Multiset ℕ}

omit [RuleValue V] in
theorem BTree.holds_nil (order : DimensionOrder cfg.D) :
    BTree.Holds cfg pool ⟨none, order⟩ .nil 0 := .null

omit [RuleValue V] in
theorem BTree.Holds.frame {pool' : NodeAllocator V} (h : t.Holds cfg pool trie fp)
    (hagree : Agree fp pool.mempool pool'.mempool) : t.Holds cfg pool' trie fp :=
  Denotes.frame h hagree

/-- The insertions make compressed nodes in the shape that the search relies on. -/
theorem CompressedShape.allows_ofOrder {D : ℕ} (order : DimensionOrder D) :
    (CompressedShape.ofOrder order).Allows order where
  dim := fun _ f hf => ⟨f, hf, rfl⟩
  least_le := le_rfl

/-! ## The number of levels a rule needs -/

section KeyLength

variable {D : ℕ}

/-- The ranges of a rule in the order of the levels. -/
def RuleSpec.sequence (order : DimensionOrder D) (r : RuleSpec D V) : List Range1d :=
  rangesFrom order r D 0

/-- One plus the last position of a range that is no wildcard, and at least one. -/
def keyLength (bytes : ℕ) (ks : List Range1d) : ℕ :=
  max 1 (ks.rdropWhile fun k => k.isWildcard bytes).length

theorem keyLength_concat (bytes : ℕ) (ks : List Range1d) (x : Range1d) :
    keyLength bytes (ks ++ [x]) =
      if x.isWildcard bytes then keyLength bytes ks else ks.length + 1 := by
  rw [keyLength, List.rdropWhile_concat]
  split
  · rfl
  · simp

theorem one_le_keyLength (bytes : ℕ) (ks : List Range1d) : 1 ≤ keyLength bytes ks :=
  Nat.le_max_left _ _

theorem keyLength_le (bytes : ℕ) {ks : List Range1d} (h : 0 < ks.length) :
    keyLength bytes ks ≤ ks.length :=
  max_le h (List.rdropWhile_prefix _ _).length_le

/-- The ranges behind the key length are wildcards. -/
theorem isWildcard_of_keyLength_le {bytes : ℕ} {ks : List Range1d} {i : ℕ} {k : Range1d}
    (hi : keyLength bytes ks ≤ i) (hk : ks[i]? = some k) : k.isWildcard bytes = true := by
  induction ks using List.reverseRecOn with
  | nil => simp at hk
  | append_singleton ks x ih =>
      have hlt := (List.getElem?_eq_some_iff.mp hk).1
      simp only [List.length_append, List.length_singleton] at hlt
      rw [keyLength_concat] at hi
      split at hi
      · next hx =>
          rcases Nat.lt_or_ge i ks.length with hil | hil
          · exact ih hi (by rwa [List.getElem?_append_left hil] at hk)
          · obtain rfl : i = ks.length := by omega
            obtain rfl : x = k := by simpa using hk
            exact hx
      · omega

omit [RuleValue V] in
/-- `total_levels_required_cnt` computes the key length. -/
theorem InsertCookie.totalLevelsRequiredCnt_eq (bytes : ℕ) (order : DimensionOrder D)
    (rule : RuleSpec D V) :
    totalLevelsRequiredCnt bytes order rule = keyLength bytes (rule.sequence order) := by
  have main : ∀ i, i ≤ D → totalLevelsRequiredFrom bytes order rule i =
      keyLength bytes (rangesFrom order rule i 0) := by
    intro i hi
    induction i with
    | zero => rfl
    | succ i ih =>
        have hord : order[i]? = some order[i] := by simp
        have hat : rangeAt order rule i = rule.first.get order[i] := by simp only [rangeAt, hord]
        rw [totalLevelsRequiredFrom, hord, rangesFrom_add, Nat.zero_add]
        simp only [rangesFrom]
        rw [hat, keyLength_concat, ih (by omega), length_rangesFrom]
        cases (rule.first.get order[i]).isWildcard bytes <;> rfl
  exact main D le_rfl

end KeyLength

/-! ## Insertion and search -/

/-- The trie changes as by the insertion of the rule. -/
abbrev InsRule (cfg : BTreeCfg) (order : DimensionOrder cfg.D) (r : RuleSpec cfg.D V)
    (trie trie' : Trie Range1d V) : Prop :=
  Trie.Ins Range1d.low (fillValue cfg r.second) RuleValue.invalid r.second
    (keyLength cfg.keyBytes (r.sequence order)) (r.sequence order) trie trie'

/-- An insertion keeps the shape of the compressed nodes, if it allows those it makes. -/
theorem BTree.ensures_insert_of_allows {sh : CompressedShape} {r : RuleSpec cfg.D V} (hT : 2 ≤ cfg.T)
    (hD : 0 < cfg.D) (hsh : sh.Allows t.dimensionOrder) (hleast : 2 ≤ sh.least)
    (ht : Denotes cfg sh pool.mempool 0 (.link t.root) trie fp) (ho : Owns pool (fp + rest)) :
    Ensures OnlyBadAlloc (t.insert cfg r) pool fun t' pool' => ∃ trie' fp',
      InsRule cfg t.dimensionOrder r trie trie' ∧
        Denotes cfg sh pool'.mempool 0 (.link t'.root) trie' fp' ∧
          Owns pool' (fp' + rest) ∧ Agree rest pool.mempool pool'.mempool ∧
            pool'.ITEM_CNT = pool.ITEM_CNT ∧ t'.dimensionOrder = t.dimensionOrder := by
  set c := InsertCookie.make cfg.keyBytes t.dimensionOrder r with hc
  have hlen : (r.sequence t.dimensionOrder).length = cfg.D := length_rangesFrom _ _ _ _
  have hreq : c.requiresLevels = keyLength cfg.keyBytes (r.sequence t.dimensionOrder) :=
    InsertCookie.totalLevelsRequiredCnt_eq _ _ _
  have hpos := one_le_keyLength cfg.keyBytes (r.sequence t.dimensionOrder)
  have hle := keyLength_le cfg.keyBytes (hlen ▸ hD)
  have hcard := ho.card_le
  rw [Multiset.card_add] at hcard
  have hc0 : c.level = 0 := rfl
  refine Ensures.bind (Ensures.get (Ensures.bind ((Pcv.ensures_insert (c := c)
    (E := OnlyBadAlloc) (fun _ => rfl) hT hsh hleast (by omega) (by omega) ht ho ?_).mono ?_)))
  · simp only [callDepth]
    omega
  · rintro root pool' ⟨trie', fp', hins, hd, ho', hagree, hN⟩
    refine ⟨trie', fp', ?_, hd, ho', hagree, hN, rfl⟩
    rw [InsCookie, hreq] at hins
    exact hins

theorem BTree.ensures_insert {r : RuleSpec cfg.D V} (hT : 2 ≤ cfg.T) (hD : 0 < cfg.D)
    (ht : t.Holds cfg pool trie fp) (ho : Owns pool (fp + rest)) :
    Ensures OnlyBadAlloc (t.insert cfg r) pool fun t' pool' => ∃ trie' fp',
      InsRule cfg t.dimensionOrder r trie trie' ∧ t'.Holds cfg pool' trie' fp' ∧
        Owns pool' (fp' + rest) ∧ Agree rest pool.mempool pool'.mempool ∧
          pool'.ITEM_CNT = pool.ITEM_CNT ∧ t'.dimensionOrder = t.dimensionOrder := by
  refine (BTree.ensures_insert_of_allows hT hD (CompressedShape.allows_ofOrder _) le_rfl ht
    ho).mono ?_
  rintro t' pool' ⟨trie', fp', hins, hd, ho', hagree, hN, hord⟩
  exact ⟨trie', fp', hins, by rwa [BTree.Holds, hord], ho', hagree, hN, hord⟩

theorem BTree.search_eq {v : KeyVec cfg.D} (ht : t.Holds cfg pool trie fp)
    (hsep : trie.Separated Range1d.Before) (ho : Owns pool (fp + rest)) :
    t.search cfg pool v =
      .ok (trie.search (hitsAt t.dimensionOrder v) isValid 0 RuleValue.invalid) := by
  have hcard := ho.card_le
  rw [Multiset.card_add] at hcard
  refine searchFrom_eq ht (Multiset.nodup_of_le (Multiset.le_add_right _ _) ho.nodup) ?_ hsep ?_ _
  · simp only [callDepth]
    omega
  · simp only [callDepth]
    omega

end Pcv
