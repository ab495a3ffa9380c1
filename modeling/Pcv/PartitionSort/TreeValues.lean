import Pcv.Library.TrieValues
import Pcv.PartitionSort.TreeRuns
import Pcv.PartitionSort.TreeToRules

/-!
# The values a tree carries

Which values a search can find in a tree, and which rules can be extracted from it, is a
question of the values in its nodes alone.  `BTree.Carries` says that all of them have a
property.  It asks neither for compatible rules nor for compressed nodes that remember the
fields of the current order, so it survives the insertion of any rule and any change of the
order.
-/

namespace Pcv

open BTreeSearch DynamicMempool

variable {V : Type} {cfg : BTreeCfg} {mem : Store (Node V)} {lvl : ℕ} {P : V → Prop}

/-- Compressed nodes that remember some field with each of their keys. -/
def CompressedShape.anyField (D : ℕ) : CompressedShape where
  dim _ d := d < D
  least := 2

theorem CompressedShape.allows_anyField {D : ℕ} (order : DimensionOrder D) :
    (CompressedShape.anyField D).Allows order where
  dim := fun _ f _ => f.isLt
  least_le := le_rfl

theorem eachValue_thread {xs : List (KeyInfo V)} {t : Trie Range1d V} :
    (thread xs t).EachValue P ↔ (∀ x ∈ xs, P x.value) ∧ t.EachValue P := by
  induction xs with
  | nil => simp [thread]
  | cons x xs ih =>
      simp only [thread, Trie.EachValue, ih, and_true, List.forall_mem_cons, and_assoc]

variable [RuleValue V]

/-! ## The search -/

section Search

theorem getVal_of_lt {D d : ℕ} (val : KeyVec D) (h : d < D) : ∃ v, getVal val d = .ok v :=
  ⟨val[d], by simp [getVal, h]⟩

/-- The walk through a compressed node ends in it or with the link of its last key, and finds
nothing but values of the node. -/
theorem searchRestFrom_carries {nd : Node V} {init : List (KeyInfo V)} {last : KeyInfo V}
    (hn : nd.CompressedNode cfg (.anyField cfg.D) lvl init last) (val : KeyVec cfg.D)
    (hvalues : ∀ x ∈ init ++ [last], P x.value) {cnt i : ℕ} (hcnt : i + cnt = init.length + 1)
    {s : RestOfPath V} (hs : s.nextN = none) (hres : P s.res) :
    ∃ s', searchRestFrom nd val cnt i s = .ok s' ∧ P s'.res ∧
      (s'.nextN = none ∨ (s'.nextN = last.nextLevel ∧ s'.addToI = init.length + 1)) := by
  induction cnt generalizing i s with
  | zero => exact ⟨s, rfl, hres, .inl hs⟩
  | succ cnt ih =>
      obtain ⟨v, hv⟩ := getVal_of_lt val (hn.dim i (by omega))
      have hget := hn.getKey i (by omega)
      have hkey := hvalues _ (List.mem_of_getElem? hget)
      have hres' : P (if isValid (nd.getKey i).value then (nd.getKey i).value else s.res) := by
        split
        · exact hkey
        · exact hres
      simp only [searchRestFrom, hv, Bind.bind, Except.bind]
      split
      · exact ⟨s, rfl, hres, .inl hs⟩
      cases hlink : nd.nextLevel.get i with
      | none => exact ih (by omega) hs hres'
      | some n =>
          -- only the last key has a next layer
          have hi : i = init.length := by
            by_contra hne
            rw [List.getElem?_append_left (by omega)] at hget
            have := hn.nextLevel _ (List.mem_of_getElem? hget)
            rw [show (nd.getKey i).nextLevel = nd.nextLevel.get i from rfl, hlink] at this
            cases this
          obtain rfl : cnt = 0 := by omega
          subst hi
          obtain rfl : last = nd.getKey init.length := by simpa using hget
          exact ⟨_, rfl, hres', .inr ⟨hlink.symm, rfl⟩⟩

variable {order : DimensionOrder cfg.D} {depth : ℕ} {t : Trie Range1d V} {fp : Multiset ℕ}

/-- A search ends, and finds nothing but values of the tree. -/
theorem searchFrom_carries (val : KeyVec cfg.D) {link : Option ℕ}
    (hd : Denotes cfg (.anyField cfg.D) mem lvl (.link link) t fp) (hnd : fp.Nodup)
    (hcard : fp.card ≤ depth) (ht : t.EachValue P) {fuel : ℕ} (hfuel : cfg.D < lvl + fuel) {res : V}
    (hres : P res) : ∃ v, searchFrom mem order val depth fuel link lvl res = .ok v ∧ P v := by
  induction fuel generalizing lvl link t fp res with
  | zero =>
      cases link with
      | none => exact ⟨res, rfl, hres⟩
      | some root =>
          have := hd.level_lt
          omega
  | succ fuel ih =>
      cases link with
      | none => exact ⟨res, rfl, hres⟩
      | some root =>
          have hlt := hd.level_lt
          have hord : order[lvl]? = some order[lvl] := by simp [hlt]
          simp only [searchFrom, hord, getVal_fin, Bind.bind, Except.bind]
          cases hd with
          | @layer _ h _ its _ fpL fpI _ hL _ _ hits =>
              have hh : h < depth := by
                have := hL.height_lt_card
                rw [Multiset.card_add] at hcard
                omega
              rcases hL.search (p := .ofValue (val.get order[lvl]))
                (Multiset.nodup_of_le (Multiset.le_add_right _ _) hnd) hh with
                ⟨m, i, L, x, R, hs, rfl, hkey, -⟩ | ⟨hs, -⟩
              · obtain ⟨A, next, B, fp₁, fpN, fp₂, rfl, rfl, -, hnext, -⟩ := hits.next
                obtain ⟨-, hx, hvalues, -⟩ := Trie.eachValue_append.mp ht
                have hlink : (mem.get m).nextLevel.get i = x.nextLevel := by
                  rw [← hkey.getKey]
                  rfl
                have hle : fpN ≤ fpL + (fp₁ + (fpN + fp₂)) :=
                  (Multiset.le_add_right _ _).trans
                    ((Multiset.le_add_left _ _).trans (Multiset.le_add_left _ _))
                simp only [hs, hkey.isCompressed, hkey.getKey, hlink]
                refine ih hnext (Multiset.nodup_of_le hle hnd)
                  ((Multiset.card_le_card hle).trans hcard) hvalues (by omega) ?_
                split
                · exact hx
                · exact hres
              · simp only [hs]
                exact ⟨res, rfl, hres⟩
          | @compressed _ _ init last next fpN _ hn hnext =>
              have hle : fpN ≤ root ::ₘ fpN := Multiset.le_cons_self _ _
              obtain ⟨depth, rfl⟩ : ∃ m, depth = m + 1 := by
                rw [Multiset.card_cons] at hcard
                exact ⟨depth - 1, by omega⟩
              obtain ⟨hvalues, hbelow⟩ := eachValue_thread.mp ht
              have hpos : searchPossition1d mem (.ofValue (val.get order[lvl])) (depth + 1)
                  (some root) = .ok (if (Probe.ofValue (val.get order[lvl])).hit
                    ((mem.get root).keys.get 0) then some (root, 0) else none) := by
                simp only [searchPossition1d, hn.isCompressed, searchCompressedSeq, if_true]
                split <;> simp
              rw [hpos]
              cases (Probe.ofValue (val.get order[lvl])).hit ((mem.get root).keys.get 0) with
              | false => exact ⟨res, rfl, hres⟩
              | true =>
                  have hfirst : P (if isValid ((mem.get root).getKey 0).value then
                      ((mem.get root).getKey 0).value else res) := by
                    split
                    · exact hvalues _ (List.mem_of_getElem? (hn.getKey 0 (by omega)))
                    · exact hres
                  have hcnt : 1 + ((mem.get root).keyCnt - 1) = init.length + 1 := by
                    rw [hn.keyCnt]
                    omega
                  obtain ⟨s, hs, hP, hend⟩ := @searchRestFrom_carries _ _ _ _ _ _ _ _ hn val hvalues
                    _ _ hcnt ⟨_, none, 0⟩ rfl hfirst
                  have hs' : searchRestOfPathInCompressedNode (mem.get root) val res = .ok s := hs
                  simp only [hn.isCompressed, if_true, hs']
                  rcases hend with hnone | ⟨hlink, hadd⟩
                  · rw [hnone]
                    exact ⟨s.res, by cases fuel <;> rfl, hP⟩
                  · rw [hlink, hadd]
                    exact ih hnext (Multiset.nodup_of_le hle hnd)
                      ((Multiset.card_le_card hle).trans hcard) hbelow (by omega) hP

end Search

/-! ## The tree object -/

/-- The values in the nodes of the tree satisfy `P`. -/
structure BTree.Carries (cfg : BTreeCfg) (pool : NodeAllocator V) (t : BTree cfg.D) (P : V → Prop)
    (trie : Trie Range1d V) (fp : Multiset ℕ) : Prop where
  isPermutation : t.dimensionOrder.IsPermutation
  denotes : Denotes cfg (.anyField cfg.D) pool.mempool 0 (.link t.root) trie fp
  values : trie.EachValue P

/-- What `remove` takes apart for the rule belongs to the path of the rule, and no two ranges of the
first layer begin at the same value. -/
def BTree.Detaches (cfg : BTreeCfg) (t : BTree cfg.D) (pool : NodeAllocator V)
    (r : RuleSpec cfg.D V) : Prop :=
  t.Detachable cfg pool r ∧ ∀ trie fp,
    Denotes cfg (.anyField cfg.D) pool.mempool 0 (.link t.root) trie fp →
      trie.keys.Pairwise fun a b => a.low < b.low

omit [RuleValue V] in
/-- A first layer of one node with at most one key. -/
theorem Denotes.keys_pairwise_of_oneKey {sh : CompressedShape} {link : Option ℕ}
    {trie : Trie Range1d V} {fp : Multiset ℕ}
    (hd : Denotes cfg sh mem 0 (.link link) trie fp)
    (h : ∀ n ∈ link, (mem.get n).isLeaf = true ∧ (mem.get n).keyCnt ≤ 1)
    (R : Range1d → Range1d → Prop) : trie.keys.Pairwise R := by
  cases hd with
  | null => exact .nil
  | @layer _ height n its _ _ _ _ hL _ _ hits =>
      rw [hits.keys_eq]
      cases height with
      | zero =>
          have hlen := hL.1.keyCnt
          have hone := (h n rfl).2
          rcases its with _ | ⟨x, _ | ⟨y, its⟩⟩
          · exact .nil
          · exact List.pairwise_singleton _ _
          · simp only [List.length_cons] at hlen
            omega
      | succ height =>
          obtain ⟨ks, cs, fp', hn, -⟩ := hL
          have hinner := hn.isLeaf
          rw [(h n rfl).1] at hinner
          cases hinner
  | @compressed _ n init last next _ _ hn _ =>
      cases init <;> exact List.pairwise_singleton _ _

namespace BTree.Carries

variable {pool : NodeAllocator V} {t : BTree cfg.D} {trie : Trie Range1d V} {fp rest : Multiset ℕ}
  {Q : V → Prop}

omit [RuleValue V] in
theorem nil {order : DimensionOrder cfg.D} (hp : order.IsPermutation) (P : V → Prop) :
    BTree.Carries cfg pool ⟨none, order⟩ P .nil 0 :=
  ⟨hp, .null, trivial⟩

omit [RuleValue V] in
theorem mono (h : t.Carries cfg pool P trie fp) (hPQ : ∀ v, P v → Q v) :
    t.Carries cfg pool Q trie fp :=
  { h with values := h.values.mono hPQ }

omit [RuleValue V] in
theorem frame {pool' : NodeAllocator V} (h : t.Carries cfg pool P trie fp)
    (hagree : Store.Agree fp pool.mempool pool'.mempool) : t.Carries cfg pool' P trie fp :=
  { h with denotes := h.denotes.frame hagree }

omit [RuleValue V] in
/-- The order does not matter. -/
theorem reorder {order : DimensionOrder cfg.D} (h : t.Carries cfg pool P trie fp)
    (hp : order.IsPermutation) :
    BTree.Carries cfg pool { t with dimensionOrder := order } P trie fp :=
  ⟨hp, h.denotes, h.values⟩

theorem ensures_insert {r : RuleSpec cfg.D V} (hT : 2 ≤ cfg.T) (hD : 0 < cfg.D)
    (h : t.Carries cfg pool P trie fp) (hr : P r.second) (hinvalid : P RuleValue.invalid)
    (ho : Owns pool (fp + rest)) :
    Ensures OnlyBadAlloc (t.insert cfg r) pool fun t' pool' => ∃ trie' fp',
      t'.Carries cfg pool' P trie' fp' ∧ Owns pool' (fp' + rest) ∧
        Store.Agree rest pool.mempool pool'.mempool ∧ t'.dimensionOrder = t.dimensionOrder := by
  refine (BTree.ensures_insert_of_allows hT hD (CompressedShape.allows_anyField _) le_rfl h.denotes
    ho).mono ?_
  rintro t' pool' ⟨trie', fp', hins, hd, ho', hagree, -, hord⟩
  refine ⟨trie', fp', ⟨hord ▸ h.isPermutation, hd, hins.eachValue h.values ?_ hinvalid hr⟩, ho',
    hagree, hord⟩
  unfold fillValue
  split
  · exact hinvalid
  · exact hr

/-- The removal of a rule that the tree can be detached from. -/
theorem ensures_remove {E : Fault → NodeAllocator V → Prop} {r : RuleSpec cfg.D V} (hT : 2 ≤ cfg.T)
    (hE : ∀ k p, E (.keyDoesNotExist k) p) (h : t.Carries cfg pool P trie fp)
    (hr : t.Detaches cfg pool r) (hinvalid : P RuleValue.invalid) (ho : Owns pool (fp + rest)) :
    Ensures E (t.remove cfg r) pool fun t' pool' => ∃ trie' fp',
      t'.Carries cfg pool' P trie' fp' ∧ Owns pool' (fp' + rest) ∧
        Store.Agree rest pool.mempool pool'.mempool ∧ t'.dimensionOrder = t.dimensionOrder := by
  refine (BTree.ensures_remove_of_denotes hT hE h.denotes (hr.2 trie fp h.denotes)
    (fun path hpath => hr.1 path (by rw [hpath]; rfl)) ho).mono ?_
  rintro t' pool' ⟨trie', fp', hdel, hd, ho', hagree, -, hord⟩
  exact ⟨trie', fp', ⟨hord ▸ h.isPermutation, hd, hdel.eachValue h.values hinvalid⟩, ho', hagree,
    hord⟩

/-- A search ends, and finds a value of the tree or nothing. -/
theorem search (h : t.Carries cfg pool P trie fp) (hinvalid : P RuleValue.invalid)
    (ho : Owns pool (fp + rest)) (val : KeyVec cfg.D) :
    ∃ v, t.search cfg pool val = .ok v ∧ P v := by
  have hcard := ho.card_le
  rw [Multiset.card_add] at hcard
  refine searchFrom_carries val h.denotes
    (Multiset.nodup_of_le (Multiset.le_add_right _ _) ho.nodup) ?_ h.values ?_ hinvalid
  · simp only [callDepth]
    omega
  · simp only [callDepth]
    omega

/-- The rules that can be extracted have valid values of the tree. -/
theorem toRules (h : t.Carries cfg pool P trie fp) (ho : Owns pool (fp + rest)) :
    ∃ rules, t.toRules cfg pool = .ok rules ∧
      ∀ r ∈ rules, isValid r.second = true ∧ P r.second := by
  obtain ⟨res, hrun, hres⟩ := BTree.toRules_of_denotes h.isPermutation h.denotes ho
  refine ⟨res, hrun, fun r hr => ?_⟩
  rw [← Multiset.mem_coe, hres] at hr
  obtain ⟨e, he, rfl⟩ := List.mem_map.mp (Multiset.mem_coe.mp hr)
  exact ⟨Trie.valid_of_mem_toList he, h.values.of_mem_toList he⟩

end BTree.Carries

end Pcv
