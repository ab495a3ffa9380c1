import Pcv.Library.TrieLevels
import Pcv.PartitionSort.TreeToRules
import Pcv.PartitionSort.UsedLevels

/-!
# A tree under another order of its unused levels

`WithinLevels bytes n` says where a tree with `n` levels in use may have keys: in front of
level `n`, or at level `0`, which every rule has; and a key behind the levels in use is a
wildcard.  A tree with such keys is the same tree under every order that tests the same
fields at the first `n` levels, and every packet finds the same value in it.

The rules of the tree need not be compatible here.
-/

namespace Pcv

open BTreeSearch DynamicMempool

variable {V : Type} {cfg : BTreeCfg} {mem : Store (Node V)} {bytes n lvl : ℕ}

/-- Where a tree with `n` levels in use may have a key. -/
def WithinLevels (bytes n lvl : ℕ) (k : Range1d) : Prop :=
  lvl < max 1 n ∧ (n ≤ lvl → k.isWildcard bytes = true)

theorem WithinLevels.mono {m : ℕ} {k : Range1d} (h : WithinLevels bytes n lvl k) (hnm : n ≤ m) :
    WithinLevels bytes m lvl k :=
  ⟨by have := h.1; omega, fun hm => h.2 (hnm.trans hm)⟩

/-- The keys of a compressed node lie one below the other. -/
theorem eachKey_thread {P : ℕ → Range1d → Prop} {xs : List (KeyInfo V)} {t : Trie Range1d V} :
    (thread xs t).EachKey P lvl ↔
      (∀ i x, xs[i]? = some x → P (lvl + i) x.key) ∧ t.EachKey P (lvl + xs.length) := by
  induction xs generalizing lvl with
  | nil => simp [thread]
  | cons x xs ih =>
      simp only [thread, Trie.EachKey, ih, and_true, List.length_cons]
      rw [show lvl + 1 + xs.length = lvl + (xs.length + 1) by omega, ← and_assoc]
      refine and_congr_left' ⟨fun h i y hy => ?_, fun h => ⟨h 0 x rfl, fun i y hy => ?_⟩⟩
      · cases i with
        | zero =>
            obtain rfl : x = y := by simpa using hy
            exact h.1
        | succ i =>
            rw [show lvl + (i + 1) = lvl + 1 + i by omega]
            exact h.2 i y (by simpa using hy)
      · rw [show lvl + 1 + i = lvl + (i + 1) by omega]
        exact h (i + 1) y (by simpa using hy)

section Reorder

variable {order order' : DimensionOrder cfg.D} {part : Part V} {t : Trie Range1d V}
  {fp : Multiset ℕ}

/-- The keys of a compressed node are all in front of the levels in use. -/
theorem level_lt_of_compressed {root : ℕ} {init : List (KeyInfo V)} {last : KeyInfo V}
    {next : Trie Range1d V} (hn : (mem.get root).CompressedNode cfg (.ofOrder order) lvl init last)
    (ht : (thread (init ++ [last]) next).EachKey (WithinLevels bytes n) lvl) :
    lvl + init.length < n := by
  have hleast : 2 ≤ init.length + 1 := hn.least_le
  have hlast := ((eachKey_thread.mp ht).1 init.length last (by simp)).1
  omega

/-- The tree stores the same under an order that agrees on the levels in use. -/
theorem Denotes.reorder (hd : Denotes cfg (.ofOrder order) mem lvl part t fp)
    (ht : t.EachKey (WithinLevels bytes n) lvl) (hk : ∀ i, i < n → order'[i]? = order[i]?) :
    Denotes cfg (.ofOrder order') mem lvl part t fp := by
  induction hd with
  | null => exact .null
  | layer hlvl hL hne ho _ ih => exact .layer hlvl hL hne ho (ih ht)
  | @compressed lvl root init last next fp hlvl hn _ ih =>
      have hlt := level_lt_of_compressed hn ht
      have hnext := (eachKey_thread.mp ht).2
      rw [List.length_append, List.length_singleton] at hnext
      refine .compressed hlvl { hn with dim := fun i hi => ?_ } (ih hnext)
      obtain ⟨f, hf, hdim⟩ := hn.dim i hi
      exact ⟨f, (hk _ (by omega)).trans hf, hdim⟩
  | nil => exact .nil
  | cons _ _ ih₁ ih₂ => exact .cons (ih₁ ht.2.1) (ih₂ ht.2.2)

/-! ## The search -/

/-- A node that begins with a wildcard is where the search for a value ends. -/
theorem searchPossition1d_wildcard {root depth v : ℕ} (hcnt : 0 < (mem.get root).keyCnt)
    (hkey : ((mem.get root).keys.get 0).isWildcard bytes = true)
    (hcompr : (mem.get root).isCompressed = false) (hv : v ≤ keyMax bytes) :
    searchPossition1d mem (.ofValue v) (depth + 1) (some root) = .ok (some (root, 0)) := by
  obtain ⟨cnt, hcnt⟩ : ∃ c, (mem.get root).keyCnt = c + 1 := ⟨(mem.get root).keyCnt - 1, by omega⟩
  rw [Range1d.isWildcard_iff] at hkey
  have hhit : (Probe.ofValue v).hit (Range1d.wildcard bytes) = true := by
    simpa [Probe.ofValue, Range1d.inRange, Range1d.wildcard] using hv
  have hlow : ¬ (Probe.ofValue v).point < (Range1d.wildcard bytes).low := by
    simp [Range1d.wildcard]
  have hseq : searchSeq (mem.get root).keys (mem.get root).keyCnt (.ofValue v) = ⟨0, true⟩ := by
    rw [searchSeq, hcnt, searchSeqFrom, hkey, if_neg hlow, if_pos hhit]
  simp [searchPossition1d, hcompr, hseq]

/-- The root of a layer holds the first key of some part of it. -/
theorem Layer.exists_root_key {h root : ℕ} {par : Option ℕ} {its : List (KeyInfo V)}
    (hL : Layer cfg mem h par root its fp) (hne : its ≠ []) :
    0 < (mem.get root).keyCnt ∧ ∃ x ∈ its, x.key = (mem.get root).keys.get 0 := by
  have hfirst : ∀ ks : List (KeyInfo V), ks ≠ [] → (mem.get root).Holds par ks →
      0 < (mem.get root).keyCnt ∧ ∃ x ∈ ks, x.key = (mem.get root).keys.get 0 := by
    intro ks hks hn
    have hpos := List.length_pos_of_ne_nil hks
    have hget := hn.getKey 0 hpos
    exact ⟨by rw [hn.keyCnt]; exact hpos, _, List.mem_of_getElem? hget, rfl⟩
  cases h with
  | zero =>
      obtain ⟨hleaf, -, -⟩ := hL
      exact hfirst its hne hleaf.toHolds
  | succ h =>
      obtain ⟨ks, cs, fp', hnode, hks, -, hch, -⟩ := hL
      obtain ⟨hcnt, x, hx, hkey⟩ := hfirst ks hks hnode.toHolds
      exact ⟨hcnt, x, hch.subset hx, hkey⟩

/-- The first test of a search has the same outcome under both orders. -/
theorem searchPossition1d_reorder {root depth : ℕ} (hkeep : ∀ i, i < n → order'[i]? = order[i]?)
    (hd : Denotes cfg (.ofOrder order) mem lvl (.link (some root)) t fp) (hcard : fp.card ≤ depth)
    (ht : t.EachKey (WithinLevels bytes n) lvl) {val : KeyVec cfg.D}
    (hval : ∀ d, val.get d ≤ keyMax bytes) {d d' : Fin cfg.D} (hord : order[lvl]? = some d)
    (hord' : order'[lvl]? = some d') :
    searchPossition1d mem (.ofValue (val.get d')) depth (some root) =
      searchPossition1d mem (.ofValue (val.get d)) depth (some root) := by
  rcases Nat.lt_or_ge lvl n with hlt | hge
  · rw [hkeep lvl hlt, hord] at hord'
    cases hord'
    rfl
  obtain ⟨depth, rfl⟩ : ∃ m, depth = m + 1 := by
    have := Multiset.card_pos_iff_exists_mem.mpr ⟨root, hd.root_mem⟩
    exact ⟨depth - 1, by omega⟩
  -- behind the levels in use there are wildcards only
  cases hd with
  | layer _ hL hne _ hits =>
      obtain ⟨hcnt, x, hx, hkey⟩ := hL.exists_root_key hne
      have hwild : ∀ k ∈ t.keys, k.isWildcard bytes = true := fun k hk => (ht.of_mem_keys hk).2 hge
      have hx : ((mem.get root).keys.get 0).isWildcard bytes = true := by
        rw [← hkey]
        refine hwild _ ?_
        rw [hits.keys_eq]
        exact List.mem_map_of_mem hx
      rw [searchPossition1d_wildcard hcnt hx hL.isCompressed (hval d'),
        searchPossition1d_wildcard hcnt hx hL.isCompressed (hval d)]
  | compressed _ hn _ =>
      have := level_lt_of_compressed hn ht
      omega

variable [RuleValue V]

/-- The walk through a compressed node ends in it or with the link of its last key. -/
theorem searchRestOfPathInCompressedNode_next {nd : Node V} {init : List (KeyInfo V)}
    {last : KeyInfo V} (hn : nd.CompressedNode cfg (.ofOrder order) lvl init last)
    (val : KeyVec cfg.D) (res : V) : ∃ s, searchRestOfPathInCompressedNode nd val res = .ok s ∧
      (s.nextN = none ∨ (s.nextN = last.nextLevel ∧ s.addToI = init.length + 1)) := by
  have hleast : 2 ≤ init.length + 1 := hn.least_le
  obtain ⟨x, init, rfl⟩ := List.exists_cons_of_length_pos (show 0 < init.length by omega)
  have hlen : nd.keyCnt - 1 = (init ++ [last]).length := by
    rw [hn.keyCnt]
    simp
  have hnil : last.nextLevel = none → (.nil : Trie Range1d V) = .nil := fun _ => rfl
  obtain ⟨s, hs, hnext⟩ := searchRestFrom_eq val hn hnil (init ++ [last]) [x] rfl (by simp)
    ⟨if isValid (nd.getKey 0).value then (nd.getKey 0).value else res, none, 0⟩ rfl
  refine ⟨s, ?_, hnext.imp And.left fun h => ⟨h.1, h.2.1⟩⟩
  rw [searchRestOfPathInCompressedNode, hlen]
  exact hs

/-- Every packet finds the same value under an order that agrees on the levels in use. -/
theorem searchFrom_reorder {val : KeyVec cfg.D} {depth : ℕ} {link : Option ℕ}
    (hkeep : ∀ i, i < n → order'[i]? = order[i]?) (hval : ∀ d, val.get d ≤ keyMax bytes)
    (hd : Denotes cfg (.ofOrder order) mem lvl (.link link) t fp) (hnd : fp.Nodup)
    (hcard : fp.card ≤ depth) (ht : t.EachKey (WithinLevels bytes n) lvl) {fuel : ℕ} (res : V) :
    searchFrom mem order' val depth fuel link lvl res =
      searchFrom mem order val depth fuel link lvl res := by
  induction fuel generalizing lvl link t fp res with
  | zero => cases link <;> rfl
  | succ fuel ih =>
      cases link with
      | none => rfl
      | some root =>
          have hlt := hd.level_lt
          have hord : order[lvl]? = some order[lvl] := by simp [hlt]
          have hord' : order'[lvl]? = some order'[lvl] := by simp [hlt]
          simp only [searchFrom, hord, hord', getVal_fin, Bind.bind, Except.bind]
          rw [searchPossition1d_reorder hkeep hd hcard ht hval hord hord']
          cases hd with
          | @layer _ h _ its _ fpL fpI hlvl hL hne ho hits =>
              have hh : h < depth := by
                have := hL.height_lt_card
                rw [Multiset.card_add] at hcard
                omega
              rcases hL.search (p := .ofValue (val.get order[lvl]))
                (Multiset.nodup_of_le (Multiset.le_add_right _ _) hnd) hh with
                ⟨m, i, L, x, R, hs, rfl, hkey, -⟩ | ⟨hs, -⟩
              · obtain ⟨A, next, B, fp₁, fpN, fp₂, rfl, rfl, -, hnext, -⟩ := hits.next
                have hlink : (mem.get m).nextLevel.get i = x.nextLevel := by
                  rw [← hkey.getKey]
                  rfl
                have hle : fpN ≤ fpL + (fp₁ + (fpN + fp₂)) :=
                  (Multiset.le_add_right _ _).trans
                    ((Multiset.le_add_left _ _).trans (Multiset.le_add_left _ _))
                simp only [hs, hkey.isCompressed, hkey.getKey, hlink]
                exact ih hnext (Multiset.nodup_of_le hle hnd)
                  ((Multiset.card_le_card hle).trans hcard) (Trie.eachKey_append.mp ht).2.2.1 _
              · simp only [hs]
          | @compressed _ _ init last next fpN hlvl hn hnext =>
              have hle : fpN ≤ root ::ₘ fpN := Multiset.le_cons_self _ _
              obtain ⟨depth, rfl⟩ : ∃ m, depth = m + 1 := by
                rw [Multiset.card_cons] at hcard
                exact ⟨depth - 1, by omega⟩
              have hpos : searchPossition1d mem (.ofValue (val.get order[lvl])) (depth + 1)
                  (some root) = .ok (if (Probe.ofValue (val.get order[lvl])).hit
                    ((mem.get root).keys.get 0) then some (root, 0) else none) := by
                simp only [searchPossition1d, hn.isCompressed, searchCompressedSeq, if_true]
                split <;> simp
              rw [hpos]
              cases (Probe.ofValue (val.get order[lvl])).hit ((mem.get root).keys.get 0) with
              | false => rfl
              | true =>
                  obtain ⟨s, hs, hnone | ⟨hlink, hadd⟩⟩ :=
                    searchRestOfPathInCompressedNode_next hn val res
                  · simp only [hn.isCompressed, if_true, hs, hnone]
                    cases fuel <;> rfl
                  · have hbelow := (eachKey_thread.mp ht).2
                    rw [List.length_append, List.length_singleton] at hbelow
                    simp only [hn.isCompressed, if_true, hs, hlink, hadd]
                    exact ih hnext (Multiset.nodup_of_le hle hnd)
                      ((Multiset.card_le_card hle).trans hcard) hbelow _

end Reorder

/-! ## The tree object -/

/-- The tree stores a trie with keys within the first `n` levels of its order. -/
structure BTree.Uses (cfg : BTreeCfg) (pool : NodeAllocator V) (t : BTree cfg.D) (n : ℕ)
    (trie : Trie Range1d V) (fp : Multiset ℕ) : Prop where
  isPermutation : t.dimensionOrder.IsPermutation
  holds : t.Holds cfg pool trie fp
  within : trie.EachKey (WithinLevels cfg.keyBytes n) 0

namespace BTree.Uses

variable {pool : NodeAllocator V} {t : BTree cfg.D} {trie : Trie Range1d V} {fp rest : Multiset ℕ}

theorem nil {order : DimensionOrder cfg.D} (hp : order.IsPermutation) (n : ℕ) :
    BTree.Uses cfg pool ⟨none, order⟩ n .nil 0 :=
  ⟨hp, .null, trivial⟩

theorem mono {m : ℕ} (h : t.Uses cfg pool n trie fp) (hnm : n ≤ m) : t.Uses cfg pool m trie fp :=
  { h with within := h.within.mono fun _ _ hk => hk.mono hnm }

theorem frame {pool' : NodeAllocator V} (h : t.Uses cfg pool n trie fp)
    (hagree : Store.Agree fp pool.mempool pool'.mempool) : t.Uses cfg pool' n trie fp :=
  { h with holds := h.holds.frame hagree }

/-- The fields behind the levels in use may change places. -/
theorem reorder {order' : DimensionOrder cfg.D} (h : t.Uses cfg pool n trie fp)
    (hk : t.dimensionOrder.KeepsFirst n order') :
    BTree.Uses cfg pool { t with dimensionOrder := order' } n trie fp where
  isPermutation := hk.isPermutation h.isPermutation
  holds := Denotes.reorder h.holds h.within hk.front
  within := h.within

variable [RuleValue V]

/-- The keys of a rule that uses no more levels are within them. -/
theorem withinLevels_of_insRule {r : RuleSpec cfg.D V} {trie' : Trie Range1d V}
    (h : t.Uses cfg pool n trie fp) (hr : r.UsesFirst cfg.keyBytes t.dimensionOrder n)
    (hins : InsRule cfg t.dimensionOrder r trie trie') :
    trie'.EachKey (WithinLevels cfg.keyBytes n) 0 := by
  refine hins.eachKey h.within fun i k hi hk => ?_
  have hlen : i < cfg.D := by simpa using (List.getElem?_eq_some_iff.mp hk).1
  have hat : t.dimensionOrder[i]? = some t.dimensionOrder[i] := by simp [hlen]
  rw [r.getElem?_sequence t.dimensionOrder hlen, rangeAt_eq hat] at hk
  obtain rfl := Option.some.inj hk
  rw [Nat.zero_add]
  exact ⟨hi.trans_le hr.keyLength_le, fun hn => hr i _ hn hat⟩

/-- A rule that uses no more levels is inserted within them. -/
theorem ensures_insert {r : RuleSpec cfg.D V} (hT : 2 ≤ cfg.T) (hD : 0 < cfg.D)
    (h : t.Uses cfg pool n trie fp) (hr : r.UsesFirst cfg.keyBytes t.dimensionOrder n)
    (ho : Owns pool (fp + rest)) :
    Ensures OnlyBadAlloc (t.insert cfg r) pool fun t' pool' => ∃ trie' fp',
      t'.Uses cfg pool' n trie' fp' ∧ Owns pool' (fp' + rest) ∧
        Store.Agree rest pool.mempool pool'.mempool ∧ t'.dimensionOrder = t.dimensionOrder := by
  refine (BTree.ensures_insert hT hD h.holds ho).mono ?_
  rintro t' pool' ⟨trie', fp', hins, ht', ho', hagree, -, hord⟩
  exact ⟨trie', fp', ⟨hord ▸ h.isPermutation, ht', h.withinLevels_of_insRule hr hins⟩, ho', hagree,
    hord⟩

/-- A search finds the same under an order that agrees on the levels in use. -/
theorem search_reorder {order' : DimensionOrder cfg.D} (h : t.Uses cfg pool n trie fp)
    (ho : Owns pool (fp + rest)) (hk : t.dimensionOrder.KeepsFirst n order') {val : KeyVec cfg.D}
    (hval : ∀ d, val.get d ≤ keyMax cfg.keyBytes) :
    BTree.search cfg pool { t with dimensionOrder := order' } val = t.search cfg pool val := by
  have hcard := ho.card_le
  rw [Multiset.card_add] at hcard
  refine searchFrom_reorder hk.front hval h.holds
    (Multiset.nodup_of_le (Multiset.le_add_right _ _) ho.nodup) ?_ h.within _
  simp only [callDepth]
  omega

/-- The rules that can be extracted use no other levels. -/
theorem toRules_usesFirst (h : t.Uses cfg pool n trie fp) (ho : Owns pool (fp + rest)) :
    ∃ rules, t.toRules cfg pool = .ok rules ∧
      ∀ r ∈ rules, r.UsesFirst cfg.keyBytes t.dimensionOrder n := by
  have hp := h.isPermutation
  set any := Vector.replicate cfg.D (Range1d.wildcard cfg.keyBytes) with hany
  have hwild : Wild cfg.keyBytes t.dimensionOrder 0 any := wild_replicate _ _
  obtain ⟨res, hrun, hres⟩ := BTree.toRules_of_denotes hp h.holds ho
  refine ⟨res, hrun, fun r hr i d hi hd => ?_⟩
  rw [← Multiset.mem_coe, hres, ← hany] at hr
  obtain ⟨e, he, rfl⟩ := List.mem_map.mp (Multiset.mem_coe.mp hr)
  show ((pathWith t.dimensionOrder 0 e.1 any).get d).isWildcard cfg.keyBytes = true
  rcases Nat.lt_or_ge i e.1.length with hlt | hge
  · -- the level has a key, which is a wildcard
    have hk : e.1[i]? = some e.1[i] := by simp [hlt]
    have hself := setAt_pathWith_self hp e.1 0 i _ any hk
    rw [Nat.zero_add, setAt_eq_self_iff hd] at hself
    rw [hself]
    have hkey := h.within.of_mem_toList he hk
    exact hkey.2 (by rwa [Nat.zero_add])
  · have hbehind := hwild.pathWith hp e.1
    rw [Nat.zero_add] at hbehind
    rw [(setAt_eq_self_iff hd).mp (hbehind i hge), Range1d.isWildcard_iff]

end BTree.Uses

end Pcv
