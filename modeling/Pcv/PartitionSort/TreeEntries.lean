import Pcv.Library.TrieEntries
import Pcv.PartitionSort.TreeLevels

/-!
# What a tree stores for which rule

`BTree.Traces` says of a tree that every valid value in it is the value of one of some rules, and
stands under as many ranges of this rule as the rule needs.  The rules need not be compatible: no
insertion puts a value anywhere else, whatever it meets on its way.

So a search finds nothing but values of rules that match the packet, and nothing can be extracted
but these rules.
-/

namespace Pcv

open BTreeSearch DynamicMempool

variable {V : Type} {cfg : BTreeCfg} {mem : Store (Node V)} {lvl : ℕ}
  {P : List Range1d → V → Prop} {front : List Range1d}

theorem eachEntry_thread {xs : List (KeyInfo V)} {t : Trie Range1d V} :
    (thread xs t).EachEntry P front ↔
      (∀ L x R, xs = L ++ x :: R → P (front ++ L.map KeyInfo.key ++ [x.key]) x.value) ∧
        t.EachEntry P (front ++ xs.map KeyInfo.key) := by
  induction xs generalizing front with
  | nil => simp [thread]
  | cons y xs ih =>
      simp only [thread, Trie.EachEntry, ih, and_true, ← and_assoc]
      refine and_congr ⟨?_, fun h => ⟨?_, fun L x R heq => ?_⟩⟩ (by simp)
      · rintro ⟨hy, h⟩ L x R heq
        cases L with
        | nil =>
            obtain ⟨rfl, rfl⟩ := List.cons.inj heq
            simpa using hy
        | cons a L =>
            obtain ⟨rfl, rfl⟩ := List.cons.inj heq
            simpa using h L x R rfl
      · simpa using h [] y xs rfl
      · simpa using h (y :: L) x R (by rw [heq]; rfl)

variable [RuleValue V]

/-! ## The search -/

section Search

variable {order : DimensionOrder cfg.D} {val : KeyVec cfg.D} {R : V → Prop}

/-- The walk through a compressed node takes values only from keys that it has hit together with
all those before, and goes on behind the node only if it has hit all of them. -/
theorem searchRestFrom_entries {nd : Node V} {init : List (KeyInfo V)} {last : KeyInfo V}
    (hn : nd.CompressedNode cfg (.ofOrder order) lvl init last)
    (hvalues : ∀ L x S, init ++ [last] = L ++ x :: S →
      (∀ i y, (L ++ [x])[i]? = some y → hitsAt order val (lvl + i) y.key = true) → R x.value)
    (suf pre : List (KeyInfo V)) (hsuf : init ++ [last] = pre ++ suf) (hne : suf ≠ [])
    (hpre : ∀ i y, pre[i]? = some y → hitsAt order val (lvl + i) y.key = true)
    (s : RestOfPath V) (hs : s.nextN = none) (hres : R s.res) :
    ∃ s', searchRestFrom nd val suf.length pre.length s = .ok s' ∧ R s'.res ∧
      (s'.nextN = none ∨ s'.nextN = last.nextLevel ∧ s'.addToI = init.length + 1 ∧
        ∀ i y, (init ++ [last])[i]? = some y → hitsAt order val (lvl + i) y.key = true) := by
  induction suf generalizing pre s with
  | nil => exact absurd rfl hne
  | cons x suf ih =>
      have hlen : pre.length + suf.length = init.length := by
        have := congrArg List.length hsuf
        simp at this
        omega
      have hx : nd.getKey pre.length = x := by
        have := hn.getKey pre.length (by omega)
        simpa [hsuf] using this.symm
      obtain ⟨f, hf, hdim⟩ := hn.dim pre.length (by omega)
      have hhit : hitsAt order val (lvl + pre.length) x.key = x.key.inRange (val.get f) := by
        simp [hitsAt, hf]
      have hget : getVal val (nd.getDim pre.length) = .ok (val.get f) := by
        rw [← hdim, getVal_fin]
      cases hin : x.key.inRange (val.get f) with
      | false =>
          refine ⟨s, ?_, hres, .inl hs⟩
          simp [searchRestFrom, hget, hx, hin, Bind.bind, Except.bind, Pure.pure, Except.pure]
      | true =>
          have hall : ∀ i y, (pre ++ [x])[i]? = some y → hitsAt order val (lvl + i) y.key = true := by
            intro i y hy
            rcases Nat.lt_or_ge i pre.length with hi | hi
            · exact hpre i y (by rwa [List.getElem?_append_left hi] at hy)
            · have hi' := (List.getElem?_eq_some_iff.mp hy).1
              simp only [List.length_append, List.length_singleton] at hi'
              obtain rfl : i = pre.length := by omega
              obtain rfl : x = y := by simpa using hy
              rw [hhit, hin]
          have hres' : R (if isValid x.value then x.value else s.res) := by
            split
            · exact hvalues pre x suf hsuf hall
            · exact hres
          cases suf with
          | nil =>
              obtain ⟨rfl, rfl⟩ : init = pre ∧ last = x := by
                simpa using hsuf
              have hlink : nd.nextLevel.get init.length = last.nextLevel := by
                rw [← hx]
                rfl
              cases hl : last.nextLevel with
              | none =>
                  refine ⟨{ s with res := if isValid last.value then last.value else s.res }, ?_,
                    hres', .inl hs⟩
                  simp [searchRestFrom, hget, hx, hin, hlink, hl, Bind.bind, Except.bind]
              | some nx =>
                  refine ⟨⟨if isValid last.value then last.value else s.res, some nx,
                    init.length + 1⟩, ?_, hres', .inr ⟨rfl, rfl, hall⟩⟩
                  simp [searchRestFrom, hget, hx, hin, hlink, hl, Bind.bind, Except.bind]
          | cons y suf =>
              have hxi : x ∈ init := by
                have h₁ : init[pre.length]? = some x := by
                  have : (init ++ [last])[pre.length]? = some x := by simp [hsuf]
                  rwa [List.getElem?_append_left (by simp at hlen; omega)] at this
                exact List.mem_of_getElem? h₁
              have hlink : nd.nextLevel.get pre.length = none := by
                rw [← hn.nextLevel x hxi, ← hx]
                rfl
              obtain ⟨s', hs', h'⟩ := ih (pre ++ [x]) (by simp [hsuf]) (by simp) hall
                { s with res := if isValid x.value then x.value else s.res } hs hres'
              refine ⟨s', ?_, h'⟩
              rw [← hs']
              simp [searchRestFrom, hget, hx, hin, hlink, Bind.bind, Except.bind]

omit [RuleValue V] in
/-- A search compares only the first key of a compressed node. -/
theorem searchPossition1d_compressed {sh : CompressedShape} {root : ℕ} {init : List (KeyInfo V)}
    {last : KeyInfo V} (hn : (mem.get root).CompressedNode cfg sh lvl init last) :
    ∃ x suf, init ++ [last] = x :: suf ∧ suf.length = init.length ∧
      (mem.get root).getKey 0 = x ∧ ∀ v depth, searchPossition1d mem (.ofValue v) (depth + 1)
        (some root) = .ok (if x.key.inRange v then some (root, 0) else none) := by
  obtain ⟨x, suf, hxs⟩ : ∃ x suf, init ++ [last] = x :: suf := by
    cases init with
    | nil => exact ⟨last, [], rfl⟩
    | cons x init => exact ⟨x, init ++ [last], rfl⟩
  have hlen : suf.length = init.length := by
    have := congrArg List.length hxs
    simp only [List.length_append, List.length_cons, List.length_nil] at this
    omega
  have hx : (mem.get root).getKey 0 = x := by
    have := hn.getKey 0 (by omega)
    simpa [hxs] using this.symm
  have hx0 : (mem.get root).keys.get 0 = x.key := by
    rw [← hx]
    rfl
  refine ⟨x, suf, hxs, hlen, hx, fun v depth => ?_⟩
  simp only [searchPossition1d, hn.isCompressed, searchCompressedSeq, hx0, Probe.ofValue, if_true]
  cases x.key.inRange v <;> simp

/-- The walk through a compressed node whose first key was hit. -/
theorem searchRest_entries {nd : Node V} {init suf : List (KeyInfo V)} {last x : KeyInfo V}
    (hn : nd.CompressedNode cfg (.ofOrder order) lvl init last)
    (hvalues : ∀ L y S, init ++ [last] = L ++ y :: S →
      (∀ i z, (L ++ [y])[i]? = some z → hitsAt order val (lvl + i) z.key = true) → R y.value)
    (hxs : init ++ [last] = x :: suf) (hlen : suf.length = init.length) (hx : nd.getKey 0 = x)
    (hhit : hitsAt order val lvl x.key = true) {res : V} (hres : R res) :
    ∃ s', searchRestOfPathInCompressedNode nd val res = .ok s' ∧ R s'.res ∧
      (s'.nextN = none ∨ s'.nextN = last.nextLevel ∧ s'.addToI = init.length + 1 ∧
        ∀ i y, (init ++ [last])[i]? = some y → hitsAt order val (lvl + i) y.key = true) := by
  have hleast : 2 ≤ init.length + 1 := hn.least_le
  have hfirst : ∀ i y, [x][i]? = some y → hitsAt order val (lvl + i) y.key = true := by
    intro i y hy
    obtain ⟨rfl, rfl⟩ : i = 0 ∧ x = y := by
      cases i <;> simp_all
    exact hhit
  have hstart : R (if isValid x.value then x.value else res) := by
    split
    · exact hvalues [] x suf hxs hfirst
    · exact hres
  have hne : suf ≠ [] := by
    rintro rfl
    simp at hlen
    omega
  rw [searchRestOfPathInCompressedNode, hn.keyCnt, hx, Nat.add_sub_cancel, ← hlen]
  have hrest := searchRestFrom_entries hn hvalues suf [x] hxs hne hfirst
    ⟨if isValid x.value then x.value else res, none, 0⟩ rfl hstart
  rwa [← hlen] at hrest

variable {depth : ℕ} {t : Trie Range1d V} {fp : Multiset ℕ}

/-- A search ends, and finds a value under keys that the packet hits, or nothing. -/
theorem searchFrom_entries (hPR : ∀ π v, Trie.Hits (hitsAt order val) 0 π → P π v → R v)
    {link : Option ℕ} (hd : Denotes cfg (.ofOrder order) mem lvl (.link link) t fp)
    (hnd : fp.Nodup) (hcard : fp.card ≤ depth) (ht : t.EachEntry P front)
    (hlen : front.length = lvl) (hfront : Trie.Hits (hitsAt order val) 0 front) {fuel : ℕ}
    (hfuel : cfg.D < lvl + fuel) {res : V} (hres : R res) :
    ∃ v, searchFrom mem order val depth fuel link lvl res = .ok v ∧ R v := by
  induction fuel generalizing lvl link t fp front res with
  | zero =>
      cases link with
      | none => exact ⟨res, rfl, hres⟩
      | some root =>
          have := hd.level_lt
          omega
  | succ fuel ih =>
      cases link with
      | none => exact ⟨res, rfl, hres⟩
      | some root =>
          have hlt := hd.level_lt
          rw [searchFrom_some hlt]
          cases hd with
          | @layer _ h _ its _ fpL fpI _ hL _ _ hits =>
              have hh : h < depth := by
                have := hL.height_lt_card
                rw [Multiset.card_add] at hcard
                omega
              rcases hL.search (p := .ofValue (val.get order[lvl]))
                (Multiset.nodup_of_le (Multiset.le_add_right _ _) hnd) hh with
                ⟨m, i, L, x, S, hs, rfl, hkey, hhit⟩ | ⟨hs, -⟩
              · obtain ⟨A, next, B, fp₁, fpN, fp₂, rfl, rfl, -, hnext, -⟩ := hits.next
                obtain ⟨-, hx, hbelow, -⟩ := Trie.eachEntry_append.mp ht
                have hlink : (mem.get m).nextLevel.get i = x.nextLevel := by
                  rw [← hkey.getKey]
                  rfl
                have hle : fpN ≤ fpL + (fp₁ + (fpN + fp₂)) :=
                  (Multiset.le_add_right _ _).trans
                    ((Multiset.le_add_left _ _).trans (Multiset.le_add_left _ _))
                have hfront' : Trie.Hits (hitsAt order val) 0 (front ++ [x.key]) := by
                  refine Trie.hits_append.mpr ⟨hfront, ?_, trivial⟩
                  rw [hlen, Nat.zero_add, hitsAt_of_lt order val hlt]
                  exact hhit
                simp only [hs, Bind.bind, Except.bind, hkey.isCompressed, hkey.getKey, hlink]
                refine ih hnext (Multiset.nodup_of_le hle hnd)
                  ((Multiset.card_le_card hle).trans hcard) hbelow (by simp [hlen]) hfront'
                    (by omega) ?_
                split
                · exact hPR _ _ hfront' hx
                · exact hres
              · simp only [hs, Bind.bind, Except.bind]
                exact ⟨res, rfl, hres⟩
          | @compressed _ _ init last next fpN _ hn hnext =>
              obtain ⟨hvalues, hbelow⟩ := eachEntry_thread.mp ht
              -- keys of the node that are hit go on from the keys in front of it
              have hhits : ∀ L : List (KeyInfo V),
                  (∀ i y, L[i]? = some y → hitsAt order val (lvl + i) y.key = true) →
                    Trie.Hits (hitsAt order val) 0 (front ++ L.map KeyInfo.key) := by
                intro L hL
                rw [Trie.hits_append, hlen, Nat.zero_add]
                refine ⟨hfront, Trie.hits_iff.mpr fun i k hk => ?_⟩
                rw [List.getElem?_map, Option.map_eq_some_iff] at hk
                obtain ⟨y, hy, rfl⟩ := hk
                exact hL i y hy
              have hle : fpN ≤ root ::ₘ fpN := Multiset.le_cons_self _ _
              obtain ⟨depth, rfl⟩ : ∃ m, depth = m + 1 := by
                rw [Multiset.card_cons] at hcard
                exact ⟨depth - 1, by omega⟩
              obtain ⟨x, suf, hxs, hlens, hx, hs⟩ := searchPossition1d_compressed hn
              rw [hs]
              cases hin : x.key.inRange (val.get order[lvl]) with
              | false => exact ⟨res, rfl, hres⟩
              | true =>
                  obtain ⟨s', hrest, hres', hend⟩ := searchRest_entries hn (R := R)
                    (fun L y S heq hL => hPR _ _ (hhits _ hL) (by simpa using hvalues L y S heq))
                    hxs hlens hx ((hitsAt_of_lt order val hlt x.key).trans hin) hres
                  simp only [Bind.bind, Except.bind, hn.isCompressed, hrest, if_true]
                  rcases hend with hnone | ⟨hlink, hadd, hall⟩
                  · rw [hnone]
                    exact ⟨s'.res, by simp [searchFrom], hres'⟩
                  · rw [hlink, hadd]
                    exact ih hnext (Multiset.nodup_of_le hle hnd)
                      ((Multiset.card_le_card hle).trans hcard) hbelow (by simp [hlen]; omega)
                        (hhits _ hall) (by omega) hres'

end Search

/-! ## The tree object -/

/-- A valid value is the value of one of the rules, and stands under as many of its ranges as the
rule needs. -/
def StoredFor {D : ℕ} (bytes : ℕ) (order : DimensionOrder D) (S : RuleSpec D V → Prop)
    (π : List Range1d) (v : V) : Prop :=
  isValid v = true → ∃ r, S r ∧ r.second = v ∧ π <+: r.sequence order ∧
    r.keyLength bytes order ≤ π.length

/-- The tree stores nothing but values of the rules, each of which uses the first `n` levels. -/
structure BTree.Traces (cfg : BTreeCfg) (pool : NodeAllocator V) (t : BTree cfg.D) (n : ℕ)
    (S : RuleSpec cfg.D V → Prop) (trie : Trie Range1d V) (fp : Multiset ℕ) : Prop
    extends t.Uses cfg pool n trie fp where
  entries : trie.EachEntry (StoredFor cfg.keyBytes t.dimensionOrder fun r =>
    S r ∧ r.UsesFirst cfg.keyBytes t.dimensionOrder n) []

namespace BTree.Traces

variable {pool : NodeAllocator V} {t : BTree cfg.D} {n : ℕ} {S S' : RuleSpec cfg.D V → Prop}
  {trie : Trie Range1d V} {fp rest : Multiset ℕ}

theorem nil {order : DimensionOrder cfg.D} (hp : order.IsPermutation) (n : ℕ) :
    BTree.Traces cfg pool ⟨none, order⟩ n S .nil 0 :=
  ⟨.nil hp n, trivial⟩

theorem frame {pool' : NodeAllocator V} (h : t.Traces cfg pool n S trie fp)
    (hagree : Store.Agree fp pool.mempool pool'.mempool) : t.Traces cfg pool' n S trie fp :=
  ⟨h.toUses.frame hagree, h.entries⟩

theorem mono {m : ℕ} (h : t.Traces cfg pool n S trie fp) (hnm : n ≤ m) (hS : ∀ r, S r → S' r) :
    t.Traces cfg pool m S' trie fp where
  toUses := h.toUses.mono hnm
  entries := h.entries.mono fun _ _ he hv => by
    obtain ⟨r, ⟨hr, huses⟩, h'⟩ := he hv
    exact ⟨r, ⟨hS r hr, huses.mono hnm⟩, h'⟩

/-- The fields behind the levels in use may change places. -/
theorem reorder {order' : DimensionOrder cfg.D} (h : t.Traces cfg pool n S trie fp)
    (hk : t.dimensionOrder.KeepsFirst n order') :
    BTree.Traces cfg pool { t with dimensionOrder := order' } n S trie fp where
  toUses := h.toUses.reorder hk
  entries := h.entries.mono fun _ _ he hv => by
    obtain ⟨r, ⟨hr, huses⟩, hval, hprefix, hlen⟩ := he hv
    have hseq := huses.sequence_eq h.isPermutation hk
    refine ⟨r, ⟨hr, huses.reorder h.isPermutation hk⟩, hval, hseq ▸ hprefix, ?_⟩
    rwa [RuleSpec.keyLength, hseq]

/-- The insertion of one of the rules, whatever is in its way. -/
theorem ensures_insert {r : RuleSpec cfg.D V} (hT : 2 ≤ cfg.T) (hD : 0 < cfg.D)
    (hpc : cfg.pathCompression = true) (h : t.Traces cfg pool n S trie fp) (hr : S r)
    (huses : r.UsesFirst cfg.keyBytes t.dimensionOrder n) (ho : Owns pool (fp + rest)) :
    Ensures OnlyBadAlloc (t.insert cfg r) pool fun t' pool' => ∃ trie' fp',
      t'.Traces cfg pool' n S trie' fp' ∧ Owns pool' (fp' + rest) ∧
        Store.Agree rest pool.mempool pool'.mempool ∧ t'.dimensionOrder = t.dimensionOrder := by
  refine (BTree.ensures_insert hT hD h.holds ho).mono ?_
  rintro t' pool' ⟨trie', fp', hins, ht', ho', hagree, -, hord⟩
  refine ⟨trie', fp', ⟨⟨hord ▸ h.isPermutation, ht', h.withinLevels_of_insRule huses hins⟩, ?_⟩, ho',
    hagree, hord⟩
  have hfill : fillValue cfg r.second = RuleValue.invalid := by simp [fillValue, hpc]
  rw [InsRule, hfill] at hins
  rw [hord]
  have hinvalid : ∀ π, StoredFor cfg.keyBytes t.dimensionOrder
      (fun r => S r ∧ r.UsesFirst cfg.keyBytes t.dimensionOrder n) π (RuleValue.invalid : V) := by
    intro π hv
    simp at hv
  refine hins.eachEntry h.entries hinvalid hinvalid fun m _ hm _ => ?_
  refine ⟨r, ⟨hr, huses⟩, rfl, ?_, ?_⟩
  · exact List.take_prefix _ _
  · have hle : r.keyLength cfg.keyBytes t.dimensionOrder ≤ cfg.D := by
      have := keyLength_le cfg.keyBytes (by simpa using hD : 0 < (r.sequence t.dimensionOrder).length)
      rwa [RuleSpec.length_sequence] at this
    rw [List.nil_append, List.length_take, RuleSpec.length_sequence]
    exact le_min hm hle

/-- A search finds the value of one of the rules that matches the packet, or nothing. -/
theorem search (h : t.Traces cfg pool n S trie fp) (ho : Owns pool (fp + rest))
    {val : KeyVec cfg.D} (hval : ∀ d, val.get d ≤ keyMax cfg.keyBytes) :
    ∃ v, t.search cfg pool val = .ok v ∧
      (isValid v = true → ∃ r, S r ∧ r.Matches val ∧ r.second = v) := by
  have hcard := ho.card_le
  rw [Multiset.card_add] at hcard
  refine searchFrom_entries (fun π v hhits hstored hv => ?_) h.holds
    (Multiset.nodup_of_le (Multiset.le_add_right _ _) ho.nodup) ?_ h.entries rfl trivial ?_ ?_
  · obtain ⟨r, ⟨hr, -⟩, hval', hprefix, hlen⟩ := hstored hv
    refine ⟨r, hr, ?_, hval'⟩
    rw [← r.hits_sequence h.isPermutation val]
    have hone : (r.sequence t.dimensionOrder, r.second) ∈ Pcv.entries t.dimensionOrder [r] :=
      List.mem_singleton_self _
    exact (hits_iff_of_keyLength_le hval _ hone π hprefix hlen).mp hhits
  · simp only [callDepth]
    omega
  · simp only [callDepth]
    omega
  · intro hv
    simp at hv

/-- Nothing but the rules can be extracted. -/
theorem toRules (h : t.Traces cfg pool n S trie fp) (ho : Owns pool (fp + rest)) :
    ∃ rules, t.toRules cfg pool = .ok rules ∧ ∀ r ∈ rules, S r := by
  obtain ⟨res, hrun, hres⟩ := BTree.toRules_of_denotes h.isPermutation h.holds ho
  refine ⟨res, hrun, fun r hr => ?_⟩
  rw [← Multiset.mem_coe, hres] at hr
  obtain ⟨e, he, rfl⟩ := List.mem_map.mp (Multiset.mem_coe.mp hr)
  obtain ⟨s, ⟨hs, -⟩, hval, hprefix, hlen⟩ :=
    h.entries.of_mem_toList he (Trie.valid_of_mem_toList he)
  rw [List.nil_append] at hprefix hlen
  rwa [pathWith_eq_first h.isPermutation hprefix hlen, ← hval]

end BTree.Traces

/-! ## Any rules one after another -/

omit [RuleValue V] in
/-- All the levels are in use. -/
theorem RuleSpec.usesFirst_all {D : ℕ} (bytes : ℕ) (order : DimensionOrder D) (r : RuleSpec D V) :
    r.UsesFirst bytes order D := by
  intro i d hi hd
  have := (Vector.getElem?_eq_some_iff.mp hd).1
  omega

/-- Two boxes that overlap in both fields. -/
private abbrev overlapping : List (RuleSpec 2 RuleValueInt) :=
  [⟨.ofFn fun _ => ⟨2, 9⟩, RuleValueInt.make 1 1⟩, ⟨.ofFn fun _ => ⟨5, 12⟩, RuleValueInt.make 2 2⟩]

end Pcv
