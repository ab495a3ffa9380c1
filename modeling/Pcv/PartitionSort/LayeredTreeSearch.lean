import Pcv.PartitionSort.LayeredTree

/-!
# The search in a layered tree

The walk of `search` through the nodes is the search in the trie that the tree
stores.  It never leaves the levels of the tree: a level at `D` or behind it would
be the fault `outOfRange`.
-/

namespace Pcv

open BTreeSearch

variable {V : Type} [RuleValue V] {cfg : BTreeCfg} {mem : Store (Node V)}

/-- Compressed nodes as the insertion makes them: at least two keys, and with each key
the field that the order tests at its level. -/
def CompressedShape.ofOrder {D : ℕ} (order : DimensionOrder D) : CompressedShape where
  dim lvl d := ∃ f, order[lvl]? = some f ∧ f.val = d
  least := 2

/-- Whether the packet lies in a range at a level. -/
def hitsAt {D : ℕ} (order : DimensionOrder D) (val : KeyVec D) (lvl : ℕ) (k : Range1d) : Bool :=
  match order[lvl]? with
  | some d => k.inRange (val.get d)
  | none => false

theorem hitsAt_of_lt {D : ℕ} (order : DimensionOrder D) (val : KeyVec D) {lvl : ℕ} (h : lvl < D)
    (k : Range1d) : hitsAt order val lvl k = k.inRange (val.get order[lvl]) := by
  simp [hitsAt, h]

/-- A packet lies in no two ranges of which one is before the other. -/
theorem hitsAt_separated {D : ℕ} (order : DimensionOrder D) (val : KeyVec D) (lvl : ℕ)
    (a b : Range1d) (hab : a.Before b) (ha : hitsAt order val lvl a = true) :
    hitsAt order val lvl b = false := by
  unfold hitsAt at *
  split
  · next d hd =>
      rw [hd] at ha
      exact hab.not_inRange ha
  · rfl

theorem getVal_fin {D : ℕ} (val : KeyVec D) (d : Fin D) : getVal val d = .ok (val.get d) := by
  simp [getVal, Vector.get]

omit [RuleValue V] in
/-- In a separated layer the search for a value finds its key. -/
theorem selects_ofValue {its : List (KeyInfo V)} {v : ℕ}
    (h : (its.map KeyInfo.key).Pairwise Range1d.Before) : (Probe.ofValue v).Selects its := by
  rintro L x R rfl hhit
  obtain ⟨hlow, hhigh⟩ : x.key.low ≤ v ∧ v ≤ x.key.high := by simpa [Probe.ofValue] using hhit
  refine ⟨hlow, fun y hy => ?_⟩
  simp only [List.map_append, List.map_cons, List.pairwise_append, List.pairwise_cons] at h
  exact hhigh.trans_lt (h.2.1.1 y.key (List.mem_map_of_mem hy)).2

/-- The walk through the rest of a compressed node is the search in the trie of these
keys; when it reaches the end of the node, it goes on with the link of the last key. -/
theorem searchRestFrom_eq {order : DimensionOrder cfg.D} (val : KeyVec cfg.D) {lvl : ℕ}
    {nd : Node V} {init : List (KeyInfo V)} {last : KeyInfo V} {next : Trie Range1d V}
    (hn : nd.CompressedNode cfg (.ofOrder order) lvl init last)
    (hnext : last.nextLevel = none → next = .nil)
    (suf pre : List (KeyInfo V)) (hsuf : init ++ [last] = pre ++ suf) (hne : suf ≠ [])
    (s : RestOfPath V) (hs : s.nextN = none) :
    ∃ s', searchRestFrom nd val suf.length pre.length s = .ok s' ∧
      ((s'.nextN = none ∧
        (thread suf next).search (hitsAt order val) isValid (lvl + pre.length) s.res = s'.res) ∨
      (s'.nextN = last.nextLevel ∧ s'.addToI = init.length + 1 ∧
        (thread suf next).search (hitsAt order val) isValid (lvl + pre.length) s.res =
          next.search (hitsAt order val) isValid (lvl + init.length + 1) s'.res)) := by
  induction suf generalizing pre s with
  | nil => exact absurd rfl hne
  | cons x suf ih =>
      have hlen : pre.length + suf.length = init.length := by
        have := congrArg List.length hsuf
        simp at this
        omega
      have hx : nd.getKey pre.length = x := by
        have := hn.getKey pre.length (by omega)
        simpa [hsuf] using this.symm
      obtain ⟨f, hf, hdim⟩ := hn.dim pre.length (by omega)
      have hhit : hitsAt order val (lvl + pre.length) x.key = x.key.inRange (val.get f) := by
        simp [hitsAt, hf]
      have hget : getVal val (nd.getDim pre.length) = .ok (val.get f) := by
        rw [← hdim, getVal_fin]
      cases hin : x.key.inRange (val.get f) with
      | false =>
          refine ⟨s, ?_, .inl ⟨hs, ?_⟩⟩
          · simp [searchRestFrom, hget, hx, hin, Bind.bind, Except.bind, Pure.pure, Except.pure]
          · simp [thread, Trie.search, hhit, hin]
      | true =>
          have hsearch : (thread (x :: suf) next).search (hitsAt order val) isValid
              (lvl + pre.length) s.res = (thread suf next).search (hitsAt order val) isValid
                (lvl + (pre ++ [x]).length) (if isValid x.value then x.value else s.res) := by
            simp [thread, Trie.search, hhit, hin, Nat.add_assoc]
          cases suf with
          | nil =>
              obtain ⟨rfl, rfl⟩ : init = pre ∧ last = x := by
                simpa using hsuf
              have hlink : nd.nextLevel.get init.length = last.nextLevel := by
                rw [← hx]
                rfl
              cases hl : last.nextLevel with
              | none =>
                  refine ⟨{ s with res := if isValid last.value then last.value else s.res }, ?_,
                    .inl ⟨hs, ?_⟩⟩
                  · simp [searchRestFrom, hget, hx, hin, hlink, hl, Bind.bind, Except.bind]
                  · rw [hsearch, hnext hl]
                    rfl
              | some nx =>
                  refine ⟨⟨if isValid last.value then last.value else s.res, some nx,
                    init.length + 1⟩, ?_, .inr ⟨rfl, rfl, ?_⟩⟩
                  · simp [searchRestFrom, hget, hx, hin, hlink, hl, Bind.bind, Except.bind]
                  · rw [hsearch]
                    simp [thread, Nat.add_assoc]
          | cons y suf =>
              have hxi : x ∈ init := by
                have h₁ : init[pre.length]? = some x := by
                  have : (init ++ [last])[pre.length]? = some x := by simp [hsuf]
                  rwa [List.getElem?_append_left (by simp at hlen; omega)] at this
                exact List.mem_of_getElem? h₁
              have hlink : nd.nextLevel.get pre.length = none := by
                rw [← hn.nextLevel x hxi, ← hx]
                rfl
              obtain ⟨s', hs', hres⟩ := ih (pre ++ [x]) (by simp [hsuf]) (by simp)
                { s with res := if isValid x.value then x.value else s.res } hs
              refine ⟨s', ?_, ?_⟩
              · rw [← hs']
                simp [searchRestFrom, hget, hx, hin, hlink, Bind.bind, Except.bind]
              · rw [hsearch]
                exact hres

/-- One turn of `search` at a level of the tree. -/
theorem searchFrom_some {D : ℕ} {order : DimensionOrder D} {val : KeyVec D} {lvl : ℕ}
    (hlvl : lvl < D) (depth fuel root : ℕ) (res : V) :
    searchFrom mem order val depth (fuel + 1) (some root) lvl res =
      (do
        match ← searchPossition1d mem (.ofValue (val.get order[lvl])) depth (some root) with
        | none => return res
        | some (n, index) =>
            let nd := mem.get n
            if nd.isCompressed then
              let s ← searchRestOfPathInCompressedNode nd val res
              searchFrom mem order val depth fuel s.nextN (lvl + s.addToI) s.res
            else
              let v := (nd.getKey index).value
              searchFrom mem order val depth fuel (nd.nextLevel.get index) (lvl + 1)
                (if isValid v then v else res)) := by
  have hord : order[lvl]? = some order[lvl] := by simp [hlvl]
  simp only [searchFrom, hord, getVal_fin]
  rfl

omit [RuleValue V] in
theorem separated_of_thread {before : Range1d → Range1d → Prop} (ks : List (KeyInfo V))
    {next : Trie Range1d V} (h : (thread ks next).Separated before) : next.Separated before := by
  induction ks with
  | nil => exact h
  | cons y ks ih => exact ih h.2.1

/-- `search` computes the search in the trie that the tree stores. -/
theorem searchFrom_eq {order : DimensionOrder cfg.D} {val : KeyVec cfg.D} {depth : ℕ}
    {lvl : ℕ} {link : Option ℕ} {t : Trie Range1d V} {fp : Multiset ℕ}
    (hd : Denotes cfg (.ofOrder order) mem lvl (.link link) t fp) (hnd : fp.Nodup)
    (hcard : fp.card ≤ depth) (hsep : t.Separated Range1d.Before) {fuel : ℕ}
    (hfuel : cfg.D < lvl + fuel) (res : V) :
    searchFrom mem order val depth fuel link lvl res =
      .ok (t.search (hitsAt order val) isValid lvl res) := by
  induction fuel generalizing lvl link t fp res with
  | zero =>
      cases link with
      | none => simp [hd.of_null.1, searchFrom, Trie.search]
      | some root =>
          have := hd.level_lt
          omega
  | succ fuel ih =>
      cases link with
      | none => simp [hd.of_null.1, searchFrom, Trie.search]
      | some root =>
          have hlt := hd.level_lt
          rw [searchFrom_some hlt]
          cases hd with
          | @layer _ h _ its _ fpL fpI hlvl hL hne ho hits =>
              have hh : h < depth := by
                have := hL.height_lt_card
                rw [Multiset.card_add] at hcard
                omega
              have hpw : (its.map KeyInfo.key).Pairwise Range1d.Before :=
                hits.keys_eq ▸ hsep.pairwise
              rcases hL.search (p := .ofValue (val.get order[lvl]))
                (Multiset.nodup_of_le (Multiset.le_add_right _ _) hnd) hh with
                ⟨m, i, L, x, R, hs, rfl, hkey, hhit⟩ | ⟨hs, hnone⟩
              · obtain ⟨A, n, B, fp₁, fpN, fp₂, rfl, rfl, hA, hn, hB⟩ := hits.next
                have hxhit : hitsAt order val lvl x.key = true := by
                  rw [hitsAt_of_lt order val hlt]
                  exact hhit
                have hAnot : ∀ a ∈ A.keys, hitsAt order val lvl a = false := by
                  intro a ha
                  have hbefore := (Trie.separated_append.mp hsep).2.2 a ha x.key (by simp)
                  by_contra hahit
                  have := hitsAt_separated order val lvl a x.key hbefore (by simpa using hahit)
                  rw [hxhit] at this
                  cases this
                have hlink : (mem.get m).nextLevel.get i = x.nextLevel := by
                  rw [← hkey.getKey]
                  rfl
                have hle : fpN ≤ fpL + (fp₁ + (fpN + fp₂)) :=
                  (Multiset.le_add_right _ _).trans
                    ((Multiset.le_add_left _ _).trans (Multiset.le_add_left _ _))
                have := ih hn (Multiset.nodup_of_le hle hnd)
                  ((Multiset.card_le_card hle).trans hcard)
                  (Trie.separated_append.mp hsep).2.1.2.1 (by omega)
                  (if isValid x.value then x.value else res)
                simp only [hs, Bind.bind, Except.bind, hkey.isCompressed, hkey.getKey, hlink]
                rw [Trie.search_append hAnot, Trie.search, if_pos hxhit]
                exact this
              · have hnot := hnone ho (selects_ofValue hpw)
                have : t.search (hitsAt order val) isValid lvl res = res := by
                  have hkeys : ∀ a ∈ t.keys, hitsAt order val lvl a = false := by
                    intro a ha
                    rw [hits.keys_eq] at ha
                    obtain ⟨x, hx, rfl⟩ := List.mem_map.mp ha
                    rw [hitsAt_of_lt order val hlt]
                    exact hnot x hx
                  simpa [Trie.search] using Trie.search_append hkeys .nil res
                simp [hs, this, Bind.bind, Except.bind, Pure.pure, Except.pure]
          | @compressed _ _ init last next fpN hlvl hn hnext =>
              have hdepth : ∃ d, depth = d + 1 := by
                rw [Multiset.card_cons] at hcard
                exact ⟨depth - 1, by omega⟩
              obtain ⟨d, rfl⟩ := hdepth
              obtain ⟨x, suf, hits⟩ : ∃ x suf, init ++ [last] = x :: suf := by
                cases init with
                | nil => exact ⟨last, [], rfl⟩
                | cons x init => exact ⟨x, init ++ [last], rfl⟩
              have hx : (mem.get root).getKey 0 = x := by
                have := hn.getKey 0 (by omega)
                simpa [hits] using this.symm
              have hx0 : (mem.get root).keys.get 0 = x.key := by
                rw [← hx]
                rfl
              have hs : searchPossition1d mem (.ofValue (val.get order[lvl])) (d + 1)
                  (some root) =
                    .ok (if x.key.inRange (val.get order[lvl]) then some (root, 0) else none) := by
                simp only [searchPossition1d, hn.isCompressed, searchCompressedSeq, hx0,
                  Probe.ofValue, if_true]
                cases x.key.inRange (val.get order[lvl]) <;> simp
              rw [hs, hits]
              have hhit := hitsAt_of_lt order val hlt x.key
              cases hin : x.key.inRange (val.get order[lvl]) with
              | false =>
                  simp [thread, Trie.search, hhit, hin, Bind.bind, Except.bind, Pure.pure,
                    Except.pure]
              | true =>
                  have hsuf : suf ≠ [] := by
                    rintro rfl
                    have hlen := congrArg List.length hits
                    have hleast : 2 ≤ init.length + 1 := hn.least_le
                    simp only [List.length_append, List.length_cons, List.length_nil] at hlen
                    omega
                  have hlen : (mem.get root).keyCnt - 1 = suf.length := by
                    have := congrArg List.length hits
                    rw [hn.keyCnt]
                    simpa using this
                  have hnil : last.nextLevel = none → next = .nil := by
                    intro hl
                    rw [hl] at hnext
                    exact hnext.of_null.1
                  obtain ⟨s', hs', hres⟩ := searchRestFrom_eq val hn hnil
                    suf [x] (by simp [hits]) hsuf
                    ⟨if isValid x.value then x.value else res, none, 0⟩ rfl
                  have hrest : searchRestOfPathInCompressedNode (mem.get root) val res =
                      .ok s' := by
                    simp only [searchRestOfPathInCompressedNode, hlen, hx]
                    simpa using hs'
                  have hgoal : (thread (x :: suf) next).search (hitsAt order val) isValid lvl res =
                      (thread suf next).search (hitsAt order val) isValid (lvl + [x].length)
                        (if isValid x.value then x.value else res) := by
                    simp [thread, Trie.search, hhit, hin]
                  simp only [Bind.bind, Except.bind, hn.isCompressed, hrest, if_true]
                  rw [hgoal]
                  rcases hres with ⟨hnone, hres⟩ | ⟨hlink, hadd, hres⟩
                  · rw [hnone, hres]
                    simp [searchFrom]
                  · have hle : fpN ≤ root ::ₘ fpN := Multiset.le_cons_self _ _
                    have hsepN := separated_of_thread _ hsep
                    have := ih hnext (Multiset.nodup_of_le hle hnd)
                      ((Multiset.card_le_card hle).trans hcard) hsepN (by omega) s'.res
                    rw [hres, hadd, hlink]
                    exact this

end Pcv
