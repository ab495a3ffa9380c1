import Pcv.PartitionSort.LayeredTreeInsert

/-!
# Insertion at the end of a path

`insert` first follows the ranges of the rule as far as they are stored.  What it does
behind the last key of the path changes the trie below this key, in a layer or in a
compressed node, and every key of the path carries the change up to the root.
-/

namespace Pcv

open DynamicMempool Navigator BTreeInsert BTreeSearch
open Store (Agree)

variable {V : Type} [RuleValue V] {cfg : BTreeCfg} {sh : CompressedShape}
variable {E : Fault → NodeAllocator V → Prop} {p p' : NodeAllocator V}
variable {c : InsertCookie cfg.D V} {t : Trie Range1d V} {rest : Multiset ℕ}

/-- The path of the rule of a cookie. -/
abbrev pathOf (cfg : BTreeCfg) (p : NodeAllocator V) (fuel : ℕ) (link : Option ℕ)
    (c : InsertCookie cfg.D V) : Except Fault (List PathItem) :=
  searchPath p.mempool c.dimensionOrder c.rule (callDepth cfg p) fuel link c.level

/-- Where no key of the rule is stored, `insert` makes a new key in the layer. -/
theorem ensures_insert_of_nil {link : Option ℕ} {fuel : ℕ} {Q : Option ℕ → NodeAllocator V → Prop}
    (hpath : pathOf cfg p (callDepth cfg p) link c = .ok [])
    (h : Ensures E (insertToRoot cfg fuel link c) p Q) :
    Ensures E (insert cfg (fuel + 1) link c) p Q := by
  rw [BTreeInsert.insert]
  refine Ensures.bind (Ensures.get (Ensures.bind (ensures_reading hpath ?_)))
  simpa using h

omit [RuleValue V] in
/-- The common part of the keys of a node and of a rule ends at once when the first
keys differ. -/
theorem ensures_keepKeysCnt_zero {nd : Node V} {cnt : ℕ} {Q : ℕ → NodeAllocator V → Prop}
    (hD : c.level < cfg.D)
    (hk : (nd.getKey 0).key ≠ rangeAt c.dimensionOrder c.rule c.level) (hQ : Q 0 p) :
    Ensures E (keepKeysCnt nd c cnt 0) p Q := by
  cases cnt with
  | zero => exact hQ
  | succ cnt =>
      refine Ensures.bind (ensures_getActualKey hD ?_)
      rw [if_pos (by simpa [InsertCookie.atLevel] using hk)]
      exact hQ

/-- Insertion into a layer of one key that is not the key of the rule. -/
theorem ensures_insert_single {n fuel : ℕ} {x : KeyInfo V} {l : Option ℕ}
    {next : Trie Range1d V} {fp : Multiset ℕ} (hE : ∀ p, E .badAlloc p) (hT : 2 ≤ cfg.T)
    (hsh : sh.Allows c.dimensionOrder) (hlt : c.level < c.requiresLevels)
    (hD : c.requiresLevels ≤ cfg.D) (hr : (p.mempool.get n).Run cfg sh c.level [x] l)
    (hd : Denotes cfg sh p.mempool (c.level + 1) (.link l) next fp)
    (hx : x.key ≠ rangeAt c.dimensionOrder c.rule c.level) (ho : Owns p (n ::ₘ (fp + rest)))
    (hfuel : 3 * (c.requiresLevels - c.level) ≤ fuel) :
    Ensures E (insert cfg fuel (some n) c) p fun link p' => link = some n ∧
      LinkInserted cfg sh c p (.cons x.key x.value next .nil) rest link p' := by
  obtain ⟨fuel, rfl⟩ : ∃ f, fuel = f + 1 := ⟨fuel - 1, by omega⟩
  set y : KeyInfo V := ⟨x.key, x.value, l⟩ with hy
  have hmax : 1 < cfg.maxDegree := by
    simp only [BTreeCfg.maxDegree]
    omega
  have hL : Layer cfg p.mempool 0 none n [y] {n} := ⟨hr.leafNode, hmax.le, rfl⟩
  have hits : Denotes cfg sh p.mempool c.level (.items [y]) (.cons x.key x.value next .nil)
      (fp + 0) := .cons (x := y) hd .nil
  have ho' : Owns p ({n} + (fp + 0) + rest) := by simpa [Multiset.cons_add, add_assoc] using ho
  have hmiss : Misses (rangeAt c.dimensionOrder c.rule c.level)
      (.cons x.key x.value next .nil : Trie Range1d V) := fun _ => by simpa [eq_comm] using hx
  refine ensures_insert_of_nil ?_ ?_
  · rcases searchPath_layer c.dimensionOrder c.rule (callDepth cfg p)
      (by omega) hL (List.pairwise_singleton _ _)
      (Multiset.nodup_singleton n) (by simp [callDepth]) hits with
      ⟨m, i, L, z, R, hLR, -, hz, -⟩ | ⟨-, hs⟩
    · refine absurd hz ?_
      have : z ∈ [y] := hLR ▸ by simp
      obtain rfl : z = y := by simpa using this
      exact hx
    · exact hs (4 * (p.ITEM_CNT + cfg.D) + 7)
  · refine (ensures_insertToRoot_layer hE hT hsh hlt hD hL (by simp) (List.pairwise_singleton _ _)
      hits hmiss ho' (by omega)).mono ?_
    rintro link p' ⟨hi, hroot⟩
    exact ⟨hroot (by rw [hr.keyCnt]; exact hmax), hi⟩

omit [RuleValue V] in
/-- The keys of a compressed node behind its first one. -/
theorem Node.CompressedNode.exists_cons {nd : Node V} {lvl : ℕ} {init : List (KeyInfo V)}
    {last : KeyInfo V} (hn : nd.CompressedNode cfg sh lvl init last) (hleast : 2 ≤ sh.least) :
    ∃ x xs, init ++ [last] = x :: xs ∧ xs ≠ [] ∧ init ≠ [] := by
  have := hn.least_le
  cases init with
  | nil =>
      simp only [List.length_nil] at this
      omega
  | cons x init => exact ⟨x, init ++ [last], rfl, by simp, by simp⟩

/-- Insertion into a layer that does not hold the key of the rule. -/
theorem ensures_insertToRoot {link : Option ℕ} {fp : Multiset ℕ} {fuel : ℕ}
    (hE : ∀ p, E .badAlloc p) (hT : 2 ≤ cfg.T) (hsh : sh.Allows c.dimensionOrder)
    (hleast : 2 ≤ sh.least) (hlt : c.level < c.requiresLevels) (hD : c.requiresLevels ≤ cfg.D)
    (hd : Denotes cfg sh p.mempool c.level (.link link) t fp)
    (hmiss : Misses (rangeAt c.dimensionOrder c.rule c.level) t) (ho : Owns p (fp + rest))
    (hfuel : fp.card + 3 * (c.requiresLevels - c.level) + 3 ≤ fuel) :
    Ensures E (insertToRoot cfg fuel link c) p (LinkInserted cfg sh c p t rest) := by
  cases link with
  | none =>
      obtain ⟨rfl, rfl⟩ := hd.of_null
      rw [Multiset.zero_add] at ho
      refine (ensures_insertToRoot_none hE hT hsh hlt hD ho (by omega)).mono ?_
      rintro link p' ⟨fp, hd', ho', hagree, hN⟩
      refine ⟨_, fp, ?_, hd', ho', hagree, hN⟩
      rw [InsCookie, ← InsertCookie.take_sequence hD]
      exact .first (by omega)
  | some root =>
      cases hd with
      | layer hlvl hL hne hord hits =>
          have hh := hL.height_lt_card
          rw [Multiset.card_add] at hfuel
          exact (ensures_insertToRoot_layer hE hT hsh hlt hD hL hne hord hits hmiss ho
            (by omega)).mono fun _ _ h => h.1
      | @compressed _ _ init last next fp hlvl hn hnext =>
          rw [Multiset.card_cons] at hfuel
          obtain ⟨fuel, rfl⟩ : ∃ f, fuel = f + 3 := ⟨fuel - 3, by omega⟩
          obtain ⟨x, xs, hits, hxs, hinit⟩ := hn.exists_cons hleast
          have hr := hn.run hinit
          rw [hits] at hr hmiss ⊢
          have hx0 : ((p.mempool.get root).getKey 0).key = x.key := by rw [hr.getKey 0 x rfl]
          have hx : x.key ≠ rangeAt c.dimensionOrder c.rule c.level := by
            have := hmiss (List.pairwise_singleton _ _)
            simpa [thread, eq_comm] using this
          have hcnt : (p.mempool.get root).keyCnt ≠ 0 := by
            rw [hr.keyCnt]
            simp
          rw [insertToRoot]
          refine Ensures.bind (ensures_read ?_)
          rw [if_pos hn.isCompressed]
          refine Ensures.bind ?_
          rw [insertInToCompressed]
          refine Ensures.bind (ensures_read (Ensures.bind (ensures_keepKeysCnt_zero (by omega)
            (hx0 ▸ hx) ?_)))
          rw [insertInToCompressedAt]
          refine Ensures.bind (ensures_read ?_)
          rw [if_neg hcnt.symm]
          rw [Multiset.cons_add] at ho
          refine Ensures.bind (ensures_decompressNode_zero hE hxs hr ho ?_)
          intro p₁ nl ho₁ hN₁ hrun hnl hagree
          have hlen : xs.length = init.length := by
            have := congrArg List.length hits
            simpa using this.symm
          have hnext₁ := hnext.frame fun j hj => hagree j (Multiset.mem_add.mpr (.inl hj))
          have hbelow := Denotes.of_run hT hsh.least_le (by omega) hnl
            (by rwa [hlen, Nat.add_right_comm])
          refine Ensures.bind ((ensures_insert_single hE hT hsh hlt hD hrun hbelow hx
            (by simpa [Multiset.cons_add] using ho₁) (by omega)).mono ?_)
          rintro _ p₂ ⟨rfl, hi⟩
          exact hi.after (fun j hj => hagree j (Multiset.mem_add.mpr (.inr hj))) hN₁

/-! ## A change below a key -/

omit [RuleValue V] in
theorem InsertCookie.sequence_append {D : ℕ} {c : InsertCookie D V} {n : ℕ} (h : c.level + n ≤ D) :
    c.sequence = rangesFrom c.dimensionOrder c.rule n c.level ++
      (c.atLevel (c.level + n)).sequence := by
  simp only [sequence, atLevel]
  rw [← rangesFrom_add]
  congr 1
  omega

/-- The insertion below a key of a layer. -/
theorem InsCookie.down {A n n' B : Trie Range1d V} {k : Range1d} {v : V} (hD : c.level < cfg.D)
    (hk : k = rangeAt c.dimensionOrder c.rule c.level)
    (h : InsCookie cfg (c.atLevel (c.level + 1)) n n') :
    InsCookie cfg c (A.append (.cons k v n B)) (A.append (.cons k v n' B)) := by
  rw [InsCookie, InsertCookie.sequence_eq_cons hD, hk]
  exact .down h

/-- The insertion below the keys of a node. -/
theorem InsCookie.thread {xs : List (KeyInfo V)} {t t' : Trie Range1d V}
    (hD : c.level + xs.length ≤ cfg.D)
    (hk : xs.map KeyInfo.key = rangesFrom c.dimensionOrder c.rule xs.length c.level)
    (h : InsCookie cfg (c.atLevel (c.level + xs.length)) t t') :
    InsCookie cfg c (thread xs t) (thread xs t') := by
  induction xs generalizing c with
  | nil => exact h
  | cons x xs ih =>
      simp only [List.map_cons, List.length_cons, rangesFrom, List.cons.injEq] at hk hD
      have := ih (c := c.atLevel (c.level + 1)) (by simp only [InsertCookie.atLevel]; omega) hk.2
        (by simpa [InsertCookie.atLevel, Nat.add_assoc, Nat.add_comm 1] using h)
      exact InsCookie.down (A := .nil) (B := .nil) (by omega) hk.1 this

/-- A new value for a key of a layer. -/
theorem InsCookie.here {A n B : Trie Range1d V} {k : Range1d} {v : V} (hD : c.level < cfg.D)
    (hk : k = rangeAt c.dimensionOrder c.rule c.level) (hle : c.requiresLevels ≤ c.level + 1)
    (hmiss : Misses (rangeAt c.dimensionOrder c.rule (c.level + 1)) n) :
    InsCookie cfg c (A.append (.cons k v n B)) (A.append (.cons k c.rule.second n B)) := by
  rw [InsCookie, InsertCookie.sequence_eq_cons hD, hk]
  refine .here (by omega) fun hpw k' hk' => ?_
  by_cases hlt : c.level + 1 < cfg.D
  · have hseq := InsertCookie.sequence_eq_cons (c := c.atLevel (c.level + 1)) hlt
    rw [hseq] at hk'
    obtain rfl : rangeAt c.dimensionOrder c.rule (c.level + 1) = k' := by
      simpa [InsertCookie.atLevel] using hk'
    exact hmiss hpw
  · have hnil : (c.atLevel (c.level + 1)).sequence = [] := by
      rw [InsertCookie.sequence, show cfg.D - (c.atLevel (c.level + 1)).level = 0 by
        simp only [InsertCookie.atLevel]; omega, rangesFrom]
    rw [hnil] at hk'
    simp at hk'

/-- The change below a key is a change of the layer, once the link of the key is set. -/
theorem LinkInserted.below {p₁ p₂ : NodeAllocator V} {h root m i : ℕ} {L R : List (KeyInfo V)}
    {x : KeyInfo V} {A n B : Trie Range1d V} {link : Option ℕ} {fp fp₁ fp₂ : Multiset ℕ}
    (hD : c.level < cfg.D) (hk : KeyAt cfg p.mempool h none root fp m i L x R)
    (hord : Ordered (L ++ x :: R)) (hx : x.key = rangeAt c.dimensionOrder c.rule c.level)
    (hA : Denotes cfg sh p.mempool c.level (.items L) A fp₁)
    (hB : Denotes cfg sh p.mempool c.level (.items R) B fp₂)
    (hi : LinkInserted cfg sh (c.atLevel (c.level + 1)) p n (fp + (fp₁ + fp₂) + rest) link p₁)
    (hs : (p₁.mempool.get m).SlotChanged (p₂.mempool.get m) i ⟨x.key, x.value, link⟩)
    (hoth : ∀ j, j ≠ m → p₂.mempool.get j = p₁.mempool.get j) (hsame : SamePool p₁ p₂) :
    LinkInserted cfg sh c p (A.append (.cons x.key x.value n B)) rest (some root) p₂ := by
  obtain ⟨n', fpN, hins, hn, ho, hagree, hN⟩ := hi
  have hmfp := hk.mem_fp
  have hm : p₁.mempool.get m = p.mempool.get m :=
    hagree m (Multiset.mem_add.mpr (.inl (Multiset.mem_add.mpr (.inl hmfp))))
  have hne : ∀ j ∈ fpN + (fp₁ + fp₂) + rest, j ≠ m := by
    rintro j hj rfl
    have hnd := ho.nodup
    rw [show fpN + (fp + (fp₁ + fp₂) + rest) = fp + (fpN + (fp₁ + fp₂) + rest) by abel] at hnd
    exact Multiset.disjoint_left.mp (Multiset.nodup_add.mp hnd).2.2 hmfp hj
  have hagree₂ : Agree (fp₁ + fp₂ + rest) p.mempool p₂.mempool := by
    intro j hj
    rw [hoth j (hne j (by simp only [Multiset.mem_add] at hj ⊢; tauto))]
    exact hagree j (by simp only [Multiset.mem_add] at hj ⊢; tauto)
  have hL := hk.replace p₂.mempool ⟨x.key, x.value, link⟩ (fun j hj hjm => by
    rw [hoth j hjm, hagree j (Multiset.mem_add.mpr (.inl (Multiset.mem_add.mpr (.inl hj))))])
    (hm ▸ hs)
  have hn₂ : Denotes cfg sh p₂.mempool (c.level + 1) (.link link) n' fpN :=
    hn.frame fun j hj => hoth j (hne j (by simp only [Multiset.mem_add]; tauto))
  have hA₂ := hA.frame fun j hj => hagree₂ j (by simp only [Multiset.mem_add]; tauto)
  have hB₂ := hB.frame fun j hj => hagree₂ j (by simp only [Multiset.mem_add]; tauto)
  have hits := hA₂.append (.cons (x := ⟨x.key, x.value, link⟩) hn₂ hB₂)
  refine ⟨_, _, InsCookie.down hD hx hins, .layer hD hL (by simp) ?_ hits, ?_,
    fun j hj => hagree₂ j (by simp only [Multiset.mem_add]; tauto), hsame.ITEM_CNT.trans hN⟩
  · simpa [Ordered, List.pairwise_append, List.pairwise_cons] using hord
  · have := ho.congr hsame
    rwa [show fpN + (fp + (fp₁ + fp₂) + rest) = fp + (fp₁ + (fpN + fp₂)) + rest by abel] at this

/-- The change below the keys of a node is a change of the layers of these keys. -/
theorem LinkInserted.below_run {p₁ p₂ : NodeAllocator V} {root : ℕ} {xs : List (KeyInfo V)}
    {link : Option ℕ} (hT : 2 ≤ cfg.T) (hsh : sh.Allows c.dimensionOrder)
    (hD : c.level + xs.length ≤ cfg.D)
    (hk : xs.map KeyInfo.key = rangesFrom c.dimensionOrder c.rule xs.length c.level)
    (hi : LinkInserted cfg sh (c.atLevel (c.level + xs.length)) p t (root ::ₘ rest) link p₁)
    (hr : (p₂.mempool.get root).Run cfg sh c.level xs link)
    (hoth : ∀ j, j ≠ root → p₂.mempool.get j = p₁.mempool.get j) (hsame : SamePool p₁ p₂) :
    LinkInserted cfg sh c p (thread xs t) rest (some root) p₂ := by
  obtain ⟨t', fp, hins, hd, ho, hagree, hN⟩ := hi
  rw [Multiset.add_cons, ← Multiset.cons_add] at ho
  have hroot : root ∉ fp + rest := by
    have := ho.nodup
    rw [Multiset.cons_add] at this
    exact (Multiset.nodup_cons.mp this).1
  have hne : ∀ j ∈ fp + rest, j ≠ root := fun j hj h => hroot (h ▸ hj)
  refine ⟨_, _, InsCookie.thread hD hk hins, Denotes.of_run hT hsh.least_le hD hr (hd.frame
    fun j hj => hoth j (hne j (Multiset.mem_add.mpr (.inl hj)))), ho.congr hsame, fun j hj => ?_,
    hsame.ITEM_CNT.trans hN⟩
  rw [hoth j (hne j (Multiset.mem_add.mpr (.inr hj))), hagree j (Multiset.mem_cons_of_mem hj)]

/-- A new value for a key of a node. -/
theorem linkInserted_setValue {root i : ℕ} {xs ys : List (KeyInfo V)} {x : KeyInfo V}
    {link : Option ℕ} {next : Trie Range1d V} {fp : Multiset ℕ} (hT : 2 ≤ cfg.T)
    (hsh : sh.Allows c.dimensionOrder) (hD : c.level + (xs ++ x :: ys).length ≤ cfg.D)
    (hr : (p.mempool.get root).Run cfg sh c.level (xs ++ x :: ys) link) (hi : xs.length = i)
    (hd : Denotes cfg sh p.mempool (c.level + (xs ++ x :: ys).length) (.link link) next fp)
    (hk : xs.map KeyInfo.key = rangesFrom c.dimensionOrder c.rule xs.length c.level)
    (hx : x.key = rangeAt c.dimensionOrder c.rule (c.level + i))
    (hle : c.requiresLevels ≤ c.level + i + 1)
    (hmiss : Misses (rangeAt c.dimensionOrder c.rule (c.level + i + 1)) (thread ys next))
    (ho : Owns p (root ::ₘ (fp + rest))) :
    LinkInserted cfg sh c p (thread (xs ++ x :: ys) next) rest (some root)
      { p with mempool :=
        p.mempool.set root ((p.mempool.get root).setValue i c.rule.second) } := by
  have hroot := (Multiset.nodup_cons.mp ho.nodup).1
  simp only [List.length_append, List.length_cons] at hD hd
  have hrun : ((p.mempool.set root ((p.mempool.get root).setValue i c.rule.second)).get
      root).Run cfg sh c.level (xs ++ { x with value := c.rule.second } :: ys) link := by
    rw [Store.get_set_self]
    exact hr.setValue hi c.rule.second
  have hd' := Denotes.of_run hT hsh.least_le (by simpa using hD) hrun
    (by
      rw [List.length_append, List.length_cons]
      exact hd.frame ((Agree.refl _ _).set fun h => hroot (Multiset.mem_add.mpr (.inl h))))
  refine ⟨_, _, ?_, hd', ?_, (Agree.refl _ _).set fun h => hroot (Multiset.mem_add.mpr (.inr h)),
    rfl⟩
  · rw [thread_append, thread_append]
    refine InsCookie.thread (by omega) hk ?_
    exact InsCookie.here (c := c.atLevel (c.level + xs.length)) (A := .nil) (B := .nil)
      (by simp only [InsertCookie.atLevel]; omega) (hi ▸ hx) (hi ▸ hle) (hi ▸ hmiss)
  · rw [Multiset.cons_add]
    exact ho.congr (samePool_write _ _)

/-! ## The end of the path -/

/-- What `insert` does at the last entry of the path, with the cookie at its level. -/
def insertBehind (cfg : BTreeCfg) (fuel : ℕ) (b : PathItem) (c : InsertCookie cfg.D V) :
    NodeM V Unit := do
  if c.requiredMoreLevels then
    let c := c.atLevel (c.level + 1)
    let n ← read b.node
    if n.isCompressed then
      insertInToCompressedAt cfg fuel b.node c (b.index + 1)
    else
      let insRoot ← insertToRoot cfg fuel (n.nextLevel.get b.index) c
      setNextLayer b.node b.index insRoot
  else
    update b.node (·.setValue b.index c.rule.second)

theorem ensures_insert_of_path {link : Option ℕ} {fuel : ℕ} {path : List PathItem} {b : PathItem}
    {Q : Option ℕ → NodeAllocator V → Prop}
    (hpath : pathOf cfg p (callDepth cfg p) link c = .ok path) (hb : path.getLast? = some b)
    (h : Ensures E (insertBehind cfg fuel b (c.atLevel (c.level + (path.length - 1)))) p
      fun _ => Q link) :
    Ensures E (BTreeInsert.insert cfg (fuel + 1) link c) p Q := by
  rw [BTreeInsert.insert]
  refine Ensures.bind (Ensures.get (Ensures.bind (ensures_reading hpath ?_)))
  simp only [hb]
  rw [insertBehind] at h
  by_cases hmore : (c.atLevel (c.level + (path.length - 1))).requiredMoreLevels = true
  · rw [if_pos hmore] at h ⊢
    refine Ensures.bind (h.of_bind.mono fun n p₁ hn => ?_)
    by_cases hc : n.isCompressed = true
    · rw [if_pos hc] at hn ⊢
      exact Ensures.bind hn
    · rw [if_neg hc] at hn ⊢
      exact Ensures.bind (hn.of_bind.mono fun _ _ h => Ensures.bind h)
  · rw [if_neg hmore] at h ⊢
    exact Ensures.bind h

omit [RuleValue V] in
theorem Node.slotChanged_setNextLevel {nd : Node V} {i : ℕ} {x : KeyInfo V}
    (hx : nd.getKey i = x) (link : Option ℕ) :
    nd.SlotChanged (nd.setNextLevel i link) i ⟨x.key, x.value, link⟩ where
  frame := ⟨rfl, rfl, rfl, rfl, rfl, rfl⟩
  getKey := by
    intro j
    rw [Node.getKey_setNextLevel]
    by_cases hji : j = i
    · simp [hji, hx]
    · simp [hji]

omit [RuleValue V] in
theorem Node.slotChanged_setValue {nd : Node V} {i : ℕ} {x : KeyInfo V}
    (hx : nd.getKey i = x) (v : V) :
    nd.SlotChanged (nd.setValue i v) i ⟨x.key, v, x.nextLevel⟩ where
  frame := ⟨rfl, rfl, rfl, rfl, rfl, rfl⟩
  getKey := by
    intro j
    rw [Node.getKey_setValue]
    by_cases hji : j = i
    · simp [hji, hx]
    · simp [hji]

/-- The path ends at a key of a layer that is not compressed. -/
theorem ensures_insertBehind_layer {h root m i fuel : ℕ} {L R : List (KeyInfo V)} {x : KeyInfo V}
    {A n B : Trie Range1d V} {fp fp₁ fpN fp₂ : Multiset ℕ} (hE : ∀ p, E .badAlloc p)
    (hT : 2 ≤ cfg.T) (hsh : sh.Allows c.dimensionOrder) (hleast : 2 ≤ sh.least)
    (hD : c.requiresLevels ≤ cfg.D) (hlvl : c.level < cfg.D)
    (hk : KeyAt cfg p.mempool h none root fp m i L x R) (hord : Ordered (L ++ x :: R))
    (hx : x.key = rangeAt c.dimensionOrder c.rule c.level)
    (hA : Denotes cfg sh p.mempool c.level (.items L) A fp₁)
    (hn : Denotes cfg sh p.mempool (c.level + 1) (.link x.nextLevel) n fpN)
    (hB : Denotes cfg sh p.mempool c.level (.items R) B fp₂)
    (hmiss : Misses (rangeAt c.dimensionOrder c.rule (c.level + 1)) n)
    (ho : Owns p (fp + (fp₁ + (fpN + fp₂)) + rest))
    (hfuel : fpN.card + 3 * (c.requiresLevels - (c.level + 1)) + 3 ≤ fuel) :
    Ensures E (insertBehind cfg fuel ⟨root, m, i⟩ c) p fun _ =>
      LinkInserted cfg sh c p (A.append (.cons x.key x.value n B)) rest (some root) := by
  have hlink : (p.mempool.get m).nextLevel.get i = x.nextLevel := by
    rw [← hk.getKey]
    rfl
  refine Ensures.ite (fun hmore => ?_) (fun hmore => ?_)
  · refine Ensures.bind (ensures_read ?_)
    rw [if_neg (by simp [hk.isCompressed]), hlink]
    have ho' : Owns p (fpN + (fp + (fp₁ + fp₂) + rest)) := by
      rwa [show fpN + (fp + (fp₁ + fp₂) + rest) = fp + (fp₁ + (fpN + fp₂)) + rest by abel]
    refine Ensures.bind ((ensures_insertToRoot (c := c.atLevel (c.level + 1)) hE hT hsh hleast
      (of_decide_eq_true hmore) hD hn hmiss ho' hfuel).mono fun link p₁ hi => ?_)
    refine ensures_update ?_
    have hm : (p₁.mempool.get m).getKey i = x := by
      obtain ⟨-, -, -, -, -, hagree, -⟩ := hi
      have := hk.mem_fp
      rw [hagree m (by simp only [Multiset.mem_add]; tauto), hk.getKey]
    refine hi.below hlvl hk hord hx hA hB ?_ (fun j hj => Store.get_set_of_ne _ _ hj)
      (samePool_write _ _)
    simp only [Store.get_set_self]
    exact Node.slotChanged_setNextLevel hm link
  · refine ensures_update ?_
    have hdisj := Multiset.disjoint_left.mp (Multiset.nodup_add.mp (add_assoc fp _ _ ▸ ho.nodup)).2.2
      hk.mem_fp
    have hagree : Agree (fp₁ + (fpN + fp₂) + rest) p.mempool
        (p.mempool.set m ((p.mempool.get m).setValue i c.rule.second)) :=
      (Agree.refl _ _).set hdisj
    have hL := hk.replace (p.mempool.set m ((p.mempool.get m).setValue i c.rule.second))
      ⟨x.key, c.rule.second, x.nextLevel⟩ (fun j _ hj => Store.get_set_of_ne _ _ hj) (by
        rw [Store.get_set_self]
        exact Node.slotChanged_setValue hk.getKey c.rule.second)
    have hits := (hA.frame fun j hj => hagree j (by simp only [Multiset.mem_add]; tauto)).append
      (.cons (x := ⟨x.key, c.rule.second, x.nextLevel⟩)
        (hn.frame fun j hj => hagree j (by simp only [Multiset.mem_add]; tauto))
        (hB.frame fun j hj => hagree j (by simp only [Multiset.mem_add]; tauto)))
    refine ⟨_, _, InsCookie.here hlvl hx ?_ hmiss, .layer hlvl hL (by simp) ?_ hits,
      ho.congr (samePool_write _ _),
      fun j hj => hagree j (Multiset.mem_add.mpr (.inr hj)), rfl⟩
    · have : ¬ c.level + 1 < c.requiresLevels := fun h => hmore (decide_eq_true h)
      omega
    · simpa [Ordered, List.pairwise_append, List.pairwise_cons] using hord

/-- The path ends at a key in the middle of a compressed node. -/
theorem ensures_insertInToCompressedAt_partial {root fuel : ℕ} {xs ys : List (KeyInfo V)}
    {y : KeyInfo V} {link : Option ℕ} {next : Trie Range1d V} {fp : Multiset ℕ}
    (hE : ∀ p, E .badAlloc p) (hT : 2 ≤ cfg.T) (hsh : sh.Allows c.dimensionOrder)
    (hD : c.requiresLevels ≤ cfg.D) (hlt : c.level + xs.length < c.requiresLevels)
    (hDr : c.level + (xs ++ y :: ys).length ≤ cfg.D) (hxs : xs ≠ [])
    (hr : (p.mempool.get root).Run cfg sh c.level (xs ++ y :: ys) link)
    (hd : Denotes cfg sh p.mempool (c.level + (xs ++ y :: ys).length) (.link link) next fp)
    (hk : xs.map KeyInfo.key = rangesFrom c.dimensionOrder c.rule xs.length c.level)
    (hy : y.key ≠ rangeAt c.dimensionOrder c.rule (c.level + xs.length))
    (ho : Owns p (root ::ₘ (fp + rest)))
    (hfuel : 3 * (c.requiresLevels - (c.level + xs.length)) + 1 ≤ fuel) :
    Ensures E (insertInToCompressedAt cfg fuel root (c.atLevel (c.level + xs.length)) xs.length) p
      fun _ => LinkInserted cfg sh c p (thread (xs ++ y :: ys) next) rest (some root) := by
  obtain ⟨fuel, rfl⟩ : ∃ f, fuel = f + 1 := ⟨fuel - 1, by omega⟩
  have hcnt : (p.mempool.get root).keyCnt = xs.length + (ys.length + 1) := by
    simpa using hr.keyCnt
  simp only [List.length_append, List.length_cons] at hd hDr
  rw [insertInToCompressedAt]
  refine Ensures.bind (ensures_read ?_)
  rw [if_neg (by omega)]
  refine Ensures.bind (ensures_decompressNode hE hT hxs hr ho ?_)
  intro p₁ nl l fpY ho₁ hN₁ hroot hnl hys hagree
  have hagree' : Agree rest p.mempool p₁.mempool :=
    hagree.mono (Multiset.le_add_left _ _)
  have hd₁ := hd.frame fun j hj => hagree j (Multiset.mem_add.mpr (.inl hj))
  -- the keys behind the one that was separated
  have hbelow : Denotes cfg sh p₁.mempool (c.level + xs.length + 1) (.link l) (thread ys next)
      (fpY + fp) := by
    rcases hys with ⟨rfl, rfl, rfl⟩ | ⟨nnl, rfl, rfl, hnnl⟩
    · simpa [thread, Nat.add_assoc] using hd₁
    · have := Denotes.of_run hT hsh.least_le (by omega) hnnl
        (by rwa [show c.level + xs.length + 1 + ys.length = c.level + (xs.length + (ys.length + 1))
          by omega])
      rwa [Multiset.singleton_add]
  have ho' : Owns p₁ (nl ::ₘ (fpY + fp + (root ::ₘ rest))) := by
    have heq : nl ::ₘ (fpY + fp + (root ::ₘ rest)) = root ::ₘ nl ::ₘ (fpY + (fp + rest)) := by
      rw [Multiset.add_cons, Multiset.cons_swap, add_assoc]
    rwa [heq]
  refine Ensures.bind ((ensures_insert_single (c := c.atLevel (c.level + xs.length)) hE hT hsh hlt hD
    hnl hbelow hy ho' (by simp only [InsertCookie.atLevel]; omega)).mono ?_)
  rintro _ p₂ ⟨rfl, hi⟩
  have hroot₂ : p₂.mempool.get root = p₁.mempool.get root := by
    obtain ⟨-, -, -, -, -, hagree₂, -⟩ := hi
    exact hagree₂ root (Multiset.mem_cons_self _ _)
  have := hi.below_run hT hsh (by omega) hk (show (p₂.mempool.get root).Run cfg sh c.level xs (some nl)
    by rwa [hroot₂])
    (fun _ _ => rfl) (.refl _)
  rw [thread_append]
  exact this.after hagree' hN₁

/-- The path ends at the last key of a compressed node. -/
theorem ensures_insertInToCompressedAt_full {root fuel : ℕ} {xs : List (KeyInfo V)}
    {link : Option ℕ} {next : Trie Range1d V} {fp : Multiset ℕ} (hE : ∀ p, E .badAlloc p)
    (hT : 2 ≤ cfg.T) (hsh : sh.Allows c.dimensionOrder) (hleast : 2 ≤ sh.least)
    (hD : c.requiresLevels ≤ cfg.D) (hlt : c.level + xs.length < c.requiresLevels)
    (hr : (p.mempool.get root).Run cfg sh c.level xs link)
    (hd : Denotes cfg sh p.mempool (c.level + xs.length) (.link link) next fp)
    (hk : xs.map KeyInfo.key = rangesFrom c.dimensionOrder c.rule xs.length c.level)
    (hmiss : Misses (rangeAt c.dimensionOrder c.rule (c.level + xs.length)) next)
    (hpath : pathOf cfg p (callDepth cfg p) link (c.atLevel (c.level + xs.length)) = .ok [])
    (ho : Owns p (root ::ₘ (fp + rest)))
    (hfuel : fp.card + 3 * (c.requiresLevels - (c.level + xs.length)) + 5 ≤ fuel) :
    Ensures E (insertInToCompressedAt cfg fuel root (c.atLevel (c.level + xs.length)) xs.length) p
      fun _ => LinkInserted cfg sh c p (thread xs next) rest (some root) := by
  obtain ⟨fuel, rfl⟩ : ∃ f, fuel = f + 2 := ⟨fuel - 2, by omega⟩
  obtain ⟨m, hm⟩ : ∃ m, xs.length = m + 1 :=
    ⟨xs.length - 1, by have := List.length_pos_iff.mpr hr.ne_nil; omega⟩
  have hlink : (p.mempool.get root).nextLevel.get (xs.length - 1) = link := by
    obtain ⟨x, hx⟩ : ∃ x, xs[m]? = some x := ⟨_, List.getElem?_eq_getElem (by omega)⟩
    have hlast := hr.getKey m x hx
    rw [if_pos (by omega)] at hlast
    rw [hm, Nat.add_sub_cancel]
    exact congrArg KeyInfo.nextLevel hlast
  rw [insertInToCompressedAt]
  refine Ensures.bind (ensures_read ?_)
  have hlvl : (c.atLevel (c.level + xs.length)).level <
      (c.atLevel (c.level + xs.length)).requiresLevels := hlt
  rw [if_pos hr.keyCnt.symm, if_pos hlvl, hlink]
  have ho' : Owns p (fp + (root ::ₘ rest)) := by rwa [Multiset.add_cons]
  refine Ensures.bind (ensures_insert_of_nil hpath ((ensures_insertToRoot
    (c := c.atLevel (c.level + xs.length)) hE hT hsh hleast hlt hD hd hmiss ho'
    (by simp only [InsertCookie.atLevel]; omega)).mono fun nl p₁ hi => ensures_update ?_))
  have hroot₁ : p₁.mempool.get root = p.mempool.get root := by
    obtain ⟨-, -, -, -, -, hagree, -⟩ := hi
    exact hagree root (Multiset.mem_cons_self _ _)
  refine hi.below_run hT hsh (by omega) hk ?_ (fun j hj => Store.get_set_of_ne _ _ hj)
    (samePool_write _ _)
  simp only [Store.get_set_self, hroot₁]
  exact hr.setNextLevel (by omega) nl

/-- The path ends at a key of a compressed node. -/
theorem ensures_insertBehind_compressed {root fuel : ℕ} {init xs ys : List (KeyInfo V)}
    {last : KeyInfo V} {next : Trie Range1d V} {fp : Multiset ℕ} (hE : ∀ p, E .badAlloc p)
    (hT : 2 ≤ cfg.T) (hsh : sh.Allows c.dimensionOrder) (hleast : 2 ≤ sh.least)
    (hD : c.requiresLevels ≤ cfg.D) (hlvl : c.level + init.length < cfg.D)
    (hn : (p.mempool.get root).CompressedNode cfg sh c.level init last)
    (hnext : Denotes cfg sh p.mempool (c.level + init.length + 1) (.link last.nextLevel) next fp)
    (hits : init ++ [last] = xs ++ ys) (hxs : xs ≠ [])
    (hk : xs.map KeyInfo.key = rangesFrom c.dimensionOrder c.rule xs.length c.level)
    (hys : ∀ y ∈ ys.head?, y.key ≠ rangeAt c.dimensionOrder c.rule (c.level + xs.length))
    (hend : ys = [] → Misses (rangeAt c.dimensionOrder c.rule (c.level + xs.length)) next ∧
      pathOf cfg p (callDepth cfg p) last.nextLevel (c.atLevel (c.level + xs.length)) = .ok [])
    (ho : Owns p (root ::ₘ (fp + rest)))
    (hfuel : fp.card + 3 * (c.requiresLevels - (c.level + xs.length)) + 5 ≤ fuel) :
    Ensures E (insertBehind cfg fuel ⟨root, root, xs.length - 1⟩
        (c.atLevel (c.level + (xs.length - 1)))) p
      fun _ => LinkInserted cfg sh c p (thread (init ++ [last]) next) rest (some root) := by
  obtain ⟨-, -, -, -, hinit⟩ := hn.exists_cons hleast
  have hr := hn.run hinit
  have hlen : (init ++ [last]).length = init.length + 1 := by simp
  have hd : Denotes cfg sh p.mempool (c.level + (init ++ [last]).length) (.link last.nextLevel)
      next fp := by rwa [hlen]
  have hpos := List.length_pos_iff.mpr hxs
  rw [hits] at hr hd hlen ⊢
  have hmiss : Misses (rangeAt c.dimensionOrder c.rule (c.level + xs.length)) (thread ys next) := by
    cases ys with
    | nil => exact (hend rfl).1
    | cons y ys => exact fun _ => by simpa [thread, eq_comm] using hys
  refine Ensures.ite (fun hmore => ?_) (fun hmore => ?_)
  · have hlt : c.level + xs.length < c.requiresLevels := by
      have := of_decide_eq_true hmore
      simp only [InsertCookie.atLevel] at this
      omega
    refine Ensures.bind (ensures_read ?_)
    have hlvl' : (c.atLevel (c.level + (xs.length - 1))).atLevel
        ((c.atLevel (c.level + (xs.length - 1))).level + 1) = c.atLevel (c.level + xs.length) := by
      simp only [InsertCookie.atLevel]
      congr 1
      omega
    simp only [hlvl']
    rw [if_pos hn.isCompressed, Nat.sub_add_cancel hpos]
    cases ys with
    | nil =>
        rw [List.append_nil] at hr hd hlen ⊢
        obtain ⟨hmiss, hpath⟩ := hend rfl
        exact ensures_insertInToCompressedAt_full hE hT hsh hleast hD hlt hr hd hk hmiss hpath ho
          hfuel
    | cons y ys =>
        exact ensures_insertInToCompressedAt_partial hE hT hsh hD hlt (by omega) hxs hr hd hk
          (hys y rfl) ho (by omega)
  · have hle : c.requiresLevels ≤ c.level + xs.length := by
      by_contra hlt
      refine hmore (decide_eq_true ?_)
      simp only [InsertCookie.atLevel]
      omega
    obtain ⟨zs, z, rfl⟩ : ∃ zs z, xs = zs ++ [z] :=
      ⟨xs.dropLast, xs.getLast hxs, (List.dropLast_append_getLast hxs).symm⟩
    simp only [List.length_append, List.length_singleton, Nat.add_sub_cancel, List.append_assoc,
      List.singleton_append, List.map_append] at *
    refine ensures_update ?_
    rw [rangesFrom_add] at hk
    have hsplit := List.append_inj hk (by simp)
    simp only [List.length_cons] at hd hlen
    exact linkInserted_setValue hT hsh (by simp; omega) hr rfl (by simpa using hd)
      (by simpa using hsplit.1) (by simpa [rangesFrom] using hsplit.2) hle hmiss ho

/-! ## The whole insertion -/

/-- The insertion at the end of a path that is not empty changes the trie and keeps the
root. -/
theorem ensures_insertBehind {root walk fuel : ℕ} {path : List PathItem} {b : PathItem}
    {fp : Multiset ℕ} (hE : ∀ p, E .badAlloc p) (hT : 2 ≤ cfg.T)
    (hsh : sh.Allows c.dimensionOrder) (hleast : 2 ≤ sh.least) (hD : c.requiresLevels ≤ cfg.D)
    (hd : Denotes cfg sh p.mempool c.level (.link (some root)) t fp) (ho : Owns p (fp + rest))
    (hpath : pathOf cfg p walk (some root) c = .ok path) (hb : path.getLast? = some b)
    (hfuel : fp.card + 3 * (c.requiresLevels - c.level) + 5 ≤ fuel) :
    Ensures E (insertBehind cfg fuel b (c.atLevel (c.level + (path.length - 1)))) p
      fun _ => LinkInserted cfg sh c p t rest (some root) := by
  induction walk generalizing c root t fp rest path with
  | zero => cases hpath
  | succ walk ih =>
      have hnd : fp.Nodup := Multiset.nodup_of_le (Multiset.le_add_right _ _) ho.nodup
      have hdepth : fp.card ≤ callDepth cfg p := by
        have := ho.card_le
        rw [Multiset.card_add] at this
        simp only [callDepth]
        omega
      cases hd with
      | @layer _ h _ its _ fpL fpI hlvl hL hne hord hits =>
          have hh := hL.height_lt_card
          rw [Multiset.card_add] at hdepth hfuel
          rcases searchPath_layer c.dimensionOrder c.rule (callDepth cfg p) hlvl hL hord
            (Multiset.nodup_of_le (Multiset.le_add_right _ _) hnd) (by omega) hits with
            ⟨m, i, L, x, R, rfl, hk, hx, hs⟩ | ⟨-, hs⟩
          · obtain ⟨A, n, B, fp₁, fpN, fp₂, rfl, rfl, hA, hn, hB⟩ := hits.next
            obtain ⟨path', hpath', rfl⟩ := map_eq_ok ((hs walk).symm.trans hpath)
            simp only [Multiset.card_add] at hdepth hfuel
            cases path' with
            | nil =>
                obtain rfl : ⟨root, m, i⟩ = b := by simpa using hb
                have hle : fpN ≤ fpL + (fp₁ + (fpN + fp₂)) :=
                  (Multiset.le_add_right _ _).trans
                    ((Multiset.le_add_left _ _).trans (Multiset.le_add_left _ _))
                obtain ⟨hmiss, -⟩ := searchPath_of_nil c.dimensionOrder c.rule _ hn (Multiset.nodup_of_le hle hnd)
                  (by omega) hpath'
                exact ensures_insertBehind_layer (c := c) hE hT hsh hleast hD hlvl hk hord hx hA hn
                  hB hmiss ho (by omega)
            | cons a path' =>
                obtain ⟨r, hr⟩ : ∃ r, x.nextLevel = some r := by
                  cases hl : x.nextLevel with
                  | none =>
                      rw [hl] at hpath'
                      cases walk <;> cases hpath'
                  | some r => exact ⟨r, rfl⟩
                rw [hr] at hn hpath'
                have ho' : Owns p (fpN + (fpL + (fp₁ + fp₂) + rest)) := by
                  rwa [show fpN + (fpL + (fp₁ + fp₂) + rest) = fpL + (fp₁ + (fpN + fp₂)) + rest by
                    abel]
                have hstep := ih (c := c.atLevel (c.level + 1)) hsh hD hn ho' hpath'
                  (by simpa using hb) (by simp only [InsertCookie.atLevel]; omega)
                rw [show (c.atLevel (c.level + 1)).atLevel ((c.atLevel (c.level + 1)).level +
                  ((a :: path').length - 1)) = c.atLevel (c.level +
                    ((⟨root, m, i⟩ :: a :: path').length - 1)) by
                  simp only [InsertCookie.atLevel, List.length_cons]; congr 1; omega] at hstep
                refine hstep.mono fun _ p₁ hi => ?_
                have hm : (p₁.mempool.get m).getKey i = x := by
                  obtain ⟨-, -, -, -, -, hagree, -⟩ := hi
                  have := hk.mem_fp
                  rw [hagree m (by simp only [Multiset.mem_add]; tauto), hk.getKey]
                refine hi.below hlvl hk hord hx hA hB ?_ (fun _ _ => rfl) (.refl p₁)
                refine ⟨.refl _, fun j => ?_⟩
                by_cases hj : j = i
                · rw [if_pos hj, hj, hm, ← hr]
                · rw [if_neg hj]
          · have := (hs walk).symm.trans hpath
            obtain rfl := Except.ok.inj this
            simp at hb
      | @compressed _ _ init last next fp hlvl hn hnext =>
          rw [Multiset.card_cons] at hdepth hfuel
          rcases searchPath_compressed c.dimensionOrder c.rule (callDepth cfg p) hlvl hn (by omega) with ⟨-, hs⟩ | ⟨xs, ys, hits, hxs, hk, hys, hs⟩
          · obtain rfl := Except.ok.inj ((hs walk).symm.trans hpath)
            simp at hb
          · have hlast : (compressedItems root 0 xs.length).getLast? =
                some ⟨root, root, xs.length - 1⟩ := by
              have := List.length_pos_iff.mpr hxs
              rw [compressedItems, List.getLast?_map, List.getLast?_range', if_neg (by omega)]
              simp
            have hlen : (compressedItems root 0 xs.length).length = xs.length := by
              simp [compressedItems]
            rw [Multiset.cons_add] at ho
            have hstop : compressedItems root 0 xs.length = path →
                (ys = [] → Misses (rangeAt c.dimensionOrder c.rule (c.level + xs.length)) next ∧
                  pathOf cfg p (callDepth cfg p) last.nextLevel
                    (c.atLevel (c.level + xs.length)) = .ok []) →
                Ensures E (insertBehind cfg fuel b (c.atLevel (c.level + (path.length - 1)))) p
                  fun _ => LinkInserted cfg sh c p (thread (init ++ [last]) next) rest
                    (some root) := by
              rintro rfl hend
              obtain rfl : ⟨root, root, xs.length - 1⟩ = b := by simpa [hlast] using hb
              rw [hlen]
              exact ensures_insertBehind_compressed hE hT hsh hleast hD hlvl hn hnext hits hxs hk hys
                hend ho (by omega)
            have hpath' := (hs walk).symm.trans hpath
            by_cases hnil : ys = []
            · subst hnil
              rw [if_pos rfl] at hpath'
              obtain ⟨path', hnextPath, rfl⟩ := map_eq_ok hpath'
              rw [List.append_nil] at hits
              have hlvl' : c.level + init.length + 1 = c.level + xs.length := by
                rw [← hits, List.length_append, List.length_singleton, Nat.add_assoc]
              rw [hlvl'] at hnext
              cases path' with
              | nil =>
                  obtain ⟨hmiss, hall⟩ := searchPath_of_nil c.dimensionOrder c.rule _ hnext
                    (Multiset.nodup_of_le (Multiset.le_cons_self _ _) hnd) (by omega) hnextPath
                  exact hstop (by simp) fun _ => ⟨hmiss, hall _ (by simp [callDepth])⟩
              | cons a path' =>
                  obtain ⟨r, hr⟩ : ∃ r, last.nextLevel = some r := by
                    cases hl : last.nextLevel with
                    | none =>
                        rw [hl] at hnextPath
                        cases walk <;> cases hnextPath
                    | some r => exact ⟨r, rfl⟩
                  have hrun := hn.run (hn.exists_cons hleast).choose_spec.choose_spec.2.2
                  rw [hr] at hnext hnextPath hrun
                  have hstep := ih (c := c.atLevel (c.level + xs.length)) hsh hD hnext
                    (by rwa [Multiset.add_cons]) hnextPath
                    (by simpa [List.getLast?_append] using hb)
                    (by simp only [InsertCookie.atLevel]; omega)
                  rw [show (c.atLevel (c.level + xs.length)).atLevel
                    ((c.atLevel (c.level + xs.length)).level + ((a :: path').length - 1)) = c.atLevel
                      (c.level + ((compressedItems root 0 xs.length ++ a :: path').length - 1)) by
                    simp only [InsertCookie.atLevel, List.length_append, List.length_cons, hlen]
                    congr 1
                    omega] at hstep
                  refine hstep.mono fun _ p₁ hi => ?_
                  have hroot : p₁.mempool.get root = p.mempool.get root := by
                    obtain ⟨-, -, -, -, -, hagree, -⟩ := hi
                    exact hagree root (Multiset.mem_cons_self _ _)
                  rw [hits] at hrun ⊢
                  exact hi.below_run hT hsh (by omega) hk (by rwa [hroot]) (fun _ _ => rfl) (.refl _)
            · rw [if_neg hnil] at hpath'
              exact hstop (Except.ok.inj hpath') fun h => absurd h hnil

/-- An insertion stores the rest of the rule below the link. -/
theorem ensures_insert {link : Option ℕ} {fuel : ℕ} {fp : Multiset ℕ} (hE : ∀ p, E .badAlloc p)
    (hT : 2 ≤ cfg.T) (hsh : sh.Allows c.dimensionOrder) (hleast : 2 ≤ sh.least)
    (hlt : c.level < c.requiresLevels) (hD : c.requiresLevels ≤ cfg.D)
    (hd : Denotes cfg sh p.mempool c.level (.link link) t fp) (ho : Owns p (fp + rest))
    (hfuel : fp.card + 3 * (c.requiresLevels - c.level) + 6 ≤ fuel) :
    Ensures E (BTreeInsert.insert cfg fuel link c) p (LinkInserted cfg sh c p t rest) := by
  obtain ⟨fuel, rfl⟩ : ∃ f, fuel = f + 1 := ⟨fuel - 1, by omega⟩
  have hnd : fp.Nodup := Multiset.nodup_of_le (Multiset.le_add_right _ _) ho.nodup
  have hdepth : fp.card ≤ callDepth cfg p := by
    have := ho.card_le
    rw [Multiset.card_add] at this
    simp only [callDepth]
    omega
  obtain ⟨path, hpath⟩ := exists_searchPath c.dimensionOrder c.rule (callDepth cfg p) hd
    hnd hdepth (show cfg.D < c.level + callDepth cfg p by simp only [callDepth]; omega)
  cases hb : path.getLast? with
  | none =>
      obtain rfl : path = [] := by simpa using hb
      obtain ⟨hmiss, -⟩ := searchPath_of_nil c.dimensionOrder c.rule _ hd hnd hdepth hpath
      exact ensures_insert_of_nil hpath (ensures_insertToRoot hE hT hsh hleast hlt hD hd hmiss ho
        (by omega))
  | some b =>
      refine ensures_insert_of_path hpath hb ?_
      cases link with
      | none =>
          have : path = [] := by
            cases hc : callDepth cfg p <;> rw [hc] at hpath <;> cases hpath <;> rfl
          simp [this] at hb
      | some root =>
          exact ensures_insertBehind hE hT hsh hleast hD hd ho hpath hb (by omega)

end Pcv
