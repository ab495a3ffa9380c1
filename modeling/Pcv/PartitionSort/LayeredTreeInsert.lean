import Pcv.PartitionSort.CompressedNode
import Pcv.PartitionSort.LayerInsert
import Pcv.PartitionSort.SearchPath

/-!
# Insertion into a layered tree

The insertion changes the trie that a tree stores as `Trie.Ins` says, for every shape
of the tree: a new path, a new key in a layer, a new value for a key that is there,
and a key put beside one of a compressed node.  The only error it can end with is an
exhausted pool.
-/

namespace Pcv

open DynamicMempool Navigator BTreeInsert BTreeSearch
open Store (Agree)

variable {V : Type} [RuleValue V] {cfg : BTreeCfg} {sh : CompressedShape}
variable {E : Fault → NodeAllocator V → Prop} {p p' : NodeAllocator V}
variable {c : InsertCookie cfg.D V} {t : Trie Range1d V} {rest : Multiset ℕ}

/-- The ranges of the rule at all the levels from that of the cookie on. -/
def InsertCookie.sequence {D : ℕ} (c : InsertCookie D V) : List Range1d :=
  rangesFrom c.dimensionOrder c.rule (D - c.level) c.level

omit [RuleValue V] in
theorem InsertCookie.sequence_eq_cons {D : ℕ} {c : InsertCookie D V} (h : c.level < D) :
    c.sequence = rangeAt c.dimensionOrder c.rule c.level :: (c.atLevel (c.level + 1)).sequence := by
  simp only [sequence, atLevel]
  rw [show D - c.level = (D - (c.level + 1)) + 1 by omega, rangesFrom]

omit [RuleValue V] in
/-- The ranges that have to be stored are the first ones. -/
theorem InsertCookie.take_sequence {D : ℕ} {c : InsertCookie D V} (h : c.requiresLevels ≤ D) :
    c.sequence.take (c.requiresLevels - c.level) = c.ranges := by
  simp only [sequence, ranges]
  rw [show D - c.level = (c.requiresLevels - c.level) + (D - c.level - (c.requiresLevels - c.level))
    by omega, rangesFrom_add, List.take_left' (length_rangesFrom _ _ _ _)]

/-- The trie changes as by the insertion of the rest of the rule. -/
abbrev InsCookie (cfg : BTreeCfg) (c : InsertCookie cfg.D V) (t t' : Trie Range1d V) : Prop :=
  Trie.Ins Range1d.low (fillValue cfg c.rule.second) RuleValue.invalid c.rule.second
    (c.requiresLevels - c.level) c.sequence t t'

/-- The outcome of an insertion at a link that led to the trie `t`. -/
def LinkInserted (cfg : BTreeCfg) (sh : CompressedShape) (c : InsertCookie cfg.D V)
    (p : NodeAllocator V) (t : Trie Range1d V) (rest : Multiset ℕ) (link : Option ℕ)
    (p' : NodeAllocator V) : Prop :=
  ∃ t' fp, InsCookie cfg c t t' ∧ Denotes cfg sh p'.mempool c.level (.link link) t' fp ∧
    Owns p' (fp + rest) ∧ Agree rest p.mempool p'.mempool ∧ p'.ITEM_CNT = p.ITEM_CNT

/-! ## A new key in a layer -/

/-- The trie of a layer that got a new key. -/
theorem KeyInserted.linkInserted {h root : ℕ} {its L R : List (KeyInfo V)} {x : KeyInfo V}
    {fp fpN fpI : Multiset ℕ} (hi : KeyInserted cfg sh c p h none root its (fpI + rest) p' L R x fp fpN)
    (hlt : c.level < c.requiresLevels) (hD : c.requiresLevels ≤ cfg.D) (hne : its ≠ [])
    (ho : Ordered its) (hits : Denotes cfg sh p.mempool c.level (.items its) t fpI)
    (hmiss : Misses (rangeAt c.dimensionOrder c.rule c.level) t) :
    LinkInserted cfg sh c p t rest (some root) p' := by
  obtain ⟨hL, hR⟩ := hi.ordered ho
  have hits' := hits.frame fun j hj => hi.agree j (Multiset.mem_add.mpr (.inl hj))
  have hnil : t ≠ .nil := by
    rintro rfl
    have := hits.keys_eq
    exact hne (by simpa using this.symm)
  rw [hi.its_eq] at hits' ho
  obtain ⟨A, B, fp₁, fp₂, rfl, rfl, hA, hB⟩ := hits'.of_append
  have hx : Denotes cfg sh p'.mempool c.level (.items (x :: R)) _ (fpN + fp₂) := .cons hi.next hB
  have hnew := Denotes.layer (by omega) hi.layer (by simp) ?_ (hA.append hx)
  · refine ⟨_, _, ?_, hnew, ?_, fun j hj => hi.agree j (Multiset.mem_add.mpr (.inr hj)),
      hi.ITEM_CNT⟩
    · rw [InsCookie, InsertCookie.sequence_eq_cons (by omega), hi.key, hi.value,
        ← InsertCookie.take_sequence (c := c.atLevel (c.level + 1)) hD]
      have hkA : ∀ a ∈ A.keys, a.low ≤ (rangeAt c.dimensionOrder c.rule c.level).low := by
        rw [hA.keys_eq]
        intro a ha
        obtain ⟨y, hy, rfl⟩ := List.mem_map.mp ha
        exact hL y hy
      have hkB : ∀ b ∈ B.keys, (rangeAt c.dimensionOrder c.rule c.level).low ≤ b.low := by
        rw [hB.keys_eq]
        intro b hb
        obtain ⟨y, hy, rfl⟩ := List.mem_map.mp hb
        exact hR y hy
      have hif : (List.take ((c.atLevel (c.level + 1)).requiresLevels -
          (c.atLevel (c.level + 1)).level) (c.atLevel (c.level + 1)).sequence = []) ↔
            c.requiresLevels - c.level = 1 := by
        rw [InsertCookie.take_sequence (c := c.atLevel (c.level + 1)) hD,
          InsertCookie.ranges_eq_nil]
        simp only [InsertCookie.atLevel]
        omega
      rw [if_congr hif rfl rfl]
      have hneed : (c.atLevel (c.level + 1)).requiresLevels - (c.atLevel (c.level + 1)).level =
          c.requiresLevels - c.level - 1 := by
        simp only [InsertCookie.atLevel]
        omega
      rw [hneed]
      exact .new (by omega) hnil hkA hkB hmiss
    · have := hi.owns
      have heq : fp + (fp₁ + (fpN + fp₂)) + rest = fp + (fpN + (fp₁ + fp₂ + rest)) := by abel
      rwa [heq]
  · obtain ⟨hoL, hoR, hLR⟩ := List.pairwise_append.mp ho
    refine List.pairwise_append.mpr ⟨hoL, List.pairwise_cons.mpr ⟨fun b hb => ?_, hoR⟩, ?_⟩
    · rw [hi.key]
      exact hR b hb
    · intro a ha b hb
      rcases List.mem_cons.mp hb with rfl | hb
      · rw [hi.key]
        exact hL a ha
      · exact hLR a ha b hb

theorem LinkInserted.after {p₁ : NodeAllocator V} {link : Option ℕ}
    (hi : LinkInserted cfg sh c p₁ t rest link p') (hagree : Agree rest p.mempool p₁.mempool)
    (hN : p₁.ITEM_CNT = p.ITEM_CNT) : LinkInserted cfg sh c p t rest link p' := by
  obtain ⟨t', fp, hins, hd, ho, hagree', hN'⟩ := hi
  exact ⟨t', fp, hins, hd, ho, hagree.trans hagree', hN'.trans hN⟩

/-- The root of a layer, when it is full, becomes the child of a new root. -/
private theorem ensures_growRoot {h root : ℕ} {its : List (KeyInfo V)} {fp : Multiset ℕ}
    {fuel : ℕ} (hE : ∀ p, E .badAlloc p) (hT : 2 ≤ cfg.T) (hsh : sh.Allows c.dimensionOrder)
    (hlt : c.level < c.requiresLevels) (hD : c.requiresLevels ≤ cfg.D)
    (hL : Layer cfg p.mempool h none root its fp)
    (hfull : (p.mempool.get root).keyCnt = cfg.maxDegree) (ho : Owns p (fp + rest))
    (hfuel : h + 3 * (c.requiresLevels - c.level) ≤ fuel + 2) :
    Ensures E (do
        let s ← newNode cfg
        update s fun n => { n with isLeaf := false }
        setChild s 0 (some root)
        splitChild cfg s 0 root
        let ns ← read s
        let i := if (ns.getKey 0).key.low < (rangeAt c.dimensionOrder c.rule c.level).low
          then 1 else 0
        insertNonFull cfg fuel (← deref (ns.childIndex.get i)) c
        return some s) p fun link p' => ∃ s p₁ L R x fp' fpN, link = some s ∧
          Agree rest p.mempool p₁.mempool ∧ p₁.ITEM_CNT = p.ITEM_CNT ∧
          KeyInserted cfg sh c p₁ (h + 1) none s its rest p' L R x fp' fpN := by
  refine Ensures.bind (ensures_get ho (hE p) fun s p₁ hs ho₁ hN₁ hm₁ => ?_)
  obtain ⟨hsfp, hsrest⟩ : s ∉ fp ∧ s ∉ rest := by simpa using hs
  have hrootfp := hL.root_mem
  have hsroot : s ≠ root := fun h => hsfp (h ▸ hrootfp)
  have hndfp : fp.Nodup := Multiset.nodup_of_le (Multiset.le_add_right _ _) ho.nodup
  refine Ensures.bind (ensures_update ?_)
  refine Ensures.bind (ensures_setChild hsroot fun p₂ hp₂ hs₂ hroot₂ hoth₂ => ?_)
  simp only [Store.get_set_self, Store.get_set_of_ne _ _ hsroot.symm] at hs₂ hroot₂
  have hget₁ : ∀ j, j ≠ s → p₁.mempool.get j = p.mempool.get j := by
    intro j hj
    rw [hm₁, Store.get_set_of_ne _ _ hj]
  have hother₂ : ∀ j, j ≠ s → j ≠ root → p₂.mempool.get j = p.mempool.get j := by
    intro j hjs hjr
    rw [hoth₂ j hjs hjr]
    simp only
    rw [Store.get_set_of_ne _ _ hjs, hget₁ j hjs]
  rw [hget₁ root hsroot.symm] at hroot₂
  have hrootrest : root ∉ rest := fun h =>
    Multiset.disjoint_left.mp (Multiset.nodup_add.mp ho.nodup).2.2 hrootfp h
  have hagree₂ : Agree rest p.mempool p₂.mempool := fun j hj =>
    hother₂ j (fun h => hsrest (h ▸ hj)) (fun h => hrootrest (h ▸ hj))
  have hL₂ : Layer cfg p₂.mempool h (some s) root its fp :=
    hL.setParent hndfp hroot₂ fun j hj hjr => hother₂ j (fun h => hsfp (h ▸ hj)) hjr
  have hsmake : p₁.mempool.get s = Node.make cfg := by simp [hm₁]
  rw [hsmake] at hs₂
  have hnode₂ : (p₂.mempool.get s).InnerNode none ([] ++ []) ([] ++ root :: []) := by
    rw [hs₂]
    refine ⟨⟨rfl, by simp, rfl, rfl⟩, rfl, fun i hi => ?_⟩
    obtain rfl : i = 0 := by simpa using hi
    simp [Node.setChildIndex]
  have ho₂ : Owns p₂ (s ::ₘ (0 + (fp + 0)) + rest) := by
    have := ho₁.congr ((samePool_write _ _).trans hp₂)
    simpa [Multiset.cons_add] using this
  refine Ensures.bind (show Ensures E (splitChild cfg s ([] : List (KeyInfo V)).length root) p₂ _
    from ensures_splitChild_layer hE hT ho₂ hnode₂ .nil hL₂ (by rw [hroot₂]; exact hfull) .nil ?_)
  intro p₃ z A m B fpA fpB hits ho₃ hN₃ hnode₃ _ hA hAcnt hB hBcnt _ hagree₃
  subst hits
  have hN : p₃.ITEM_CNT = p.ITEM_CNT := hN₃.trans (hp₂.ITEM_CNT.trans hN₁)
  have hminlt : cfg.minDegree < cfg.maxDegree := by
    simp only [BTreeCfg.minDegree, BTreeCfg.maxDegree]
    omega
  have hlen : ([m] : List (KeyInfo V)).length ≤ cfg.maxDegree := by
    simp only [List.length_singleton]
    omega
  have hm : (p₃.mempool.get s).getKey 0 = m := by
    have := hnode₃.getKey 0 (by simp)
    simpa using this.symm
  refine Ensures.bind (ensures_read ?_)
  rw [hm]
  by_cases hside : m.key.low < (rangeAt c.dimensionOrder c.rule c.level).low
  · simp only [hside, if_true]
    have hz : (p₃.mempool.get s).childIndex.get 1 = some z := by
      have := hnode₃.child 1 (by simp)
      simpa using this.symm
    refine Ensures.bind (ensures_deref hz (Ensures.bind ?_))
    have hfp : s ::ₘ (0 + (fpA + fpB + 0)) + rest = fpB + (s ::ₘ (fpA + 0) + rest) := by
      simp only [Multiset.cons_add, Multiset.add_cons]
      congr 1
      abel
    rw [hfp] at ho₃
    refine (ensures_insertNonFull hE hT hsh hlt hD hB (by omega) ho₃ (by omega)).mono ?_
    rintro _ p₄ ⟨L, R, x, fpZ, fpN, hi⟩
    have hb : Before (Child cfg p₃.mempool h s) [m] [root] (A ++ [m]) fpA := by
      simpa using Before.concat (k := m) Before.nil (show Child cfg p₃.mempool h s root A fpA from
        ⟨hA, hAcnt.ge⟩)
    have hfin := KeyInserted.of_child
      (show (p₃.mempool.get s).InnerNode none ([m] ++ []) ([root] ++ z :: []) by simpa using hnode₃)
      (by simp) hlen hb hBcnt.ge .nil (by simpa using hside.le) (by simp) hi
    rw [show A ++ [m] ++ (B ++ []) = A ++ m :: B by simp] at hfin
    exact ⟨s, p₃, _, _, _, _, _, rfl, hagree₂.trans hagree₃, hN, hfin⟩
  · simp only [hside, if_false]
    have hy : (p₃.mempool.get s).childIndex.get 0 = some root := by
      have := hnode₃.child 0 (by simp)
      simpa using this.symm
    refine Ensures.bind (ensures_deref hy (Ensures.bind ?_))
    have hfp : s ::ₘ (0 + (fpA + fpB + 0)) + rest = fpA + (s ::ₘ (0 + fpB) + rest) := by
      simp only [Multiset.cons_add, Multiset.add_cons]
      congr 1
      abel
    rw [hfp] at ho₃
    refine (ensures_insertNonFull hE hT hsh hlt hD hA (by omega) ho₃ (by omega)).mono ?_
    rintro _ p₄ ⟨L, R, x, fpY, fpN, hi⟩
    have ha : After (Child cfg p₃.mempool h s) [m] [z] (m :: B) fpB := by
      simpa using After.cons (k := m) (show Child cfg p₃.mempool h s z B fpB from ⟨hB, hBcnt.ge⟩)
        After.nil
    have hfin := KeyInserted.of_child
      (show (p₃.mempool.get s).InnerNode none ([] ++ [m]) ([] ++ root :: [z]) by simpa using hnode₃)
      (by simp) hlen .nil hAcnt.ge ha (by simp) (by simpa using Nat.not_lt.mp hside) hi
    exact ⟨s, p₃, _, _, _, _, _, rfl, hagree₂.trans hagree₃, hN, by simpa using hfin⟩

/-- Insertion into a layer that is not compressed and does not hold the key. -/
theorem ensures_insertToRoot_layer {h root fuel : ℕ} {its : List (KeyInfo V)}
    {fp fpI : Multiset ℕ} (hE : ∀ p, E .badAlloc p) (hT : 2 ≤ cfg.T)
    (hsh : sh.Allows c.dimensionOrder) (hlt : c.level < c.requiresLevels)
    (hD : c.requiresLevels ≤ cfg.D) (hL : Layer cfg p.mempool h none root its fp) (hne : its ≠ [])
    (hord : Ordered its) (hits : Denotes cfg sh p.mempool c.level (.items its) t fpI)
    (hmiss : Misses (rangeAt c.dimensionOrder c.rule c.level) t) (ho : Owns p (fp + fpI + rest))
    (hfuel : h + 3 * (c.requiresLevels - c.level) ≤ fuel + 1) :
    Ensures E (insertToRoot cfg fuel (some root) c) p fun link p' =>
      LinkInserted cfg sh c p t rest link p' ∧
        ((p.mempool.get root).keyCnt < cfg.maxDegree → link = some root) := by
  obtain ⟨fuel, rfl⟩ : ∃ f, fuel = f + 1 := ⟨fuel - 1, by omega⟩
  rw [add_assoc] at ho
  rw [insertToRoot]
  refine Ensures.bind (ensures_read ?_)
  simp only [hL.isCompressed, Bool.false_eq_true, if_false]
  refine Ensures.ite (fun hfull => ?_) (fun hfull => ?_)
  · refine Ensures.bind (ensures_getActualKey (by omega) ?_)
    refine (ensures_growRoot hE hT hsh hlt hD hL hfull ho (by omega)).mono ?_
    rintro _ p' ⟨s, p₁, L, R, x, fp', fpN, rfl, hagree, hN, hi⟩
    refine ⟨?_, fun hlt' => absurd hfull (Nat.ne_of_lt hlt')⟩
    have hits₁ := hits.frame fun j hj => hagree j (Multiset.mem_add.mpr (.inl hj))
    exact (hi.linkInserted hlt hD hne hord hits₁ hmiss).after
      (fun j hj => hagree j (Multiset.mem_add.mpr (.inr hj))) hN
  · have hfree := lt_of_le_of_ne hL.keyCnt_le hfull
    refine Ensures.bind ((ensures_insertNonFull hE hT hsh hlt hD hL hfree ho (by omega)).mono ?_)
    rintro _ p' ⟨L, R, x, fp', fpN, hi⟩
    exact ⟨hi.linkInserted hlt hD hne hord hits hmiss, fun _ => rfl⟩

end Pcv
