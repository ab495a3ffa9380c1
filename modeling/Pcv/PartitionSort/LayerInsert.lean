import Pcv.PartitionSort.LayerSplit
import Pcv.PartitionSort.NewPath

/-!
# Insertion into one layer

`insertNonFull` puts a new key into a layer that is not compressed, at a place
that keeps the keys in their order, and builds the path of the remaining ranges
below it.
-/

namespace Pcv

open DynamicMempool Navigator
open Store (Agree)

variable {V : Type} [RuleValue V] {cfg : BTreeCfg} {sh : CompressedShape}
variable {E : Fault → NodeAllocator V → Prop} {c : InsertCookie cfg.D V}
variable {h n : ℕ} {par : Option ℕ} {its : List (KeyInfo V)} {rest : Multiset ℕ}
variable {p p' : NodeAllocator V}

/-- The layer below node `n`, which held `its`, got the key that the cookie is at, with
the path of the remaining ranges below it. -/
structure KeyInserted (cfg : BTreeCfg) (sh : CompressedShape) (c : InsertCookie cfg.D V)
    (p : NodeAllocator V) (h : ℕ) (par : Option ℕ) (n : ℕ) (its : List (KeyInfo V))
    (rest : Multiset ℕ) (p' : NodeAllocator V) (L R : List (KeyInfo V)) (x : KeyInfo V)
    (fp fpN : Multiset ℕ) : Prop where
  its_eq : its = L ++ R
  key : x.key = rangeAt c.dimensionOrder c.rule c.level
  value : x.value = if (c.atLevel (c.level + 1)).ranges = [] then c.rule.second
    else RuleValue.invalid
  layer : Layer cfg p'.mempool h par n (L ++ x :: R) fp
  next : Denotes cfg sh p'.mempool (c.level + 1) (.link x.nextLevel)
    (Trie.path (fillValue cfg c.rule.second) (c.atLevel (c.level + 1)).ranges c.rule.second) fpN
  owns : Owns p' (fp + (fpN + rest))
  agree : Agree rest p.mempool p'.mempool
  ITEM_CNT : p'.ITEM_CNT = p.ITEM_CNT
  keyCnt : (p.mempool.get n).keyCnt ≤ (p'.mempool.get n).keyCnt
  ordered : Ordered its → (∀ a ∈ L, a.key.low ≤ (rangeAt c.dimensionOrder c.rule c.level).low) ∧
    ∀ b ∈ R, (rangeAt c.dimensionOrder c.rule c.level).low ≤ b.key.low

/-- A step before the insertion that keeps what the layer holds. -/
theorem KeyInserted.after {p₁ : NodeAllocator V} {L R : List (KeyInfo V)} {x : KeyInfo V}
    {fp fpN : Multiset ℕ} (hi : KeyInserted cfg sh c p₁ h par n its rest p' L R x fp fpN)
    (hagree : Agree rest p.mempool p₁.mempool) (hN : p₁.ITEM_CNT = p.ITEM_CNT)
    (hcnt : (p.mempool.get n).keyCnt ≤ (p₁.mempool.get n).keyCnt) :
    KeyInserted cfg sh c p h par n its rest p' L R x fp fpN :=
  { hi with
    agree := hagree.trans hi.agree
    ITEM_CNT := hi.ITEM_CNT.trans hN
    keyCnt := hcnt.trans hi.keyCnt }

omit [RuleValue V] in
/-- In an ordered list, what comes before the last key of the front part begins no later. -/
private theorem low_le_of_concat {L : List (KeyInfo V)} {x : KeyInfo V} {low : ℕ}
    (ho : Ordered (L ++ [x])) (hx : x.key.low ≤ low) : ∀ a ∈ L ++ [x], a.key.low ≤ low := by
  intro a ha
  rcases List.mem_append.mp ha with ha | ha
  · exact ((List.pairwise_append.mp ho).2.2 a ha x (by simp)).trans hx
  · obtain rfl : a = x := by simpa using ha
    exact hx

/-- An insertion into a child is an insertion into the layer. -/
theorem KeyInserted.of_child {y : ℕ} {ks₁ ks₂ its₁ itsY its₂ L R : List (KeyInfo V)}
    {x : KeyInfo V} {cs₁ cs₂ : List ℕ} {fp₁ fp₂ fpY fpN : Multiset ℕ}
    (hn : (p.mempool.get n).InnerNode par (ks₁ ++ ks₂) (cs₁ ++ y :: cs₂))
    (hne : ks₁ ++ ks₂ ≠ []) (hlen : (ks₁ ++ ks₂).length ≤ cfg.maxDegree)
    (h₁ : Before (Child cfg p.mempool h n) ks₁ cs₁ its₁ fp₁)
    (hmin : cfg.minDegree ≤ (p.mempool.get y).keyCnt)
    (h₂ : After (Child cfg p.mempool h n) ks₂ cs₂ its₂ fp₂)
    (hks₁ : ∀ a ∈ ks₁.getLast?, a.key.low ≤ (rangeAt c.dimensionOrder c.rule c.level).low)
    (hks₂ : ∀ b ∈ ks₂.head?, (rangeAt c.dimensionOrder c.rule c.level).low ≤ b.key.low)
    (hi : KeyInserted cfg sh c p h (some n) y itsY (n ::ₘ (fp₁ + fp₂) + rest) p' L R x fpY fpN) :
    KeyInserted cfg sh c p (h + 1) par n (its₁ ++ (itsY ++ its₂)) rest p' (its₁ ++ L)
      (R ++ its₂) x (n ::ₘ (fp₁ + (fpY + fp₂))) fpN := by
  have hagree := hi.agree
  have hnsame : p'.mempool.get n = p.mempool.get n := hagree n (by simp)
  have hagree₁ : Agree fp₁ p.mempool p'.mempool := fun j hj => hagree j (by simp [hj])
  have hagree₂ : Agree fp₂ p.mempool p'.mempool := fun j hj => hagree j (by simp [hj])
  refine ⟨by simp [hi.its_eq], hi.key, hi.value, ?_, hi.next, ?_, fun j hj => ?_, hi.ITEM_CNT, ?_,
    fun ho => ?_⟩
  · refine ⟨ks₁ ++ ks₂, cs₁ ++ y :: cs₂, fp₁ + (fpY + fp₂), by rwa [hnsame], hne, hlen, ?_, rfl⟩
    have := Chain.plug (Before.frame h₁ hagree₁)
      (Chain.last (P := Child cfg p'.mempool h n) ⟨hi.layer, hmin.trans hi.keyCnt⟩)
      (After.frame h₂ hagree₂)
    simpa using this
  · have : fpY + (fpN + (n ::ₘ (fp₁ + fp₂) + rest)) =
        n ::ₘ (fp₁ + (fpY + fp₂)) + (fpN + rest) := by
      simp only [Multiset.cons_add, Multiset.add_cons]
      congr 1
      abel
    rw [← this]
    exact hi.owns
  · exact hagree j (by simp [hj])
  · rw [hnsame]
  · obtain ⟨ho₁, ho', -⟩ := List.pairwise_append.mp ho
    obtain ⟨hoY, ho₂, -⟩ := List.pairwise_append.mp ho'
    obtain ⟨hL, hR⟩ := hi.ordered hoY
    refine ⟨fun a ha => ?_, fun b hb => ?_⟩
    · rcases List.mem_append.mp ha with ha | ha
      · rcases List.eq_nil_or_concat ks₁ with rfl | ⟨ks₁, k, rfl⟩
        · cases h₁
          simp at ha
        · rw [List.concat_eq_append] at h₁ hks₁
          obtain ⟨its₁', rfl⟩ := h₁.concat_eq
          exact low_le_of_concat ho₁ (hks₁ k (by simp)) a ha
      · exact hL a ha
    · rcases List.mem_append.mp hb with hb | hb
      · exact hR b hb
      · cases h₂ with
        | nil => simp at hb
        | @cons _ _ k _ _ _ _ _ _ _ =>
            have hk := hks₂ k (by simp)
            rcases List.mem_cons.mp hb with rfl | hb
            · exact hk
            · exact hk.trans ((List.pairwise_cons.mp ho₂).1 b hb)

/-! ## The place of the key in a node -/

omit [RuleValue V] in
/-- Where the scan from the right stops. -/
theorem scanLeft_spec {nd : Node V} {ks : List (KeyInfo V)} (hn : nd.Holds par ks)
    (k : Range1d) :
    ∃ ks₁ ks₂, ks = ks₁ ++ ks₂ ∧ BTreeInsert.scanLeft nd k nd.keyCnt = ks₁.length ∧
      (∀ b ∈ ks₂, k.low < b.key.low) ∧ ∀ a ∈ ks₁.getLast?, a.key.low ≤ k.low := by
  rw [hn.keyCnt]
  have main : ∀ ks₁ ks₂, ks = ks₁ ++ ks₂ → (∀ b ∈ ks₂, k.low < b.key.low) →
      ∃ ks₁' ks₂', ks = ks₁' ++ ks₂' ∧ BTreeInsert.scanLeft nd k ks₁.length = ks₁'.length ∧
        (∀ b ∈ ks₂', k.low < b.key.low) ∧ ∀ a ∈ ks₁'.getLast?, a.key.low ≤ k.low := by
    intro ks₁
    induction ks₁ using List.reverseRecOn with
    | nil =>
        intro ks₂ hks h₂
        exact ⟨[], ks₂, hks, rfl, h₂, by simp⟩
    | append_singleton ks₁ x ih =>
        intro ks₂ hks h₂
        have hx : nd.getKey ks₁.length = x := by
          have := hn.getKey ks₁.length (by simp [hks])
          simpa [hks] using this.symm
        rw [List.length_append, List.length_singleton, BTreeInsert.scanLeft, hx]
        by_cases hgt : x.key.low > k.low
        · rw [if_pos hgt]
          refine ih (x :: ks₂) (by simp [hks]) fun b hb => ?_
          rcases List.mem_cons.mp hb with rfl | hb
          · exact hgt
          · exact h₂ b hb
        · rw [if_neg hgt]
          exact ⟨ks₁ ++ [x], ks₂, hks, by simp, h₂, by simpa using hgt⟩
  exact main ks [] (by simp) (by simp)

/-! ## The insertion -/

/-- A leaf with a free slot takes the key, and the path below it is built. -/
private theorem ensures_insertNonFull_leaf {fuel : ℕ} (hE : ∀ p, E .badAlloc p) (hT : 2 ≤ cfg.T)
    (hsh : sh.Allows c.dimensionOrder) (hlt : c.level < c.requiresLevels)
    (hD : c.requiresLevels ≤ cfg.D) (hleaf : (p.mempool.get n).LeafNode par its)
    (hfree : its.length < cfg.maxDegree) (ho : Owns p (n ::ₘ rest))
    (hfuel : 3 * (c.requiresLevels - c.level) ≤ fuel + 3) :
    Ensures E (BTreeInsert.insertNonFull cfg (fuel + 1) n c) p fun _ p' =>
      ∃ L R x fp fpN, KeyInserted cfg sh c p 0 par n its rest p' L R x fp fpN := by
  rw [BTreeInsert.insertNonFull]
  refine Ensures.bind (ensures_getActualKey (by omega) (Ensures.bind (ensures_read ?_)))
  obtain ⟨L, R, rfl, hscan, hR, hL⟩ :=
    scanLeft_spec hleaf.toHolds (rangeAt c.dimensionOrder c.rule c.level)
  simp only [hscan, hleaf.isLeaf, if_true]
  set rv := if c.requiredMoreLevels = true then RuleValue.invalid else c.rule.second with hrv
  set nd := (((p.mempool.get n).shiftKeysRight L.length (p.mempool.get n).keyCnt).setKey L.length
    ⟨rangeAt c.dimensionOrder c.rule c.level, rv, none⟩).setKeyCnt ((p.mempool.get n).keyCnt + 1)
    with hnd
  have hholds : nd.Holds par (L ++ ⟨rangeAt c.dimensionOrder c.rule c.level, rv, none⟩ :: R) :=
    hleaf.toHolds.insertKey _
  have hndleaf : nd.isLeaf = true :=
    (Node.shiftKeysRight_sameFrame (p.mempool.get n) L.length _).isLeaf.trans hleaf.isLeaf
  have hndchild : ∀ i, nd.childIndex.get i = none := by
    have : nd.childIndex = (p.mempool.get n).childIndex :=
      (Node.shiftKeysRight_sameFrame (p.mempool.get n) L.length _).childIndex
    rw [this]
    exact hleaf.child
  have hcnt : (p.mempool.get n).keyCnt ≤ nd.keyCnt := by
    simp [hnd, Node.setKeyCnt]
  have hnr : n ∉ rest := (Multiset.nodup_cons.mp ho.nodup).1
  have hordered : Ordered (L ++ R) →
      (∀ a ∈ L, a.key.low ≤ (rangeAt c.dimensionOrder c.rule c.level).low) ∧
        ∀ b ∈ R, (rangeAt c.dimensionOrder c.rule c.level).low ≤ b.key.low := by
    intro ho
    refine ⟨fun a ha => ?_, fun b hb => (hR b hb).le⟩
    rcases List.eq_nil_or_concat L with rfl | ⟨L, k, rfl⟩
    · simp at ha
    · rw [List.concat_eq_append] at ha ho hL
      exact low_le_of_concat (List.pairwise_append.mp ho).1 (hL k (by simp)) a ha
  have hlen : ∀ x : KeyInfo V, (L ++ x :: R).length ≤ cfg.maxDegree := by
    intro x
    simp only [List.length_append, List.length_cons] at hfree ⊢
    omega
  refine Ensures.bind (ensures_update ?_)
  refine Ensures.ite (fun hmore => ?_) (fun hmore => ?_)
  · have hlt' : c.level + 1 < c.requiresLevels := of_decide_eq_true hmore
    have hne : (c.atLevel (c.level + 1)).ranges ≠ [] := by
      rw [Ne, InsertCookie.ranges_eq_nil]
      exact Nat.not_le.mpr hlt'
    refine Ensures.bind (ensures_read ?_)
    simp only [Store.get_set_self]
    have hlink : nd.nextLevel.get L.length = none := by
      simp [hnd, Node.setKeyCnt, Node.setKey]
    rw [hlink]
    refine Ensures.bind ((ensures_insertToRoot_none (c := c.atLevel (c.level + 1)) hE hT hsh hlt' hD
      (ho.congr (samePool_write _ _)) (by simp only [InsertCookie.atLevel]; omega)).mono ?_)
    rintro nl p₂ ⟨fpN, hd, ho₂, hagree₂, hN₂⟩
    refine ensures_update ?_
    have hn₂ : p₂.mempool.get n = nd := by
      rw [hagree₂ n (by simp), Store.get_set_self]
    have hnN : n ∉ fpN := by
      have := ho₂.nodup
      rw [Multiset.add_cons, Multiset.nodup_cons, Multiset.mem_add] at this
      tauto
    have hslot : nd.SlotChanged (nd.setNextLevel L.length nl) L.length
        ⟨rangeAt c.dimensionOrder c.rule c.level, RuleValue.invalid, nl⟩ := by
      refine ⟨⟨rfl, rfl, rfl, rfl, rfl, rfl⟩, fun j => ?_⟩
      rw [Node.getKey_setNextLevel]
      have := hholds.getKey L.length (by simp)
      split
      · next hj =>
          subst hj
          have : nd.getKey L.length = ⟨rangeAt c.dimensionOrder c.rule c.level, rv, none⟩ := by
            simpa using this.symm
          rw [this, hrv, if_pos hmore]
      · rfl
    refine ⟨L, R, ⟨rangeAt c.dimensionOrder c.rule c.level, RuleValue.invalid, nl⟩, {n}, fpN, rfl,
      rfl, by rw [if_neg hne], ?_, ?_, ?_, ?_, hN₂, ?_, hordered⟩
    · refine ⟨⟨?_, ?_, ?_⟩, hlen _, rfl⟩
      · simp only [Store.get_set_self, hn₂]
        exact hholds.slotChanged rfl hslot
      · simp only [Store.get_set_self, hn₂]
        exact hndleaf
      · simp only [Store.get_set_self, hn₂]
        exact hndchild
    · exact hd.frame ((Agree.refl _ _).set hnN)
    · rw [Multiset.singleton_add, ← Multiset.add_cons]
      exact ho₂.congr (samePool_write _ _)
    · intro j hj
      have hjn : j ≠ n := fun h => hnr (h ▸ hj)
      simp only
      rw [Store.get_set_of_ne _ _ hjn, hagree₂ j (Multiset.mem_cons_of_mem hj),
        Store.get_set_of_ne _ _ hjn]
    · simp only [Store.get_set_self, hn₂]
      exact hcnt
  · have hlt' : ¬ c.level + 1 < c.requiresLevels := fun h => hmore (decide_eq_true h)
    have hnil : (c.atLevel (c.level + 1)).ranges = [] :=
      InsertCookie.ranges_eq_nil.mpr (Nat.not_lt.mp hlt')
    refine ⟨L, R, ⟨rangeAt c.dimensionOrder c.rule c.level, rv, none⟩, {n}, 0, rfl, rfl, ?_,
      ⟨⟨?_, ?_, ?_⟩, hlen _, rfl⟩, ?_, ?_, ?_, rfl, ?_, hordered⟩
    · rw [if_pos hnil, hrv, if_neg hmore]
    · simp only [Store.get_set_self]
      exact hholds
    · simp only [Store.get_set_self]
      exact hndleaf
    · simp only [Store.get_set_self]
      exact hndchild
    · rw [hnil]
      exact .null
    · rw [Multiset.singleton_add, Multiset.zero_add]
      exact ho.congr (samePool_write _ _)
    · exact (Agree.refl _ _).set hnr
    · simp only [Store.get_set_self]
      exact hcnt

/-- Insertion into a layer whose root has a free slot. -/
theorem ensures_insertNonFull {fuel : ℕ} {fp : Multiset ℕ} (hE : ∀ p, E .badAlloc p)
    (hT : 2 ≤ cfg.T) (hsh : sh.Allows c.dimensionOrder) (hlt : c.level < c.requiresLevels)
    (hD : c.requiresLevels ≤ cfg.D) (hL : Layer cfg p.mempool h par n its fp)
    (hfree : (p.mempool.get n).keyCnt < cfg.maxDegree) (ho : Owns p (fp + rest))
    (hfuel : h + 3 * (c.requiresLevels - c.level) ≤ fuel + 2) :
    Ensures E (BTreeInsert.insertNonFull cfg fuel n c) p fun _ p' =>
      ∃ L R x fp fpN, KeyInserted cfg sh c p h par n its rest p' L R x fp fpN := by
  induction h generalizing par n its fp fuel p rest with
  | zero =>
      obtain ⟨fuel, rfl⟩ : ∃ f, fuel = f + 1 := ⟨fuel - 1, by omega⟩
      obtain ⟨hleaf, hlen, rfl⟩ := hL
      rw [hleaf.keyCnt] at hfree
      exact ensures_insertNonFull_leaf hE hT hsh hlt hD hleaf hfree
        (by rwa [Multiset.singleton_add] at ho) (by omega)
  | succ h ih =>
      obtain ⟨fuel, rfl⟩ : ∃ f, fuel = f + 1 := ⟨fuel - 1, by omega⟩
      obtain ⟨ks, cs, fp', hnode, hne, hlen, hch, rfl⟩ := hL
      rw [BTreeInsert.insertNonFull]
      refine Ensures.bind (ensures_getActualKey (by omega) (Ensures.bind (ensures_read ?_)))
      obtain ⟨ks₁, ks₂, rfl, hscan, hks₂, hks₁⟩ :=
        scanLeft_spec hnode.toHolds (rangeAt c.dimensionOrder c.rule c.level)
      obtain ⟨cs₁, y, cs₂, its₁, itsY, its₂, fp₁, fpY, fp₂, rfl, rfl, rfl, h₁, hy, h₂⟩ := hch.focus
      have hcs₁ := h₁.length_eq
      have hchild : (p.mempool.get n).childIndex.get ks₁.length = some y := by
        have := hnode.child cs₁.length (by simp)
        simpa [← hcs₁] using this.symm
      have hhead : ∀ b ∈ ks₂.head?, (rangeAt c.dimensionOrder c.rule c.level).low ≤ b.key.low := by
        intro b hb
        exact (hks₂ b (List.mem_of_mem_head? hb)).le
      have hcnt := hnode.keyCnt
      simp only [hscan, hnode.isLeaf, Bool.false_eq_true, if_false]
      refine Ensures.bind (ensures_deref hchild (Ensures.bind (ensures_read ?_)))
      refine Ensures.ite (fun hfull => ?_) (fun hfull => ?_)
      · -- the child is full: split it, and go on with the half the key belongs to
        refine Ensures.bind (ensures_splitChild_layer hE hT ho hnode h₁ hy.1 hfull h₂ ?_)
        intro p₁ z A m B fpA fpB hits ho₁ hN₁ hnode₁ h₁' hA hAcnt hB hBcnt h₂' hagree
        subst hits
        have hlen' : (ks₁ ++ m :: ks₂).length ≤ cfg.maxDegree := by
          simp only [List.length_append, List.length_cons] at hlen hcnt ⊢
          omega
        have hcnt₁ : (p.mempool.get n).keyCnt ≤ (p₁.mempool.get n).keyCnt := by
          have := hnode₁.keyCnt
          simp only [List.length_append, List.length_cons] at this hcnt
          omega
        have hminlt : cfg.minDegree < cfg.maxDegree := by
          simp only [BTreeCfg.minDegree, BTreeCfg.maxDegree]
          omega
        have hm : (p₁.mempool.get n).getKey ks₁.length = m := by
          have := hnode₁.getKey ks₁.length (by simp)
          simpa using this.symm
        refine Ensures.bind (ensures_read ?_)
        rw [hm]
        by_cases hside : m.key.low < (rangeAt c.dimensionOrder c.rule c.level).low
        · simp only [hside, if_true]
          have hz : (p₁.mempool.get n).childIndex.get (ks₁.length + 1) = some z := by
            have := hnode₁.child (ks₁.length + 1) (by simp; omega)
            rw [← hcs₁, List.getElem?_append_right (by omega)] at this
            rw [← hcs₁]
            simpa using this.symm
          refine Ensures.bind (ensures_deref hz ?_)
          have hfp : n ::ₘ (fp₁ + (fpA + fpB + fp₂)) + rest =
              fpB + (n ::ₘ (fp₁ + fpA + fp₂) + rest) := by
            simp only [Multiset.cons_add, Multiset.add_cons]
            congr 1
            abel
          rw [hfp] at ho₁
          refine (ih hB (by omega) ho₁ (by omega)).mono ?_
          rintro _ p₂ ⟨L, R, x, fpZ, fpN, hi⟩
          have hn₁ : (p₁.mempool.get n).InnerNode par ((ks₁ ++ [m]) ++ ks₂)
              ((cs₁ ++ [y]) ++ z :: cs₂) := by
            simpa using hnode₁
          have hb : Before (Child cfg p₁.mempool h n) (ks₁ ++ [m]) (cs₁ ++ [y])
              (its₁ ++ A ++ [m]) (fp₁ + fpA) := h₁'.concat ⟨hA, hAcnt.ge⟩
          have hfin := (KeyInserted.of_child hn₁ (by simp) (by simpa using hlen') hb hBcnt.ge h₂'
            (by simpa using hside.le) hhead hi).after hagree hN₁ hcnt₁
          rw [show its₁ ++ (A ++ m :: B ++ its₂) = its₁ ++ A ++ [m] ++ (B ++ its₂) by simp]
          exact ⟨_, _, _, _, _, hfin⟩
        · simp only [hside, if_false]
          have hy₁ : (p₁.mempool.get n).childIndex.get ks₁.length = some y := by
            have := hnode₁.child cs₁.length (by simp)
            simpa [← hcs₁] using this.symm
          refine Ensures.bind (ensures_deref hy₁ ?_)
          have hfp : n ::ₘ (fp₁ + (fpA + fpB + fp₂)) + rest =
              fpA + (n ::ₘ (fp₁ + (fpB + fp₂)) + rest) := by
            simp only [Multiset.cons_add, Multiset.add_cons]
            congr 1
            abel
          rw [hfp] at ho₁
          refine (ih hA (by omega) ho₁ (by omega)).mono ?_
          rintro _ p₂ ⟨L, R, x, fpY', fpN, hi⟩
          have ha : After (Child cfg p₁.mempool h n) (m :: ks₂) (z :: cs₂) (m :: (B ++ its₂))
              (fpB + fp₂) := .cons ⟨hB, hBcnt.ge⟩ h₂'
          have hfin := (KeyInserted.of_child hnode₁ (by simp) hlen' h₁' hAcnt.ge ha hks₁
            (by simpa using Nat.not_lt.mp hside) hi).after hagree hN₁ hcnt₁
          rw [show its₁ ++ (A ++ m :: B ++ its₂) = its₁ ++ (A ++ m :: (B ++ its₂)) by simp]
          exact ⟨_, _, _, _, _, hfin⟩
      · -- the child has a free slot
        have hYfree : (p.mempool.get y).keyCnt < cfg.maxDegree :=
          lt_of_le_of_ne hy.1.keyCnt_le hfull
        have hfp : n ::ₘ (fp₁ + (fpY + fp₂)) + rest = fpY + (n ::ₘ (fp₁ + fp₂) + rest) := by
          simp only [Multiset.cons_add, Multiset.add_cons]
          congr 1
          abel
        rw [hfp] at ho
        refine (ih hy.1 hYfree ho (by omega)).mono ?_
        rintro _ p₂ ⟨L, R, x, fpY', fpN, hi⟩
        exact ⟨_, _, _, _, _, KeyInserted.of_child hnode hne hlen h₁ hy.2 h₂ hks₁ hhead hi⟩

end Pcv
