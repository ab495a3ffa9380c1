import Pcv.PartitionSort.LayerEnds

/-!
# Filling up a child before a deletion

Before a deletion goes down into a child, `fill` gives the child one key more than the
least number: it borrows a key from one of the two siblings, or merges the child with one.
Every key of the layer stays, and so does their order.
-/

namespace Pcv

open DynamicMempool Navigator
open Store (Agree)

variable {V : Type} {cfg : BTreeCfg} {E : Fault → NodeAllocator V → Prop} {p : NodeAllocator V}

/-! ## The runs of the three operations -/

namespace BTreeRemove

variable {n i c s : ℕ} {mv : List ℕ}

/-- What `borrowFromPrev` and `borrowFromNext` make of the memory: slot `i` of `n` goes to
`x`, `s` gives a key and the children `mv` to `c`. -/
structure Borrowed (mem mem' : Store (Node V)) (n i s c : ℕ) (mv : List ℕ) (x : KeyInfo V) :
    Prop where
  node : (mem.get n).SlotChanged (mem'.get n) i x
  isLeaf : (mem'.get c).isLeaf = (mem.get c).isLeaf
  moved : ∀ d ∈ mv, mem'.get d = (mem.get d).setParent (some c)
  other : ∀ j, j ≠ n → j ≠ s → j ≠ c → j ∉ mv → mem'.get j = mem.get j

variable (mv) in
/-- `borrowFromPrev`: the child gets a key at its front, the sibling gives its last one. -/
theorem ensures_borrowFromPrev {Q : Unit → NodeAllocator V → Prop}
    (hc : (p.mempool.get n).childIndex.get (i + 1) = some c)
    (hs : (p.mempool.get n).childIndex.get i = some s)
    (hns : n ≠ s) (hnc : n ≠ c) (hsc : s ≠ c)
    (hleaf : (p.mempool.get c).isLeaf = true → mv = [])
    (hinner : (p.mempool.get c).isLeaf = false → ∃ d, mv = [d] ∧
      (p.mempool.get s).childIndex.get (p.mempool.get s).keyCnt = some d)
    (hmv : ∀ d ∈ mv, d ≠ n ∧ d ≠ s ∧ d ≠ c)
    (hQ : ∀ p', SamePool p p' →
      Borrowed p.mempool p'.mempool n i s c mv
        ((p.mempool.get s).getKey ((p.mempool.get s).keyCnt - 1)) →
      p'.mempool.get s = (p.mempool.get s).setKeyCnt ((p.mempool.get s).keyCnt - 1) →
      (∀ par ks, (p.mempool.get c).Holds par ks →
        (p'.mempool.get c).Holds par ((p.mempool.get n).getKey i :: ks)) →
      (∀ j, (p'.mempool.get c).childIndex.get j =
        if j < mv.length then mv[j]?
        else if j < mv.length + ((p.mempool.get c).keyCnt + 1) then
          (p.mempool.get c).childIndex.get (j - mv.length)
        else (p.mempool.get c).childIndex.get j) → Q ⟨⟩ p') :
    Ensures E (borrowFromPrev n (i + 1)) p Q := by
  set c₀ := (p.mempool.get c).shiftKeysRight 0 (p.mempool.get c).keyCnt with hc₀
  have hf : Node.SameFrame (p.mempool.get c) c₀ := Node.shiftKeysRight_sameFrame _ _ _
  -- the links of the child make room for one more
  have hroom : ∀ R : Unit → NodeAllocator V → Prop,
      (∀ c₁ : Node V, c₀.SameButChildren c₁ →
        (∀ j, c₁.childIndex.get j =
          if mv.length ≤ j ∧ j < mv.length + ((p.mempool.get c).keyCnt + 1) then
            (p.mempool.get c).childIndex.get (j - mv.length)
          else (p.mempool.get c).childIndex.get j) →
        ∀ p₁, SamePool p p₁ → p₁.mempool.get c = c₁ →
          (∀ j, j ≠ c → p₁.mempool.get j = p.mempool.get j) → R ⟨⟩ p₁) →
      Ensures E (if (!(p.mempool.get c).isLeaf) = true then
          update c fun c => shiftChildIndexRight c c.keyCnt else Pure.pure ⟨⟩)
        { p with mempool := p.mempool.set c c₀ } R := by
    intro R hR
    cases hl : (p.mempool.get c).isLeaf with
    | true =>
        obtain rfl := hleaf hl
        refine Ensures.pure (hR c₀ (.refl _) (fun j => ?_) _ (samePool_write _ _) (by simp)
          fun j hj => Store.get_set_of_ne _ _ hj)
        rw [hf.childIndex]
        simp
    | false =>
        obtain ⟨d, rfl, -⟩ := hinner hl
        simp only [Bool.not_false, if_true]
        refine ensures_update ?_
        simp only [Store.get_set_self]
        refine hR (shiftChildIndexRight c₀ c₀.keyCnt) (sameButChildren_shiftChildIndexRight _ _)
          (fun j => ?_) _ (samePool_write _ _) (by simp) fun j hj => ?_
        · rw [childIndex_shiftChildIndexRight, hf.childIndex, hf.keyCnt]
          simp only [List.length_singleton]
          grind
        · simp [Store.get_set, hj]
  rw [borrowFromPrev]
  refine Ensures.bind (ensures_read (Ensures.bind (ensures_deref hc ?_)))
  refine Ensures.bind (ensures_read (Ensures.bind (ensures_deref hs ?_)))
  refine Ensures.bind (ensures_update (Ensures.bind (ensures_read ?_)))
  simp only [Store.get_set_self, hf.isLeaf, ← hc₀]
  refine Ensures.when (Ensures.bind (hroom _ fun c₁ hc₁ hl₁ p₁ hp₁ hpc₁ hoth₁ => ?_))
  have hleaf₁ : c₁.isLeaf = (p.mempool.get c).isLeaf := by
    rw [hc₁]
    exact hf.isLeaf
  refine Ensures.bind (ensures_read (Ensures.bind (ensures_update (Ensures.bind
    (ensures_read ?_)))))
  simp only [Store.get_set_self, hoth₁ n hnc, Nat.add_sub_cancel, hpc₁]
  set c₂ := (p.mempool.get n).moveKey i c₁ 0 with hc₂
  rw [show c₂.isLeaf = (p.mempool.get c).isLeaf from hleaf₁]
  -- the child of the key that goes up comes to the front
  have hlink : ∀ R : Unit → NodeAllocator V → Prop,
      (∀ c₃ : Node V, c₂.SameButChildren c₃ →
        (∀ j, c₃.childIndex.get j = if j < mv.length then mv[j]? else c₁.childIndex.get j) →
        ∀ p₃, SamePool p p₃ → p₃.mempool.get c = c₃ →
          (∀ d ∈ mv, p₃.mempool.get d = (p.mempool.get d).setParent (some c)) →
          (∀ j, j ≠ c → j ∉ mv → p₃.mempool.get j = p.mempool.get j) → R ⟨⟩ p₃) →
      Ensures E (if (!(p.mempool.get c).isLeaf) = true then (do
          let s ← DynamicMempool.read s
          setChild c 0 (s.childIndex.get s.keyCnt)) else Pure.pure ⟨⟩)
        { p₁ with mempool := p₁.mempool.set c c₂ } R := by
    intro R hR
    cases hl : (p.mempool.get c).isLeaf with
    | true =>
        obtain rfl := hleaf hl
        refine Ensures.pure (hR c₂ (.refl _) (fun j => by simp [hc₂, Node.moveKey, Node.setKey]) _
          (hp₁.trans (samePool_write _ _)) (by simp) (by simp) fun j hj _ => ?_)
        simp only
        rw [Store.get_set_of_ne _ _ hj, hoth₁ j hj]
    | false =>
        obtain ⟨d, rfl, hd⟩ := hinner hl
        obtain ⟨hdn, hds, hdc⟩ := hmv d (by simp)
        refine Ensures.bind (ensures_read ?_)
        simp only [Store.get_set_of_ne _ _ hsc, hoth₁ s hsc, hd]
        refine ensures_setChild hdc.symm fun p₃ hp₃ hcc hdd hoth => ?_
        simp only [Store.get_set_self] at hcc hdd hoth
        refine hR _ ?_ ?_ p₃ (hp₁.trans ((samePool_write _ _).trans hp₃)) hcc ?_ ?_
        · exact Node.sameButChildren_setChildIndex _ _ _
        · intro j
          simp only [Node.setChildIndex, Store.get_set, List.length_singleton]
          cases j <;> simp [hc₂, Node.moveKey, Node.setKey]
        · intro d' hd'
          obtain rfl : d' = d := by simpa using hd'
          rw [hdd, Store.get_set_of_ne _ _ hdc, hoth₁ _ hdc]
        · intro j hj hjd
          rw [hoth j hj (by simpa using hjd), Store.get_set_of_ne _ _ hj, hoth₁ j hj]
  refine Ensures.when (Ensures.bind (hlink _ fun c₃ hc₃ hl₃ p₃ hp₃ hpc₃ hd₃ hoth₃ => ?_))
  have hnmv : n ∉ mv := fun h => (hmv n h).1 rfl
  have hsmv : s ∉ mv := fun h => (hmv s h).2.1 rfl
  refine Ensures.bind (ensures_read (Ensures.bind (ensures_update (Ensures.bind
    (ensures_update (ensures_update ?_))))))
  simp only [Store.get_set_of_ne _ _ hnc.symm, Store.get_set_of_ne _ _ hsc,
    Store.get_set_of_ne _ _ hns.symm, hpc₃, hoth₃ s hsc hsmv, hoth₃ n hnc hnmv]
  refine hQ _ (hp₃.trans ⟨rfl, rfl, rfl⟩) ⟨?_, ?_, ?_, ?_⟩ ?_ ?_ ?_
  · simp only [Store.get_set_of_ne _ _ hns, Store.get_set_of_ne _ _ hnc, Store.get_set_self]
    exact ⟨Node.sameFrame_setKey _ _ _, fun j => Node.getKey_setKey _ _ _ _⟩
  · simp only [Store.get_set_of_ne _ _ hsc.symm, Store.get_set_self]
    rw [← hleaf₁, hc₃]
    rfl
  · intro d hd
    obtain ⟨hdn, hds, hdc⟩ := hmv d hd
    simp only [Store.get_set_of_ne _ _ hdn, Store.get_set_of_ne _ _ hds,
      Store.get_set_of_ne _ _ hdc, hd₃ d hd]
  · intro j hjn hjs hjc hjmv
    simp only [Store.get_set_of_ne _ _ hjn, Store.get_set_of_ne _ _ hjs,
      Store.get_set_of_ne _ _ hjc, hoth₃ j hjc hjmv]
  · simp only [Store.get_set_self]
  · intro par ks hks
    simp only [Store.get_set_of_ne _ _ hsc.symm, Store.get_set_self]
    have hput := Node.Holds.insertKey (show Node.Holds _ par ([] ++ ks) from hks) ((p.mempool.get n).getKey i)
    rw [hc₃.keyCnt, show c₂.keyCnt = (p.mempool.get c).keyCnt from hc₁.keyCnt.trans hf.keyCnt]
    exact hput.sameButChildren (((hc₁.setKey _ _).trans hc₃).setKeyCnt _)
  · intro j
    simp only [Store.get_set_of_ne _ _ hsc.symm, Store.get_set_self]
    refine (hl₃ j).trans ?_
    rw [hl₁ j]
    grind

variable (mv) in
/-- `borrowFromNext`: the child gets a key at its end, the sibling gives its first one. -/
theorem ensures_borrowFromNext {Q : Unit → NodeAllocator V → Prop}
    (hc : (p.mempool.get n).childIndex.get i = some c)
    (hs : (p.mempool.get n).childIndex.get (i + 1) = some s)
    (hns : n ≠ s) (hnc : n ≠ c) (hsc : s ≠ c)
    (hcs : (p.mempool.get c).isLeaf = (p.mempool.get s).isLeaf)
    (hleaf : (p.mempool.get s).isLeaf = true → mv = [])
    (hinner : (p.mempool.get s).isLeaf = false → ∃ d, mv = [d] ∧
      (p.mempool.get s).childIndex.get 0 = some d)
    (hmv : ∀ d ∈ mv, d ≠ n ∧ d ≠ s ∧ d ≠ c)
    (hQ : ∀ p', SamePool p p' →
      Borrowed p.mempool p'.mempool n i s c mv ((p.mempool.get s).getKey 0) →
      (∀ par a ks, (p.mempool.get s).Holds par (a :: ks) → (p'.mempool.get s).Holds par ks) →
      (p'.mempool.get s).isLeaf = (p.mempool.get s).isLeaf →
      ((p.mempool.get s).isLeaf = true →
        (p'.mempool.get s).childIndex = (p.mempool.get s).childIndex) →
      ((p.mempool.get s).isLeaf = false → ∀ j, j < (p.mempool.get s).keyCnt →
        (p'.mempool.get s).childIndex.get j = (p.mempool.get s).childIndex.get (j + 1)) →
      (∀ par ks, (p.mempool.get c).Holds par ks →
        (p'.mempool.get c).Holds par (ks ++ [(p.mempool.get n).getKey i])) →
      (∀ j, (p'.mempool.get c).childIndex.get j =
        if (p.mempool.get c).keyCnt + 1 ≤ j ∧ j < (p.mempool.get c).keyCnt + 1 + mv.length then
          mv[j - ((p.mempool.get c).keyCnt + 1)]?
        else (p.mempool.get c).childIndex.get j) → Q ⟨⟩ p') :
    Ensures E (borrowFromNext n i) p Q := by
  set c₁ := (p.mempool.get n).moveKey i (p.mempool.get c) (p.mempool.get c).keyCnt with hc₁
  set s₁ := (p.mempool.get s).shiftKeysLeft 0 ((p.mempool.get s).keyCnt - 1) with hs₁
  have hf : Node.SameFrame (p.mempool.get s) s₁ := Node.shiftKeysLeft_sameFrame _ _ _
  -- the child of the key that goes up comes to the end
  have hlink : ∀ R : Unit → NodeAllocator V → Prop,
      (∀ c₂ : Node V, c₁.SameButChildren c₂ →
        (∀ j, c₂.childIndex.get j =
          if (p.mempool.get c).keyCnt + 1 ≤ j ∧ j < (p.mempool.get c).keyCnt + 1 + mv.length then
            mv[j - ((p.mempool.get c).keyCnt + 1)]?
          else (p.mempool.get c).childIndex.get j) →
        ∀ p₂, SamePool p p₂ → p₂.mempool.get c = c₂ →
          (∀ d ∈ mv, p₂.mempool.get d = (p.mempool.get d).setParent (some c)) →
          (∀ j, j ≠ c → j ∉ mv → p₂.mempool.get j = p.mempool.get j) → R ⟨⟩ p₂) →
      Ensures E (if (!(p.mempool.get c).isLeaf) = true then (do
          let c' ← DynamicMempool.read c
          setChild c (c'.keyCnt + 1) ((← DynamicMempool.read s).childIndex.get 0))
          else Pure.pure ⟨⟩)
        { p with mempool := p.mempool.set c c₁ } R := by
    intro R hR
    rw [hcs]
    cases hl : (p.mempool.get s).isLeaf with
    | true =>
        obtain rfl := hleaf hl
        refine Ensures.pure (hR c₁ (.refl _) (fun j => ?_) _ (samePool_write _ _) (by simp)
          (by simp) fun j hj _ => Store.get_set_of_ne _ _ hj)
        rw [if_neg (by simp), hc₁]
        rfl
    | false =>
        obtain ⟨d, rfl, hd⟩ := hinner hl
        obtain ⟨hdn, hds, hdc⟩ := hmv d (by simp)
        refine Ensures.bind (ensures_read (Ensures.bind (ensures_read ?_)))
        simp only [Store.get_set_self, Store.get_set_of_ne _ _ hsc, hd]
        refine ensures_setChild hdc.symm fun p₂ hp₂ hcc hdd hoth => ?_
        simp only [Store.get_set_self] at hcc hdd hoth
        refine hR _ ?_ ?_ p₂ ((samePool_write _ _).trans hp₂) hcc ?_ ?_
        · exact Node.sameButChildren_setChildIndex _ _ _
        · intro j
          simp only [Node.setChildIndex, Store.get_set, List.length_singleton, hc₁, Node.moveKey,
            Node.setKey]
          grind
        · intro d' hd'
          obtain rfl : d' = d := by simpa using hd'
          rw [hdd, Store.get_set_of_ne _ _ hdc]
        · intro j hj hjd
          rw [hoth j hj (by simpa using hjd), Store.get_set_of_ne _ _ hj]
  -- the links of the sibling close up
  have hclose : ∀ (p₃ : NodeAllocator V) (R : Unit → NodeAllocator V → Prop),
      p₃.mempool.get s = s₁ →
      (∀ s₂ : Node V, s₁.SameButChildren s₂ →
        ((p.mempool.get s).isLeaf = true → s₂.childIndex = (p.mempool.get s).childIndex) →
        ((p.mempool.get s).isLeaf = false → ∀ j, j < (p.mempool.get s).keyCnt →
          s₂.childIndex.get j = (p.mempool.get s).childIndex.get (j + 1)) →
        ∀ p₄, SamePool p₃ p₄ → p₄.mempool.get s = s₂ →
          (∀ j, j ≠ s → p₄.mempool.get j = p₃.mempool.get j) → R ⟨⟩ p₄) →
      Ensures E (if (!(p.mempool.get s).isLeaf) = true then
          update s fun s => shiftChildIndexLeft s 0 s.keyCnt else Pure.pure ⟨⟩) p₃ R := by
    intro p₃ R hps hR
    cases hl : (p.mempool.get s).isLeaf with
    | true =>
        refine Ensures.pure (hR s₁ (.refl _) (fun _ => hf.childIndex) (by simp [hl]) p₃ (.refl _) hps
          fun _ _ => rfl)
    | false =>
        simp only [Bool.not_false, if_true]
        refine ensures_update ?_
        rw [hps]
        refine hR (shiftChildIndexLeft s₁ 0 s₁.keyCnt) (sameButChildren_shiftChildIndexLeft _ _ _)
          (by simp [hl]) (fun _ j hj => ?_) _ (samePool_write _ _) (by simp) fun j hj => ?_
        · rw [childIndex_shiftChildIndexLeft, hf.keyCnt, if_pos (by omega), hf.childIndex]
        · simp [Store.get_set, hj]
  have hnmv : n ∉ mv := fun h => (hmv n h).1 rfl
  have hsmv : s ∉ mv := fun h => (hmv s h).2.1 rfl
  rw [borrowFromNext]
  refine Ensures.bind (ensures_read (Ensures.bind (ensures_deref hc ?_)))
  refine Ensures.bind (ensures_read (Ensures.bind (ensures_deref hs ?_)))
  refine Ensures.bind (ensures_read (Ensures.bind (ensures_update (Ensures.bind
    (ensures_read ?_)))))
  simp only [Store.get_set_self, ← hc₁]
  rw [show c₁.isLeaf = (p.mempool.get c).isLeaf from rfl]
  refine Ensures.when (Ensures.bind (hlink _ fun c₂ hc₂ hl₂ p₂ hp₂ hpc₂ hd₂ hoth₂ => ?_))
  refine Ensures.bind (ensures_read (Ensures.bind (ensures_update (Ensures.bind
    (ensures_update (Ensures.bind (ensures_read ?_)))))))
  simp only [Store.get_set_of_ne _ _ hns.symm, Store.get_set_self, hoth₂ s hsc hsmv,
    hoth₂ n hnc hnmv, ← hs₁, hf.isLeaf]
  refine Ensures.when (Ensures.bind (hclose _ _ (by simp) fun s₂ hs₂ hsl₂ hsi₂ p₄ hp₄ hps₄ hoth₄ =>
    ?_))
  have hpc₄ : p₄.mempool.get c = c₂ := by
    rw [hoth₄ c hsc.symm]
    simp [Store.get_set, hsc.symm, hnc.symm, hpc₂]
  have hpn₄ : p₄.mempool.get n = (p.mempool.get s).moveKey 0 (p.mempool.get n) i := by
    rw [hoth₄ n hns]
    simp [Store.get_set, hns]
  refine Ensures.bind (ensures_update (ensures_update ?_))
  simp only [Store.get_set_of_ne _ _ hsc, hpc₄, hps₄]
  have hsame : SamePool p p₄ := hp₂.trans ((samePool_write p₂ _).trans hp₄)
  refine hQ _ (hsame.trans (samePool_write _ _)) ⟨?_, ?_, ?_, ?_⟩ ?_ ?_ ?_ ?_ ?_ ?_
  · simp only [Store.get_set_of_ne _ _ hns, Store.get_set_of_ne _ _ hnc, hpn₄]
    exact ⟨Node.sameFrame_setKey _ _ _, fun j => Node.getKey_setKey _ _ _ _⟩
  · simp only [Store.get_set_of_ne _ _ hsc.symm, Store.get_set_self]
    exact hc₂.isLeaf
  · intro d hd
    obtain ⟨hdn, hds, hdc⟩ := hmv d hd
    simp only [Store.get_set_of_ne _ _ hds, Store.get_set_of_ne _ _ hdc]
    rw [hoth₄ d hds]
    simp only [Store.get_set_of_ne _ _ hdn, Store.get_set_of_ne _ _ hds, hd₂ d hd]
  · intro j hjn hjs hjc hjmv
    simp only [Store.get_set_of_ne _ _ hjs, Store.get_set_of_ne _ _ hjc]
    rw [hoth₄ j hjs]
    simp only [Store.get_set_of_ne _ _ hjn, Store.get_set_of_ne _ _ hjs, hoth₂ j hjc hjmv]
  · intro par a ks hks
    simp only [Store.get_set_self]
    have herase := Node.Holds.eraseKey (show Node.Holds _ par ([] ++ a :: ks) from hks)
    rw [hs₂.keyCnt, hf.keyCnt]
    exact herase.sameButChildren (hs₂.setKeyCnt _)
  · simp only [Store.get_set_self]
    exact hs₂.isLeaf.trans hf.isLeaf
  · intro hl
    simp only [Store.get_set_self]
    exact hsl₂ hl
  · intro hl j hj
    simp only [Store.get_set_self]
    exact hsi₂ hl j hj
  · intro par ks hks
    simp only [Store.get_set_of_ne _ _ hsc.symm, Store.get_set_self]
    have happ : (c₁.setKeyCnt ((p.mempool.get c).keyCnt + 1)).Holds par
        (ks ++ [(p.mempool.get n).getKey i]) := by
      refine hks.append (Node.sameFrame_moveKey _ _ _ _) (by simp [hks.keyCnt]) (fun j hj => ?_)
        fun j hj => ?_
      · exact Node.getKey_setKey_of_ne _ _ (by rw [hks.keyCnt]; omega)
      · obtain rfl : j = 0 := by simpa using hj
        simp [Node.moveKey, hks.keyCnt]
    rw [hc₂.keyCnt]
    exact happ.sameButChildren (hc₂.setKeyCnt _)
  · intro j
    simp only [Store.get_set_of_ne _ _ hsc.symm, Store.get_set_self]
    exact hl₂ j

variable (mv) in
/-- `merge`: the child gets the key between the children and all the keys of the sibling,
which is released. -/
theorem ensures_merge {live : Multiset ℕ} {Q : Unit → NodeAllocator V → Prop}
    (ho : Owns p (s ::ₘ live))
    (hc : (p.mempool.get n).childIndex.get i = some c)
    (hs : (p.mempool.get n).childIndex.get (i + 1) = some s)
    (hns : n ≠ s) (hnc : n ≠ c) (hsc : s ≠ c)
    (hcnt : (p.mempool.get c).keyCnt = cfg.minDegree)
    (hcs : (p.mempool.get c).isLeaf = (p.mempool.get s).isLeaf)
    (hleaf : (p.mempool.get s).isLeaf = true → mv = [])
    (hinner : (p.mempool.get s).isLeaf = false → mv.length = (p.mempool.get s).keyCnt + 1 ∧
      ∀ j, j < mv.length → mv[j]? = (p.mempool.get s).childIndex.get j)
    (hmv : ∀ d ∈ mv, d ≠ n ∧ d ≠ s ∧ d ≠ c)
    (hQ : ∀ p', Owns p' live → p'.ITEM_CNT = p.ITEM_CNT →
      (∀ par ks x ks', (p.mempool.get n).Holds par (ks ++ x :: ks') → ks.length = i →
        (p'.mempool.get n).Holds par (ks ++ ks')) →
      (p'.mempool.get n).isLeaf = (p.mempool.get n).isLeaf →
      (∀ j, (p'.mempool.get n).childIndex.get j =
        if i + 1 ≤ j ∧ j < (p.mempool.get n).keyCnt then
          (p.mempool.get n).childIndex.get (j + 1)
        else (p.mempool.get n).childIndex.get j) →
      (∀ par ks parS kS, (p.mempool.get c).Holds par ks → (p.mempool.get s).Holds parS kS →
        (p'.mempool.get c).Holds par (ks ++ (p.mempool.get n).getKey i :: kS)) →
      (p'.mempool.get c).isLeaf = (p.mempool.get c).isLeaf →
      (∀ j, (p'.mempool.get c).childIndex.get j =
        if (p.mempool.get c).keyCnt + 1 ≤ j ∧ j < (p.mempool.get c).keyCnt + 1 + mv.length then
          mv[j - ((p.mempool.get c).keyCnt + 1)]?
        else (p.mempool.get c).childIndex.get j) →
      (∀ d ∈ mv, p'.mempool.get d = (p.mempool.get d).setParent (some c)) →
      (∀ j, j ≠ n → j ≠ s → j ≠ c → j ∉ mv → p'.mempool.get j = p.mempool.get j) → Q ⟨⟩ p') :
    Ensures E (merge cfg n i) p Q := by
  have hnmv : n ∉ mv := fun h => (hmv n h).1 rfl
  have hsmv : s ∉ mv := fun h => (hmv s h).2.1 rfl
  have hcmv : c ∉ mv := fun h => (hmv c h).2.2 rfl
  set c₁ := (p.mempool.get n).moveKey i (p.mempool.get c) cfg.minDegree with hc₁
  set c₂ := (p.mempool.get s).moveKeys 0 c₁ (cfg.minDegree + 1) (p.mempool.get s).keyCnt with hc₂
  have hf : Node.SameFrame (p.mempool.get c) c₂ :=
    (Node.sameFrame_moveKey _ _ _ _).trans (Node.moveKeys_sameFrame _ _ _ _ _)
  -- the children of the sibling come behind those of the child
  have hlink : ∀ (p₂ : NodeAllocator V) (R : Unit → NodeAllocator V → Prop),
      p₂.mempool.get c = c₂ → (∀ j, j ≠ c → p₂.mempool.get j = p.mempool.get j) →
      (∀ c₃ : Node V, c₂.SameButChildren c₃ →
        (∀ j, c₃.childIndex.get j =
          if (p.mempool.get c).keyCnt + 1 ≤ j ∧ j < (p.mempool.get c).keyCnt + 1 + mv.length then
            mv[j - ((p.mempool.get c).keyCnt + 1)]?
          else (p.mempool.get c).childIndex.get j) →
        ∀ p₃, SamePool p₂ p₃ → p₃.mempool.get c = c₃ →
          (∀ d ∈ mv, p₃.mempool.get d = (p.mempool.get d).setParent (some c)) →
          (∀ j, j ≠ c → j ∉ mv → p₃.mempool.get j = p.mempool.get j) → R ⟨⟩ p₃) →
      Ensures E (if (!(p.mempool.get c).isLeaf) = true then
          moveChildren s 0 c (cfg.minDegree + 1) ((p.mempool.get s).keyCnt + 1)
          else Pure.pure ⟨⟩) p₂ R := by
    intro p₂ R hpc hoth hR
    rw [hcs]
    cases hl : (p.mempool.get s).isLeaf with
    | true =>
        obtain rfl := hleaf hl
        refine Ensures.pure (hR c₂ (.refl _) (fun j => ?_) p₂ (.refl _) hpc (by simp)
          fun j hj _ => hoth j hj)
        rw [if_neg (by simp), hf.childIndex]
    | false =>
        obtain ⟨hlen, hlinks⟩ := hinner hl
        simp only [Bool.not_false, if_true]
        refine ensures_moveChildren hlen (fun j hj => ?_) hsc hsmv hcmv
          fun p₃ hp₃ hcc hcl hd₃ hoth₃ => ?_
        · rw [hoth s hsc, Nat.zero_add]
          exact hlinks j hj
        · rw [hpc] at hcc hcl
          refine hR _ hcc (fun j => ?_) p₃ hp₃ rfl (fun d hd => ?_) fun j hj hjmv => ?_
          · rw [hcl, hcnt, hf.childIndex, hlen]
          · rw [hd₃ d hd, hoth d (hmv d hd).2.2]
          · rw [hoth₃ j hj hjmv, hoth j hj]
  rw [merge]
  refine Ensures.bind (ensures_read (Ensures.bind (ensures_deref hc ?_)))
  refine Ensures.bind (ensures_read (Ensures.bind (ensures_deref hs ?_)))
  refine Ensures.bind (ensures_read (Ensures.bind (ensures_update (Ensures.bind
    (ensures_read ?_)))))
  simp only [Store.get_set_of_ne _ _ hsc]
  refine Ensures.bind ?_
  rw [transferItems]
  refine Ensures.bind (ensures_read (Ensures.bind (ensures_update (Ensures.bind
    (ensures_read ?_)))))
  simp only [Store.get_set_of_ne _ _ hsc, Store.get_set_self, ← hc₁, ← hc₂, hf.isLeaf]
  refine hlink _ _ (by simp) (fun j hj => by simp [Store.get_set, hj])
    fun c₃ hc₃ hl₃ p₃ hp₃ hpc₃ hd₃ hoth₃ => ?_
  refine Ensures.bind (ensures_update (Ensures.bind (ensures_read (Ensures.bind (ensures_update
    (Ensures.bind (ensures_update (Ensures.bind (ensures_update ?_)))))))))
  simp only [Store.get_set_of_ne _ _ hns.symm, Store.get_set_of_ne _ _ hnc.symm,
    Store.get_set_of_ne _ _ hnc, Store.get_set_of_ne _ _ hsc, Store.get_set_self, hpc₃,
    hoth₃ n hnc hnmv, hoth₃ s hsc hsmv]
  have hsame : SamePool p p₃ := (samePool_write p _).trans ((samePool_write _ _).trans hp₃)
  have ho₃ : Owns _ (s ::ₘ live) := ho.congr (hsame.trans ⟨rfl, rfl, rfl⟩)
  refine ensures_release ho₃ fun p' ho' hN' hm' => ?_
  set n₁ := shiftChildIndexLeft ((p.mempool.get n).shiftKeysLeft i
    ((p.mempool.get n).keyCnt - (i + 1))) (i + 1) ((p.mempool.get n).keyCnt - (i + 1)) with hn₁
  have hf₁ := Node.shiftKeysLeft_sameFrame (p.mempool.get n) i ((p.mempool.get n).keyCnt - (i + 1))
  have hn₁' : ((p.mempool.get n).shiftKeysLeft i
    ((p.mempool.get n).keyCnt - (i + 1))).SameButChildren n₁ :=
      sameButChildren_shiftChildIndexLeft _ _ _
  have hpn : p'.mempool.get n = n₁.setKeyCnt ((p.mempool.get n).keyCnt - 1) := by
    rw [hm']
    simp only [Store.get_set_of_ne _ _ hns, Store.get_set_self]
    rw [hn₁'.keyCnt, hf₁.keyCnt]
  have hpc : p'.mempool.get c = c₃.setKeyCnt (c₃.keyCnt + (p.mempool.get s).keyCnt + 1) := by
    rw [hm']
    simp only [Store.get_set_of_ne _ _ hsc.symm, Store.get_set_of_ne _ _ hnc.symm,
      Store.get_set_self]
  have hoth : ∀ j, j ≠ n → j ≠ s → j ≠ c → p'.mempool.get j = p₃.mempool.get j := by
    intro j hjn hjs hjc
    rw [hm']
    simp only [Store.get_set_of_ne _ _ hjn, Store.get_set_of_ne _ _ hjs,
      Store.get_set_of_ne _ _ hjc]
  refine hQ p' ho' (hN'.trans hsame.ITEM_CNT) ?_ ?_ ?_ ?_ ?_ ?_ ?_ ?_
  · rintro par ks x ks' hks rfl
    rw [hpn]
    exact hks.eraseKey.sameButChildren (hn₁'.setKeyCnt _)
  · rw [hpn]
    exact hn₁'.isLeaf.trans hf₁.isLeaf
  · intro j
    rw [hpn]
    show n₁.childIndex.get j = _
    rw [hn₁, childIndex_shiftChildIndexLeft, hf₁.childIndex]
    grind
  · intro par ks parS kS hks hkS
    rw [hpc, hc₃.keyCnt, hf.keyCnt]
    refine Node.Holds.sameButChildren ?_ (hc₃.setKeyCnt _)
    refine hks.append hf (by simp [hks.keyCnt, hkS.keyCnt]; omega) (fun j hj => ?_) fun j hj => ?_
    · have := hks.keyCnt
      rw [hc₂, Node.getKey_moveKeys, if_neg (by omega)]
      exact Node.getKey_setKey_of_ne _ _ (by omega)
    · have := hks.keyCnt
      have hkc := hkS.keyCnt
      rw [hc₂, Node.getKey_moveKeys]
      simp only [List.length_cons] at hj
      cases j with
      | zero =>
          rw [if_neg (by omega), hc₁, Node.moveKey, show ks.length + 0 = cfg.minDegree by omega,
            Node.getKey_setKey_self]
          rfl
      | succ j =>
          rw [if_pos (by omega), show 0 + (ks.length + (j + 1) - (cfg.minDegree + 1)) = j by omega,
            List.getElem?_cons_succ]
          exact hkS.getKey j (by omega)
  · rw [hpc]
    exact hc₃.isLeaf.trans hf.isLeaf
  · intro j
    rw [hpc]
    exact hl₃ j
  · intro d hd
    obtain ⟨hdn, hds, hdc⟩ := hmv d hd
    rw [hoth d hdn hds hdc, hd₃ d hd]
  · intro j hjn hjs hjc hjmv
    rw [hoth j hjn hjs hjc, hoth₃ j hjc hjmv]

end BTreeRemove

/-! ## An open node -/

variable {mem mem' : Store (Node V)} {h n i c s : ℕ} {par : Option ℕ}
variable {ks₁ ks₂ its₁ its₂ C S : List (KeyInfo V)} {m : KeyInfo V} {cs₁ cs₂ : List ℕ}
variable {fp₁ fpC fpS fp₂ fpR rest : Multiset ℕ}

/-- Node `n` with `cnt` keys is open at its child number `i`, which is `c`: the keys `its₁`
come before those of the child, and `its₂` behind.  The rest of the subtree of `n` is in the
nodes `fpR`. -/
def Opened (cfg : BTreeCfg) (mem : Store (Node V)) (h : ℕ) (par : Option ℕ) (n i cnt : ℕ)
    (its₁ : List (KeyInfo V)) (c : ℕ) (C its₂ : List (KeyInfo V)) (fpC fpR : Multiset ℕ) : Prop :=
  ∃ ks₁ ks₂ cs₁ cs₂ fp₁ fp₂, ks₁.length = i ∧ ks₁.length + ks₂.length = cnt ∧
    cnt ≤ cfg.maxDegree ∧ (mem.get n).InnerNode par (ks₁ ++ ks₂) (cs₁ ++ c :: cs₂) ∧
    Before (Child cfg mem h n) ks₁ cs₁ its₁ fp₁ ∧ Layer cfg mem h (some n) c C fpC ∧
    After (Child cfg mem h n) ks₂ cs₂ its₂ fp₂ ∧ fpR = fp₁ + fp₂

/-- A layer, except that its root may have lost its last key. -/
def Layer.Loose (cfg : BTreeCfg) (mem : Store (Node V)) :
    ℕ → Option ℕ → ℕ → List (KeyInfo V) → Multiset ℕ → Prop
  | 0, par, n, its, fp => Layer cfg mem 0 par n its fp
  | h + 1, par, n, its, fp =>
      ∃ ks cs fp', (mem.get n).InnerNode par ks cs ∧ ks.length ≤ cfg.maxDegree ∧
        Chain (Child cfg mem h n) ks cs its fp' ∧ fp = n ::ₘ fp'

theorem Layer.Loose.layer {its : List (KeyInfo V)} {fp : Multiset ℕ}
    (hL : Layer.Loose cfg mem h par n its fp) (hcnt : 0 < (mem.get n).keyCnt) :
    Layer cfg mem h par n its fp := by
  cases h with
  | zero => exact hL
  | succ h =>
      obtain ⟨ks, cs, fp', hn, hlen, hch, rfl⟩ := hL
      refine ⟨ks, cs, fp', hn, ?_, hlen, hch, rfl⟩
      rintro rfl
      simp [hn.keyCnt] at hcnt

/-- The child an open node is open at, and the number of its keys. -/
theorem Opened.child {cnt : ℕ} (hO : Opened cfg mem h par n i cnt its₁ c C its₂ fpC fpR) :
    (mem.get n).childIndex.get i = some c ∧ (mem.get n).keyCnt = cnt ∧
      Layer cfg mem h (some n) c C fpC := by
  obtain ⟨ks₁, ks₂, cs₁, cs₂, fp₁, fp₂, rfl, rfl, -, hn, h₁, hC, -, -⟩ := hO
  have hlink := hn.child cs₁.length (by simp)
  rw [List.getElem?_append_right le_rfl, Nat.sub_self, List.getElem?_cons_zero,
    h₁.length_eq] at hlink
  exact ⟨hlink.symm, by rw [hn.keyCnt, List.length_append], hC⟩

/-- The open node, when something happened to its child. -/
theorem Opened.close {cnt : ℕ} {fpC' : Multiset ℕ} {C' : List (KeyInfo V)}
    (hO : Opened cfg mem h par n i cnt its₁ c C its₂ fpC fpR)
    (hc : Layer cfg mem' h (some n) c C' fpC') (hmin : cfg.minDegree ≤ (mem'.get c).keyCnt)
    (hagree : Agree (n ::ₘ fpR) mem mem') :
    Layer.Loose cfg mem' (h + 1) par n (its₁ ++ (C' ++ its₂)) (n ::ₘ (fpC' + fpR)) ∧
      (mem'.get n).keyCnt = cnt := by
  obtain ⟨ks₁, ks₂, cs₁, cs₂, fp₁, fp₂, -, rfl, hlen, hn, h₁, -, h₂, rfl⟩ := hO
  have hn' : mem'.get n = mem.get n := hagree n (by simp)
  have h₁' := Before.frame h₁ fun j hj => hagree j (by simp [hj])
  have h₂' := After.frame h₂ fun j hj => hagree j (by simp [hj])
  refine ⟨⟨ks₁ ++ ks₂, cs₁ ++ c :: cs₂, fp₁ + (fpC' + fp₂), by rwa [hn'], by simpa using hlen, ?_,
    ?_⟩, ?_⟩
  · have := Chain.plug h₁' (Chain.last (P := Child cfg mem' h n) ⟨hc, hmin⟩) h₂'
    simpa using this
  · congr 1
    abel
  · rw [hn', hn.keyCnt, List.length_append]

/-! ## Borrowing and merging in a layer -/

/-- A node, what two of its children occupy, what the others occupy, and the nodes of
other layers have nothing in common. -/
structure Apart (n : ℕ) (fpA fpB fpO rest : Multiset ℕ) : Prop where
  nodup₁ : fpA.Nodup
  nodup₂ : fpB.Nodup
  node₁ : n ∉ fpA
  node₂ : n ∉ fpB
  nodeO : n ∉ fpO
  nodeR : n ∉ rest
  siblings : ∀ j ∈ fpA, j ∉ fpB
  others₁ : ∀ j ∈ fpA, j ∉ fpO
  others₂ : ∀ j ∈ fpB, j ∉ fpO
  rest₁ : ∀ j ∈ fpA, j ∉ rest
  rest₂ : ∀ j ∈ fpB, j ∉ rest

theorem Apart.of_owns {fpA fpB fpO : Multiset ℕ}
    (ho : Owns p (n ::ₘ (fpA + fpB + fpO) + rest)) : Apart n fpA fpB fpO rest := by
  have hnd := ho.nodup
  simp only [Multiset.nodup_add, Multiset.nodup_cons, Multiset.mem_add, Multiset.mem_cons,
    Multiset.disjoint_left] at hnd
  obtain ⟨⟨hn, ⟨hA, hB, hAB⟩, -, hO⟩, -, hR⟩ := hnd
  exact ⟨hA, hB, fun h => hn (.inl (.inl h)), fun h => hn (.inl (.inr h)), fun h => hn (.inr h),
    fun h => hR (.inl rfl) h, fun j hj => hAB hj, fun j hj => hO (.inl hj),
    fun j hj => hO (.inr hj), fun j hj => hR (.inr (.inl (.inl hj))),
    fun j hj => hR (.inr (.inl (.inr hj)))⟩

/-- What borrowing leaves alone. -/
theorem BTreeRemove.Borrowed.agree {mv : List ℕ} {x : KeyInfo V} {fpA fpB fp : Multiset ℕ}
    (hb : BTreeRemove.Borrowed mem mem' n i s c mv x) (hs : s ∈ fpA) (hc : c ∈ fpB)
    (hmv : ∀ d ∈ mv, d ∈ fpA) (hn : n ∉ fp) (hA : ∀ j ∈ fpA, j ∉ fp) (hB : ∀ j ∈ fpB, j ∉ fp) :
    Agree fp mem mem' := fun j hj =>
  hb.other j (fun h => hn (h ▸ hj)) (fun h => hA s hs (h ▸ hj)) (fun h => hB c hc (h ▸ hj))
    fun h => hA j (hmv j h) hj

/-- The links to two neighbouring children. -/
theorem Node.InnerNode.siblings {nd : Node V} {a b : ℕ}
    (hn : nd.InnerNode par (ks₁ ++ m :: ks₂) (cs₁ ++ a :: b :: cs₂))
    (hcs : cs₁.length = ks₁.length) : nd.childIndex.get ks₁.length = some a ∧
      nd.childIndex.get (ks₁.length + 1) = some b := by
  have ha := hn.child ks₁.length (by simp; omega)
  have hb := hn.child (ks₁.length + 1) (by simp; omega)
  rw [List.getElem?_append_right (by omega), hcs] at ha hb
  simp only [Nat.add_sub_cancel_left, Nat.sub_self, List.getElem?_cons_succ,
    List.getElem?_cons_zero] at ha hb
  exact ⟨ha.symm, hb.symm⟩

/-- The child borrows from the sibling in front of it. -/
theorem ensures_borrowFromPrev_layer (hT : 2 ≤ cfg.T)
    (ho : Owns p (n ::ₘ (fpS + fpC + (fp₁ + fp₂)) + rest))
    (hn : (p.mempool.get n).InnerNode par (ks₁ ++ m :: ks₂) (cs₁ ++ s :: c :: cs₂))
    (hlen : (ks₁ ++ m :: ks₂).length ≤ cfg.maxDegree)
    (h₁ : Before (Child cfg p.mempool h n) ks₁ cs₁ its₁ fp₁)
    (hS : Layer cfg p.mempool h (some n) s S fpS)
    (hrich : cfg.minDegree + 1 ≤ (p.mempool.get s).keyCnt)
    (hC : Layer cfg p.mempool h (some n) c C fpC)
    (hroom : (p.mempool.get c).keyCnt < cfg.maxDegree)
    (h₂ : After (Child cfg p.mempool h n) ks₂ cs₂ its₂ fp₂) :
    Ensures E (BTreeRemove.borrowFromPrev n (ks₁.length + 1)) p fun _ p' =>
      ∃ its₁' C' fpC' fpR', Opened cfg p'.mempool h par n (ks₁.length + 1)
        (ks₁.length + 1 + ks₂.length) its₁' c C' its₂ fpC' fpR' ∧
        its₁' ++ C' = its₁ ++ (S ++ m :: C) ∧ (∀ x ∈ C, x ∈ C') ∧
        (p'.mempool.get c).keyCnt = (p.mempool.get c).keyCnt + 1 ∧
        Owns p' (n ::ₘ (fpC' + fpR') + rest) ∧ Agree rest p.mempool p'.mempool ∧
        p'.ITEM_CNT = p.ITEM_CNT := by
  have hmin : 1 ≤ cfg.minDegree := by
    simp only [BTreeCfg.minDegree]
    omega
  have hap := Apart.of_owns ho
  obtain ⟨kS, a, mv, S', X, fpS', fpX, hkS, rfl, hfpS, hsS', hleaf, hinner, hmvX, hS', hX⟩ :=
    hS.dropLast (by omega) hap.nodup₁
  have hS'le : ∀ j ∈ fpS', j ∈ fpS := fun j hj => by simp [hfpS, hj]
  have hXle : ∀ j ∈ fpX, j ∈ fpS := fun j hj => by simp [hfpS, hj]
  have hmvle : ∀ d ∈ mv, d ∈ fpS := fun d hd => hXle d (hmvX d hd)
  have hS'X : ∀ j ∈ fpS', j ∉ fpX := fun j hj => Multiset.disjoint_left.mp
    (Multiset.nodup_add.mp (hfpS ▸ hap.nodup₁)).2.2 hj
  have hsS := hS.root_mem
  have hcC := hC.root_mem
  have hcs₁ := h₁.length_eq
  obtain ⟨hchs, hchc⟩ := hn.siblings hcs₁
  have hisLeaf : (p.mempool.get s).isLeaf = (p.mempool.get c).isLeaf := by
    rw [hS.isLeaf_iff, hC.isLeaf_iff]
  refine BTreeRemove.ensures_borrowFromPrev mv hchc hchs (fun h => hap.node₁ (h ▸ hsS))
    (fun h => hap.node₂ (h ▸ hcC)) (fun h => hap.siblings s hsS (h ▸ hcC))
    (fun h => hleaf (hisLeaf.trans h)) (fun h => hinner (hisLeaf.trans h))
    (fun d hd => ⟨fun h => hap.node₁ (h ▸ hmvle d hd), fun h => hS'X s hsS' (h ▸ hmvX d hd),
      fun h => hap.siblings d (hmvle d hd) (h ▸ hcC)⟩) fun p' hp' hb hs' hc' hl' => ?_
  have hkc := hkS.keyCnt
  simp only [List.length_append, List.length_singleton] at hkc
  have ha : (p.mempool.get s).getKey ((p.mempool.get s).keyCnt - 1) = a := by
    have := hkS.getKey_append
    rwa [show (p.mempool.get s).keyCnt - 1 = kS.length by omega]
  rw [ha] at hb
  have hLS : Layer cfg p'.mempool h (some n) s S' fpS' := by
    refine hS' p'.mempool (by rw [hs']; congr 1; omega) fun j hj hjs => hb.other j ?_ hjs ?_ ?_
    · exact fun h => hap.node₁ (h ▸ hS'le j hj)
    · exact fun h => hap.siblings j (hS'le j hj) (h ▸ hcC)
    · exact fun h => hS'X j hj (hmvX j h)
  have hLC : Layer cfg p'.mempool h (some n) c (X ++ [m] ++ C) (fpX + fpC) := by
    refine hC.addFirst hap.nodup₂
      (hX p'.mempool c m hb.moved fun j hj hjmv => hb.other j ?_ ?_ ?_ hjmv)
      (fun ks hks => by simpa [hn.toHolds.getKey_append] using hc' _ ks hks) hb.isLeaf hl'
      (by simp; omega) fun j hj hjc => hb.other j ?_ ?_ hjc ?_
    · exact fun h => hap.node₁ (h ▸ hXle j hj)
    · exact fun h => hS'X s hsS' (h ▸ hj)
    · exact fun h => hap.siblings j (hXle j hj) (h ▸ hcC)
    · exact fun h => hap.node₂ (h ▸ hj)
    · exact fun h => hap.siblings s hsS (h ▸ hj)
    · exact fun h => hap.siblings j (hmvle j h) hj
  have hO : Agree (fp₁ + fp₂) p.mempool p'.mempool :=
    hb.agree hsS hcC hmvle hap.nodeO hap.others₁ hap.others₂
  have hkn' := hn.toHolds.slotChanged rfl hb.node
  refine ⟨its₁ ++ S' ++ [a], X ++ [m] ++ C, fpX + fpC, fp₁ + fpS' + fp₂,
    ⟨ks₁ ++ [a], ks₂, cs₁ ++ [s], cs₂, fp₁ + fpS', fp₂, by simp, by simp, ?_, ⟨?_, ?_, ?_⟩,
      (Before.frame h₁ (hO.mono (Multiset.le_add_right _ _))).concat ⟨hLS, ?_⟩, hLC,
      After.frame h₂ (hO.mono (Multiset.le_add_left _ _)), rfl⟩,
    by simp, fun x hx => by simp [hx], ?_, ?_,
    hb.agree hsS hcC hmvle hap.nodeR hap.rest₁ hap.rest₂, hp'.ITEM_CNT⟩
  · simp only [List.length_append, List.length_cons] at hlen
    omega
  · simpa using hkn'
  · exact hb.node.frame.isLeaf.trans hn.isLeaf
  · rw [hb.node.frame.childIndex]
    simpa using hn.child
  · rw [hs']
    show cfg.minDegree ≤ _ - 1
    omega
  · obtain ⟨ks, hks, -⟩ := hC.holds
    rw [(hc' _ ks hks).keyCnt, hks.keyCnt, List.length_cons]
  · have : n ::ₘ (fpX + fpC + (fp₁ + fpS' + fp₂)) + rest =
        n ::ₘ (fpS + fpC + (fp₁ + fp₂)) + rest := by
      rw [hfpS]
      congr 2
      abel
    rw [this]
    exact ho.congr hp'

/-- The child borrows from the sibling behind it. -/
theorem ensures_borrowFromNext_layer (hT : 2 ≤ cfg.T)
    (ho : Owns p (n ::ₘ (fpS + fpC + (fp₁ + fp₂)) + rest))
    (hn : (p.mempool.get n).InnerNode par (ks₁ ++ m :: ks₂) (cs₁ ++ c :: s :: cs₂))
    (hlen : (ks₁ ++ m :: ks₂).length ≤ cfg.maxDegree)
    (h₁ : Before (Child cfg p.mempool h n) ks₁ cs₁ its₁ fp₁)
    (hC : Layer cfg p.mempool h (some n) c C fpC)
    (hroom : (p.mempool.get c).keyCnt < cfg.maxDegree)
    (hS : Layer cfg p.mempool h (some n) s S fpS)
    (hrich : cfg.minDegree + 1 ≤ (p.mempool.get s).keyCnt)
    (h₂ : After (Child cfg p.mempool h n) ks₂ cs₂ its₂ fp₂) :
    Ensures E (BTreeRemove.borrowFromNext n ks₁.length) p fun _ p' =>
      ∃ C' its₂' fpC' fpR', Opened cfg p'.mempool h par n ks₁.length
        (ks₁.length + 1 + ks₂.length) its₁ c C' its₂' fpC' fpR' ∧
        C' ++ its₂' = C ++ m :: (S ++ its₂) ∧ (∀ x ∈ C, x ∈ C') ∧
        (p'.mempool.get c).keyCnt = (p.mempool.get c).keyCnt + 1 ∧
        Owns p' (n ::ₘ (fpC' + fpR') + rest) ∧ Agree rest p.mempool p'.mempool ∧
        p'.ITEM_CNT = p.ITEM_CNT := by
  have hmin : 1 ≤ cfg.minDegree := by
    simp only [BTreeCfg.minDegree]
    omega
  have hap := Apart.of_owns ho
  obtain ⟨kS, a, mv, S', X, fpS', fpX, hkS, rfl, hfpS, hsS', hleaf, hinner, hmvX, hS', hX⟩ :=
    hS.dropFirst (by omega) hap.nodup₁
  have hS'le : ∀ j ∈ fpS', j ∈ fpS := fun j hj => by simp [hfpS, hj]
  have hXle : ∀ j ∈ fpX, j ∈ fpS := fun j hj => by simp [hfpS, hj]
  have hmvle : ∀ d ∈ mv, d ∈ fpS := fun d hd => hXle d (hmvX d hd)
  have hS'X : ∀ j ∈ fpS', j ∉ fpX := fun j hj => Multiset.disjoint_left.mp
    (Multiset.nodup_add.mp (hfpS ▸ hap.nodup₁)).2.2 hj
  have hsS := hS.root_mem
  have hcC := hC.root_mem
  have hcs₁ := h₁.length_eq
  obtain ⟨hchc, hchs⟩ := hn.siblings hcs₁
  have hisLeaf : (p.mempool.get c).isLeaf = (p.mempool.get s).isLeaf := by
    rw [hS.isLeaf_iff, hC.isLeaf_iff]
  have hkc := hkS.keyCnt
  simp only [List.length_cons] at hkc
  refine BTreeRemove.ensures_borrowFromNext mv hchc hchs (fun h => hap.node₁ (h ▸ hsS))
    (fun h => hap.node₂ (h ▸ hcC)) (fun h => hap.siblings s hsS (h ▸ hcC)) hisLeaf hleaf hinner
    (fun d hd => ⟨fun h => hap.node₁ (h ▸ hmvle d hd), fun h => hS'X s hsS' (h ▸ hmvX d hd),
      fun h => hap.siblings d (hmvle d hd) (h ▸ hcC)⟩)
    fun p' hp' hb hs' hsleaf hslf hsin hc' hl' => ?_
  have ha : (p.mempool.get s).getKey 0 = a := Node.Holds.getKey_append (show Node.Holds _ _ ([] ++ a :: _) from hkS)
  rw [ha] at hb
  have hsKey := hs' _ _ _ hkS
  have hLS : Layer cfg p'.mempool h (some n) s S' fpS' := by
    refine hS' p'.mempool hsKey hsleaf hslf (fun hl j hj => hsin hl j (by omega)) fun j hj hjs =>
      hb.other j ?_ hjs ?_ ?_
    · exact fun h => hap.node₁ (h ▸ hS'le j hj)
    · exact fun h => hap.siblings j (hS'le j hj) (h ▸ hcC)
    · exact fun h => hS'X j hj (hmvX j h)
  have hLC : Layer cfg p'.mempool h (some n) c (C ++ m :: X) (fpC + fpX) := by
    refine hC.addLast hap.nodup₂
      (hX p'.mempool c m hb.moved fun j hj hjmv => hb.other j ?_ ?_ ?_ hjmv)
      (fun ks hks => by simpa [hn.toHolds.getKey_append] using hc' _ ks hks) hb.isLeaf hl'
      (by simp; omega) fun j hj hjc => hb.other j ?_ ?_ hjc ?_
    · exact fun h => hap.node₁ (h ▸ hXle j hj)
    · exact fun h => hS'X s hsS' (h ▸ hj)
    · exact fun h => hap.siblings j (hXle j hj) (h ▸ hcC)
    · exact fun h => hap.node₂ (h ▸ hj)
    · exact fun h => hap.siblings s hsS (h ▸ hj)
    · exact fun h => hap.siblings j (hmvle j h) hj
  have hO : Agree (fp₁ + fp₂) p.mempool p'.mempool :=
    hb.agree hsS hcC hmvle hap.nodeO hap.others₁ hap.others₂
  have hkn' := hn.toHolds.slotChanged rfl hb.node
  refine ⟨C ++ m :: X, a :: (S' ++ its₂), fpC + fpX, fp₁ + (fpS' + fp₂),
    ⟨ks₁, a :: ks₂, cs₁, s :: cs₂, fp₁, fpS' + fp₂, rfl, by simp; omega, ?_, ⟨?_, ?_, ?_⟩,
      Before.frame h₁ (hO.mono (Multiset.le_add_right _ _)), hLC,
      .cons ⟨hLS, ?_⟩ (After.frame h₂ (hO.mono (Multiset.le_add_left _ _))), rfl⟩,
    by simp, fun x hx => by simp [hx], ?_, ?_,
    hb.agree hsS hcC hmvle hap.nodeR hap.rest₁ hap.rest₂, hp'.ITEM_CNT⟩
  · simp only [List.length_append, List.length_cons] at hlen
    omega
  · exact hkn'
  · exact hb.node.frame.isLeaf.trans hn.isLeaf
  · rw [hb.node.frame.childIndex]
    exact hn.child
  · rw [hsKey.keyCnt]
    omega
  · obtain ⟨ks, hks, -⟩ := hC.holds
    rw [(hc' _ ks hks).keyCnt, hks.keyCnt, List.length_append, List.length_singleton]
  · have : n ::ₘ (fpC + fpX + (fp₁ + (fpS' + fp₂))) + rest =
        n ::ₘ (fpS + fpC + (fp₁ + fp₂)) + rest := by
      rw [hfpS]
      congr 2
      abel
    rw [this]
    exact ho.congr hp'

/-- A child with the least number of keys is merged with the next one. -/
theorem ensures_merge_layer (hT : 2 ≤ cfg.T)
    (ho : Owns p (n ::ₘ (fpS + fpC + (fp₁ + fp₂)) + rest))
    (hn : (p.mempool.get n).InnerNode par (ks₁ ++ m :: ks₂) (cs₁ ++ c :: s :: cs₂))
    (hlen : (ks₁ ++ m :: ks₂).length ≤ cfg.maxDegree)
    (h₁ : Before (Child cfg p.mempool h n) ks₁ cs₁ its₁ fp₁)
    (hC : Layer cfg p.mempool h (some n) c C fpC)
    (hcnt : (p.mempool.get c).keyCnt = cfg.minDegree)
    (hS : Layer cfg p.mempool h (some n) s S fpS)
    (hcntS : (p.mempool.get s).keyCnt = cfg.minDegree)
    (h₂ : After (Child cfg p.mempool h n) ks₂ cs₂ its₂ fp₂) :
    Ensures E (BTreeRemove.merge cfg n ks₁.length) p fun _ p' =>
      ∃ fpC', Opened cfg p'.mempool h par n ks₁.length (ks₁.length + ks₂.length) its₁ c
        (C ++ m :: S) its₂ fpC' (fp₁ + fp₂) ∧
        (p'.mempool.get c).keyCnt = 2 * cfg.minDegree + 1 ∧
        Owns p' (n ::ₘ (fpC' + (fp₁ + fp₂)) + rest) ∧ Agree rest p.mempool p'.mempool ∧
        p'.ITEM_CNT = p.ITEM_CNT := by
  have hmax : cfg.maxDegree = 2 * cfg.minDegree + 1 := by
    simp only [BTreeCfg.minDegree, BTreeCfg.maxDegree]
    omega
  have hap := Apart.of_owns ho
  obtain ⟨kS, mv, fpX, hkS, hfpS, hleaf, hinner, hmvX, hX⟩ := hS.behind hap.nodup₁
  have hXle : ∀ j ∈ fpX, j ∈ fpS := fun j hj => by simp [hfpS, hj]
  have hmvle : ∀ d ∈ mv, d ∈ fpS := fun d hd => hXle d (hmvX d hd)
  have hsX : s ∉ fpX := (Multiset.nodup_cons.mp (hfpS ▸ hap.nodup₁)).1
  have hsS := hS.root_mem
  have hcC := hC.root_mem
  have hcs₁ := h₁.length_eq
  obtain ⟨hchc, hchs⟩ := hn.siblings hcs₁
  have hisLeaf : (p.mempool.get c).isLeaf = (p.mempool.get s).isLeaf := by
    rw [hS.isLeaf_iff, hC.isLeaf_iff]
  have hkc := hkS.keyCnt
  have howns : Owns p (s ::ₘ (n ::ₘ (fpX + fpC + (fp₁ + fp₂)) + rest)) := by
    have : s ::ₘ (n ::ₘ (fpX + fpC + (fp₁ + fp₂)) + rest) =
        n ::ₘ (fpS + fpC + (fp₁ + fp₂)) + rest := by
      rw [hfpS]
      simp only [Multiset.cons_add]
      exact Multiset.cons_swap _ _ _
    rwa [this]
  refine BTreeRemove.ensures_merge mv howns hchc hchs (fun h => hap.node₁ (h ▸ hsS))
    (fun h => hap.node₂ (h ▸ hcC)) (fun h => hap.siblings s hsS (h ▸ hcC)) hcnt hisLeaf hleaf
    (fun h => by rw [hkc]; exact hinner h)
    (fun d hd => ⟨fun h => hap.node₁ (h ▸ hmvle d hd), fun h => hsX (h ▸ hmvX d hd),
      fun h => hap.siblings d (hmvle d hd) (h ▸ hcC)⟩)
    fun p' ho' hN' hn' hnleaf hnl hc' hcleaf hcl hmoved hother => ?_
  have hagree : ∀ fp : Multiset ℕ, n ∉ fp → (∀ j ∈ fpS, j ∉ fp) → (∀ j ∈ fpC, j ∉ fp) →
      Agree fp p.mempool p'.mempool := fun fp hnf hSf hCf j hj =>
    hother j (fun h => hnf (h ▸ hj)) (fun h => hSf s hsS (h ▸ hj)) (fun h => hCf c hcC (h ▸ hj))
      fun h => hSf j (hmvle j h) hj
  have hLC : Layer cfg p'.mempool h (some n) c (C ++ m :: S) (fpC + fpX) := by
    refine hC.addLast hap.nodup₂
      (hX p'.mempool c m hmoved fun j hj hjmv => hother j ?_ ?_ ?_ hjmv)
      (fun ks hks => by simpa [hn.toHolds.getKey_append] using hc' _ ks _ kS hks hkS) hcleaf hcl
      (by simp; omega) fun j hj hjc => hother j ?_ ?_ hjc ?_
    · exact fun h => hap.node₁ (h ▸ hXle j hj)
    · exact fun h => hsX (h ▸ hj)
    · exact fun h => hap.siblings j (hXle j hj) (h ▸ hcC)
    · exact fun h => hap.node₂ (h ▸ hj)
    · exact fun h => hap.siblings s hsS (h ▸ hj)
    · exact fun h => hap.siblings j (hmvle j h) hj
  have hO := hagree (fp₁ + fp₂) hap.nodeO hap.others₁ hap.others₂
  have hcs₂ := h₂.length_eq
  refine ⟨fpC + fpX, ⟨ks₁, ks₂, cs₁, cs₂, fp₁, fp₂, rfl, rfl, ?_,
      ⟨hn' _ _ _ _ hn.toHolds rfl, hnleaf.trans hn.isLeaf, ?_⟩,
      Before.frame h₁ (hO.mono (Multiset.le_add_right _ _)), hLC,
      After.frame h₂ (hO.mono (Multiset.le_add_left _ _)), rfl⟩, ?_, ?_,
    hagree rest hap.nodeR hap.rest₁ hap.rest₂, hN'⟩
  · simp only [List.length_append, List.length_cons] at hlen
    omega
  · intro j hj
    have hkn := hn.keyCnt
    simp only [List.length_append, List.length_cons] at hj hkn
    rw [hnl]
    rcases Nat.lt_or_ge j (ks₁.length + 1) with hlt | hge
    · have := hn.child j (by simp; omega)
      rw [if_neg (by omega), ← this]
      rcases Nat.lt_or_ge j cs₁.length with hj₁ | hj₁
      · rw [List.getElem?_append_left hj₁, List.getElem?_append_left hj₁]
      · obtain rfl : j = cs₁.length := by omega
        simp
    · have := hn.child (j + 1) (by simp; omega)
      rw [if_pos (by omega), ← this, List.getElem?_append_right (by omega),
        List.getElem?_append_right (by omega)]
      obtain ⟨d, rfl⟩ : ∃ d, j = cs₁.length + (d + 1) := ⟨j - (cs₁.length + 1), by omega⟩
      rw [show cs₁.length + (d + 1) - cs₁.length = d + 1 by omega,
        show cs₁.length + (d + 1) + 1 - cs₁.length = d + 1 + 1 by omega]
      simp
  · obtain ⟨ks, hks, -⟩ := hC.holds
    have := hks.keyCnt
    rw [(hc' _ ks _ kS hks hkS).keyCnt, List.length_append, List.length_cons]
    omega
  · have : n ::ₘ (fpC + fpX + (fp₁ + fp₂)) + rest = n ::ₘ (fpX + fpC + (fp₁ + fp₂)) + rest := by
      rw [add_comm fpC]
    rw [this]
    exact ho'

/-! ## `fill` -/

theorem ensures_childKeyCnt {idx : ℕ} {Q : ℕ → NodeAllocator V → Prop}
    (hc : (p.mempool.get n).childIndex.get idx = some c) (hQ : Q (p.mempool.get c).keyCnt p) :
    Ensures E (BTreeRemove.childKeyCnt n idx) p Q :=
  Ensures.bind (ensures_read (Ensures.bind (ensures_deref hc
    (Ensures.bind (ensures_read (Ensures.pure hQ))))))

/-- What `fill` makes of an open node: the node is open at a child with all the keys of the
old one, which can give one of its keys away. -/
def Filled (cfg : BTreeCfg) (p : NodeAllocator V) (h : ℕ) (par : Option ℕ) (n i cnt : ℕ)
    (its₁ C its₂ : List (KeyInfo V)) (rest : Multiset ℕ) (p' : NodeAllocator V) : Prop :=
  ∃ i' cnt' its₁' c' C' its₂' fpC' fpR',
    Opened cfg p'.mempool h par n i' cnt' its₁' c' C' its₂' fpC' fpR' ∧
    its₁' ++ (C' ++ its₂') = its₁ ++ (C ++ its₂) ∧ (∀ x ∈ C, x ∈ C') ∧
    cfg.minDegree + 1 ≤ (p'.mempool.get c').keyCnt ∧
    (if i = cnt ∧ cnt' < i then i - 1 else i) = i' ∧ cnt ≤ cnt' + 1 ∧
    Owns p' (n ::ₘ (fpC' + fpR') + rest) ∧ Agree rest p.mempool p'.mempool ∧
    p'.ITEM_CNT = p.ITEM_CNT

/-- The part of `fill` behind the look at the previous child. -/
private theorem ensures_fill_next {cnt : ℕ} (hT : 2 ≤ cfg.T)
    (hO : Opened cfg p.mempool h par n i cnt its₁ c C its₂ fpC fpR) (hcnt : 0 < cnt)
    (hc : (p.mempool.get c).keyCnt = cfg.minDegree)
    (hprev : i ≠ 0 → ∃ s, (p.mempool.get n).childIndex.get (i - 1) = some s ∧
      (p.mempool.get s).keyCnt = cfg.minDegree)
    (ho : Owns p (n ::ₘ (fpC + fpR) + rest)) :
    Ensures E (do
        let keyCnt := (← DynamicMempool.read n).keyCnt
        let nextRich ← if i ≠ keyCnt then
            do pure (decide ((← BTreeRemove.childKeyCnt n (i + 1)) ≥ cfg.minDegree + 1))
          else pure false
        if nextRich then BTreeRemove.borrowFromNext n i
        else if i ≠ keyCnt then BTreeRemove.merge cfg n i
        else BTreeRemove.merge cfg n (i - 1)) p
      fun _ p' => Filled cfg p h par n i cnt its₁ C its₂ rest p' := by
  have hmax : cfg.minDegree < cfg.maxDegree ∧ 2 * cfg.minDegree + 1 = cfg.maxDegree ∧
      1 ≤ cfg.minDegree := by
    simp only [BTreeCfg.minDegree, BTreeCfg.maxDegree]
    omega
  obtain ⟨ks₁, ks₂, cs₁, cs₂, fp₁, fp₂, rfl, rfl, hlen, hn, h₁, hC, h₂, rfl⟩ := hO
  have hkn := hn.keyCnt
  simp only [List.length_append] at hkn
  refine Ensures.bind (ensures_read ?_)
  rw [hkn]
  cases ks₂ with
  | cons m ks₂ =>
      cases h₂ with
      | @cons s cs₂ _ _ S its₂ fpS fp₂ hS h₂ =>
          have hne : ks₁.length ≠ ks₁.length + (m :: ks₂).length := by simp
          have ho' : Owns p (n ::ₘ (fpS + fpC + (fp₁ + fp₂)) + rest) := by
            have : fpS + fpC + (fp₁ + fp₂) = fpC + (fp₁ + (fpS + fp₂)) := by abel
            rwa [this]
          have hlen' : (ks₁ ++ m :: ks₂).length ≤ cfg.maxDegree := by simpa using hlen
          rw [if_pos hne]
          refine Ensures.bind (ensures_childKeyCnt (hn.siblings h₁.length_eq).2
            (Ensures.bind (Ensures.pure ?_)))
          refine Ensures.ite (fun hrich => ?_) fun hpoor => ?_
          · refine (ensures_borrowFromNext_layer hT ho' hn hlen' h₁ hC (by omega) hS.1
              (of_decide_eq_true hrich) h₂).mono ?_
            rintro - p' ⟨C', its₂', fpC', fpR', hO', hits, hsub, hcnt', how, hagree, hN⟩
            refine ⟨_, _, _, c, C', its₂', fpC', fpR', hO', by rw [hits], hsub, by omega, ?_,
              by simp only [List.length_cons]; omega, how, hagree, hN⟩
            rw [if_neg (by simp)]
          · rw [if_pos hne]
            have hcntS : (p.mempool.get s).keyCnt = cfg.minDegree := by
              have := hS.2
              simp only [decide_eq_true_eq] at hpoor
              omega
            refine (ensures_merge_layer hT ho' hn hlen' h₁ hC hc hS.1 hcntS h₂).mono ?_
            rintro - p' ⟨fpC', hO', hcnt', how, hagree, hN⟩
            refine ⟨_, _, _, c, _, _, fpC', _, hO', by simp, fun x hx => by simp [hx], by omega, ?_,
              by simp; omega, how, hagree, hN⟩
            rw [if_neg (by simp)]
  | nil =>
      cases h₂
      have hks₁ : ks₁ ≠ [] := by
        rintro rfl
        simp at hcnt
      obtain ⟨ks₁, m, rfl⟩ : ∃ ks m, ks₁ = ks ++ [m] := by
        rcases List.eq_nil_or_concat ks₁ with rfl | ⟨ks, m, rfl⟩
        · exact absurd rfl hks₁
        · exact ⟨ks, m, List.concat_eq_append ..⟩
      obtain ⟨cs₁, s, its₁, S, fp₁, fpS, rfl, rfl, rfl, hb, hS⟩ := h₁.of_concat
      have hlen' : (ks₁ ++ [m]).length ≤ cfg.maxDegree := by simpa using hlen
      have hn' : (p.mempool.get n).InnerNode par (ks₁ ++ [m]) (cs₁ ++ [s, c]) := by
        simpa using hn
      have ho' : Owns p (n ::ₘ (fpC + fpS + (fp₁ + 0)) + rest) := by
        have : fpC + fpS + (fp₁ + 0) = fpC + (fp₁ + fpS + 0) := by abel
        rwa [this]
      obtain ⟨s', hs', hcnt'⟩ := hprev (by simp)
      have hs := (hn'.siblings hb.length_eq).1
      obtain rfl : s' = s := by simpa [hs] using hs'.symm
      rw [if_neg (by simp), if_neg (by simp)]
      refine Ensures.bind (Ensures.pure ?_)
      simp only [Bool.false_eq_true, if_false, List.length_append, List.length_singleton,
        Nat.add_sub_cancel]
      refine (ensures_merge_layer hT ho' hn' hlen' hb hS.1 hcnt' hC hc
        .nil).mono ?_
      rintro - p' ⟨fpC', hO', hcnt'', how, hagree, hN⟩
      refine ⟨_, _, _, _, _, _, fpC', _, hO', by simp, fun x hx => by simp [hx], by omega, ?_,
        by simp, how, hagree, hN⟩
      simp

/-- `fill` gives a child with the least number of keys one key more. -/
theorem ensures_fill {cnt : ℕ} (hT : 2 ≤ cfg.T)
    (hO : Opened cfg p.mempool h par n i cnt its₁ c C its₂ fpC fpR) (hcnt : 0 < cnt)
    (hc : (p.mempool.get c).keyCnt = cfg.minDegree)
    (ho : Owns p (n ::ₘ (fpC + fpR) + rest)) :
    Ensures E (BTreeRemove.fill cfg n i) p fun _ p' =>
      Filled cfg p h par n i cnt its₁ C its₂ rest p' := by
  have hnext := fun hprev => ensures_fill_next (E := E) hT hO hcnt hc hprev ho
  obtain ⟨ks₁, ks₂, cs₁, cs₂, fp₁, fp₂, rfl, rfl, hlen, hn, h₁, hC, h₂, rfl⟩ := hO
  rw [BTreeRemove.fill]
  rcases List.eq_nil_or_concat ks₁ with rfl | ⟨ks₁, m, rfl⟩
  · rw [if_neg (by simp)]
    refine Ensures.bind (Ensures.pure ?_)
    simp only [Bool.false_eq_true, if_false]
    exact hnext (by simp)
  · rw [List.concat_eq_append] at *
    obtain ⟨cs₁, s, its₁, S, fp₁, fpS, rfl, rfl, rfl, hb, hS⟩ := h₁.of_concat
    have hn' : (p.mempool.get n).InnerNode par (ks₁ ++ m :: ks₂) (cs₁ ++ s :: c :: cs₂) := by
      simpa using hn
    have hs := (hn'.siblings hb.length_eq).1
    have hlen' : (ks₁ ++ [m]).length - 1 = ks₁.length := by simp
    rw [if_pos (by simp)]
    refine Ensures.bind (ensures_childKeyCnt (hlen' ▸ hs) (Ensures.bind (Ensures.pure ?_)))
    refine Ensures.ite (fun hrich => ?_) fun hpoor => ?_
    · have hlenS : (ks₁ ++ [m]).length = ks₁.length + 1 := by simp
      have hmax : cfg.minDegree < cfg.maxDegree := by
        simp only [BTreeCfg.minDegree, BTreeCfg.maxDegree]
        omega
      rw [hlenS] at hlen ⊢
      have ho' : Owns p (n ::ₘ (fpS + fpC + (fp₁ + fp₂)) + rest) := by
        have : fpS + fpC + (fp₁ + fp₂) = fpC + (fp₁ + fpS + fp₂) := by abel
        rwa [this]
      refine (ensures_borrowFromPrev_layer hT ho' hn' (by simp; omega) hb hS.1
        (of_decide_eq_true hrich) hC (by omega) h₂).mono ?_
      rintro - p' ⟨its₁', C', fpC', fpR', hO', hits, hsub, hcnt', how, hagree, hN⟩
      refine ⟨_, _, its₁', c, C', its₂, fpC', fpR', hO', ?_, hsub, by omega, ?_, by omega, how,
        hagree, hN⟩
      · rw [← List.append_assoc, hits]
        simp
      · rw [if_neg (by omega)]
    · refine hnext fun _ => ⟨s, hlen' ▸ hs, ?_⟩
      have := hS.2
      simp only [decide_eq_true_eq] at hpoor
      omega

end Pcv
