import Pcv.PartitionSort.BTreeInsert
import Pcv.PartitionSort.BTreeNodeNavigator
import Pcv.PartitionSort.Layer

/-!
# Splitting a full child

`splitChild` cuts a full child of a node into two children and moves the key
between them up to the node.  The keys of the layer and their order stay the same.
-/

namespace Pcv

open DynamicMempool Navigator
open Store (Agree)

variable {V : Type} {cfg : BTreeCfg}

/-- What `splitChild` makes of the memory: `y` is the full child, at index `i` of
`node`, `z` the new node and `cB` the children that move from `y` to `z`. -/
structure Split (cfg : BTreeCfg) (mem mem' : Store (Node V)) (node i y z : ℕ)
    (cB : List ℕ) : Prop where
  lower : mem'.get y = (mem.get y).setKeyCnt cfg.minDegree
  upper_keyCnt : (mem'.get z).keyCnt = cfg.minDegree
  upper_getKey : ∀ j, j < cfg.minDegree →
    (mem'.get z).getKey j = (mem.get y).getKey (cfg.minDegree + 1 + j)
  upper_isLeaf : (mem'.get z).isLeaf = (mem.get y).isLeaf
  upper_isCompressed : (mem'.get z).isCompressed = false
  upper_parent : (mem'.get z).parent = some node
  upper_child : ∀ j, j < cB.length → cB[j]? = (mem'.get z).childIndex.get j
  upper_leaf : (mem.get y).isLeaf = true → ∀ j, (mem'.get z).childIndex.get j = none
  keyCnt : (mem'.get node).keyCnt = (mem.get node).keyCnt + 1
  getKey : ∀ j, (mem'.get node).getKey j =
    if j = i then (mem.get y).getKey cfg.minDegree
    else if i < j ∧ j ≤ (mem.get node).keyCnt then (mem.get node).getKey (j - 1)
    else (mem.get node).getKey j
  isLeaf : (mem'.get node).isLeaf = (mem.get node).isLeaf
  isCompressed : (mem'.get node).isCompressed = (mem.get node).isCompressed
  parent : (mem'.get node).parent = (mem.get node).parent
  child : ∀ j, (mem'.get node).childIndex.get j =
    if j = i + 1 then some z
    else if i + 1 < j ∧ j ≤ (mem.get node).keyCnt + 1 then (mem.get node).childIndex.get (j - 1)
    else (mem.get node).childIndex.get j
  moved : ∀ c ∈ cB, mem'.get c = (mem.get c).setParent (some z)
  other : ∀ j, j ≠ node → j ≠ y → j ≠ z → j ∉ cB → mem'.get j = mem.get j

/-! ## The layer after a split -/

variable {mem mem' : Store (Node V)} {h n y z : ℕ} {par : Option ℕ}

/-- The lower half of a node. -/
theorem Node.Holds.setKeyCnt {nd : Node V} {A B : List (KeyInfo V)} (hn : nd.Holds par (A ++ B))
    {m : ℕ} (hm : A.length = m) : (nd.setKeyCnt m).Holds par A where
  keyCnt := hm.symm
  getKey := by
    intro i hi
    have := hn.getKey i (by simp; omega)
    rw [List.getElem?_append_left hi] at this
    rw [this]
    rfl
  isCompressed := hn.isCompressed
  parent := hn.parent

/-- The node the children are split off from holds the upper half. -/
theorem Split.upper_holds {i : ℕ} {cB : List ℕ} (hs : Split cfg mem mem' n i y z cB)
    {A B : List (KeyInfo V)} {m : KeyInfo V} (hy : (mem.get y).Holds par (A ++ m :: B))
    (hA : A.length = cfg.minDegree) (hB : B.length = cfg.minDegree) :
    (mem'.get z).Holds (some n) B where
  keyCnt := by rw [hs.upper_keyCnt, hB]
  getKey := by
    intro j hj
    rw [hs.upper_getKey j (by omega)]
    have := hy.getKey (cfg.minDegree + 1 + j) (by simp; omega)
    rw [← this, List.getElem?_append_right (by omega), hA,
      show cfg.minDegree + 1 + j - cfg.minDegree = j + 1 by omega, List.getElem?_cons_succ]
  isCompressed := hs.upper_isCompressed
  parent := hs.upper_parent

/-- The node above gets the key between the halves and the new child. -/
theorem Split.innerNode {i : ℕ} {cB : List ℕ} (hs : Split cfg mem mem' n i y z cB)
    {ks₁ ks₂ A B : List (KeyInfo V)} {m : KeyInfo V} {cs₁ cs₂ : List ℕ} {pary : Option ℕ}
    (hn : (mem.get n).InnerNode par (ks₁ ++ ks₂) (cs₁ ++ y :: cs₂)) (hks : ks₁.length = i)
    (hcs : cs₁.length = i) (hcs₂ : cs₂.length = ks₂.length)
    (hy : (mem.get y).Holds pary (A ++ m :: B)) (hA : A.length = cfg.minDegree) :
    (mem'.get n).InnerNode par (ks₁ ++ m :: ks₂) (cs₁ ++ y :: z :: cs₂) where
  keyCnt := by
    rw [hs.keyCnt, hn.keyCnt]
    simp
    omega
  getKey := by
    intro j hj
    have hkc := hn.keyCnt
    simp only [List.length_append, List.length_cons] at hj hkc
    rw [hs.getKey]
    rcases Nat.lt_trichotomy j i with hji | rfl | hji
    · have := hn.getKey j (by simp; omega)
      rw [if_neg (by omega), if_neg (by omega), ← this,
        List.getElem?_append_left (by omega), List.getElem?_append_left (by omega)]
    · have := hy.getKey cfg.minDegree (by simp; omega)
      rw [if_pos rfl, ← this, List.getElem?_append_right (by omega),
        List.getElem?_append_right (by omega)]
      simp [hA, hks]
    · have := hn.getKey (j - 1) (by simp; omega)
      rw [if_neg (by omega), if_pos (by omega), ← this,
        List.getElem?_append_right (by omega), List.getElem?_append_right (by omega), hks,
        show j - i = (j - 1 - i) + 1 by omega, List.getElem?_cons_succ]
  isCompressed := hs.isCompressed.trans hn.isCompressed
  parent := hs.parent.trans hn.parent
  isLeaf := hs.isLeaf.trans hn.isLeaf
  child := by
    intro j hj
    have hkc := hn.keyCnt
    simp only [List.length_append, List.length_cons] at hj hkc
    rw [hs.child]
    rcases Nat.lt_trichotomy j (i + 1) with hji | rfl | hji
    · have := hn.child j (by simp; omega)
      rw [if_neg (by omega), if_neg (by omega), ← this]
      rcases Nat.lt_or_ge j i with hlt | hge
      · rw [List.getElem?_append_left (by omega), List.getElem?_append_left (by omega)]
      · obtain rfl : j = i := by omega
        rw [List.getElem?_append_right (by omega), List.getElem?_append_right (by omega)]
        simp [hcs]
    · rw [if_pos rfl, List.getElem?_append_right (by omega)]
      simp [hcs]
    · have := hn.child (j - 1) (by simp; omega)
      rw [if_neg (by omega), if_pos (by omega), ← this,
        List.getElem?_append_right (by omega), List.getElem?_append_right (by omega), hcs]
      obtain ⟨d, rfl⟩ : ∃ d, j = i + 2 + d := ⟨j - (i + 2), by omega⟩
      rw [show i + 2 + d - i = d + 1 + 1 by omega, show i + 2 + d - 1 - i = d + 1 by omega]
      simp

/-- A full node can be cut in two: the children of its upper half are `cB`, and after the
split the two halves are layers of the same height. -/
theorem Layer.cut {its : List (KeyInfo V)} {fp : Multiset ℕ} (hL : Layer cfg mem h par y its fp)
    (hfull : (mem.get y).keyCnt = cfg.maxDegree) (hT : 2 ≤ cfg.T) (hnd : fp.Nodup) :
    ∃ cB kA m kB, (mem.get y).Holds par (kA ++ m :: kB) ∧ kA.length = cfg.minDegree ∧
      kB.length = cfg.minDegree ∧ ((mem.get y).isLeaf = true → cB = []) ∧
      ((mem.get y).isLeaf = false → cB.length = cfg.minDegree + 1) ∧
      (∀ j, j < cB.length → cB[j]? = (mem.get y).childIndex.get (cfg.minDegree + 1 + j)) ∧
      (∀ c ∈ cB, c ∈ fp) ∧ y ∉ cB ∧
      ∀ mem' n i z, Split cfg mem mem' n i y z cB → z ∉ fp → n ∉ fp →
        ∃ A B fpA fpB, its = A ++ m :: B ∧ fpA + fpB = z ::ₘ fp ∧
          Layer cfg mem' h par y A fpA ∧ Layer cfg mem' h (some n) z B fpB := by
  have hmax : cfg.maxDegree = cfg.minDegree + 1 + cfg.minDegree := by
    simp only [BTreeCfg.maxDegree, BTreeCfg.minDegree]
    omega
  -- the keys around the middle one
  have hcut : ∀ ks : List (KeyInfo V), (mem.get y).Holds par ks →
      ∃ kA m kB, ks = kA ++ m :: kB ∧ kA.length = cfg.minDegree ∧ kB.length = cfg.minDegree := by
    intro ks hks
    have hlen := hks.keyCnt.symm.trans hfull
    refine ⟨ks.take cfg.minDegree, ks[cfg.minDegree], ks.drop (cfg.minDegree + 1), ?_, ?_, ?_⟩
    · rw [List.getElem_cons_drop, List.take_append_drop]
    · simp
      omega
    · simp
      omega
  cases h with
  | zero =>
      obtain ⟨hleaf, hlen, rfl⟩ := hL
      obtain ⟨kA, m, kB, rfl, hA, hB⟩ := hcut its hleaf.toHolds
      refine ⟨[], kA, m, kB, hleaf.toHolds, hA, hB, fun _ => rfl, ?_, by simp, by simp, by simp, ?_⟩
      · simp [hleaf.isLeaf]
      · intro mem' n i z hs hz _
        refine ⟨kA, kB, {y}, {z}, rfl, ?_, ⟨⟨?_, ?_, ?_⟩, by omega, rfl⟩,
          ⟨⟨hs.upper_holds hleaf.toHolds hA hB, ?_, hs.upper_leaf hleaf.isLeaf⟩, by omega, rfl⟩⟩
        · rw [add_comm, Multiset.singleton_add]
        · rw [hs.lower]
          exact hleaf.toHolds.setKeyCnt hA
        · rw [hs.lower]
          exact hleaf.isLeaf
        · rw [hs.lower]
          exact hleaf.child
        · rw [hs.upper_isLeaf]
          exact hleaf.isLeaf
  | succ h =>
      obtain ⟨ks, cs, fp', hnode, hne, hlen, hch, rfl⟩ := hL
      obtain ⟨kA, m, kB, rfl, hA, hB⟩ := hcut ks hnode.toHolds
      obtain ⟨cA, cB, A, B, fpA, fpB, rfl, rfl, rfl, hchA, hchB⟩ := hch.split
      have hmin : 0 < cfg.minDegree := by
        simp only [BTreeCfg.minDegree]
        omega
      have hneA : kA ≠ [] := List.length_pos_iff.mp (by omega)
      have hneB : kB ≠ [] := List.length_pos_iff.mp (by omega)
      have hcA := hchA.length_eq
      have hcB := hchB.length_eq
      obtain ⟨hy, hnd'⟩ := Multiset.nodup_cons.mp hnd
      obtain ⟨-, hndB, hdisj⟩ := Multiset.nodup_add.mp hnd'
      have hmem : ∀ c ∈ cB, c ∈ fpB := by
        intro c hc
        obtain ⟨_, fp₀, hle, hP, -⟩ := hchB.exists_of_mem hc
        exact Multiset.mem_of_le hle hP.1.root_mem
      refine ⟨cB, kA, m, kB, hnode.toHolds, hA, hB, ?_, fun _ => by omega, ?_, ?_, ?_, ?_⟩
      · simp [hnode.isLeaf]
      · intro j hj
        have := hnode.child (cfg.minDegree + 1 + j) (by simp; omega)
        rw [← this, List.getElem?_append_right (by omega)]
        congr 1
        omega
      · intro c hc
        simp [hmem c hc]
      · exact fun hyc => hy (Multiset.mem_add.mpr (.inr (hmem y hyc)))
      · intro mem' n i z hs hz hn
        have hzne : z ≠ y ∧ z ∉ fpA ∧ z ∉ fpB := by simpa using hz
        have hnne : n ≠ y ∧ n ∉ fpA ∧ n ∉ fpB := by simpa using hn
        have hyne : y ∉ fpA ∧ y ∉ fpB := by simpa using hy
        have hchA' : Chain (Child cfg mem' h y) kA cA A fpA := by
          refine Chain.frame hchA fun j hj => hs.other j ?_ ?_ ?_ ?_
          · exact fun h => hnne.2.1 (h ▸ hj)
          · exact fun h => hyne.1 (h ▸ hj)
          · exact fun h => hzne.2.1 (h ▸ hj)
          · exact fun h => Multiset.disjoint_left.mp hdisj hj (hmem j h)
        have hchB' : Chain (Child cfg mem' h z) kB cB B fpB := by
          refine hchB.imp_of_nodup hndB id (fun c _ _ hP => hP.1.root_mem)
            fun c hc its₀ fp₀ hle huniq hP => ⟨?_, ?_⟩
          · refine hP.1.setParent (Multiset.nodup_of_le hle hndB) (hs.moved c hc)
              fun j hj hjc => hs.other j ?_ ?_ ?_ ?_
            · exact fun h => hnne.2.2 (h ▸ Multiset.mem_of_le hle hj)
            · exact fun h => hyne.2 (h ▸ Multiset.mem_of_le hle hj)
            · exact fun h => hzne.2.2 (h ▸ Multiset.mem_of_le hle hj)
            · exact fun h => hjc (huniq j h hj)
          · rw [hs.moved c hc]
            exact hP.2
        refine ⟨A, B, y ::ₘ fpA, z ::ₘ fpB, rfl, ?_,
          ⟨kA, cA, fpA, ⟨?_, ?_, ?_⟩, hneA, by omega, hchA', rfl⟩,
          ⟨kB, cB, fpB, ⟨hs.upper_holds hnode.toHolds hA hB, ?_, hs.upper_child⟩, hneB, by omega,
            hchB', rfl⟩⟩
        · simp only [Multiset.cons_add, Multiset.add_cons]
        · rw [hs.lower]
          exact hnode.toHolds.setKeyCnt hA
        · rw [hs.lower]
          exact hnode.isLeaf
        · intro j hj
          rw [hs.lower]
          have := hnode.child j (by simp; omega)
          rw [List.getElem?_append_left hj] at this
          exact this
        · rw [hs.upper_isLeaf]
          exact hnode.isLeaf

/-- A function of the memory that returns normally. -/
theorem ensures_reading {E : Fault → NodeAllocator V → Prop} {p : NodeAllocator V} {α : Type}
    {f : Store (Node V) → Except Fault α} {a : α} {Q : α → NodeAllocator V → Prop}
    (h : f p.mempool = .ok a) (hQ : Q a p) :
    Ensures E (BTreeInsert.reading f) p Q := by
  refine Ensures.bind (Ensures.get ?_)
  rw [h]
  exact hQ

/-! ## The run of `splitChild` -/

variable [RuleValue V]

/-- The upper half of the child is copied to the new node. -/
private theorem getKey_upperHalf (y : Node V) {j : ℕ} (hj : j < cfg.minDegree) :
    (y.moveKeys (cfg.minDegree + 1)
      ({ (Node.make cfg : Node V) with isLeaf := y.isLeaf }.setKeyCnt cfg.minDegree) 0
        cfg.minDegree).getKey j = y.getKey (cfg.minDegree + 1 + j) := by
  rw [Node.getKey_moveKeys, if_pos (by omega), Nat.sub_zero]

theorem ensures_splitChild {E : Fault → NodeAllocator V → Prop} {p : NodeAllocator V}
    {live : Multiset ℕ} {node i y : ℕ} {cB : List ℕ} {Q : Unit → NodeAllocator V → Prop}
    (hE : ∀ p, E .badAlloc p) (ho : Owns p live) (hnode : node ∈ live) (hy : y ∈ live)
    (hny : node ≠ y) (hi : i ≤ (p.mempool.get node).keyCnt)
    (hleaf : (p.mempool.get y).isLeaf = true → cB = [])
    (hcnt : (p.mempool.get y).isLeaf = false → cB.length = cfg.minDegree + 1)
    (hlinks : ∀ j, j < cB.length →
      cB[j]? = (p.mempool.get y).childIndex.get (cfg.minDegree + 1 + j))
    (hlive : ∀ c ∈ cB, c ∈ live) (hycB : y ∉ cB) (hncB : node ∉ cB)
    (hch : ∀ j, i < j → j ≤ (p.mempool.get node).keyCnt →
      ∃ c, (p.mempool.get node).childIndex.get j = some c ∧ c ∈ live ∧ c ≠ node ∧ c ≠ y ∧
        c ∉ cB ∧ (p.mempool.get c).parent = some node)
    (hQ : ∀ p' z, z ∉ live → Owns p' (z ::ₘ live) → p'.ITEM_CNT = p.ITEM_CNT →
      Split cfg p.mempool p'.mempool node i y z cB → Q ⟨⟩ p') :
    Ensures E (BTreeInsert.splitChild cfg node i y) p Q := by
  refine Ensures.bind (ensures_get ho (hE p) fun z p₁ hz ho₁ hN₁ hm₁ => ?_)
  have hzy : y ≠ z := fun h => hz (h ▸ hy)
  have hzn : node ≠ z := fun h => hz (h ▸ hnode)
  have hzcB : z ∉ cB := fun h => hz (hlive z h)
  have hget₁ : ∀ j, j ≠ z → p₁.mempool.get j = p.mempool.get j := by
    intro j hj
    rw [hm₁, Store.get_set_of_ne _ _ hj]
  refine Ensures.bind (ensures_read ?_)
  rw [hget₁ y hzy]
  refine Ensures.bind (ensures_update ?_)
  rw [show p₁.mempool.get z = Node.make cfg by simp [hm₁]]
  set zu : Node V := (p.mempool.get y).moveKeys (cfg.minDegree + 1)
    ({ (Node.make cfg : Node V) with isLeaf := (p.mempool.get y).isLeaf }.setKeyCnt
      cfg.minDegree) 0 cfg.minDegree with hzu
  have hzuf := Node.moveKeys_sameFrame (p.mempool.get y)
    ({ (Node.make cfg : Node V) with isLeaf := (p.mempool.get y).isLeaf }.setKeyCnt cfg.minDegree)
    (cfg.minDegree + 1) 0 cfg.minDegree
  rw [← hzu] at hzuf
  -- the children of the upper half move to the new node
  have hmove : ∀ (R : Unit → NodeAllocator V → Prop),
      (∀ p₃ : NodeAllocator V, SamePool p₁ p₃ → zu.SameButChildren (p₃.mempool.get z) →
        (∀ j, j < cB.length → cB[j]? = (p₃.mempool.get z).childIndex.get j) →
        ((p.mempool.get y).isLeaf = true → ∀ j, (p₃.mempool.get z).childIndex.get j = none) →
        (∀ c ∈ cB, p₃.mempool.get c = (p.mempool.get c).setParent (some z)) →
        (∀ j, j ≠ z → j ∉ cB → p₃.mempool.get j = p.mempool.get j) → R ⟨⟩ p₃) →
      Ensures E (if (!(p.mempool.get y).isLeaf) = true then
          moveChildren y (cfg.minDegree + 1) z 0 (cfg.minDegree + 1) else Pure.pure ⟨⟩)
        { p₁ with mempool := p₁.mempool.set z zu } R := by
    intro R hR
    cases hyl : (p.mempool.get y).isLeaf with
    | true =>
        obtain rfl := hleaf hyl
        refine Ensures.pure (hR _ ⟨rfl, rfl, rfl⟩ ?_ (by simp) (fun _ j => ?_) (by simp)
          fun j hj _ => ?_)
        · simp only [Store.get_set_self]
          exact .refl _
        · simp only [Store.get_set_self, hzuf.childIndex]
          rfl
        · simp only
          rw [Store.get_set_of_ne _ _ hj, hget₁ j hj]
    | false =>
        refine ensures_moveChildren (hcnt hyl) ?_ hzy hycB hzcB ?_
        · intro j hj
          simp only
          rw [Store.get_set_of_ne _ _ hzy, hget₁ y hzy, hlinks j hj]
        · intro p₃ hp₃ hsame hl hm hoth
          simp only [Store.get_set_self] at hsame hl hm hoth
          refine hR p₃ ((samePool_write _ _).trans hp₃) hsame ?_ (fun h => by simp [hyl] at h) ?_ ?_
          · intro j hj
            rw [hl j, if_pos (by have := hcnt hyl; omega), Nat.sub_zero]
          · intro c hc
            have hcz : c ≠ z := fun h => hzcB (h ▸ hc)
            rw [hm c hc, Store.get_set_of_ne _ _ hcz, hget₁ c hcz]
          · intro j hj hjcB
            rw [hoth j hj hjcB, Store.get_set_of_ne _ _ hj, hget₁ j hj]
  refine Ensures.when (Ensures.bind (hmove _ fun p₃ hp₃ hz₃ hl₃ hleaf₃ hm₃ hoth₃ => ?_))
  refine Ensures.bind (ensures_update (Ensures.bind (ensures_read ?_)))
  simp only
  rw [Store.get_set_of_ne _ _ hny, hoth₃ node hzn hncB, hoth₃ y hzy hycB]
  have hchild : ∀ j, i < j → j ≤ i + ((p.mempool.get node).keyCnt - i) →
      ∃ c, ((p₃.mempool.set y ((p.mempool.get y).setKeyCnt cfg.minDegree)).get
        node).childIndex.get j = some c ∧ c ≠ node ∧
          ((p₃.mempool.set y ((p.mempool.get y).setKeyCnt cfg.minDegree)).get c).parent =
            some node := by
    intro j hj hjle
    obtain ⟨c, hc, hcl, hcn, hcy, hccB, hpar⟩ := hch j hj (by omega)
    have hcz : c ≠ z := fun h => hz (h ▸ hcl)
    refine ⟨c, ?_, hcn, ?_⟩
    · rw [Store.get_set_of_ne _ _ hny, hoth₃ node hzn hncB, hc]
    · rw [Store.get_set_of_ne _ _ hcy, hoth₃ c hcz hccB, hpar]
  refine Ensures.bind (ensures_shiftChildrenRight hchild fun p₅ hp₅ hn₅ hl₅ hoth₅ => ?_)
  simp only at hp₅ hn₅ hl₅ hoth₅
  rw [Store.get_set_of_ne _ _ hny, hoth₃ node hzn hncB] at hn₅ hl₅
  refine Ensures.bind (ensures_setChild hzn fun p₆ hp₆ hn₆ hz₆ hoth₆ => ?_)
  refine Ensures.bind (ensures_read (ensures_update ?_))
  have hy₆ : p₆.mempool.get y = (p.mempool.get y).setKeyCnt cfg.minDegree := by
    rw [hoth₆ y hny.symm hzy, hoth₅ y hny.symm, Store.get_set_self]
  have hz₅ : p₅.mempool.get z = p₃.mempool.get z := by
    rw [hoth₅ z hzn.symm, Store.get_set_of_ne _ _ hzy.symm]
  have hsame : SamePool p₁ p₆ :=
    hp₃.trans ((samePool_write _ _).trans (hp₅.trans hp₆))
  refine hQ _ z hz (ho₁.congr (hsame.trans (samePool_write _ _)))
    ((hsame.ITEM_CNT.trans hN₁)) ?_
  have hzfin : (p₆.mempool.set node (((p₆.mempool.get y).moveKey cfg.minDegree
      ((p₆.mempool.get node).shiftKeysRight i (p.mempool.get node).keyCnt) i).setKeyCnt
        ((p.mempool.get node).keyCnt + 1))).get z = (p₃.mempool.get z).setParent (some node) := by
    rw [Store.get_set_of_ne _ _ hzn.symm, hz₆, hz₅]
  have hnkey : ∀ j, (p₆.mempool.get node).getKey j = (p.mempool.get node).getKey j := by
    intro j
    rw [hn₆, Node.getKey_setChildIndex, hn₅.getKey]
  have hnode₆ : p₆.mempool.get node =
      { p.mempool.get node with childIndex := (p₆.mempool.get node).childIndex } := by
    have : (p₅.mempool.get node).SameButChildren (p₆.mempool.get node) := by
      rw [hn₆]
      exact Node.sameButChildren_setChildIndex _ _ _
    exact hn₅.trans this
  have hsf := Node.shiftKeysRight_sameFrame (p₆.mempool.get node) i (p.mempool.get node).keyCnt
  refine
    { lower := ?_, upper_keyCnt := ?_, upper_getKey := ?_, upper_isLeaf := ?_,
      upper_isCompressed := ?_, upper_parent := ?_, upper_child := ?_, upper_leaf := ?_,
      keyCnt := ?_, getKey := ?_, isLeaf := ?_, isCompressed := ?_, parent := ?_, child := ?_, moved := ?_,
      other := ?_ }
  · simp only
    rw [Store.get_set_of_ne _ _ hny.symm, hy₆]
  · rw [hzfin, hz₃]
    exact hzuf.keyCnt
  · intro j hj
    rw [hzfin, Node.getKey_setParent, hz₃.getKey, hzu, getKey_upperHalf _ hj]
  · rw [hzfin, hz₃]
    exact hzuf.isLeaf
  · rw [hzfin, hz₃]
    exact hzuf.isCompressed
  · rw [hzfin]
    rfl
  · intro j hj
    rw [hzfin]
    exact hl₃ j hj
  · rw [hzfin]
    exact hleaf₃
  · simp [Node.setKeyCnt]
  · intro j
    simp only [Store.get_set_self, Node.getKey_setKeyCnt, Node.moveKey, Node.getKey_setKey,
      Node.getKey_shiftKeysRight, hy₆, hnkey]
  · simp only [Store.get_set_self]
    exact hsf.isLeaf.trans (by rw [hnode₆])
  · simp only [Store.get_set_self]
    exact hsf.isCompressed.trans (by rw [hnode₆])
  · simp only [Store.get_set_self]
    exact hsf.parent.trans (by rw [hnode₆])
  · intro j
    simp only [Store.get_set_self]
    have : (((p₆.mempool.get y).moveKey cfg.minDegree
        ((p₆.mempool.get node).shiftKeysRight i (p.mempool.get node).keyCnt) i).setKeyCnt
          ((p.mempool.get node).keyCnt + 1)).childIndex = (p₆.mempool.get node).childIndex :=
      hsf.childIndex
    rw [this, hn₆]
    simp only [Node.setChildIndex, Store.get_set, hl₅]
    grind
  · intro c hc
    have hcz : c ≠ z := fun h => hzcB (h ▸ hc)
    have hcn : c ≠ node := fun h => hncB (h ▸ hc)
    have hcy : c ≠ y := fun h => hycB (h ▸ hc)
    simp only
    rw [Store.get_set_of_ne _ _ hcn, hoth₆ c hcn hcz, hoth₅ c hcn, Store.get_set_of_ne _ _ hcy,
      hm₃ c hc]
  · intro j hjn hjy hjz hjcB
    simp only
    rw [Store.get_set_of_ne _ _ hjn, hoth₆ j hjn hjz, hoth₅ j hjn, Store.get_set_of_ne _ _ hjy,
      hoth₃ j hjz hjcB]

/-- Splitting a full child keeps the keys around the child and the order of its own. -/
theorem ensures_splitChild_layer {E : Fault → NodeAllocator V → Prop} {p : NodeAllocator V}
    {h n y : ℕ} {par : Option ℕ} {ks₁ ks₂ its₁ itsY its₂ : List (KeyInfo V)} {cs₁ cs₂ : List ℕ}
    {fp₁ fpY fp₂ rest : Multiset ℕ} {Q : Unit → NodeAllocator V → Prop}
    (hE : ∀ p, E .badAlloc p) (hT : 2 ≤ cfg.T)
    (ho : Owns p (n ::ₘ (fp₁ + (fpY + fp₂)) + rest))
    (hn : (p.mempool.get n).InnerNode par (ks₁ ++ ks₂) (cs₁ ++ y :: cs₂))
    (h₁ : Before (Child cfg p.mempool h n) ks₁ cs₁ its₁ fp₁)
    (hy : Layer cfg p.mempool h (some n) y itsY fpY)
    (hfull : (p.mempool.get y).keyCnt = cfg.maxDegree)
    (h₂ : After (Child cfg p.mempool h n) ks₂ cs₂ its₂ fp₂)
    (hQ : ∀ p' z A m B fpA fpB, itsY = A ++ m :: B →
      Owns p' (n ::ₘ (fp₁ + (fpA + fpB + fp₂)) + rest) → p'.ITEM_CNT = p.ITEM_CNT →
      (p'.mempool.get n).InnerNode par (ks₁ ++ m :: ks₂) (cs₁ ++ y :: z :: cs₂) →
      Before (Child cfg p'.mempool h n) ks₁ cs₁ its₁ fp₁ →
      Layer cfg p'.mempool h (some n) y A fpA → (p'.mempool.get y).keyCnt = cfg.minDegree →
      Layer cfg p'.mempool h (some n) z B fpB → (p'.mempool.get z).keyCnt = cfg.minDegree →
      After (Child cfg p'.mempool h n) ks₂ cs₂ its₂ fp₂ →
      Agree rest p.mempool p'.mempool → Q ⟨⟩ p') :
    Ensures E (BTreeInsert.splitChild cfg n ks₁.length y) p Q := by
  have hnd := ho.nodup
  simp only [Multiset.nodup_add, Multiset.nodup_cons, Multiset.mem_add, Multiset.mem_cons,
    Multiset.disjoint_left] at hnd
  obtain ⟨⟨hn_not, -, ⟨hndY, -, hYd₂⟩, h₁d⟩, -, hrest⟩ := hnd
  have hyY := hy.root_mem
  obtain ⟨cB, kA, m, kB, hyh, hA, -, hleaf, hcnt, hlinks, hcBfp, hycB, hsplit⟩ :=
    hy.cut hfull hT hndY
  have hcs₁ := h₁.length_eq
  have hkc := hn.keyCnt
  simp only [List.length_append] at hkc
  refine ensures_splitChild hE ho (by simp) (by simp [hyY]) (fun h => hn_not (by simp [h, hyY]))
    (by omega) hleaf hcnt hlinks (fun c hc => by simp [hcBfp c hc]) hycB
    (fun h => hn_not (by simp [hcBfp n h])) ?_ ?_
  · intro j hj hjle
    obtain ⟨c, hc⟩ : ∃ c, cs₂[j - (ks₁.length + 1)]? = some c := by
      have := h₂.length_eq
      exact ⟨_, List.getElem?_eq_getElem (by omega)⟩
    have hcm : c ∈ cs₂ := List.mem_of_getElem? hc
    obtain ⟨its', fp', hle, hP⟩ := h₂.exists_of_mem hcm
    have hcfp : c ∈ fp₂ := Multiset.mem_of_le hle hP.1.root_mem
    refine ⟨c, ?_, by simp [hcfp], ?_, ?_, ?_, hP.1.parent⟩
    · have := hn.child j (by have := h₂.length_eq; simp; omega)
      rw [← this, List.getElem?_append_right (by omega), hcs₁,
        show j - ks₁.length = (j - (ks₁.length + 1)) + 1 by omega, List.getElem?_cons_succ, hc]
    · exact fun h => hn_not (.inr (.inr (h ▸ hcfp)))
    · exact fun h => hYd₂ hyY (h ▸ hcfp)
    · exact fun h => hYd₂ (hcBfp c h) hcfp
  · intro p' z hz ho' hN hs
    simp only [Multiset.mem_add, Multiset.mem_cons, not_or] at hz
    obtain ⟨⟨hzn, hz₁, hzY, hz₂⟩, hzr⟩ := hz
    obtain ⟨A, B, fpA, fpB, hits, hfp, hLA, hLB⟩ := hsplit p'.mempool n _ z hs hzY
      (fun h => hn_not (by simp [h]))
    have hagree : ∀ fp₀ : Multiset ℕ, n ∉ fp₀ → y ∉ fp₀ → z ∉ fp₀ → (∀ c ∈ cB, c ∉ fp₀) →
        Agree fp₀ p.mempool p'.mempool := by
      intro fp₀ hn₀ hy₀ hz₀ hc₀ j hj
      exact hs.other j (fun h => hn₀ (h ▸ hj)) (fun h => hy₀ (h ▸ hj)) (fun h => hz₀ (h ▸ hj))
        (fun h => hc₀ j h hj)
    refine hQ p' z A m B fpA fpB hits ?_ hN ?_ (Before.frame h₁ (hagree fp₁ ?_ ?_ hz₁ ?_)) hLA ?_
      hLB hs.upper_keyCnt (After.frame h₂ (hagree fp₂ ?_ ?_ hz₂ ?_)) (hagree rest ?_ ?_ hzr ?_)
    · have : z ::ₘ (n ::ₘ (fp₁ + (fpY + fp₂)) + rest) =
          n ::ₘ (fp₁ + (fpA + fpB + fp₂)) + rest := by
        rw [hfp]
        simp only [Multiset.cons_add, Multiset.add_cons, add_assoc]
        exact Multiset.cons_swap _ _ _
      rwa [this] at ho'
    · exact hs.innerNode hn rfl hcs₁ h₂.length_eq hyh hA
    · exact fun h => hn_not (.inl h)
    · exact fun h => h₁d h (.inl hyY)
    · exact fun c hc h => h₁d h (.inl (hcBfp c hc))
    · rw [hs.lower]
      rfl
    · exact fun h => hn_not (.inr (.inr h))
    · exact fun h => hYd₂ hyY h
    · exact fun c hc h => hYd₂ (hcBfp c hc) h
    · exact fun h => hrest (.inl rfl) h
    · exact fun h => hrest (.inr (.inr (.inl hyY))) h
    · exact fun c hc h => hrest (.inr (.inr (.inl (hcBfp c hc)))) h

end Pcv
