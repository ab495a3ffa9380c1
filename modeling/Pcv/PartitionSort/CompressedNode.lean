import Pcv.PartitionSort.NewPath

/-!
# Cutting a compressed node

`decompressNode` separates one key of a compressed node, so that another key can be
put beside it.  The keys in front of it stay in the node, those behind it move to a
new one; a piece of one key is an ordinary node again.  The trie stays the same.
-/

namespace Pcv

open DynamicMempool Navigator BTreeInsert
open Store (Agree)

variable {V : Type} {cfg : BTreeCfg} {sh : CompressedShape}

/-! ## A run of keys in one node -/

/-- The keys `xs` of consecutive levels in one node, which is compressed unless it has
one key only; `link` is the next layer of the last key. -/
structure Node.Run (cfg : BTreeCfg) (sh : CompressedShape) (nd : Node V) (lvl : ℕ)
    (xs : List (KeyInfo V)) (link : Option ℕ) : Prop where
  ne_nil : xs ≠ []
  keyCnt : nd.keyCnt = xs.length
  le_maxDegree : xs.length ≤ cfg.maxDegree
  getKey : ∀ i x, xs[i]? = some x →
    nd.getKey i = ⟨x.key, x.value, if i + 1 = xs.length then link else none⟩
  dim : 1 < xs.length → ∀ i, i < xs.length → sh.dim (lvl + i) (nd.getDim i)
  isCompressed : nd.isCompressed = decide (1 < xs.length)
  isLeaf : nd.isLeaf = true
  child : ∀ i, nd.childIndex.get i = none
  parent : nd.parent = none

theorem thread_congr (xs ys : List (KeyInfo V)) (t : Trie Range1d V)
    (hk : xs.map KeyInfo.key = ys.map KeyInfo.key)
    (hv : xs.map KeyInfo.value = ys.map KeyInfo.value) : thread xs t = thread ys t := by
  induction xs generalizing ys with
  | nil =>
      obtain rfl : ys = [] := by simpa using hk.symm
      rfl
  | cons x xs ih =>
      cases ys with
      | nil => simp at hk
      | cons y ys =>
          simp only [List.map_cons, List.cons.injEq] at hk hv
          simp [thread, hk.1, hv.1, ih ys hk.2 hv.2]

/-- A node that holds a run of keys stores them one below the other. -/
theorem Denotes.of_run {mem : Store (Node V)} {lvl n : ℕ} {xs : List (KeyInfo V)}
    {link : Option ℕ} {next : Trie Range1d V} {fp : Multiset ℕ} (hT : 2 ≤ cfg.T)
    (hleast : sh.least ≤ 2) (hlvl : lvl + xs.length ≤ cfg.D)
    (hr : (mem.get n).Run cfg sh lvl xs link)
    (hd : Denotes cfg sh mem (lvl + xs.length) (.link link) next fp) :
    Denotes cfg sh mem lvl (.link (some n)) (thread xs next) (n ::ₘ fp) := by
  rcases List.eq_nil_or_concat xs with rfl | ⟨init, x, rfl⟩
  · exact absurd rfl hr.ne_nil
  rw [List.concat_eq_append] at *
  simp only [List.length_append, List.length_singleton] at hlvl hd
  have hlast : (mem.get n).getKey init.length = ⟨x.key, x.value, link⟩ := by
    rw [hr.getKey init.length x (by simp)]
    simp
  cases init with
  | nil =>
      have := Denotes.single (by simp at hlvl; omega) hT
        (leafNode_single x.key x.value link hlast hr.keyCnt hr.isLeaf
          (by rw [hr.isCompressed]; rfl) hr.child hr.parent) hd
      simpa [thread] using this
  | cons y init =>
      have hn : (mem.get n).CompressedNode cfg sh lvl
          ((y :: init).map fun z => ⟨z.key, z.value, none⟩) ⟨x.key, x.value, link⟩ := by
        have hcnt := hr.keyCnt
        have hmax := hr.le_maxDegree
        simp only [List.length_append, List.length_cons, List.length_nil] at hcnt hmax
        refine ⟨by simpa using hcnt, by simpa using hmax, by simp; omega, ?_, by simp, ?_, ?_,
          hr.isLeaf, hr.child, hr.parent⟩
        · intro i hi
          simp only [List.length_map, List.length_cons] at hi
          rcases Nat.lt_or_ge i (init.length + 1) with hlt | hge
          · obtain ⟨z, hz⟩ : ∃ z, (y :: init)[i]? = some z :=
              ⟨_, List.getElem?_eq_getElem (by simpa using hlt)⟩
            rw [hr.getKey i z (by rw [List.getElem?_append_left (by simpa using hlt)]; exact hz),
              List.getElem?_append_left (by simpa using hlt), List.getElem?_map, hz]
            have hne : i ≠ init.length + 1 := by omega
            simp [hne]
          · obtain rfl : i = init.length + 1 := by omega
            have hk : (mem.get n).getKey (init.length + 1) = ⟨x.key, x.value, link⟩ := hlast
            rw [hk, List.getElem?_append_right (by simp)]
            simp
        · intro i hi
          exact hr.dim (by simp) i (by simpa using hi)
        · rw [hr.isCompressed]
          simp
      have := Denotes.compressed (by simp at hlvl ⊢; omega) hn
        (by simpa [Nat.add_assoc] using hd)
      rwa [thread_congr _ (y :: init ++ [x]) next (by simp [Function.comp_def])
        (by simp [Function.comp_def])] at this

/-- The keys of a compressed node are a run. -/
theorem Node.CompressedNode.run {nd : Node V} {lvl : ℕ} {init : List (KeyInfo V)}
    {last : KeyInfo V} (hn : nd.CompressedNode cfg sh lvl init last) (hinit : init ≠ []) :
    nd.Run cfg sh lvl (init ++ [last]) last.nextLevel where
  ne_nil := by simp
  keyCnt := by simpa using hn.keyCnt
  le_maxDegree := by simpa using hn.le_maxDegree
  getKey := by
    intro i x hx
    have hi : i < init.length + 1 := by
      have := (List.getElem?_eq_some_iff.mp hx).1
      simpa using this
    have := hn.getKey i hi
    rw [hx] at this
    obtain rfl := Option.some.inj this
    rcases Nat.lt_or_ge i init.length with hlt | hge
    · have hmem : nd.getKey i ∈ init := by
        rw [List.getElem?_append_left hlt] at hx
        exact List.mem_of_getElem? hx
      have hnone := hn.nextLevel _ hmem
      have hne : ¬ i + 1 = (init ++ [last]).length := by simp; omega
      rw [if_neg hne, ← hnone]
    · obtain rfl : i = init.length := by omega
      have : last = nd.getKey init.length := by simpa using hx
      rw [this]
      simp
  dim := fun _ i hi => hn.dim i (by simpa using hi)
  isCompressed := by
    have : 0 < init.length := List.length_pos_iff.mpr hinit
    rw [hn.isCompressed]
    simp
    omega
  isLeaf := hn.isLeaf
  child := hn.child
  parent := hn.parent

/-! ## Copying keys -/

theorem getKey_copyKeys (src dst : Node V) (i j cnt x : ℕ) :
    (copyKeys src i dst j cnt).getKey x =
      if j ≤ x ∧ x < j + cnt then src.getKey (i + (x - j)) else dst.getKey x := by
  induction cnt generalizing dst i j with
  | zero => rw [if_neg (by omega), copyKeys]
  | succ c ih =>
      rw [copyKeys, ih]
      by_cases hx : j + 1 ≤ x ∧ x < j + 1 + c
      · rw [if_pos hx, if_pos (by omega)]
        congr 1
        omega
      · rw [if_neg hx, Node.getKey_setDim, Node.getKey_setKey]
        by_cases hxj : x = j
        · rw [if_pos hxj, if_pos (by omega), hxj, Nat.sub_self, Nat.add_zero]
        · rw [if_neg hxj, if_neg (by omega)]

theorem getDim_copyKeys (src dst : Node V) (i j cnt x : ℕ) :
    (copyKeys src i dst j cnt).getDim x =
      if j ≤ x ∧ x < j + cnt then src.getDim (i + (x - j)) else dst.getDim x := by
  induction cnt generalizing dst i j with
  | zero => rw [if_neg (by omega), copyKeys]
  | succ c ih =>
      rw [copyKeys, ih]
      by_cases hx : j + 1 ≤ x ∧ x < j + 1 + c
      · rw [if_pos hx, if_pos (by omega)]
        congr 1
        omega
      · rw [if_neg hx, Node.getDim_setDim, Node.getDim_setKey]
        by_cases hxj : x = j
        · rw [if_pos hxj, if_pos (by omega), hxj, Nat.sub_self, Nat.add_zero]
        · rw [if_neg hxj, if_neg (by omega)]

theorem copyKeys_isLeaf (src dst : Node V) (i j cnt : ℕ) :
    (copyKeys src i dst j cnt).isLeaf = dst.isLeaf := by
  induction cnt generalizing dst i j with
  | zero => rfl
  | succ c ih => rw [copyKeys, ih]; rfl

theorem copyKeys_childIndex (src dst : Node V) (i j cnt : ℕ) :
    (copyKeys src i dst j cnt).childIndex = dst.childIndex := by
  induction cnt generalizing dst i j with
  | zero => rfl
  | succ c ih => rw [copyKeys, ih]; rfl

theorem copyKeys_parent (src dst : Node V) (i j cnt : ℕ) :
    (copyKeys src i dst j cnt).parent = dst.parent := by
  induction cnt generalizing dst i j with
  | zero => rfl
  | succ c ih => rw [copyKeys, ih]; rfl

/-- The end of a run, copied to a new node. -/
theorem Node.Run.drop [RuleValue V] {nd : Node V} {lvl : ℕ} (xs ys : List (KeyInfo V))
    {link : Option ℕ} {i : ℕ} (hr : nd.Run cfg sh lvl (xs ++ ys) link) (hi : xs.length = i)
    (hys : ys ≠ []) (b : Bool) (hb : b = decide (1 < ys.length)) :
    Node.Run cfg sh { (copyKeys nd i (Node.make cfg) 0 ys.length).setKeyCnt ys.length with
      isCompressed := b } (lvl + i) ys link where
  ne_nil := hys
  keyCnt := rfl
  le_maxDegree := by
    have := hr.le_maxDegree
    simp only [List.length_append] at this
    omega
  getKey := by
    intro j y hy
    have hj : j < ys.length := (List.getElem?_eq_some_iff.mp hy).1
    have hsrc := hr.getKey (i + j) y (by
      rw [List.getElem?_append_right (by omega), hi, Nat.add_sub_cancel_left, hy])
    have hcopy := getKey_copyKeys nd (Node.make cfg) i 0 ys.length j
    rw [if_pos (by omega), Nat.sub_zero, hsrc] at hcopy
    have hif : (if i + j + 1 = (xs ++ ys).length then link else none) =
        if j + 1 = ys.length then link else none := by
      refine if_congr ?_ rfl rfl
      simp only [List.length_append]
      omega
    rw [← hif]
    exact hcopy
  dim := by
    intro _ j hj
    have hcopy := getDim_copyKeys nd (Node.make cfg) i 0 ys.length j
    rw [if_pos (by omega), Nat.sub_zero] at hcopy
    have := hr.dim (by simp; omega) (i + j) (by simp; omega)
    rw [← hcopy, ← Nat.add_assoc] at this
    exact this
  isCompressed := hb
  isLeaf := copyKeys_isLeaf nd (Node.make cfg) i 0 ys.length
  child := by
    intro j
    have := copyKeys_childIndex nd (Node.make cfg) i 0 ys.length
    exact congrArg (Store.get · j) this
  parent := copyKeys_parent nd (Node.make cfg) i 0 ys.length

/-- The beginning of a run, with a link to another next layer. -/
theorem Node.Run.take {nd : Node V} {lvl : ℕ} (xs ys : List (KeyInfo V)) {link : Option ℕ}
    {i : ℕ} (hr : nd.Run cfg sh lvl (xs ++ ys) link) (hi : xs.length = i) (hxs : xs ≠ [])
    (l : Option ℕ) (b : Bool) (hb : b = decide (1 < i)) :
    Node.Run cfg sh { ((nd.setNextLevel (i - 1) l).setKeyCnt i) with isCompressed := b } lvl xs
      l where
  ne_nil := hxs
  keyCnt := hi.symm
  le_maxDegree := by
    have := hr.le_maxDegree
    simp only [List.length_append] at this
    omega
  getKey := by
    intro j x hx
    have hj : j < xs.length := (List.getElem?_eq_some_iff.mp hx).1
    have hsrc := hr.getKey j x (by rw [List.getElem?_append_left hj, hx])
    have hset := Node.getKey_setNextLevel nd (i - 1) j l
    have hgoal : (nd.setNextLevel (i - 1) l).getKey j =
        ⟨x.key, x.value, if j + 1 = xs.length then l else none⟩ := by
      rw [hset, hsrc]
      by_cases hlast : j + 1 = xs.length
      · rw [if_pos (by omega), if_pos hlast]
      · have hne : j + 1 ≠ xs.length + ys.length := by omega
        have hji : j ≠ i - 1 := by omega
        simp [hne, hji, hlast]
    exact hgoal
  dim := fun _ j hj => hr.dim (by simp; omega) j (by simp; omega)
  isCompressed := by rw [hb, hi]
  isLeaf := hr.isLeaf
  child := hr.child
  parent := hr.parent

/-- A run with a new value for one key. -/
theorem Node.Run.setValue {nd : Node V} {lvl : ℕ} {xs ys : List (KeyInfo V)} {x : KeyInfo V}
    {link : Option ℕ} {i : ℕ} (hr : nd.Run cfg sh lvl (xs ++ x :: ys) link) (hi : xs.length = i)
    (v : V) : (nd.setValue i v).Run cfg sh lvl (xs ++ { x with value := v } :: ys) link where
  ne_nil := by simp
  keyCnt := hr.keyCnt.trans (by simp)
  le_maxDegree := by simpa using hr.le_maxDegree
  getKey := by
    intro j y hy
    rw [Node.getKey_setValue]
    by_cases hji : j = i
    · subst hji
      obtain rfl : { x with value := v } = y := by simpa [← hi] using hy
      rw [if_pos rfl, hr.getKey j x (by simp [← hi])]
      simp
    · have hy' : (xs ++ x :: ys)[j]? = some y := by
        rw [← hy]
        rcases Nat.lt_or_ge j xs.length with hlt | hge
        · rw [List.getElem?_append_left hlt, List.getElem?_append_left hlt]
        · obtain ⟨k, hk⟩ : ∃ k, j - xs.length = k + 1 := ⟨j - xs.length - 1, by omega⟩
          rw [List.getElem?_append_right hge, List.getElem?_append_right hge, hk]
          rfl
      rw [if_neg hji, hr.getKey j y hy']
      simp
  dim := fun h j hj => hr.dim (by simpa using h) j (by simpa using hj)
  isCompressed := hr.isCompressed.trans (by simp)
  isLeaf := hr.isLeaf
  child := hr.child
  parent := hr.parent

/-- A run with another next layer. -/
theorem Node.Run.setNextLevel {nd : Node V} {lvl : ℕ} {xs : List (KeyInfo V)}
    {link : Option ℕ} {i : ℕ} (hr : nd.Run cfg sh lvl xs link) (hi : xs.length = i + 1)
    (l : Option ℕ) : (nd.setNextLevel i l).Run cfg sh lvl xs l where
  ne_nil := hr.ne_nil
  keyCnt := hr.keyCnt
  le_maxDegree := hr.le_maxDegree
  getKey := by
    intro j x hx
    rw [Node.getKey_setNextLevel, hr.getKey j x hx]
    by_cases hji : j = i
    · simp [hji, hi]
    · have hne : ¬ j + 1 = xs.length := by omega
      simp [hji, hne]
  dim := hr.dim
  isCompressed := hr.isCompressed
  isLeaf := hr.isLeaf
  child := hr.child
  parent := hr.parent

/-- A run of one key is a leaf of an ordinary layer. -/
theorem Node.Run.leafNode {nd : Node V} {lvl : ℕ} {x : KeyInfo V} {link : Option ℕ}
    (hr : nd.Run cfg sh lvl [x] link) : nd.LeafNode none [⟨x.key, x.value, link⟩] :=
  Pcv.leafNode_single x.key x.value link (hr.getKey 0 x rfl) hr.keyCnt hr.isLeaf
    (by rw [hr.isCompressed]; rfl) hr.child hr.parent

/-- A key of a run in a node of its own. -/
theorem Node.Run.single [RuleValue V] {nd : Node V} {lvl i : ℕ} {xs : List (KeyInfo V)} {x : KeyInfo V}
    {link : Option ℕ} (hr : nd.Run cfg sh lvl xs link) (hx : xs[i]? = some x)
    (hT : 2 ≤ cfg.T) (lvl' : ℕ) :
    Node.Run cfg sh (((Node.make cfg).setKey 0 (nd.getKey i)).setKeyCnt 1) lvl' [x]
      (if i + 1 = xs.length then link else none) where
  ne_nil := by simp
  keyCnt := rfl
  le_maxDegree := by
    simp only [List.length_singleton, BTreeCfg.maxDegree]
    omega
  getKey := by
    intro j y hy
    obtain rfl : j = 0 := by
      have := (List.getElem?_eq_some_iff.mp hy).1
      simpa using this
    obtain rfl : x = y := by simpa using hy
    rw [Node.getKey_setKeyCnt, Node.getKey_setKey_self, hr.getKey i x hx]
    simp
  dim := by simp
  isCompressed := rfl
  isLeaf := rfl
  child := fun _ => rfl
  parent := rfl

/-! ## The run of `decompressNode` -/

variable [RuleValue V] {E : Fault → NodeAllocator V → Prop} {p : NodeAllocator V}
variable {root lvl : ℕ} {link : Option ℕ} {rest : Multiset ℕ}

/-- Separating the first key: the others move to a new node. -/
theorem ensures_decompressNode_zero {x : KeyInfo V} {xs : List (KeyInfo V)}
    {Q : ℕ → NodeAllocator V → Prop} (hE : ∀ p, E .badAlloc p) (hxs : xs ≠ [])
    (hr : (p.mempool.get root).Run cfg sh lvl (x :: xs) link) (ho : Owns p (root ::ₘ rest))
    (hQ : ∀ p' nl, Owns p' (root ::ₘ nl ::ₘ rest) → p'.ITEM_CNT = p.ITEM_CNT →
      (p'.mempool.get root).Run cfg sh lvl [x] (some nl) →
      (p'.mempool.get nl).Run cfg sh (lvl + 1) xs link →
      Agree rest p.mempool p'.mempool → Q root p') :
    Ensures E (decompressNode cfg root 0) p Q := by
  have hlen : 0 < xs.length := List.length_pos_iff.mpr hxs
  have hcnt : (p.mempool.get root).keyCnt = xs.length + 1 := by simpa using hr.keyCnt
  refine Ensures.bind (ensures_read ?_)
  rw [if_neg (by omega), if_pos rfl, if_neg (by omega), hcnt, Nat.add_sub_cancel]
  refine Ensures.bind (ensures_get ho (hE p) fun nl p₁ hnl ho₁ hN₁ hm₁ => ?_)
  obtain ⟨hnlr, hnlrest⟩ : nl ≠ root ∧ nl ∉ rest := by simpa using hnl
  have hrootrest : root ∉ rest := (Multiset.nodup_cons.mp ho.nodup).1
  refine Ensures.bind (ensures_update (Ensures.bind (ensures_update (Ensures.bind
    (ensures_update ?_)))))
  have hroot₁ : p₁.mempool.get root = p.mempool.get root := by
    rw [hm₁, Store.get_set_of_ne _ _ hnlr.symm]
  have hnl₁ : p₁.mempool.get nl = Node.make cfg := by simp [hm₁]
  refine hQ _ nl ?_ hN₁ ?_ ?_ ?_
  · rw [Multiset.cons_swap]
    exact ho₁.congr ⟨rfl, rfl, rfl⟩
  · simp only [Store.get_set_self, Store.get_set_of_ne _ _ hnlr.symm, hroot₁]
    exact Node.Run.take [x] xs hr rfl (by simp) (some nl) false rfl
  · simp only [Store.get_set_of_ne _ _ hnlr, Store.get_set_self, hnl₁]
    exact Node.Run.drop [x] xs hr rfl hxs _ rfl
  · intro j hj
    have hjr : j ≠ root := fun h => hrootrest (h ▸ hj)
    have hjn : j ≠ nl := fun h => hnlrest (h ▸ hj)
    simp only [Store.get_set_of_ne _ _ hjr, Store.get_set_of_ne _ _ hjn, hm₁]

/-- Separating a key behind the first: it gets a node of its own, and so do the keys
behind it, if there are any. -/
theorem ensures_decompressNode {xs ys : List (KeyInfo V)} {y : KeyInfo V}
    {Q : ℕ → NodeAllocator V → Prop} (hE : ∀ p, E .badAlloc p) (hT : 2 ≤ cfg.T) (hxs : xs ≠ [])
    (hr : (p.mempool.get root).Run cfg sh lvl (xs ++ y :: ys) link) (ho : Owns p (root ::ₘ rest))
    (hQ : ∀ p' nl l fp, Owns p' (root ::ₘ nl ::ₘ (fp + rest)) → p'.ITEM_CNT = p.ITEM_CNT →
      (p'.mempool.get root).Run cfg sh lvl xs (some nl) →
      (p'.mempool.get nl).Run cfg sh (lvl + xs.length) [y] l →
      (ys = [] ∧ l = link ∧ fp = 0 ∨ ∃ nnl, l = some nnl ∧ fp = {nnl} ∧
        (p'.mempool.get nnl).Run cfg sh (lvl + xs.length + 1) ys link) →
      Agree rest p.mempool p'.mempool → Q nl p') :
    Ensures E (decompressNode cfg root xs.length) p Q := by
  have hlen : 0 < xs.length := List.length_pos_iff.mpr hxs
  have hcnt : (p.mempool.get root).keyCnt = xs.length + (ys.length + 1) := by
    simpa using hr.keyCnt
  have hrootrest : root ∉ rest := (Multiset.nodup_cons.mp ho.nodup).1
  have hy : (xs ++ y :: ys)[xs.length]? = some y := by simp
  have hkeys : xs.length + (ys.length + 1) - xs.length - 1 = ys.length := by omega
  refine Ensures.bind (ensures_read ?_)
  rw [if_neg (by omega), if_neg (by omega), hcnt, hkeys]
  by_cases hys : ys = []
  · subst hys
    simp only [List.length_nil, ne_eq, not_true_eq_false, if_false]
    refine Ensures.bind (Ensures.pure ?_)
    simp only [Option.isSome_none, Bool.false_eq_true, if_false]
    refine Ensures.bind (ensures_get ho (hE p) fun nl p₁ hnl ho₁ hN₁ hm₁ => ?_)
    obtain ⟨hnlr, hnlrest⟩ : nl ≠ root ∧ nl ∉ rest := by simpa using hnl
    refine Ensures.bind (ensures_update (Ensures.bind (ensures_update (Ensures.bind
      (ensures_update ?_)))))
    have hroot₁ : p₁.mempool.get root = p.mempool.get root := by
      rw [hm₁, Store.get_set_of_ne _ _ hnlr.symm]
    have hnl₁ : p₁.mempool.get nl = Node.make cfg := by simp [hm₁]
    refine hQ _ nl link 0 ?_ hN₁ ?_ ?_ (.inl ⟨rfl, rfl, rfl⟩) ?_
    · rw [Multiset.cons_swap, Multiset.zero_add]
      exact ho₁.congr ⟨rfl, rfl, rfl⟩
    · simp only [Store.get_set_self, Store.get_set_of_ne _ _ hnlr.symm, hroot₁]
      exact hr.take xs _ rfl hxs (some nl) _ rfl
    · simp only [Store.get_set_of_ne _ _ hnlr, Store.get_set_self, hnl₁]
      simpa using hr.single hy hT (lvl + xs.length)
    · intro j hj
      have hjr : j ≠ root := fun h => hrootrest (h ▸ hj)
      have hjn : j ≠ nl := fun h => hnlrest (h ▸ hj)
      simp only [Store.get_set_of_ne _ _ hjr, Store.get_set_of_ne _ _ hjn, hm₁]
  · have hyslen : ys.length ≠ 0 := by simpa using hys
    simp only [ne_eq, hyslen, not_false_eq_true, if_true]
    refine Ensures.bind (ensures_get ho (hE p) fun nnl p₁ hnnl ho₁ hN₁ hm₁ => ?_)
    obtain ⟨hnnlr, hnnlrest⟩ : nnl ≠ root ∧ nnl ∉ rest := by simpa using hnnl
    refine Ensures.bind (ensures_update (Ensures.bind (Ensures.pure ?_)))
    simp only [Option.isSome_some, if_true]
    refine Ensures.bind (ensures_get (ho₁.congr (samePool_write _ _)) (hE _)
      fun nl p₂ hnl ho₂ hN₂ hm₂ => ?_)
    obtain ⟨hnlnnl, hnlr, hnlrest⟩ : nl ≠ nnl ∧ nl ≠ root ∧ nl ∉ rest := by simpa using hnl
    refine Ensures.bind (ensures_update (Ensures.bind (ensures_update (Ensures.bind
      (ensures_update (Ensures.bind (ensures_update ?_)))))))
    have hroot₂ : p₂.mempool.get root = p.mempool.get root := by
      rw [hm₂, Store.get_set_of_ne _ _ hnlr.symm]
      simp only
      rw [Store.get_set_of_ne _ _ hnnlr.symm, hm₁, Store.get_set_of_ne _ _ hnnlr.symm]
    have hnl₂ : p₂.mempool.get nl = Node.make cfg := by simp [hm₂]
    have hnnl₁ : p₁.mempool.get nnl = Node.make cfg := by simp [hm₁]
    have hnnl₂ : p₂.mempool.get nnl =
        { (copyKeys (p.mempool.get root) (xs.length + 1) (Node.make cfg) 0 ys.length).setKeyCnt
            ys.length with isCompressed := decide (ys.length > 1) } := by
      rw [hm₂, Store.get_set_of_ne _ _ hnlnnl.symm]
      simp only [Store.get_set_self, hnnl₁]
    have hlast : ¬ xs.length + 1 = (xs ++ y :: ys).length := by
      simp only [List.length_append, List.length_cons]
      omega
    have hlink : ((((Node.make cfg : Node V).setKey 0
        ((p.mempool.get root).getKey xs.length)).setKeyCnt 1).setNextLevel 0 (some nnl)).Run cfg sh
          (lvl + xs.length) [y] (some nnl) := by
      have h₁ := hr.single hy hT (lvl + xs.length)
      rw [if_neg hlast] at h₁
      have h₂ := Node.Run.take [y] [] h₁ rfl (by simp) (some nnl) false rfl
      exact h₂
    refine hQ _ nl (some nnl) {nnl} ?_ (hN₂.trans hN₁) ?_ ?_ (.inr ⟨nnl, rfl, rfl, ?_⟩) ?_
    · have := ho₂
      rw [Multiset.cons_swap nnl root, Multiset.cons_swap nl root] at ho₂
      rw [Multiset.singleton_add]
      exact ho₂.congr ⟨rfl, rfl, rfl⟩
    · simp only [Store.get_set_self, Store.get_set_of_ne _ _ hnlr.symm, hroot₂]
      exact hr.take xs _ rfl hxs (some nl) _ rfl
    · simp only [Store.get_set_of_ne _ _ hnlr, Store.get_set_self, hnl₂]
      exact hlink
    · simp only [Store.get_set_of_ne _ _ hnnlr, Store.get_set_of_ne _ _ hnlnnl.symm, hnnl₂]
      have hcut := Node.Run.drop (xs ++ [y]) ys (by simpa using hr)
        (show (xs ++ [y]).length = xs.length + 1 by simp) hys (decide (ys.length > 1)) rfl
      rwa [← Nat.add_assoc] at hcut
    · intro j hj
      have hjr : j ≠ root := fun h => hrootrest (h ▸ hj)
      have hjn : j ≠ nl := fun h => hnlrest (h ▸ hj)
      have hjnn : j ≠ nnl := fun h => hnnlrest (h ▸ hj)
      simp only [Store.get_set_of_ne _ _ hjr, Store.get_set_of_ne _ _ hjn,
        Store.get_set_of_ne _ _ hjnn, hm₂, hm₁]

end Pcv
