import Pcv.PartitionSort.ClassifierRuns
import Pcv.PartitionSort.TreeRuns

/-!
# The trees of the classifier side by side

The trees share one pool, and each of them has nodes of its own.  `EachTree` says so, together
with a property of every tree that depends on its own nodes only.  A piece of a call works on
one tree: what has to be shown of it is what becomes of that tree, and the others stay as they
are (`EachTree.focus` and the rules after it).
-/

namespace Pcv

namespace PartitionSortClassifer

open DynamicMempool

variable {V : Type} {cfg : ClassifierCfg}

/-- A computation over the nodes leaves the books alone. -/
theorem ensures_onPool_of {D : ℕ} {α : Type} {x : NodeM V α} {s : PartitionSortClassifer D V}
    {E : Fault → NodeAllocator V → Prop} {Q : α → NodeAllocator V → Prop}
    (hx : Ensures E x s.pool Q) : Ensures (fun _ _ => True) (onPool x) s fun a s' =>
      ∃ p, s' = { s with pool := p } ∧ Q a p := by
  cases hrun : x s.pool with
  | ok a p =>
      have h : onPool x s = .ok a { s with pool := p } := by rw [onPool, hrun]
      exact .of_ok h ⟨p, rfl, hx.ok hrun⟩
  | error e p =>
      have h : onPool x s = .error (.node e) { s with pool := p } := by rw [onPool, hrun]
      exact .of_error h trivial

/-- A property of a tree, with what the classifier knows of it, the trie it stores, and its
nodes. -/
abbrev TreeProperty (cfg : ClassifierCfg) (V : Type) :=
  NodeAllocator V → TreeInfo cfg.D V → Trie Range1d V → Multiset ℕ → Prop

/-- The property depends on the nodes of the tree only. -/
def TreeProperty.Local (P : TreeProperty cfg V) : Prop :=
  ∀ pool pool' ti trie fp, P pool ti trie fp →
    Store.Agree fp pool.mempool pool'.mempool → P pool' ti trie fp

/-- Every tree has its property, and nodes of its own; `rest` are nodes of others. -/
def EachTree (rest : Multiset ℕ) (P : ℕ → TreeProperty cfg V)
    (s : PartitionSortClassifer cfg.D V) : Prop :=
  ∃ (tries : ℕ → Trie Range1d V) (fps : ℕ → Multiset ℕ),
    (∀ t, t < cfg.MAX_TREE_CNT → P t s.pool (s.infos.get t) (tries t) (fps t)) ∧
      Owns s.pool (∑ t ∈ Finset.range cfg.MAX_TREE_CNT, fps t + rest)

/-- The books of the other trees, and those over all the trees, are the same. -/
structure SameBesides (t : ℕ) (s s' : PartitionSortClassifer cfg.D V) : Prop where
  infos : ∀ t', t' ≠ t → s'.infos.get t' = s.infos.get t'
  trees : s'.trees = s.trees
  treeCnt : s'.treeCnt = s.treeCnt

theorem SameBesides.trans {t : ℕ} {s₁ s₂ s₃ : PartitionSortClassifer cfg.D V}
    (h : SameBesides t s₁ s₂) (h' : SameBesides t s₂ s₃) : SameBesides t s₁ s₃ where
  infos := fun t' hne => (h'.infos t' hne).trans (h.infos t' hne)
  trees := h'.trees.trans h.trees
  treeCnt := h'.treeCnt.trans h.treeCnt

theorem sameBesides_set (t : ℕ) (s : PartitionSortClassifer cfg.D V) (ti : TreeInfo cfg.D V)
    (pool : NodeAllocator V) :
    SameBesides t s { s with infos := s.infos.set t ti, pool := pool } where
  infos := fun _ hne => Store.get_set_of_ne _ _ hne
  trees := rfl
  treeCnt := rfl

namespace EachTree

variable {rest : Multiset ℕ} {P Q : ℕ → TreeProperty cfg V} {s s' : PartitionSortClassifer cfg.D V}
  {t : ℕ}

/-- One tree among the others. -/
theorem tree (h : EachTree rest P s) (ht : t < cfg.MAX_TREE_CNT) :
    ∃ trie fp others, P t s.pool (s.infos.get t) trie fp ∧ Owns s.pool (fp + others) := by
  obtain ⟨tries, fps, hP, ho⟩ := h
  rw [← Finset.add_sum_erase _ _ (Finset.mem_range.mpr ht), add_assoc] at ho
  exact ⟨tries t, fps t, _, hP t ht, ho⟩

/-- A change of the books, or another property of the same trees. -/
theorem imp (h : EachTree rest P s) (hpool : s'.pool = s.pool)
    (hPQ : ∀ t trie fp others, t < cfg.MAX_TREE_CNT → P t s.pool (s.infos.get t) trie fp →
      Owns s.pool (fp + others) → Q t s.pool (s'.infos.get t) trie fp) : EachTree rest Q s' := by
  obtain ⟨tries, fps, hP, ho⟩ := h
  refine ⟨tries, fps, fun t ht => ?_, by rwa [hpool]⟩
  rw [← Finset.add_sum_erase _ _ (Finset.mem_range.mpr ht), add_assoc] at ho
  rw [hpool]
  exact hPQ t _ _ _ ht (hP t ht) ho

/-- One tree, with what may become of it. -/
theorem focus (h : EachTree rest P s) (hlocal : ∀ t, (P t).Local) (ht : t < cfg.MAX_TREE_CNT) :
    ∃ trie fp others, P t s.pool (s.infos.get t) trie fp ∧ Owns s.pool (fp + others) ∧
      ∀ s' Q, (∀ t', t' ≠ t → s'.infos.get t' = s.infos.get t') →
        (∀ t', t' ≠ t → P t' ≤ Q t') → Store.Agree others s.pool.mempool s'.pool.mempool →
          ∀ trie' fp', Q t s'.pool (s'.infos.get t) trie' fp' →
            Owns s'.pool (fp' + others) → EachTree rest Q s' := by
  obtain ⟨tries, fps, hP, ho⟩ := h
  have hmem := Finset.mem_range.mpr ht
  set others := ∑ t' ∈ (Finset.range cfg.MAX_TREE_CNT).erase t, fps t' + rest with hothers
  refine ⟨tries t, fps t, others, hP t ht, ?_, ?_⟩
  · rwa [hothers, ← add_assoc, Finset.add_sum_erase _ _ hmem]
  intro s' Q hinfos hPQ hagree trie' fp' hQ ho'
  refine ⟨Function.update tries t trie', Function.update fps t fp', fun t' ht' => ?_, ?_⟩
  · rcases eq_or_ne t' t with rfl | hne
    · rwa [Function.update_self, Function.update_self]
    rw [Function.update_of_ne hne, Function.update_of_ne hne, hinfos t' hne]
    have hle : fps t' ≤ others := by
      refine (Multiset.le_add_right _ _).trans' ?_
      exact Finset.single_le_sum (f := fps) (fun _ _ => Multiset.zero_le _)
        (Finset.mem_erase.mpr ⟨hne, Finset.mem_range.mpr ht'⟩)
    exact hPQ t' hne _ _ _ _ (hlocal t' _ _ _ _ _ (hP t' ht') (hagree.mono hle))
  · rw [← Finset.add_sum_erase _ _ hmem, Function.update_self, add_assoc]
    have hsame : ∑ t' ∈ (Finset.range cfg.MAX_TREE_CNT).erase t, Function.update fps t fp' t' =
        ∑ t' ∈ (Finset.range cfg.MAX_TREE_CNT).erase t, fps t' :=
      Finset.sum_congr rfl fun t' ht' => Function.update_of_ne (Finset.ne_of_mem_erase ht') _ _
    rwa [hsame, ← hothers]

theorem congr (h : EachTree rest P s) (hinfos : s'.infos = s.infos) (hpool : s'.pool = s.pool) :
    EachTree rest P s' := by
  obtain ⟨tries, fps, hP, ho⟩ := h
  exact ⟨tries, fps, fun t ht => by rw [hinfos, hpool]; exact hP t ht, by rwa [hpool]⟩

/-- In a new classifier no tree has a node. -/
theorem make {start : NodeAllocator V} (hP : ∀ t, P t start (TreeInfo.make cfg.D V) .nil 0)
    (ho : Owns start rest) : EachTree rest P (PartitionSortClassifer.make cfg.D start) := by
  refine ⟨fun _ => .nil, fun _ => 0, fun t _ => hP t, ?_⟩
  rwa [Finset.sum_const_zero, zero_add]

variable (hlocal : ∀ t, (P t).Local) (ht : t < cfg.MAX_TREE_CNT) (hPQ : ∀ t', t' ≠ t → P t' ≤ Q t')

include hlocal ht hPQ in
/-- A change of the books of a tree. -/
theorem ensures_updateInfo (h : EachTree rest P s) {f : TreeInfo cfg.D V → TreeInfo cfg.D V}
    (hf : ∀ trie fp, P t s.pool (s.infos.get t) trie fp → Q t s.pool (f (s.infos.get t)) trie fp) :
    Ensures (fun _ _ => True) (updateInfo t f) s fun _ s' => EachTree rest Q s' ∧
      SameBesides t s s' ∧ s'.infos.get t = f (s.infos.get t) := by
  obtain ⟨trie, fp, others, hP, ho, hback⟩ := h.focus hlocal ht
  have hinfo := Store.get_set_self s.infos t (f (s.infos.get t))
  refine .modify ⟨hback _ Q (fun t' hne => Store.get_set_of_ne _ _ hne) hPQ (.refl _ _) trie fp ?_
    ho, sameBesides_set t s _ _, hinfo⟩
  rw [hinfo]
  exact hf trie fp hP

include hlocal ht hPQ in
/-- A change of a tree and its nodes. -/
theorem ensures_onTree (h : EachTree rest P s) {x : BTree cfg.D → NodeM V (BTree cfg.D)}
    {E : Fault → NodeAllocator V → Prop} {R : BTree cfg.D → Prop}
    (hx : ∀ trie fp others, P t s.pool (s.infos.get t) trie fp → Owns s.pool (fp + others) →
      Ensures E (x (s.infos.get t).tree) s.pool fun tree pool => ∃ trie' fp',
        Q t pool { s.infos.get t with tree := tree } trie' fp' ∧ Owns pool (fp' + others) ∧
          Store.Agree others s.pool.mempool pool.mempool ∧ R tree) :
    Ensures (fun _ _ => True) (onTree cfg t x) s fun _ s' => EachTree rest Q s' ∧
      SameBesides t s s' ∧ ∃ tree, R tree ∧ s'.infos.get t = { s.infos.get t with tree := tree } := by
  obtain ⟨trie, fp, others, hP, ho, hback⟩ := h.focus hlocal ht
  refine .bind (.get (.bind ((ensures_onPool_of (hx trie fp others hP ho)).mono ?_)))
  rintro tree s₁ ⟨pool, rfl, trie', fp', hQ, ho', hagree, hR⟩
  have hinfo := Store.get_set_self s.infos t { s.infos.get t with tree := tree }
  refine .modify ⟨hback _ Q (fun t' hne => Store.get_set_of_ne _ _ hne) hPQ hagree trie' fp' ?_ ho',
    sameBesides_set t s _ pool, tree, hR, hinfo⟩
  rw [hinfo]
  exact hQ

include hlocal ht hPQ in
/-- The tree gives up its nodes. -/
theorem ensures_emptyTree (h : EachTree rest P s) {order : DimensionOrder cfg.D × ℕ}
    {sh : CompressedShape}
    (hdenotes : ∀ trie fp, P t s.pool (s.infos.get t) trie fp →
      Denotes cfg.toBTreeCfg sh s.pool.mempool 0 (.link (s.infos.get t).tree.root) trie fp)
    (hQ : ∀ trie fp pool, P t s.pool (s.infos.get t) trie fp →
      Q t pool { s.infos.get t with tree := ⟨none, order.1⟩, usedDimCnt := order.2 } .nil 0) :
    Ensures (fun _ _ => True) (emptyTree cfg t (s.infos.get t).tree.root order) s fun _ s' =>
      EachTree rest Q s' ∧ SameBesides t s s' ∧ s'.infos.get t =
        { s.infos.get t with tree := ⟨none, order.1⟩, usedDimCnt := order.2 } := by
  obtain ⟨trie, fp, others, hP, ho, hback⟩ := h.focus hlocal ht
  have hcard := ho.card_le
  rw [Multiset.card_add] at hcard
  have hdestroy := destroys (E := fun _ _ => True) (callDepth cfg.toBTreeCfg s.pool) s.pool
    (s.infos.get t).tree.root fp others (hdenotes trie fp hP).spans ho
    (by simp only [callDepth]; omega)
  refine .bind (.get (.bind ((ensures_onPool_of hdestroy).mono ?_)))
  rintro - s₁ ⟨pool, rfl, ho₁, hmem⟩
  have hagree : Store.Agree others s.pool.mempool pool.mempool := by
    rw [hmem]
    exact .refl _ _
  have hinfo := Store.get_set_self s.infos t
    { s.infos.get t with tree := ⟨none, order.1⟩, usedDimCnt := order.2 }
  refine .modify ⟨hback _ Q (fun t' hne => Store.get_set_of_ne _ _ hne) hPQ hagree .nil 0 ?_ ?_,
    sameBesides_set t s _ pool, hinfo⟩
  · rw [hinfo]
    exact hQ trie fp pool hP
  · rwa [zero_add]

end EachTree

end PartitionSortClassifer

end Pcv
