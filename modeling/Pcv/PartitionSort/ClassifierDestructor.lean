import Pcv.PartitionSort.PriorityRuns

/-!
# The nodes of a classifier

The trees of a classifier share a pool with one another, and with others.  `AccountsForNodes` says
which of the allocated nodes are whose: every tree has the nodes it reaches, each of them by one
link, no node belongs to two trees, and no further node is allocated but those of others.

A run of insertions and removals keeps to it, whatever is rebuilt on the way, if every removed rule
can be detached from its tree.  Then the destructor of the classifier gives all its nodes back, and
the assertion in the destructor of the pool is met if nobody else has a node.
-/

namespace Pcv

namespace DynamicMempool

variable {α : Type}

/-- `~DynamicMempool`, up to the outcome of its assertion: are all the items back? -/
def allReturned (p : DynamicMempool α) : Except Fault Bool :=
  match p.firstFree with
  | none => .ok false
  | some i => do
      let cnt ← countFree p.nextFree p.ITEM_CNT (some i) 0
      return decide (cnt = p.ITEM_CNT)

/-- In a pool of which no cell is in use. -/
theorem Owns.allReturned {p : DynamicMempool α} (h : Owns p 0) (hN : 0 < p.ITEM_CNT) :
    p.allReturned = .ok true := by
  obtain ⟨free, hc, hall, -⟩ := h
  have hlen : free.length = p.ITEM_CNT := by
    have := congrArg Multiset.card hall
    simp only [add_zero, Multiset.coe_card, Multiset.card_range] at this
    omega
  unfold DynamicMempool.allReturned
  cases hf : p.firstFree with
  | none =>
      rw [hf] at hc
      cases hc
      simp only [List.length_nil] at hlen
      omega
  | some i =>
      rw [hf] at hc
      simp only [countFree_of_chain hc, hlen, Nat.zero_add, if_pos le_rfl]
      simp [Bind.bind, Except.bind, Pure.pure, Except.pure]

end DynamicMempool

namespace PartitionSortClassifer

open DynamicMempool

variable {V : Type} {cfg : ClassifierCfg}

/-! ## The destructor -/

/-- `delete ti`: with the `tree_info` its tree is deleted (`~_BTree`). -/
def deleteTree (cfg : ClassifierCfg) (t : ℕ) : M cfg.D V Unit := do
  let s ← get
  onPool (BTree.destroyNode (callDepth cfg.toBTreeCfg s.pool) (s.infos.get t).tree.root)
  updateInfo t fun ti => { ti with tree := { ti.tree with root := none } }

/-- The loop of `~PartitionSortClassifer` over the pointers from `i` on, `cnt` of them. -/
def deleteTrees (cfg : ClassifierCfg) : ℕ → ℕ → M cfg.D V Unit
  | 0, _ => pure ()
  | cnt + 1, i => do
      deleteTree cfg ((← get).trees.get i)
      deleteTrees cfg cnt (i + 1)

/-- `~PartitionSortClassifer`. -/
def destruct (cfg : ClassifierCfg) : M cfg.D V Unit := deleteTrees cfg cfg.MAX_TREE_CNT 0

/-- A computation over the nodes that cannot fail. -/
theorem ensures_onPool_of_ok {D : ℕ} {α : Type} {x : NodeM V α} {s : PartitionSortClassifer D V}
    {E : ClassifierFault → PartitionSortClassifer D V → Prop} {Q : α → NodeAllocator V → Prop}
    (hx : Ensures (fun _ _ => False) x s.pool Q) : Ensures E (onPool x) s fun a s' =>
      ∃ p, s' = { s with pool := p } ∧ Q a p := by
  cases hrun : x s.pool with
  | ok a p =>
      have h : onPool x s = .ok a { s with pool := p } := by rw [onPool, hrun]
      exact .of_ok h ⟨p, rfl, hx.ok hrun⟩
  | error e p => exact (hx.error hrun).elim

variable {rest : Multiset ℕ} {s : PartitionSortClassifer cfg.D V}

/-- Every tree stores something in nodes of its own. -/
abbrev Stored (cfg : ClassifierCfg) (rest : Multiset ℕ) (s : PartitionSortClassifer cfg.D V) : Prop :=
  EachTree rest (fun _ pool ti trie fp =>
    Denotes cfg.toBTreeCfg (.anyField cfg.D) pool.mempool 0 (.link ti.tree.root) trie fp) s

theorem stored_local (cfg : ClassifierCfg) :
    TreeProperty.Local fun pool (ti : TreeInfo cfg.D V) trie fp =>
      Denotes cfg.toBTreeCfg (.anyField cfg.D) pool.mempool 0 (.link ti.tree.root) trie fp :=
  fun _ _ _ _ _ h hagree => h.frame hagree

/-- A tree gives all its nodes back; the others stay as they are. -/
theorem Stored.ensures_deleteTree {E : ClassifierFault → PartitionSortClassifer cfg.D V → Prop}
    (h : Stored cfg rest s) {t : ℕ} (ht : t < cfg.MAX_TREE_CNT) :
    Ensures E (deleteTree cfg t) s fun _ s' => Stored cfg rest s' ∧ s'.trees = s.trees ∧
      (s'.infos.get t).tree.root = none ∧ ∀ t', t' ≠ t → s'.infos.get t' = s.infos.get t' := by
  obtain ⟨trie, fp, others, hd, ho, hback⟩ := h.focus (fun _ => stored_local cfg) ht
  have hcard := ho.card_le
  rw [Multiset.card_add] at hcard
  have hdestroy := destroys (E := fun _ _ => False) (callDepth cfg.toBTreeCfg s.pool) s.pool
    (s.infos.get t).tree.root fp others hd.spans ho (by simp only [callDepth]; omega)
  refine .bind (.get (.bind ((ensures_onPool_of_ok hdestroy).mono ?_)))
  rintro - s₁ ⟨pool, rfl, ho₁, hmem⟩
  have hself := Store.get_set_self s.infos t { s.infos.get t with
    tree := { (s.infos.get t).tree with root := none } }
  have hother : ∀ t', t' ≠ t → (s.infos.set t { s.infos.get t with
      tree := { (s.infos.get t).tree with root := none } }).get t' = s.infos.get t' :=
    fun t' hne => Store.get_set_of_ne _ _ hne
  have hagree : Store.Agree others s.pool.mempool pool.mempool := by
    rw [hmem]
    exact .refl _ _
  refine .modify ⟨hback _ _ hother (fun _ _ => le_rfl) hagree .nil 0 ?_ (by rwa [zero_add]), rfl, ?_,
    hother⟩
  · rw [hself]
    exact .null
  · rw [hself]

/-- The loop deletes the trees that its pointers lead to. -/
theorem Stored.ensures_deleteTrees {E : ClassifierFault → PartitionSortClassifer cfg.D V → Prop}
    (hlt : ∀ i, i < cfg.MAX_TREE_CNT → s.trees.get i < cfg.MAX_TREE_CNT) {cnt i : ℕ}
    (hi : i + cnt = cfg.MAX_TREE_CNT) (h : Stored cfg rest s)
    (hdone : ∀ j, j < i → (s.infos.get (s.trees.get j)).tree.root = none) :
    Ensures E (deleteTrees cfg cnt i) s fun _ s' => Stored cfg rest s' ∧ s'.trees = s.trees ∧
      ∀ j, j < cfg.MAX_TREE_CNT → (s'.infos.get (s'.trees.get j)).tree.root = none := by
  induction cnt generalizing i s with
  | zero => exact .pure ⟨h, rfl, fun j hj => hdone j (by omega)⟩
  | succ cnt ih =>
    refine .bind (.get (.bind ((h.ensures_deleteTree (hlt i (by omega))).mono ?_)))
    rintro - s₁ ⟨h₁, htrees, hroot, hother⟩
    refine (ih (htrees ▸ hlt) (by omega) h₁ fun j hj => ?_).mono
      fun _ s' h' => ⟨h'.1, h'.2.1.trans htrees, h'.2.2⟩
    rw [htrees]
    by_cases heq : s.trees.get j = s.trees.get i
    · rw [heq, hroot]
    · rw [hother _ heq]
      refine hdone j (lt_of_le_of_ne (by omega) fun hji => heq ?_)
      rw [hji]

/-- After the destructor the nodes of others are the only ones in use. -/
theorem ensures_destruct [DecidableEq V] {E : ClassifierFault → PartitionSortClassifer cfg.D V → Prop}
    (hs : Tidy cfg s) (h : Stored cfg rest s) :
    Ensures E (destruct cfg) s fun _ s' => Owns s'.pool rest := by
  refine (h.ensures_deleteTrees hs.trees_lt (Nat.zero_add _) fun j hj => absurd hj j.not_lt_zero).mono
    ?_
  rintro - s' ⟨⟨tries, fps, hd, ho⟩, htrees, hroots⟩
  have hzero : ∀ t ∈ Finset.range cfg.MAX_TREE_CNT, fps t = 0 := by
    intro t ht
    obtain ⟨i, hi, rfl⟩ := hs.exists_index (Finset.mem_range.mp ht)
    have hdenotes := hd _ (Finset.mem_range.mp ht)
    rw [← htrees, hroots i hi] at hdenotes
    rw [← htrees]
    exact hdenotes.of_null.2
  rwa [Finset.sum_eq_zero hzero, zero_add] at ho

/-! ## Runs -/

section Runs

variable [DecidableEq V] [RuleValue V]

/-- A rule that is removed can be detached from its tree. -/
def Operation.Detaches (cfg : ClassifierCfg) :
    Operation cfg.D V → PartitionSortClassifer cfg.D V → Prop
  | .insert _, _ => True
  | .remove rule, s => ∀ t, UnorderedMap.find s.ruleToTree rule = some t →
      (s.infos.get t).tree.Detaches cfg.toBTreeCfg s.pool rule

/-- Besides the nodes `rest` of others, the nodes in use are those of the trees: the tree `t` has
the nodes `fps t`, which are the ones it reaches, each of them by one link. -/
structure AccountsForNodes (cfg : ClassifierCfg) (rest : Multiset ℕ)
    (s : PartitionSortClassifer cfg.D V) (fps : ℕ → Multiset ℕ) : Prop where
  owns : Owns s.pool (∑ t ∈ Finset.range cfg.MAX_TREE_CNT, fps t + rest)
  accounts : ∀ t, t < cfg.MAX_TREE_CNT → (s.infos.get t).tree.Accounts s.pool (fps t)
    (∑ t' ∈ (Finset.range cfg.MAX_TREE_CNT).erase t, fps t' + rest)

variable {std : IntervalSort}

omit [DecidableEq V] in
theorem Copied.stored {e : ℕ → Option (RuleSpec cfg.D V)} (h : Copied cfg rest e s) :
    Stored cfg rest s :=
  EachTree.imp h rfl fun _ _ _ _ _ h _ => h.denotes

omit [DecidableEq V] [RuleValue V] in
theorem Stored.accountsForNodes (h : Stored cfg rest s) : ∃ fps, AccountsForNodes cfg rest s fps := by
  obtain ⟨tries, fps, hd, ho⟩ := h
  refine ⟨fps, ho, fun t ht => ⟨?_, fun n => ?_, (hd t ht).spans.eq_targets.symm⟩⟩
  · rwa [← add_assoc, Finset.add_sum_erase _ _ (Finset.mem_range.mpr ht)]
  · rw [(hd t ht).spans.mem_iff n]
    simp [Part.links, BTree.Reaches]

theorem Performed.copied (hT : 2 ≤ cfg.T) (hD : 0 < cfg.D) {start : NodeAllocator V}
    (ho : Owns start rest) (h : Performed std cfg (Operation.Detaches cfg) start s) :
    Tidy cfg s ∧ Copied cfg rest (fun _ => none) s := by
  induction h with
  | make => exact ⟨tidy_make start, (managed_make ho).copied⟩
  | @returned s s' fuel op _ hop hrun ih =>
    obtain ⟨hs, h⟩ := ih
    refine ⟨((Operation.ensures_run op fuel hs).ok hrun).tidy, ?_⟩
    cases op with
    | insert rule =>
      rw [Operation.run, ← run_insert] at hrun
      exact (ensures_run_copied hT hD ((Call.entered_insert rule s).pre_books hs) ⟨h, trivial⟩
        fuel).ok hrun
    | remove rule =>
      rw [Operation.run, removeRule_eq] at hrun
      obtain ⟨a, s₁, hun, hrun⟩ := exists_of_bind_eq_ok hrun
      obtain ⟨⟨hf₁, hin₁⟩, h₁⟩ :=
        ((ensures_unregister hs rule).and (h.ensures_unregister hT hs hop)).ok hun
      cases a with
      | none =>
        cases hrun
        exact h₁
      | some t =>
        exact (ensures_run_copied hT hD ((Call.entered_update (hin₁ t rfl)).pre_books hf₁.tidy)
          ⟨h₁, trivial⟩ fuel).ok hrun

/-- In every state of a run whose removals are detached, the classifier accounts for its nodes; and
its destructor gives all of them back, none of them twice, so that the assertion in the destructor
of the pool is met if nobody else has a node. -/
theorem accountsForNodes_of_performed (hT : 2 ≤ cfg.T) (hD : 0 < cfg.D) {start : NodeAllocator V}
    (ho : Owns start rest) (h : Performed std cfg (Operation.Detaches cfg) start s) :
    (∃ fps, AccountsForNodes cfg rest s fps) ∧
      Ensures (fun _ _ => False) (destruct cfg) s fun _ s' => Owns s'.pool rest ∧
        (rest = 0 → 0 < s'.pool.ITEM_CNT → s'.pool.allReturned = .ok true) := by
  obtain ⟨hs, hcopied⟩ := h.copied hT hD ho
  refine ⟨hcopied.stored.accountsForNodes, (ensures_destruct hs hcopied.stored).mono ?_⟩
  rintro - s' ho'
  refine ⟨ho', fun hrest hN => ?_⟩
  subst hrest
  exact ho'.allReturned hN

/-! ## A short run -/

/-- Two fields of one byte, three trees. -/
private abbrev smallCfg : ClassifierCfg := ⟨⟨1, 2, 2, true⟩, 3, 10⟩

private abbrev smallPool : NodeAllocator RuleValueInt :=
  DynamicMempool.make 64 (Node.make smallCfg.toBTreeCfg)

/-- A removed rule can be detached from its tree, as far as the root of the tree tells. -/
private def detaches : Operation 2 RuleValueInt → PartitionSortClassifer 2 RuleValueInt → Bool
  | .insert _, _ => true
  | .remove rule, s =>
      match UnorderedMap.find s.ruleToTree rule with
      | some t =>
          decide (∀ n ∈ (s.infos.get t).tree.root,
            (s.pool.mempool.get n).isLeaf = true ∧ (s.pool.mempool.get n).keyCnt ≤ 1) &&
          decide ((s.infos.get t).tree.Detachable smallCfg.toBTreeCfg s.pool rule)
      | none => true

private theorem detaches_of_check {op : Operation 2 RuleValueInt}
    {s : PartitionSortClassifer 2 RuleValueInt} (h : detaches op s = true) :
    Operation.Detaches smallCfg op s := by
  cases op with
  | insert rule => trivial
  | remove rule =>
    intro t ht
    rw [detaches, ht] at h
    obtain ⟨hone, hdetachable⟩ := (Bool.and_eq_true _ _).mp h
    exact ⟨of_decide_eq_true hdetachable,
      fun _ _ hd => hd.keys_pairwise_of_oneKey (of_decide_eq_true hone) _⟩

/-- The calls, as long as they return and removed rules can be detached. -/
private def performDetached : List (Operation 2 RuleValueInt) →
    PartitionSortClassifer 2 RuleValueInt → Option (PartitionSortClassifer 2 RuleValueInt)
  | [], s => some s
  | op :: ops, s =>
      if detaches op s then
        match op.run .insertion smallCfg 30 s with
        | .ok () s' => performDetached ops s'
        | .error _ _ => none
      else none

private theorem Performed.of_performDetached {ops : List (Operation 2 RuleValueInt)}
    {s s' : PartitionSortClassifer 2 RuleValueInt}
    (h : Performed .insertion smallCfg (Operation.Detaches smallCfg) smallPool s)
    (hs : performDetached ops s = some s') :
    Performed .insertion smallCfg (Operation.Detaches smallCfg) smallPool s' := by
  induction ops generalizing s with
  | nil =>
    cases hs
    exact h
  | cons op ops ih =>
    rw [performDetached] at hs
    split at hs
    next hc =>
      split at hs
      next s₁ hrun => exact ih (h.returned (detaches_of_check hc) hrun) hs
      next => cases hs
    next => cases hs

/-- Two trees, one of which has lost its only rule. -/
theorem accountsForNodes_of_performed_removed :
    ∃ s : PartitionSortClassifer 2 RuleValueInt, s.treeCnt = 2 ∧ s.pool.size = .ok 1 ∧
      (∃ fps, AccountsForNodes smallCfg 0 s fps) ∧
        Ensures (fun _ _ => False) (destruct smallCfg) s fun _ s' => Owns s'.pool 0 ∧
          ((0 : Multiset ℕ) = 0 → 0 < s'.pool.ITEM_CNT → s'.pool.allReturned = .ok true) := by
  have h : (performDetached [.insert (RuleSpec.box ⟨5, 5⟩ ⟨0, 255⟩ 4 1),
      .insert (RuleSpec.box ⟨0, 9⟩ ⟨0, 255⟩ 7 2), .remove (RuleSpec.box ⟨5, 5⟩ ⟨0, 255⟩ 4 1)]
        (make 2 smallPool)).any (fun s => decide (s.treeCnt = 2 ∧ s.pool.size = .ok 1)) = true := by
    decide +kernel
  obtain ⟨s, hs, htest⟩ := (Option.any_eq_true _ _).mp h
  obtain ⟨hcnt, hsize⟩ := of_decide_eq_true htest
  exact ⟨s, hcnt, hsize, accountsForNodes_of_performed (by decide) (by decide) (owns_make 64 _)
    (Performed.of_performDetached .make hs)⟩

end Runs

end PartitionSortClassifer

end Pcv
