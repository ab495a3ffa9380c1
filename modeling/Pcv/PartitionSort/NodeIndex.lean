import Pcv.PartitionSort.MempoolRun

/-!
# The links between the nodes, as they are stored

A node stores its links as indexes of the type `index_t`, and the greatest number of
this type stands for the null pointer.  The width of the type is chosen from
`MAX_NODE_CNT`, while the ids of the nodes are as large as the pool, whose size is
given when it is constructed.

In a pool that is not larger than the type allows, a link leads to the node that was
stored, so the links can be taken for the nodes themselves, as `Node` does.  In a
larger one it does not.
-/

namespace Pcv

open DynamicMempool

/-- The width of `index_t`. -/
def indexBits (MAX_NODE_CNT : ℕ) : ℕ := if MAX_NODE_CNT < 65535 then 16 else 32

/-- `index_t`. -/
abbrev Index (MAX_NODE_CNT : ℕ) : Type := BitVec (indexBits MAX_NODE_CNT)

/-- The index that marks a missing link. -/
def INVALID_INDEX (MAX_NODE_CNT : ℕ) : Index MAX_NODE_CNT := BitVec.allOnes _

/-- The links of a node. -/
structure NodeLinks (MAX_NODE_CNT : ℕ) where
  nextLevel : Store (Index MAX_NODE_CNT)
  childIndex : Store (Index MAX_NODE_CNT)
  parent : Option ℕ

namespace NodeLinks

variable {M : ℕ}

/-- The links of a new node. -/
def make (M : ℕ) : NodeLinks M where
  nextLevel := Store.fill (INVALID_INDEX M)
  childIndex := Store.fill (INVALID_INDEX M)
  parent := none

/-- The assignment `n.next_level[index] = link`. -/
def setNextLevel (n : NodeLinks M) (index : ℕ) (link : Index M) : NodeLinks M :=
  { n with nextLevel := n.nextLevel.set index link }

/-- The assignment `n.child_index[index] = link`. -/
def setChildIndex (n : NodeLinks M) (index : ℕ) (link : Index M) : NodeLinks M :=
  { n with childIndex := n.childIndex.set index link }

def setParent (n : NodeLinks M) (parent : Option ℕ) : NodeLinks M := { n with parent := parent }

@[simp] theorem childIndex_setParent (n : NodeLinks M) (parent : Option ℕ) :
    (n.setParent parent).childIndex = n.childIndex := rfl

end NodeLinks

/-- The pool of the nodes. -/
abbrev LinkPool (M : ℕ) : Type := DynamicMempool (NodeLinks M)

/-- A question to the pool, which may throw. -/
def query {α β : Type} (q : DynamicMempool α → Except Fault β) :
    EStateM Fault (DynamicMempool α) β := fun p =>
  match q p with
  | .ok b => .ok b p
  | .error e => .error e p

namespace NodeLinks

variable {M : ℕ} (a : Placement) (ndebug : Bool)

/-- The item at an address. -/
def item (addr : ℕ) : ℕ := (addr - a.base) / a.itemSize

/-- `set_child`.  The child is given by its address, or it is null. -/
def setChild (n index : ℕ) : Option ℕ → EStateM Fault (LinkPool M) Unit
  | none => update n fun nd => nd.setChildIndex index (INVALID_INDEX M)
  | some child => do
      let id ← query (getId a ndebug child)
      update n fun nd => nd.setChildIndex index (BitVec.ofNat _ id)
      update (item a child) fun nd => nd.setParent (some n)

/-- `set_next_layer`. -/
def setNextLayer (n index : ℕ) : Option ℕ → EStateM Fault (LinkPool M) Unit
  | none => update n fun nd => nd.setNextLevel index (INVALID_INDEX M)
  | some nextLayerRoot => do
      let id ← query (getId a ndebug nextLayerRoot)
      update n fun nd => nd.setNextLevel index (BitVec.ofNat _ id)

/-- The address of the node that an index leads to. -/
def follow (link : Index M) : EStateM Fault (LinkPool M) (Option ℕ) :=
  if link = INVALID_INDEX M then return none
  else some <$> query (getById a ndebug link.toNat)

/-- `child`. -/
def child (n index : ℕ) : EStateM Fault (LinkPool M) (Option ℕ) := do
  follow a ndebug ((← read n).childIndex.get index)

/-- `get_next_layer`. -/
def getNextLayer (n index : ℕ) : EStateM Fault (LinkPool M) (Option ℕ) := do
  follow a ndebug ((← read n).nextLevel.get index)

end NodeLinks

/-! ## Which nodes a link can lead to -/

namespace DynamicMempool

theorem Placement.addr_injective (a : Placement) : Function.Injective a.addr := by
  intro i j h
  rw [← a.index_addr i, h, a.index_addr]

/-- A pool of `N` items whose items are taken one after the other. -/
theorem exists_reaches_range {α : Type} {N : ℕ} (raw : α)
    (allowed : DynamicMempool α → Multiset ℕ → ℕ → Prop) (hN : 2 ≤ N) :
    ∀ k ≤ N, ∃ p, Reaches N raw allowed p (Multiset.range k) ∧
      Partitioned N p (List.range' k (N - k)) (Multiset.range k) := by
  intro k
  induction k with
  | zero => exact fun _ => ⟨make N raw, .make, partitioned_make hN⟩
  | succ k ih =>
      intro hk
      obtain ⟨p, hreach, hp⟩ := ih (by omega)
      obtain ⟨m, hm⟩ : ∃ m, N - k = m + 1 := ⟨N - k - 1, by omega⟩
      rw [hm, List.range'_succ] at hp
      obtain ⟨p', hget, hp'⟩ := hp.get raw
      have hm' : N - (k + 1) = m := by omega
      refine ⟨p', ?_, ?_⟩
      · rw [Multiset.range_succ]
        exact .get hreach hget
      · rw [Multiset.range_succ, hm']
        exact hp'

end DynamicMempool

namespace NodeLinks

variable {M N : ℕ} {a : Placement} {ndebug : Bool} {p : LinkPool M} {free : List ℕ}
variable {live : Multiset ℕ} {i n : ℕ}

theorem toNat_INVALID_INDEX (M : ℕ) : (INVALID_INDEX M).toNat = 2 ^ indexBits M - 1 :=
  BitVec.toNat_allOnes

/-- An index that is not the missing link leads to the item of that number. -/
theorem follow_of_ne {link : Index M} (hne : link ≠ INVALID_INDEX M) :
    follow a ndebug link p = match checkId p ndebug link.toNat with
      | .ok _ => .ok (some (a.addr link.toNat)) p
      | .error e => .error e p := by
  unfold follow
  rw [if_neg hne]
  simp only [Functor.map, EStateM.map, query, getById_eq]
  cases checkId p ndebug link.toNat <;> rfl

/-- The index of an item in use leads back to it unless the item is out of the range of
the indexes. -/
theorem follow_ofNat_iff (h : Partitioned N p free live) (hi : i ∈ live) :
    follow a ndebug (BitVec.ofNat (indexBits M) i) p = .ok (some (a.addr i)) p ↔
      i < (INVALID_INDEX M).toNat := by
  have hmod : (BitVec.ofNat (indexBits M) i).toNat = i % 2 ^ indexBits M := BitVec.toNat_ofNat ..
  have hpow : 0 < 2 ^ indexBits M := Nat.two_pow_pos _
  rw [toNat_INVALID_INDEX]
  constructor
  · intro hf
    by_contra hlt
    by_cases hinv : BitVec.ofNat (indexBits M) i = INVALID_INDEX M
    · -- the id of the item is the mark of a missing link
      rw [follow, if_pos hinv] at hf
      cases hf
    · -- the id is cut off, so it is the id of an earlier item
      have hback : (BitVec.ofNat (indexBits M) i).toNat = i := by
        rw [follow_of_ne hinv] at hf
        split at hf
        · injection hf with hf
          exact a.addr_injective (Option.some.inj hf)
        · cases hf
      apply hinv
      apply BitVec.eq_of_toNat_eq
      have := BitVec.isLt (BitVec.ofNat (indexBits M) i)
      rw [toNat_INVALID_INDEX]
      omega
  · intro hlt
    have hself : (BitVec.ofNat (indexBits M) i).toNat = i := by
      rw [hmod, Nat.mod_eq_of_lt (by omega)]
    have hne : BitVec.ofNat (indexBits M) i ≠ INVALID_INDEX M := by
      intro heq
      have := congrArg BitVec.toNat heq
      rw [hself, toNat_INVALID_INDEX] at this
      omega
    rw [follow_of_ne hne, hself, h.checkId_live hi]

/-! ## Storing a link and reading it back -/

theorem query_getId (h : Partitioned N p free live) (hi : i ∈ live) :
    query (getId a ndebug (a.addr i)) p = .ok i p := by
  unfold query
  rw [getId_addr, h.checkId_live hi]
  rfl

/-- A child that is stored and read back is what its index leads to. -/
theorem setChild_child (h : Partitioned N p free live) (hi : i ∈ live) (index : ℕ) :
    ∃ m, (do setChild a ndebug n index (some (a.addr i)); child a ndebug n index) p =
      follow a ndebug (BitVec.ofNat (indexBits M) i) { p with mempool := m } := by
  let m := p.mempool.set n ((p.mempool.get n).setChildIndex index (BitVec.ofNat _ i))
  let m' := m.set i ((m.get i).setParent (some n))
  have hset : setChild a ndebug n index (some (a.addr i)) p = .ok ⟨⟩ { p with mempool := m' } := by
    simp only [setChild, Bind.bind, EStateM.bind, query_getId h hi, item, Placement.index_addr]
    rfl
  have hlink : (m'.get n).childIndex.get index = BitVec.ofNat (indexBits M) i := by
    -- the parent link may be written to the node itself
    have hm : (m.get n).childIndex.get index = BitVec.ofNat (indexBits M) i := by
      simp [m, setChildIndex]
    by_cases hin : i = n
    · subst hin
      simpa [m'] using hm
    · rw [Store.get_set_of_ne _ _ (Ne.symm hin)]
      exact hm
  refine ⟨m', ?_⟩
  simp only [Bind.bind, EStateM.bind, hset]
  show follow a ndebug ((m'.get n).childIndex.get index) _ = _
  rw [hlink]

/-- A next layer that is stored and read back is what its index leads to. -/
theorem setNextLayer_getNextLayer (h : Partitioned N p free live) (hi : i ∈ live) (index : ℕ) :
    ∃ m, (do setNextLayer a ndebug n index (some (a.addr i)); getNextLayer a ndebug n index) p =
      follow a ndebug (BitVec.ofNat (indexBits M) i) { p with mempool := m } := by
  let m := p.mempool.set n ((p.mempool.get n).setNextLevel index (BitVec.ofNat _ i))
  have hset :
      setNextLayer a ndebug n index (some (a.addr i)) p = .ok ⟨⟩ { p with mempool := m } := by
    simp only [setNextLayer, Bind.bind, EStateM.bind, query_getId h hi]
    rfl
  have hlink : (m.get n).nextLevel.get index = BitVec.ofNat (indexBits M) i := by
    simp [m, setNextLevel]
  refine ⟨m, ?_⟩
  simp only [Bind.bind, EStateM.bind, hset]
  show follow a ndebug ((m.get n).nextLevel.get index) _ = _
  rw [hlink]

/-- Following an index changes nothing, so the outcome tells which node it leads to. -/
theorem exists_follow_iff (h : Partitioned N p free live) (hi : i ∈ live) :
    (∃ p', follow a ndebug (BitVec.ofNat (indexBits M) i) p = .ok (some (a.addr i)) p') ↔
      i < (INVALID_INDEX M).toNat := by
  have hiff : follow a ndebug _ p = _ ↔ _ := follow_ofNat_iff h hi
  rw [← hiff]
  constructor
  · rintro ⟨p', hp'⟩
    suffices p' = p by rwa [this] at hp'
    by_cases hinv : BitVec.ofNat (indexBits M) i = INVALID_INDEX M
    · rw [follow, if_pos hinv] at hp'
      cases hp'
    · rw [follow_of_ne hinv] at hp'
      split at hp'
      · injection hp' with _ hp'
        exact hp'.symm
      · cases hp'
  · exact fun hf => ⟨p, hf⟩

/-- The link to a node survives: stored in the node `n`, as a child and as a next layer. -/
structure Survives (p : LinkPool M) (n i : ℕ) : Prop where
  child : ∀ (a : Placement) (ndebug : Bool) (index : ℕ), ∃ p',
    (do setChild a ndebug n index (some (a.addr i)); child a ndebug n index) p =
      .ok (some (a.addr i)) p'
  nextLayer : ∀ (a : Placement) (ndebug : Bool) (index : ℕ), ∃ p',
    (do setNextLayer a ndebug n index (some (a.addr i)); getNextLayer a ndebug n index) p =
      .ok (some (a.addr i)) p'

/-- The objects of the pool play no role for which items are in use. -/
theorem partitioned_mempool (h : Partitioned N p free live) (m : Store (NodeLinks M)) :
    Partitioned N { p with mempool := m } free live :=
  ⟨h.ITEM_CNT, h.chain, h.all, h.inUse⟩

theorem survives_iff (h : Partitioned N p free live) (hi : i ∈ live) :
    Survives p n i ↔ i < (INVALID_INDEX M).toNat := by
  constructor
  · intro hs
    obtain ⟨p', hp'⟩ := hs.child ⟨0, 1, Nat.one_pos⟩ false 0
    obtain ⟨m, hm⟩ := setChild_child (n := n) h hi 0
    rw [hm] at hp'
    exact (exists_follow_iff (partitioned_mempool h m) hi).mp ⟨p', hp'⟩
  · intro hlt
    refine ⟨fun a ndebug index => ?_, fun a ndebug index => ?_⟩
    · obtain ⟨m, hm⟩ := setChild_child (n := n) h hi index
      rw [hm]
      exact (exists_follow_iff (partitioned_mempool h m) hi).mpr hlt
    · obtain ⟨m, hm⟩ := setNextLayer_getNextLayer (n := n) h hi index
      rw [hm]
      exact (exists_follow_iff (partitioned_mempool h m) hi).mpr hlt

/-- Every link between two nodes of a pool survives if and only if the pool is not larger than
the indexes allow. -/
theorem links_survive_iff (M N : ℕ) (hN : 2 ≤ N) :
    (∀ (p : LinkPool M) (live : Multiset ℕ),
        Reaches N (make M) (fun _ live i => i ∈ live) p live →
          ∀ n ∈ live, ∀ i ∈ live, Survives p n i) ↔
      N ≤ (INVALID_INDEX M).toNat := by
  constructor
  · intro hall
    by_contra hlt
    -- the items are taken until the first one out of range is among them
    obtain ⟨p, hreach, hp⟩ := exists_reaches_range (make M)
      (fun _ live i => i ∈ live) hN ((INVALID_INDEX M).toNat + 1) (by omega)
    have hlast : (INVALID_INDEX M).toNat ∈ Multiset.range ((INVALID_INDEX M).toNat + 1) := by simp
    have := (survives_iff hp hlast).mp (hall p _ hreach _ hlast _ hlast)
    omega
  · intro hle p live hreach n hn i hi
    obtain ⟨free, hp⟩ := hreach.partitioned hN fun _ _ _ hi => .inl hi
    exact (survives_iff hp hi).mpr (Nat.lt_of_lt_of_le (hp.live_lt hi) hle)

/-- The pool of the tests has more nodes than the indexes of 16 bits. -/
theorem links_survive_iff_tests :
    (∀ (p : LinkPool 1024) (live : Multiset ℕ),
        Reaches (1024 * 1024) (make 1024) (fun _ live i => i ∈ live) p live →
          ∀ n ∈ live, ∀ i ∈ live, Survives p n i) ↔
      1024 * 1024 ≤ (INVALID_INDEX 1024).toNat :=
  links_survive_iff 1024 (1024 * 1024) (by decide)

/-- In a pool of 70000 nodes with indexes of 16 bits, node 65535 is stored as a missing link,
and node 65536 as the link to node 0. -/
theorem not_links_survive :
    ∃ (p : LinkPool 1024) (live : Multiset ℕ),
      Reaches 70000 (make 1024) (fun _ live i => i ∈ live) p live ∧
        65535 ∈ live ∧ 65536 ∈ live ∧ ¬ Survives p 0 65535 ∧ ¬ Survives p 0 65536 ∧
          BitVec.ofNat (indexBits 1024) 65535 = INVALID_INDEX 1024 ∧
            (BitVec.ofNat (indexBits 1024) 65536).toNat = 0 := by
  obtain ⟨p, hreach, hp⟩ := exists_reaches_range (N := 70000) (make 1024)
    (fun _ live i => i ∈ live) (by decide) 65537 (by decide)
  have hmem : ∀ i < 65537, i ∈ Multiset.range 65537 := fun i hi => Multiset.mem_range.mpr hi
  have hmax : (INVALID_INDEX 1024).toNat = 65535 := by decide
  refine ⟨p, _, hreach, hmem _ (by decide), hmem _ (by decide), ?_, ?_, by decide, by decide⟩
  · rw [survives_iff hp (hmem _ (by decide)), hmax]
    decide
  · rw [survives_iff hp (hmem _ (by decide)), hmax]
    decide

end NodeLinks

end Pcv
