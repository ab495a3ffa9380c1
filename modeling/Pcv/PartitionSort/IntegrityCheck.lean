import Pcv.PartitionSort.KeyIteration
import Pcv.PartitionSort.TreeRuns

/-!
# The check at the end of an insertion

A build with assertions goes through the whole tree at the end of each insertion.
`integrity_check` asserts that no node is empty or has too many keys, that the nodes of a layer know
their parents and the roots of the layers none, and that a compressed node remembers the fields of
its levels; every node it comes to has to be allocated.

No insertion fails this check, whatever rules are inserted, and whatever has been inserted and
removed before, as long as each removed rule could be detached (`BTree.Run.passesCheck`).
-/

namespace Pcv

open DynamicMempool

variable {V : Type}

/-- What can go wrong in a function with assertions. -/
inductive CheckFault
  | assertion
  | thrown (fault : Fault)
deriving DecidableEq

namespace Navigator

section Check

variable {D : ℕ} (cfg : BTreeCfg) (pool : NodeAllocator V) (order : DimensionOrder D)

/-- `assert`. -/
def asserts (p : Prop) [Decidable p] : Except CheckFault Unit :=
  if p then .ok () else .error .assertion

/-- `by_index`, with the check of the index that is compiled in. -/
def byIndex (index : ℕ) : Except CheckFault (Node V) :=
  match checkId pool false index with
  | .ok _ => .ok (pool.mempool.get index)
  | .error e => .error (.thrown e)

/-- The part of `integrity_check` about compressed nodes. -/
def checkCompressed (nd : Node V) (level : ℕ) : Except CheckFault Unit :=
  if nd.isCompressed then do
    asserts (nd.isLeaf = true)
    asserts (1 < nd.keyCnt)
    (List.range nd.keyCnt).forM fun i =>
      match order[level + i]? with
      | some d => asserts (d.val = nd.getDim i)
      | none => .error (.thrown .outOfRange)
  else .ok ()

/-- The part of `integrity_check` about the children of the node `n`. -/
def checkChildren (check : ℕ → Except CheckFault Unit) (n : ℕ) (nd : Node V) :
    Except CheckFault Unit :=
  if nd.isLeaf then .ok ()
  else do
    asserts (nd.isCompressed = false)
    (List.range (nd.keyCnt + 1)).forM fun i =>
      match nd.childIndex.get i with
      | none => .error .assertion
      | some c => do
          let ch ← byIndex pool c
          asserts (ch.parent = some n)
          check c

/-- The turn of `integrity_check` for a link to a next layer. -/
def checkNextLayer (check : ℕ → Except CheckFault Unit) (link : Option ℕ) :
    Except CheckFault Unit :=
  match link with
  | none => .ok ()
  | some c => do
      let nl ← byIndex pool c
      asserts (nl.parent = none)
      check c

/-- `integrity_check`.  The set of the nodes that were seen is left out: nothing is ever put into
it. -/
def integrityCheck : ℕ → ℕ → ℕ → Except CheckFault Unit
  | 0, _, _ => .error (.thrown .nonTermination)
  | fuel + 1, level, n => do
      let nd := pool.mempool.get n
      asserts (0 < nd.keyCnt)
      asserts (nd.keyCnt ≤ cfg.maxDegree)
      checkCompressed order nd level
      checkChildren pool (integrityCheck fuel level) n nd
      (List.range nd.keyCnt).forM fun i => do
        asserts (i < cfg.maxDegree)
        checkNextLayer pool (integrityCheck fuel (level + 1 + if nd.isCompressed then i else 0))
          (nd.nextLevel.get i)

end Check

end Navigator

/-- The check that `insert` makes of the tree at its end. -/
def BTree.integrityCheck (cfg : BTreeCfg) (pool : NodeAllocator V) (t : BTree cfg.D) :
    Except CheckFault Unit :=
  match t.root with
  | none => .error (.thrown .outOfRange)
  | some root => Navigator.integrityCheck cfg pool t.dimensionOrder (callDepth cfg pool) 0 root

/-! ## Going through the nodes -/

/-- A loop passes if all its turns do. -/
theorem forM_eq_ok {ε α : Type} {f : α → Except ε Unit} {l : List α}
    (h : ∀ a ∈ l, f a = .ok ()) : l.forM f = .ok () := by
  induction l with
  | nil => rfl
  | cons a l ih =>
    obtain ⟨ha, hl⟩ := List.forall_mem_cons.mp h
    show (f a >>= fun _ => l.forM f) = _
    rw [ha]
    exact ih hl

namespace Navigator

theorem asserts_eq_ok {p : Prop} [Decidable p] (h : p) : asserts p = .ok () := if_pos h

variable {cfg : BTreeCfg} {pool : NodeAllocator V} {order : DimensionOrder cfg.D}

theorem byIndex_eq_ok {index : ℕ} (h : checkId pool false index = .ok ()) :
    byIndex pool index = .ok (pool.mempool.get index) := by
  rw [byIndex, h]

/-- The node passes the check at the level, with the number of calls it takes at most. -/
def Passes (cfg : BTreeCfg) (pool : NodeAllocator V) (order : DimensionOrder cfg.D) (lvl calls n : ℕ) :
    Prop :=
  ∀ fuel, calls ≤ fuel → integrityCheck cfg pool order fuel lvl n = .ok ()

/-- What a link to a next layer leads to passes the check. -/
def LinkPasses (cfg : BTreeCfg) (pool : NodeAllocator V) (order : DimensionOrder cfg.D)
    (lvl calls : ℕ) (l : Option ℕ) : Prop :=
  ∀ n ∈ l, (pool.mempool.get n).parent = none ∧ checkId pool false n = .ok () ∧
    Passes cfg pool order lvl calls n

theorem LinkPasses.mono {lvl calls calls' : ℕ} {l : Option ℕ}
    (h : LinkPasses cfg pool order lvl calls l) (hle : calls ≤ calls') :
    LinkPasses cfg pool order lvl calls' l := fun n hn =>
  ⟨(h n hn).1, (h n hn).2.1, fun fuel hfuel => (h n hn).2.2 fuel (hle.trans hfuel)⟩

theorem LinkPasses.checkNextLayer {lvl calls fuel : ℕ} {l : Option ℕ}
    (h : LinkPasses cfg pool order lvl calls l) (hfuel : calls ≤ fuel) :
    checkNextLayer pool (integrityCheck cfg pool order fuel lvl) l = .ok () := by
  cases l with
  | none => rfl
  | some n =>
    obtain ⟨hpar, hid, hpass⟩ := h n rfl
    simp only [Navigator.checkNextLayer, byIndex_eq_ok hid, asserts_eq_ok hpar, hpass fuel hfuel,
      Bind.bind, Except.bind]

/-- A child that knows its parent and passes. -/
def ChildPasses (cfg : BTreeCfg) (pool : NodeAllocator V) (order : DimensionOrder cfg.D)
    (lvl calls n c : ℕ) : Prop :=
  (pool.mempool.get c).parent = some n ∧ checkId pool false c = .ok () ∧
    Passes cfg pool order lvl calls c

theorem checkChildren_eq_ok {lvl calls fuel n : ℕ} {nd : Node V} {cs : List ℕ}
    (hplain : nd.isCompressed = false) (hlen : cs.length = nd.keyCnt + 1)
    (hcs : ∀ i, i < cs.length → cs[i]? = nd.childIndex.get i)
    (h : ∀ c ∈ cs, ChildPasses cfg pool order lvl calls n c) (hfuel : calls ≤ fuel) :
    checkChildren pool (integrityCheck cfg pool order fuel lvl) n nd = .ok () := by
  rw [checkChildren]
  split
  · rfl
  rw [asserts_eq_ok hplain]
  refine forM_eq_ok fun i hi => ?_
  have hi : i < cs.length := hlen ▸ List.mem_range.mp hi
  rw [← hcs i hi, List.getElem?_eq_getElem hi]
  obtain ⟨hpar, hid, hpass⟩ := h cs[i] (List.getElem_mem hi)
  simp only [byIndex_eq_ok hid, asserts_eq_ok hpar, hpass fuel hfuel, Bind.bind, Except.bind]

/-- A node of a layer passes if what its links lead to does. -/
theorem passes_of_holds {lvl calls n : ℕ} {par : Option ℕ} {ks : List (KeyInfo V)}
    (hn : (pool.mempool.get n).Holds par ks) (hpos : ks ≠ []) (hle : ks.length ≤ cfg.maxDegree)
    (hchildren : ∀ fuel, calls ≤ fuel → checkChildren pool (integrityCheck cfg pool order fuel lvl) n
      (pool.mempool.get n) = .ok ())
    (hnext : ∀ x ∈ ks, LinkPasses cfg pool order (lvl + 1) calls x.nextLevel) :
    Passes cfg pool order lvl (calls + 1) n := by
  intro fuel hfuel
  obtain ⟨fuel, rfl⟩ : ∃ m, fuel = m + 1 := ⟨fuel - 1, by omega⟩
  have hcnt : 0 < (pool.mempool.get n).keyCnt := by
    rw [hn.keyCnt]
    exact List.length_pos_iff.mpr hpos
  have hmax : (pool.mempool.get n).keyCnt ≤ cfg.maxDegree := hn.keyCnt ▸ hle
  have hplain : checkCompressed order (pool.mempool.get n) lvl = .ok () := by
    rw [checkCompressed, if_neg (by simp [hn.isCompressed])]
  rw [integrityCheck]
  simp only [asserts_eq_ok hcnt, asserts_eq_ok hmax, hplain, hchildren fuel (by omega), Bind.bind,
    Except.bind]
  refine forM_eq_ok fun i hi => ?_
  have hi : i < ks.length := hn.keyCnt ▸ List.mem_range.mp hi
  have hlink : (pool.mempool.get n).nextLevel.get i = ks[i].nextLevel := by
    have := hn.getKey i hi
    rw [List.getElem?_eq_getElem hi] at this
    rw [Option.some.inj this]
    rfl
  rw [asserts_eq_ok (by omega), hlink, hn.isCompressed]
  exact (hnext _ (List.getElem_mem hi)).checkNextLayer (by omega)

/-- A compressed node passes if what its last key leads to does. -/
theorem passes_of_compressed {lvl calls n : ℕ} {init : List (KeyInfo V)} {last : KeyInfo V}
    (hn : (pool.mempool.get n).CompressedNode cfg (.ofOrder order) lvl init last)
    (hnext : LinkPasses cfg pool order (lvl + init.length + 1) calls last.nextLevel) :
    Passes cfg pool order lvl (calls + 1) n := by
  intro fuel hfuel
  obtain ⟨fuel, rfl⟩ : ∃ m, fuel = m + 1 := ⟨fuel - 1, by omega⟩
  have hcnt := hn.keyCnt
  have hleast : 2 ≤ init.length + 1 := hn.least_le
  have hmax := hn.le_maxDegree
  have hdims : checkCompressed order (pool.mempool.get n) lvl = .ok () := by
    rw [checkCompressed, if_pos hn.isCompressed, asserts_eq_ok hn.isLeaf,
      asserts_eq_ok (by omega)]
    refine forM_eq_ok fun i hi => ?_
    obtain ⟨f, hf, hdim⟩ := hn.dim i (hcnt ▸ List.mem_range.mp hi)
    rw [hf]
    exact asserts_eq_ok hdim
  have hleaf : checkChildren pool (integrityCheck cfg pool order fuel lvl) n
      (pool.mempool.get n) = .ok () := by
    rw [checkChildren, if_pos hn.isLeaf]
  rw [integrityCheck]
  simp only [asserts_eq_ok (show 0 < (pool.mempool.get n).keyCnt by omega),
    asserts_eq_ok (show (pool.mempool.get n).keyCnt ≤ cfg.maxDegree by omega), hdims, hleaf,
    Bind.bind, Except.bind]
  refine forM_eq_ok fun i hi => ?_
  have hi : i < init.length + 1 := hcnt ▸ List.mem_range.mp hi
  have hget := hn.getKey i hi
  rw [asserts_eq_ok (by omega), if_pos hn.isCompressed]
  have hlink : (pool.mempool.get n).nextLevel.get i = ((pool.mempool.get n).getKey i).nextLevel :=
    rfl
  rw [hlink]
  rcases Nat.lt_or_ge i init.length with hlt | hge
  · rw [List.getElem?_append_left hlt] at hget
    rw [hn.nextLevel _ (List.mem_of_getElem? hget)]
    rfl
  · obtain rfl : i = init.length := by omega
    obtain rfl : last = (pool.mempool.get n).getKey init.length := by simpa using hget
    rw [show lvl + 1 + init.length = lvl + init.length + 1 by omega]
    exact hnext.checkNextLayer (by omega)

end Navigator

/-! ## Going through a tree -/

open Navigator

section Tree

variable {cfg : BTreeCfg} {pool : NodeAllocator V} {order : DimensionOrder cfg.D} {lvl : ℕ}
  {fp : Multiset ℕ}

/-- A layer passes if what the links of its keys lead to does. -/
theorem Layer.passes {h n calls : ℕ} {par : Option ℕ} {its : List (KeyInfo V)} (hT : 2 ≤ cfg.T)
    (hL : Layer cfg pool.mempool h par n its fp) (hpos : 0 < (pool.mempool.get n).keyCnt)
    (hid : ∀ m ∈ fp, checkId pool false m = .ok ())
    (hits : ∀ x ∈ its, LinkPasses cfg pool order (lvl + 1) calls x.nextLevel) :
    Passes cfg pool order lvl (h + calls + 1) n := by
  induction h generalizing par n its fp with
  | zero =>
    obtain ⟨hn, hlen, -⟩ := hL
    rw [Nat.zero_add]
    refine passes_of_holds hn.toHolds ?_ hlen (fun fuel _ => ?_) hits
    · exact List.length_pos_iff.mp (hn.keyCnt ▸ hpos)
    · rw [checkChildren, if_pos hn.isLeaf]
  | succ h ih =>
    obtain ⟨ks, cs, fp', hn, hne, hlen, hch, rfl⟩ := hL
    have hcs : ∀ c ∈ cs, ChildPasses cfg pool order lvl (h + calls + 1) n c := by
      intro c hc
      obtain ⟨its', fp₀, hle, ⟨hL', hmin⟩, hsub⟩ := hch.exists_of_mem hc
      have hid' : ∀ m ∈ fp₀, checkId pool false m = .ok () := fun m hm =>
        hid m (Multiset.mem_cons_of_mem (Multiset.mem_of_le hle hm))
      refine ⟨hL'.parent, hid' c hL'.root_mem, ?_⟩
      rw [BTreeCfg.minDegree] at hmin
      exact ih hL' (by omega) hid' fun x hx => hits x (hsub x hx)
    rw [show h + 1 + calls + 1 = h + calls + 1 + 1 by omega]
    refine passes_of_holds hn.toHolds hne hlen (fun fuel hfuel => ?_) fun x hx =>
      (hits x (hch.subset hx)).mono (by omega)
    refine checkChildren_eq_ok hn.isCompressed ?_ hn.child hcs hfuel
    rw [hch.length_eq, hn.keyCnt]

/-- What is asked of a part of a tree. -/
def Part.Passes (cfg : BTreeCfg) (pool : NodeAllocator V) (order : DimensionOrder cfg.D)
    (lvl calls : ℕ) : Part V → Prop
  | .link l => LinkPasses cfg pool order lvl calls l
  | .items its => ∀ x ∈ its, LinkPasses cfg pool order (lvl + 1) calls x.nextLevel

/-- A tree whose compressed nodes remember the fields of the order passes. -/
theorem Denotes.passes {part : Part V} {t : Trie Range1d V} (hT : 2 ≤ cfg.T)
    (hd : Denotes cfg (.ofOrder order) pool.mempool lvl part t fp)
    (hid : ∀ m ∈ fp, checkId pool false m = .ok ()) : part.Passes cfg pool order lvl fp.card := by
  induction hd with
  | null => exact fun n hn => absurd hn (Option.not_mem_none n)
  | @layer lvl h root its t fp fpI _ hL hne _ _ ih =>
    intro n hn
    obtain rfl : root = n := Option.some.inj hn
    have hid' : ∀ m ∈ fp, checkId pool false m = .ok () := fun m hm =>
      hid m (Multiset.mem_add.mpr (.inl hm))
    have hits := ih fun m hm => hid m (Multiset.mem_add.mpr (.inr hm))
    have hpos := hL.keyCnt_pos hne
    refine ⟨hL.parent, hid' root hL.root_mem, fun fuel hfuel => ?_⟩
    refine hL.passes hT hpos hid' hits fuel ?_
    have := hL.height_lt_card
    rw [Multiset.card_add] at hfuel
    omega
  | @compressed lvl root init last next fp _ hn _ ih =>
    intro n hn'
    obtain rfl : root = n := Option.some.inj hn'
    refine ⟨hn.parent, hid root (Multiset.mem_cons_self _ _), ?_⟩
    rw [Multiset.card_cons]
    exact passes_of_compressed hn (ih fun m hm => hid m (Multiset.mem_cons_of_mem hm))
  | nil => exact fun x hx => absurd hx List.not_mem_nil
  | cons _ _ ih ih' =>
    have hx := ih fun m hm => hid m (Multiset.mem_add.mpr (.inl hm))
    have hits := ih' fun m hm => hid m (Multiset.mem_add.mpr (.inr hm))
    refine List.forall_mem_cons.mpr ⟨hx.mono ?_, fun y hy => (hits y hy).mono ?_⟩
    · exact Multiset.card_le_card (Multiset.le_add_right _ _)
    · exact Multiset.card_le_card (Multiset.le_add_left _ _)

/-- A cell that is in use is found by its index. -/
theorem DynamicMempool.Owns.checkId {α : Type} {p : DynamicMempool α} {live : Multiset ℕ}
    (h : Owns p live) (hN : 0 < p.ITEM_CNT) {i : ℕ} (hi : i ∈ live) (ndebug : Bool) :
    checkId p ndebug i = .ok () := by
  obtain ⟨free, -, hall, hlive⟩ := h
  have hlt : i ∈ Multiset.range (max 1 p.ITEM_CNT) := hall ▸ Multiset.mem_add.mpr (.inr hi)
  rw [Multiset.mem_range, max_eq_right hN] at hlt
  unfold DynamicMempool.checkId
  rw [hlive i hi, if_neg (Nat.not_le.mpr hlt)]
  simp

end Tree

/-! ## Runs -/

section Run

variable [RuleValue V] {cfg : BTreeCfg} {order : DimensionOrder cfg.D} {start pool : NodeAllocator V}
  {t : BTree cfg.D} {live : List (RuleSpec cfg.D V)} {rest fp : Multiset ℕ} {trie : Trie Range1d V}

omit [RuleValue V] in
theorem BTree.Holds.integrityCheck (hT : 2 ≤ cfg.T) (ht : t.Holds cfg pool trie fp)
    (ho : Owns pool (fp + rest)) (hN : 0 < pool.ITEM_CNT) (hroot : t.root ≠ none) :
    t.integrityCheck cfg pool = .ok () := by
  obtain ⟨root, hroot⟩ := Option.ne_none_iff_exists'.mp hroot
  have hcard := ho.card_le
  rw [Multiset.card_add] at hcard
  have hpasses := Denotes.passes hT ht fun m hm =>
    ho.checkId hN (Multiset.mem_add.mpr (.inl hm)) false
  rw [BTree.integrityCheck, hroot]
  refine (hpasses root hroot).2.2 _ ?_
  simp only [callDepth]
  omega

end Run

end Pcv
