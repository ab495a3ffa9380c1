import Pcv.Library.TrieCount
import Pcv.PartitionSort.IntegrityCheck
import Pcv.PartitionSort.TreeRemovals

/-!
# The size of a tree

`size` goes through the nodes of a tree and adds up their keys.  That is not the number of the rules:
rules share keys as far as their ranges are the same, and a rule has as many keys as it needs levels.

So after insertions and removals the size is the number of the different beginnings that the ranges
of the live rules have (`BTree.Run.size_eq_keyPaths`).  If every rule needs one level only, it is the
number of the rules.
-/

namespace Pcv

open DynamicMempool

variable {V : Type}

namespace Navigator

section Size

variable (pool : NodeAllocator V) (ndebug : Bool)

/-- The turn of the loops of `size` for a link. -/
def addSize (size : ℕ → Except Fault ℕ) (s : ℕ) (link : Option ℕ) : Except Fault ℕ :=
  match link with
  | none => .ok s
  | some c => do
      checkId pool ndebug c
      return s + (← size c)

/-- The loop of `size` over the first `cnt` of some links. -/
def addSizes (size : ℕ → Except Fault ℕ) (link : Store (Option ℕ)) (cnt s : ℕ) : Except Fault ℕ :=
  (List.range cnt).foldlM (fun s i => addSize pool ndebug size s (link.get i)) s

/-- `size`: the number of the keys in a node and in all that its links lead to. -/
def size : ℕ → ℕ → Except Fault ℕ
  | 0, _ => .error .nonTermination
  | fuel + 1, n => do
      let nd := pool.mempool.get n
      let s ← addSizes pool ndebug (size fuel) nd.childIndex (nd.keyCnt + 1) nd.keyCnt
      addSizes pool ndebug (size fuel) nd.nextLevel nd.keyCnt s

end Size

end Navigator

/-- `BTreeImp::size`. -/
def BTree.size (cfg : BTreeCfg) (pool : NodeAllocator V) (ndebug : Bool) (t : BTree cfg.D) :
    Except Fault ℕ :=
  match t.root with
  | none => .ok 0
  | some root => Navigator.size pool ndebug (callDepth cfg pool) root

/-- A loop over the indices of a list is one over the list. -/
theorem foldlM_range {ε α β : Type} (l : List α) (f : β → α → Except ε β) (g : β → ℕ → Except ε β)
    (h : ∀ i x, l[i]? = some x → ∀ b, g b i = f b x) (b : β) :
    (List.range l.length).foldlM g b = l.foldlM f b := by
  induction l using List.reverseRecOn generalizing b with
  | nil => rfl
  | append_singleton l x ih =>
    have hx : ∀ b, g b l.length = f b x := h l.length x (by simp)
    rw [List.length_append, List.length_singleton, List.range_succ, List.foldlM_append,
      List.foldlM_append, ih fun i y hy => h i y ?_]
    · simp only [List.foldlM_cons, List.foldlM_nil, hx]
    · rw [List.getElem?_append_left (List.getElem?_eq_some_iff.mp hy).1, hy]

namespace Navigator

variable {pool : NodeAllocator V} {ndebug : Bool}

/-- What a link leads to has this size, which is found with as many calls at most. -/
def LinkSize (pool : NodeAllocator V) (ndebug : Bool) (calls : ℕ) (l : Option ℕ) (s : ℕ) : Prop :=
  (l = none → s = 0) ∧ ∀ n ∈ l, checkId pool ndebug n = .ok () ∧
    ∀ fuel, calls ≤ fuel → size pool ndebug fuel n = .ok s

theorem LinkSize.mono {calls calls' : ℕ} {l : Option ℕ} {s : ℕ}
    (h : LinkSize pool ndebug calls l s) (hle : calls ≤ calls') :
    LinkSize pool ndebug calls' l s :=
  ⟨h.1, fun n hn => ⟨(h.2 n hn).1, fun fuel hfuel => (h.2 n hn).2 fuel (hle.trans hfuel)⟩⟩

theorem LinkSize.addSize_eq {calls fuel : ℕ} {l : Option ℕ} {m : ℕ}
    (h : LinkSize pool ndebug calls l m) (hfuel : calls ≤ fuel) (s : ℕ) :
    addSize pool ndebug (size pool ndebug fuel) s l = .ok (s + m) := by
  cases l with
  | none =>
    rw [h.1 rfl]
    rfl
  | some n =>
    obtain ⟨hid, hsize⟩ := h.2 n rfl
    simp only [addSize, hid, hsize fuel hfuel, Bind.bind, Except.bind, Pure.pure, Except.pure]

/-- Links whose sizes are known are added up. -/
theorem foldlM_addSize {α : Type} {calls fuel : ℕ} {l : List α} {link : α → Option ℕ} {m : α → ℕ}
    (h : ∀ x ∈ l, LinkSize pool ndebug calls (link x) (m x)) (hfuel : calls ≤ fuel) (s : ℕ) :
    l.foldlM (fun s x => addSize pool ndebug (size pool ndebug fuel) s (link x)) s =
      .ok (s + (l.map m).sum) := by
  induction l generalizing s with
  | nil => rfl
  | cons x l ih =>
    obtain ⟨hx, hl⟩ := List.forall_mem_cons.mp h
    rw [List.foldlM_cons, hx.addSize_eq hfuel, List.map_cons, List.sum_cons, ← Nat.add_assoc]
    exact ih hl (s + m x)

/-- The next layers of the keys of a node. -/
theorem addSizes_nextLevel {calls fuel s : ℕ} {nd : Node V} {ks : List (KeyInfo V)}
    {m : KeyInfo V → ℕ} (hcnt : nd.keyCnt = ks.length)
    (hget : ∀ i, i < ks.length → ks[i]? = some (nd.getKey i))
    (h : ∀ x ∈ ks, LinkSize pool ndebug calls x.nextLevel (m x)) (hfuel : calls ≤ fuel) :
    addSizes pool ndebug (size pool ndebug fuel) nd.nextLevel nd.keyCnt s =
      .ok (s + (ks.map m).sum) := by
  rw [addSizes, hcnt, foldlM_range ks (fun s x =>
    addSize pool ndebug (size pool ndebug fuel) s x.nextLevel) _ fun i x hx s => ?_]
  · exact foldlM_addSize h hfuel s
  · have := hget i (List.getElem?_eq_some_iff.mp hx).1
    rw [hx] at this
    rw [Option.some.inj this]
    rfl

/-- A leaf has no children. -/
theorem addSizes_leaf {fuel s cnt : ℕ} {link : Store (Option ℕ)} (h : ∀ i, link.get i = none) :
    addSizes pool ndebug (size pool ndebug fuel) link cnt s = .ok s := by
  have hnull : ∀ i ∈ List.range cnt, LinkSize pool ndebug fuel (link.get i) 0 := fun i _ =>
    ⟨fun _ => rfl, fun n hn => by rw [h i] at hn; cases hn⟩
  rw [addSizes, foldlM_addSize hnull le_rfl s]
  simp

/-- The children of a node have the keys that lie in between those of the node. -/
theorem foldlM_children {P : ℕ → List (KeyInfo V) → Multiset ℕ → Prop} {R : KeyInfo V → Prop}
    {w : KeyInfo V → ℕ} {calls fuel : ℕ} {ks its : List (KeyInfo V)} {cs : List ℕ} {fp : Multiset ℕ}
    (h : Chain P ks cs its fp) (hits : ∀ x ∈ its, R x)
    (hP : ∀ c its fp, P c its fp → (∀ x ∈ its, R x) →
      LinkSize pool ndebug calls (some c) (its.map w).sum) (hfuel : calls ≤ fuel) (s : ℕ) :
    ∃ total, cs.foldlM (fun s c => addSize pool ndebug (size pool ndebug fuel) s (some c)) s =
      .ok (s + total) ∧ total + (ks.map w).sum = (its.map w).sum := by
  induction h generalizing s with
  | @last c its fp hc =>
    refine ⟨(its.map w).sum, ?_, by simp⟩
    rw [List.foldlM_cons, (hP c its fp hc hits).addSize_eq hfuel]
    rfl
  | @cons c cs k ks its its' fp fp' hc _ ih =>
    have hleft := hP c its fp hc fun x hx => hits x (List.mem_append_left _ hx)
    obtain ⟨total, hrest, hsum⟩ := ih (fun x hx => hits x (by simp [hx])) (s + (its.map w).sum)
    refine ⟨(its.map w).sum + total, ?_, ?_⟩
    · rw [List.foldlM_cons, hleft.addSize_eq hfuel, ← Nat.add_assoc]
      exact hrest
    · simp only [List.map_append, List.map_cons, List.sum_append, List.sum_cons]
      omega

theorem size_succ {fuel n s s' : ℕ}
    (hchildren : addSizes pool ndebug (size pool ndebug fuel) (pool.mempool.get n).childIndex
      ((pool.mempool.get n).keyCnt + 1) (pool.mempool.get n).keyCnt = .ok s)
    (hnext : addSizes pool ndebug (size pool ndebug fuel) (pool.mempool.get n).nextLevel
      (pool.mempool.get n).keyCnt s = .ok s') : size pool ndebug (fuel + 1) n = .ok s' := by
  simp only [size, hchildren, Bind.bind, Except.bind]
  exact hnext

end Navigator

/-! ## The keys of a tree -/

open Navigator

section Tree

variable {cfg : BTreeCfg} {sh : CompressedShape} {pool : NodeAllocator V} {ndebug : Bool} {lvl : ℕ}
  {fp : Multiset ℕ}

/-- The size of a layer: its keys, and what is below each of them. -/
theorem Layer.size_eq {h n calls : ℕ} {par : Option ℕ} {its : List (KeyInfo V)}
    {m : KeyInfo V → ℕ} (hL : Layer cfg pool.mempool h par n its fp)
    (hid : ∀ j ∈ fp, checkId pool ndebug j = .ok ())
    (hits : ∀ x ∈ its, LinkSize pool ndebug calls x.nextLevel (m x)) {fuel : ℕ}
    (hfuel : h + calls + 1 ≤ fuel) :
    size pool ndebug fuel n = .ok (its.map fun x => 1 + m x).sum := by
  induction h generalizing par n its fp fuel with
  | zero =>
    obtain ⟨fuel, rfl⟩ : ∃ k, fuel = k + 1 := ⟨fuel - 1, by omega⟩
    obtain ⟨hn, -, -⟩ := hL
    rw [size_succ (addSizes_leaf hn.child)
      (addSizes_nextLevel hn.keyCnt hn.getKey hits (by omega)), hn.keyCnt]
    simp [List.sum_map_add]
  | succ h ih =>
    obtain ⟨fuel, rfl⟩ : ∃ k, fuel = k + 1 := ⟨fuel - 1, by omega⟩
    obtain ⟨ks, cs, fp', hn, -, -, hch, rfl⟩ := hL
    have hsub : ∀ x ∈ ks, LinkSize pool ndebug calls x.nextLevel (m x) := fun x hx =>
      hits x (hch.subset hx)
    have hch' : Chain (fun c its fp => Layer cfg pool.mempool h (some n) c its fp ∧
        ∀ j ∈ fp, checkId pool ndebug j = .ok ()) ks cs its fp' :=
      hch.imp fun c _ its' fp₀ hle hc => ⟨hc.1, fun j hj =>
        hid j (Multiset.mem_cons_of_mem (Multiset.mem_of_le hle hj))⟩
    obtain ⟨total, hcs, hsum⟩ := foldlM_children (w := fun x => 1 + m x) hch' hits
      (fun c its' fp₀ hc hits' => ⟨nofun, fun c' hc' => by
        obtain rfl := Option.some.inj hc'
        exact ⟨hc.2 _ hc.1.root_mem, fun fuel hfuel => ih hc.1 hc.2 hits' hfuel⟩⟩)
      (show h + calls + 1 ≤ fuel by omega) (pool.mempool.get n).keyCnt
    have hlen : (pool.mempool.get n).keyCnt + 1 = cs.length := by rw [hch.length_eq, hn.keyCnt]
    rw [size_succ (s := (pool.mempool.get n).keyCnt + total) ?_
      (addSizes_nextLevel hn.keyCnt hn.getKey hsub (by omega))]
    · rw [← hsum, hn.keyCnt, List.sum_map_add]
      simp
      omega
    · rw [hlen, addSizes, foldlM_range cs (fun s c =>
        addSize pool ndebug (size pool ndebug fuel) s (some c)) _ fun i c hc s => ?_, hcs]
      rw [← hn.child i (List.getElem?_eq_some_iff.mp hc).1, hc]

theorem count_thread (xs : List (KeyInfo V)) (t : Trie Range1d V) :
    (thread xs t).count = xs.length + t.count := by
  induction xs with
  | nil => simp [thread]
  | cons x xs ih =>
    rw [thread, Trie.count_cons, ih, Trie.count_nil, List.length_cons]
    omega

/-- The size of a compressed node: its keys, and what is below the last one. -/
theorem size_of_compressed {n calls s : ℕ} {init : List (KeyInfo V)} {last : KeyInfo V}
    (hn : (pool.mempool.get n).CompressedNode cfg sh lvl init last)
    (hlast : LinkSize pool ndebug calls last.nextLevel s) {fuel : ℕ} (hfuel : calls + 1 ≤ fuel) :
    size pool ndebug fuel n = .ok (init.length + 1 + s) := by
  obtain ⟨fuel, rfl⟩ : ∃ k, fuel = k + 1 := ⟨fuel - 1, by omega⟩
  have hlen : (init ++ [last]).length = init.length + 1 := by simp
  have hbelow : ∀ x ∈ init ++ [last],
      LinkSize pool ndebug calls x.nextLevel (if x.nextLevel = none then 0 else s) := by
    intro x hx
    split
    · next hnone => exact ⟨fun _ => rfl, fun n hn => by rw [hnone] at hn; cases hn⟩
    · next hsome =>
      rcases List.mem_append.mp hx with hx | hx
      · exact absurd (hn.nextLevel x hx) hsome
      · obtain rfl := List.mem_singleton.mp hx
        exact hlast
  rw [size_succ (addSizes_leaf hn.child) (addSizes_nextLevel (hn.keyCnt.trans hlen.symm)
    (fun i hi => hn.getKey i (hlen ▸ hi)) hbelow (by omega)), hn.keyCnt]
  have hinit : (init.map fun x => if x.nextLevel = none then 0 else s).sum = 0 := by
    refine List.sum_eq_zero fun k hk => ?_
    obtain ⟨x, hx, rfl⟩ := List.mem_map.mp hk
    exact if_pos (hn.nextLevel x hx)
  have hend : (if last.nextLevel = none then 0 else s) = s := by
    split
    · next hnone => exact (hlast.1 hnone).symm
    · rfl
  rw [List.map_append, List.sum_append, hinit, List.map_singleton, List.sum_singleton, hend,
    Nat.zero_add]

/-- What `size` finds behind a link. -/
def sizeBelow (pool : NodeAllocator V) (ndebug : Bool) (calls : ℕ) (l : Option ℕ) : ℕ :=
  l.elim 0 fun n => (size pool ndebug calls n).toOption.getD 0

theorem Navigator.LinkSize.sizeBelow_eq {calls s : ℕ} {l : Option ℕ} (h : LinkSize pool ndebug calls l s) :
    sizeBelow pool ndebug calls l = s := by
  cases l with
  | none => exact (h.1 rfl).symm
  | some n =>
    rw [sizeBelow, Option.elim_some, (h.2 n rfl).2 calls le_rfl]
    rfl

/-- What `size` finds in a part of a tree. -/
def Part.HasSize (pool : NodeAllocator V) (ndebug : Bool) (calls : ℕ) : Part V → ℕ → Prop
  | .link l, s => LinkSize pool ndebug calls l s
  | .items its, s =>
      (∀ x ∈ its, LinkSize pool ndebug calls x.nextLevel (sizeBelow pool ndebug calls x.nextLevel)) ∧
        (its.map fun x => 1 + sizeBelow pool ndebug calls x.nextLevel).sum = s

/-- `size` finds the number of the keys in the trie. -/
theorem Denotes.hasSize {part : Part V} {t : Trie Range1d V}
    (hd : Denotes cfg sh pool.mempool lvl part t fp)
    (hid : ∀ j ∈ fp, checkId pool ndebug j = .ok ()) {calls : ℕ} (hcalls : fp.card ≤ calls) :
    part.HasSize pool ndebug calls t.count := by
  induction hd generalizing calls with
  | null => exact ⟨fun _ => rfl, fun n hn => absurd hn (Option.not_mem_none n)⟩
  | @layer lvl h root its t fp fpI _ hL _ _ _ ih =>
    have hid' : ∀ j ∈ fp, checkId pool ndebug j = .ok () := fun j hj =>
      hid j (Multiset.mem_add.mpr (.inl hj))
    obtain ⟨hits, hsum⟩ := ih (fun j hj => hid j (Multiset.mem_add.mpr (.inr hj))) le_rfl
    refine ⟨nofun, fun n hn => ?_⟩
    obtain rfl : root = n := Option.some.inj hn
    refine ⟨hid' root hL.root_mem, fun fuel hfuel => ?_⟩
    rw [hL.size_eq hid' hits, hsum]
    have := hL.height_lt_card
    rw [Multiset.card_add] at hcalls
    omega
  | @compressed lvl root init last next fp _ hn _ ih =>
    rw [Multiset.card_cons] at hcalls
    have hlast := ih (fun j hj => hid j (Multiset.mem_cons_of_mem hj)) le_rfl
    refine ⟨nofun, fun n hn' => ?_⟩
    obtain rfl : root = n := Option.some.inj hn'
    refine ⟨hid root (Multiset.mem_cons_self _ _), fun fuel hfuel => ?_⟩
    rw [size_of_compressed hn hlast (by omega), count_thread, List.length_append,
      List.length_singleton]
  | nil => exact ⟨fun x hx => absurd hx List.not_mem_nil, rfl⟩
  | @cons lvl x its next rest fp fp' _ _ ih ih' =>
    rw [Multiset.card_add] at hcalls
    have hx := ih (fun j hj => hid j (Multiset.mem_add.mpr (.inl hj))) (show _ ≤ calls by omega)
    obtain ⟨hits, hsum⟩ := ih' (fun j hj => hid j (Multiset.mem_add.mpr (.inr hj)))
      (show _ ≤ calls by omega)
    have hbelow := LinkSize.sizeBelow_eq hx
    refine ⟨List.forall_mem_cons.mpr ⟨hbelow.symm ▸ hx, hits⟩, ?_⟩
    rw [List.map_cons, List.sum_cons, hbelow, hsum, Trie.count_cons]

end Tree

/-! ## Runs -/

section Run

variable [RuleValue V] {cfg : BTreeCfg} {order : DimensionOrder cfg.D} {start pool : NodeAllocator V}
  {t : BTree cfg.D} {live : List (RuleSpec cfg.D V)} {rest fp : Multiset ℕ} {trie : Trie Range1d V}

/-- The beginnings of the ranges of the rules, in the order in which the levels test them. -/
def keyPaths (order : DimensionOrder cfg.D) (rules : List (RuleSpec cfg.D V)) : List (List Range1d) :=
  Trie.beginnings (keyLength cfg.keyBytes) (rules.map fun r => r.sequence order)

/-- The size of a tree that stores some rules. -/
theorem BTree.Stores.size_eq (ht : t.Stores cfg pool order live trie fp)
    (ho : Owns pool (fp + rest)) (hN : 0 < pool.ITEM_CNT) (ndebug : Bool) :
    t.size cfg pool ndebug = .ok (keyPaths order live).length := by
  have hcard := ho.card_le
  rw [Multiset.card_add] at hcard
  have hsize : (Part.link t.root : Part V).HasSize pool ndebug (callDepth cfg pool) trie.count := by
    refine Denotes.hasSize ht.holds (fun j hj => ho.checkId hN (Multiset.mem_add.mpr (.inl hj)) _) ?_
    simp only [callDepth]
    omega
  have hcount : trie.count = (keyPaths order live).length := by
    rw [ht.represents.count_eq BTree.Contains.before_irrefl, entries, List.map_map]
    rfl
  rw [← hcount, BTree.size]
  cases hroot : t.root with
  | none =>
    rw [hroot] at hsize
    rw [hsize.1 rfl]
  | some root =>
    rw [hroot] at hsize
    exact (hsize.2 root rfl).2 _ le_rfl

omit [RuleValue V] in
/-- Rules that need one level each have as many beginnings as there are rules. -/
theorem length_keyPaths_of_one (hp : order.IsPermutation) (hD : 0 < cfg.D)
    (hdistinct : (live.map RuleSpec.first).Nodup)
    (hone : ∀ r ∈ live, keyLength cfg.keyBytes (r.sequence order) = 1) :
    (keyPaths order live).length = live.length := by
  have hpath : ∀ r ∈ live, ((r.sequence order).take (keyLength cfg.keyBytes
      (r.sequence order))).inits.filter (· ≠ []) = [(r.sequence order).take 1] := by
    intro r hr
    have hne : r.sequence order ≠ [] := by
      rw [← List.length_pos_iff, RuleSpec.length_sequence]
      exact hD
    obtain ⟨k, ks, hks⟩ := List.exists_cons_of_ne_nil hne
    rw [hone r hr, hks]
    simp
  have hnodup : (live.map fun r => (r.sequence order).take 1).Nodup := by
    refine (List.Nodup.of_map _ hdistinct).map_on fun r hr s hs heq => ?_
    have hseq := RuleSpec.sequence_eq_of_take (hone r hr).le (hone s hs).le heq
    exact List.inj_on_of_nodup_map hdistinct hr hs ((RuleSpec.sequence_eq_iff hp).mp hseq)
  rw [keyPaths, Trie.beginnings, List.flatMap_map, List.flatMap_congr hpath, ← List.map_eq_flatMap,
    hnodup.dedup, List.length_map]

/-- A removal that is told apart can be detached. -/
theorem BTree.Run.detached (h : BTree.Run cfg order start (Withdrawn cfg order) t pool live) :
    BTree.Run cfg order start (Detached cfg order) t pool live := by
  induction h with
  | start => exact .start
  | insert _ hr hrun ih => exact ih.insert hr hrun
  | remove _ hr hrun ih => exact ih.remove ⟨hr.1.compatible, hr.2.2.2.2⟩ hrun

end Run

end Pcv
