import Pcv.Library.TrieRemove
import Pcv.PartitionSort.LayerRemove
import Pcv.PartitionSort.LayeredBTree
import Pcv.PartitionSort.Route

/-!
# Removal along a path

`remove` walks the path of a rule from its end.  Where the last key has a next layer, only
its value is made invalid.  Otherwise the keys of the path are deleted one after another up
to the layer at the root of the tree, and the link to each layer on the way is cut, no
matter what else the layer holds.

The removal is therefore right where the layers behind the first one hold nothing but keys
of the path: they form a `Filament`, which is given back to the pool node by node, before the
key at the root is deleted from its layer.
-/

namespace Pcv

open DynamicMempool Navigator BTreeSearch BTreeRemove
open Store (Agree)

variable {V : Type} {cfg : BTreeCfg} {sh : CompressedShape}

/-! ## Layers that hold keys of the path only -/

/-- The layer that an entry of a path leads through is one node, and all the keys of this
node are on the path. -/
def OnlyKeys (mem : Store (Node V)) (path : List PathItem) (b : PathItem) : Prop :=
  (mem.get b.root).isLeaf = true ∧ ∀ i < (mem.get b.root).keyCnt, ⟨b.root, b.root, i⟩ ∈ path

instance (mem : Store (Node V)) (path : List PathItem) (b : PathItem) :
    Decidable (OnlyKeys mem path b) := inferInstanceAs (Decidable (_ ∧ _))

/-- What `remove` takes apart along this path is not needed by other rules: the path ends at
a key with a next layer, or behind a layer that is not compressed it leads through layers of
its own keys only. -/
def Removable (mem : Store (Node V)) (path : List PathItem) : Prop :=
  (∀ b ∈ path.getLast?, ((mem.get b.node).nextLevel.get b.index).isSome = true) ∨
    (∀ b ∈ path.head?, (mem.get b.root).isCompressed = false) ∧
      ∀ b ∈ path.tail, OnlyKeys mem path b

instance (mem : Store (Node V)) (path : List PathItem) : Decidable (Removable mem path) :=
  inferInstanceAs (Decidable (_ ∨ _))

/-- Leaves, each of them below the last key of the one before, whose other keys have no next
layer; and their keys as entries of a path. -/
inductive Filament (mem : Store (Node V)) : Option ℕ → Multiset ℕ → List PathItem → Prop
  | nil : Filament mem none 0 []
  | cons {root cnt : ℕ} {link : Option ℕ} {fp : Multiset ℕ} {path : List PathItem} :
      (mem.get root).keyCnt = cnt + 1 → (mem.get root).isLeaf = true →
      (∀ i, i < cnt → (mem.get root).nextLevel.get i = none) →
      (mem.get root).nextLevel.get cnt = link → Filament mem link fp path →
      Filament mem (some root) (root ::ₘ fp) (compressedItems root 0 (cnt + 1) ++ path)

theorem mem_compressedItems {root cnt i : ℕ} {b : PathItem} :
    b ∈ compressedItems root i cnt ↔ ∃ j, i ≤ j ∧ j < i + cnt ∧ b = ⟨root, root, j⟩ := by
  simp only [compressedItems, List.mem_map, List.mem_range'_1]
  constructor
  · rintro ⟨j, ⟨hj, hj'⟩, rfl⟩
    exact ⟨j, hj, hj', rfl⟩
  · rintro ⟨j, hj, hj', rfl⟩
    exact ⟨j, ⟨hj, hj'⟩, rfl⟩

theorem compressedItems_succ (root cnt : ℕ) :
    compressedItems root 0 (cnt + 1) = compressedItems root 0 cnt ++ [⟨root, root, cnt⟩] := by
  simp [compressedItems, List.range'_1_concat]

@[simp] theorem length_compressedItems (root i cnt : ℕ) :
    (compressedItems root i cnt).length = cnt := by
  simp [compressedItems]

/-- The ranges from a level on. -/
theorem rangesFrom_sub (order : DimensionOrder cfg.D) (rule : RuleSpec cfg.D V) {lvl n : ℕ}
    (h : lvl + n ≤ cfg.D) : rangesFrom order rule (cfg.D - lvl) lvl =
      rangesFrom order rule n lvl ++ rangesFrom order rule (cfg.D - (lvl + n)) (lvl + n) := by
  rw [← rangesFrom_add]
  congr 1
  omega

/-- The first ranges of a rule and the others. -/
theorem RuleSpec.sequence_eq_append (order : DimensionOrder cfg.D) (rule : RuleSpec cfg.D V) {n : ℕ}
    (h : n ≤ cfg.D) : rule.sequence order =
      rangesFrom order rule n 0 ++ rangesFrom order rule (cfg.D - n) n := by
  have := rangesFrom_sub order rule (show 0 + n ≤ cfg.D by omega)
  rwa [Nat.zero_add] at this

theorem along_thread {ρ : List Range1d} {t : Trie Range1d V} (xs : List (KeyInfo V))
    (h : Trie.Along ρ t) : Trie.Along (xs.map KeyInfo.key ++ ρ) (thread xs t) := by
  induction xs with
  | nil => exact h
  | cons x xs ih => exact .cons ih

namespace Route

variable {mem mem' : Store (Node V)} {order : DimensionOrder cfg.D} {rule : RuleSpec cfg.D V}
variable {lvl : ℕ} {t : Trie Range1d V} {fp : Multiset ℕ} {link : Option ℕ} {path : List PathItem}

/-- A route of no steps. -/
theorem of_nil (hr : Route cfg sh mem order rule lvl link t fp []) :
    Denotes cfg sh mem lvl (.link link) t fp ∧ Misses (rangeAt order rule lvl) t := by
  generalize hpath : ([] : List PathItem) = path at hr
  cases hr with
  | stop hd hmiss => exact ⟨hd, hmiss⟩
  | layer => cases hpath
  | whole =>
      have := congrArg List.length hpath
      simp only [List.length_append, length_compressedItems, List.length_nil] at this
      omega
  | @part _ _ _ xs _ _ _ _ _ _ _ _ hne =>
      have := congrArg List.length hpath
      have := List.length_pos_iff.mpr hne
      simp only [length_compressedItems, List.length_nil] at *
      omega

/-- A path has at most one entry for each level. -/
theorem level_le (hr : Route cfg sh mem order rule lvl link t fp path) (hne : path ≠ []) :
    lvl + path.length ≤ cfg.D := by
  induction hr with
  | stop => exact absurd rfl hne
  | @layer lvl _ _ _ _ _ _ _ _ _ _ _ _ _ _ path hlvl _ _ _ _ _ _ _ ih =>
      by_cases hnil : path = []
      · simp [hnil]
        omega
      · have := ih hnil
        simp only [List.length_cons]
        omega
  | @whole lvl _ init _ _ _ path hlvl _ _ _ ih =>
      by_cases hnil : path = []
      · simp [hnil]
        omega
      · have := ih hnil
        simp only [List.length_append, length_compressedItems]
        omega
  | @part lvl _ init xs ys _ _ _ _ hlvl _ hits =>
      have := congrArg List.length hits
      simp only [List.length_append, List.length_cons, List.length_nil,
        length_compressedItems] at *
      omega

/-- Layers that hold keys of the path only form a filament, and their trie is a path of the
ranges of the rule. -/
theorem filament (hr : Route cfg sh mem order rule lvl link t fp path) (hnd : fp.Nodup)
    (honly : ∀ b ∈ path, OnlyKeys mem path b)
    (hend : ∀ b ∈ path.getLast?, (mem.get b.node).nextLevel.get b.index = none)
    (hnil : path = [] → link = none) : Filament mem link fp path ∧
      Trie.Along (rangesFrom order rule (cfg.D - lvl) lvl) t := by
  induction hr with
  | stop hd =>
      rw [hnil rfl] at hd ⊢
      obtain ⟨rfl, rfl⟩ := hd.of_null
      exact ⟨.nil, .nil⟩
  | @layer lvl h root m i L R x A n B fp fpA fpN fpB path hlvl hL _ hk hx hA hB hr ih =>
      obtain ⟨-, hndI, hdisj⟩ := Multiset.nodup_add.mp hnd
      have hroot : ∀ b ∈ path, b.root ≠ root := fun b hb h =>
        Multiset.disjoint_left.mp hdisj hL.root_mem
          (by simp [← h, (hr.mem_fp b hb).1])
      have hbelow : ∀ b ∈ path, OnlyKeys mem path b := by
        intro b hb
        obtain ⟨hleaf, hkeys⟩ := honly b (by simp [hb])
        refine ⟨hleaf, fun j hj => ?_⟩
        rcases List.mem_cons.mp (hkeys j hj) with h | h
        · exact absurd (congrArg PathItem.root h) (hroot b hb)
        · exact h
      obtain ⟨hfil, halong⟩ : Filament mem x.nextLevel fpN path ∧
          Trie.Along (rangesFrom order rule (cfg.D - (lvl + 1)) (lvl + 1)) n := by
        refine ih (Multiset.nodup_of_le ?_ hndI) hbelow (fun b hb => hend b ?_) fun hpath => ?_
        · exact (Multiset.le_add_right _ _).trans (Multiset.le_add_left _ _)
        · rw [List.getLast?_cons, Option.mem_def.mp hb]
          rfl
        · subst hpath
          have := hend ⟨root, m, i⟩ (by simp)
          rw [← hk.getKey]
          exact this
      -- the layer is one leaf, and has one key
      obtain ⟨hleaf, hkeys⟩ := honly ⟨root, m, i⟩ (by simp)
      have hh : h = 0 := by simpa [hL.isLeaf_iff] using hleaf
      subst hh
      have hm := hk.mem_fp
      obtain ⟨hn, -, rfl⟩ := hL
      obtain rfl : m = root := by simpa using hm
      have hkc := hn.keyCnt
      have hone : ∀ j, j < (mem.get m).keyCnt → j = i := by
        intro j hj
        rcases List.mem_cons.mp (hkeys j hj) with h | h
        · exact congrArg PathItem.index h
        · exact absurd rfl (hroot _ h)
      have hlast := hone ((mem.get m).keyCnt - 1) (by have := hk.index_lt; omega)
      have hfirst := hone 0 (by have := hk.index_lt; omega)
      simp only [List.length_append, List.length_cons] at hkc
      obtain rfl : L = [] := List.length_eq_zero_iff.mp (by omega)
      obtain rfl : R = [] := List.length_eq_zero_iff.mp (by omega)
      cases hA
      cases hB
      subst hfirst
      have hlink : (mem.get m).nextLevel.get 0 = x.nextLevel := by
        rw [← hk.getKey]
        rfl
      have hone : Filament mem (some m) (m ::ₘ fpN) (compressedItems m 0 (0 + 1) ++ path) :=
        .cons (by simpa using hkc) hn.isLeaf (by simp) hlink hfil
      refine ⟨by simpa [compressedItems] using hone, ?_⟩
      rw [rangesFrom_sub order rule (n := 1) hlvl]
      simp only [rangesFrom, List.singleton_append, ← hx]
      exact .cons halong
  | @whole lvl root init last next fp path hlvl hn hkeys hr ih =>
      obtain ⟨hroot', hnd'⟩ := Multiset.nodup_cons.mp hnd
      have hroot : ∀ b ∈ path, b.root ≠ root := fun b hb h => hroot' (h ▸ (hr.mem_fp b hb).1)
      have hlink : (mem.get root).nextLevel.get init.length = last.nextLevel := by
        have := hn.getKey init.length (by omega)
        have : last = (mem.get root).getKey init.length := by simpa using this
        rw [this]
        rfl
      obtain ⟨hfil, halong⟩ : Filament mem last.nextLevel fp path ∧ Trie.Along
          (rangesFrom order rule (cfg.D - (lvl + init.length + 1)) (lvl + init.length + 1)) next := by
        refine ih hnd' (fun b hb => ?_) (fun b hb => hend b ?_) fun hpath => ?_
        · obtain ⟨hleaf, hkeys⟩ := honly b (by simp [hb])
          refine ⟨hleaf, fun j hj => ?_⟩
          rcases List.mem_append.mp (hkeys j hj) with h | h
          · obtain ⟨j', -, -, h⟩ := mem_compressedItems.mp h
            exact absurd (congrArg PathItem.root h) (hroot b hb)
          · exact h
        · rw [List.getLast?_append, Option.mem_def.mp hb]
          rfl
        · subst hpath
          rw [← hlink]
          refine hend ⟨root, root, init.length⟩ ?_
          rw [List.append_nil, compressedItems_succ]
          simp
      rw [rangesFrom_sub order rule (n := init.length + 1) (by omega), ← hkeys]
      refine ⟨.cons hn.keyCnt hn.isLeaf (fun j hj => ?_) hlink hfil, along_thread _ halong⟩
      have hget := hn.getKey j (by omega)
      rw [List.getElem?_append_left hj] at hget
      exact hn.nextLevel _ (List.mem_of_getElem? hget)
  | @part lvl root init xs ys last y next fp hlvl hn hits hne =>
      -- the key behind the last one on the path is in the same node
      have hlen := congrArg List.length hits
      simp only [List.length_append, List.length_cons, List.length_nil] at hlen
      have hpos := List.length_pos_iff.mpr hne
      obtain ⟨-, hkeys⟩ := honly ⟨root, root, 0⟩ (mem_compressedItems.mpr ⟨0, by omega, by omega, rfl⟩)
      have := hkeys xs.length (by rw [hn.keyCnt]; omega)
      obtain ⟨j, -, hj, h⟩ := mem_compressedItems.mp this
      have := congrArg PathItem.index h
      simp only at this
      omega

end Route

/-! ## Giving back a filament -/

section Filament

variable [RuleValue V] {E : Fault → NodeAllocator V → Prop} {p : NodeAllocator V}
variable {order : DimensionOrder cfg.D} {rule : RuleSpec cfg.D V} {treeRoot : Option ℕ}
variable {path pre suf : List PathItem} {b : PathItem} {n cnt : ℕ} {k : Range1d}
variable {fp rest : Multiset ℕ} {Q : Option ℕ → NodeAllocator V → Prop}

/-- A leaf of `cnt` keys none of which has a next layer. -/
structure Node.Bare (nd : Node V) (cnt : ℕ) : Prop where
  keyCnt : nd.keyCnt = cnt
  isLeaf : nd.isLeaf = true
  nextLevel : ∀ i, i < cnt → (nd.getKey i).nextLevel = none

omit [RuleValue V] in
/-- Slot `i` of a node becomes free. -/
theorem Node.Bare.removeFromLeaf {nd : Node V} (hb : nd.Bare (cnt + 1)) (i : ℕ) :
    ((nd.shiftKeysLeft i (nd.keyCnt - (i + 1))).setKeyCnt (nd.keyCnt - 1)).Bare cnt where
  keyCnt := by
    show nd.keyCnt - 1 = cnt
    rw [hb.keyCnt, Nat.add_sub_cancel]
  isLeaf := (Node.shiftKeysLeft_sameFrame _ _ _).isLeaf.trans hb.isLeaf
  nextLevel := by
    intro j hj
    rw [Node.getKey_setKeyCnt, Node.getKey_shiftKeysLeft]
    split
    · exact hb.nextLevel _ (by omega)
    · exact hb.nextLevel _ (by omega)

omit [RuleValue V] in
/-- `remove_1d` on such a leaf takes out one of its keys, if it finds one. -/
theorem ensures_remove1d_bare (hE : ∀ k p, E (.keyDoesNotExist k) p)
    (hb : (p.mempool.get n).Bare (cnt + 1)) (ho : Owns p (n ::ₘ rest)) :
    Ensures E (remove1d cfg k n) p fun _ p' => p'.ITEM_CNT = p.ITEM_CNT ∧
      (∀ j, j ≠ n → p'.mempool.get j = p.mempool.get j) ∧
      ((p'.mempool.get n).Bare cnt ∧ 0 < cnt ∧ Owns p' (n ::ₘ rest) ∨ cnt = 0 ∧ Owns p' rest) := by
  obtain ⟨d, hd⟩ : ∃ d, callDepth cfg p = d + 1 := ⟨4 * (p.ITEM_CNT + cfg.D) + 7, rfl⟩
  rw [remove1d]
  refine Ensures.bind (Ensures.get (Ensures.bind ?_))
  rw [hd, removeKey]
  refine Ensures.bind (ensures_read (Ensures.ite (fun _ => ?_) fun _ => ?_))
  · rw [if_pos hb.isLeaf, BTreeRemove.removeFromLeaf]
    refine ensures_update (Ensures.bind (ensures_read ?_))
    simp only [Store.get_set_self]
    set nd := ((p.mempool.get n).shiftKeysLeft (findKey (p.mempool.get n) k)
      ((p.mempool.get n).keyCnt - (findKey (p.mempool.get n) k + 1))).setKeyCnt
        ((p.mempool.get n).keyCnt - 1) with hnd
    have hb' : nd.Bare cnt := hb.removeFromLeaf _
    have ho' := ho.congr (samePool_write p (p.mempool.set n nd))
    refine Ensures.ite (fun hzero => ?_) fun hpos => Ensures.pure ⟨rfl, ?_, .inl ⟨?_, ?_, ho'⟩⟩
    · rw [if_pos hb'.isLeaf]
      refine Ensures.bind (Ensures.pure (Ensures.bind (ensures_update (Ensures.bind
        (ensures_release (ho'.congr (samePool_write _ _)) fun p' ho'' hN hm =>
          Ensures.pure ⟨hN, fun j hj => ?_, .inr ⟨hb'.keyCnt.symm.trans hzero, ho''⟩⟩)))))
      rw [hm]
      simp only [Store.get_set_of_ne _ _ hj]
    · exact fun j hj => Store.get_set_of_ne _ _ hj
    · simpa using hb'
    · exact Nat.pos_of_ne_zero fun h => hpos (hb'.keyCnt.trans h)
  · rw [if_pos hb.isLeaf]
    exact Ensures.throw (hE _ _)

/-- The keys of such a leaf are deleted from the last one to the first, and the leaf is given
back.  The link to it is cut. -/
theorem ensures_removeAlong_bare (hE : ∀ k p, E (.keyDoesNotExist k) p)
    (hpath : path = pre ++ b :: (compressedItems n 0 (cnt + 1) ++ suf))
    (hD : pre.length + 1 + cnt < cfg.D) (hb : (p.mempool.get n).Bare (cnt + 1))
    (hroot : some n ≠ treeRoot) (hbn : b.node ≠ n) (ho : Owns p (n ::ₘ rest))
    (h : ∀ p', Owns p' rest → p'.ITEM_CNT = p.ITEM_CNT →
      (∀ j, j ≠ n → j ≠ b.node → p'.mempool.get j = p.mempool.get j) →
      p'.mempool.get b.node = (p.mempool.get b.node).setNextLevel b.index none →
      Ensures E (removeAlong cfg order rule path (pre.length + 1) treeRoot) p' Q) :
    Ensures E (removeAlong cfg order rule path (pre.length + 1 + (cnt + 1)) treeRoot) p Q := by
  induction cnt generalizing p suf with
  | zero =>
      have hcur : path[pre.length + 1]? = some ⟨n, n, 0⟩ := by
        rw [hpath, List.getElem?_append_right (by omega)]
        simp [compressedItems]
      have hprev : path[pre.length]? = some b := by simp [hpath]
      rw [removeAlong]
      refine Ensures.bind (ensures_reading (keyAt_eq order rule hD) ?_)
      simp only [hcur]
      have hnl : (p.mempool.get n).nextLevel.get 0 = none := hb.nextLevel 0 (by omega)
      refine Ensures.bind (ensures_read ?_)
      simp only [hnl, Option.isSome_none, Bool.false_eq_true, if_false]
      refine Ensures.bind ((ensures_remove1d_bare hE hb ho).mono ?_)
      rintro newRoot p' ⟨hN, hother, ⟨-, hpos, -⟩ | ⟨-, ho'⟩⟩
      · omega
      · rw [if_neg hroot]
        simp only [hprev]
        refine Ensures.bind (ensures_update (h _ (ho'.congr (samePool_write _ _)) hN ?_ ?_))
        · intro j hj hjb
          simp only [Store.get_set_of_ne _ _ hjb, hother j hj]
        · simp only [Store.get_set_self, hother _ hbn]
  | succ cnt ih =>
      have hcur : path[pre.length + 1 + (cnt + 1)]? = some ⟨n, n, cnt + 1⟩ := by
        rw [hpath, compressedItems_succ, List.getElem?_append_right (by omega),
          show pre.length + 1 + (cnt + 1) - pre.length = (cnt + 1) + 1 by omega,
          List.getElem?_cons_succ, List.append_assoc, List.getElem?_append_right (by simp)]
        simp
      have hprev : path[pre.length + 1 + cnt]? = some ⟨n, n, cnt⟩ := by
        rw [hpath, compressedItems_succ, compressedItems_succ,
          List.getElem?_append_right (by omega),
          show pre.length + 1 + cnt - pre.length = cnt + 1 by omega,
          List.getElem?_cons_succ, List.append_assoc, List.append_assoc,
          List.getElem?_append_right (by simp)]
        simp
      rw [← Nat.add_assoc, removeAlong]
      refine Ensures.bind (ensures_reading (keyAt_eq order rule hD) ?_)
      simp only [hcur]
      have hnl : (p.mempool.get n).nextLevel.get (cnt + 1) = none := hb.nextLevel _ (by omega)
      refine Ensures.bind (ensures_read ?_)
      simp only [hnl, Option.isSome_none, Bool.false_eq_true, if_false]
      refine Ensures.bind ((ensures_remove1d_bare hE hb ho).mono ?_)
      rintro newRoot p' ⟨hN, hother, ⟨hb', -, ho'⟩ | ⟨hzero, -⟩⟩
      · rw [if_neg hroot, ← Nat.add_assoc]
        simp only [show path[(pre.length + 1).add cnt]? = _ from hprev]
        refine Ensures.bind (ensures_update ?_)
        refine @ih _ (⟨n, n, cnt + 1⟩ :: suf) ?_ (by omega) ?_ (ho'.congr (samePool_write _ _))
          fun p'' ho'' hN' hother' hlink => h p'' ho'' (hN'.trans hN) ?_ ?_
        · rw [hpath, compressedItems_succ _ (cnt + 1)]
          simp
        · simp only [Store.get_set_self]
          refine ⟨hb'.keyCnt, hb'.isLeaf, fun j hj => ?_⟩
          rw [Node.getKey_setNextLevel]
          split
          · rfl
          · exact hb'.nextLevel j hj
        · intro j hj hjb
          rw [hother' j hj hjb, ← hother j hj]
          exact Store.get_set_of_ne _ _ hj
        · rw [hlink, ← hother b.node hbn]
          exact congrArg (Node.setNextLevel · b.index none) (Store.get_set_of_ne _ _ hbn)
      · omega

/-- A filament at the end of a path is given back, and the link to it is cut. -/
theorem Filament.ensures_removeAlong {link : Option ℕ} (hE : ∀ k p, E (.keyDoesNotExist k) p)
    (hf : Filament p.mempool link fp suf) (hpath : path = pre ++ b :: suf)
    (hD : path.length ≤ cfg.D) (hroot : ∀ n ∈ fp, some n ≠ treeRoot)
    (hlink : (p.mempool.get b.node).nextLevel.get b.index = link) (ho : Owns p (fp + rest))
    (hb : b.node ∈ rest)
    (h : ∀ p', Owns p' rest → p'.ITEM_CNT = p.ITEM_CNT →
      (∀ j ∈ rest, j ≠ b.node → p'.mempool.get j = p.mempool.get j) →
      (p.mempool.get b.node).SlotChanged (p'.mempool.get b.node) b.index
        { (p.mempool.get b.node).getKey b.index with nextLevel := none } →
      Ensures E (removeAlong cfg order rule path (pre.length + 1) treeRoot) p' Q) :
    Ensures E (removeAlong cfg order rule path path.length treeRoot) p Q := by
  induction hf generalizing pre b rest with
  | nil =>
      rw [hpath, List.length_append, List.length_singleton]
      rw [hpath] at h
      refine h p (by simpa using ho) rfl (fun _ _ _ => rfl) ⟨.refl _, fun j => ?_⟩
      split
      · next hj =>
          rw [hj, ← hlink]
          rfl
      · rfl
  | @cons root cnt link' fp suf hkc hleaf hnone hlast hf ih =>
      rw [Multiset.cons_add, ← Multiset.add_cons] at ho
      have hnd := (Multiset.nodup_add.mp ho.nodup).2.1
      have hbr : b.node ≠ root := fun h => (Multiset.nodup_cons.mp hnd).1 (h ▸ hb)
      have hpath' : path = (pre ++ b :: compressedItems root 0 cnt) ++ ⟨root, root, cnt⟩ :: suf := by
        rw [hpath, compressedItems_succ]
        simp
      have hlen : (pre ++ b :: compressedItems root 0 cnt).length = pre.length + 1 + cnt := by
        simp only [List.length_append, List.length_cons, length_compressedItems]
        omega
      refine ih hpath' (fun n hn => hroot n (Multiset.mem_cons_of_mem hn)) hlast ho (by simp)
        fun p₁ ho₁ hN₁ hother₁ hslot₁ => ?_
      rw [hlen, Nat.add_assoc _ cnt]
      have hbare : (p₁.mempool.get root).Bare (cnt + 1) := by
        refine ⟨hslot₁.frame.keyCnt.trans hkc, hslot₁.frame.isLeaf.trans hleaf, fun j hj => ?_⟩
        rw [hslot₁.getKey]
        split
        · rfl
        · next hne => exact hnone j (by have : j ≠ cnt := hne; omega)
      have hb₁ : p₁.mempool.get b.node = p.mempool.get b.node :=
        hother₁ _ (Multiset.mem_cons_of_mem hb) hbr
      refine ensures_removeAlong_bare hE hpath ?_ hbare (hroot root (by simp)) hbr ho₁
        fun p₂ ho₂ hN₂ hother₂ hcut => h p₂ ho₂ (hN₂.trans hN₁) (fun j hj hjb => ?_) ?_
      · rw [hpath', List.length_append, hlen] at hD
        simp only [List.length_cons] at hD
        omega
      · have hjr : j ≠ root := fun h => (Multiset.nodup_cons.mp hnd).1 (h ▸ hj)
        rw [hother₂ j hjr hjb, hother₁ j (Multiset.mem_cons_of_mem hj) hjr]
      · rw [hcut, hb₁]
        exact Node.slotChanged_setNextLevel rfl none

end Filament

/-! ## Clearing a value -/

section Clear

variable {mem mem' : Store (Node V)} {order : DimensionOrder cfg.D} {rule : RuleSpec cfg.D V}
variable {lvl : ℕ} {t : Trie Range1d V} {fp : Multiset ℕ} {link : Option ℕ} {path : List PathItem}
variable {b : PathItem}

/-- A link that is not null leads to a layer with keys. -/
theorem Denotes.ne_nil {root : ℕ} (hd : Denotes cfg sh mem lvl (.link (some root)) t fp) :
    t ≠ .nil := by
  cases hd with
  | @layer _ h _ its _ _ _ _ _ hne _ hits =>
      rintro rfl
      have := hits.keys_eq
      exact hne (List.map_eq_nil_iff.mp this.symm)
  | @compressed _ _ init =>
      cases init <;> simp [thread]

theorem cleared_thread {pos : Range1d → ℕ} {invalid : V} {ρ : List Range1d}
    {t t' : Trie Range1d V} (xs : List (KeyInfo V)) (h : Trie.Cleared pos invalid ρ t t') :
    Trie.Cleared pos invalid (xs.map KeyInfo.key ++ ρ) (thread xs t) (thread xs t') := by
  induction xs with
  | nil => exact h
  | cons x xs ih => exact .down (A := .nil) ih

/-- Where a path ends at a key with a next layer, the next range is not in that layer. -/
theorem Route.misses_next {n : Trie Range1d V}
    (hr : Route cfg sh mem order rule lvl link n fp []) (hlink : link.isSome = true) :
    n ≠ .nil ∧ (n.keys.Pairwise (fun a b => a.low < b.low) →
      ∀ k ∈ (rangesFrom order rule (cfg.D - lvl) lvl).head?, k ∉ n.keys) := by
  obtain ⟨root, rfl⟩ := Option.isSome_iff_exists.mp hlink
  obtain ⟨hd, hmiss⟩ := hr.of_nil
  refine ⟨hd.ne_nil, fun hstrict k hk => ?_⟩
  rw [rangesFrom_sub order rule (n := 1) hd.level_lt] at hk
  obtain rfl : rangeAt order rule lvl = k := by simpa [rangesFrom] using hk
  exact hmiss hstrict

/-- A slot of the last key of a compressed node changes its value. -/
theorem Node.CompressedNode.setLast {nd nd' : Node V} {init : List (KeyInfo V)}
    {last last' : KeyInfo V} (hn : nd.CompressedNode cfg sh lvl init last)
    (hc : nd.SlotChanged nd' init.length last') :
    nd'.CompressedNode cfg sh lvl init last' where
  keyCnt := hc.frame.keyCnt.trans hn.keyCnt
  le_maxDegree := hn.le_maxDegree
  least_le := hn.least_le
  getKey := by
    intro i hi
    rw [hc.getKey]
    have := hn.getKey i hi
    rcases Nat.lt_or_ge i init.length with hlt | hge
    · rw [if_neg (by omega), ← this, List.getElem?_append_left hlt, List.getElem?_append_left hlt]
    · obtain rfl : i = init.length := by omega
      simp
  nextLevel := hn.nextLevel
  dim := by
    intro i hi
    rw [Node.getDim, hc.frame.dimIndex]
    exact hn.dim i hi
  isCompressed := hc.frame.isCompressed.trans hn.isCompressed
  isLeaf := hc.frame.isLeaf.trans hn.isLeaf
  child := by
    rw [hc.frame.childIndex]
    exact hn.child
  parent := hc.frame.parent.trans hn.parent

/-- The value of the last key of a path becomes invalid. -/
theorem Route.cleared [RuleValue V] (mem' : Store (Node V))
    (hr : Route cfg sh mem order rule lvl link t fp path)
    (hnd : fp.Nodup) (hlast : path.getLast? = some b)
    (hlink : ((mem.get b.node).nextLevel.get b.index).isSome = true)
    (hother : ∀ j ∈ fp, j ≠ b.node → mem'.get j = mem.get j)
    (hslot : (mem.get b.node).SlotChanged (mem'.get b.node) b.index
      { (mem.get b.node).getKey b.index with value := RuleValue.invalid }) :
    ∃ t', Trie.Cleared Range1d.low RuleValue.invalid (rangesFrom order rule (cfg.D - lvl) lvl) t t' ∧
      Denotes cfg sh mem' lvl (.link link) t' fp := by
  induction hr with
  | stop => simp at hlast
  | @layer lvl h root m i L R x A n B fp fpA fpN fpB path hlvl hL ho hk hx hA hB hr ih =>
      obtain ⟨hndL, hndI, hdisj⟩ := Multiset.nodup_add.mp hnd
      obtain ⟨-, hndNB, hdisjA⟩ := Multiset.nodup_add.mp hndI
      obtain ⟨hndN, -, hdisjB⟩ := Multiset.nodup_add.mp hndNB
      rw [rangesFrom_sub order rule (n := 1) hlvl]
      simp only [rangesFrom, List.singleton_append, ← hx]
      have hitems : ∀ y, y = x ∨ y = { x with value := RuleValue.invalid } →
          Ordered (L ++ y :: R) := by
        rintro y (rfl | rfl)
        · exact ho
        · simpa [Ordered, List.pairwise_append] using ho
      by_cases hnil : path = []
      · -- the key of this layer is the last one
        subst hnil
        obtain rfl : ⟨root, m, i⟩ = b := by simpa using hlast
        have hagree : Agree (fpA + (fpN + fpB)) mem mem' := by
          intro j hj
          refine hother j (by simp only [Multiset.mem_add] at hj ⊢; tauto) fun (hjm : j = m) => ?_
          exact Multiset.disjoint_left.mp hdisj hk.mem_fp (hjm ▸ hj)
        rw [hk.getKey] at hslot
        have hnext : x.nextLevel.isSome = true := by
          rw [← hk.getKey]
          exact hlink
        obtain ⟨hne, hmiss⟩ := hr.misses_next hnext
        refine ⟨_, .here hne hmiss, .layer hlvl (hk.replace mem' _ (fun j hj => hother j ?_) hslot)
          (by simp) (hitems _ (.inr rfl)) ((hA.frame ?_).append (.cons (hr.denotes.frame ?_)
            (hB.frame ?_)))⟩
        · simp [hj]
        · exact hagree.mono (Multiset.le_add_right _ _)
        · exact hagree.mono ((Multiset.le_add_right _ _).trans (Multiset.le_add_left _ _))
        · exact hagree.mono ((Multiset.le_add_left _ _).trans (Multiset.le_add_left _ _))
      · -- the last key is further down
        have hlast' : path.getLast? = some b := by
          rw [List.getLast?_cons] at hlast
          cases hl : path.getLast? with
          | none => exact absurd (List.getLast?_eq_none_iff.mp hl) hnil
          | some c => rw [hl] at hlast; exact hlast
        have hbN := (hr.mem_fp b (List.mem_of_getLast? hlast')).2
        obtain ⟨n', hcl, hd'⟩ := ih hndN hlast' fun j hj => hother j (by simp [hj])
        have hagree : Agree (fp + (fpA + fpB)) mem mem' := by
          intro j hj
          refine hother j (by simp only [Multiset.mem_add] at hj ⊢; tauto) fun hjb => ?_
          rw [← hjb] at hbN
          rcases Multiset.mem_add.mp hj with hj | hj
          · exact Multiset.disjoint_left.mp hdisj hj (by simp [hbN])
          · rcases Multiset.mem_add.mp hj with hj | hj
            · exact Multiset.disjoint_left.mp hdisjA hj (by simp [hbN])
            · exact Multiset.disjoint_left.mp hdisjB hbN hj
        refine ⟨_, .down hcl, .layer hlvl (hL.frame ?_) (by simp) ho ((hA.frame ?_).append
          (.cons hd' (hB.frame ?_)))⟩
        · exact hagree.mono (Multiset.le_add_right _ _)
        · exact hagree.mono ((Multiset.le_add_right _ _).trans (Multiset.le_add_left _ _))
        · exact hagree.mono ((Multiset.le_add_left _ _).trans (Multiset.le_add_left _ _))
  | @whole lvl root init last next fp path hlvl hn hkeys hr ih =>
      obtain ⟨hroot, hnd'⟩ := Multiset.nodup_cons.mp hnd
      rw [rangesFrom_sub order rule (n := init.length + 1) (by omega), ← hkeys]
      by_cases hnil : path = []
      · subst hnil
        obtain rfl : ⟨root, root, init.length⟩ = b := by
          rw [List.append_nil, compressedItems_succ] at hlast
          simpa using hlast
        have hget : (mem.get root).getKey init.length = last := by
          have := hn.getKey init.length (by omega)
          simpa using this.symm
        rw [hget] at hslot
        have hnext : last.nextLevel.isSome = true := by
          rw [← hget]
          exact hlink
        obtain ⟨hne, hmiss⟩ := hr.misses_next hnext
        refine ⟨thread (init ++ [{ last with value := RuleValue.invalid }]) next, ?_,
          .compressed hlvl (hn.setLast hslot) (hr.denotes.frame fun j hj => ?_)⟩
        · rw [thread_append, thread_append, List.map_append, List.append_assoc]
          exact cleared_thread init (.here (A := .nil) hne hmiss)
        · exact hother j (Multiset.mem_cons_of_mem hj) fun (h : j = root) => hroot (h ▸ hj)
      · have hlast' : path.getLast? = some b := by
          rw [List.getLast?_append] at hlast
          cases hl : path.getLast? with
          | none => exact absurd (List.getLast?_eq_none_iff.mp hl) hnil
          | some c => rw [hl] at hlast; exact hlast
        have hbN := (hr.mem_fp b (List.mem_of_getLast? hlast')).2
        obtain ⟨next', hcl, hd'⟩ := ih hnd' hlast'
          fun j hj => hother j (Multiset.mem_cons_of_mem hj)
        refine ⟨_, cleared_thread _ hcl, .compressed hlvl ?_ hd'⟩
        rwa [hother root (by simp) fun h => hroot (h ▸ hbN)]
  | @part lvl root init xs ys last y next fp hlvl hn hits hne =>
      -- the last key of the path is not the last key of its node
      have hlen := congrArg List.length hits
      simp only [List.length_append, List.length_cons, List.length_nil] at hlen
      obtain ⟨cnt, hcnt⟩ : ∃ cnt, xs.length = cnt + 1 :=
        ⟨xs.length - 1, by have := List.length_pos_iff.mpr hne; omega⟩
      rw [hcnt, compressedItems_succ] at hlast
      obtain rfl : ⟨root, root, cnt⟩ = b := by simpa using hlast
      have hget := hn.getKey cnt (by omega)
      rw [List.getElem?_append_left (by omega)] at hget
      have := hn.nextLevel _ (List.mem_of_getElem? hget)
      rw [show (mem.get root).nextLevel.get cnt = none from this] at hlink
      cases hlink

end Clear

/-! ## Removal -/

section Remove

variable [RuleValue V] {E : Fault → NodeAllocator V → Prop} {pool : NodeAllocator V}
variable {t : BTree cfg.D} {trie : Trie Range1d V} {fp rest : Multiset ℕ}

/-- The trie changes as by the deletion of the rule. -/
abbrev DelRule (order : DimensionOrder cfg.D) (r : RuleSpec cfg.D V)
    (trie trie' : Trie Range1d V) : Prop :=
  Trie.Del Range1d.low RuleValue.invalid (r.sequence order) trie trie'

/-- What a removal leaves behind. -/
def Removed (cfg : BTreeCfg) (sh : CompressedShape) (order : DimensionOrder cfg.D)
    (r : RuleSpec cfg.D V) (trie : Trie Range1d V) (rest : Multiset ℕ) (pool : NodeAllocator V)
    (root : Option ℕ) (pool' : NodeAllocator V) : Prop :=
  ∃ trie' fp', DelRule order r trie trie' ∧ Denotes cfg sh pool'.mempool 0 (.link root) trie' fp' ∧
    Owns pool' (fp' + rest) ∧ Agree rest pool.mempool pool'.mempool ∧ pool'.ITEM_CNT = pool.ITEM_CNT

variable {order : DimensionOrder cfg.D} {r : RuleSpec cfg.D V} {path : List PathItem}
variable {root : Option ℕ}

/-- The value of the last key of the path is made invalid, when a layer follows. -/
theorem ensures_removeAlong_clear
    (hr : Route cfg sh pool.mempool order r 0 root trie fp path)
    (hlast : ∀ b ∈ path.getLast?, ((pool.mempool.get b.node).nextLevel.get b.index).isSome = true)
    (ho : Owns pool (fp + rest)) :
    Ensures E (removeAlong cfg order r path path.length root) pool
      (Removed cfg sh order r trie rest pool) := by
  obtain ⟨hnd, -, hdisj⟩ := Multiset.nodup_add.mp ho.nodup
  rcases List.eq_nil_or_concat path with rfl | ⟨pre, b, rfl⟩
  · obtain ⟨hd, hmiss⟩ := hr.of_nil
    refine Ensures.pure ⟨trie, fp, .absent fun hstrict k hk => ?_, hd, ho, .refl _ _, rfl⟩
    obtain rfl : k = rangeAt order r 0 := by
      rcases Nat.eq_zero_or_pos cfg.D with hD | hD
      · simp [RuleSpec.sequence, hD, rangesFrom] at hk
      · rw [RuleSpec.sequence_eq_append order r (n := 1) hD] at hk
        simpa [rangesFrom] using hk.symm
    exact hmiss hstrict
  · rw [List.concat_eq_append] at *
    have hlevel := hr.level_le (by simp)
    simp only [List.length_append, List.length_singleton] at hlevel ⊢
    have hlink := hlast b (by simp)
    have hb := (hr.mem_fp b (by simp)).2
    rw [removeAlong]
    refine Ensures.bind (ensures_reading (keyAt_eq order r (by omega)) ?_)
    simp only [List.getElem?_concat_length]
    refine Ensures.bind (ensures_read ?_)
    rw [if_pos hlink]
    refine Ensures.bind (ensures_update (Ensures.pure ?_))
    obtain ⟨trie', hcl, hd'⟩ := hr.cleared (pool.mempool.set b.node
      ((pool.mempool.get b.node).setValue b.index RuleValue.invalid)) hnd (by simp) hlink
      (fun j _ hjb => Store.get_set_of_ne _ _ hjb) (by
        rw [Store.get_set_self]
        exact Node.slotChanged_setValue rfl _)
    refine ⟨trie', fp, .cleared hcl, hd', ho.congr (samePool_write _ _), ?_, rfl⟩
    exact (Agree.refl _ _).set fun hbr => Multiset.disjoint_left.mp hdisj hb hbr

/-- The layers behind the first one are given back, and the first key of the path is deleted. -/
theorem ensures_removeAlong_cut {b : PathItem} (hT : 2 ≤ cfg.T)
    (hE : ∀ k p, E (.keyDoesNotExist k) p)
    (hr : Route cfg sh pool.mempool order r 0 root trie fp (b :: path))
    (hkeys : trie.keys.Pairwise fun a b => a.low < b.low) (hcompr : (pool.mempool.get b.root).isCompressed = false)
    (honly : ∀ c ∈ path, OnlyKeys pool.mempool (b :: path) c)
    (hend : ∀ c ∈ (b :: path).getLast?,
      (pool.mempool.get c.node).nextLevel.get c.index = none)
    (ho : Owns pool (fp + rest)) :
    Ensures E (removeAlong cfg order r (b :: path) (b :: path).length root) pool
      (Removed cfg sh order r trie rest pool) := by
  have hlevel := hr.level_le (by simp)
  rw [Nat.zero_add] at hlevel
  have hD : 0 < cfg.D := by
    simp only [List.length_cons] at hlevel
    omega
  generalize hpath : b :: path = path' at hr
  cases hr with
  | stop => cases hpath
  | whole _ hn =>
      rw [compressedItems, List.range'_succ, List.map_cons, List.cons_append,
        List.cons.injEq] at hpath
      obtain ⟨rfl, -⟩ := hpath
      exact absurd hn.isCompressed (by simp [hcompr])
  | @part _ root _ _ _ _ _ _ _ _ hn =>
      have : b ∈ compressedItems root 0 _ := hpath ▸ List.mem_cons_self
      obtain ⟨j, -, -, rfl⟩ := mem_compressedItems.mp this
      exact absurd hn.isCompressed (by simp [hcompr])
  | @layer _ h root m i L R x A n B fp fpA fpN fpB path' _ hL hord hk hx hA hB hr =>
      rw [List.cons.injEq] at hpath
      obtain ⟨rfl, rfl⟩ := hpath
      obtain ⟨hnd, -, -⟩ := Multiset.nodup_add.mp ho.nodup
      obtain ⟨-, hndI, hdisj⟩ := Multiset.nodup_add.mp hnd
      have hndN : fpN.Nodup := Multiset.nodup_of_le
        ((Multiset.le_add_right _ _).trans (Multiset.le_add_left _ _)) hndI
      have hroot : ∀ c ∈ fpN, c ≠ root := fun c hc h =>
        Multiset.disjoint_left.mp hdisj hL.root_mem (by simp [← h, hc])
      -- the entries of the other layers are on the rest of the path
      have honly' : ∀ c ∈ path, OnlyKeys pool.mempool path c := by
        intro c hc
        obtain ⟨hleaf, hkeys⟩ := honly c hc
        refine ⟨hleaf, fun j hj => (List.mem_cons.mp (hkeys j hj)).resolve_left fun h => ?_⟩
        exact hroot _ (hr.mem_fp c hc).1 (congrArg PathItem.root h)
      have hlink : (pool.mempool.get m).nextLevel.get i = x.nextLevel := by
        rw [← hk.getKey]
        rfl
      obtain ⟨hfil, halong⟩ : Filament pool.mempool x.nextLevel fpN path ∧
          Trie.Along (rangesFrom order r (cfg.D - 1) 1) n := by
        refine hr.filament hndN honly' (fun c hc => hend c ?_) fun hnil => ?_
        · rw [List.getLast?_cons, Option.mem_def.mp hc]
          rfl
        · subst hnil
          rw [← hlink]
          exact hend ⟨root, m, i⟩ (by simp)
      have hsum : fp + (fpA + (fpN + fpB)) + rest = fpN + (fp + (fpA + fpB + rest)) := by
        abel
      rw [hsum] at ho
      obtain ⟨-, hndI, hdisjI⟩ := Multiset.nodup_add.mp (Multiset.nodup_add.mp ho.nodup).2.1
      refine hfil.ensures_removeAlong hE (List.nil_append _).symm hlevel
        (fun c hc h => hroot c hc (Option.some.inj h)) hlink ho (by simp [hk.mem_fp])
        fun p₁ ho₁ hN₁ hother₁ hslot₁ => ?_
      rw [hk.getKey] at hslot₁
      have hL₁ := hk.replace p₁.mempool _ (fun j hj => hother₁ j (by simp [hj])) hslot₁
      have hagree₁ : Agree (fpA + fpB + rest) pool.mempool p₁.mempool := by
        intro j hj
        refine hother₁ j (Multiset.mem_add.mpr (.inr hj)) fun (hjm : j = m) => ?_
        exact Multiset.disjoint_left.mp hdisjI hk.mem_fp (hjm ▸ hj)
      have hstrict : StrictlyOrdered (L ++ { x with nextLevel := none } :: R) := by
        rw [Trie.keys_append, Trie.keys_cons, hA.keys_eq, hB.keys_eq] at hkeys
        rw [StrictlyOrdered, ← List.pairwise_map (f := KeyInfo.key) (R := fun a b => a.low < b.low)]
        simpa using hkeys
      rw [removeAlong]
      refine Ensures.bind (ensures_reading (keyAt_eq order r hD) ?_)
      simp only [List.length_nil, List.getElem?_cons_zero]
      refine Ensures.bind (ensures_read ?_)
      have hcut : (p₁.mempool.get m).nextLevel.get i = none := by
        have := congrArg KeyInfo.nextLevel (hslot₁.getKey i)
        simpa [Node.getKey] using this
      simp only [hcut, Option.isSome_none, Bool.false_eq_true, if_false]
      refine Ensures.bind ((ensures_remove1d hT hL₁ hstrict ⟨{ x with nextLevel := none }, by simp, hx⟩
        ho₁).mono ?_)
      rintro newRoot p' ⟨fp', ho', hagree', hN', hroot'⟩
      rw [if_pos trivial]
      refine Ensures.pure ?_
      have hwithout : without (rangeAt order r 0) (L ++ { x with nextLevel := none } :: R) = L ++ R := by
        rw [← hx]
        exact hstrict.without
      rw [hwithout] at hroot'
      have hagree := hagree₁.trans hagree'
      have hitems : Denotes cfg sh p'.mempool 0 (.items (L ++ R)) (A.append B) (fpA + fpB) :=
        ((hA.append hB).frame (hagree.mono (Multiset.le_add_right _ _)))
      have hdel : DelRule order r (A.append (.cons x.key x.value n B)) (A.append B) := by
        refine .cut ?_ halong
        rw [hx, RuleSpec.sequence_eq_append order r (n := 1) hD]
        rfl
      have hrest := hagree.mono (Multiset.le_add_left rest (fpA + fpB))
      cases newRoot with
      | none =>
          obtain ⟨hLR, rfl⟩ := hroot'
          rw [hLR] at hitems
          obtain ⟨hnil, hfp⟩ := hitems.of_items_nil
          rw [hnil] at hdel
          refine ⟨.nil, 0, hdel, .null, ?_, hrest, hN'.trans hN₁⟩
          rwa [hfp, zero_add] at ho'
      | some root' =>
          obtain ⟨hne, h', hL'⟩ := hroot'
          refine ⟨A.append B, fp' + (fpA + fpB), hdel, .layer hD hL' hne ?_ hitems, ?_, hrest,
            hN'.trans hN₁⟩
          · exact hord.sublist ((List.sublist_cons_self x R).append_left L)
          · rwa [add_assoc]

/-- `remove` deletes the rule from the trie, where what it takes apart belongs to the path, and the
first layer has no two ranges that begin at the same value. -/
theorem BTree.ensures_remove_of_denotes (hT : 2 ≤ cfg.T) (hE : ∀ k p, E (.keyDoesNotExist k) p)
    (ht : Denotes cfg sh pool.mempool 0 (.link t.root) trie fp)
    (hkeys : trie.keys.Pairwise fun a b => a.low < b.low)
    (hclean : ∀ path, searchPath pool.mempool t.dimensionOrder r (callDepth cfg pool)
      (callDepth cfg pool) t.root 0 = .ok path → Removable pool.mempool path)
    (ho : Owns pool (fp + rest)) :
    Ensures E (t.remove cfg r) pool fun t' pool' => ∃ trie' fp',
      DelRule t.dimensionOrder r trie trie' ∧
        Denotes cfg sh pool'.mempool 0 (.link t'.root) trie' fp' ∧
          Owns pool' (fp' + rest) ∧ Agree rest pool.mempool pool'.mempool ∧
            pool'.ITEM_CNT = pool.ITEM_CNT ∧ t'.dimensionOrder = t.dimensionOrder := by
  have hcard := ho.card_le
  rw [Multiset.card_add] at hcard
  have hnd : fp.Nodup := Multiset.nodup_of_le (Multiset.le_add_right _ _) ho.nodup
  have hdepth : fp.card ≤ callDepth cfg pool := by
    simp only [callDepth]
    omega
  have hfuel : cfg.D < 0 + callDepth cfg pool := by
    simp only [callDepth]
    omega
  obtain ⟨path, hpath⟩ := exists_searchPath t.dimensionOrder r (callDepth cfg pool) ht hnd hdepth
    hfuel
  have hr := ht.route hnd hdepth hpath
  refine Ensures.bind (Ensures.get (Ensures.bind (ensures_reading hpath ?_)))
  have hmain : Ensures E (removeAlong cfg t.dimensionOrder r path path.length t.root) pool
      (Removed cfg sh t.dimensionOrder r trie rest pool) := by
    by_cases hlast : ∀ b ∈ path.getLast?,
        ((pool.mempool.get b.node).nextLevel.get b.index).isSome = true
    · exact ensures_removeAlong_clear hr hlast ho
    · obtain ⟨hhead, htail⟩ := (hclean path hpath).resolve_left hlast
      cases path with
      | nil => simp at hlast
      | cons b path =>
          refine ensures_removeAlong_cut hT hE hr hkeys (hhead b rfl) htail (fun c hc => ?_) ho
          simp only [not_forall] at hlast
          obtain ⟨c', hc', hnone⟩ := hlast
          obtain rfl := Option.some.inj ((Option.mem_def.mp hc).symm.trans hc')
          simpa using hnone
  refine Ensures.bind (hmain.mono ?_)
  rintro root pool' ⟨trie', fp', hdel, hd, ho', hagree, hN⟩
  exact Ensures.pure ⟨trie', fp', hdel, hd, ho', hagree, hN, rfl⟩

/-- In a separated trie, `remove` deletes the rule where what it takes apart belongs to the path. -/
theorem BTree.ensures_remove (hT : 2 ≤ cfg.T) (hE : ∀ k p, E (.keyDoesNotExist k) p)
    (ht : t.Holds cfg pool trie fp) (hsep : trie.Separated Range1d.Before)
    (hclean : ∀ path, searchPath pool.mempool t.dimensionOrder r (callDepth cfg pool)
      (callDepth cfg pool) t.root 0 = .ok path → Removable pool.mempool path)
    (ho : Owns pool (fp + rest)) :
    Ensures E (t.remove cfg r) pool fun t' pool' => ∃ trie' fp',
      DelRule t.dimensionOrder r trie trie' ∧ t'.Holds cfg pool' trie' fp' ∧
        Owns pool' (fp' + rest) ∧ Agree rest pool.mempool pool'.mempool ∧
          pool'.ITEM_CNT = pool.ITEM_CNT ∧ t'.dimensionOrder = t.dimensionOrder := by
  have hkeys := hsep.pairwise.imp fun {a b} (h : Range1d.Before a b) => h.low_lt
  refine (BTree.ensures_remove_of_denotes hT hE ht hkeys hclean ho).mono ?_
  rintro t' pool' ⟨trie', fp', hdel, hd, ho', hagree, hN, hord⟩
  exact ⟨trie', fp', hdel, by rwa [BTree.Holds, hord], ho', hagree, hN, hord⟩

end Remove

end Pcv
