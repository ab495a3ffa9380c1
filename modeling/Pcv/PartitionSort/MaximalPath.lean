import Pcv.Library.MaximalChain
import Pcv.PartitionSort.Decompression
import Pcv.PartitionSort.Route

/-!
# The path is a maximal chain of keys

`PathItem.Below` says which keys lie one level below a key: the next one of a compressed node, and
those of the next layer.  `searchPath` follows this relation from key to key, as long as it finds
the range of the rule, from any level of a valid tree.
-/

namespace Pcv

open BTreeSearch DynamicMempool
open Store (Agree)

variable {V : Type}

/-- The nodes of the B-tree of one layer: what links to children lead to. -/
inductive NodeOfLayer (mem : Store (Node V)) (root : ℕ) : ℕ → Prop
  | root : NodeOfLayer mem root root
  | child {n i c : ℕ} : NodeOfLayer mem root n → (mem.get n).isLeaf = false →
      i ≤ (mem.get n).keyCnt → (mem.get n).childIndex.get i = some c → NodeOfLayer mem root c

namespace BTreeSearch.PathItem

/-- The entry names a key of the layer with the given root.  The keys of a compressed root behind
the first one are at deeper levels. -/
structure InLayer (mem : Store (Node V)) (root : ℕ) (e : PathItem) : Prop where
  root_eq : e.root = root
  node : NodeOfLayer mem root e.node
  index_lt : e.index < (mem.get e.node).keyCnt
  first : (mem.get root).isCompressed = true → e.index = 0

/-- The second entry names a key one level below the key of the first entry: the next position of
a compressed node, or a key of the next layer. -/
inductive Below (mem : Store (Node V)) (e : PathItem) : PathItem → Prop
  | position : (mem.get e.node).isCompressed = true → e.index + 1 < (mem.get e.node).keyCnt →
      Below mem e ⟨e.root, e.node, e.index + 1⟩
  | layer {root : ℕ} {e' : PathItem} : (mem.get e.node).nextLevel.get e.index = some root →
      InLayer mem root e' → Below mem e e'

/-- The entry names a key equal to the range of the rule at the level. -/
def Matches {D : ℕ} (mem : Store (Node V)) (order : DimensionOrder D) (rule : RuleSpec D V)
    (lvl : ℕ) (e : PathItem) : Prop :=
  ∃ d, order[lvl]? = some d ∧ ((mem.get e.node).getKey e.index).key = rule.first.get d

end BTreeSearch.PathItem

/-- The keys equal to the ranges of the rule from level `start` on, one below the other, from the
layer with the root `link` on as far as there are such keys. -/
abbrev MaximalPath {D : ℕ} (mem : Store (Node V)) (order : DimensionOrder D) (rule : RuleSpec D V)
    (start : ℕ) (link : Option ℕ) : List PathItem → Prop :=
  MaximalChain (PathItem.Below mem) (PathItem.Matches mem order rule)
    (fun e => ∃ root, link = some root ∧ e.InLayer mem root) start

variable {cfg : BTreeCfg} {sh : CompressedShape} {mem : Store (Node V)} {lvl : ℕ}
variable {t : Trie Range1d V} {fp rest : Multiset ℕ} {link : Option ℕ} {path : List PathItem}
variable {order : DimensionOrder cfg.D} {rule : RuleSpec cfg.D V}

theorem BTreeSearch.PathItem.matches_iff {e : PathItem} (hlvl : lvl < cfg.D) :
    e.Matches mem order rule lvl ↔
      ((mem.get e.node).getKey e.index).key = rangeAt order rule lvl := by
  simp [PathItem.Matches, rangeAt, hlvl]

/-! ## The nodes of a layer -/

namespace NodeOfLayer

/-- What a child of the root leads to. -/
theorem of_child {root i c n : ℕ} (hleaf : (mem.get root).isLeaf = false)
    (hi : i ≤ (mem.get root).keyCnt) (hc : (mem.get root).childIndex.get i = some c)
    (h : NodeOfLayer mem c n) : NodeOfLayer mem root n := by
  induction h with
  | root => exact .child .root hleaf hi hc
  | child _ hleaf' hi' hc' ih => exact .child ih hleaf' hi' hc'

theorem eq_or_child {root n : ℕ} (h : NodeOfLayer mem root n) :
    n = root ∨ (mem.get root).isLeaf = false ∧ ∃ i c, i ≤ (mem.get root).keyCnt ∧
      (mem.get root).childIndex.get i = some c ∧ NodeOfLayer mem c n := by
  induction h with
  | root => exact .inl rfl
  | child _ hleaf hi hc ih =>
      rcases ih with rfl | ⟨hroot, j, d, hj, hd, hn⟩
      · exact .inr ⟨hleaf, _, _, hi, hc, .root⟩
      · exact .inr ⟨hroot, j, d, hj, hd, .child hn hleaf hi hc⟩

end NodeOfLayer

/-- The footprint of a layer lies within its B-tree. -/
theorem Layer.nodeOfLayer {h : ℕ} {par : Option ℕ} {n m : ℕ} {its : List (KeyInfo V)}
    (hL : Layer cfg mem h par n its fp) (hm : m ∈ fp) : NodeOfLayer mem n m := by
  induction h generalizing par n its fp with
  | zero =>
      obtain ⟨-, -, rfl⟩ := hL
      obtain rfl : m = n := by simpa using hm
      exact .root
  | succ h ih =>
      obtain ⟨ks, cs, fp', hnode, -, -, hch, rfl⟩ := hL
      rcases Multiset.mem_cons.mp hm with rfl | hm
      · exact .root
      · obtain ⟨c, hc, its', fp₀, hchild, hm⟩ := hch.exists_of_mem_fp hm
        obtain ⟨i, hi, rfl⟩ := List.getElem_of_mem hc
        have hlen := hch.length_eq
        have hlink := hnode.child i hi
        rw [List.getElem?_eq_getElem hi] at hlink
        exact .of_child hnode.isLeaf (by rw [hnode.keyCnt]; omega) hlink.symm (ih hchild.1 hm)

/-- The keys of the B-tree are the keys of the layer. -/
theorem Layer.getKey_mem {h : ℕ} {par : Option ℕ} {n m i : ℕ} {its : List (KeyInfo V)}
    (hL : Layer cfg mem h par n its fp) (hm : NodeOfLayer mem n m) (hi : i < (mem.get m).keyCnt) :
    (mem.get m).getKey i ∈ its := by
  induction h generalizing par n its fp with
  | zero =>
      obtain ⟨hleaf, -, -⟩ := hL
      rcases hm.eq_or_child with rfl | ⟨hnot, -⟩
      · exact List.mem_of_getElem? (hleaf.getKey i (hleaf.keyCnt ▸ hi))
      · simp [hleaf.isLeaf] at hnot
  | succ h ih =>
      obtain ⟨ks, cs, fp', hnode, -, -, hch, rfl⟩ := hL
      rcases hm.eq_or_child with rfl | ⟨-, j, c, hj, hc, hm⟩
      · exact hch.subset (List.mem_of_getElem? (hnode.getKey i (hnode.keyCnt ▸ hi)))
      · have hlen : j < cs.length := by
          rw [hch.length_eq, ← hnode.keyCnt]
          omega
        have hmem : c ∈ cs := List.mem_of_getElem? ((hnode.child j hlen).trans hc)
        obtain ⟨its', fp₀, -, hchild, hsub⟩ := hch.exists_of_mem hmem
        exact hsub _ (ih hchild.1 hm)

/-- An entry for a layer names one of its keys. -/
theorem Denotes.key_mem {root : ℕ} {e : PathItem}
    (hd : Denotes cfg sh mem lvl (.link (some root)) t fp) (he : e.InLayer mem root) :
    ((mem.get e.node).getKey e.index).key ∈ t.keys := by
  cases hd with
  | layer _ hL _ _ hits =>
      rw [hits.keys_eq]
      exact List.mem_map_of_mem (hL.getKey_mem he.node he.index_lt)
  | @compressed _ _ init last next fp _ hn _ =>
      have hnode : e.node = root := by
        rcases he.node.eq_or_child with h | ⟨hnot, -⟩
        · exact h
        · simp [hn.isLeaf] at hnot
      have hkey := hn.getKey 0 (by omega)
      rw [hnode, he.first hn.isCompressed]
      cases init with
      | nil => simp_all [thread]
      | cons x init => simp_all [thread]

/-- Where the search misses the range, no entry matches. -/
theorem Denotes.not_matches (hd : Denotes cfg sh mem lvl (.link link) t fp)
    (hsep : t.Separated Range1d.Before) (hmiss : Misses (rangeAt order rule lvl) t)
    {root : ℕ} {e : PathItem} (hlink : link = some root) (he : e.InLayer mem root) :
    ¬ e.Matches mem order rule lvl := by
  subst hlink
  rw [PathItem.matches_iff hd.level_lt]
  intro hkey
  exact hmiss (hsep.pairwise.imp Range1d.Before.low_lt) (hkey ▸ hd.key_mem he)

/-! ## The path through a compressed node -/

/-- The entries of a compressed node in front of a chain from the last of them. -/
theorem Node.CompressedNode.maximalChain {root i : ℕ} {init : List (KeyInfo V)}
    {last : KeyInfo V} {first : PathItem → Prop} (cnt : ℕ)
    (hn : (mem.get root).CompressedNode cfg sh lvl init last)
    (hkeys : ∀ j ≤ cnt, PathItem.Matches mem order rule (lvl + (i + j)) ⟨root, root, i + j⟩)
    (hcnt : i + cnt < (mem.get root).keyCnt) (hfirst : first ⟨root, root, i⟩)
    (h : MaximalChain (PathItem.Below mem) (PathItem.Matches mem order rule)
      (PathItem.Below mem ⟨root, root, i + cnt⟩) (lvl + (i + cnt + 1)) path) :
    MaximalChain (PathItem.Below mem) (PathItem.Matches mem order rule) first (lvl + i)
      (compressedItems root i (cnt + 1) ++ path) := by
  induction cnt generalizing i first with
  | zero => exact .cons hfirst (hkeys 0 le_rfl) h
  | succ cnt ih =>
      have hnext : PathItem.Below mem ⟨root, root, i⟩ ⟨root, root, i + 1⟩ :=
        .position hn.isCompressed (by simp only; omega)
      refine .cons hfirst (hkeys 0 (Nat.zero_le _)) (ih ?_ (by omega) hnext ?_)
      · intro j hj
        have := hkeys (j + 1) (by omega)
        rwa [Nat.add_comm j, ← Nat.add_assoc i] at this
      · rwa [Nat.add_right_comm i 1, Nat.add_assoc i cnt 1]

/-- Behind the last key of a compressed node comes the next layer. -/
theorem Node.CompressedNode.below_last {root : ℕ} {init : List (KeyInfo V)} {last : KeyInfo V}
    (hn : (mem.get root).CompressedNode cfg sh lvl init last) (e : PathItem) :
    PathItem.Below mem ⟨root, root, init.length⟩ e ↔
      ∃ r, last.nextLevel = some r ∧ e.InLayer mem r := by
  have hlink : (mem.get root).nextLevel.get init.length = last.nextLevel := by
    have hkey := hn.getKey init.length (by omega)
    rw [List.getElem?_append_right le_rfl] at hkey
    simp only [Nat.sub_self, List.getElem?_cons_zero, Option.some.injEq] at hkey
    rw [hkey]
    rfl
  constructor
  · rintro (⟨-, hlt⟩ | ⟨hr, he⟩)
    · simp only [hn.keyCnt] at hlt
      omega
    · exact ⟨_, hlink.symm.trans hr, he⟩
  · rintro ⟨r, hr, he⟩
    exact .layer (hlink.trans hr) he

/-- Behind another key of a compressed node comes the next position. -/
theorem Node.CompressedNode.eq_of_below {root i : ℕ} {init : List (KeyInfo V)} {last : KeyInfo V}
    {e : PathItem} (hn : (mem.get root).CompressedNode cfg sh lvl init last) (hi : i < init.length)
    (he : PathItem.Below mem ⟨root, root, i⟩ e) : e = ⟨root, root, i + 1⟩ := by
  rcases he with ⟨-, -⟩ | ⟨hr, -⟩
  · rfl
  · have hkey := hn.getKey i (by omega)
    rw [List.getElem?_append_left hi] at hkey
    have hnone : (mem.get root).nextLevel.get i = none :=
      hn.nextLevel _ (List.mem_of_getElem? hkey)
    simp [hnone] at hr

/-! ## The whole path -/

/-- The keys of a compressed node that a route passes match. -/
theorem Node.CompressedNode.matches_of_map {root cnt : ℕ} {init xs ys : List (KeyInfo V)}
    {last : KeyInfo V} (hn : (mem.get root).CompressedNode cfg sh lvl init last)
    (hlvl : lvl + init.length < cfg.D) (hxs : init ++ [last] = xs ++ ys)
    (hkeys : xs.map KeyInfo.key = rangesFrom order rule xs.length lvl)
    (hcnt : cnt + 1 = xs.length) :
    ∀ j ≤ cnt, PathItem.Matches mem order rule (lvl + (0 + j)) ⟨root, root, 0 + j⟩ := by
  intro j hj
  have hlen : (init ++ [last]).length = (xs ++ ys).length := congrArg List.length hxs
  simp only [List.length_append, List.length_singleton] at hlen
  rw [Nat.zero_add, PathItem.matches_iff (by omega)]
  have hkey := hn.getKey j (by omega)
  rw [hxs, List.getElem?_append_left (by omega)] at hkey
  have hrange := getElem?_rangesFrom order rule (show j < xs.length by omega) lvl
  rw [← hkeys, List.getElem?_map, hkey] at hrange
  exact Option.some.inj hrange

/-- A route passes a maximal chain of keys. -/
theorem Route.maximalPath (hr : Route cfg sh mem order rule lvl link t fp path)
    (hsep : t.Separated Range1d.Before) : MaximalPath mem order rule lvl link path := by
  induction hr with
  | stop hd hmiss =>
      refine .nil ?_
      rintro e ⟨root, hlink, he⟩
      exact hd.not_matches hsep hmiss hlink he
  | @layer lvl h root m i L R x A n B fp fpA fpN fpB path hlvl hL ho hk hx hA hB hrest ih =>
      have hnext : ∀ e, (∃ r, x.nextLevel = some r ∧ e.InLayer mem r) ↔
          PathItem.Below mem ⟨root, m, i⟩ e := by
        intro e
        have hlink : (mem.get m).nextLevel.get i = x.nextLevel := by
          rw [← hk.getKey]
          rfl
        constructor
        · rintro ⟨r, hr, he⟩
          exact .layer (hlink.trans hr) he
        · rintro (⟨hcompr, -⟩ | ⟨hr, he⟩)
          · simp [hk.isCompressed] at hcompr
          · exact ⟨_, hlink.symm.trans hr, he⟩
      refine .cons ⟨root, rfl, rfl, hL.nodeOfLayer hk.mem_fp, hk.index_lt, ?_⟩ ?_
        ((ih (Trie.separated_append.mp hsep).2.1.2.1).congr_first hnext)
      · simp [hL.isCompressed]
      · rw [PathItem.matches_iff hlvl, hk.getKey, hx]
  | @whole lvl root init last next fp path hlvl hn hkeys hrest ih =>
      have htail := (ih (separated_of_thread _ hsep)).congr_first fun e => (hn.below_last e).symm
      have hcnt := hn.keyCnt
      refine hn.maximalChain init.length
        (hn.matches_of_map hlvl (List.append_nil _).symm (by simpa using hkeys) (by simp))
        (by omega) ⟨root, rfl, rfl, .root, by simp only; omega, fun _ => rfl⟩ ?_
      rwa [Nat.zero_add, ← Nat.add_assoc]
  | @part lvl root init xs ys last y next fp hlvl hn hits hne hkeys hy hnext =>
      obtain ⟨cnt, hcnt⟩ : ∃ cnt, cnt + 1 = xs.length :=
        ⟨xs.length - 1, Nat.sub_add_cancel (List.length_pos_iff.mpr hne)⟩
      have hlen : init.length = xs.length + ys.length := by
        have := congrArg List.length hits
        simp at this
        omega
      -- The only key behind the last one that matches is `y`, and it does not match.
      have hend : MaximalPath mem order rule lvl (some root)
          (compressedItems root 0 (cnt + 1) ++ []) := by
        refine hn.maximalChain cnt (hn.matches_of_map hlvl hits hkeys hcnt)
          (by rw [hn.keyCnt]; omega)
          ⟨root, rfl, rfl, .root, by simp only [hn.keyCnt]; omega, fun _ => rfl⟩
          (.nil fun e he hmatch => ?_)
        rw [Nat.zero_add] at he hmatch
        obtain rfl := hn.eq_of_below (by omega) he
        have hkey := hn.getKey xs.length (by omega)
        rw [hits, List.getElem?_append_right le_rfl] at hkey
        simp only [Nat.sub_self, List.getElem?_cons_zero, Option.some.injEq] at hkey
        rw [PathItem.matches_iff (by omega), hcnt, ← hkey] at hmatch
        exact hy hmatch
      rwa [List.append_nil, hcnt] at hend

/-- `search_path` returns the maximal chain of keys equal to the ranges of the rule. -/
theorem searchPath_maximalPath [RuleValue V] {pool : NodeAllocator V} {start : ℕ}
    (rule : RuleSpec cfg.D V)
    (hd : Denotes cfg (.ofOrder order) pool.mempool start (.link link) t fp)
    (hsep : t.Separated Range1d.Before) (ho : Owns pool (fp + rest)) :
    ∃ path,
      searchPath pool.mempool order rule (callDepth cfg pool) (callDepth cfg pool) link start =
        .ok path ∧ MaximalPath pool.mempool order rule start link path := by
  have hcard := ho.card_le
  rw [Multiset.card_add] at hcard
  have hnd := Multiset.nodup_of_le (Multiset.le_add_right _ _) ho.nodup
  have hdepth : fp.card ≤ callDepth cfg pool := by
    simp only [callDepth]
    omega
  have hfuel : cfg.D < start + callDepth cfg pool := by
    simp only [callDepth]
    omega
  obtain ⟨path, hpath⟩ := exists_searchPath order rule (callDepth cfg pool) hd hnd hdepth hfuel
  exact ⟨path, hpath, (hd.route hnd hdepth hpath).maximalPath hsep⟩

/-- A rule that shares the first range of `twoKeys` only. -/
def firstRangeOnly : RuleSpec smallCfg.D RuleValueInt := ⟨#v[⟨1, 2⟩, ⟨5, 7⟩], RuleValueInt.make 1 1⟩

theorem searchPath_maximalPath_twoKeys :
    ∃ path, searchPath twoKeys.mempool (BTree.identityOrder 2) firstRangeOnly
        (callDepth smallCfg twoKeys) (callDepth smallCfg twoKeys) (some 0) 0 = .ok path ∧
      MaximalPath twoKeys.mempool (BTree.identityOrder 2) firstRangeOnly 0 (some 0) path :=
  searchPath_maximalPath _ denotes_twoKeys (by simp [thread, Trie.Separated]) owns_twoKeys

end Pcv
