import Pcv.PartitionSort.LayeredBTree
import Pcv.PartitionSort.SingleLayer

/-!
# Cutting a compressed node keeps what it means

After `decompressNode` the keys of the node lie in one, two or three nodes, which `Pieces` walks
through from key to key as the old node did.  The trie below the root is the same, so a search
that goes on from the node has the same result.
-/

namespace Pcv

open DynamicMempool BTreeInsert BTreeSearch
open Store (Agree)

variable {V : Type} {cfg : BTreeCfg} {sh : CompressedShape}

/-- The node `nd` holds the `cnt` keys of `old` from slot `off` on, with their values; the last
one leads to `link`.  It is compressed exactly if it has more than one key, and then the fields
of the keys are those of `old`. -/
structure Node.Piece (old nd : Node V) (off cnt : ℕ) (link : Option ℕ) : Prop where
  pos : 0 < cnt
  keyCnt : nd.keyCnt = cnt
  getKey : ∀ i < cnt, nd.getKey i =
    ⟨(old.getKey (off + i)).key, (old.getKey (off + i)).value,
      if i + 1 = cnt then link else none⟩
  isCompressed : nd.isCompressed = decide (1 < cnt)
  dim : nd.isCompressed = true → ∀ i < cnt, nd.getDim i = old.getDim (off + i)

/-- The nodes hold the keys of `old` from slot `off` on, one piece behind the other, and the last
key has the next layer it had in `old`. -/
inductive Pieces (mem : Store (Node V)) (old : Node V) : ℕ → Option ℕ → List ℕ → Prop
  | done : Pieces mem old old.keyCnt (old.getKey (old.keyCnt - 1)).nextLevel []
  | piece {off cnt n : ℕ} {next : Option ℕ} {ns : List ℕ} :
      old.Piece (mem.get n) off cnt next → Pieces mem old (off + cnt) next ns →
      Pieces mem old off (some n) (n :: ns)

/-- The fields of a compressed node are determined by the order. -/
theorem CompressedShape.dim_unique {D : ℕ} {order : DimensionOrder D} {lvl d d' : ℕ}
    (h : (CompressedShape.ofOrder order).dim lvl d)
    (h' : (CompressedShape.ofOrder order).dim lvl d') : d = d' := by
  obtain ⟨f, hf, rfl⟩ := h
  obtain ⟨f', hf', rfl⟩ := h'
  rw [hf, Option.some.injEq] at hf'
  rw [hf']

/-- A run that holds some of the keys of another one is a piece of it. -/
theorem Node.Run.piece {order : DimensionOrder cfg.D} {old nd : Node V} {lvl off : ℕ}
    {ks : List (KeyInfo V)} (xs ys zs : List (KeyInfo V)) {link link' : Option ℕ}
    (hold : old.Run cfg (.ofOrder order) lvl ks link') (hks : ks = xs ++ (ys ++ zs))
    (hoff : xs.length = off) (hnd : nd.Run cfg (.ofOrder order) (lvl + off) ys link) :
    old.Piece nd off ys.length link where
  pos := List.length_pos_iff.mpr hnd.ne_nil
  keyCnt := hnd.keyCnt
  getKey := by
    intro i hi
    have hy : ys[i]? = some ys[i] := List.getElem?_eq_getElem hi
    have hx : ks[off + i]? = some ys[i] := by
      rw [hks, List.getElem?_append_right (by omega), List.getElem?_append_left (by omega), ← hoff,
        Nat.add_sub_cancel_left, hy]
    rw [hnd.getKey i _ hy, hold.getKey (off + i) _ hx]
  isCompressed := hnd.isCompressed
  dim := by
    intro hc i hi
    have hlen : 1 < ys.length := by simpa [hnd.isCompressed] using hc
    have hnew := hnd.dim hlen i hi
    rw [Nat.add_assoc] at hnew
    refine CompressedShape.dim_unique hnew (hold.dim ?_ (off + i) ?_)
    all_goals
      simp only [hks, List.length_append]
      omega

/-- The pieces end with the last key of a run. -/
theorem Node.Run.pieces_done {old : Node V} {lvl off : ℕ} {mem : Store (Node V)}
    {ks : List (KeyInfo V)} {link : Option ℕ} (hold : old.Run cfg sh lvl ks link)
    (hoff : off = ks.length) : Pieces mem old off link [] := by
  have hpos : 0 < ks.length := List.length_pos_iff.mpr hold.ne_nil
  have hlast : (old.getKey (old.keyCnt - 1)).nextLevel = link := by
    rw [hold.keyCnt, hold.getKey (ks.length - 1) _ (List.getElem?_eq_getElem (by omega))]
    exact if_pos (by omega)
  rw [hoff, ← hold.keyCnt, ← hlast]
  exact .done

variable [RuleValue V] {p p' : NodeAllocator V} {root lvl index : ℕ} {link : Option ℕ}
variable {t : Trie Range1d V} {fp fpN rest : Multiset ℕ}

/-- What separating a key of a node leaves behind: `r` is the root of a layer with this key
alone, one of the pieces of the node, and the trie below the root is the same. -/
structure Separates (cfg : BTreeCfg) (order : DimensionOrder cfg.D) (p : NodeAllocator V)
    (lvl root index : ℕ) (t : Trie Range1d V) (rest : Multiset ℕ) (r : ℕ)
    (p' : NodeAllocator V) : Prop where
  pieces : ∃ front back, (front ++ r :: back).Nodup ∧ (front ++ r :: back).length ≤ 3 ∧
    Pieces p'.mempool (p.mempool.get root) 0 (some root) (front ++ r :: back) ∧
      Pieces p'.mempool (p.mempool.get root) index (some r) (r :: back)
  alone : (p'.mempool.get r).keyCnt = 1
  denotes : ∃ fp', Denotes cfg (.ofOrder order) p'.mempool lvl (.link (some root)) t fp' ∧
    Owns p' (fp' + rest)
  frame : Agree rest p.mempool p'.mempool

/-- For every packet, and every match found so far, a search that goes on with a link at a level
has the same result in both pools. -/
def SearchedAlike (cfg : BTreeCfg) (order : DimensionOrder cfg.D) (lvl : ℕ) (link : Option ℕ)
    (p p' : NodeAllocator V) : Prop :=
  ∀ val res,
    searchFrom p'.mempool order val (callDepth cfg p') (callDepth cfg p') link lvl res =
      searchFrom p.mempool order val (callDepth cfg p) (callDepth cfg p) link lvl res

/-- Links that lead to one trie are searched alike. -/
theorem Denotes.searchedAlike {order : DimensionOrder cfg.D} {fp' : Multiset ℕ}
    (hd : Denotes cfg (.ofOrder order) p.mempool lvl (.link link) t fp)
    (hd' : Denotes cfg (.ofOrder order) p'.mempool lvl (.link link) t fp')
    (hsep : t.Separated Range1d.Before) (ho : Owns p (fp + rest)) (ho' : Owns p' (fp' + rest)) :
    SearchedAlike cfg order lvl link p p' := by
  intro val res
  have hcard := ho.card_le
  have hcard' := ho'.card_le
  rw [Multiset.card_add] at hcard hcard'
  have hnd := Multiset.nodup_of_le (Multiset.le_add_right _ _) ho.nodup
  have hnd' := Multiset.nodup_of_le (Multiset.le_add_right _ _) ho'.nodup
  rw [searchFrom_eq hd hnd (by simp only [callDepth]; omega) hsep
      (by simp only [callDepth]; omega),
    searchFrom_eq hd' hnd' (by simp only [callDepth]; omega) hsep
      (by simp only [callDepth]; omega)]

variable {order : DimensionOrder cfg.D} {next : Trie Range1d V}

/-- Separating the first key. -/
theorem ensures_separates_first {x : KeyInfo V} {xs : List (KeyInfo V)} (hT : 2 ≤ cfg.T)
    (hxs : xs ≠ []) (hlvl : lvl + (x :: xs).length ≤ cfg.D)
    (hr : (p.mempool.get root).Run cfg (.ofOrder order) lvl (x :: xs) link)
    (hnext : Denotes cfg (.ofOrder order) p.mempool (lvl + (x :: xs).length) (.link link) next fpN)
    (ho : Owns p (root ::ₘ (fpN + rest))) :
    Ensures OnlyBadAlloc (decompressNode cfg root 0) p
      (Separates cfg order p lvl root 0 (thread (x :: xs) next) rest) := by
  refine ensures_decompressNode_zero (fun _ => rfl) hxs hr ho ?_
  intro p' nl ho' _ hroot hnl hagree
  rw [List.length_cons] at hlvl hnext
  have hnext' := hnext.frame (hagree.mono (Multiset.le_add_right _ _))
  rw [Nat.add_comm xs.length, ← Nat.add_assoc] at hnext'
  have hback := Denotes.of_run hT le_rfl (by omega) hnl hnext'
  have hfront := Denotes.of_run hT le_rfl (by simp; omega) hroot hback
  have hpieces : Pieces p'.mempool (p.mempool.get root) 0 (some root) [root, nl] := by
    refine .piece (hr.piece [] [x] xs rfl rfl hroot) (.piece (hr.piece [x] xs [] ?_ rfl hnl) ?_)
    · simp
    · exact hr.pieces_done (by simp; omega)
  have hne : root ≠ nl := fun h => by simpa [h] using (Multiset.nodup_cons.mp ho'.nodup).1
  refine ⟨⟨[], [nl], by simpa using hne, by simp, hpieces, hpieces⟩, hroot.keyCnt, ⟨_, hfront, ?_⟩,
    hagree.mono (Multiset.le_add_left _ _)⟩
  simpa using ho'

/-- Separating a key behind the first. -/
theorem ensures_separates {xs ys : List (KeyInfo V)} {y : KeyInfo V} (hT : 2 ≤ cfg.T)
    (hxs : xs ≠ []) (hlvl : lvl + (xs ++ y :: ys).length ≤ cfg.D)
    (hr : (p.mempool.get root).Run cfg (.ofOrder order) lvl (xs ++ y :: ys) link)
    (hnext : Denotes cfg (.ofOrder order) p.mempool (lvl + (xs ++ y :: ys).length) (.link link) next
      fpN)
    (ho : Owns p (root ::ₘ (fpN + rest))) :
    Ensures OnlyBadAlloc (decompressNode cfg root xs.length) p
      (Separates cfg order p lvl root xs.length (thread (xs ++ y :: ys) next) rest) := by
  refine ensures_decompressNode (fun _ => rfl) hT hxs hr ho ?_
  intro p' nl l fp ho' _ hroot hnl hback hagree
  have hlen : (xs ++ y :: ys).length = xs.length + 1 + ys.length := by
    simp only [List.length_append, List.length_cons]
    omega
  rw [hlen] at hlvl hnext
  have hnext' := hnext.frame (hagree.mono (Multiset.le_add_right _ _))
  -- The keys behind the separated one have a node of their own, or there are none.
  obtain ⟨back, rfl, hcnt, hpieces, hdenotes⟩ : ∃ back : List ℕ, fp = back ∧ back.length ≤ 1 ∧
      Pieces p'.mempool (p.mempool.get root) (xs.length + 1) l back ∧
        Denotes cfg (.ofOrder order) p'.mempool (lvl + xs.length + 1) (.link l) (thread ys next)
          (↑back + fpN) := by
    rcases hback with ⟨rfl, rfl, rfl⟩ | ⟨nnl, rfl, rfl, hnnl⟩
    · refine ⟨[], rfl, by simp, hr.pieces_done (by simp), ?_⟩
      simpa [thread, Nat.add_assoc] using hnext'
    · refine ⟨[nnl], rfl, by simp, .piece (hr.piece (xs ++ [y]) ys [] ?_ ?_ hnnl)
        (hr.pieces_done hlen.symm), ?_⟩
      · simp
      · simp
      · rw [← Nat.add_assoc, ← Nat.add_assoc] at hnext'
        simpa using Denotes.of_run hT le_rfl (by omega) hnnl hnext'
  have halone := Denotes.of_run hT le_rfl (by simp; omega) hnl hdenotes
  have hall := Denotes.of_run hT le_rfl (by omega) hroot halone
  have hseparated : Pieces p'.mempool (p.mempool.get root) xs.length (some nl) (nl :: back) :=
    .piece (hr.piece xs [y] ys rfl rfl hnl) hpieces
  have hfront : Pieces p'.mempool (p.mempool.get root) 0 (some root) ([root] ++ nl :: back) := by
    refine .piece (hr.piece [] xs (y :: ys) rfl rfl hroot) ?_
    rwa [Nat.zero_add]
  have hnodup : (root :: nl :: back).Nodup :=
    Multiset.coe_nodup.mp (Multiset.nodup_of_le (Multiset.cons_le_cons _
      (Multiset.cons_le_cons _ (Multiset.le_add_right _ _))) ho'.nodup)
  have hlength : ([root] ++ nl :: back).length ≤ 3 := by
    simp only [List.length_append, List.length_cons, List.length_nil]
    omega
  refine ⟨⟨[root], back, hnodup, hlength, hfront, hseparated⟩, hnl.keyCnt,
    ⟨root ::ₘ nl ::ₘ (↑back + fpN), ?_, ?_⟩, hagree.mono (Multiset.le_add_left _ _)⟩
  · rw [thread_append]
    exact hall
  · simpa [Multiset.cons_add, add_assoc] using ho'

/-- A node of one key is separated as it is. -/
theorem ensures_separates_self (hd : Denotes cfg (.ofOrder order) p.mempool lvl (.link (some root))
    t fp) (ho : Owns p (fp + rest)) (hcnt : (p.mempool.get root).keyCnt = 1)
    (hc : (p.mempool.get root).isCompressed = false) :
    Ensures OnlyBadAlloc (decompressNode cfg root 0) p
      (Separates cfg order p lvl root 0 t rest) := by
  refine Ensures.bind (ensures_read ?_)
  rw [if_neg (by omega), if_pos rfl, if_pos hcnt]
  have hpieces : Pieces p.mempool (p.mempool.get root) 0 (some root) [root] := by
    have hself : (p.mempool.get root).Piece (p.mempool.get root) 0 1
        ((p.mempool.get root).getKey 0).nextLevel := by
      refine ⟨one_pos, hcnt, fun i hi => ?_, by simpa using hc, by simp [hc]⟩
      obtain rfl : i = 0 := by omega
      rfl
    have hdone := @Pieces.done V p.mempool (p.mempool.get root)
    rw [hcnt] at hdone
    exact .piece hself hdone
  exact Ensures.pure ⟨⟨[], [], by simp, by simp, hpieces, hpieces⟩, hcnt, ⟨fp, hd, ho⟩,
    fun _ _ => rfl⟩

/-- Separating a key of a compressed node of a valid tree keeps the keys, and what a search finds
from the node on. -/
theorem ensures_decompressNode_searchedAlike {index : ℕ} (hT : 2 ≤ cfg.T)
    (hd : Denotes cfg (.ofOrder order) p.mempool lvl (.link (some root)) t fp)
    (hsep : t.Separated Range1d.Before) (ho : Owns p (fp + rest))
    (hc : (p.mempool.get root).isCompressed = true ∨ (p.mempool.get root).keyCnt = 1)
    (hi : index < (p.mempool.get root).keyCnt) :
    Ensures OnlyBadAlloc (decompressNode cfg root index) p fun r p' =>
      Separates cfg order p lvl root index t rest r p' ∧
        SearchedAlike cfg order lvl (some root) p p' := by
  have hseparates : Ensures OnlyBadAlloc (decompressNode cfg root index) p
      (Separates cfg order p lvl root index t rest) := by
    by_cases hcompr : (p.mempool.get root).isCompressed = true
    · cases hd with
      | layer _ hL => simp [hL.isCompressed] at hcompr
      | @compressed _ _ init last next fpN hlvl hn hnext =>
          have hlen : (init ++ [last]).length = init.length + 1 := by simp
          have hcnt := hn.keyCnt
          have hleast : 2 ≤ init.length + 1 := hn.least_le
          have hlt : index < (init ++ [last]).length := by omega
          have hr := hn.run (List.ne_nil_of_length_pos (by omega))
          rw [Nat.add_assoc, ← hlen] at hnext
          rw [Multiset.cons_add] at ho
          obtain ⟨xs, y, ys, hks, rfl⟩ : ∃ xs y ys, init ++ [last] = xs ++ y :: ys ∧
              xs.length = index :=
            ⟨(init ++ [last]).take index, (init ++ [last])[index],
              (init ++ [last]).drop (index + 1),
              by rw [← List.drop_eq_getElem_cons hlt, List.take_append_drop],
              by rw [List.length_take]; omega⟩
          rw [hks] at hr hnext hlen ⊢
          cases xs with
          | nil =>
              have hys : (y :: ys).length = init.length + 1 := hlen
              rw [List.length_cons] at hys
              exact ensures_separates_first hT (List.ne_nil_of_length_pos (by omega))
                (by simp; omega) hr hnext ho
          | cons x xs => exact ensures_separates hT (by simp) (by omega) hr hnext ho
    · have hone := hc.resolve_left hcompr
      obtain rfl : index = 0 := by omega
      exact ensures_separates_self hd ho hone (by simpa using hcompr)
  refine hseparates.mono fun r p' h => ⟨h, ?_⟩
  obtain ⟨fp', hd', ho'⟩ := h.denotes
  exact hd.searchedAlike hd' hsep ho ho'

section TwoKeys

/-- A compressed node with the keys of both fields, and one free cell. -/
def twoKeys : NodeAllocator RuleValueInt where
  ITEM_CNT := 2
  mempool := (Store.fill (Node.make smallCfg)).set 0
    { ((((Node.make smallCfg).setKey 0 (keyOf 1 2 none)).setKey 1 (keyOf 5 6 none)).setDim 1
        1).setKeyCnt 2 with isCompressed := true }
  nextFree := Store.fill none
  firstFree := some 1

theorem denotes_twoKeys : Denotes smallCfg (.ofOrder (BTree.identityOrder 2)) twoKeys.mempool 0
    (.link (some 0)) (thread ([keyOf 1 2 none] ++ [keyOf 5 6 none]) .nil) (0 ::ₘ 0) := by
  refine .compressed (by decide) ⟨rfl, by decide, by decide, by decide, by simp [keyOf], ?_, rfl,
    rfl, fun _ => rfl, rfl⟩ .null
  intro i hi
  have hi : i = 0 ∨ i = 1 := by
    simp at hi
    omega
  rcases hi with rfl | rfl <;> exact ⟨_, rfl, rfl⟩

theorem owns_twoKeys : Owns twoKeys ((0 ::ₘ 0) + 0) := ⟨[1], .cons .nil, by decide, fun _ _ => rfl⟩

theorem ensures_decompressNode_searchedAlike_twoKeys :
    Ensures OnlyBadAlloc (decompressNode smallCfg 0 1) twoKeys fun r p' =>
      Separates smallCfg (BTree.identityOrder 2) twoKeys 0 0 1
          (thread ([keyOf 1 2 none] ++ [keyOf 5 6 none]) .nil) 0 r p' ∧
        SearchedAlike smallCfg (BTree.identityOrder 2) 0 (some 0) twoKeys p' :=
  ensures_decompressNode_searchedAlike (by decide) denotes_twoKeys
    (by simp [thread, Trie.Separated]) owns_twoKeys (.inl rfl) (by decide)

end TwoKeys

end Pcv
