import Pcv.PartitionSort.BTreeRemove
import Pcv.PartitionSort.LayerSplit

/-!
# The ends of a node

A deletion moves keys between neighbouring nodes: the last key of a node to the front
of the next one, the first key to the end of the previous one, or all the keys of a node
behind those of its neighbour.  Except in the leaves, each key takes a child along, which
gets a new parent.

`Behind` and `InFront` describe what is put at the end or at the front of a node, and
the lemmas about `Layer` how it is taken from one node and put into another.
-/

namespace Pcv

open Store (Agree)

variable {V : Type} {cfg : BTreeCfg}

/-! ## The loops over the links of a node -/

namespace BTreeRemove

theorem sameButChildren_shiftChildIndexRight (n : Node V) (cnt : ℕ) :
    n.SameButChildren (shiftChildIndexRight n cnt) := by
  induction cnt generalizing n with
  | zero => rfl
  | succ i ih => exact (Node.sameButChildren_setChildIndex n (i + 2) _).trans (ih _)

/-- Each link up to index `cnt` moves on by one. -/
theorem childIndex_shiftChildIndexRight (n : Node V) (cnt j : ℕ) :
    (shiftChildIndexRight n cnt).childIndex.get j =
      if 1 ≤ j ∧ j ≤ cnt + 1 then n.childIndex.get (j - 1) else n.childIndex.get j := by
  induction cnt generalizing n with
  | zero =>
      simp only [shiftChildIndexRight, Node.setChildIndex, Store.get_set]
      grind
  | succ i ih =>
      rw [shiftChildIndexRight, ih]
      simp only [Node.setChildIndex, Store.get_set]
      grind

theorem sameButChildren_shiftChildIndexLeft (n : Node V) (i cnt : ℕ) :
    n.SameButChildren (shiftChildIndexLeft n i cnt) := by
  induction cnt generalizing n i with
  | zero => rfl
  | succ cnt ih => exact (Node.sameButChildren_setChildIndex n i _).trans (ih _ _)

/-- Each of the `cnt` links from index `i` on is replaced by the one behind it. -/
theorem childIndex_shiftChildIndexLeft (n : Node V) (i cnt j : ℕ) :
    (shiftChildIndexLeft n i cnt).childIndex.get j =
      if i ≤ j ∧ j < i + cnt then n.childIndex.get (j + 1) else n.childIndex.get j := by
  induction cnt generalizing n i with
  | zero => rw [if_neg (by omega), shiftChildIndexLeft]
  | succ cnt ih =>
      rw [shiftChildIndexLeft, ih]
      simp only [Node.setChildIndex, Store.get_set]
      grind

end BTreeRemove

/-! ## The keys of a node -/

namespace Node.SameButChildren

variable {a b : Node V}

theorem keyCnt (h : a.SameButChildren b) : b.keyCnt = a.keyCnt := by rw [h]

theorem isLeaf (h : a.SameButChildren b) : b.isLeaf = a.isLeaf := by rw [h]

theorem setKey (h : a.SameButChildren b) (i : ℕ) (k : KeyInfo V) :
    (a.setKey i k).SameButChildren (b.setKey i k) := by
  rw [h]
  rfl

theorem setKeyCnt (h : a.SameButChildren b) (cnt : ℕ) :
    (a.setKeyCnt cnt).SameButChildren (b.setKeyCnt cnt) := by
  rw [h]
  rfl

end Node.SameButChildren

variable {par : Option ℕ} {ks ks' : List (KeyInfo V)} {nd nd' : Node V}

/-- Links to children do not matter for the keys. -/
theorem Node.Holds.sameButChildren (hn : nd.Holds par ks) (h : nd.SameButChildren nd') :
    nd'.Holds par ks where
  keyCnt := by rw [h]; exact hn.keyCnt
  getKey := fun i hi => by rw [h.getKey]; exact hn.getKey i hi
  isCompressed := by rw [h]; exact hn.isCompressed
  parent := by rw [h]; exact hn.parent

/-- The keys of a node after some of its slots have been rewritten. -/
theorem Node.Holds.of_getKey (hn : nd.Holds par ks) (hf : Node.SameFrame nd nd') {m : ℕ}
    (hm : ks'.length = m)
    (hk : ∀ i, i < ks'.length → ks'[i]? = some (nd'.getKey i)) :
    (nd'.setKeyCnt m).Holds par ks' where
  keyCnt := hm.symm
  getKey := hk
  isCompressed := hf.isCompressed.trans hn.isCompressed
  parent := hf.parent.trans hn.parent

theorem Node.Holds.getKey_append {x : KeyInfo V} (hn : nd.Holds par (ks ++ x :: ks')) :
    nd.getKey ks.length = x := by
  have := hn.getKey ks.length (by simp)
  simpa using this.symm

/-- Keys stored behind those of a node. -/
theorem Node.Holds.append (hn : nd.Holds par ks) (hf : Node.SameFrame nd nd') {m : ℕ}
    (hm : ks.length + ks'.length = m) (hk : ∀ i, i < ks.length → nd'.getKey i = nd.getKey i)
    (hk' : ∀ i, i < ks'.length → ks'[i]? = some (nd'.getKey (ks.length + i))) :
    (nd'.setKeyCnt m).Holds par (ks ++ ks') := by
  refine hn.of_getKey hf (by simpa using hm) fun i hi => ?_
  rcases Nat.lt_or_ge i ks.length with hlt | hge
  · rw [List.getElem?_append_left hlt, hk i hlt, hn.getKey i hlt]
  · have := hk' (i - ks.length) (by simp at hi; omega)
    rwa [List.getElem?_append_right hge, show i = ks.length + (i - ks.length) by omega,
      Nat.add_sub_cancel_left]

/-- A key taken out of a node. -/
theorem Node.Holds.eraseKey {x : KeyInfo V} (hn : nd.Holds par (ks ++ x :: ks')) :
    ((nd.shiftKeysLeft ks.length (nd.keyCnt - (ks.length + 1))).setKeyCnt (nd.keyCnt - 1)).Holds
      par (ks ++ ks') := by
  have hkc := hn.keyCnt
  simp only [List.length_append, List.length_cons] at hkc
  refine hn.of_getKey (Node.shiftKeysLeft_sameFrame _ _ _) (by simp; omega) fun i hi => ?_
  simp only [List.length_append] at hi
  rw [Node.getKey_shiftKeysLeft]
  rcases Nat.lt_or_ge i ks.length with hlt | hge
  · have := hn.getKey i (by simp; omega)
    rw [if_neg (by omega), ← this, List.getElem?_append_left hlt, List.getElem?_append_left hlt]
  · have := hn.getKey (i + 1) (by simp; omega)
    rw [if_pos (by omega), ← this, List.getElem?_append_right hge,
      List.getElem?_append_right (by omega),
      show i + 1 - ks.length = (i - ks.length) + 1 by omega, List.getElem?_cons_succ]

/-! ## What is put at the end of a node -/

variable {mem mem' : Store (Node V)} {h n c s : ℕ}
variable {its X : List (KeyInfo V)} {kX : List (KeyInfo V)} {mv : List ℕ} {fp fpX : Multiset ℕ}

/-- Keys for the end of a node of height `h`: in a leaf they are alone, elsewhere each
has a child behind it. -/
def Behind (cfg : BTreeCfg) (mem : Store (Node V)) : ℕ → ℕ → List (KeyInfo V) → List ℕ →
    List (KeyInfo V) → Multiset ℕ → Prop
  | 0, _, ks, cs, its, fp => cs = [] ∧ its = ks ∧ fp = 0
  | h + 1, n, ks, cs, its, fp => After (Child cfg mem h n) ks cs its fp

/-- Keys for the front of a node of height `h`: in a leaf they are alone, elsewhere each
has a child in front of it. -/
def InFront (cfg : BTreeCfg) (mem : Store (Node V)) : ℕ → ℕ → List (KeyInfo V) → List ℕ →
    List (KeyInfo V) → Multiset ℕ → Prop
  | 0, _, ks, cs, its, fp => cs = [] ∧ its = ks ∧ fp = 0
  | h + 1, n, ks, cs, its, fp => Before (Child cfg mem h n) ks cs its fp

/-- Put keys at the end of a node. -/
theorem Layer.addLast (hL : Layer cfg mem h par n its fp) (hnd : fp.Nodup)
    (hX : Behind cfg mem' h n kX mv X fpX)
    (hh : ∀ ks, (mem.get n).Holds par ks → (mem'.get n).Holds par (ks ++ kX))
    (hleaf : (mem'.get n).isLeaf = (mem.get n).isLeaf)
    (hchild : ∀ j, (mem'.get n).childIndex.get j =
      if (mem.get n).keyCnt + 1 ≤ j ∧ j < (mem.get n).keyCnt + 1 + mv.length then
        mv[j - ((mem.get n).keyCnt + 1)]?
      else (mem.get n).childIndex.get j)
    (hlen : (mem.get n).keyCnt + kX.length ≤ cfg.maxDegree)
    (hsame : ∀ j ∈ fp, j ≠ n → mem'.get j = mem.get j) :
    Layer cfg mem' h par n (its ++ X) (fp + fpX) := by
  cases h with
  | zero =>
      obtain ⟨hn, -, rfl⟩ := hL
      obtain ⟨rfl, rfl, rfl⟩ := hX
      rw [hn.keyCnt] at hlen
      refine ⟨⟨hh its hn.toHolds, hleaf.trans hn.isLeaf, fun j => ?_⟩, by simpa using hlen,
        by simp⟩
      rw [hchild, if_neg (by simp), hn.child]
  | succ h =>
      obtain ⟨ks, cs, fp', hn, hne, -, hch, rfl⟩ := hL
      have hcs := hch.length_eq
      have hkc := hn.keyCnt
      rw [hkc] at hlen hchild
      have hch' : Chain (Child cfg mem' h n) ks cs its fp' := Chain.frame hch fun j hj =>
        hsame j (Multiset.mem_cons_of_mem hj) fun hjn => (Multiset.nodup_cons.mp hnd).1 (hjn ▸ hj)
      refine ⟨ks ++ kX, cs ++ mv, fp' + fpX, ⟨hh ks hn.toHolds, hleaf.trans hn.isLeaf, ?_⟩,
        by simp [hne], by simpa using hlen, hch'.append_after hX, by rw [Multiset.cons_add]⟩
      intro j hj
      rw [hchild]
      rcases Nat.lt_or_ge j cs.length with hlt | hge
      · rw [if_neg (by omega), List.getElem?_append_left hlt]
        exact hn.child j hlt
      · rw [if_pos (by simp at hj; omega), List.getElem?_append_right hge, hcs]

/-- Put keys at the front of a node. -/
theorem Layer.addFirst (hL : Layer cfg mem h par n its fp) (hnd : fp.Nodup)
    (hX : InFront cfg mem' h n kX mv X fpX)
    (hh : ∀ ks, (mem.get n).Holds par ks → (mem'.get n).Holds par (kX ++ ks))
    (hleaf : (mem'.get n).isLeaf = (mem.get n).isLeaf)
    (hchild : ∀ j, (mem'.get n).childIndex.get j =
      if j < mv.length then mv[j]?
      else if j < mv.length + ((mem.get n).keyCnt + 1) then
        (mem.get n).childIndex.get (j - mv.length)
      else (mem.get n).childIndex.get j)
    (hlen : (mem.get n).keyCnt + kX.length ≤ cfg.maxDegree)
    (hsame : ∀ j ∈ fp, j ≠ n → mem'.get j = mem.get j) :
    Layer cfg mem' h par n (X ++ its) (fpX + fp) := by
  cases h with
  | zero =>
      obtain ⟨hn, -, rfl⟩ := hL
      obtain ⟨rfl, rfl, rfl⟩ := hX
      rw [hn.keyCnt] at hlen
      refine ⟨⟨hh its hn.toHolds, hleaf.trans hn.isLeaf, fun j => ?_⟩, ?_, by simp⟩
      · rw [hchild]
        simp only [List.length_nil, Nat.not_lt_zero, if_false, Nat.sub_zero, hn.child, ite_self]
      · simp only [List.length_append]
        omega
  | succ h =>
      obtain ⟨ks, cs, fp', hn, hne, -, hch, rfl⟩ := hL
      have hcs := hch.length_eq
      have hkc := hn.keyCnt
      rw [hkc] at hlen hchild
      have hch' : Chain (Child cfg mem' h n) ks cs its fp' := Chain.frame hch fun j hj =>
        hsame j (Multiset.mem_cons_of_mem hj) fun hjn => (Multiset.nodup_cons.mp hnd).1 (hjn ▸ hj)
      refine ⟨kX ++ ks, mv ++ cs, fpX + fp', ⟨hh ks hn.toHolds, hleaf.trans hn.isLeaf, ?_⟩,
        by simp [hne], ?_, Chain.before_append hX hch', by rw [Multiset.add_cons]⟩
      · intro j hj
        rw [hchild]
        rcases Nat.lt_or_ge j mv.length with hlt | hge
        · rw [if_pos hlt, List.getElem?_append_left hlt]
        · rw [if_neg (by omega), if_pos (by simp at hj; omega), List.getElem?_append_right hge]
          exact hn.child _ (by simp at hj; omega)
      · simp only [List.length_append]
        omega

/-! ## What is taken from the end of a node -/

/-- A child that moves to another node, with everything below it. -/
theorem Child.reparent {d : ℕ} (hc : Child cfg mem h s d its fp) (hnd : fp.Nodup)
    (hd : mem'.get d = (mem.get d).setParent (some c))
    (hsame : ∀ j ∈ fp, j ≠ d → mem'.get j = mem.get j) : Child cfg mem' h c d its fp :=
  ⟨hc.1.setParent hnd hd hsame, by rw [hd]; exact hc.2⟩

/-- Take the last key from a node, with the child behind it. -/
theorem Layer.dropLast (hL : Layer cfg mem h par s its fp) (hcnt : 2 ≤ (mem.get s).keyCnt)
    (hnd : fp.Nodup) :
    ∃ kS a mv its' X fp' fpX, (mem.get s).Holds par (kS ++ [a]) ∧ its = its' ++ a :: X ∧
      fp = fp' + fpX ∧ s ∈ fp' ∧ ((mem.get s).isLeaf = true → mv = []) ∧
      ((mem.get s).isLeaf = false →
        ∃ d, mv = [d] ∧ (mem.get s).childIndex.get (mem.get s).keyCnt = some d) ∧
      (∀ d ∈ mv, d ∈ fpX) ∧
      (∀ mem', mem'.get s = (mem.get s).setKeyCnt kS.length →
        (∀ j ∈ fp', j ≠ s → mem'.get j = mem.get j) → Layer cfg mem' h par s its' fp') ∧
      ∀ mem' c m, (∀ d ∈ mv, mem'.get d = (mem.get d).setParent (some c)) →
        (∀ j ∈ fpX, j ∉ mv → mem'.get j = mem.get j) →
        InFront cfg mem' h c [m] mv (X ++ [m]) fpX := by
  cases h with
  | zero =>
      obtain ⟨hn, hlen, rfl⟩ := hL
      rw [hn.keyCnt] at hcnt
      obtain ⟨kS, a, rfl⟩ : ∃ kS a, its = kS ++ [a] := by
        rcases List.eq_nil_or_concat its with rfl | ⟨kS, a, rfl⟩
        · simp at hcnt
        · exact ⟨kS, a, List.concat_eq_append ..⟩
      refine ⟨kS, a, [], kS, [], {s}, 0, hn.toHolds, rfl, by simp, by simp, fun _ => rfl, ?_, by simp,
        ?_, ?_⟩
      · simp [hn.isLeaf]
      · intro mem' hs _
        refine ⟨⟨?_, ?_, ?_⟩, ?_, rfl⟩
        · rw [hs]
          exact hn.toHolds.setKeyCnt rfl
        · rw [hs]
          exact hn.isLeaf
        · rw [hs]
          exact hn.child
        · simp only [List.length_append] at hlen
          omega
      · intro mem' c m _ _
        exact ⟨rfl, rfl, rfl⟩
  | succ h =>
      obtain ⟨ks, cs, fp', hn, hne, hlen, hch, rfl⟩ := hL
      have hkc := hn.keyCnt
      obtain ⟨kS, a, rfl⟩ : ∃ kS a, ks = kS ++ [a] := by
        rcases List.eq_nil_or_concat ks with rfl | ⟨kS, a, rfl⟩
        · exact absurd rfl hne
        · exact ⟨kS, a, List.concat_eq_append ..⟩
      obtain ⟨cs₁, cs₂, its', X, fp₁, fpX, rfl, rfl, rfl, h₁, h₂⟩ := hch.split
      obtain ⟨d, rfl, hd⟩ := h₂.of_nil
      have hcs := h₁.length_eq
      obtain ⟨hs, hnd'⟩ := Multiset.nodup_cons.mp hnd
      obtain ⟨-, hndX, -⟩ := Multiset.nodup_add.mp hnd'
      refine ⟨kS, a, [d], its', X, s ::ₘ fp₁, fpX, hn.toHolds, rfl, by rw [Multiset.cons_add],
        by simp, ?_, ?_, ?_, ?_, ?_⟩
      · simp [hn.isLeaf]
      · intro _
        refine ⟨d, rfl, ?_⟩
        have := hn.child cs₁.length (by simp)
        rw [List.getElem?_append_right le_rfl] at this
        rw [hkc, ← show cs₁.length = (kS ++ [a]).length by simp [hcs], ← this]
        simp
      · intro d' hd'
        obtain rfl : d' = d := by simpa using hd'
        exact hd.1.root_mem
      · intro mem' hs' hsame
        have hkS : kS ≠ [] := by
          rintro rfl
          simp at hkc
          omega
        refine ⟨kS, cs₁, fp₁, ⟨?_, ?_, ?_⟩, hkS, ?_, Chain.frame h₁ fun j hj =>
          hsame j (Multiset.mem_cons_of_mem hj) fun hjs => hs (by simp [← hjs, hj]), rfl⟩
        · rw [hs']
          exact hn.toHolds.setKeyCnt rfl
        · rw [hs']
          exact hn.isLeaf
        · intro j hj
          rw [hs']
          have := hn.child j (by simp; omega)
          rwa [List.getElem?_append_left hj] at this
        · simp only [List.length_append] at hlen
          omega
      · intro mem' c m hd' hsame
        have := Before.cons (k := m) (Child.reparent hd hndX (hd' d (by simp)) fun j hj hjd =>
          hsame j hj (by simpa using hjd)) .nil
        simpa [InFront] using this

/-- Take the first key from a node, with the child in front of it. -/
theorem Layer.dropFirst (hL : Layer cfg mem h par s its fp) (hcnt : 2 ≤ (mem.get s).keyCnt)
    (hnd : fp.Nodup) :
    ∃ kS a mv its' X fp' fpX, (mem.get s).Holds par (a :: kS) ∧ its = X ++ a :: its' ∧
      fp = fp' + fpX ∧ s ∈ fp' ∧ ((mem.get s).isLeaf = true → mv = []) ∧
      ((mem.get s).isLeaf = false → ∃ d, mv = [d] ∧ (mem.get s).childIndex.get 0 = some d) ∧
      (∀ d ∈ mv, d ∈ fpX) ∧
      (∀ mem', (mem'.get s).Holds par kS → (mem'.get s).isLeaf = (mem.get s).isLeaf →
        ((mem.get s).isLeaf = true → (mem'.get s).childIndex = (mem.get s).childIndex) →
        ((mem.get s).isLeaf = false → ∀ j, j ≤ kS.length →
          (mem'.get s).childIndex.get j = (mem.get s).childIndex.get (j + 1)) →
        (∀ j ∈ fp', j ≠ s → mem'.get j = mem.get j) → Layer cfg mem' h par s its' fp') ∧
      ∀ mem' c m, (∀ d ∈ mv, mem'.get d = (mem.get d).setParent (some c)) →
        (∀ j ∈ fpX, j ∉ mv → mem'.get j = mem.get j) →
        Behind cfg mem' h c [m] mv (m :: X) fpX := by
  cases h with
  | zero =>
      obtain ⟨hn, hlen, rfl⟩ := hL
      rw [hn.keyCnt] at hcnt
      obtain ⟨a, kS, rfl⟩ : ∃ a kS, its = a :: kS :=
        List.exists_cons_of_ne_nil (List.length_pos_iff.mp (by omega))
      refine ⟨kS, a, [], kS, [], {s}, 0, hn.toHolds, rfl, by simp, by simp, fun _ => rfl, ?_, by simp,
        ?_, ?_⟩
      · simp [hn.isLeaf]
      · intro mem' hs hleaf hchild _ _
        refine ⟨⟨hs, hleaf.trans hn.isLeaf, ?_⟩, ?_, rfl⟩
        · rw [hchild hn.isLeaf]
          exact hn.child
        · simp only [List.length_cons] at hlen
          omega
      · intro mem' c m _ _
        exact ⟨rfl, rfl, rfl⟩
  | succ h =>
      obtain ⟨ks, cs, fp', hn, hne, hlen, hch, rfl⟩ := hL
      have hkc := hn.keyCnt
      obtain ⟨a, kS, rfl⟩ := List.exists_cons_of_ne_nil hne
      cases hch with
      | @cons d cs _ _ X its' fpX fp₁ hd h₁ =>
          have hcs := h₁.length_eq
          obtain ⟨hs, hnd'⟩ := Multiset.nodup_cons.mp hnd
          obtain ⟨hndX, -, -⟩ := Multiset.nodup_add.mp hnd'
          refine ⟨kS, a, [d], its', X, s ::ₘ fp₁, fpX, hn.toHolds, rfl,
            by rw [Multiset.cons_add, add_comm], by simp, ?_, ?_, ?_, ?_, ?_⟩
          · simp [hn.isLeaf]
          · intro _
            exact ⟨d, rfl, by simpa using (hn.child 0 (by simp)).symm⟩
          · intro d' hd'
            obtain rfl : d' = d := by simpa using hd'
            exact hd.1.root_mem
          · intro mem' hs' hleaf _ hchild hsame
            have hkS : kS ≠ [] := by
              rintro rfl
              simp at hkc
              omega
            refine ⟨kS, cs, fp₁, ⟨hs', hleaf.trans hn.isLeaf, ?_⟩, hkS, ?_,
              Chain.frame h₁ fun j hj => hsame j (Multiset.mem_cons_of_mem hj) fun hjs =>
                hs (by simp [← hjs, hj]), rfl⟩
            · intro j hj
              rw [hchild hn.isLeaf j (by omega), ← hn.child (j + 1) (by simpa using hj),
                List.getElem?_cons_succ]
            · simp only [List.length_cons] at hlen
              omega
          · intro mem' c m hd' hsame
            have := After.cons (k := m) (Child.reparent hd hndX (hd' d (by simp)) fun j hj hjd =>
              hsame j hj (by simpa using hjd)) .nil
            simpa [Behind] using this

/-- All the keys of a node, with all its children, behind one more key. -/
theorem Layer.behind (hL : Layer cfg mem h par s its fp) (hnd : fp.Nodup) :
    ∃ kS mv fpX, (mem.get s).Holds par kS ∧ fp = s ::ₘ fpX ∧
      ((mem.get s).isLeaf = true → mv = []) ∧
      ((mem.get s).isLeaf = false → mv.length = kS.length + 1 ∧
        ∀ j, j < mv.length → mv[j]? = (mem.get s).childIndex.get j) ∧
      (∀ d ∈ mv, d ∈ fpX) ∧
      ∀ mem' c m, (∀ d ∈ mv, mem'.get d = (mem.get d).setParent (some c)) →
        (∀ j ∈ fpX, j ∉ mv → mem'.get j = mem.get j) →
        Behind cfg mem' h c (m :: kS) mv (m :: its) fpX := by
  cases h with
  | zero =>
      obtain ⟨hn, hlen, rfl⟩ := hL
      refine ⟨its, [], 0, hn.toHolds, by simp, fun _ => rfl, ?_, by simp, fun _ _ _ _ _ =>
        ⟨rfl, rfl, rfl⟩⟩
      simp [hn.isLeaf]
  | succ h =>
      obtain ⟨ks, cs, fp', hn, hne, hlen, hch, rfl⟩ := hL
      obtain ⟨hs, hnd'⟩ := Multiset.nodup_cons.mp hnd
      refine ⟨ks, cs, fp', hn.toHolds, rfl, ?_, fun _ => ⟨hch.length_eq, hn.child⟩, ?_, ?_⟩
      · simp [hn.isLeaf]
      · intro d hd
        obtain ⟨_, fp₀, hle, hP, -⟩ := hch.exists_of_mem hd
        exact Multiset.mem_of_le hle hP.1.root_mem
      · intro mem' c m hd' hsame
        refine Chain.after (hch.imp_of_nodup hnd' id (fun c _ _ hP => hP.1.root_mem)
          fun d hd its₀ fp₀ hle huniq hP => ?_) m
        exact Child.reparent hP (Multiset.nodup_of_le hle hnd') (hd' d hd) fun j hj hjd =>
          hsame j (Multiset.mem_of_le hle hj) fun hjcs => hjd (huniq j hjcs hj)

end Pcv
