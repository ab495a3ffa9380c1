import Pcv.PartitionSort.BTree
import Pcv.PartitionSort.MempoolOwnership

/-!
# What the accessors of the nodes do

The accessors only change the objects of the pool.  Each specification says which
nodes a call changes, in which of their fields, and that all the others stay.
-/

namespace Pcv

open DynamicMempool

variable {V : Type} {E : Fault → NodeAllocator V → Prop} {p : NodeAllocator V}

@[simp] theorem Node.setParent_parent (nd : Node V) : nd.setParent nd.parent = nd := rfl

@[simp] theorem Node.setParent_setParent (nd : Node V) (a b : Option ℕ) :
    (nd.setParent a).setParent b = nd.setParent b := rfl

/-- The nodes differ in their children only. -/
def Node.SameButChildren (nd nd' : Node V) : Prop :=
  nd' = { nd with childIndex := nd'.childIndex }

theorem Node.SameButChildren.refl (nd : Node V) : nd.SameButChildren nd := rfl

theorem Node.SameButChildren.trans {a b c : Node V} (h : a.SameButChildren b)
    (h' : b.SameButChildren c) : a.SameButChildren c := by
  unfold SameButChildren at *
  rw [h', h]

theorem Node.SameButChildren.getKey {a b : Node V} (h : a.SameButChildren b) (i : ℕ) :
    b.getKey i = a.getKey i := by
  rw [h]
  rfl

theorem Node.sameButChildren_setChildIndex (nd : Node V) (i : ℕ) (link : Option ℕ) :
    nd.SameButChildren (nd.setChildIndex i link) := rfl

namespace Navigator

theorem ensures_deref {o : Option ℕ} {n : ℕ} {Q : ℕ → NodeAllocator V → Prop} (h : o = some n)
    (hQ : Q n p) : Ensures E (deref o) p Q := by
  subst h
  exact hQ

/-- Linking a child changes the link and the parent of the child. -/
theorem ensures_setChild {n index c : ℕ} {Q : Unit → NodeAllocator V → Prop} (hne : n ≠ c)
    (hQ : ∀ p', SamePool p p' →
      p'.mempool.get n = (p.mempool.get n).setChildIndex index (some c) →
      p'.mempool.get c = (p.mempool.get c).setParent (some n) →
      (∀ j, j ≠ n → j ≠ c → p'.mempool.get j = p.mempool.get j) → Q ⟨⟩ p') :
    Ensures E (setChild n index (some c)) p Q := by
  refine Ensures.bind (ensures_update (ensures_update ?_))
  refine hQ _ ⟨rfl, rfl, rfl⟩ ?_ ?_ ?_
  · simp [Store.get_set, hne]
  · simp [Store.get_set, hne.symm]
  · intro j hjn hjc
    simp [Store.get_set, hjn, hjc]

/-- Moving a block of links to another node makes that node the parent of the children
in the block. -/
theorem ensures_moveChildren {src srcI dst dstI cnt : ℕ} {cs : List ℕ}
    {Q : Unit → NodeAllocator V → Prop} (hlen : cs.length = cnt)
    (hsrc : ∀ j, j < cs.length → cs[j]? = (p.mempool.get src).childIndex.get (srcI + j))
    (hne : src ≠ dst) (hs : src ∉ cs) (hd : dst ∉ cs)
    (hQ : ∀ p', SamePool p p' → (p.mempool.get dst).SameButChildren (p'.mempool.get dst) →
      (∀ j, (p'.mempool.get dst).childIndex.get j =
        if dstI ≤ j ∧ j < dstI + cnt then cs[j - dstI]?
        else (p.mempool.get dst).childIndex.get j) →
      (∀ c ∈ cs, p'.mempool.get c = (p.mempool.get c).setParent (some dst)) →
      (∀ j, j ≠ dst → j ∉ cs → p'.mempool.get j = p.mempool.get j) → Q ⟨⟩ p') :
    Ensures E (moveChildren src srcI dst dstI cnt) p Q := by
  induction cs generalizing p srcI dstI cnt with
  | nil =>
      subst hlen
      refine hQ p (.refl p) (.refl _) (fun j => ?_) (by simp) (fun _ _ _ => rfl)
      rw [if_neg (by simp)]
  | cons c cs ih =>
      obtain ⟨cnt, rfl⟩ : ∃ m, cnt = m + 1 := ⟨cnt - 1, by simp at hlen; omega⟩
      obtain ⟨hsc, hs⟩ : src ≠ c ∧ src ∉ cs := by simpa using hs
      obtain ⟨hdc, hd⟩ : dst ≠ c ∧ dst ∉ cs := by simpa using hd
      have hc : (p.mempool.get src).childIndex.get srcI = some c := by
        simpa using (hsrc 0 (by simp)).symm
      refine Ensures.bind (Ensures.bind (ensures_read ?_))
      rw [hc]
      refine ensures_setChild hdc fun p₁ hp₁ hdst₁ hc₁ hother₁ => ?_
      refine ih (by simpa using hlen) ?_ hs hd fun p₂ hp₂ hsame hlinks hcs hother => ?_
      · intro j hj
        rw [hother₁ src hne hsc]
        have := hsrc (j + 1) (by simpa using hj)
        rw [List.getElem?_cons_succ] at this
        rw [this, show srcI + (j + 1) = srcI + 1 + j by omega]
      · refine hQ p₂ (hp₁.trans hp₂) ?_ ?_ ?_ ?_
        · rw [hdst₁] at hsame
          exact (Node.sameButChildren_setChildIndex _ _ _).trans hsame
        · intro j
          rw [hlinks j, hdst₁]
          simp only [Node.setChildIndex, Store.get_set]
          grind
        · intro d hdmem
          by_cases hdcs : d ∈ cs
          · rw [hcs d hdcs]
            by_cases hdc' : d = c
            · rw [hdc', hc₁, Node.setParent_setParent]
            · rw [hother₁ d (fun h => hd (h ▸ hdcs)) hdc']
          · obtain rfl : d = c := by simpa [hdcs] using hdmem
            rw [hother d hdc.symm hdcs, hc₁]
        · intro j hj hjcs
          obtain ⟨hjc, hjcs⟩ : j ≠ c ∧ j ∉ cs := by simpa using hjcs
          rw [hother j hj hjcs, hother₁ j hj hjc]

/-- Shifting links to the right within a node changes nothing but these links, since
the children know the node as their parent already. -/
theorem ensures_shiftChildrenRight {n i steps : ℕ} {Q : Unit → NodeAllocator V → Prop}
    (hch : ∀ j, i < j → j ≤ i + steps → ∃ c, (p.mempool.get n).childIndex.get j = some c ∧
      c ≠ n ∧ (p.mempool.get c).parent = some n)
    (hQ : ∀ p', SamePool p p' → (p.mempool.get n).SameButChildren (p'.mempool.get n) →
      (∀ j, (p'.mempool.get n).childIndex.get j =
        if i + 1 < j ∧ j ≤ i + steps + 1 then (p.mempool.get n).childIndex.get (j - 1)
        else (p.mempool.get n).childIndex.get j) →
      (∀ j, j ≠ n → p'.mempool.get j = p.mempool.get j) → Q ⟨⟩ p') :
    Ensures E (shiftChildrenRight n i steps) p Q := by
  induction steps generalizing p with
  | zero =>
      refine hQ p (.refl p) (.refl _) (fun j => ?_) (fun _ _ => rfl)
      rw [if_neg (by omega)]
  | succ steps ih =>
      obtain ⟨c, hc, hcn, hpar⟩ := hch (i + steps + 1) (by omega) (by omega)
      refine Ensures.bind (Ensures.bind (ensures_read ?_))
      rw [hc]
      refine ensures_setChild hcn.symm fun p₁ hp₁ hn₁ hc₁ hother₁ => ?_
      have hother₁' : ∀ j, j ≠ n → p₁.mempool.get j = p.mempool.get j := by
        intro j hj
        by_cases hjc : j = c
        · rw [hjc, hc₁, ← hpar, Node.setParent_parent]
        · exact hother₁ j hj hjc
      refine ih ?_ fun p₂ hp₂ hsame hlinks hother => ?_
      · intro j hj hjle
        obtain ⟨d, hd, hdn, hdpar⟩ := hch j hj (by omega)
        refine ⟨d, ?_, hdn, ?_⟩
        · rw [hn₁, Node.setChildIndex, Store.get_set_of_ne _ _ (by omega), hd]
        · rw [hother₁' d hdn, hdpar]
      · refine hQ p₂ (hp₁.trans hp₂) ?_ ?_ ?_
        · rw [hn₁] at hsame
          exact (Node.sameButChildren_setChildIndex _ _ _).trans hsame
        · intro j
          rw [hlinks j, hn₁]
          simp only [Node.setChildIndex, Store.get_set]
          grind
        · intro j hj
          rw [hother j hj, hother₁' j hj]

end Navigator

end Pcv
