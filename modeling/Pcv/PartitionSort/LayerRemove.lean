import Pcv.PartitionSort.LayerFill

/-!
# Deletion from one layer

`remove1d` takes a key out of a layer whose keys begin one behind the other.  What is left
is a layer with the other keys in their order, and the nodes that are not needed any more
go back to the pool.

On its way down `removeKey` gives every child it enters one key more than the least number,
so that the child can lose one.  A key of an inner node is replaced by its neighbour in the
layer, which is then taken out of a leaf.
-/

namespace Pcv

open DynamicMempool Navigator BTreeSearch
open Store (Agree)

variable {V : Type} {cfg : BTreeCfg}

/-- Each key begins behind the one before. -/
def StrictlyOrdered (its : List (KeyInfo V)) : Prop :=
  its.Pairwise fun a b => a.key.low < b.key.low

/-- The keys other than `k`. -/
def without (k : Range1d) (its : List (KeyInfo V)) : List (KeyInfo V) :=
  its.filter fun x => decide (x.key ≠ k)

section Lists

variable {its A B L R : List (KeyInfo V)} {x : KeyInfo V} {k : Range1d}

@[simp] theorem without_append (k : Range1d) (A B : List (KeyInfo V)) :
    without k (A ++ B) = without k A ++ without k B := List.filter_append ..

theorem without_eq_self (h : ∀ x ∈ its, x.key ≠ k) : without k its = its :=
  List.filter_eq_self.mpr fun x hx => decide_eq_true (h x hx)

/-- A key that begins at another place is another key. -/
theorem key_ne_of_low {a : KeyInfo V} (h : a.key.low ≠ k.low) : a.key ≠ k := fun hk => h (hk ▸ rfl)

/-- In a strictly ordered list, taking out a key leaves what is around it. -/
theorem StrictlyOrdered.without (h : StrictlyOrdered (L ++ x :: R)) :
    Pcv.without x.key (L ++ x :: R) = L ++ R := by
  obtain ⟨-, hR, hL⟩ := List.pairwise_append.mp h
  rw [without_append, without_eq_self, Pcv.without, List.filter_cons_of_neg (by simp),
    ← Pcv.without, without_eq_self]
  · exact fun b hb => key_ne_of_low ((List.pairwise_cons.mp hR).1 b hb).ne'
  · exact fun a ha => key_ne_of_low (hL a ha x (by simp)).ne

/-- A key of the middle part is in no other part. -/
theorem StrictlyOrdered.without_middle (h : StrictlyOrdered (A ++ (its ++ B))) (hx : x ∈ its)
    (hk : x.key = k) : Pcv.without k (A ++ (its ++ B)) = A ++ (Pcv.without k its ++ B) := by
  obtain ⟨-, hB, hA⟩ := List.pairwise_append.mp h
  have hkA : ∀ a ∈ A, a.key ≠ k := fun a ha => key_ne_of_low (hk ▸ (hA a ha x (by simp [hx])).ne)
  have hkB : ∀ b ∈ B, b.key ≠ k := fun b hb =>
    key_ne_of_low (hk ▸ ((List.pairwise_append.mp hB).2.2 x hx b hb).ne')
  rw [without_append, without_append, without_eq_self hkA, without_eq_self hkB]

/-- A key that begins behind the last key of the front part is not in the front part. -/
theorem StrictlyOrdered.mem_right (h : StrictlyOrdered (A ++ B)) (hx : x ∈ A ++ B)
    (hA : ∀ a ∈ A.getLast?, a.key.low < x.key.low) : x ∈ B := by
  refine (List.mem_append.mp hx).resolve_left fun hxA => ?_
  rcases List.eq_nil_or_concat A with rfl | ⟨A, a, rfl⟩
  · simp at hxA
  · rw [List.concat_eq_append] at *
    have hlt := hA a (by simp)
    rcases List.mem_append.mp hxA with hxA | hxA
    · exact absurd ((List.pairwise_append.mp (List.pairwise_append.mp h).1).2.2 x hxA a (by simp))
        (by omega)
    · obtain rfl : x = a := by simpa using hxA
      exact lt_irrefl _ hlt

/-- A key that begins no later than the first key of a list is this first key. -/
theorem StrictlyOrdered.eq_cons (h : StrictlyOrdered B) (hx : x ∈ B)
    (hB : ∀ b ∈ B.head?, x.key.low ≤ b.key.low) : ∃ B', B = x :: B' := by
  obtain ⟨b, B, rfl⟩ := List.exists_cons_of_ne_nil (List.ne_nil_of_mem hx)
  rcases List.mem_cons.mp hx with rfl | hxB
  · exact ⟨B, rfl⟩
  · exact absurd ((List.pairwise_cons.mp h).1 x hxB) (by have := hB b (by simp); omega)

theorem StrictlyOrdered.infix (h : StrictlyOrdered (A ++ (its ++ B))) : StrictlyOrdered its :=
  (List.pairwise_append.mp (List.pairwise_append.mp h).2.1).1

end Lists

/-! ## The place of a key -/

/-- Where `findKey` stops. -/
theorem findKey_spec {nd : Node V} {par : Option ℕ} {ks : List (KeyInfo V)}
    (hn : nd.Holds par ks) (k : Range1d) :
    ∃ ks₁ ks₂, ks = ks₁ ++ ks₂ ∧ findKey nd k = ks₁.length ∧
      (∀ a ∈ ks₁.getLast?, a.key.low < k.low) ∧ ∀ b ∈ ks₂.head?, k.low ≤ b.key.low := by
  have main : ∀ ks₂ ks₁ : List (KeyInfo V), ks = ks₁ ++ ks₂ →
      (∀ a ∈ ks₁.getLast?, a.key.low < k.low) →
      ∃ ks₁' ks₂', ks = ks₁' ++ ks₂' ∧ findKeyFrom nd k ks₂.length ks₁.length = ks₁'.length ∧
        (∀ a ∈ ks₁'.getLast?, a.key.low < k.low) ∧ ∀ b ∈ ks₂'.head?, k.low ≤ b.key.low := by
    intro ks₂
    induction ks₂ with
    | nil => exact fun ks₁ hks h₁ => ⟨ks₁, [], hks, rfl, h₁, by simp⟩
    | cons x ks₂ ih =>
        rintro ks₁ rfl h₁
        rw [List.length_cons, findKeyFrom, hn.getKey_append]
        by_cases hlt : x.key.low < k.low
        · rw [if_pos hlt]
          have := ih (ks₁ ++ [x]) (by simp) (by simpa using hlt)
          simpa using this
        · rw [if_neg hlt]
          exact ⟨ks₁, x :: ks₂, rfl, rfl, h₁, by simpa using hlt⟩
  rw [findKey, hn.keyCnt]
  exact main ks [] rfl (by simp)

section Ends

variable {mem : Store (Node V)} {h n : ℕ} {par : Option ℕ} {its : List (KeyInfo V)}
variable {fp : Multiset ℕ}

/-- A layer whose root holds a key holds a key. -/
theorem Layer.ne_nil (hL : Layer cfg mem h par n its fp) (hcnt : 0 < (mem.get n).keyCnt) :
    its ≠ [] := by
  cases h with
  | zero =>
      rintro rfl
      simp [hL.1.keyCnt] at hcnt
  | succ h =>
      obtain ⟨ks, cs, fp', -, hne, -, hch, -⟩ := hL
      intro hnil
      cases hch with
      | last _ => exact hne rfl
      | cons => simp at hnil

/-- `rightMost` leads to the last key of the layer. -/
theorem Layer.rightMost (hL : Layer cfg mem h par n its fp) (hT : 2 ≤ cfg.T)
    (hcnt : 0 < (mem.get n).keyCnt) {fuel : ℕ} (hfuel : h < fuel) :
    ∃ m its' x, BTreeSearch.rightMost mem fuel (some n) = .ok m ∧ its = its' ++ [x] ∧
      (mem.get m).getKey ((mem.get m).keyCnt - 1) = x := by
  induction h generalizing par n its fp fuel with
  | zero =>
      obtain ⟨fuel, rfl⟩ : ∃ f, fuel = f + 1 := ⟨fuel - 1, by omega⟩
      obtain ⟨hn, -, -⟩ := hL
      rcases List.eq_nil_or_concat its with rfl | ⟨its', x, rfl⟩
      · simp [hn.keyCnt] at hcnt
      · rw [List.concat_eq_append] at *
        refine ⟨n, its', x, by simp [BTreeSearch.rightMost, hn.isLeaf], rfl, ?_⟩
        have hkc := hn.keyCnt
        rw [List.length_append, List.length_singleton] at hkc
        rw [hkc, Nat.add_sub_cancel]
        exact hn.toHolds.getKey_append
  | succ h ih =>
      obtain ⟨fuel, rfl⟩ : ∃ f, fuel = f + 1 := ⟨fuel - 1, by omega⟩
      obtain ⟨ks, cs, fp', hn, hne, -, hch, -⟩ := hL
      obtain ⟨ks, k, rfl⟩ : ∃ ks' k, ks = ks' ++ [k] := by
        rcases List.eq_nil_or_concat ks with rfl | ⟨ks', k, rfl⟩
        · exact absurd rfl hne
        · exact ⟨ks', k, List.concat_eq_append ..⟩
      obtain ⟨cs₁, cs₂, its₁, its₂, fp₁, fp₂, rfl, rfl, rfl, h₁, h₂⟩ := hch.split
      obtain ⟨c, rfl, hc⟩ := h₂.of_nil
      have hmin : 1 ≤ cfg.minDegree := by
        simp only [BTreeCfg.minDegree]
        omega
      have hfuel' : h < fuel := by omega
      obtain ⟨m, its', x, hm, rfl, hx⟩ := ih hc.1 (hmin.trans hc.2) hfuel'
      refine ⟨m, its₁ ++ k :: its', x, ?_, by simp, hx⟩
      have hlen := h₁.length_eq
      have hchild := hn.child cs₁.length (by simp)
      rw [List.getElem?_append_right le_rfl] at hchild
      simp only [Nat.sub_self, List.getElem?_cons_zero] at hchild
      rw [BTreeSearch.rightMost, if_neg (by simp [hn.isLeaf]), hn.keyCnt,
        show (ks ++ [k]).length = cs₁.length by simp [hlen], ← hchild]
      exact hm

/-- `leftMost` leads to the first key of the layer. -/
theorem Layer.leftMost (hL : Layer cfg mem h par n its fp) (hT : 2 ≤ cfg.T)
    (hcnt : 0 < (mem.get n).keyCnt) {fuel : ℕ} (hfuel : h < fuel) :
    ∃ m its' x, BTreeSearch.leftMost mem fuel (some n) = .ok m ∧ its = x :: its' ∧
      (mem.get m).getKey 0 = x := by
  induction h generalizing par n its fp fuel with
  | zero =>
      obtain ⟨fuel, rfl⟩ : ∃ f, fuel = f + 1 := ⟨fuel - 1, by omega⟩
      obtain ⟨hn, -, -⟩ := hL
      cases its with
      | nil => simp [hn.keyCnt] at hcnt
      | cons x its' =>
          exact ⟨n, its', x, by simp [BTreeSearch.leftMost, hn.isLeaf], rfl,
            Node.Holds.getKey_append (show Node.Holds _ _ ([] ++ x :: its') from hn.toHolds)⟩
  | succ h ih =>
      obtain ⟨fuel, rfl⟩ : ∃ f, fuel = f + 1 := ⟨fuel - 1, by omega⟩
      obtain ⟨ks, cs, fp', hn, hne, -, hch, -⟩ := hL
      cases hch with
      | last => exact absurd rfl hne
      | @cons c cs k ks its₁ its₂ fp₁ fp₂ hc hrest =>
          have hmin : 1 ≤ cfg.minDegree := by
            simp only [BTreeCfg.minDegree]
            omega
          have hfuel' : h < fuel := by omega
          obtain ⟨m, its', x, hm, rfl, hx⟩ := ih hc.1 (hmin.trans hc.2) hfuel'
          refine ⟨m, its' ++ k :: its₂, x, ?_, by simp, hx⟩
          have hchild := hn.child 0 (by simp)
          rw [List.getElem?_cons_zero] at hchild
          rw [BTreeSearch.leftMost, if_neg (by simp [hn.isLeaf]), ← hchild]
          exact hm

end Ends

/-! ## The deletion -/

variable {E : Fault → NodeAllocator V → Prop} {p : NodeAllocator V}
variable {h n : ℕ} {par : Option ℕ} {its : List (KeyInfo V)} {fp rest : Multiset ℕ} {k : Range1d}

/-- What the deletion of a key below node `n` leaves behind. -/
def KeyRemoved (cfg : BTreeCfg) (p : NodeAllocator V) (h : ℕ) (par : Option ℕ) (n : ℕ)
    (its : List (KeyInfo V)) (k : Range1d) (rest : Multiset ℕ) (p' : NodeAllocator V) : Prop :=
  ∃ fp', Layer.Loose cfg p'.mempool h par n (without k its) fp' ∧ Owns p' (fp' + rest) ∧
    Agree rest p.mempool p'.mempool ∧ p'.ITEM_CNT = p.ITEM_CNT ∧
    (p.mempool.get n).keyCnt ≤ (p'.mempool.get n).keyCnt + 1

/-- `removeKey` does its work below the nodes of height `h`. -/
def RemovesKeys (cfg : BTreeCfg) (E : Fault → NodeAllocator V → Prop) (h : ℕ) : Prop :=
  ∀ (fuel : ℕ) (p : NodeAllocator V) (par : Option ℕ) (n : ℕ) (its : List (KeyInfo V))
    (fp rest : Multiset ℕ) (k : Range1d), Layer cfg p.mempool h par n its fp →
    StrictlyOrdered its → (∃ x ∈ its, x.key = k) → Owns p (fp + rest) → 2 * h + 1 ≤ fuel →
    Ensures E (BTreeRemove.removeKey cfg fuel n k) p fun _ p' =>
      KeyRemoved cfg p h par n its k rest p'

section Opened

variable {i cnt c : ℕ} {its₁ C its₂ : List (KeyInfo V)} {fpC fpR : Multiset ℕ} {fuel : ℕ}

variable (rest) in
/-- A deletion in the child an open node is open at. -/
theorem RemovesKeys.ensures_child (hT : 2 ≤ cfg.T) (ih : RemovesKeys cfg E h)
    (hO : Opened cfg p.mempool h par n i cnt its₁ c C its₂ fpC fpR)
    (hrich : cfg.minDegree + 1 ≤ (p.mempool.get c).keyCnt) (hstrict : StrictlyOrdered C)
    (hx : ∃ x ∈ C, x.key = k) (ho : Owns p (n ::ₘ (fpC + fpR) + rest))
    (hfuel : 2 * h + 1 ≤ fuel) :
    Ensures E (BTreeRemove.removeKey cfg fuel c k) p fun _ p' => ∃ fp',
      Layer.Loose cfg p'.mempool (h + 1) par n (its₁ ++ (without k C ++ its₂)) fp' ∧
      Owns p' (fp' + rest) ∧ Agree rest p.mempool p'.mempool ∧ p'.ITEM_CNT = p.ITEM_CNT ∧
      (p'.mempool.get n).keyCnt = cnt := by
  have hmin : 1 ≤ cfg.minDegree := by
    simp only [BTreeCfg.minDegree]
    omega
  obtain ⟨-, -, hC⟩ := hO.child
  have hsum : ∀ fpC : Multiset ℕ, n ::ₘ (fpC + fpR) + rest = fpC + (n ::ₘ fpR + rest) := by
    intro fpC
    simp only [Multiset.cons_add, Multiset.add_cons, add_assoc]
  refine (ih fuel p (some n) c C fpC (n ::ₘ fpR + rest) k hC hstrict hx (hsum fpC ▸ ho) hfuel).mono
    ?_
  rintro - p' ⟨fpC', hL, ho', hagree, hN, hcnt⟩
  obtain ⟨hloose, hkc⟩ := hO.close (hL.layer (by omega)) (by omega)
    (hagree.mono (Multiset.le_add_right _ _))
  exact ⟨_, hloose, by rwa [hsum], hagree.mono (Multiset.le_add_left _ _), hN, hkc⟩

end Opened

/-- A key is taken out of a leaf. -/
theorem removesKeys_zero : RemovesKeys (V := V) cfg E 0 := by
  rintro fuel p par n its fp rest k hL hstrict ⟨x, hx, rfl⟩ ho hfuel
  obtain ⟨fuel, rfl⟩ : ∃ f, fuel = f + 1 := ⟨fuel - 1, by omega⟩
  obtain ⟨hn, hlen, rfl⟩ := hL
  obtain ⟨L, R, rfl, hidx, hL, hR⟩ := findKey_spec hn.toHolds x.key
  obtain ⟨R, rfl⟩ := StrictlyOrdered.eq_cons (List.pairwise_append.mp hstrict).2.1
    (hstrict.mem_right hx hL) hR
  have hkc := hn.keyCnt
  rw [List.length_append, List.length_cons] at hkc
  rw [BTreeRemove.removeKey]
  refine Ensures.bind (ensures_read ?_)
  simp only [hidx, hn.toHolds.getKey_append]
  rw [if_pos ⟨by omega, trivial⟩, if_pos hn.isLeaf, BTreeRemove.removeFromLeaf]
  refine ensures_update ⟨{n}, ⟨⟨?_, ?_, ?_⟩, ?_, rfl⟩, ho.congr (samePool_write _ _), ?_, rfl, ?_⟩
  · simp only [Store.get_set_self]
    rw [hstrict.without]
    exact hn.toHolds.eraseKey
  · simp only [Store.get_set_self]
    exact (Node.shiftKeysLeft_sameFrame _ _ _).isLeaf.trans hn.isLeaf
  · simp only [Store.get_set_self]
    intro j
    exact (congrArg (·.get j) (Node.shiftKeysLeft_sameFrame _ _ _).childIndex).trans (hn.child j)
  · rw [hstrict.without]
    simp only [List.length_append, List.length_cons] at hlen ⊢
    omega
  · refine (Agree.refl _ _).set fun hnr => ?_
    exact (Multiset.nodup_cons.mp (Multiset.singleton_add n rest ▸ ho.nodup)).1 hnr
  · simp only [Store.get_set_self]
    show _ ≤ _ - 1 + 1
    omega

section Inner

variable {c s : ℕ} {ks₁ ks₂ its₁ its₂ C S : List (KeyInfo V)} {x : KeyInfo V}
variable {cs₁ cs₂ : List ℕ} {fp₁ fpC fpS fp₂ : Multiset ℕ} {fuel : ℕ}

/-- A key of an inner node gives way to the key before or behind it, or goes down into the
child that is merged of the children around it. -/
theorem RemovesKeys.ensures_removeFromNonLeaf (hT : 2 ≤ cfg.T) (ih : RemovesKeys cfg E h)
    (hn : (p.mempool.get n).InnerNode par (ks₁ ++ x :: ks₂) (cs₁ ++ c :: s :: cs₂))
    (hlen : (ks₁ ++ x :: ks₂).length ≤ cfg.maxDegree)
    (h₁ : Before (Child cfg p.mempool h n) ks₁ cs₁ its₁ fp₁)
    (hC : Child cfg p.mempool h n c C fpC) (hS : Child cfg p.mempool h n s S fpS)
    (h₂ : After (Child cfg p.mempool h n) ks₂ cs₂ its₂ fp₂)
    (hstrict : StrictlyOrdered (its₁ ++ (C ++ x :: (S ++ its₂))))
    (ho : Owns p (n ::ₘ (fpS + fpC + (fp₁ + fp₂)) + rest)) (hfuel : 2 * h + 2 ≤ fuel) :
    Ensures E (BTreeRemove.removeFromNonLeaf cfg fuel n ks₁.length) p fun _ p' =>
      KeyRemoved cfg p (h + 1) par n (its₁ ++ (C ++ x :: (S ++ its₂))) x.key rest p' := by
  obtain ⟨fuel, rfl⟩ : ∃ f, fuel = f + 1 := ⟨fuel - 1, by omega⟩
  have hmin : 1 ≤ cfg.minDegree := by
    simp only [BTreeCfg.minDegree]
    omega
  have hap := Apart.of_owns ho
  obtain ⟨hchc, hchs⟩ := hn.siblings h₁.length_eq
  have hdepth : h < callDepth cfg p := by
    have hh := hC.1.height_lt_card
    have hcard := ho.card_le
    simp only [Multiset.card_add, Multiset.card_cons] at hcard
    simp only [callDepth]
    omega
  have hx : (p.mempool.get n).getKey ks₁.length = x := hn.toHolds.getKey_append
  have hkc := hn.keyCnt
  -- the node with another key in the place of `x`
  have hput : ∀ y : KeyInfo V, ∀ p' : NodeAllocator V,
      p' = { p with mempool := p.mempool.set n ((p.mempool.get n).setKey ks₁.length y) } →
      SamePool p p' ∧ (∀ fp : Multiset ℕ, n ∉ fp → Agree fp p.mempool p'.mempool) ∧
        (p'.mempool.get n).InnerNode par (ks₁ ++ y :: ks₂) (cs₁ ++ c :: s :: cs₂) ∧
        ∀ j, j ≠ n → p'.mempool.get j = p.mempool.get j := by
    rintro y p' rfl
    have hslot : (p.mempool.get n).SlotChanged ((p.mempool.get n).setKey ks₁.length y)
        ks₁.length y := ⟨Node.sameFrame_setKey _ _ _, fun j => Node.getKey_setKey _ _ _ _⟩
    refine ⟨samePool_write _ _, fun fp hfp => (Agree.refl _ _).set hfp, ?_, fun j hj =>
      Store.get_set_of_ne _ _ hj⟩
    simp only [Store.get_set_self]
    exact ⟨hn.toHolds.slotChanged rfl hslot, hn.isLeaf, hn.child⟩
  have hcnt : ks₁.length + (ks₂.length + 1) ≤ cfg.maxDegree := by simpa using hlen
  have hwithout : without x.key (its₁ ++ (C ++ x :: (S ++ its₂))) = its₁ ++ (C ++ (S ++ its₂)) := by
    rw [← List.append_assoc] at hstrict ⊢
    rw [hstrict.without, List.append_assoc]
  have hsub : ∀ A B : List (KeyInfo V), its₁ ++ (C ++ x :: (S ++ its₂)) = A ++ B →
      StrictlyOrdered A ∧ StrictlyOrdered B := fun A B hAB =>
    ⟨(List.pairwise_append.mp (hAB ▸ hstrict)).1, (List.pairwise_append.mp (hAB ▸ hstrict)).2.1⟩
  rw [BTreeRemove.removeFromNonLeaf]
  refine Ensures.bind (Ensures.get (Ensures.bind (ensures_read ?_)))
  rw [hx]
  refine Ensures.bind (ensures_childKeyCnt hchc (Ensures.ite (fun hrich => ?_) fun hpoor => ?_))
  · -- the key before `x` takes its place
    obtain ⟨m, C', pred, hm, rfl, hpred⟩ := hC.1.rightMost hT (hmin.trans hC.2) hdepth
    refine Ensures.bind (ensures_reading (a := pred) ?_ (Ensures.bind (ensures_update ?_)))
    · simp [BTreeSearch.getPred, hchc, hm, hpred, Bind.bind, Except.bind, Pure.pure, Except.pure]
    · obtain ⟨hsame, hagree, hn', hother⟩ := hput pred _ rfl
      refine Ensures.bind (ensures_read (Ensures.bind (ensures_deref
        (hn'.siblings h₁.length_eq).1 ?_)))
      have hstrictC : StrictlyOrdered (C' ++ [pred]) := by
        have := (hsub (its₁ ++ (C' ++ [pred])) (x :: (S ++ its₂)) (by simp)).1
        exact (List.pairwise_append.mp this).2.1
      refine (ih.ensures_child rest hT
        ⟨ks₁, pred :: ks₂, cs₁, s :: cs₂, fp₁, fpS + fp₂, rfl, rfl, hcnt, hn',
          Before.frame h₁ (hagree fp₁ fun h => hap.nodeO (by simp [h])),
          hC.1.frame (hagree fpC hap.node₂),
          .cons (Child.frame hS (hagree fpS hap.node₁))
            (After.frame h₂ (hagree fp₂ fun h => hap.nodeO (by simp [h]))), rfl⟩
        ?_ hstrictC ⟨pred, by simp, rfl⟩ ?_ (by omega)).mono ?_
      · rw [hother c fun h => hap.node₂ (h ▸ hC.1.root_mem)]
        exact hrich
      · have : fpC + (fp₁ + (fpS + fp₂)) = fpS + fpC + (fp₁ + fp₂) := by abel
        rw [this]
        exact ho.congr hsame
      · rintro - p' ⟨fp', hL, ho', hagree', hN, hkc'⟩
        refine ⟨fp', ?_, ho', (hagree rest hap.nodeR).trans hagree', hN, ?_⟩
        · rw [hwithout]
          rw [StrictlyOrdered.without hstrictC] at hL
          simpa using hL
        · rw [hkc', hkc]
          simp
  · refine Ensures.bind (ensures_childKeyCnt hchs (Ensures.ite (fun hrich => ?_) fun hpoorS => ?_))
    · -- the key behind `x` takes its place
      obtain ⟨m, S', succ, hm, rfl, hsucc⟩ := hS.1.leftMost hT (hmin.trans hS.2) hdepth
      refine Ensures.bind (ensures_reading (a := succ) ?_ (Ensures.bind (ensures_update ?_)))
      · simp [BTreeSearch.getSucc, hchs, hm, hsucc, Bind.bind, Except.bind, Pure.pure, Except.pure]
      · obtain ⟨hsame, hagree, hn', hother⟩ := hput succ _ rfl
        refine Ensures.bind (ensures_read (Ensures.bind (ensures_deref
          (hn'.siblings h₁.length_eq).2 ?_)))
        have hstrictS : StrictlyOrdered ([] ++ succ :: S') := by
          have := (hsub (its₁ ++ (C ++ [x])) ((succ :: S') ++ its₂) (by simp)).2
          exact (List.pairwise_append.mp this).1
        refine (ih.ensures_child rest hT
          ⟨ks₁ ++ [succ], ks₂, cs₁ ++ [c], cs₂, fp₁ + fpC, fp₂, List.length_append, by simp; omega,
            hcnt, by simpa using hn',
            (Before.frame h₁ (hagree fp₁ fun h => hap.nodeO (by simp [h]))).concat
              (Child.frame hC (hagree fpC hap.node₂)),
            hS.1.frame (hagree fpS hap.node₁),
            After.frame h₂ (hagree fp₂ fun h => hap.nodeO (by simp [h])), rfl⟩
          ?_ hstrictS ⟨succ, by simp, rfl⟩ ?_ (by omega)).mono ?_
        · rw [hother s fun h => hap.node₁ (h ▸ hS.1.root_mem)]
          exact hrich
        · have : fpS + (fp₁ + fpC + fp₂) = fpS + fpC + (fp₁ + fp₂) := by abel
          rw [this]
          exact ho.congr hsame
        · rintro - p' ⟨fp', hL, ho', hagree', hN, hkc'⟩
          refine ⟨fp', ?_, ho', (hagree rest hap.nodeR).trans hagree', hN, ?_⟩
          · rw [hwithout]
            rw [show without succ.key (succ :: S') = S' from hstrictS.without] at hL
            simpa using hL
          · rw [hkc', hkc]
            simp
    · -- the children around `x` become one
      have hcntC : (p.mempool.get c).keyCnt = cfg.minDegree := by
        have := hC.2
        omega
      have hcntS : (p.mempool.get s).keyCnt = cfg.minDegree := by
        have := hS.2
        omega
      refine Ensures.bind ((ensures_merge_layer hT ho hn hlen h₁ hC.1 hcntC hS.1 hcntS h₂).mono ?_)
      rintro - p₁ ⟨fpC', hO, hcnt', ho₁, hagree₁, hN₁⟩
      refine Ensures.bind (ensures_read (Ensures.bind (ensures_deref hO.child.1 ?_)))
      have hstrictC : StrictlyOrdered (C ++ x :: S) := by
        have := (hsub its₁ ((C ++ x :: S) ++ its₂) (by simp)).2
        exact (List.pairwise_append.mp this).1
      refine (ih.ensures_child rest hT hO (by omega) hstrictC ⟨x, by simp, rfl⟩ ho₁ (by omega)).mono ?_
      rintro - p' ⟨fp', hL, ho', hagree', hN, hkc'⟩
      refine ⟨fp', ?_, ho', hagree₁.trans hagree', hN.trans hN₁, ?_⟩
      · rw [hwithout]
        rw [hstrictC.without] at hL
        simpa using hL
      · rw [hkc', hkc]
        simp
        omega

end Inner

/-- `removeKey` takes a key out of a layer and keeps the others. -/
theorem removesKeys (hT : 2 ≤ cfg.T) (h : ℕ) : RemovesKeys (V := V) cfg E h := by
  induction h with
  | zero => exact removesKeys_zero
  | succ h ih =>
      rintro fuel p par n its fp rest k hL hstrict ⟨x, hx, rfl⟩ ho hfuel
      obtain ⟨fuel, rfl⟩ : ∃ f, fuel = f + 1 := ⟨fuel - 1, by omega⟩
      obtain ⟨ks, cs, fp', hn, hne, hlen, hch, rfl⟩ := hL
      have hkc := hn.keyCnt
      obtain ⟨ks₁, ks₂, rfl, hidx, hks₁, hks₂⟩ := findKey_spec hn.toHolds x.key
      obtain ⟨cs₁, c, cs₂, its₁, C, its₂, fp₁, fpC, fp₂, rfl, rfl, rfl, h₁, hC, h₂⟩ := hch.focus
      rw [List.length_append] at hkc hlen
      have hlast : ∀ a ∈ its₁.getLast?, a.key.low < x.key.low := by
        rcases List.eq_nil_or_concat ks₁ with rfl | ⟨ks₁, y, rfl⟩
        · cases h₁
          simp
        · rw [List.concat_eq_append] at h₁ hks₁
          obtain ⟨its', rfl⟩ := h₁.concat_eq
          simpa using hks₁
      have hxr := hstrict.mem_right hx hlast
      rw [BTreeRemove.removeKey]
      refine Ensures.bind (ensures_read ?_)
      simp only [hidx, hn.isLeaf, Bool.false_eq_true, if_false]
      by_cases hhere : ∃ y ks₂', ks₂ = y :: ks₂' ∧ y.key = x.key
      · -- the key is in this node
        obtain ⟨y, ks₂, rfl, hy⟩ := hhere
        cases h₂ with
        | @cons s cs₂ _ _ S its₂ fpS fp₂ hS h₂ =>
            have hget := hn.toHolds.getKey_append
            rw [if_pos ⟨by simp at hkc; omega, by rw [hget, hy]⟩, ← hy]
            refine ih.ensures_removeFromNonLeaf hT hn (by simpa using hlen) h₁ hC hS h₂ hstrict ?_
              (by omega)
            have : fpS + fpC + (fp₁ + fp₂) = fp₁ + (fpC + (fpS + fp₂)) := by abel
            rwa [this]
      · -- the key is below the child
        rw [if_neg]
        swap
        · rintro ⟨hlt, hkey⟩
          rw [hkc] at hlt
          obtain ⟨y, ks₂, rfl⟩ := List.exists_cons_of_ne_nil (List.length_pos_iff.mp
            (show 0 < ks₂.length by omega))
          exact hhere ⟨y, ks₂, rfl, by rwa [hn.toHolds.getKey_append] at hkey⟩
        have hxC : x ∈ C := by
          refine (List.mem_append.mp hxr).resolve_right fun hx₂ => ?_
          cases h₂ with
          | nil => simp at hx₂
          | @cons _ _ y _ _ _ _ _ hd hrest =>
              have hstrict₂ := (List.pairwise_append.mp (List.pairwise_append.mp hstrict).2.1).2.1
              obtain ⟨B, hB⟩ := StrictlyOrdered.eq_cons hstrict₂ hx₂ (by simpa using hks₂)
              rw [List.cons.injEq] at hB
              exact hhere ⟨y, _, rfl, by rw [hB.1]⟩
        have hO : Opened cfg p.mempool h par n ks₁.length (p.mempool.get n).keyCnt its₁ c C its₂ fpC
            (fp₁ + fp₂) :=
          ⟨ks₁, ks₂, cs₁, cs₂, fp₁, fp₂, rfl, hkc.symm, by omega, hn, h₁, hC.1, h₂, rfl⟩
        have ho' : Owns p (n ::ₘ (fpC + (fp₁ + fp₂)) + rest) := by
          have : fpC + (fp₁ + fp₂) = fp₁ + (fpC + fp₂) := by abel
          rwa [this]
        have htail : ∀ p₁, Filled cfg p h par n ks₁.length (p.mempool.get n).keyCnt its₁ C its₂
            rest p₁ → Ensures E (do
              let nd ← DynamicMempool.read n
              let c ← if decide (ks₁.length = (p.mempool.get n).keyCnt) ∧ ks₁.length > nd.keyCnt then
                  deref (nd.childIndex.get (ks₁.length - 1))
                else deref (nd.childIndex.get ks₁.length)
              BTreeRemove.removeKey cfg fuel c x.key) p₁ fun _ p' =>
                KeyRemoved cfg p (h + 1) par n (its₁ ++ (C ++ its₂)) x.key rest p' := by
          rintro p₁ ⟨i', cnt', its₁', c', C', its₂', fpC', fpR', hO', hits, hsub, hrich, hi', hcnt',
            ho₁, hagree₁, hN₁⟩
          obtain ⟨hlink, hkc₁, hC'⟩ := hO'.child
          have hgo : Ensures E (BTreeRemove.removeKey cfg fuel c' x.key) p₁ fun _ p' =>
              KeyRemoved cfg p (h + 1) par n (its₁ ++ (C ++ its₂)) x.key rest p' := by
            rw [← hits] at hstrict
            refine (ih.ensures_child rest hT hO' hrich hstrict.infix ⟨x, hsub x hxC, rfl⟩ ho₁
              (by omega)).mono ?_
            rintro - p' ⟨fp', hL, ho', hagree', hN, hkc'⟩
            refine ⟨fp', ?_, ho', hagree₁.trans hagree', hN.trans hN₁, by omega⟩
            rwa [← hits, hstrict.without_middle (hsub x hxC) rfl]
          refine Ensures.bind (ensures_read ?_)
          rw [hkc₁]
          by_cases hc : ks₁.length = (p.mempool.get n).keyCnt ∧ cnt' < ks₁.length
          · rw [if_pos hc] at hi'
            rw [if_pos ⟨decide_eq_true hc.1, hc.2⟩, hi']
            exact Ensures.bind (ensures_deref hlink hgo)
          · rw [if_neg hc] at hi'
            rw [if_neg fun h => hc ⟨of_decide_eq_true h.1, h.2⟩, hi']
            exact Ensures.bind (ensures_deref hlink hgo)
        refine Ensures.bind (ensures_childKeyCnt hO.child.1 ?_)
        refine Ensures.ite (fun hpoor => ?_) fun hrich => ?_
        · refine Ensures.bind ((ensures_fill hT hO ?_ ?_ ho').mono fun _ p₁ hp₁ => htail p₁ hp₁)
          · rw [hkc, ← List.length_append]
            exact List.length_pos_iff.mpr hne
          · have := hC.2
            omega
        · exact htail p ⟨ks₁.length, _, its₁, c, C, its₂, fpC, _, hO, rfl, fun _ h => h, by omega,
            if_neg (by omega), by omega, ho', .refl _ _, rfl⟩

/-- `remove_1d`: the layer without the key.  Without any key left there is no layer, and
the last node goes back to the pool. -/
theorem ensures_remove1d (hT : 2 ≤ cfg.T) (hL : Layer cfg p.mempool h none n its fp)
    (hstrict : StrictlyOrdered its) (hk : ∃ x ∈ its, x.key = k) (ho : Owns p (fp + rest)) :
    Ensures E (BTreeRemove.remove1d cfg k n) p fun root p' => ∃ fp', Owns p' (fp' + rest) ∧
      Agree rest p.mempool p'.mempool ∧ p'.ITEM_CNT = p.ITEM_CNT ∧
      match root with
      | none => without k its = [] ∧ fp' = 0
      | some r => without k its ≠ [] ∧ ∃ h', Layer cfg p'.mempool h' none r (without k its) fp' := by
  have hmin : 1 ≤ cfg.minDegree := by
    simp only [BTreeCfg.minDegree]
    omega
  have hdepth : 2 * h + 1 ≤ callDepth cfg p := by
    have hh := hL.height_lt_card
    have hcard := ho.card_le
    rw [Multiset.card_add] at hcard
    simp only [callDepth]
    omega
  refine Ensures.bind (Ensures.get (Ensures.bind ((removesKeys hT h _ p none n its fp rest k hL
    hstrict hk ho hdepth).mono ?_)))
  rintro - p₁ ⟨fp₁, hL₁, ho₁, hagree₁, hN₁, -⟩
  refine Ensures.bind (ensures_read (Ensures.ite (fun hzero => ?_) fun hpos => ?_))
  · cases h with
    | zero =>
        obtain ⟨hn, -, rfl⟩ := hL₁
        have hnil : without k its = [] := List.length_eq_zero_iff.mp (hn.keyCnt.symm.trans hzero)
        rw [Multiset.singleton_add] at ho₁
        rw [if_pos hn.isLeaf]
        refine Ensures.bind (Ensures.pure (Ensures.bind (ensures_update (Ensures.bind
          (ensures_release (ho₁.congr (samePool_write _ _)) fun p' ho' hN' hm' =>
            Ensures.pure ?_)))))
        refine ⟨0, by rwa [zero_add], hagree₁.trans fun j hj => ?_, hN'.trans hN₁, hnil, rfl⟩
        have hjn : j ≠ n := fun h => (Multiset.nodup_cons.mp ho₁.nodup).1 (h ▸ hj)
        rw [hm']
        exact Store.get_set_of_ne _ _ hjn
    | succ h =>
        obtain ⟨ks, cs, fpc, hn, -, hch, rfl⟩ := hL₁
        obtain rfl : ks = [] := List.length_eq_zero_iff.mp (hn.keyCnt.symm.trans hzero)
        obtain ⟨c, rfl, hc⟩ := hch.of_nil
        have hlink : (p₁.mempool.get n).childIndex.get 0 = some c := by
          simpa using (hn.child 0 (by simp)).symm
        rw [Multiset.cons_add] at ho₁
        obtain ⟨hn_not, hnd⟩ := Multiset.nodup_cons.mp ho₁.nodup
        obtain ⟨hndc, -, hdisj⟩ := Multiset.nodup_add.mp hnd
        have hcf := hc.1.root_mem
        have hnc : n ≠ c := fun h => hn_not (by simp [h, hcf])
        rw [if_neg (by simp [hn.isLeaf])]
        refine Ensures.bind (ensures_deref hlink (Ensures.bind (ensures_update (Ensures.bind
          (Ensures.pure (Ensures.bind (ensures_update (Ensures.bind (ensures_release
            (ho₁.congr ((samePool_write _ _).trans (samePool_write _ _))) fun p' ho' hN' hm' =>
              Ensures.pure ?_)))))))))
        have hget : ∀ j, j ≠ n → j ≠ c → p'.mempool.get j = p₁.mempool.get j := by
          intro j hjn hjc
          rw [hm']
          simp only [Store.get_set_of_ne _ _ hjn, Store.get_set_of_ne _ _ hjc]
        refine ⟨fpc, ho', hagree₁.trans fun j hj => hget j ?_ ?_, hN'.trans hN₁,
          hc.1.ne_nil (hmin.trans hc.2), h, hc.1.setParent hndc ?_ fun j hj hjc => hget j ?_ hjc⟩
        · exact fun h => hn_not (by simp [← h, hj])
        · exact fun h => Multiset.disjoint_left.mp hdisj hcf (h ▸ hj)
        · rw [hm']
          simp only [Store.get_set_of_ne _ _ hnc.symm, Store.get_set_self]
        · exact fun h => hn_not (by simp [← h, hj])
  · have hL' := hL₁.layer (Nat.pos_of_ne_zero hpos)
    exact Ensures.pure ⟨fp₁, ho₁, hagree₁, hN₁, hL'.ne_nil (Nat.pos_of_ne_zero hpos), h, hL'⟩

end Pcv
