import Pcv.Library.Ensures
import Pcv.PartitionSort.MempoolDynamic
import Mathlib.Algebra.Order.Group.Multiset
import Mathlib.Data.Multiset.Range

/-!
# Who owns the cells of the pool

`Owns p live` says that the pool is sound and that the cells `live` are those that
are not on its free list, each of them once.  A data structure whose nodes are among
the live cells is not touched by an allocation, and a cell that is taken from the
pool is none of them.

Cells that nothing leads to any more stay live: no cell gets lost from the account.
-/

namespace Pcv

/-- The cells of the free list, from a link on. -/
inductive FreeChain (next : Store (Option ℕ)) : Option ℕ → List ℕ → Prop
  | nil : FreeChain next none []
  | cons {i : ℕ} {l : List ℕ} : FreeChain next (next.get i) l → FreeChain next (some i) (i :: l)

/-- A write to a cell that is not on the free list leaves the list as it is. -/
theorem FreeChain.set {next : Store (Option ℕ)} {first : Option ℕ} {l : List ℕ} {i : ℕ}
    {a : Option ℕ} (h : FreeChain next first l) (hi : i ∉ l) :
    FreeChain (next.set i a) first l := by
  induction h with
  | nil => exact .nil
  | @cons j l _ ih =>
      obtain ⟨hij, hi⟩ : i ≠ j ∧ i ∉ l := by simpa using hi
      refine .cons ?_
      rw [Store.get_set_of_ne _ _ hij.symm]
      exact ih hi

/-- The free list is determined by the links. -/
theorem FreeChain.unique {next : Store (Option ℕ)} {first : Option ℕ} {l l' : List ℕ}
    (h : FreeChain next first l) (h' : FreeChain next first l') : l = l' := by
  induction h generalizing l' with
  | nil => cases h'; rfl
  | cons _ ih =>
      cases h' with
      | cons h' => rw [ih h']

/-- Only the last item of the free list has a null link. -/
theorem FreeChain.next_eq_none_iff {next : Store (Option ℕ)} {first : Option ℕ} {l : List ℕ}
    (h : FreeChain next first l) (hnd : l.Nodup) {i : ℕ} (hi : i ∈ l) :
    next.get i = none ↔ l.getLast? = some i := by
  induction h with
  | nil => simp at hi
  | @cons j l hl ih =>
      obtain ⟨hj, hnd⟩ := List.nodup_cons.mp hnd
      cases hl' : l with
      | nil =>
          subst hl'
          obtain rfl : i = j := by simpa using hi
          have : next.get i = none := by
            cases hn : next.get i with
            | none => rfl
            | some k =>
                rw [hn] at hl
                cases hl
          simp [this]
      | cons k l' =>
          subst hl'
          rw [List.getLast?_cons_cons]
          rcases List.mem_cons.mp hi with rfl | hi
          · have hsome : next.get i ≠ none := by
              intro hn
              rw [hn] at hl
              cases hl
            refine ⟨fun hn => absurd hn hsome, fun hlast => ?_⟩
            exact absurd (List.mem_of_getLast? hlast) hj
          · exact ih hnd hi

namespace DynamicMempool

variable {α : Type} {p p' : DynamicMempool α} {live : Multiset ℕ}

/-- The pool is sound, and the cells `live` are the ones in use.  A pool of no items still has
the first cell, which its constructor puts on the free list. -/
def Owns (p : DynamicMempool α) (live : Multiset ℕ) : Prop :=
  ∃ free : List ℕ, FreeChain p.nextFree p.firstFree free ∧
    ↑free + live = Multiset.range (max 1 p.ITEM_CNT) ∧ ∀ i ∈ live, p.nextFree.get i = none

/-- Two pools with the same free list; only the objects may differ. -/
structure SamePool (p p' : DynamicMempool α) : Prop where
  ITEM_CNT : p'.ITEM_CNT = p.ITEM_CNT
  nextFree : p'.nextFree = p.nextFree
  firstFree : p'.firstFree = p.firstFree

theorem SamePool.refl (p : DynamicMempool α) : SamePool p p := ⟨rfl, rfl, rfl⟩

theorem SamePool.trans {p'' : DynamicMempool α} (h : SamePool p p') (h' : SamePool p' p'') :
    SamePool p p'' :=
  ⟨h'.ITEM_CNT.trans h.ITEM_CNT, h'.nextFree.trans h.nextFree, h'.firstFree.trans h.firstFree⟩

/-- Only the objects are written. -/
theorem samePool_write (p : DynamicMempool α) (m : Store α) :
    SamePool p { p with mempool := m } := ⟨rfl, rfl, rfl⟩

theorem Owns.congr (h : Owns p live) (hs : SamePool p p') : Owns p' live := by
  obtain ⟨free, hc, hall, hlive⟩ := h
  exact ⟨free, by rwa [hs.nextFree, hs.firstFree], by rwa [hs.ITEM_CNT], by rwa [hs.nextFree]⟩

theorem Owns.nodup (h : Owns p live) : live.Nodup := by
  obtain ⟨free, -, hall, -⟩ := h
  refine Multiset.nodup_of_le (Multiset.le_add_left live ↑free) ?_
  rw [hall]
  exact Multiset.nodup_range _

/-- There are no more live cells than the pool has. -/
theorem Owns.card_le (h : Owns p live) : live.card ≤ p.ITEM_CNT + 1 := by
  obtain ⟨free, -, hall, -⟩ := h
  have := congrArg Multiset.card hall
  simp only [Multiset.card_add, Multiset.card_range] at this
  omega

/-- The free list of a new pool. -/
theorem freeChain_make (N : ℕ) (i : ℕ) (hi : i < N) :
    FreeChain ⟨fun i => if i + 1 < N then some (i + 1) else none, []⟩ (some i)
      (List.range' i (N - i)) := by
  induction hn : N - i generalizing i with
  | zero => omega
  | succ n ih =>
      refine .cons ?_
      by_cases hlast : i + 1 < N
      · have := ih (i + 1) hlast (by omega)
        simpa [Store.get, hlast] using this
      · have : n = 0 := by omega
        subst this
        simpa [Store.get, hlast] using FreeChain.nil

/-- Every cell of a new pool is free. -/
theorem owns_make (N : ℕ) (raw : α) : Owns (make N raw) 0 := by
  rcases Nat.eq_zero_or_pos N with rfl | hN
  · refine ⟨[0], .cons ?_, rfl, by simp⟩
    simpa [make, Store.get] using FreeChain.nil
  · refine ⟨List.range' 0 N, by simpa [make] using freeChain_make N 0 hN, ?_, by simp⟩
    have hmax : max 1 (make N raw).ITEM_CNT = N := max_eq_right hN
    rw [hmax]
    simp [Multiset.range, List.range_eq_range']

/-! ## The operations -/

section Operations

variable {ε : Fault → DynamicMempool α → Prop}

theorem ensures_read {i : ℕ} {Q : α → DynamicMempool α → Prop} (h : Q (p.mempool.get i) p) :
    Ensures ε (read i) p Q := h

theorem ensures_update {i : ℕ} {f : α → α} {Q : Unit → DynamicMempool α → Prop}
    (h : Q ⟨⟩ { p with mempool := p.mempool.set i (f (p.mempool.get i)) }) :
    Ensures ε (update i f) p Q := h

/-- An allocation fails or takes a cell that is not in use. -/
theorem ensures_get {obj : α} {Q : ℕ → DynamicMempool α → Prop} (ho : Owns p live)
    (hfull : ε .badAlloc p)
    (h : ∀ i p', i ∉ live → Owns p' (i ::ₘ live) → p'.ITEM_CNT = p.ITEM_CNT →
      p'.mempool = p.mempool.set i obj → Q i p') :
    Ensures ε (get obj) p Q := by
  obtain ⟨free, hc, hall, hlive⟩ := ho
  cases hc' : p.firstFree with
  | none =>
      exact Ensures.of_error (get_of_none hc' obj) hfull
  | some i =>
      rw [hc'] at hc
      cases hc with
      | @cons _ l hrest =>
          rw [← Multiset.cons_coe, Multiset.cons_add] at hall
          have hnd : (i ::ₘ (↑l + live)).Nodup := by
            rw [hall]
            exact Multiset.nodup_range _
          have hi := (Multiset.nodup_cons.mp hnd).1
          have hil : i ∉ l := fun h => hi (Multiset.mem_add.mpr (.inl (by simpa using h)))
          have hilive : i ∉ live := fun h => hi (Multiset.mem_add.mpr (.inr h))
          refine Ensures.of_ok (get_of_some hc' obj) ?_
          refine h i _ hilive ⟨l, hrest.set hil, ?_, ?_⟩ rfl rfl
          · rw [Multiset.add_cons]
            exact hall
          · intro j hj
            show (p.nextFree.set i none).get j = none
            rw [Store.get_set]
            split
            · rfl
            · next hne => exact hlive j ((Multiset.mem_cons.mp hj).resolve_left hne)

/-- A live cell can be released. -/
theorem ensures_release {i : ℕ} {Q : Unit → DynamicMempool α → Prop}
    (ho : Owns p (i ::ₘ live))
    (h : ∀ p', Owns p' live → p'.ITEM_CNT = p.ITEM_CNT → p'.mempool = p.mempool → Q ⟨⟩ p') :
    Ensures ε (release i) p Q := by
  have hilive := (Multiset.nodup_cons.mp ho.nodup).1
  obtain ⟨free, hc, hall, hlive⟩ := ho
  have hnone : p.nextFree.get i = none := hlive i (by simp)
  rw [Multiset.add_cons] at hall
  have hnd : (i ::ₘ (↑free + live)).Nodup := by
    rw [hall]
    exact Multiset.nodup_range _
  have hi := (Multiset.nodup_cons.mp hnd).1
  have hifree : i ∉ free := fun h => hi (Multiset.mem_add.mpr (.inl (by simpa using h)))
  refine Ensures.of_ok (release_of_none hnone) ?_
  refine h _ ⟨i :: free, .cons ?_, ?_, ?_⟩ rfl rfl
  · simpa using hc.set hifree
  · rw [← Multiset.cons_coe, Multiset.cons_add]
    exact hall
  · intro j hj
    have hne : j ≠ i := fun hji => hilive (hji ▸ hj)
    show (p.nextFree.set i p.firstFree).get j = none
    rw [Store.get_set_of_ne _ _ hne]
    exact hlive j (Multiset.mem_cons_of_mem hj)

end Operations

end DynamicMempool

end Pcv
