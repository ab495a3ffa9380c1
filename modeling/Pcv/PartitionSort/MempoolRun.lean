import Pcv.PartitionSort.MempoolOwnership

/-!
# What a memory pool tells about its items

A pool is used through `get` and `release` alone.  As long as only items that are in
use are released, the free list holds exactly the other ones.

A null link marks both the items in use and the end of the free list.  So the last
item of the free list looks as if it were in use, and its release is not noticed;
and `size` takes a pool without free items for an empty one.
-/

namespace Pcv

namespace DynamicMempool

variable {α : Type} {N : ℕ} {raw : α} {p p' : DynamicMempool α} {live : Multiset ℕ}

/-- The states of a pool of `N` items and the items in use, after any calls of `get` and
`release` of which each release is allowed. -/
inductive Reaches (N : ℕ) (raw : α) (allowed : DynamicMempool α → Multiset ℕ → ℕ → Prop) :
    DynamicMempool α → Multiset ℕ → Prop
  | make : Reaches N raw allowed (make N raw) 0
  | get {p p' : DynamicMempool α} {live : Multiset ℕ} {obj : α} {i : ℕ} :
      Reaches N raw allowed p live → get obj p = .ok i p' → Reaches N raw allowed p' (i ::ₘ live)
  | getFails {p p' : DynamicMempool α} {live : Multiset ℕ} {obj : α} {e : Fault} :
      Reaches N raw allowed p live → DynamicMempool.get obj p = .error e p' →
        Reaches N raw allowed p' live
  | release {p p' : DynamicMempool α} {live : Multiset ℕ} {i : ℕ} :
      Reaches N raw allowed p live → allowed p live i → release i p = .ok ⟨⟩ p' →
        Reaches N raw allowed p' (live.erase i)
  | releaseFails {p p' : DynamicMempool α} {live : Multiset ℕ} {i : ℕ} {e : Fault} :
      Reaches N raw allowed p live → allowed p live i →
        DynamicMempool.release i p = .error e p' → Reaches N raw allowed p' live

/-- The items are on the free list or in use, each of them once. -/
structure Partitioned (N : ℕ) (p : DynamicMempool α) (free : List ℕ) (live : Multiset ℕ) :
    Prop where
  ITEM_CNT : p.ITEM_CNT = N
  chain : FreeChain p.nextFree p.firstFree free
  all : ↑free + live = Multiset.range N
  inUse : ∀ i ∈ live, p.nextFree.get i = none

/-- The item at which the free list ends. -/
def IsLastFree (p : DynamicMempool α) (i : ℕ) : Prop :=
  ∃ free, FreeChain p.nextFree p.firstFree free ∧ free.getLast? = some i

namespace Partitioned

variable {free : List ℕ}

theorem nodup (h : Partitioned N p free live) : (↑free + live : Multiset ℕ).Nodup := by
  rw [h.all]
  exact Multiset.nodup_range N

theorem mem_iff (h : Partitioned N p free live) (i : ℕ) : i ∈ free ↔ i < N ∧ i ∉ live := by
  have hall : i ∈ (↑free + live : Multiset ℕ) ↔ i < N := by rw [h.all, Multiset.mem_range]
  rw [Multiset.mem_add, Multiset.mem_coe] at hall
  have hdisj := (Multiset.nodup_add.mp h.nodup).2.2
  constructor
  · intro hi
    exact ⟨hall.mp (.inl hi), Multiset.disjoint_left.mp hdisj (by simpa using hi)⟩
  · rintro ⟨hlt, hi⟩
    exact (hall.mpr hlt).resolve_right hi

theorem live_lt (h : Partitioned N p free live) {i : ℕ} (hi : i ∈ live) : i < N := by
  rw [← Multiset.mem_range, ← h.all]
  exact Multiset.mem_add.mpr (.inr hi)

theorem length_add_card (h : Partitioned N p free live) : free.length + live.card = N := by
  have := congrArg Multiset.card h.all
  simpa using this

end Partitioned

theorem partitioned_make (hN : 2 ≤ N) : Partitioned N (make N raw) (List.range' 0 N) 0 where
  ITEM_CNT := rfl
  chain := freeChain_make N 0 (by omega)
  all := by simp [Multiset.range, List.range_eq_range']
  inUse := by simp

/-- An allocation from a pool with free items. -/
theorem Partitioned.get {free : List ℕ} {i : ℕ} (h : Partitioned N p (i :: free) live) (obj : α) :
    ∃ p', DynamicMempool.get obj p = .ok i p' ∧ Partitioned N p' free (i ::ₘ live) := by
  have hchain := h.chain
  cases hf : p.firstFree with
  | none =>
      rw [hf] at hchain
      cases hchain
  | some j =>
      rw [hf] at hchain
      cases hchain with
      | cons hrest =>
          have hnd := h.nodup
          rw [← Multiset.cons_coe, Multiset.cons_add, Multiset.nodup_cons] at hnd
          obtain ⟨hi, -⟩ := hnd
          refine ⟨_, get_of_some hf obj, h.ITEM_CNT, hrest.set fun hil => hi ?_, ?_, ?_⟩
          · exact Multiset.mem_add.mpr (.inl (by simpa using hil))
          · rw [← h.all, ← Multiset.cons_coe, Multiset.cons_add, Multiset.add_cons]
          · intro j hj
            simp only [Store.get_set]
            split
            · rfl
            · next hne => exact h.inUse j ((Multiset.mem_cons.mp hj).resolve_left hne)

/-- A pool without free items. -/
theorem Partitioned.get_nil (h : Partitioned N p [] live) (obj : α) :
    DynamicMempool.get obj p = .error .badAlloc p := by
  apply get_of_none
  have hchain := h.chain
  cases hf : p.firstFree with
  | none => rfl
  | some j =>
      rw [hf] at hchain
      cases hchain

/-- The release of an item in use. -/
theorem Partitioned.release {free : List ℕ} {i : ℕ} (h : Partitioned N p free live)
    (hi : i ∈ live) :
    ∃ p', DynamicMempool.release i p = .ok ⟨⟩ p' ∧
      Partitioned N p' (i :: free) (live.erase i) := by
  have hfree : i ∉ free := fun hf => ((h.mem_iff i).mp hf).2 hi
  have hnd := (Multiset.nodup_add.mp h.nodup).2.1
  refine ⟨_, release_of_none (h.inUse i hi), h.ITEM_CNT, .cons ?_, ?_, ?_⟩
  · simpa using h.chain.set hfree
  · rw [← h.all, ← Multiset.cons_coe, Multiset.cons_add, ← Multiset.add_cons,
      Multiset.cons_erase hi]
  · intro j hj
    obtain ⟨hne, hj⟩ := (Multiset.Nodup.mem_erase_iff hnd).mp hj
    simp only
    rw [Store.get_set_of_ne _ _ hne]
    exact h.inUse j hj

/-- A free item that is not the last one of the list is recognised. -/
theorem Partitioned.release_free {free : List ℕ} {i : ℕ} (h : Partitioned N p free live)
    (hi : i ∈ free) (hlast : free.getLast? ≠ some i) :
    DynamicMempool.release i p = .error (.doubleFree i) p := by
  cases hn : p.nextFree.get i with
  | none =>
      have hnd : free.Nodup := by
        have := (Multiset.nodup_add.mp h.nodup).1
        simpa using this
      exact absurd ((h.chain.next_eq_none_iff hnd hi).mp hn) hlast
  | some j => exact release_of_some hn

/-- As long as no release takes the last item of the free list, the free list and the items in
use are the items of the pool. -/
theorem Reaches.partitioned {allowed : DynamicMempool α → Multiset ℕ → ℕ → Prop} (hN : 2 ≤ N)
    (hallowed : ∀ p live i, allowed p live i → i ∈ live ∨ i < N ∧ ¬ IsLastFree p i)
    (h : Reaches N raw allowed p live) : ∃ free, Partitioned N p free live := by
  induction h with
  | make => exact ⟨_, partitioned_make hN⟩
  | @get p p' live obj i _ hget ih =>
      obtain ⟨free, hp⟩ := ih
      cases free with
      | nil =>
          rw [hp.get_nil] at hget
          cases hget
      | cons j free =>
          obtain ⟨q, hq, hp'⟩ := hp.get obj
          rw [hq] at hget
          cases hget
          exact ⟨free, hp'⟩
  | @getFails p p' live obj e _ hget ih =>
      obtain ⟨free, hp⟩ := ih
      cases free with
      | nil =>
          rw [hp.get_nil] at hget
          cases hget
          exact ⟨_, hp⟩
      | cons j free =>
          obtain ⟨q, hq, -⟩ := hp.get obj
          rw [hq] at hget
          cases hget
  | @release p p' live i _ hok hrel ih =>
      obtain ⟨free, hp⟩ := ih
      by_cases hi : i ∈ live
      · obtain ⟨q, hq, hp'⟩ := hp.release hi
        rw [hq] at hrel
        cases hrel
        exact ⟨_, hp'⟩
      · obtain ⟨hlt, hlast⟩ := (hallowed _ _ _ hok).resolve_left hi
        rw [hp.release_free ((hp.mem_iff i).mpr ⟨hlt, hi⟩) fun h => hlast ⟨free, hp.chain, h⟩]
          at hrel
        cases hrel
  | @releaseFails p p' live i e _ hok hrel ih =>
      obtain ⟨free, hp⟩ := ih
      by_cases hi : i ∈ live
      · obtain ⟨q, hq, -⟩ := hp.release hi
        rw [hq] at hrel
        cases hrel
      · obtain ⟨hlt, hlast⟩ := (hallowed _ _ _ hok).resolve_left hi
        rw [hp.release_free ((hp.mem_iff i).mpr ⟨hlt, hi⟩) fun h => hlast ⟨free, hp.chain, h⟩]
          at hrel
        cases hrel
        exact ⟨_, hp⟩

/-! ## The ids of the items -/

section Ids

variable {a : Placement} {ndebug : Bool} {free : List ℕ} {i : ℕ}

@[simp] theorem Placement.index_addr (a : Placement) (i : ℕ) :
    (a.addr i - a.base) / a.itemSize = i := by
  rw [addr, Nat.add_sub_cancel_left, Nat.mul_div_cancel _ a.pos]

theorem getId_addr (a : Placement) (ndebug : Bool) (i : ℕ) (p : DynamicMempool α) :
    getId a ndebug (a.addr i) p = (checkId p ndebug i).map fun _ => i := by
  simp only [getId, Placement.index_addr]
  cases checkId p ndebug i <;> rfl

theorem getById_eq (a : Placement) (ndebug : Bool) (i : ℕ) (p : DynamicMempool α) :
    getById a ndebug i p = (checkId p ndebug i).map fun _ => a.addr i := by
  simp only [getById]
  cases checkId p ndebug i <;> rfl

theorem Partitioned.checkId_live (h : Partitioned N p free live) (hi : i ∈ live) (ndebug : Bool) :
    checkId p ndebug i = .ok ⟨⟩ := by
  have hlt := h.live_lt hi
  unfold checkId
  rw [h.ITEM_CNT, h.inUse i hi, if_neg (Nat.not_le.mpr hlt)]
  simp

/-- The check of an id sees every item that is not in use, save the last of the free list. -/
theorem Partitioned.checkId_free (h : Partitioned N p free live) (hi : i ∈ free) :
    checkId p false i = if free.getLast? = some i then .ok ⟨⟩ else .error (.deallocated i) := by
  have hlt := ((h.mem_iff i).mp hi).1
  have hnd : free.Nodup := by
    have := (Multiset.nodup_add.mp h.nodup).1
    simpa using this
  have hlast := h.chain.next_eq_none_iff hnd hi
  unfold checkId
  rw [h.ITEM_CNT, if_neg (by simp), if_neg (Nat.not_le.mpr hlt)]
  by_cases hn : p.nextFree.get i = none
  · rw [if_pos (hlast.mp hn), hn]
    rfl
  · rw [if_neg fun h => hn (hlast.mpr h), if_pos (Option.isSome_iff_ne_none.mpr hn)]

theorem Partitioned.isLastFree_iff (h : Partitioned N p free live) (i : ℕ) :
    IsLastFree p i ↔ free.getLast? = some i := by
  constructor
  · rintro ⟨free', hchain, hlast⟩
    rwa [h.chain.unique hchain]
  · exact fun hlast => ⟨free, h.chain, hlast⟩

end Ids

/-! ## A pool that is used properly -/

/-- What a pool guarantees about its free list, its items and their ids. -/
structure Sound (N : ℕ) (p : DynamicMempool α) (live : Multiset ℕ) : Prop where
  /-- The free list ends, and it holds each item that is not in use once. -/
  freeList : ∃ free, FreeChain p.nextFree p.firstFree free ∧ free.Nodup ∧
    ∀ i, i ∈ free ↔ i < N ∧ i ∉ live
  nodup : live.Nodup
  live_lt : ∀ i ∈ live, i < N
  get_badAlloc : ∀ obj, get obj p = .error .badAlloc p ↔ live.card = N
  get_fresh : ∀ obj, live.card ≠ N → ∃ i p', get obj p = .ok i p' ∧ i < N ∧ i ∉ live
  release_live : ∀ i ∈ live, ∃ p', release i p = .ok ⟨⟩ p'
  getById_getId : ∀ (a : Placement) (ndebug : Bool), ∀ i ∈ live,
    (getId a ndebug (a.addr i) p >>= fun id => getById a ndebug id p) = .ok (a.addr i)
  getId_injective : ∀ (a : Placement) (ndebug : Bool), ∀ i ∈ live, ∀ j ∈ live,
    a.addr i ≠ a.addr j → getId a ndebug (a.addr i) p ≠ getId a ndebug (a.addr j) p

theorem Partitioned.sound {free : List ℕ} (h : Partitioned N p free live) : Sound N p live := by
  have hnd := Multiset.nodup_add.mp h.nodup
  have hcard := h.length_add_card
  have hget : ∀ obj, live.card ≠ N →
      ∃ i p', DynamicMempool.get obj p = .ok i p' ∧ i < N ∧ i ∉ live := by
    intro obj hne
    cases free with
    | nil => exact absurd (by simpa using hcard) hne
    | cons i free =>
        obtain ⟨p', hp', -⟩ := h.get obj
        exact ⟨i, p', hp', (h.mem_iff i).mp (by simp)⟩
  refine ⟨⟨free, h.chain, by simpa using hnd.1, h.mem_iff⟩, hnd.2.1, fun i => h.live_lt, ?_, hget,
    ?_, ?_, ?_⟩
  · intro obj
    constructor
    · intro hbad
      by_contra hne
      obtain ⟨i, p', hp', -⟩ := hget obj hne
      rw [hp'] at hbad
      cases hbad
    · intro hN
      obtain rfl : free = [] := List.length_eq_zero_iff.mp (by omega)
      exact h.get_nil obj
  · intro i hi
    obtain ⟨p', hp', -⟩ := h.release hi
    exact ⟨p', hp'⟩
  · intro a ndebug i hi
    rw [getId_addr, h.checkId_live hi]
    exact (getById_eq a ndebug i p).trans (by rw [h.checkId_live hi]; rfl)
  · intro a ndebug i hi j hj hne
    rw [getId_addr, getId_addr, h.checkId_live hi, h.checkId_live hj]
    intro heq
    obtain rfl : i = j := Except.ok.inj heq
    exact hne rfl

/-- A pool keeps its guarantees as long as only items in use are released. -/
theorem sound_of_reaches (hN : 2 ≤ N)
    (h : Reaches N raw (fun _ live i => i ∈ live) p live) : Sound N p live := by
  obtain ⟨free, hp⟩ := h.partitioned hN fun _ _ _ hi => .inl hi
  exact hp.sound

/-- One item of a pool of two is taken. -/
theorem sound_of_reaches_one :
    Sound 2 { make 2 'a' with
      mempool := (make 2 'a').mempool.set 0 'b'
      nextFree := (make 2 'a').nextFree.set 0 none
      firstFree := some 1 } {0} :=
  sound_of_reaches (by decide) (.get .make (get_of_some rfl 'b'))

/-! ## What is not noticed -/

/-- The number of the free items, if the loop of `size` comes to the end of the list. -/
theorem countFree_of_chain {nextFree : Store (Option ℕ)} {first : Option ℕ} {l : List ℕ}
    (h : FreeChain nextFree first l) (fuel unused : ℕ) : countFree nextFree fuel first unused =
      if l.length ≤ fuel then .ok (unused + l.length) else .error .nonTermination := by
  induction h generalizing fuel unused with
  | nil => cases fuel <;> rfl
  | @cons i l _ ih =>
      cases fuel with
      | zero => rfl
      | succ fuel =>
          rw [countFree, ih fuel (unused + 1), List.length_cons]
          by_cases hle : l.length ≤ fuel
          · rw [if_pos hle, if_pos (by omega)]
            congr 1
            omega
          · rw [if_neg hle, if_neg (by omega)]

/-- `size` depends on the number of the free items only. -/
theorem size_of_chain {free : List ℕ} (h : FreeChain p.nextFree p.firstFree free) :
    size p = if free = [] then .ok 0 else if free.length ≤ p.ITEM_CNT then
      .ok (p.ITEM_CNT - free.length) else .error .nonTermination := by
  unfold size
  cases hf : p.firstFree with
  | none =>
      rw [hf] at h
      cases h
      rfl
  | some i =>
      rw [hf] at h
      have hne : free ≠ [] := by
        cases h
        simp
      simp only [countFree_of_chain h, if_neg hne, Nat.zero_add]
      by_cases hle : free.length ≤ p.ITEM_CNT
      · rw [if_pos hle, if_pos hle]
        rfl
      · rw [if_neg hle, if_neg hle]
        rfl

/-- The number of items in use, as `size` tells it. -/
theorem Partitioned.size_eq {free : List ℕ} (h : Partitioned N p free live) :
    size p = .ok (if live.card = N then 0 else live.card) := by
  have hcard := h.length_add_card
  rw [size_of_chain h.chain, h.ITEM_CNT]
  by_cases hfree : free = []
  · rw [if_pos hfree, if_pos (by simpa [hfree] using hcard)]
  · have := List.length_pos_iff.mpr hfree
    rw [if_neg hfree, if_pos (by omega), if_neg (by omega)]
    congr 1
    omega

/-- Pools with the same items in use have the same size. -/
theorem Owns.size_eq {p' : DynamicMempool α} (h : Owns p live) (h' : Owns p' live)
    (hN : p.ITEM_CNT = p'.ITEM_CNT) : size p = size p' := by
  obtain ⟨free, hc, hall, -⟩ := h
  obtain ⟨free', hc', hall', -⟩ := h'
  have hlen : free.length = free'.length := by
    have h₁ := congrArg Multiset.card hall
    have h₂ := congrArg Multiset.card hall'
    simp only [Multiset.card_add, Multiset.coe_card, Multiset.card_range, hN] at h₁ h₂
    omega
  rw [size_of_chain hc, size_of_chain hc', hN, hlen]
  simp only [← List.length_eq_zero_iff, hlen]

/-- The pool tells about an item that is not in use that it is not. -/
structure TellsFree (p : DynamicMempool α) (i : ℕ) : Prop where
  release : DynamicMempool.release i p = .error (.doubleFree i) p
  getById : ∀ a : Placement, DynamicMempool.getById a false i p = .error (.deallocated i)
  getId : ∀ a : Placement, DynamicMempool.getId a false (a.addr i) p = .error (.deallocated i)

/-- The pool tells about an item in use that it is. -/
structure TellsLive (p : DynamicMempool α) (i : ℕ) : Prop where
  getById : ∀ a : Placement, DynamicMempool.getById a false i p = .ok (a.addr i)
  getId : ∀ a : Placement, DynamicMempool.getId a false (a.addr i) p = .ok i

/-- The releases that leave the free list intact: of an item in use, or of a free item that is
recognised as one. -/
def Noticed (N : ℕ) (p : DynamicMempool α) (live : Multiset ℕ) (i : ℕ) : Prop :=
  i ∈ live ∨ i < N ∧ ¬ IsLastFree p i

end DynamicMempool

end Pcv
