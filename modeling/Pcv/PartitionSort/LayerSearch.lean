import Pcv.PartitionSort.Layer

/-!
# The search in one layer

`searchPossition1d` finds a key of the layer it is started in, and the slot it
reports is the place of that key.  It can be relied on to find a key when the
keys begin in non-decreasing order and the probe selects the last key that
begins no later than its point.
-/

namespace Pcv

open BTreeSearch

variable {V : Type} {cfg : BTreeCfg} {mem : Store (Node V)} {h n : ℕ} {par : Option ℕ}
variable {its : List (KeyInfo V)} {fp : Multiset ℕ} {p : Probe}

/-- The keys begin in non-decreasing order. -/
def Ordered (its : List (KeyInfo V)) : Prop :=
  its.Pairwise fun a b => a.key.low ≤ b.key.low

/-- A key the probe would hit begins no later than its point, and every key behind it
begins behind the point. -/
def Probe.Selects (p : Probe) (its : List (KeyInfo V)) : Prop :=
  ∀ L x R, its = L ++ x :: R → p.hit x.key = true →
    x.key.low ≤ p.point ∧ ∀ y ∈ R, p.point < y.key.low

theorem Probe.Selects.infix {its₁ its₂ : List (KeyInfo V)}
    (hp : p.Selects (its₁ ++ (its ++ its₂))) : p.Selects its := by
  intro L x R heq hhit
  obtain ⟨hx, hR⟩ := hp (its₁ ++ L) x (R ++ its₂) (by simp [heq]) hhit
  exact ⟨hx, fun y hy => hR y (by simp [hy])⟩

/-- In front of a key that begins no later than the point, the probe hits nothing. -/
theorem Probe.Selects.not_hit_before {L R : List (KeyInfo V)} {x : KeyInfo V}
    (hp : p.Selects (L ++ x :: R)) (hx : x.key.low ≤ p.point) :
    ∀ a ∈ L, p.hit a.key = false := by
  intro a ha
  obtain ⟨L₁, L₂, rfl⟩ := List.append_of_mem ha
  by_contra hhit
  obtain ⟨-, hR⟩ := hp L₁ a (L₂ ++ x :: R) (by simp) (by simpa using hhit)
  exact absurd hx (Nat.not_le.mpr (hR x (by simp)))

/-- From a key that begins behind the point on, the probe hits nothing. -/
theorem Probe.Selects.not_hit_after {L R : List (KeyInfo V)} (hp : p.Selects (L ++ R))
    (ho : Ordered R) (hR : ∀ b ∈ R.head?, p.point < b.key.low) :
    ∀ a ∈ R, p.hit a.key = false := by
  intro a ha
  obtain ⟨R₁, R₂, rfl⟩ := List.append_of_mem ha
  by_contra hhit
  have hle := (hp (L ++ R₁) a R₂ (by simp) (by simpa using hhit)).1
  cases R₁ with
  | nil => exact absurd hle (Nat.not_le.mpr (hR a (by simp)))
  | cons b R₁ =>
      have hb : p.point < b.key.low := hR b (by simp)
      have hba : b.key.low ≤ a.key.low := (List.pairwise_cons.mp ho).1 a (by simp)
      omega

/-! ## One node -/

/-- What the sequential search says about the keys of the node: the first key that is
hit, or how many keys come before the first one that begins behind the point. -/
theorem searchSeq_spec {nd : Node V} {ks : List (KeyInfo V)} (hn : nd.Holds par ks)
    (p : Probe) :
    (∃ ks₁ x ks₂, ks = ks₁ ++ x :: ks₂ ∧
      searchSeq nd.keys nd.keyCnt p = ⟨ks₁.length, true⟩ ∧ p.hit x.key = true) ∨
    ∃ ks₁ ks₂, ks = ks₁ ++ ks₂ ∧ searchSeq nd.keys nd.keyCnt p = ⟨ks₁.length, false⟩ ∧
      (∀ a ∈ ks₁, p.hit a.key = false ∧ a.key.low ≤ p.point) ∧
        ∀ b ∈ ks₂.head?, p.point < b.key.low := by
  have main : ∀ suf pre, ks = pre ++ suf →
      (∀ a ∈ pre, p.hit a.key = false ∧ a.key.low ≤ p.point) →
      (∃ ks₁ x ks₂, ks = ks₁ ++ x :: ks₂ ∧
        searchSeqFrom nd.keys p suf.length pre.length = ⟨ks₁.length, true⟩ ∧
          p.hit x.key = true) ∨
      ∃ ks₁ ks₂, ks = ks₁ ++ ks₂ ∧
        searchSeqFrom nd.keys p suf.length pre.length = ⟨ks₁.length, false⟩ ∧
          (∀ a ∈ ks₁, p.hit a.key = false ∧ a.key.low ≤ p.point) ∧
            ∀ b ∈ ks₂.head?, p.point < b.key.low := by
    intro suf
    induction suf with
    | nil =>
        intro pre hks hpre
        exact .inr ⟨pre, [], hks, rfl, hpre, by simp⟩
    | cons x suf ih =>
        intro pre hks hpre
        have hx : (nd.keys.get pre.length) = x.key := by
          have := hn.getKey pre.length (by simp [hks])
          have hx : x = nd.getKey pre.length := by simpa [hks] using this
          rw [hx]
          rfl
        by_cases hbefore : p.point < x.key.low
        · refine .inr ⟨pre, x :: suf, hks, ?_, hpre, by simpa using hbefore⟩
          simp [searchSeqFrom, hx, hbefore]
        · cases hhit : p.hit x.key with
          | true =>
              refine .inl ⟨pre, x, suf, hks, ?_, hhit⟩
              simp [searchSeqFrom, hx, hbefore, hhit]
          | false =>
              have hpre' : ∀ a ∈ pre ++ [x], p.hit a.key = false ∧ a.key.low ≤ p.point := by
                intro a ha
                rcases List.mem_append.mp ha with ha | ha
                · exact hpre a ha
                · obtain rfl : a = x := by simpa using ha
                  exact ⟨hhit, Nat.not_lt.mp hbefore⟩
              have := ih (pre ++ [x]) (by simp [hks]) hpre'
              simpa [searchSeqFrom, hx, hbefore, hhit] using this
  have := main ks [] rfl (by simp)
  simpa [searchSeq, hn.keyCnt] using this

/-! ## The whole layer -/

/-- The search returns the slot of a key it hits; and if it returns nothing, the layer
holds no such key. -/
theorem Layer.search (hL : Layer cfg mem h par n its fp) (hnd : fp.Nodup) {fuel : ℕ}
    (hf : h < fuel) :
    (∃ m i L x R, searchPossition1d mem p fuel (some n) = .ok (some (m, i)) ∧
      its = L ++ x :: R ∧ KeyAt cfg mem h par n fp m i L x R ∧ p.hit x.key = true) ∨
    searchPossition1d mem p fuel (some n) = .ok none ∧
      (Ordered its → p.Selects its → ∀ a ∈ its, p.hit a.key = false) := by
  induction h generalizing par n its fp fuel with
  | zero =>
      obtain ⟨fuel, rfl⟩ : ∃ f, fuel = f + 1 := ⟨fuel - 1, by omega⟩
      obtain ⟨hleaf, hlen, rfl⟩ := hL
      rcases searchSeq_spec hleaf.toHolds p with
        ⟨ks₁, x, ks₂, rfl, hs, hhit⟩ | ⟨ks₁, ks₂, rfl, hs, hbefore, hbehind⟩
      · refine .inl ⟨n, ks₁.length, ks₁, x, ks₂, ?_, rfl, .leaf hleaf hlen rfl, hhit⟩
        simp [searchPossition1d, hleaf.isCompressed, hs]
      · refine .inr ⟨?_, fun ho hp a ha => ?_⟩
        · simp [searchPossition1d, hleaf.isCompressed, hleaf.isLeaf, hs]
        · rcases List.mem_append.mp ha with ha | ha
          · exact (hbefore a ha).1
          · exact hp.not_hit_after (List.pairwise_append.mp ho).2.1 hbehind a ha
  | succ h ih =>
      obtain ⟨fuel, rfl⟩ : ∃ f, fuel = f + 1 := ⟨fuel - 1, by omega⟩
      obtain ⟨ks, cs, fp', hnode, hne, hlen, hch, rfl⟩ := hL
      rcases searchSeq_spec hnode.toHolds p with
        ⟨ks₁, x, ks₂, rfl, hs, hhit⟩ | ⟨ks₁, ks₂, rfl, hs, hbefore, hbehind⟩
      · obtain ⟨cs₁, cs₂, L, R, fp₁, fp₂, rfl, rfl, rfl, h₁, h₂⟩ := hch.split
        refine .inl ⟨n, ks₁.length, L, x, R, ?_, rfl, .inner hnode hlen rfl h₁ h₂ hnd, hhit⟩
        simp [searchPossition1d, hnode.isCompressed, hs]
      · obtain ⟨cs₁, c, cs₂, its₁, itsC, its₂, fp₁, fpC, fp₂, rfl, rfl, rfl, hb, hc, ha⟩ :=
          hch.focus
        have hchild : (mem.get n).childIndex.get ks₁.length = some c := by
          have := hnode.child cs₁.length (by simp)
          simpa [← hb.length_eq] using this.symm
        have hstep : searchPossition1d mem p (fuel + 1) (some n) =
            searchPossition1d mem p fuel (some c) := by
          simp [searchPossition1d, hnode.isCompressed, hnode.isLeaf, hs, hchild]
        have hndC : fpC.Nodup := by
          refine Multiset.nodup_of_le ?_ hnd
          exact (Multiset.le_add_right _ _).trans
            ((Multiset.le_add_left _ _).trans (Multiset.le_cons_self _ _))
        rw [hstep]
        rcases ih hc.1 hndC (show h < fuel by omega) with
          ⟨m, i, L, x, R, hres, rfl, hkey, hhit⟩ | ⟨hres, hnone⟩
        · refine .inl ⟨m, i, its₁ ++ L, x, R ++ its₂, hres, by simp, ?_, hhit⟩
          exact .child hnode hne hlen hb hc.2 hc.1.root_mem hkey ha hnd
        · refine .inr ⟨hres, fun ho hp a hmem => ?_⟩
          obtain ⟨-, ho', -⟩ := List.pairwise_append.mp ho
          obtain ⟨hoC, ho₂, -⟩ := List.pairwise_append.mp ho'
          rcases List.mem_append.mp hmem with hmem | hmem
          · -- the last key in front of the child begins no later than the point
            rcases List.eq_nil_or_concat ks₁ with rfl | ⟨ks₁, k, rfl⟩
            · cases hb
              simp at hmem
            · rw [List.concat_eq_append] at hb hbefore
              obtain ⟨its₁', rfl⟩ := hb.concat_eq
              obtain ⟨hk, hkle⟩ := hbefore k (by simp)
              rcases List.mem_append.mp hmem with hmem | hmem
              · rw [List.append_assoc] at hp
                exact hp.not_hit_before hkle a hmem
              · obtain rfl : a = k := by simpa using hmem
                exact hk
          · rcases List.mem_append.mp hmem with hmem | hmem
            · exact hnone hoC hp.infix a hmem
            · -- the first key behind the child begins behind the point
              have hhead : ∀ b ∈ its₂.head?, p.point < b.key.low := by
                cases ha with
                | nil => simp
                | cons _ _ => simpa using hbehind
              rw [← List.append_assoc] at hp
              exact hp.not_hit_after ho₂ hhead a hmem

end Pcv
