import Mathlib.Data.Multiset.Bind
import Mathlib.Data.List.Perm.Basic
import Mathlib.Logic.Relation
import Mathlib.Tactic.Abel

/-!
# Nodes that hang together like a forest

Nodes have links to other nodes.  `Spans` says that following the links from some roots on
ends, and counts every node once for each way that leads to it.  When no node is counted
twice, each of the nodes that can be reached has exactly one link to it, and what can be
reached is a forest.
-/

namespace Pcv

universe u

variable {ι : Type u} {links : ι → List ι}

/-- The nodes that the links of a list lead to, with a node for each way to it. -/
inductive Spans (links : ι → List ι) : List ι → Multiset ι → Prop
  | nil : Spans links [] 0
  | cons {n : ι} {ls : List ι} {fp fp' : Multiset ι} :
      Spans links (links n) fp → Spans links ls fp' → Spans links (n :: ls) (n ::ₘ (fp + fp'))

namespace Spans

variable {ls ls' : List ι} {fp fp' : Multiset ι}

theorem append (h : Spans links ls fp) (h' : Spans links ls' fp') :
    Spans links (ls ++ ls') (fp + fp') := by
  induction h with
  | nil => simpa using h'
  | cons hn _ _ ih =>
      rw [Multiset.cons_add, add_assoc]
      exact .cons hn ih

theorem of_append (h : Spans links (ls ++ ls') fp) :
    ∃ fp₁ fp₂, fp = fp₁ + fp₂ ∧ Spans links ls fp₁ ∧ Spans links ls' fp₂ := by
  induction ls generalizing fp with
  | nil => exact ⟨0, fp, (zero_add _).symm, .nil, h⟩
  | cons n ls ih =>
      cases h with
      | @cons _ _ fpN _ hn hrest =>
          obtain ⟨fp₁, fp₂, rfl, h₁, h₂⟩ := ih hrest
          exact ⟨n ::ₘ (fpN + fp₁), fp₂, by rw [Multiset.cons_add, add_assoc], .cons hn h₁, h₂⟩

/-- The order of the roots does not matter. -/
theorem perm (h : Spans links ls fp) (hp : ls.Perm ls') : Spans links ls' fp := by
  induction hp generalizing fp with
  | nil => exact h
  | cons n _ ih =>
      cases h with
      | cons hn hrest => exact .cons hn (ih hrest)
  | swap a b ls =>
      cases h with
      | @cons _ _ fpB _ hb hrest =>
          cases hrest with
          | @cons _ _ fpA fpL ha hrest =>
              have := Spans.cons ha (.cons hb hrest)
              convert this using 1
              simp only [Multiset.add_cons, Multiset.cons_swap b a]
              congr 2
              abel
  | trans _ _ ih ih' => exact ih' (ih h)

theorem of_single {n : ι} (h : Spans links [n] fp) :
    ∃ fp', fp = n ::ₘ fp' ∧ Spans links (links n) fp' := by
  cases h with
  | @cons _ _ fp' _ hn hnil =>
      cases hnil
      exact ⟨fp', by rw [add_zero], hn⟩

theorem single {n : ι} (h : Spans links (links n) fp) : Spans links [n] (n ::ₘ fp) := by
  simpa using Spans.cons h .nil

/-- The nodes are those that can be reached. -/
theorem mem_iff (h : Spans links ls fp) (n : ι) :
    n ∈ fp ↔ ∃ r ∈ ls, Relation.ReflTransGen (fun a b => b ∈ links a) r n := by
  induction h with
  | nil => simp
  | @cons m ls fp fp' _ _ ih ih' =>
      simp only [Multiset.mem_cons, Multiset.mem_add, ih, ih', List.mem_cons, exists_eq_or_imp]
      constructor
      · rintro (rfl | ⟨r, hr, hreach⟩ | hreach)
        · exact .inl .refl
        · exact .inl (.head hr hreach)
        · exact .inr hreach
      · rintro (hreach | hreach)
        · rcases hreach.cases_head with rfl | ⟨r, hr, hreach⟩
          · exact .inl rfl
          · exact .inr (.inl ⟨r, hr, hreach⟩)
        · exact .inr (.inr hreach)

/-- Every node is counted as often as there are links to it. -/
theorem eq_targets (h : Spans links ls fp) :
    fp = (ls : Multiset ι) + fp.bind fun n => (links n : Multiset ι) := by
  induction h with
  | nil => simp
  | @cons n ls fp fp' _ _ ih ih' =>
      rw [Multiset.cons_bind, Multiset.add_bind, ← Multiset.cons_coe, Multiset.cons_add]
      congr 1
      conv_lhs => rw [ih, ih']
      abel

end Spans

end Pcv
