import Mathlib.Algebra.Order.Group.Multiset
import Mathlib.Tactic.Common
import Mathlib.Tactic.Abel

/-!
# The ordered content of a multiway node

A node of a multiway search tree holds keys `k₁ … kₙ` and children `c₀ … cₙ`, and
its ordered content is that of `c₀`, then `k₁`, then that of `c₁`, and so on.
`Chain P ks cs its fp` says that `its` is this interleaving and `fp` the union of
what the children occupy, where `P c its fp` says that the child `c` has the
ordered content `its` and occupies `fp`.

A chain can be opened at any child: `Before` describes the children and keys in
front of it, `After` the keys and children behind it.  All the edits of a multiway
node (replace a child, split it, merge two children, replace a key) open the chain
and plug something else into the hole.
-/

namespace Pcv

universe u v w

variable {α : Type u} {ι : Type v} {κ : Type w}

/-- Keys with the children in front of them. -/
inductive Before (P : ι → List α → Multiset κ → Prop) :
    List α → List ι → List α → Multiset κ → Prop
  | nil : Before P [] [] [] 0
  | cons {c : ι} {cs : List ι} {k : α} {ks its its' : List α} {fp fp' : Multiset κ} :
      P c its fp → Before P ks cs its' fp' →
        Before P (k :: ks) (c :: cs) (its ++ k :: its') (fp + fp')

/-- Keys with the children behind them. -/
inductive After (P : ι → List α → Multiset κ → Prop) :
    List α → List ι → List α → Multiset κ → Prop
  | nil : After P [] [] [] 0
  | cons {c : ι} {cs : List ι} {k : α} {ks its its' : List α} {fp fp' : Multiset κ} :
      P c its fp → After P ks cs its' fp' →
        After P (k :: ks) (c :: cs) (k :: (its ++ its')) (fp + fp')

/-- The ordered content of a node from that of its children. -/
inductive Chain (P : ι → List α → Multiset κ → Prop) :
    List α → List ι → List α → Multiset κ → Prop
  | last {c : ι} {its : List α} {fp : Multiset κ} : P c its fp → Chain P [] [c] its fp
  | cons {c : ι} {cs : List ι} {k : α} {ks its its' : List α} {fp fp' : Multiset κ} :
      P c its fp → Chain P ks cs its' fp' →
        Chain P (k :: ks) (c :: cs) (its ++ k :: its') (fp + fp')

variable {P Q : ι → List α → Multiset κ → Prop}
variable {ks ks' its its' : List α} {cs cs' : List ι} {fp fp' : Multiset κ} {k : α} {c : ι}

namespace Before

theorem length_eq (h : Before P ks cs its fp) : cs.length = ks.length := by
  induction h with
  | nil => rfl
  | cons _ _ ih => simp [ih]

/-- The children may be read in another way, provided that this holds of everything
that lies within what they occupy. -/
theorem imp (h : Before P ks cs its fp)
    (hPQ : ∀ c ∈ cs, ∀ its' fp', fp' ≤ fp → P c its' fp' → Q c its' fp') :
    Before Q ks cs its fp := by
  induction h with
  | nil => exact .nil
  | cons hc _ ih =>
      refine .cons (hPQ _ (by simp) _ _ (Multiset.le_add_right _ _) hc) (ih ?_)
      intro c hmem its' fp' hle
      exact hPQ c (by simp [hmem]) its' fp' (hle.trans (Multiset.le_add_left _ _))

/-- Open the keys with their children at the last one. -/
theorem of_concat (h : Before P (ks ++ [k]) cs its fp) :
    ∃ cs' c its' itsC fp' fpC, cs = cs' ++ [c] ∧ its = its' ++ (itsC ++ [k]) ∧ fp = fp' + fpC ∧
      Before P ks cs' its' fp' ∧ P c itsC fpC := by
  induction ks generalizing cs its fp with
  | nil =>
      cases h with
      | @cons c _ _ _ itsC _ fpC _ hc hrest =>
          cases hrest
          exact ⟨[], c, [], itsC, 0, fpC, rfl, rfl, by simp, .nil, hc⟩
  | cons k' ks ih =>
      cases h with
      | @cons d cs _ _ its₀ _ fp₀ _ hd hrest =>
          obtain ⟨cs', c, its', itsC, fp', fpC, rfl, rfl, rfl, hb, hc⟩ := ih hrest
          exact ⟨d :: cs', c, its₀ ++ k' :: its', itsC, fp₀ + fp', fpC, rfl, by simp,
            (add_assoc _ _ _).symm, .cons hd hb, hc⟩

/-- The content ends with the last key. -/
theorem concat_eq (h : Before P (ks ++ [k]) cs its fp) : ∃ its', its = its' ++ [k] := by
  obtain ⟨_, _, its', itsC, _, _, _, rfl, _⟩ := h.of_concat
  exact ⟨its' ++ itsC, by simp⟩

/-- Take one more child and key. -/
theorem concat (h : Before P ks cs its fp) (hc : P c its' fp') :
    Before P (ks ++ [k]) (cs ++ [c]) (its ++ its' ++ [k]) (fp + fp') := by
  induction h with
  | nil => simpa using Before.cons (k := k) hc Before.nil
  | @cons d ds k' ks its₀ its₁ fp₀ fp₁ hd _ ih =>
      have := Before.cons (k := k') hd ih
      simpa [add_assoc] using this

end Before

namespace After

theorem length_eq (h : After P ks cs its fp) : cs.length = ks.length := by
  induction h with
  | nil => rfl
  | cons _ _ ih => simp [ih]

theorem imp (h : After P ks cs its fp)
    (hPQ : ∀ c ∈ cs, ∀ its' fp', fp' ≤ fp → P c its' fp' → Q c its' fp') :
    After Q ks cs its fp := by
  induction h with
  | nil => exact .nil
  | cons hc _ ih =>
      refine .cons (hPQ _ (by simp) _ _ (Multiset.le_add_right _ _) hc) (ih ?_)
      intro c hmem its' fp' hle
      exact hPQ c (by simp [hmem]) its' fp' (hle.trans (Multiset.le_add_left _ _))

/-- Every child occurs among the children. -/
theorem exists_of_mem (h : After P ks cs its fp) (hc : c ∈ cs) :
    ∃ its' fp', fp' ≤ fp ∧ P c its' fp' := by
  induction h with
  | nil => simp at hc
  | cons hd _ ih =>
      rcases List.mem_cons.mp hc with rfl | hc
      · exact ⟨_, _, Multiset.le_add_right _ _, hd⟩
      · obtain ⟨its', fp', hle, hP⟩ := ih hc
        exact ⟨its', fp', hle.trans (Multiset.le_add_left _ _), hP⟩

end After

namespace Chain

/-- There is one child more than there are keys. -/
theorem length_eq (h : Chain P ks cs its fp) : cs.length = ks.length + 1 := by
  induction h with
  | last _ => rfl
  | cons _ _ ih => simp [ih]

/-- A chain without keys is a single child. -/
theorem of_nil (h : Chain P [] cs its fp) : ∃ c, cs = [c] ∧ P c its fp := by
  cases h with
  | last hc => exact ⟨_, rfl, hc⟩

theorem imp (h : Chain P ks cs its fp)
    (hPQ : ∀ c ∈ cs, ∀ its' fp', fp' ≤ fp → P c its' fp' → Q c its' fp') :
    Chain Q ks cs its fp := by
  induction h with
  | last hc => exact .last (hPQ _ (by simp) _ _ le_rfl hc)
  | cons hc _ ih =>
      refine .cons (hPQ _ (by simp) _ _ (Multiset.le_add_right _ _) hc) (ih ?_)
      intro c hmem its' fp' hle
      exact hPQ c (by simp [hmem]) its' fp' (hle.trans (Multiset.le_add_left _ _))

/-- The keys between the children are part of the content. -/
theorem subset (h : Chain P ks cs its fp) : ks ⊆ its := by
  induction h with
  | last _ => exact List.nil_subset _
  | @cons _ _ k _ its _ _ _ _ _ ih =>
      refine List.cons_subset.mpr ⟨by simp, fun x hx => ?_⟩
      exact List.mem_append_right its (List.mem_cons_of_mem k (ih hx))

/-- A key in front of a chain: all the children are behind a key. -/
theorem after (h : Chain P ks cs its fp) (k : α) : After P (k :: ks) cs (k :: its) fp := by
  induction h generalizing k with
  | last hc => simpa using After.cons (k := k) hc .nil
  | @cons c cs k' ks its₀ its' fp₀ fp' hc _ ih => exact .cons hc (ih k')

theorem of_after (hc : P c its fp) (h : After P ks cs its' fp') :
    Chain P ks (c :: cs) (its ++ its') (fp + fp') := by
  induction h generalizing c its fp with
  | nil => simpa using Chain.last hc
  | cons hd _ ih => exact .cons hc (ih hd)

/-- Put keys with their children behind a chain. -/
theorem append_after (h : Chain P ks cs its fp) (h' : After P ks' cs' its' fp') :
    Chain P (ks ++ ks') (cs ++ cs') (its ++ its') (fp + fp') := by
  induction h with
  | last hc => exact of_after hc h'
  | @cons d ds k' ks its₀ its₁ fp₀ fp₁ hd _ ih =>
      have := Chain.cons (k := k') hd ih
      simpa [add_assoc] using this

/-- Put keys with their children in front of a chain. -/
theorem before_append (h' : Before P ks' cs' its' fp') (h : Chain P ks cs its fp) :
    Chain P (ks' ++ ks) (cs' ++ cs) (its' ++ its) (fp' + fp) := by
  induction h' with
  | nil => simpa using h
  | @cons d ds k' ks its₀ its₁ fp₀ fp₁ hd _ ih =>
      have := Chain.cons (k := k') hd ih
      simpa [add_assoc] using this

/-- Open a chain in front of the keys `ks'`. -/
theorem focus (h : Chain P (ks ++ ks') cs its fp) :
    ∃ cs₁ c cs₂ its₁ itsC its₂ fp₁ fpC fp₂,
      cs = cs₁ ++ c :: cs₂ ∧ its = its₁ ++ (itsC ++ its₂) ∧ fp = fp₁ + (fpC + fp₂) ∧
        Before P ks cs₁ its₁ fp₁ ∧ P c itsC fpC ∧ After P ks' cs₂ its₂ fp₂ := by
  induction ks generalizing cs its fp with
  | nil =>
      refine ⟨[], ?_⟩
      simp only [List.nil_append] at h ⊢
      induction h with
      | last hc => exact ⟨_, [], [], _, [], 0, _, 0, rfl, by simp, by simp, .nil, hc, .nil⟩
      | @cons c cs k ks its₀ its₁ fp₀ fp₁ hc _ ih =>
          obtain ⟨d, cs₂, its₁', itsC, its₂, fp₁', fpC, fp₂, rfl, rfl, rfl, hb, hd, ha⟩ := ih
          cases hb
          exact ⟨c, d :: cs₂, [], its₀, k :: (itsC ++ its₂), 0, fp₀, fpC + fp₂, rfl, rfl, by simp,
            .nil, hc, .cons hd ha⟩
  | cons k ks ih =>
      cases h with
      | @cons c cs _ _ its₀ its' fp₀ fp' hc hrest =>
          obtain ⟨cs₁, d, cs₂, its₁, itsC, its₂, fp₁, fpC, fp₂, rfl, rfl, rfl, hb, hd, ha⟩ :=
            ih hrest
          exact ⟨c :: cs₁, d, cs₂, its₀ ++ k :: its₁, itsC, its₂, fp₀ + fp₁, fpC, fp₂, rfl,
            by simp, by abel, .cons hc hb, hd, ha⟩

/-- Close an opened chain with another chain in the hole. -/
theorem plug {ks₁ ks₂ its₁ its₂ : List α} {cs₁ cs₂ : List ι} {fp₁ fp₂ : Multiset κ}
    (h₁ : Before P ks₁ cs₁ its₁ fp₁) (h : Chain P ks cs its fp) (h₂ : After P ks₂ cs₂ its₂ fp₂) :
    Chain P (ks₁ ++ (ks ++ ks₂)) (cs₁ ++ (cs ++ cs₂)) (its₁ ++ (its ++ its₂))
      (fp₁ + (fp + fp₂)) :=
  before_append h₁ (append_after h h₂)

/-- A chain cut at one of its keys. -/
theorem split (h : Chain P (ks ++ k :: ks') cs its fp) :
    ∃ cs₁ cs₂ its₁ its₂ fp₁ fp₂, cs = cs₁ ++ cs₂ ∧ its = its₁ ++ k :: its₂ ∧ fp = fp₁ + fp₂ ∧
      Chain P ks cs₁ its₁ fp₁ ∧ Chain P ks' cs₂ its₂ fp₂ := by
  induction ks generalizing cs its fp with
  | nil =>
      cases h with
      | @cons c cs _ _ its₁ its₂ fp₁ fp₂ hc hrest =>
          exact ⟨[c], cs, its₁, its₂, fp₁, fp₂, rfl, rfl, rfl, .last hc, hrest⟩
  | cons k' ks ih =>
      cases h with
      | @cons c cs _ _ its₀ its' fp₀ fp' hc hrest =>
          obtain ⟨cs₁, cs₂, its₁, its₂, fp₁, fp₂, rfl, rfl, rfl, h₁, h₂⟩ := ih hrest
          exact ⟨c :: cs₁, cs₂, its₀ ++ k' :: its₁, its₂, fp₀ + fp₁, fp₂, rfl, by simp,
            (add_assoc _ _ _).symm, .cons hc h₁, h₂⟩

/-- Two chains joined by a key. -/
theorem join (h : Chain P ks cs its fp) (h' : Chain P ks' cs' its' fp') :
    Chain P (ks ++ k :: ks') (cs ++ cs') (its ++ k :: its') (fp + fp') := by
  induction h with
  | last hc => exact .cons hc h'
  | @cons d ds k' ks its₀ its₁ fp₀ fp₁ hd _ ih =>
      have := Chain.cons (k := k') hd ih
      simpa [add_assoc] using this

/-- Every child occurs in the chain. -/
theorem exists_of_mem (h : Chain P ks cs its fp) (hc : c ∈ cs) :
    ∃ its' fp', fp' ≤ fp ∧ P c its' fp' ∧ ∀ a ∈ its', a ∈ its := by
  induction h with
  | last hd =>
      obtain rfl : c = _ := by simpa using hc
      exact ⟨_, _, le_rfl, hd, fun _ ha => ha⟩
  | cons hd _ ih =>
      rcases List.mem_cons.mp hc with rfl | hc
      · exact ⟨_, _, Multiset.le_add_right _ _, hd, fun a ha => by simp [ha]⟩
      · obtain ⟨its', fp', hle, hP, hmem⟩ := ih hc
        exact ⟨its', fp', hle.trans (Multiset.le_add_left _ _), hP,
          fun a ha => by simp [hmem a ha]⟩

/-- Every cell is occupied by one of the children. -/
theorem exists_of_mem_fp {a : κ} (h : Chain P ks cs its fp) (ha : a ∈ fp) :
    ∃ c ∈ cs, ∃ its' fp', P c its' fp' ∧ a ∈ fp' := by
  induction h with
  | last hc => exact ⟨_, by simp, _, _, hc, ha⟩
  | cons hc _ ih =>
      rcases Multiset.mem_add.mp ha with ha | ha
      · exact ⟨_, by simp, _, _, hc, ha⟩
      · obtain ⟨c, hmem, its', fp', hP, ha⟩ := ih ha
        exact ⟨c, by simp [hmem], its', fp', hP, ha⟩

/-- When no cell is occupied twice, no child occurs twice. -/
theorem nodup_map (h : Chain P ks cs its fp) (hnd : fp.Nodup) (loc : ι → κ)
    (hloc : ∀ c its fp, P c its fp → loc c ∈ fp) : (cs.map loc).Nodup := by
  induction h with
  | last _ => simp
  | @cons c cs k ks its its' fp fp' hc hrest ih =>
      obtain ⟨-, hnd', hdisj⟩ := Multiset.nodup_add.mp hnd
      refine List.nodup_cons.mpr ⟨fun hmem => ?_, ih hnd'⟩
      obtain ⟨d, hd, heq⟩ := List.mem_map.mp hmem
      obtain ⟨its₀, fp₀, hle, hP, -⟩ := hrest.exists_of_mem hd
      have hin : loc c ∈ fp' := Multiset.mem_of_le hle (heq ▸ hloc d its₀ fp₀ hP)
      exact Multiset.disjoint_left.mp hdisj (hloc c its fp hc) hin

/-- When no cell is occupied twice, the root of a child is occupied by this child only;
so a change of the roots changes each child at its own root. -/
theorem imp_of_nodup (h : Chain P ks cs its fp) (hnd : fp.Nodup) (loc : ι → κ)
    (hloc : ∀ c its fp, P c its fp → loc c ∈ fp)
    (hPQ : ∀ c ∈ cs, ∀ its' fp', fp' ≤ fp → (∀ d ∈ cs, loc d ∈ fp' → d = c) →
      P c its' fp' → Q c its' fp') : Chain Q ks cs its fp := by
  induction h with
  | @last c its fp hc =>
      refine .last (hPQ c (by simp) its fp le_rfl (fun d hd _ => ?_) hc)
      simpa using hd
  | @cons c cs k ks its its' fp fp' hc hrest ih =>
      obtain ⟨-, hnd', hdisj⟩ := Multiset.nodup_add.mp hnd
      refine .cons (hPQ c (by simp) its fp (Multiset.le_add_right _ _) (fun d hd hdf => ?_) hc)
        (ih hnd' fun c' hc' its₀ fp₀ hle huniq hP => ?_)
      · rcases List.mem_cons.mp hd with rfl | hd
        · rfl
        · obtain ⟨its₁, fp₁, hle, hP, -⟩ := hrest.exists_of_mem hd
          have := Multiset.mem_of_le hle (hloc d its₁ fp₁ hP)
          exact absurd this (Multiset.disjoint_left.mp hdisj hdf)
      · refine hPQ c' (by simp [hc']) its₀ fp₀ (hle.trans (Multiset.le_add_left _ _))
          (fun d hd hdf => ?_) hP
        rcases List.mem_cons.mp hd with rfl | hd
        · have := Multiset.mem_of_le hle hdf
          exact absurd this (Multiset.disjoint_left.mp hdisj (hloc d its fp hc))
        · exact huniq d hd hdf

end Chain

end Pcv
