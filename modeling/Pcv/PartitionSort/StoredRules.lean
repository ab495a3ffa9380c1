import Pcv.PartitionSort.ClassifierSupply

/-!
# Every rule in one tree

The rules that are extracted from all the trees in use should be those that were inserted, each
of them once.  They are, as long as every rule that is put into a tree is compatible with the
rules in it and in no other tree by then (`storesOnce_of_filled`).

An insertion does not see to that.  A rule that a rebuild passes on stays in the copy of the tree
it comes from, and the next rebuild of this tree puts it back, although it is in another tree now
(`not_storesOnce_passedOn`).
-/

namespace Pcv

namespace PartitionSortClassifer

open DynamicMempool

variable {V : Type} [RuleValue V] {cfg : ClassifierCfg}

/-- The rules that are extracted from the trees in use, one tree after the other. -/
def extracted (cfg : ClassifierCfg) (s : PartitionSortClassifer cfg.D V) :
    Except Fault (List (RuleSpec cfg.D V)) := do
  let trees ← (List.range s.treeCnt).mapM fun i => (s.info i).tree.toRules cfg.toBTreeCfg s.pool
  return trees.flatten

/-- The trees in use hold the rules, each of them once. -/
def StoresOnce (cfg : ClassifierCfg) (rules : List (RuleSpec cfg.D V))
    (s : PartitionSortClassifer cfg.D V) : Prop :=
  ∃ out, extracted cfg s = .ok out ∧ out.Perm rules

/-- The rule may be put into the tree: it is compatible with the rules in it, takes the place of a
rule with the same ranges, and no other tree has such a rule. -/
structure FitsAlone (cfg : ClassifierCfg) (s : PartitionSortClassifer cfg.D V) (t : ℕ)
    (r : RuleSpec cfg.D V) : Prop where
  compatible : ∀ a ∈ contents cfg s t,
    a.Compatible cfg.keyBytes (s.infos.get t).tree.dimensionOrder r
  endsValid : ∀ a ∈ contents cfg s t, a.first = r.first →
    (s.infos.get t).tree.EndsValid cfg.toBTreeCfg s.pool r
  apart : ∀ t' < cfg.MAX_TREE_CNT, t' ≠ t → ∀ a ∈ contents cfg s t', a.first ≠ r.first

instance (s : PartitionSortClassifer cfg.D V) (t : ℕ) (r : RuleSpec cfg.D V) :
    Decidable (FitsAlone cfg s t r) :=
  decidable_of_iff ((∀ a ∈ contents cfg s t,
      a.Compatible cfg.keyBytes (s.infos.get t).tree.dimensionOrder r) ∧
    (∀ a ∈ contents cfg s t, a.first = r.first →
      (s.infos.get t).tree.EndsValid cfg.toBTreeCfg s.pool r) ∧
    ∀ t', t' < cfg.MAX_TREE_CNT → t' ≠ t → ∀ a ∈ contents cfg s t', a.first ≠ r.first)
    ⟨fun ⟨hc, he, ha⟩ => ⟨hc, he, ha⟩, fun ⟨hc, he, ha⟩ => ⟨hc, he, ha⟩⟩

/-- Rules with different ranges, each of them in one tree. -/
def onePlace (cfg : ClassifierCfg) (rules : List (RuleSpec cfg.D V)) : Policy cfg V where
  rules := {r | r ∈ rules}
  fits := FitsAlone cfg
  sound m := (∀ t < cfg.MAX_TREE_CNT, ((m t).map RuleSpec.first).Nodup) ∧
    ∀ t < cfg.MAX_TREE_CNT, ∀ t' < cfg.MAX_TREE_CNT, t' ≠ t →
      ∀ a ∈ m t, ∀ b ∈ m t', b.first ≠ a.first
  serves a r := a = r

section OnePlace

variable {rules : List (RuleSpec cfg.D V)} {s : PartitionSortClassifer cfg.D V}

/-- The listed rules keep different ranges, if the new rule takes the place of the one with its
ranges. -/
theorem sound_onePlace_put {t : ℕ} {r : RuleSpec cfg.D V} {m : Multiset (RuleSpec cfg.D V)}
    (hfits : FitsAlone cfg s t r) (hsound : (onePlace cfg rules).sound (contents cfg s))
    (ht : t < cfg.MAX_TREE_CNT)
    (h : Receives r ((s.infos.get t).tree.EndsValid cfg.toBTreeCfg s.pool r) (contents cfg s t) m) :
    (onePlace cfg rules).sound (Function.update (contents cfg s) t m) := by
  obtain ⟨hnodup, hapart⟩ := hsound
  refine ⟨fun t' ht' => ?_, fun t₁ ht₁ t₂ ht₂ hne a ha b hb => ?_⟩
  · rcases eq_or_ne t' t with rfl | hne
    · rw [Function.update_self]
      exact h.distinct (hnodup t' ht') hfits.endsValid
    · rw [Function.update_of_ne hne]
      exact hnodup t' ht'
  · rcases eq_or_ne t₁ t with rfl | hne₁
    · rw [Function.update_self] at ha
      rw [Function.update_of_ne hne] at hb
      rcases h.of_mem ha with rfl | ha
      · exact hfits.apart t₂ ht₂ hne b hb
      · exact hapart t₁ ht₁ t₂ ht₂ hne a ha b hb
    · rw [Function.update_of_ne hne₁] at ha
      rcases eq_or_ne t₂ t with rfl | hne₂
      · rw [Function.update_self] at hb
        rcases h.of_mem hb with rfl | hb
        · exact (hfits.apart t₁ ht₁ hne₁ a ha).symm
        · exact hapart t₁ ht₁ t₂ ht₂ hne a ha b hb
      · rw [Function.update_of_ne hne₂] at hb
        exact hapart t₁ ht₁ t₂ ht₂ hne a ha b hb

theorem onePlace_lawful (hvalid : ∀ r ∈ rules, r.Valid cfg.keyBytes ∧ isValid r.second = true)
    (hdistinct : (rules.map RuleSpec.first).Nodup) : (onePlace cfg rules).Lawful where
  valid := hvalid
  fits_congr := by
    rintro s s' t r hs ⟨hc, he, ha⟩
    refine ⟨?_, ?_, ?_⟩
    · rw [hs.contents, hs.tree]
      exact hc
    · rw [hs.contents, hs.tree, hs.pool]
      exact he
    · intro t' ht' hne
      rw [hs.contents]
      exact ha t' ht' hne
  compatible := fun s t r hfits => hfits.compatible
  serves_refl := fun _ => rfl
  serves_trans := fun _ _ _ h h' => h.trans h'
  serves_put := fun s t r _ hr a _ ha hfirst =>
    List.inj_on_of_nodup_map hdistinct hr ha hfirst.symm
  sound_put := fun s t r m hfits _ ht _ hsound h => sound_onePlace_put hfits hsound ht h
  sound_empty := by
    rintro m t ⟨hnodup, hapart⟩
    have hmem : ∀ t' a, a ∈ Function.update m t 0 t' → a ∈ m t' := by
      intro t' a ha
      rcases eq_or_ne t' t with rfl | hne
      · rw [Function.update_self] at ha
        exact absurd ha (Multiset.notMem_zero a)
      · rwa [Function.update_of_ne hne] at ha
    refine ⟨fun t' ht' => ?_, fun t₁ ht₁ t₂ ht₂ hne a ha b hb =>
      hapart t₁ ht₁ t₂ ht₂ hne a (hmem t₁ a ha) b (hmem t₂ b hb)⟩
    rcases eq_or_ne t' t with rfl | hne
    · rw [Function.update_self]
      exact Multiset.nodup_zero
    · rw [Function.update_of_ne hne]
      exact hnodup t' ht'
  sound_congr := by
    rintro m m' hm ⟨hnodup, hapart⟩
    refine ⟨fun t ht => ?_, fun t₁ ht₁ t₂ ht₂ hne => ?_⟩
    · rw [hm t ht]
      exact hnodup t ht
    · rw [hm t₁ ht₁, hm t₂ ht₂]
      exact hapart t₁ ht₁ t₂ ht₂ hne

end OnePlace

section Runs

variable [DecidableEq V] {std : IntervalSort} {rest : Multiset ℕ} {start : NodeAllocator V}
  {rules : List (RuleSpec cfg.D V)} {s : PartitionSortClassifer cfg.D V}

omit [DecidableEq V] in
theorem extracted_eq {out : ℕ → List (RuleSpec cfg.D V)} (h : ∀ i < s.treeCnt,
    (s.info i).tree.toRules cfg.toBTreeCfg s.pool = .ok (out i)) :
    extracted cfg s = .ok ((List.range s.treeCnt).flatMap out) := by
  have hmapM : ∀ is : List ℕ, (∀ i ∈ is, i < s.treeCnt) →
      (is.mapM fun i => (s.info i).tree.toRules cfg.toBTreeCfg s.pool) = .ok (is.map out) := by
    intro is his
    induction is with
    | nil => rfl
    | cons i is ih =>
      rw [List.mapM_cons, h i (his i List.mem_cons_self),
        ih fun j hj => his j (List.mem_cons_of_mem i hj)]
      rfl
  rw [extracted, hmapM _ fun i hi => List.mem_range.mp hi]
  rfl

/-- In a run of insertions that put each rule only into a tree in which it fits, and in no other,
the trees hold exactly the inserted rules, each of them once. -/
theorem storesOnce_of_filled (hT : 2 ≤ cfg.T) (hD : 0 < cfg.D) (hpc : cfg.pathCompression = true)
    (ho : Owns start rest) (hvalid : ∀ r ∈ rules, r.Valid cfg.keyBytes ∧ isValid r.second = true)
    (hdistinct : (rules.map RuleSpec.first).Nodup)
    (h : Filled std cfg (PutsFitting std cfg (FitsAlone cfg)) start rules s) :
    StoresOnce cfg rules s := by
  have hempty : (onePlace cfg rules).sound fun _ => 0 :=
    ⟨fun _ _ => Multiset.nodup_zero, fun _ _ _ _ _ a ha => absurd ha (Multiset.notMem_zero a)⟩
  obtain ⟨hs, hsupplied, hserved⟩ := Filled.supplied (P := onePlace cfg rules)
    (onePlace_lawful hvalid hdistinct) hT hD hpc ho hempty h fun _ hr => hr
  obtain ⟨hnodup, hapart⟩ := hsupplied.sound
  have hlt : ∀ i < s.treeCnt, s.trees.get i < cfg.MAX_TREE_CNT := fun i hi =>
    hs.trees_lt i (hi.trans_le hs.treeCnt_le)
  have hextract : ∀ i, ∃ out : List (RuleSpec cfg.D V), i < s.treeCnt →
      (s.info i).tree.toRules cfg.toBTreeCfg s.pool = .ok out ∧
        (out : Multiset (RuleSpec cfg.D V)) = contents cfg s (s.trees.get i) := by
    intro i
    by_cases hi : i < s.treeCnt
    · obtain ⟨out, hout⟩ := hsupplied.exists_toRules (hlt i hi)
      exact ⟨out, fun _ => hout⟩
    · exact ⟨[], fun hi' => absurd hi' hi⟩
  choose out hout using hextract
  have hmem : ∀ i < s.treeCnt, ∀ a, a ∈ out i ↔ a ∈ contents cfg s (s.trees.get i) := by
    intro i hi a
    rw [← (hout i hi).2, Multiset.mem_coe]
  refine ⟨_, extracted_eq fun i hi => (hout i hi).1, ?_⟩
  refine (List.perm_ext_iff_of_nodup ?_ (List.Nodup.of_map _ hdistinct)).mpr fun a => ?_
  · refine List.nodup_flatMap.mpr ⟨fun i hi => ?_, ?_⟩
    · have hi := List.mem_range.mp hi
      refine List.Nodup.of_map RuleSpec.first (Multiset.coe_nodup.mp ?_)
      rw [← Multiset.map_coe, (hout i hi).2]
      exact hnodup _ (hlt i hi)
    · refine (List.nodup_range).pairwise_of_forall_ne fun i hi j hj hne a ha hb => ?_
      have hi := List.mem_range.mp hi
      have hj := List.mem_range.mp hj
      refine hapart _ (hlt i hi) _ (hlt j hj) (fun heq => hne ?_) a ((hmem i hi a).mp ha) a
        ((hmem j hj a).mp hb) rfl
      exact (hs.trees_inj j i (hj.trans_le hs.treeCnt_le) (hi.trans_le hs.treeCnt_le) heq).symm
  · rw [List.mem_flatMap]
    constructor
    · rintro ⟨i, hi, ha⟩
      have hi := List.mem_range.mp hi
      exact (hsupplied.mem_contents (hlt i hi) ((hmem i hi a).mp ha)).2
    · intro ha
      obtain ⟨t, ht, b, hb, rfl⟩ := hserved a ha
      obtain ⟨i, hi, rfl⟩ := hs.inUse_of_mem ht (hsupplied.mem_contents ht hb).1
      exact ⟨i, List.mem_range.mpr hi, (hmem i hi b).mpr hb⟩

end Runs

/-! ## Two short runs -/

section Short

/-- Two fields of one byte, four trees. -/
private abbrev twoFields : ClassifierCfg := ⟨⟨1, 2, 2, true⟩, 4, 10⟩

private abbrev emptyPool : NodeAllocator RuleValueInt :=
  DynamicMempool.make 64 (Node.make twoFields.toBTreeCfg)

private abbrev boxRule (a b : Range1d) (prio id : ℕ) : RuleSpec 2 RuleValueInt :=
  .box a b prio id

private abbrev passedOn : List (RuleSpec 2 RuleValueInt) :=
  [boxRule ⟨0, 255⟩ ⟨0, 255⟩ 2 1, boxRule ⟨0, 255⟩ ⟨6, 6⟩ 4 2, boxRule ⟨3, 3⟩ ⟨0, 0⟩ 7 3,
    boxRule ⟨0, 0⟩ ⟨0, 255⟩ 14 4]

/-- The trees hold other rules than the given ones. -/
private def storesOthers (rules : List (RuleSpec 2 RuleValueInt))
    (s : PartitionSortClassifer 2 RuleValueInt) : Bool :=
  match extracted twoFields s with
  | .ok out => !decide (out.Perm rules)
  | .error _ => false

/-- The second rule has the tree of the first one rebuilt and is passed on to a new tree.  The fourth
rule has the first tree rebuilt in another order, which puts the second rule back there. -/
theorem not_storesOnce_passedOn : (passedOn.map RuleSpec.first).Nodup ∧
    ∃ s, Filled .insertion twoFields (fun _ _ => True) emptyPool passedOn s ∧
      ¬ StoresOnce twoFields passedOn s := by
  have h : (afterInserts .insertion twoFields 30 passedOn (make 2 emptyPool)).any
      (storesOthers passedOn) = true := by decide +kernel
  obtain ⟨s, hs, hothers⟩ := (Option.any_eq_true _ _).mp h
  refine ⟨by decide, s, Filled.of_afterInserts .make hs, ?_⟩
  rintro ⟨out, hout, hperm⟩
  simp [storesOthers, hout, hperm] at hothers

private abbrev rebuilt : List (RuleSpec 2 RuleValueInt) :=
  [boxRule ⟨0, 255⟩ ⟨0, 255⟩ 2 1, boxRule ⟨0, 255⟩ ⟨6, 6⟩ 4 2, boxRule ⟨3, 3⟩ ⟨0, 0⟩ 7 3]

/-- The second rule has the tree of the first one rebuilt and is passed on to a new tree, which then
takes the third one. -/
theorem storesOnce_of_filled_rebuilt : ∃ s : PartitionSortClassifer 2 RuleValueInt,
    s.treeCnt = 2 ∧ StoresOnce twoFields rebuilt s := by
  have h : (insertFitting .insertion twoFields 30 (FitsAlone twoFields) rebuilt
      (make 2 emptyPool)).any (fun s => decide (s.treeCnt = 2)) = true := by decide +kernel
  obtain ⟨s, hs, hcnt⟩ := (Option.any_eq_true _ _).mp h
  exact ⟨s, of_decide_eq_true hcnt, storesOnce_of_filled (by decide) (by decide) rfl
    (owns_make 64 _) (by decide) (by decide) (Filled.of_insertFitting .make hs)⟩

end Short

end PartitionSortClassifer

end Pcv
