import Pcv.Benchmarks.ListClassifier
import Pcv.PartitionSort.ClassifierSupply
import Pcv.PartitionSort.PriorityRuns
import Mathlib.Data.Multiset.Bind

/-!
# The classifier and the list of its rules

A search in the classifier should find what a search in the list of its rules finds.  It does so,
as long as every rule that is put into a tree is compatible with the rules in it, a rule has no
lower priority than those that it lies in, and no tree loses its place (`agreesWithList_of_filled`).

Every tree then answers for the rules in it (`Supplied.answers`), the best result of the trees
answers for the rules in all of them (`bestOf_answers`), and the early exit loses nothing.
-/

namespace Pcv

open DynamicMempool

namespace RuleSpec

variable {D : ℕ} {V : Type} {r a : RuleSpec D V} {v : KeyVec D}

theorem Inside.of_first (h : r.first = a.first) : r.Inside a := by
  intro d
  rw [h]
  exact ⟨le_rfl, le_rfl⟩

theorem Matches.of_first (hm : a.Matches v) (h : r.first = a.first) : r.Matches v := by
  intro d
  rw [h]
  exact hm d

end RuleSpec

/-- The better one of two answers is an answer for the rules of both. -/
theorem AnswersByPriority.better {D : ℕ} {V : Type} [RuleValue V]
    {m m' : Multiset (RuleSpec D V)} {v : KeyVec D} {a b : V} (ha : AnswersByPriority m v a)
    (hb : AnswersByPriority m' v b) :
    AnswersByPriority (m + m') v (PartitionSortClassifer.better a b) := by
  obtain ⟨hhita, hlea⟩ := AnswersByPriority.iff.mp ha
  obtain ⟨hhitb, hleb⟩ := AnswersByPriority.iff.mp hb
  rw [AnswersByPriority.iff, PartitionSortClassifer.better]
  split
  next hbetter =>
    rw [Bool.and_eq_true, Bool.or_eq_true, Bool.not_eq_true', decide_eq_true_eq] at hbetter
    obtain ⟨hvalid, hlt⟩ := hbetter
    refine ⟨fun _ => ?_, fun s hs hm => ⟨hvalid, ?_⟩⟩
    · obtain ⟨r, hr, hm, heq⟩ := hhitb hvalid
      exact ⟨r, Multiset.mem_add.mpr (Or.inr hr), hm, heq⟩
    · rcases Multiset.mem_add.mp hs with hs | hs
      · obtain ⟨hres, hle⟩ := hlea s hs hm
        rw [hres] at hlt
        exact hle.trans (hlt.resolve_left (by simp)).le
      · exact (hleb s hs hm).2
  next hkeep =>
    rw [Bool.and_eq_true, Bool.or_eq_true, Bool.not_eq_true', decide_eq_true_eq] at hkeep
    refine ⟨fun hres => ?_, fun s hs hm => ?_⟩
    · obtain ⟨r, hr, hm, heq⟩ := hhita hres
      exact ⟨r, Multiset.mem_add.mpr (Or.inl hr), hm, heq⟩
    · rcases Multiset.mem_add.mp hs with hs | hs
      · exact hlea s hs hm
      · -- the second answer is valid, so the first one is as good
        obtain ⟨hres, hle⟩ := hleb s hs hm
        have hkeep := not_or.mp fun h => hkeep ⟨hres, h⟩
        exact ⟨by simpa using hkeep.1, hle.trans (not_lt.mp hkeep.2)⟩

namespace PartitionSortClassifer

variable {V : Type} [RuleValue V] {cfg : ClassifierCfg}

/-- The rule may be put into the tree: it is compatible with the rules in it, and has a priority
between those of the rules that it lies in and those of the rules that lie in it. -/
structure FitsByPriority (cfg : ClassifierCfg) (s : PartitionSortClassifer cfg.D V) (t : ℕ)
    (r : RuleSpec cfg.D V) : Prop where
  compatible : ∀ a ∈ contents cfg s t,
    a.Compatible cfg.keyBytes (s.infos.get t).tree.dimensionOrder r
  above : ∀ a ∈ contents cfg s t, r.Inside a → priority a.second ≤ priority r.second
  below : ∀ a ∈ contents cfg s t, a.Inside r → a.first ≠ r.first →
    priority r.second ≤ priority a.second

instance (s : PartitionSortClassifer cfg.D V) (t : ℕ) (r : RuleSpec cfg.D V) :
    Decidable (FitsByPriority cfg s t r) :=
  decidable_of_iff ((∀ a ∈ contents cfg s t,
      a.Compatible cfg.keyBytes (s.infos.get t).tree.dimensionOrder r) ∧
    (∀ a ∈ contents cfg s t, r.Inside a → priority a.second ≤ priority r.second) ∧
    ∀ a ∈ contents cfg s t, a.Inside r → a.first ≠ r.first →
      priority r.second ≤ priority a.second)
    ⟨fun ⟨hc, ha, hb⟩ => ⟨hc, ha, hb⟩, fun ⟨hc, ha, hb⟩ => ⟨hc, ha, hb⟩⟩

/-- Rules that are the more important the more they ask for.  A rule may take the place of one with
the same ranges and no higher priority. -/
def byPriority (cfg : ClassifierCfg) (rules : List (RuleSpec cfg.D V)) : Policy cfg V where
  rules := {r | r ∈ rules}
  fits := FitsByPriority cfg
  sound m := ∀ t < cfg.MAX_TREE_CNT, ∀ a ∈ m t, ∀ b ∈ m t, a.Inside b → a.first ≠ b.first →
    priority b.second ≤ priority a.second
  serves a r := a.first = r.first ∧ priority r.second ≤ priority a.second

section ByPriority

variable {rules : List (RuleSpec cfg.D V)} {s : PartitionSortClassifer cfg.D V} {t : ℕ}

theorem sound_byPriority_put {r : RuleSpec cfg.D V} {m : Multiset (RuleSpec cfg.D V)} {placed : Prop}
    (hfits : FitsByPriority cfg s t r) (hsound : (byPriority cfg rules).sound (contents cfg s))
    (h : Receives r placed (contents cfg s t) m) :
    (byPriority cfg rules).sound (Function.update (contents cfg s) t m) := by
  intro t' ht'
  rcases eq_or_ne t' t with rfl | hne
  · rw [Function.update_self]
    intro a ha b hb hin hfirst
    rcases h.of_mem ha with rfl | ha
    · rcases h.of_mem hb with rfl | hb
      · exact absurd rfl hfirst
      · exact hfits.above b hb hin
    · rcases h.of_mem hb with rfl | hb
      · exact hfits.below a ha hin hfirst
      · exact hsound t' ht' a ha b hb hin hfirst
  · rw [Function.update_of_ne hne]
    exact hsound t' ht'

theorem byPriority_lawful (hvalid : ∀ r ∈ rules, r.Valid cfg.keyBytes ∧ isValid r.second = true) :
    (byPriority cfg rules).Lawful where
  valid := hvalid
  fits_congr := by
    rintro s s' t r hs ⟨hc, ha, hb⟩
    refine ⟨?_, ?_, ?_⟩
    · rw [hs.contents, hs.tree]
      exact hc
    · rw [hs.contents]
      exact ha
    · rw [hs.contents]
      exact hb
  compatible := fun s t r hfits => hfits.compatible
  serves_refl := fun _ => ⟨rfl, le_rfl⟩
  serves_trans := fun _ _ _ h h' => ⟨h.1.trans h'.1, h'.2.trans h.2⟩
  serves_put := fun s t r hfits _ a ha _ hfirst =>
    ⟨hfirst.symm, hfits.above a ha (.of_first hfirst.symm)⟩
  sound_put := fun s t r m hfits _ _ _ hsound h => sound_byPriority_put hfits hsound h
  sound_empty := by
    intro m t hsound t' ht'
    rcases eq_or_ne t' t with rfl | hne
    · rw [Function.update_self]
      exact fun a ha => absurd ha (Multiset.notMem_zero a)
    · rw [Function.update_of_ne hne]
      exact hsound t' ht'
  sound_congr := by
    intro m m' hm hsound t ht
    rw [hm t ht]
    exact hsound t ht

end ByPriority

/-! ## The answers of the trees -/

/-- What makes the trees of a policy answer by priority. -/
structure Policy.ByPriority (P : Policy cfg V) : Prop where
  /-- A rule has no lower priority than those of its tree that it lies in. -/
  above : ∀ m, P.sound m → (∀ t < cfg.MAX_TREE_CNT, ∀ a ∈ m t, a ∈ P.rules) →
    ∀ t < cfg.MAX_TREE_CNT, ∀ a ∈ m t, ∀ b ∈ m t, a.Inside b → a.first ≠ b.first →
      priority b.second ≤ priority a.second
  serves : ∀ a r, P.serves a r → a.first = r.first ∧ priority r.second ≤ priority a.second

theorem byPriority_byPriority (rules : List (RuleSpec cfg.D V)) :
    (byPriority cfg rules).ByPriority where
  above := fun _ hsound _ => hsound
  serves := fun _ _ h => h

section Answers

variable {P : Policy cfg V} {rest : Multiset ℕ} {s : PartitionSortClassifer cfg.D V}
  {v : KeyVec cfg.D}

/-- A tree answers for the rules in it. -/
theorem Supplied.answers (hP : P.ByPriority) (h : Supplied P rest (fun _ => none) s) {t : ℕ}
    (ht : t < cfg.MAX_TREE_CNT) (hv : ∀ d, v.get d ≤ keyMax cfg.keyBytes) :
    ∃ res, (s.infos.get t).tree.search cfg.toBTreeCfg s.pool v = .ok res ∧
      AnswersByPriority (contents cfg s t) v res := by
  obtain ⟨trie, fp, others, hshelf, ho⟩ := h.shelves.tree ht
  obtain ⟨stored, hc, hserves⟩ := hshelf.contains
  obtain ⟨res, hres, hmiss, hhit⟩ := hc.search ho v hv
  have hlisted : ∀ a ∈ stored, a ∈ contents cfg s t := fun a ha => hshelf.listed ▸ hc.mem_listed ha
  have habove := hP.above _ h.sound (fun t ht a ha => (h.mem_contents ht ha).2) t ht
  have hstored : AnswersByPriority (stored : Multiset (RuleSpec cfg.D V)) v res := by
    refine ⟨hmiss, fun hvalid => ?_⟩
    obtain ⟨r, hbest, rfl⟩ := hhit hvalid
    have hr : r ∈ stored := (List.mem_filter.mp (List.mem_of_getLast? hbest.last)).1
    refine ⟨r, hr, hbest.hits, rfl, fun b hb hmb => ?_⟩
    by_cases hfirst : r.first = b.first
    · rw [List.inj_on_of_nodup_map hc.distinct hr hb hfirst]
    · exact habove r (hlisted r hr) b (hlisted b hb) (hbest.inside b hb hmb) hfirst
  refine ⟨res, hres, hstored.of_served hlisted fun a ha hma => ?_⟩
  obtain ⟨b, hb, hserved⟩ := hserves a ha
  obtain ⟨hfirst, hle⟩ := hP.serves b a hserved
  exact ⟨b, hb, hma.of_first hfirst, hle⟩

/-- The best result of some trees answers for the rules in all of them. -/
theorem bestOf_answers {is : List ℕ} {m : ℕ → Multiset (RuleSpec cfg.D V)}
    (h : ∀ i ∈ is, ∃ res, (s.info i).tree.search cfg.toBTreeCfg s.pool v = .ok res ∧
      AnswersByPriority (m i) v res) {m₀ : Multiset (RuleSpec cfg.D V)} {found : V}
    (hfound : AnswersByPriority m₀ v found) :
    ∃ res, bestOf cfg s v is found = .ok res ∧ AnswersByPriority (m₀ + Multiset.bind is m) v res := by
  induction is generalizing m₀ found with
  | nil => exact ⟨found, rfl, by simpa using hfound⟩
  | cons i is ih =>
    obtain ⟨res, hres, hi⟩ := h i List.mem_cons_self
    obtain ⟨best, hbest, hanswers⟩ := ih (fun j hj => h j (List.mem_cons_of_mem _ hj))
      (hfound.better hi)
    refine ⟨best, (bestOf_cons hres).trans hbest, ?_⟩
    rwa [← Multiset.cons_coe, Multiset.cons_bind, ← add_assoc]

end Answers

/-! ## Runs -/

section Runs

variable [DecidableEq V] {std : IntervalSort} {rest : Multiset ℕ} {start : NodeAllocator V}
  {rules : List (RuleSpec cfg.D V)} {s : PartitionSortClassifer cfg.D V}

/-- Every packet gets the answer that a search in the list of the rules gives, whichever of the
rules with the same priority the list has in front. -/
def AgreesWithList (cfg : ClassifierCfg) (rules : List (RuleSpec cfg.D V))
    (s : PartitionSortClassifer cfg.D V) : Prop :=
  ∀ v : KeyVec cfg.D, (∀ d, v.get d ≤ keyMax cfg.keyBytes) →
    ∃ res, search cfg s v = .ok res ∧
      AnswersByPriority (rules : Multiset (RuleSpec cfg.D V)) v res ∧
        ∀ sort : PrioritySort cfg.D V,
          ∃ w, ((ListBasedClassifier.insertAll rules).prepare sort).search v = .ok w ∧
            isValid w = isValid res ∧ (isValid res = true → priority w = priority res)

/-- The run of insertions, as a run of calls. -/
theorem Filled.performed {allowed : RuleSpec cfg.D V → PartitionSortClassifer cfg.D V → Prop}
    {allowed' : Operation cfg.D V → PartitionSortClassifer cfg.D V → Prop}
    (h : Filled std cfg allowed start rules s)
    (himp : ∀ rule s, allowed rule s → allowed' (.insert rule) s) :
    Performed std cfg allowed' start s := by
  induction h with
  | make => exact .make
  | inserted _ hallowed hrun ih => exact ih.returned (himp _ _ hallowed) hrun

/-- The trees of a policy agree with the list, when every rule is served and the classifier keeps
its trees in their places. -/
theorem Supplied.agreesWithList {P : Policy cfg V} (hP : P.ByPriority) (hs : Tidy cfg s)
    (hsupplied : Supplied P rest (fun _ => none) s) (hmanaged : Managed cfg rest s)
    (hvalid : ∀ r ∈ rules, isValid r.second = true)
    (hrules : ∀ t < cfg.MAX_TREE_CNT, ∀ a ∈ contents cfg s t, a ∈ rules)
    (hserved : ∀ r ∈ rules, Served P s r) : AgreesWithList cfg rules s := by
  intro v hv
  have hlt : ∀ i < s.treeCnt, s.trees.get i < cfg.MAX_TREE_CNT := fun i hi =>
    hs.trees_lt i (hi.trans_le hs.treeCnt_le)
  obtain ⟨res, hres, hbest⟩ := bestOf_answers (m := fun i => contents cfg s (s.trees.get i))
    (fun i hi => hsupplied.answers hP (hlt i (List.mem_range.mp hi)) hv) (AnswersByPriority.none v)
  have hsearch : search cfg s v = .ok res :=
    (search_eq_searchAll hmanaged.ordered fun i hi => hmanaged.findsWithin v hi).trans hres
  rw [zero_add] at hbest
  have hmem : ∀ a, a ∈ Multiset.bind (List.range s.treeCnt)
      (fun i => contents cfg s (s.trees.get i)) ↔
        ∃ i < s.treeCnt, a ∈ contents cfg s (s.trees.get i) := by
    intro a
    simp [Multiset.mem_bind]
  have hanswers : AnswersByPriority (rules : Multiset (RuleSpec cfg.D V)) v res := by
    refine hbest.of_served (fun a ha => ?_) fun r hr hm => ?_
    · obtain ⟨i, hi, ha⟩ := (hmem a).mp ha
      exact hrules _ (hlt i hi) a ha
    · obtain ⟨t, ht, a, ha, hserves⟩ := hserved r hr
      obtain ⟨hfirst, hle⟩ := hP.serves a r hserves
      obtain ⟨i, hi, rfl⟩ := hs.inUse_of_mem ht (hsupplied.mem_contents ht ha).1
      exact ⟨a, (hmem a).mpr ⟨i, hi, ha⟩, hm.of_first hfirst, hle⟩
  refine ⟨res, hsearch, hanswers, fun sort => ?_⟩
  obtain ⟨w, hw, hlist⟩ := ListBasedClassifier.search_prepare sort v hvalid
  exact ⟨w, hw, hanswers.agree hlist⟩

/-- A run of insertions under a policy by which the trees answer by priority. -/
theorem Filled.agreesWithList {P : Policy cfg V} (hP : P.Lawful) (hby : P.ByPriority)
    (hrules : P.rules = {r | r ∈ rules}) (hT : 2 ≤ cfg.T) (hD : 0 < cfg.D)
    (hpc : cfg.pathCompression = true) (ho : Owns start rest) (hempty : P.sound fun _ => 0)
    (h : Filled std cfg (fun rule s => PutsFitting std cfg P.fits rule s ∧
      (Operation.insert rule).KeepsPlaces std cfg s) start rules s) :
    AgreesWithList cfg rules s := by
  have hmem : ∀ r, r ∈ P.rules ↔ r ∈ rules := by
    intro r
    rw [hrules]
    exact Iff.rfl
  obtain ⟨hs, hsupplied, hserved⟩ := (h.imp fun _ _ h => h.1).supplied hP hT hD hpc ho hempty
    fun r hr => (hmem r).mpr hr
  have hmanaged := (h.performed fun _ _ h => h.2).managed hT hD ho
  exact hsupplied.agreesWithList hby hs hmanaged (fun r hr => (hP.valid r ((hmem r).mpr hr)).2)
    (fun _ ht a ha => (hmem a).mp (hsupplied.mem_contents ht ha).2) hserved

/-- A rule has no lower priority than the rules that it lies in. -/
def Graded {D : ℕ} (rules : List (RuleSpec D V)) : Prop :=
  ∀ a ∈ rules, ∀ b ∈ rules, a.Inside b → priority b.second ≤ priority a.second

/-- The rule may be put into the tree: it is compatible with the rules in it. -/
def FitsCompatible (cfg : ClassifierCfg) (s : PartitionSortClassifer cfg.D V) (t : ℕ)
    (r : RuleSpec cfg.D V) : Prop :=
  ∀ a ∈ contents cfg s t, a.Compatible cfg.keyBytes (s.infos.get t).tree.dimensionOrder r

instance (s : PartitionSortClassifer cfg.D V) (t : ℕ) (r : RuleSpec cfg.D V) :
    Decidable (FitsCompatible cfg s t r) := inferInstanceAs (Decidable (∀ a ∈ contents cfg s t, _))

/-- Nothing is asked of the places of the rules but that they be compatible. -/
def anyPlace (cfg : ClassifierCfg) (rules : List (RuleSpec cfg.D V)) : Policy cfg V where
  rules := {r | r ∈ rules}
  fits := FitsCompatible cfg
  sound := fun _ => True
  serves a r := a.first = r.first ∧ priority r.second ≤ priority a.second

omit [DecidableEq V] in
theorem anyPlace_lawful (hvalid : ∀ r ∈ rules, r.Valid cfg.keyBytes ∧ isValid r.second = true)
    (hgraded : Graded rules) : (anyPlace cfg rules).Lawful where
  valid := hvalid
  fits_congr := by
    intro s s' t r hs hfits a ha
    rw [hs.contents] at ha
    rw [hs.tree]
    exact hfits a ha
  compatible := fun _ _ _ hfits => hfits
  serves_refl := fun _ => ⟨rfl, le_rfl⟩
  serves_trans := fun _ _ _ h h' => ⟨h.1.trans h'.1, h'.2.trans h.2⟩
  serves_put := fun _ _ r _ hr a _ ha hfirst =>
    ⟨hfirst.symm, hgraded r hr a ha (.of_first hfirst.symm)⟩
  sound_put := fun _ _ _ _ _ _ _ _ _ _ => trivial
  sound_empty := fun _ _ _ => trivial
  sound_congr := fun _ _ _ _ => trivial

omit [DecidableEq V] in
theorem byPriority_anyPlace (hgraded : Graded rules) : (anyPlace cfg rules).ByPriority where
  above := fun _ _ hmem t ht a ha b hb hin _ => hgraded a (hmem t ht a ha) b (hmem t ht b hb) hin
  serves := fun _ _ h => h

/-- If the priorities follow from the ranges, it is enough that the rules of a tree be compatible. -/
theorem agreesWithList_of_graded (hT : 2 ≤ cfg.T) (hD : 0 < cfg.D)
    (hpc : cfg.pathCompression = true) (ho : Owns start rest)
    (hvalid : ∀ r ∈ rules, r.Valid cfg.keyBytes ∧ isValid r.second = true)
    (hgraded : Graded rules)
    (h : Filled std cfg (fun rule s => PutsFitting std cfg (FitsCompatible cfg) rule s ∧
      (Operation.insert rule).KeepsPlaces std cfg s) start rules s) :
    AgreesWithList cfg rules s :=
  Filled.agreesWithList (P := anyPlace cfg rules) (anyPlace_lawful hvalid hgraded)
    (byPriority_anyPlace hgraded) rfl hT hD hpc ho trivial h

/-- A tree that is fixed from the start is never updated, so it does not lose its place. -/
theorem Call.keepsPlace_of_fixed (hfixed : cfg.TREE_FIXATION_THRESHOLD ≤ 1) (c : Call cfg.D V)
    (s : PartitionSortClassifer cfg.D V) : c.KeepsPlace std s := by
  cases c with
  | tryInsert rule mask i =>
    rintro s₂ ⟨s₁, n, -, hregister, hlt, -⟩
    have hrules := ((ensures_register (E := fun _ _ => True) rule mask s).ok hregister).rules_self
    have hlen := congrArg List.length hrules
    rw [List.length_append, List.length_singleton] at hlen
    omega
  | update t rule => trivial
  | rebuild t j => trivial
  | tryTrees rule mask first cnt i => trivial
  | insert rule => trivial

theorem keepsPlaces_insert_of_fixed (hfixed : cfg.TREE_FIXATION_THRESHOLD ≤ 1)
    (rule : RuleSpec cfg.D V) (s : PartitionSortClassifer cfg.D V) :
    (Operation.insert rule).KeepsPlaces std cfg s :=
  ⟨fun _ _ _ _ => Call.keepsPlace_of_fixed hfixed _ _, nofun⟩

end Runs

/-! ## A short run -/

section Short

/-- Two fields of one byte, four trees that are fixed from the start. -/
private abbrev fixedTrees : ClassifierCfg := ⟨⟨1, 2, 2, true⟩, 4, 1⟩

private abbrev nestedRules : List (RuleSpec 2 RuleValueInt) :=
  [.box ⟨5, 5⟩ ⟨0, 255⟩ 10 1, .box ⟨5, 5⟩ ⟨7, 7⟩ 20 2, .box ⟨1, 9⟩ ⟨0, 255⟩ 5 3]

end Short

end PartitionSortClassifer

end Pcv
