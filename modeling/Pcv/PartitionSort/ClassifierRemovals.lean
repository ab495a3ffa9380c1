import Pcv.PartitionSort.RulesByPriority
import Pcv.PartitionSort.TreeRemovals

/-!
# Searching a classifier after removals

`remove` takes a rule out of the tree it was put into last, and leaves the copy of the rule in
place, from which later updates fill the tree again.  So two things may go wrong: the tree may not
be able to tell the rule apart from others, and the rule may come back.

In a run of insertions and removals in which neither of them happens, every search finds what a
search in the list of the live rules finds (`agreesWithList_of_maintained`).  The run is asked what
the runs of insertions alone are asked for in `RulesByPriority`, with the rules put into trees
being live ones, and `TellsApart` for each removal.
-/

namespace Pcv

open DynamicMempool

namespace PartitionSortClassifer

variable {V : Type} [RuleValue V]

/-! ## The removal from a tree -/

section Remove

variable {cfg : ClassifierCfg} {P : Policy cfg V} {rest : Multiset ℕ}
  {s : PartitionSortClassifer cfg.D V} {t : ℕ}
  {rule : RuleSpec cfg.D V}

/-- A tree loses the rule, and the other trees keep what they hold. -/
theorem Supplied.ensures_remove (hT : 2 ≤ cfg.T)
    (hfirst : ∀ a r, P.serves a r → a.first = r.first)
    (hsound : ∀ m m', (∀ t < cfg.MAX_TREE_CNT, ∀ a ∈ m' t, a ∈ m t) → P.sound m → P.sound m')
    (h : Supplied P rest (fun _ => none) s) (ht : t < cfg.MAX_TREE_CNT)
    (hmem : ∃ a ∈ contents cfg s t, a.first = rule.first)
    (honce : (contents cfg s t).countP (fun a => a.first = rule.first) ≤ 1)
    (hinside : ∀ a ∈ contents cfg s t, rule.Inside a → a.first = rule.first)
    (hends : (s.infos.get t).tree.EndsValid cfg.toBTreeCfg s.pool rule)
    (hdetach : (s.infos.get t).tree.Detachable cfg.toBTreeCfg s.pool rule) :
    Ensures (fun _ _ => True) (onTree cfg t fun tree => tree.remove cfg.toBTreeCfg rule) s
      fun _ s' => Supplied P rest (fun _ => none) s' ∧
        (∀ a, a ∈ contents cfg s' t ↔ a ∈ contents cfg s t ∧ a.first ≠ rule.first) ∧
          ∀ t' < cfg.MAX_TREE_CNT, t' ≠ t → contents cfg s' t' = contents cfg s t' := by
  set R : ℕ → Multiset (RuleSpec cfg.D V) → Prop := fun t' m =>
    (t' = t → ∀ a, a ∈ m ↔ a ∈ contents cfg s t ∧ a.first ≠ rule.first) ∧
      (t' ≠ t → m = contents cfg s t') with hR
  have htake := EachTree.ensures_onTree (E := fun _ _ => True) (R := fun _ => True)
    (Q := fun t' pool ti trie fp => ∃ m, R t' m ∧ Shelf P none m pool ti trie fp)
    (fun t' => shelf_local P none (contents cfg s t')) ht
    (fun t' hne pool ti trie fp hshelf => ⟨_, ⟨fun heq => absurd heq hne, fun _ => rfl⟩, hshelf⟩)
    h.shelves (x := fun tree => tree.remove cfg.toBTreeCfg rule)
    fun trie fp others hshelf ho => ?_
  · refine htake.mono ?_
    rintro - s' ⟨hs', -⟩
    obtain ⟨hshelves, hcontents⟩ := hs'.contents
    have hmine := (hcontents t ht).1 rfl
    have hothers : ∀ t' < cfg.MAX_TREE_CNT, t' ≠ t → contents cfg s' t' = contents cfg s t' :=
      fun t' ht' hne => (hcontents t' ht').2 hne
    refine ⟨⟨hshelves, hsound _ _ (fun t' ht' a ha => ?_) h.sound⟩, hmine, hothers⟩
    rcases eq_or_ne t' t with rfl | hne
    · exact ((hmine a).mp ha).1
    · rwa [hothers t' ht' hne] at ha
  · obtain ⟨⟨rules, hc, hserves⟩, hlisted, hcopied, hcopies⟩ := hshelf
    obtain ⟨a, ha, har⟩ := hmem
    obtain ⟨b, hb, hba⟩ := hserves a ha
    refine (hc.ensures_remove hT ⟨b, hb, (hfirst b a hba).trans har⟩ (hc.onceAt (hlisted ▸ honce))
      (fun s hs => hinside s (hlisted ▸ hc.mem_listed hs)) hends hdetach ho).mono ?_
    rintro tree pool ⟨trie', fp', hc', ho', hagree, -, hiff, -⟩
    rw [hlisted] at hiff
    refine ⟨trie', fp', ⟨_, ⟨fun _ => hiff, fun hne => absurd rfl hne⟩,
      ⟨⟨_, hc', fun a ha => ?_⟩, rfl, fun a ha => ?_, hcopies⟩⟩, ho', hagree, trivial⟩
    · obtain ⟨ha, hne⟩ := (hiff a).mp ha
      obtain ⟨b, hb, hba⟩ := hserves a ha
      refine ⟨b, List.mem_filter.mpr ⟨hb, decide_eq_true ?_⟩, hba⟩
      rwa [hfirst b a hba]
    · exact hcopied a ((hiff a).mp ha).1

end Remove

/-! ## The live rules -/

variable [DecidableEq V]

/-- The rules by priority, of which only the live ones may be in a tree. -/
def livePolicy (cfg : ClassifierCfg) (seen live : List (RuleSpec cfg.D V)) : Policy cfg V where
  rules := {r | r ∈ seen}
  fits s t r := FitsByPriority cfg s t r ∧ r ∈ live
  sound m := (byPriority cfg seen).sound m ∧ ∀ t < cfg.MAX_TREE_CNT, ∀ a ∈ m t, a ∈ live
  serves a r := a.first = r.first ∧ priority r.second ≤ priority a.second

section LivePolicy

variable {cfg : ClassifierCfg} {seen seen' live live' : List (RuleSpec cfg.D V)} {rest : Multiset ℕ}
  {s : PartitionSortClassifer cfg.D V}

omit [DecidableEq V] in
theorem livePolicy_lawful (hvalid : ∀ r ∈ seen, r.Valid cfg.keyBytes ∧ isValid r.second = true) :
    (livePolicy cfg seen live).Lawful where
  valid := hvalid
  fits_congr s s' t r hs hfits :=
    ⟨(byPriority_lawful hvalid).fits_congr s s' t r hs hfits.1, hfits.2⟩
  compatible s t r hfits := (byPriority_lawful hvalid).compatible s t r hfits.1
  serves_refl := (byPriority_lawful hvalid).serves_refl
  serves_trans := (byPriority_lawful hvalid).serves_trans
  serves_put s t r hfits := (byPriority_lawful hvalid).serves_put s t r hfits.1
  sound_put := by
    rintro s t r m ⟨hfits, hlive⟩ hr ht hmem ⟨hsound, hall⟩ hput
    refine ⟨(byPriority_lawful hvalid).sound_put s t r m hfits hr ht hmem hsound hput,
      fun t' ht' a ha => ?_⟩
    rcases eq_or_ne t' t with rfl | hne
    · rw [Function.update_self] at ha
      rcases hput.of_mem ha with rfl | ha
      · exact hlive
      · exact hall t' ht' a ha
    · rw [Function.update_of_ne hne] at ha
      exact hall t' ht' a ha
  sound_empty := by
    rintro m t ⟨hsound, hall⟩
    refine ⟨(byPriority_lawful hvalid).sound_empty m t hsound, fun t' ht' a ha => ?_⟩
    rcases eq_or_ne t' t with rfl | hne
    · rw [Function.update_self] at ha
      exact absurd ha (Multiset.notMem_zero a)
    · rw [Function.update_of_ne hne] at ha
      exact hall t' ht' a ha
  sound_congr := by
    rintro m m' hm ⟨hsound, hall⟩
    refine ⟨(byPriority_lawful hvalid).sound_congr m m' hm hsound, fun t ht => ?_⟩
    rw [hm t ht]
    exact hall t ht

omit [DecidableEq V] in
theorem livePolicy_byPriority : (livePolicy cfg seen live).ByPriority where
  above := fun _ hsound _ => hsound.1
  serves := fun _ _ h => h

omit [DecidableEq V] in
theorem sound_livePolicy_sub (m m' : ℕ → Multiset (RuleSpec cfg.D V))
    (hsub : ∀ t < cfg.MAX_TREE_CNT, ∀ a ∈ m' t, a ∈ m t)
    (h : (livePolicy cfg seen live).sound m) : (livePolicy cfg seen live).sound m' :=
  ⟨fun t ht a ha b hb => h.1 t ht a (hsub t ht a ha) b (hsub t ht b hb),
    fun t ht a ha => h.2 t ht a (hsub t ht a ha)⟩

omit [DecidableEq V] in
/-- The rules may be more, as long as the trees hold none but the live ones. -/
theorem Supplied.ofLive (h : Supplied (livePolicy cfg seen live) rest (fun _ => none) s)
    (hseen : ∀ r ∈ seen, r ∈ seen')
    (hlive : ∀ t < cfg.MAX_TREE_CNT, ∀ a ∈ contents cfg s t, a ∈ live') :
    Supplied (livePolicy cfg seen' live') rest (fun _ => none) s := by
  refine ⟨h.shelves.imp rfl fun t trie fp others _ hshelf _ => ?_, h.sound.1, hlive⟩
  exact ⟨hshelf.contains, hshelf.listed, hshelf.copied, fun r hr => hseen r (hshelf.mem r hr)⟩

end LivePolicy

section Runs

variable (std : IntervalSort) (cfg : ClassifierCfg)

/-- The tree `t` is the only one that holds the rule, and can tell it apart from the live rules: it
lies in no other rule of the tree, and its path ends at its value. -/
structure TellsApart (live : List (RuleSpec cfg.D V)) (rule : RuleSpec cfg.D V) (t : ℕ)
    (s : PartitionSortClassifer cfg.D V) : Prop where
  mem : rule ∈ live
  distinct : ∀ a ∈ live, a.first = rule.first → a = rule
  alone : ∀ t' < cfg.MAX_TREE_CNT, t' ≠ t → rule ∉ contents cfg s t'
  once : (contents cfg s t).countP (fun a => a.first = rule.first) ≤ 1
  inside : ∀ a ∈ contents cfg s t, rule.Inside a → a.first = rule.first
  endsValid : (s.infos.get t).tree.EndsValid cfg.toBTreeCfg s.pool rule

instance (live : List (RuleSpec cfg.D V)) (rule : RuleSpec cfg.D V) (t : ℕ)
    (s : PartitionSortClassifer cfg.D V) : Decidable (TellsApart cfg live rule t s) :=
  decidable_of_iff (rule ∈ live ∧ (∀ a ∈ live, a.first = rule.first → a = rule) ∧
      (∀ t' < cfg.MAX_TREE_CNT, t' ≠ t → rule ∉ contents cfg s t') ∧
      (contents cfg s t).countP (fun a => a.first = rule.first) ≤ 1 ∧
      (∀ a ∈ contents cfg s t, rule.Inside a → a.first = rule.first) ∧
      (s.infos.get t).tree.EndsValid cfg.toBTreeCfg s.pool rule)
    ⟨fun ⟨a, b, c, d, e, f⟩ => ⟨a, b, c, d, e, f⟩, fun ⟨a, b, c, d, e, f⟩ => ⟨a, b, c, d, e, f⟩⟩

variable {cfg} in
/-- The live rules after a call. -/
def Operation.after (live : List (RuleSpec cfg.D V)) :
    Operation cfg.D V → List (RuleSpec cfg.D V)
  | .insert rule => live ++ [rule]
  | .remove rule => live.filter fun a => a ≠ rule

/-- The call puts nothing but live rules into the trees, where they fit, no tree loses its place,
and the tree of a removed rule can tell it apart. -/
structure Operation.Safe (live : List (RuleSpec cfg.D V)) (op : Operation cfg.D V)
    (s : PartitionSortClassifer cfg.D V) : Prop where
  places : op.KeepsPlaces std cfg s
  fits : ∀ root g, op.Enters cfg s root → Inside std cfg root g →
    g.1.Fits std (fun s t r => FitsByPriority cfg s t r ∧ r ∈ op.after live) g.2
  valid : ∀ rule, op = .insert rule → rule.Valid cfg.keyBytes ∧ isValid rule.second = true
  apart : ∀ rule, op = .remove rule →
    ∃ t, UnorderedMap.find s.ruleToTree rule = some t ∧ TellsApart cfg live rule t s

/-- The states that are reached by safe calls that return, with the rules that are live. -/
inductive Maintained (start : NodeAllocator V) :
    List (RuleSpec cfg.D V) → PartitionSortClassifer cfg.D V → Prop
  | make : Maintained start [] (make cfg.D start)
  | returned {live : List (RuleSpec cfg.D V)} {s s' : PartitionSortClassifer cfg.D V} {fuel : ℕ}
      {op : Operation cfg.D V} : Maintained start live s → op.Safe std cfg live s →
        op.run std cfg fuel s = .ok () s' → Maintained start (op.after live) s'

variable {std cfg} {rest : Multiset ℕ} {start : NodeAllocator V} {s : PartitionSortClassifer cfg.D V}
  {live seen : List (RuleSpec cfg.D V)} {rule : RuleSpec cfg.D V}

/-- The trees hold the live rules. -/
structure HoldsLive (rest : Multiset ℕ) (live seen : List (RuleSpec cfg.D V))
    (s : PartitionSortClassifer cfg.D V) : Prop where
  valid : ∀ r ∈ seen, r.Valid cfg.keyBytes ∧ isValid r.second = true
  mem_seen : ∀ r ∈ live, r ∈ seen
  supplied : Supplied (livePolicy cfg seen live) rest (fun _ => none) s
  served : ∀ r ∈ live, Served (livePolicy cfg seen live) s r

/-- The rule is taken out of its tree and out of the books. -/
theorem HoldsLive.ensures_unregister (hT : 2 ≤ cfg.T) (hs : Tidy cfg s)
    (h : HoldsLive rest live seen s) {t : ℕ} (hfind : UnorderedMap.find s.ruleToTree rule = some t)
    (hapart : TellsApart cfg live rule t s)
    (hdetach : (s.infos.get t).tree.Detachable cfg.toBTreeCfg s.pool rule) :
    Ensures (fun _ _ => True) (unregister cfg rule) s fun _ s' =>
      HoldsLive rest (live.filter fun a => a ≠ rule) seen s' := by
  have ht := (hs.located rule t hfind).lt hs
  set live' := live.filter fun a => a ≠ rule with hlive'
  have hP : (livePolicy cfg seen live').Lawful := livePolicy_lawful h.valid
  -- whatever has the ranges of the rule is the rule itself, and in this tree
  have hsame : ∀ t' < cfg.MAX_TREE_CNT, ∀ a ∈ contents cfg s t', a.first = rule.first →
      a = rule ∧ t' = t := by
    intro t' ht' a ha hfirst
    obtain rfl := hapart.distinct a (h.supplied.sound.2 t' ht' a ha) hfirst
    exact ⟨rfl, by_contra fun hne => hapart.alone t' ht' hne ha⟩
  have hmem : ∃ a ∈ contents cfg s t, a.first = rule.first := by
    obtain ⟨t', ht', a, ha, hfirst, -⟩ := h.served rule hapart.mem
    obtain ⟨rfl, rfl⟩ := hsame t' ht' a ha hfirst
    exact ⟨a, ha, rfl⟩
  refine .bind (.get ?_)
  rw [hfind]
  refine .bind ((h.supplied.ensures_remove hT
    (fun a r hserves => (livePolicy_byPriority.serves a r hserves).1) sound_livePolicy_sub ht hmem
      hapart.once hapart.inside hapart.endsValid hdetach).mono ?_)
  rintro - s₁ ⟨h₁, hmine, hothers⟩
  have hcontents : ∀ t' < cfg.MAX_TREE_CNT, ∀ a, a ∈ contents cfg s₁ t' ↔
      a ∈ contents cfg s t' ∧ a.first ≠ rule.first := by
    intro t' ht' a
    rcases eq_or_ne t' t with rfl | hne
    · exact hmine a
    · rw [hothers t' ht' hne]
      exact ⟨fun ha => ⟨ha, fun hfirst => hne (hsame t' ht' a ha hfirst).2⟩, And.left⟩
  have hheld₁ : HoldsLive rest live' seen s₁ := by
    refine ⟨h.valid, fun r hr => h.mem_seen r (List.mem_filter.mp hr).1,
      h₁.ofLive (fun _ hr => hr) fun t' ht' a ha => ?_, fun r hr => ?_⟩
    · obtain ⟨ha, hne⟩ := (hcontents t' ht' a).mp ha
      refine List.mem_filter.mpr ⟨h.supplied.sound.2 t' ht' a ha, decide_eq_true ?_⟩
      rintro rfl
      exact hne rfl
    · obtain ⟨hr, hne⟩ := List.mem_filter.mp hr
      obtain ⟨t', ht', a, ha, hfirst, hle⟩ := h.served r hr
      refine ⟨t', ht', a, (hcontents t' ht' a).mpr ⟨ha, fun heq => ?_⟩, hfirst, hle⟩
      exact of_decide_eq_true hne (hapart.distinct r hr (hfirst.symm.trans heq))
  set s₂ : PartitionSortClassifer cfg.D V :=
    { s₁ with ruleToTree := UnorderedMap.erase s₁.ruleToTree rule } with hs₂
  have htrees₂ : SameTrees s₁ s₂ := ⟨rfl, fun _ => rfl⟩
  refine .bind (.modify (.bind (.get ?_)))
  cases hmask : usedRuleMaskDecr (s₂.infos.get t) (rule.getRuleMask cfg.keyBytes) with
  | none => exact .bind (.throw trivial)
  | some ti =>
    obtain ⟨masks, rfl⟩ := usedRuleMaskDecr_eq hmask
    have h₂ : Supplied (livePolicy cfg seen live') rest (fun _ => none) s₂ :=
      hheld₁.supplied.countTree rfl rfl
    refine .bind ((h₂.ensures_push (g := fun _ => none) hP
      ((ensures_updateInfo_sameTrees rfl).mono fun _ _ h' => h'.1)
        (ensures_updateInfo (l := []) (b := s₂.pending t) (List.append_nil _).symm rfl) (by simp)
          fun _ _ hr => Or.inl hr).mono ?_)
    rintro - s₃ ⟨h₃, -, htrees₃, -⟩
    have hheld₃ : HoldsLive rest live' seen s₃ := ⟨hheld₁.valid, hheld₁.mem_seen, h₃,
      fun r hr => (htrees₂.trans htrees₃).served (hheld₁.served r hr)⟩
    exact .bind (.get (.ite (fun _ => .pure hheld₃) fun _ => .pure hheld₃))

/-- A safe call keeps the live rules in the trees. -/
theorem HoldsLive.of_run (hT : 2 ≤ cfg.T) (hD : 0 < cfg.D) (hpc : cfg.pathCompression = true)
    (hs : Tidy cfg s) (h : HoldsLive rest live seen s) {op : Operation cfg.D V}
    (hop : op.Safe std cfg live s) {fuel : ℕ} {s' : PartitionSortClassifer cfg.D V}
    (hrun : op.run std cfg fuel s = .ok () s') :
    ∃ seen', HoldsLive rest (op.after live) seen' s' := by
  cases op with
  | insert rule =>
    obtain ⟨hvr, hvalid⟩ := hop.valid rule rfl
    have hseen : ∀ r ∈ seen ++ [rule], r.Valid cfg.keyBytes ∧ isValid r.second = true := by
      intro r hr
      rcases List.mem_append.mp hr with hr | hr
      · exact h.valid r hr
      · rw [List.mem_singleton.mp hr]
        exact ⟨hvr, hvalid⟩
    have hsupplied : Supplied (livePolicy cfg (seen ++ [rule]) (live ++ [rule])) rest
        (fun _ => none) s :=
      h.supplied.ofLive (fun r hr => List.mem_append_left _ hr)
        fun t ht a ha => List.mem_append_left _ (h.supplied.sound.2 t ht a ha)
    rw [Operation.run, ← run_insert] at hrun
    obtain ⟨-, h', hserved', hstored⟩ := (ensures_run_supplied (livePolicy_lawful hseen) hT hD hpc
      ((Call.entered_insert rule s).pre_books hs)
        ⟨hsupplied, trivial, by simp [Call.given, livePolicy]⟩
          (fun g hg => hop.fits _ g (.insert rule s) hg) fuel).ok hrun
    refine ⟨seen ++ [rule], hseen, fun r hr => ?_, h', fun r hr => ?_⟩
    · rcases List.mem_append.mp hr with hr | hr
      · exact List.mem_append_left _ (h.mem_seen r hr)
      · exact List.mem_append_right _ hr
    · rcases List.mem_append.mp hr with hr | hr
      · exact hserved' r (h.served r hr)
      · rw [List.mem_singleton.mp hr]
        exact hstored
  | remove rule =>
    obtain ⟨t, hfind, hapart⟩ := hop.apart rule rfl
    rw [Operation.run, removeRule_eq] at hrun
    obtain ⟨a, s₁, hun, hrun⟩ := exists_of_bind_eq_ok hrun
    have h₁ := (h.ensures_unregister hT hs hfind hapart
      (hop.places.detaches rule t rfl hfind).1).ok hun
    cases a with
    | none =>
      cases hrun
      exact ⟨seen, h₁⟩
    | some t' =>
      obtain ⟨hf₁, hin₁⟩ := (Pcv.PartitionSortClassifer.ensures_unregister hs rule).ok hun
      obtain ⟨-, h', hserved', -⟩ := (ensures_run_supplied (livePolicy_lawful h.valid) hT hD hpc
        ((Call.entered_update (hin₁ t' rfl)).pre_books hf₁.tidy)
          ⟨h₁.supplied, trivial, by simp [Call.given]⟩
            (fun g hg => hop.fits _ g (.remove hun) hg) fuel).ok hrun
      exact ⟨seen, h.valid, h₁.mem_seen, h', fun r hr => hserved' r (h₁.served r hr)⟩

theorem Maintained.performed (h : Maintained std cfg start live s) :
    Performed std cfg (Operation.KeepsPlaces std cfg) start s := by
  induction h with
  | make => exact .make
  | returned _ hop hrun ih => exact ih.returned hop.places hrun

theorem Maintained.holdsLive (hT : 2 ≤ cfg.T) (hD : 0 < cfg.D) (hpc : cfg.pathCompression = true)
    (ho : Owns start rest) (h : Maintained std cfg start live s) :
    ∃ seen, HoldsLive rest live seen s := by
  induction h with
  | make =>
    refine ⟨[], by simp, by simp, supplied_make (livePolicy_lawful (by simp)) ?_ ho, by simp⟩
    exact ⟨fun _ _ a ha => absurd ha (Multiset.notMem_zero a),
      fun _ _ a ha => absurd ha (Multiset.notMem_zero a)⟩
  | returned hrun₀ hop hrun ih =>
    obtain ⟨seen, hheld⟩ := ih
    exact hheld.of_run hT hD hpc (hrun₀.performed.managed hT hD ho).tidy hop hrun

section Short

/-- Two fields of one byte, four trees that are fixed from the start. -/
private abbrev steadyTrees : ClassifierCfg := ⟨⟨1, 2, 2, true⟩, 4, 1⟩

private abbrev vacantPool : NodeAllocator RuleValueInt :=
  DynamicMempool.make 64 (Node.make steadyTrees.toBTreeCfg)

/-- The call is safe, as far as can be told by running it; the tree of a removed rule has one key in
its first layer. -/
private def safe (live : List (RuleSpec 2 RuleValueInt)) :
    Operation 2 RuleValueInt → PartitionSortClassifer 2 RuleValueInt → Bool
  | .insert rule, s => decide (rule.Valid 1 ∧ isValid rule.second = true) &&
      (callsInside (body .insertion steadyTrees) ClassifierFault.tooDeep 30 (.insert rule, s)).all
        fun g => decide (g.1.Fits .insertion
          (fun s t r => FitsByPriority steadyTrees s t r ∧ r ∈ live ++ [rule]) g.2)
  | .remove rule, s =>
      (match unregister steadyTrees rule s with
        | .ok (some _) _ => false
        | _ => true) &&
      (UnorderedMap.find s.ruleToTree rule).any fun t =>
        decide (TellsApart steadyTrees live rule t s ∧
          (s.infos.get t).tree.Detachable steadyTrees.toBTreeCfg s.pool rule ∧
          ∀ n ∈ (s.infos.get t).tree.root,
            (s.pool.mempool.get n).isLeaf = true ∧ (s.pool.mempool.get n).keyCnt ≤ 1)

private theorem safe_of_check {live : List (RuleSpec 2 RuleValueInt)}
    {op : Operation 2 RuleValueInt} {s s' : PartitionSortClassifer 2 RuleValueInt}
    (h : safe live op s = true) (hrun : op.run .insertion steadyTrees 30 s = .ok () s') :
    Operation.Safe .insertion steadyTrees live op s := by
  cases op with
  | insert rule =>
    obtain ⟨hvalid, hcalls⟩ := (Bool.and_eq_true _ _).mp h
    refine ⟨keepsPlaces_insert_of_fixed le_rfl _ _,
      fun root g henters hg => ?_, fun rule' heq => ?_, nofun⟩
    · obtain rfl := henters.of_insert
      exact putsFitting_of_callsInside hrun hcalls g hg
    · cases heq
      exact of_decide_eq_true hvalid
  | remove rule =>
    obtain ⟨hends, hfound⟩ := (Bool.and_eq_true _ _).mp h
    obtain ⟨t, hfind, hcheck⟩ := (Option.any_eq_true _ _).mp hfound
    obtain ⟨hapart, hdetach, hone⟩ := of_decide_eq_true hcheck
    refine ⟨⟨fun _ _ _ _ => Call.keepsPlace_of_fixed le_rfl _ _, fun rule' t' heq hfind' => ?_⟩,
      fun root g henters hg => ?_, nofun, fun rule' heq => ?_⟩
    · cases heq
      obtain rfl := Option.some.inj (hfind.symm.trans hfind')
      exact ⟨hdetach, fun _ _ hd => hd.keys_pairwise_of_oneKey hone _⟩
    · obtain ⟨t', s₁, hun, -⟩ := henters.of_remove
      rw [hun] at hends
      cases hends
    · cases heq
      exact ⟨t, hfind, hapart⟩

/-- The calls, as long as they return and are safe. -/
private def performSafe : List (Operation 2 RuleValueInt) → List (RuleSpec 2 RuleValueInt) →
    PartitionSortClassifer 2 RuleValueInt →
      Option (List (RuleSpec 2 RuleValueInt) × PartitionSortClassifer 2 RuleValueInt)
  | [], live, s => some (live, s)
  | op :: ops, live, s =>
      if safe live op s then
        match op.run .insertion steadyTrees 30 s with
        | .ok () s' => performSafe ops (@Operation.after _ _ steadyTrees live op) s'
        | .error _ _ => none
      else none

private theorem Maintained.of_performSafe {ops : List (Operation 2 RuleValueInt)}
    {live live' : List (RuleSpec 2 RuleValueInt)} {s s' : PartitionSortClassifer 2 RuleValueInt}
    (h : Maintained .insertion steadyTrees vacantPool live s)
    (hs : performSafe ops live s = some (live', s')) :
    Maintained .insertion steadyTrees vacantPool live' s' := by
  induction ops generalizing live s with
  | nil =>
    cases hs
    exact h
  | cons op ops ih =>
    rw [performSafe] at hs
    split at hs
    next hsafe =>
      split at hs
      next s₁ hrun => exact ih (h.returned (safe_of_check hsafe hrun) hrun) hs
      next => cases hs
    next => cases hs

private abbrev around : RuleSpec 2 RuleValueInt := .box ⟨5, 5⟩ ⟨0, 255⟩ 10 1

private abbrev within : RuleSpec 2 RuleValueInt := .box ⟨5, 5⟩ ⟨7, 7⟩ 20 2

private abbrev beside : RuleSpec 2 RuleValueInt := .box ⟨1, 9⟩ ⟨0, 255⟩ 5 3

private abbrev later : RuleSpec 2 RuleValueInt := .box ⟨5, 5⟩ ⟨9, 12⟩ 15 4

end Short

end Runs

end PartitionSortClassifer

end Pcv
