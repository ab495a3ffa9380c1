import Pcv.PartitionSort.ClassifierLevels
import Pcv.PartitionSort.TreeContents

/-!
# The rules in the trees

Every insertion may empty trees, fill them again from their copies, and pass rules on to other
trees.  What the trees hold in the end is accounted for by a policy: it says which rules may be
put into which tree, what holds of the rules in the trees as long as only such rules are put into
them, and when a stored rule is as good as one that was inserted.

`Supplied` is the invariant, and this module says what the pieces of the calls do to it: a rule
that fits is put into a tree, a tree gives up its rules, the order of a tree changes behind the
levels in use, and rules are copied.
-/

namespace Pcv

open DynamicMempool

namespace PartitionSortClassifer

variable {V : Type} [RuleValue V] {cfg : ClassifierCfg}

/-- The rules that are extracted from a tree. -/
def contents (cfg : ClassifierCfg) (s : PartitionSortClassifer cfg.D V) (t : ℕ) :
    Multiset (RuleSpec cfg.D V) :=
  match (s.infos.get t).tree.toRules cfg.toBTreeCfg s.pool with
  | .ok out => out
  | .error _ => 0

/-- The rules, where they may be put, and what is expected of the trees that hold them. -/
structure Policy (cfg : ClassifierCfg) (V : Type) where
  /-- The rules that may be inserted. -/
  rules : Set (RuleSpec cfg.D V)
  /-- The rule may be put into the tree. -/
  fits : PartitionSortClassifer cfg.D V → ℕ → RuleSpec cfg.D V → Prop
  /-- What is expected of the rules in the trees. -/
  sound : (ℕ → Multiset (RuleSpec cfg.D V)) → Prop
  /-- The first rule is as good as the second one. -/
  serves : RuleSpec cfg.D V → RuleSpec cfg.D V → Prop

/-- Two states have the same trees and nodes. -/
structure SameTrees {D : ℕ} (s s' : PartitionSortClassifer D V) : Prop where
  pool : s'.pool = s.pool
  tree : ∀ t, (s'.infos.get t).tree = (s.infos.get t).tree

/-- The fields of the tree are tested in another order. -/
def reordered {D : ℕ} (s : PartitionSortClassifer D V) (t : ℕ) (order : DimensionOrder D) :
    PartitionSortClassifer D V :=
  { s with infos := s.infos.set t { s.infos.get t with
    tree := { (s.infos.get t).tree with dimensionOrder := order } } }

/-- What makes a policy work. -/
structure Policy.Lawful (P : Policy cfg V) : Prop where
  valid : ∀ r ∈ P.rules, r.Valid cfg.keyBytes ∧ isValid r.second = true
  fits_congr : ∀ s s' t r, SameTrees s s' → P.fits s t r → P.fits s' t r
  compatible : ∀ s t r, P.fits s t r → ∀ a ∈ contents cfg s t,
    a.Compatible cfg.keyBytes (s.infos.get t).tree.dimensionOrder r
  serves_refl : ∀ r, P.serves r r
  serves_trans : ∀ a b c, P.serves a b → P.serves b c → P.serves a c
  /-- A rule that is replaced is not missed. -/
  serves_put : ∀ s t r, P.fits s t r → r ∈ P.rules → ∀ a ∈ contents cfg s t, a ∈ P.rules →
    a.first = r.first → P.serves r a
  sound_put : ∀ s t r m, P.fits s t r → r ∈ P.rules → t < cfg.MAX_TREE_CNT →
    (∀ t' < cfg.MAX_TREE_CNT, ∀ a ∈ contents cfg s t', a ∈ P.rules) → P.sound (contents cfg s) →
      Receives r ((s.infos.get t).tree.EndsValid cfg.toBTreeCfg s.pool r) (contents cfg s t) m →
        P.sound (Function.update (contents cfg s) t m)
  sound_empty : ∀ m t, P.sound m → P.sound (Function.update m t 0)
  /-- Only the trees of the array count. -/
  sound_congr : ∀ m m', (∀ t < cfg.MAX_TREE_CNT, m' t = m t) → P.sound m → P.sound m'

section SameTrees

variable {s s' s'' : PartitionSortClassifer cfg.D V} {t : ℕ}

omit [RuleValue V] in
theorem SameTrees.refl (s : PartitionSortClassifer cfg.D V) : SameTrees s s := ⟨rfl, fun _ => rfl⟩

omit [RuleValue V] in
theorem SameTrees.symm (h : SameTrees s s') : SameTrees s' s :=
  ⟨h.pool.symm, fun t => (h.tree t).symm⟩

omit [RuleValue V] in
theorem SameTrees.trans (h : SameTrees s s') (h' : SameTrees s' s'') : SameTrees s s'' :=
  ⟨h'.pool.trans h.pool, fun t => (h'.tree t).trans (h.tree t)⟩

theorem SameTrees.contents (h : SameTrees s s') (t : ℕ) : contents cfg s' t = contents cfg s t := by
  rw [PartitionSortClassifer.contents, PartitionSortClassifer.contents, h.pool, h.tree]

omit [RuleValue V] in
theorem sameTrees_updateInfo {f : TreeInfo cfg.D V → TreeInfo cfg.D V}
    (hf : (f (s.infos.get t)).tree = (s.infos.get t).tree) :
    SameTrees s { s with infos := s.infos.set t (f (s.infos.get t)) } := by
  refine ⟨rfl, fun t' => ?_⟩
  rcases eq_or_ne t' t with rfl | hne
  · rw [Store.get_set_self, hf]
  · rw [Store.get_set_of_ne _ _ hne]

omit [RuleValue V] in
theorem SameTrees.reordered (h : SameTrees s s') (t : ℕ) (order : DimensionOrder cfg.D) :
    SameTrees (s.reordered t order) (s'.reordered t order) := by
  refine ⟨h.pool, fun t' => ?_⟩
  rw [PartitionSortClassifer.reordered, PartitionSortClassifer.reordered]
  rcases eq_or_ne t' t with rfl | hne
  · rw [Store.get_set_self, Store.get_set_self, h.tree]
  · rw [Store.get_set_of_ne _ _ hne, Store.get_set_of_ne _ _ hne, h.tree]

variable {E : ClassifierFault → PartitionSortClassifer cfg.D V → Prop}

omit [RuleValue V] in
theorem ensures_updateInfo_sameTrees {f : TreeInfo cfg.D V → TreeInfo cfg.D V}
    (hf : (f (s.infos.get t)).tree = (s.infos.get t).tree) :
    Ensures E (updateInfo t f) s fun _ s' =>
      SameTrees s s' ∧ s'.infos.get t = f (s.infos.get t) :=
  .modify ⟨sameTrees_updateInfo hf, Store.get_set_self _ _ _⟩

omit [RuleValue V] in
theorem ensures_beginUpdate_sameTrees (rule : Option (RuleSpec cfg.D V)) :
    Ensures E (beginUpdate t rule) s fun _ s' => SameTrees s s' := by
  refine .bind ((ensures_updateInfo_sameTrees rfl).mono fun _ s₁ h₁ => ?_)
  cases rule with
  | none => exact .pure h₁.1
  | some rule =>
    exact (ensures_updateInfo_sameTrees rfl).mono fun _ _ h₂ => h₁.1.trans h₂.1

omit [RuleValue V] in
theorem ensures_endUpdate_sameTrees :
    Ensures E (endUpdate t) s fun _ s' => SameTrees s s' :=
  (ensures_updateInfo_sameTrees rfl).mono fun _ _ h => h.1

omit [RuleValue V] in
theorem ensures_register_sameTrees [DecidableEq V] (rule : RuleSpec cfg.D V)
    (mask : RuleMask cfg.D) : Ensures E (register rule mask t) s fun _ s' =>
      SameTrees s s' ∧ (s'.infos.get t).usedDimCnt = (s.infos.get t).usedDimCnt := by
  refine .bind ((ensures_updateInfo_sameTrees rfl).mono fun _ s₁ h₁ => .bind (.modify ?_))
  obtain ⟨masks, hmasks⟩ := usedRuleMaskIncr_eq (s₁.infos.get t) mask
  set s₂ : PartitionSortClassifer cfg.D V :=
    { s₁ with ruleToTree := UnorderedMap.assign s₁.ruleToTree rule t } with hs₂
  have h₂ : SameTrees s s₂ := ⟨h₁.1.pool, h₁.1.tree⟩
  have htree := congrArg TreeInfo.tree hmasks
  have hused := congrArg TreeInfo.usedDimCnt hmasks
  have hused₁ := congrArg TreeInfo.usedDimCnt h₁.2
  refine (ensures_updateInfo_sameTrees (s := s₂) htree).mono fun _ s' h' => ⟨h₂.trans h'.1, ?_⟩
  rw [h'.2]
  exact hused.trans hused₁

theorem ensures_raisePriority_sameTrees (rule : RuleSpec cfg.D V) (i : ℕ) :
    Ensures E (raisePriority rule t i) s fun _ s' => SameTrees s s' := by
  refine .bind (.get (.ite (fun _ => ?_) fun _ => .pure (.refl s)))
  exact .bind ((ensures_updateInfo_sameTrees rfl).mono fun _ s₁ h₁ =>
    .modify ⟨h₁.1.pool, h₁.1.tree⟩)

end SameTrees

/-! ## The invariant -/

/-- The tree holds the rules `m`, each of which has a copy, save for one that is on its way
into it.  A stored rule that was not overwritten is as good as any that is extracted. -/
structure Shelf (P : Policy cfg V) (e : Option (RuleSpec cfg.D V)) (m : Multiset (RuleSpec cfg.D V))
    (pool : NodeAllocator V) (ti : TreeInfo cfg.D V) (trie : Trie Range1d V) (fp : Multiset ℕ) :
    Prop where
  contains : ∃ rules, ti.tree.Contains cfg.toBTreeCfg pool rules trie fp ∧
    ∀ a ∈ m, ∃ b ∈ rules, P.serves b a
  listed : ti.tree.listed cfg.toBTreeCfg trie = m
  copied : ∀ a ∈ m, a ∈ ti.rules ∨ some a = e
  mem : ∀ r ∈ ti.rules, r ∈ P.rules

/-- Every tree holds the rules that are extracted from it, and has nodes of its own; the rules
are as they are expected to be. -/
structure Supplied (P : Policy cfg V) (rest : Multiset ℕ) (e : ℕ → Option (RuleSpec cfg.D V))
    (s : PartitionSortClassifer cfg.D V) : Prop where
  shelves : EachTree rest (fun t pool ti => Shelf P (e t) (contents cfg s t) pool ti) s
  sound : P.sound (contents cfg s)

/-- Something as good as the rule is in one of the trees. -/
def Served (P : Policy cfg V) (s : PartitionSortClassifer cfg.D V) (r : RuleSpec cfg.D V) : Prop :=
  ∃ t < cfg.MAX_TREE_CNT, ∃ a ∈ contents cfg s t, P.serves a r

section Supplied

variable {P : Policy cfg V} {rest : Multiset ℕ} {e g : ℕ → Option (RuleSpec cfg.D V)}
  {s s' : PartitionSortClassifer cfg.D V} {t : ℕ}

theorem Shelf.frame {pool pool' : NodeAllocator V} {ti : TreeInfo cfg.D V} {trie : Trie Range1d V}
    {fp : Multiset ℕ} {m : Multiset (RuleSpec cfg.D V)} {o : Option (RuleSpec cfg.D V)}
    (h : Shelf P o m pool ti trie fp) (hagree : Store.Agree fp pool.mempool pool'.mempool) :
    Shelf P o m pool' ti trie fp := by
  obtain ⟨rules, hc, hserves⟩ := h.contains
  exact { h with contains := ⟨rules, hc.frame hagree, hserves⟩ }

theorem shelf_local (P : Policy cfg V) (o : Option (RuleSpec cfg.D V))
    (m : Multiset (RuleSpec cfg.D V)) :
    TreeProperty.Local (Shelf P o m : TreeProperty cfg V) :=
  fun _ _ _ _ _ h hagree => h.frame hagree

/-- What is extracted from the tree. -/
theorem Shelf.contents_eq {trie : Trie Range1d V} {fp others : Multiset ℕ}
    {m : Multiset (RuleSpec cfg.D V)} {o : Option (RuleSpec cfg.D V)}
    (h : Shelf P o m s.pool (s.infos.get t) trie fp) (ho : Owns s.pool (fp + others)) :
    contents cfg s t = m := by
  obtain ⟨rules, hc, -⟩ := h.contains
  obtain ⟨out, hout, heq⟩ := hc.toRules ho
  rw [contents, hout]
  exact heq.trans h.listed

/-- What the trees hold is what is extracted from them. -/
theorem EachTree.contents {R : ℕ → Multiset (RuleSpec cfg.D V) → Prop}
    (h : EachTree rest (fun t pool ti trie fp => ∃ m, R t m ∧ Shelf P (e t) m pool ti trie fp) s) :
    EachTree rest (fun t pool ti => Shelf P (e t) (contents cfg s t) pool ti) s ∧
      ∀ t < cfg.MAX_TREE_CNT, R t (contents cfg s t) := by
  refine ⟨h.imp rfl fun t trie fp others _ hm ho => ?_, fun t ht => ?_⟩
  · obtain ⟨m, -, hm⟩ := hm
    exact (hm.contents_eq ho).symm ▸ hm
  · obtain ⟨trie, fp, others, ⟨m, hR, hm⟩, ho⟩ := h.tree ht
    exact (hm.contents_eq ho).symm ▸ hR

theorem Supplied.copied (h : Supplied P rest e s) (ht : t < cfg.MAX_TREE_CNT)
    {a : RuleSpec cfg.D V} (ha : a ∈ PartitionSortClassifer.contents cfg s t) :
    a ∈ s.rules t ∨ some a = e t := by
  obtain ⟨_, _, _, hm, -⟩ := h.shelves.tree ht
  exact hm.copied a ha

theorem Supplied.mem (h : Supplied P rest e s) (ht : t < cfg.MAX_TREE_CNT)
    {r : RuleSpec cfg.D V} (hr : r ∈ s.rules t) : r ∈ P.rules := by
  obtain ⟨_, _, _, hm, -⟩ := h.shelves.tree ht
  exact hm.mem r hr

theorem SameTrees.served (h : SameTrees s s') {r : RuleSpec cfg.D V} (hr : Served P s r) :
    Served P s' r := by
  obtain ⟨t, ht, a, ha, hserves⟩ := hr
  exact ⟨t, ht, a, by rwa [h.contents], hserves⟩

/-- The rules `rs` are copied, and the trees stay as they are. -/
theorem Supplied.push [DecidableEq V] {rs : List (RuleSpec cfg.D V)} {b : Bool} (hP : P.Lawful)
    (h : Supplied P rest e s) (hs : SameTrees s s') (hp : Pushes t rs b s s')
    (hrs : ∀ r ∈ rs, r ∈ P.rules)
    (he : ∀ t' r, some r = e t' → r ∈ s'.rules t' ∨ some r = g t') : Supplied P rest g s' := by
  refine ⟨h.shelves.imp hs.pool fun t' trie fp others ht' hshelf _ => ?_,
    hP.sound_congr _ _ (fun t' _ => hs.contents t') h.sound⟩
  obtain ⟨hc, hlisted, hcopied, hmem⟩ := hshelf
  refine ⟨?_, ?_, fun a ha => ?_, fun r hr => ?_⟩
  · rw [hs.tree, hs.contents]
    exact hc
  · rw [hs.tree, hs.contents]
    exact hlisted
  · rw [hs.contents] at ha
    rcases hcopied a ha with ha | ha
    · exact Or.inl (hp.mem_rules.mpr (Or.inl ha))
    · exact he t' a ha
  · rcases hp.mem_rules.mp hr with hr | ⟨-, hr⟩
    · exact hmem r hr
    · exact hrs r hr

/-! ## What the pieces do -/

/-- The extraction of a tree lists what the tree holds. -/
theorem Supplied.exists_toRules (h : Supplied P rest e s) (ht : t < cfg.MAX_TREE_CNT) :
    ∃ out, (s.infos.get t).tree.toRules cfg.toBTreeCfg s.pool = .ok out ∧
      (out : Multiset (RuleSpec cfg.D V)) = PartitionSortClassifer.contents cfg s t := by
  obtain ⟨trie, fp, others, hshelf, ho⟩ := h.shelves.tree ht
  obtain ⟨rules, hc, -⟩ := hshelf.contains
  obtain ⟨out, hout, heq⟩ := hc.toRules ho
  exact ⟨out, hout, heq.trans hshelf.listed⟩

theorem Supplied.mem_contents (h : Supplied P rest (fun _ => none) s) (ht : t < cfg.MAX_TREE_CNT)
    {a : RuleSpec cfg.D V} (ha : a ∈ PartitionSortClassifer.contents cfg s t) :
    a ∈ s.rules t ∧ a ∈ P.rules := by
  have hmem := (h.copied ht ha).resolve_right fun heq => by cases heq
  exact ⟨hmem, h.mem ht hmem⟩

/-- A rule is put into a tree in which it fits. -/
theorem Supplied.ensures_insert (hP : P.Lawful) (hT : 2 ≤ cfg.T) (hD : 0 < cfg.D)
    (hpc : cfg.pathCompression = true) (h : Supplied P rest (fun _ => none) s)
    (ht : t < cfg.MAX_TREE_CNT) {r : RuleSpec cfg.D V} (hr : r ∈ P.rules) (hfits : P.fits s t r)
    (hg : ∀ t', t' ≠ t → g t' = none) (hcopy : r ∈ s.rules t ∨ some r = g t) :
    Ensures (fun _ _ => True) (onTree cfg t fun tree => tree.insert cfg.toBTreeCfg r) s
      fun _ s' => Supplied P rest g s' ∧ (∀ a, Served P s a → Served P s' a) ∧ Served P s' r := by
  obtain ⟨hvr, hvalid⟩ := hP.valid r hr
  set placed := (s.infos.get t).tree.EndsValid cfg.toBTreeCfg s.pool r with hplaced
  -- the others keep what they hold
  set R : ℕ → Multiset (RuleSpec cfg.D V) → Prop := fun t' m =>
    (t' = t → Receives r placed (contents cfg s t) m) ∧ (t' ≠ t → m = contents cfg s t') with hR
  have hput := EachTree.ensures_onTree (E := OnlyBadAlloc) (R := fun _ => True)
    (Q := fun t' pool ti trie fp => ∃ m, R t' m ∧ Shelf P (g t') m pool ti trie fp)
    (fun t' => shelf_local P none (contents cfg s t')) ht
    (fun t' hne pool ti trie fp hshelf => ⟨_, ⟨fun heq => absurd heq hne, fun _ => rfl⟩,
      (hg t' hne).symm ▸ hshelf⟩) h.shelves
    (x := fun tree => tree.insert cfg.toBTreeCfg r) fun trie fp others hshelf ho => ?_
  · refine hput.mono ?_
    rintro - s' ⟨hs', -⟩
    obtain ⟨hshelves, hcontents⟩ := hs'.contents
    have hreceives := (hcontents t ht).1 rfl
    have hsame : ∀ t', t' < cfg.MAX_TREE_CNT → t' ≠ t →
        contents cfg s' t' = contents cfg s t' := fun t' ht' hne => (hcontents t' ht').2 hne
    have hrt : r ∈ contents cfg s' t := hreceives.mem_self
    refine ⟨⟨hshelves, ?_⟩, fun a ha => ?_, ⟨t, ht, r, hrt, hP.serves_refl r⟩⟩
    · refine hP.sound_congr _ _ (fun t' ht' => ?_) (hP.sound_put s t r (contents cfg s' t) hfits hr
        ht (fun t' ht' a ha => (h.mem_contents ht' ha).2) h.sound hreceives)
      rcases eq_or_ne t' t with rfl | hne
      · rw [Function.update_self]
      · rw [Function.update_of_ne hne, hsame t' ht' hne]
    · obtain ⟨t', ht', b, hb, hserves⟩ := ha
      rcases eq_or_ne t' t with rfl | hne
      · rcases hreceives.mem_or_replaced hb with hb' | hfirst
        · exact ⟨t', ht', b, hb', hserves⟩
        · exact ⟨t', ht', r, hrt, hP.serves_trans _ _ _ (hP.serves_put s t' r hfits hr b hb
            (h.mem_contents ht' hb).2 hfirst) hserves⟩
      · exact ⟨t', ht', b, by rwa [hsame t' ht' hne], hserves⟩
  · obtain ⟨⟨rules, hc, hserves⟩, hlisted, hcopied, hmem⟩ := hshelf
    have hrules : ∀ a ∈ rules, a ∈ contents cfg s t := fun a ha => hlisted ▸ hc.mem_listed ha
    refine (hc.ensures_insert hT hD hpc hvr hvalid
      (fun a ha => hP.compatible s t r hfits a (hrules a ha)) ho).mono ?_
    rintro tree pool ⟨trie', fp', hc', ho', hagree, hord, hreceives⟩
    rw [hlisted] at hreceives
    refine ⟨trie', fp', ⟨_, ⟨fun _ => hreceives, fun hne => absurd rfl hne⟩,
      ⟨⟨_, hc', fun a ha => ?_⟩, rfl, fun a ha => ?_, hmem⟩⟩, ho', hagree, trivial⟩
    · have hput : ∀ b ∈ rules, P.serves b a → ∃ b ∈ withRule rules r, P.serves b a := by
        intro b hb hba
        by_cases hfirst : b.first = r.first
        · exact ⟨r, mem_withRule.mpr (Or.inl rfl), hP.serves_trans _ _ _ (hP.serves_put s t r hfits hr
            b (hrules b hb) (h.mem_contents ht (hrules b hb)).2 hfirst) hba⟩
        · exact ⟨b, mem_withRule.mpr (Or.inr ⟨hb, hfirst⟩), hba⟩
      rcases hreceives.of_mem ha with rfl | ha
      · exact ⟨a, mem_withRule.mpr (Or.inl rfl), hP.serves_refl a⟩
      · obtain ⟨b, hb, hba⟩ := hserves a ha
        exact hput b hb hba
    · rcases hreceives.of_mem ha with rfl | ha
      · exact hcopy
      · exact Or.inl (h.mem_contents ht ha).1

/-- The tree gives up its rules, all of which have copies. -/
theorem Supplied.ensures_emptyTree (hP : P.Lawful) (h : Supplied P rest (fun _ => none) s)
    (ht : t < cfg.MAX_TREE_CNT) {order : DimensionOrder cfg.D × ℕ} (hp : order.1.IsPermutation) :
    Ensures (fun _ _ => True) (emptyTree cfg t (s.infos.get t).tree.root order) s fun _ s' =>
      Supplied P rest (fun _ => none) s' ∧
        ∀ a, Served P s a → Served P s' a ∨ ∃ b ∈ s.rules t, P.serves b a := by
  set R : ℕ → Multiset (RuleSpec cfg.D V) → Prop := fun t' m =>
    (t' = t → m = 0) ∧ (t' ≠ t → m = contents cfg s t') with hR
  have hdenotes : ∀ trie fp, Shelf P none (contents cfg s t) s.pool (s.infos.get t) trie fp →
      Denotes cfg.toBTreeCfg (.ofOrder (s.infos.get t).tree.dimensionOrder) s.pool.mempool 0
        (.link (s.infos.get t).tree.root) trie fp := by
    intro trie fp hshelf
    obtain ⟨rules, hc, -⟩ := hshelf.contains
    exact hc.stores.holds
  have hnil : ∀ trie fp pool, Shelf P none (contents cfg s t) s.pool (s.infos.get t) trie fp →
      ∃ m, R t m ∧ Shelf P none m pool
        { s.infos.get t with tree := ⟨none, order.1⟩, usedDimCnt := order.2 } .nil 0 :=
    fun trie fp pool hshelf => ⟨0, ⟨fun _ => rfl, fun hne => absurd rfl hne⟩,
      ⟨[], .nil hp, fun a ha => absurd ha (Multiset.notMem_zero a)⟩, rfl,
        fun a ha => absurd ha (Multiset.notMem_zero a), hshelf.mem⟩
  refine (EachTree.ensures_emptyTree (Q := fun t' pool ti trie fp => ∃ m, R t' m ∧
    Shelf P none m pool ti trie fp) (fun t' => shelf_local P none (contents cfg s t')) ht
      (fun t' hne pool ti trie fp hshelf => ⟨_, ⟨fun heq => absurd heq hne, fun _ => rfl⟩, hshelf⟩)
        h.shelves hdenotes hnil).mono ?_
  rintro - s' ⟨hs', -, -⟩
  obtain ⟨hshelves, hcontents⟩ := hs'.contents
  refine ⟨⟨hshelves, ?_⟩, fun a ha => ?_⟩
  · refine hP.sound_congr _ _ (fun t' ht' => ?_) (hP.sound_empty _ t h.sound)
    rcases eq_or_ne t' t with rfl | hne
    · rw [Function.update_self, (hcontents t' ht').1 rfl]
    · rw [Function.update_of_ne hne, (hcontents t' ht').2 hne]
  · obtain ⟨t', ht', b, hb, hserves⟩ := ha
    rcases eq_or_ne t' t with rfl | hne
    · exact Or.inr ⟨b, (h.mem_contents ht hb).1, hserves⟩
    · exact Or.inl ⟨t', ht', b, by rwa [(hcontents t' ht').2 hne], hserves⟩

/-- The fields behind the levels that the rules of a tree use change places. -/
theorem Supplied.ensures_reorder (hP : P.Lawful) (h : Supplied P rest e s)
    (ht : t < cfg.MAX_TREE_CNT) {order : DimensionOrder cfg.D} {n : ℕ}
    (hused : ∀ a ∈ PartitionSortClassifer.contents cfg s t,
      a.UsesFirst cfg.keyBytes (s.infos.get t).tree.dimensionOrder n)
    (hk : (s.infos.get t).tree.dimensionOrder.KeepsFirst n order)
    {f : TreeInfo cfg.D V → TreeInfo cfg.D V}
    (hrules : (f (s.infos.get t)).rules = s.rules t) (htree : (f (s.infos.get t)).tree =
      { (s.infos.get t).tree with dimensionOrder := order }) :
    Ensures (fun _ _ => True) (updateInfo t f) s fun _ s' => Supplied P rest e s' ∧
      (∀ a, Served P s a → Served P s' a) ∧ SameTrees (s.reordered t order) s' ∧
        s'.rules t = s.rules t := by
  set R : ℕ → Multiset (RuleSpec cfg.D V) → Prop := fun t' m => m = contents cfg s t' with hR
  have hupdate := EachTree.ensures_updateInfo
    (Q := fun t' pool ti trie fp => ∃ m, R t' m ∧ Shelf P (e t') m pool ti trie fp)
    (fun t' => shelf_local P (e t') (contents cfg s t')) ht
    (fun t' _ pool ti trie fp hshelf => ⟨_, rfl, hshelf⟩) h.shelves (f := f)
    fun trie fp hshelf => ?_
  · have hsame : Ensures (fun _ _ => True) (updateInfo t f) s fun _ s' =>
        SameTrees (s.reordered t order) s' := by
      refine .modify ⟨rfl, fun t' => ?_⟩
      rw [PartitionSortClassifer.reordered]
      rcases eq_or_ne t' t with rfl | hne
      · rw [Store.get_set_self, Store.get_set_self, htree]
      · rw [Store.get_set_of_ne _ _ hne, Store.get_set_of_ne _ _ hne]
    refine (hupdate.and hsame).conseq (fun _ _ _ => trivial) ?_
    rintro - s' ⟨⟨hs', -, hinfo⟩, htrees⟩
    obtain ⟨hshelves, hcontents⟩ := hs'.contents
    refine ⟨⟨hshelves, hP.sound_congr _ _ (fun t' ht' => hcontents t' ht') h.sound⟩, fun a ha => ?_,
      htrees, ?_⟩
    · obtain ⟨t', ht', b, hb, hserves⟩ := ha
      exact ⟨t', ht', b, by rwa [hcontents t' ht'], hserves⟩
    · rw [PartitionSortClassifer.rules, hinfo, hrules]
  · obtain ⟨⟨rules, hc, hserves⟩, hlisted, hcopied, hmem⟩ := hshelf
    obtain ⟨hc', hlisted'⟩ := hc.reorder
      (fun a ha => hused a (hlisted ▸ hc.mem_listed ha)) hk
    refine ⟨_, rfl, ⟨rules, htree ▸ hc', hserves⟩, htree ▸ hlisted'.trans hlisted, ?_, ?_⟩
    · rw [hrules]
      exact hcopied
    · rw [hrules]
      exact hmem

theorem Supplied.isPermutation (h : Supplied P rest e s) (ht : t < cfg.MAX_TREE_CNT) :
    (s.infos.get t).tree.dimensionOrder.IsPermutation := by
  obtain ⟨_, _, _, hshelf, -⟩ := h.shelves.tree ht
  obtain ⟨_, hc, -⟩ := hshelf.contains
  exact hc.isPermutation

/-- A piece that leaves the trees as they are, and copies the rules `rs`. -/
theorem Supplied.ensures_push [DecidableEq V] {rs : List (RuleSpec cfg.D V)} {b : Bool}
    {x : M cfg.D V Unit} (hP : P.Lawful) (h : Supplied P rest e s)
    (hx : Ensures (fun _ _ => True) x s fun _ s' => SameTrees s s')
    (hp : Ensures (fun _ _ => True) x s fun _ s' => Pushes t rs b s s')
    (hrs : ∀ r ∈ rs, r ∈ P.rules)
    (he : ∀ t' r, some r = e t' → some r = g t' ∨ (t' = t ∧ r ∈ rs)) :
    Ensures (fun _ _ => True) x s fun _ s' => Supplied P rest g s' ∧
      (∀ a, Served P s a → Served P s' a) ∧ SameTrees s s' ∧ Pushes t rs b s s' := by
  refine (hx.and hp).conseq (fun _ _ _ => trivial) fun _ s' h' => ?_
  refine ⟨h.push hP h'.1 h'.2 hrs fun t' r hr => ?_, fun a => h'.1.served, h'.1, h'.2⟩
  rcases he t' r hr with hr | ⟨rfl, hr⟩
  · exact Or.inr hr
  · exact Or.inl (h'.2.mem_rules.mpr (Or.inr ⟨rfl, hr⟩))

/-- The order of a fixed tree may get the fields of the rule into use, and the rule fits then. -/
def FitsFixed (fits : PartitionSortClassifer cfg.D V → ℕ → RuleSpec cfg.D V → Prop)
    (s : PartitionSortClassifer cfg.D V) (t : ℕ) (rule : RuleSpec cfg.D V) : Prop :=
  (∀ a ∈ contents cfg s t, a.UsesFirst cfg.keyBytes (s.infos.get t).tree.dimensionOrder
    (s.infos.get t).usedDimCnt) ∧
  fits (s.reordered t (lockDims cfg.keyBytes rule (cfg.D - (s.infos.get t).usedDimCnt)
    (s.infos.get t).usedDimCnt ((s.infos.get t).tree.dimensionOrder,
      (s.infos.get t).usedDimCnt)).1) t rule

theorem FitsFixed.congr {rule : RuleSpec cfg.D V} (hP : P.Lawful) (h : FitsFixed P.fits s t rule)
    (hs : SameTrees s s') (hused : (s'.infos.get t).usedDimCnt = (s.infos.get t).usedDimCnt) :
    FitsFixed P.fits s' t rule := by
  obtain ⟨huses, hfits⟩ := h
  refine ⟨fun a ha => ?_, ?_⟩
  · rw [hs.tree, hused]
    exact huses a (hs.contents t ▸ ha)
  · rw [hs.tree, hused]
    exact hP.fits_congr _ _ t rule (hs.reordered t _) hfits

/-- The order of a fixed tree gets the fields of the rule into use. -/
theorem Supplied.ensures_insertFixed (hP : P.Lawful) (hT : 2 ≤ cfg.T) (hD : 0 < cfg.D)
    (hpc : cfg.pathCompression = true) (h : Supplied P rest (fun _ => none) s)
    (ht : t < cfg.MAX_TREE_CNT) {rule : RuleSpec cfg.D V} (hr : rule ∈ P.rules)
    (hmem : rule ∈ s.rules t) (hfits : FitsFixed P.fits s t rule) :
    Ensures (fun _ _ => True) (insertFixed cfg rule t (s.infos.get t)) s fun _ s' =>
      Supplied P rest (fun _ => none) s' ∧ (∀ a, Served P s a → Served P s' a) ∧
        Served P s' rule := by
  obtain ⟨huses, hfits⟩ := hfits
  refine .bind ((h.ensures_reorder hP ht huses (lockDims_keepsFirst rule _) rfl rfl).mono ?_)
  rintro - s₁ ⟨h₁, hserved₁, htrees₁, hrules₁⟩
  refine (h₁.ensures_insert hP hT hD hpc ht hr (hP.fits_congr _ _ t rule htrees₁ hfits)
    (fun _ _ => rfl) (Or.inl (hrules₁ ▸ hmem))).mono ?_
  rintro - s₂ ⟨h₂, hserved₂, hr₂⟩
  exact ⟨h₂, fun a ha => hserved₂ a (hserved₁ a ha), hr₂⟩

/-- A tree that holds no rule is opened for one that fits. -/
theorem Supplied.ensures_openTree [DecidableEq V] (std : IntervalSort) (hP : P.Lawful)
    (hT : 2 ≤ cfg.T) (hD : 0 < cfg.D) (hpc : cfg.pathCompression = true)
    (h : Supplied P rest (fun _ => none) s) (ht : t < cfg.MAX_TREE_CNT) (hnil : s.rules t = [])
    {rule : RuleSpec cfg.D V} (hr : rule ∈ P.rules)
    (hfits : P.fits (s.reordered t (GreedyDimensionOrderResolver.resolve std cfg.keyBytes [rule]
      (s.infos.get t).tree.dimensionOrder).1) t rule) :
    Ensures (fun _ _ => True) (openTree std cfg rule t (s.infos.get t)) s fun _ s' =>
      Supplied P rest (PartitionSortClassifer.entering t (some rule)) s' ∧
        (∀ a, Served P s a → Served P s' a) ∧ Served P s' rule := by
  refine .bind ((h.ensures_push (g := fun _ => none)
    hP ((ensures_updateInfo_sameTrees rfl).mono fun _ _ h' => h'.1)
      (ensures_updateInfo (l := []) (List.append_nil _).symm rfl) (by simp)
        fun _ _ hr => Or.inl hr).mono ?_)
  rintro - s₁ ⟨h₁, hserved₁, htrees₁, hp₁⟩
  refine .ite (fun _ => ?_) fun hne => absurd (congrArg List.length hnil) hne
  have hp := h₁.isPermutation ht
  rw [htrees₁.tree] at hp
  set order := (GreedyDimensionOrderResolver.resolve std cfg.keyBytes [rule]
    (s.infos.get t).tree.dimensionOrder).1 with horder
  have hk : (s₁.infos.get t).tree.dimensionOrder.KeepsFirst 0 order := by
    rw [htrees₁.tree]
    exact ⟨(GreedyDimensionOrderResolver.resolve_isPermutation std _ _ hp).trans hp.symm,
      fun i hi => absurd hi (Nat.not_lt_zero i)⟩
  refine .bind ((h₁.ensures_reorder hP ht (fun a ha => ?_) hk rfl rfl).mono ?_)
  · have hmem := (h₁.mem_contents ht ha).1
    rw [hp₁.rules_self, hnil] at hmem
    cases hmem
  rintro - s₂ ⟨h₂, hserved₂, htrees₂, -⟩
  refine (h₂.ensures_insert hP hT hD hpc ht hr
    (hP.fits_congr _ _ t rule ((htrees₁.reordered t order).trans htrees₂) hfits)
      (fun t' hne => entering_ne hne _) (Or.inr (entering_self t _).symm)).mono ?_
  rintro - s₃ ⟨h₃, hserved₃, hrule⟩
  exact ⟨h₃, fun a ha => hserved₃ a (hserved₂ a (hserved₁ a ha)), hrule⟩

end Supplied

end PartitionSortClassifer

end Pcv
