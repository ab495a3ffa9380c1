import Pcv.PartitionSort.BTreeInsert
import Pcv.PartitionSort.BTreeNodeNavigator
import Pcv.PartitionSort.LayeredTree

/-!
# New layers for the rest of a rule

When the search for the ranges of a rule has come to its end, the insertion
continues with new layers of one key each.  With path compression as many of them
as fit are put into one node.  Either way the new layers store the path of the
remaining ranges, with the value of the rule at its end.
-/

namespace Pcv

open DynamicMempool Navigator
open Store (Agree)

variable {V : Type}

/-! ## The ranges of a rule -/

section Ranges

variable {D : ℕ}

/-- The range of the rule at a level. -/
def rangeAt (order : DimensionOrder D) (rule : RuleSpec D V) (lvl : ℕ) : Range1d :=
  match order[lvl]? with
  | some d => rule.first.get d
  | none => default

/-- The ranges of the rule at `cnt` levels from level `lvl` on. -/
def rangesFrom (order : DimensionOrder D) (rule : RuleSpec D V) : ℕ → ℕ → List Range1d
  | 0, _ => []
  | cnt + 1, lvl => rangeAt order rule lvl :: rangesFrom order rule cnt (lvl + 1)

@[simp] theorem length_rangesFrom (order : DimensionOrder D) (rule : RuleSpec D V) (cnt lvl : ℕ) :
    (rangesFrom order rule cnt lvl).length = cnt := by
  induction cnt generalizing lvl with
  | zero => rfl
  | succ cnt ih => simp [rangesFrom, ih]

theorem rangesFrom_add (order : DimensionOrder D) (rule : RuleSpec D V) (a b lvl : ℕ) :
    rangesFrom order rule (a + b) lvl =
      rangesFrom order rule a lvl ++ rangesFrom order rule b (lvl + a) := by
  induction a generalizing lvl with
  | zero => simp [rangesFrom]
  | succ a ih =>
      rw [Nat.add_right_comm, rangesFrom, ih, rangesFrom, List.cons_append,
        show lvl + 1 + a = lvl + (a + 1) by omega]

theorem getElem?_rangesFrom (order : DimensionOrder D) (rule : RuleSpec D V) {cnt i : ℕ}
    (h : i < cnt) (lvl : ℕ) :
    (rangesFrom order rule cnt lvl)[i]? = some (rangeAt order rule (lvl + i)) := by
  induction cnt generalizing i lvl with
  | zero => omega
  | succ cnt ih =>
      cases i with
      | zero => rfl
      | succ i =>
          rw [rangesFrom, List.getElem?_cons_succ, ih (by omega),
            show lvl + 1 + i = lvl + (i + 1) by omega]

/-- The ranges an insertion has not stored yet. -/
def InsertCookie.ranges (c : InsertCookie D V) : List Range1d :=
  rangesFrom c.dimensionOrder c.rule (c.requiresLevels - c.level) c.level

theorem InsertCookie.ranges_eq_cons {c : InsertCookie D V} (h : c.level < c.requiresLevels) :
    c.ranges = rangeAt c.dimensionOrder c.rule c.level ::
      (c.atLevel (c.level + 1)).ranges := by
  simp only [ranges, atLevel]
  rw [show c.requiresLevels - c.level = (c.requiresLevels - (c.level + 1)) + 1 by omega, rangesFrom]

/-- The ranges of the next levels and the rest. -/
theorem InsertCookie.ranges_eq_append {c : InsertCookie D V} {n : ℕ}
    (h : c.level + n ≤ c.requiresLevels) :
    c.ranges = rangesFrom c.dimensionOrder c.rule n c.level ++ (c.atLevel (c.level + n)).ranges := by
  simp only [ranges, atLevel]
  rw [← rangesFrom_add]
  congr 1
  omega

theorem InsertCookie.ranges_eq_nil {c : InsertCookie D V} :
    c.ranges = [] ↔ c.requiresLevels ≤ c.level := by
  rw [← List.length_eq_zero_iff, ranges, length_rangesFrom]
  omega

theorem ensures_getActualKey {c : InsertCookie D V} {E : Fault → NodeAllocator V → Prop}
    {p : NodeAllocator V} {Q : Range1d → NodeAllocator V → Prop} (h : c.level < D)
    (hQ : Q (rangeAt c.dimensionOrder c.rule c.level) p) : Ensures E c.getActualKey p Q := by
  have hord : c.dimensionOrder[c.level]? = some c.dimensionOrder[c.level] := by simp [h]
  simp only [rangeAt, hord] at hQ
  simp only [InsertCookie.getActualKey, hord]
  exact hQ

theorem ensures_getActualDim {c : InsertCookie D V} {E : Fault → NodeAllocator V → Prop}
    {p : NodeAllocator V} {Q : ℕ → NodeAllocator V → Prop} (h : c.level < D)
    (hQ : Q (c.dimensionOrder[c.level] : Fin D).val p) : Ensures E c.getActualDim p Q := by
  have hord : c.dimensionOrder[c.level]? = some c.dimensionOrder[c.level] := by simp [h]
  simp only [InsertCookie.getActualDim, hord]
  exact hQ

end Ranges

variable [RuleValue V] {cfg : BTreeCfg} {sh : CompressedShape} {E : Fault → NodeAllocator V → Prop}

/-- What an insertion of new nodes yields: the link leads to the trie, and what was
live before is untouched. -/
def NewLink (cfg : BTreeCfg) (sh : CompressedShape) (p : NodeAllocator V) (live : Multiset ℕ)
    (lvl : ℕ) (t : Trie Range1d V) (link : Option ℕ) (p' : NodeAllocator V) : Prop :=
  ∃ fp, Denotes cfg sh p'.mempool lvl (.link link) t fp ∧ Owns p' (fp + live) ∧
    Agree live p.mempool p'.mempool ∧ p'.ITEM_CNT = p.ITEM_CNT

/-- What the shape of compressed nodes has to allow so that an insertion can make them. -/
structure CompressedShape.Allows {D : ℕ} (sh : CompressedShape) (order : DimensionOrder D) :
    Prop where
  dim : ∀ lvl f, order[lvl]? = some f → sh.dim lvl f.val
  least_le : sh.least ≤ 2

/-- The values on the way of a new path: without path compression each key gets the
value of the rule. -/
def fillValue (cfg : BTreeCfg) (v : V) : V :=
  if cfg.pathCompression then RuleValue.invalid else v

/-- The loop of `insertCompressed` fills the slots from `i` on with the ranges of the
next levels. -/
theorem ensures_insertCompressedFrom {root keysToInsert cnt i : ℕ} {c : InsertCookie cfg.D V}
    {p : NodeAllocator V} {Q : InsertCookie cfg.D V → NodeAllocator V → Prop}
    (hlvl : c.level + cnt ≤ cfg.D)
    (hQ : ∀ p', SamePool p p' →
      (∀ j, (p'.mempool.get root).getKey j =
        if i ≤ j ∧ j < i + cnt then
          ⟨rangeAt c.dimensionOrder c.rule (c.level + (j - i)),
            if j = keysToInsert - 1 then c.rule.second else RuleValue.invalid, none⟩
        else (p.mempool.get root).getKey j) →
      (∀ j, i ≤ j → j < i + cnt → ∃ f, c.dimensionOrder[c.level + (j - i)]? = some f ∧
        (p'.mempool.get root).getDim j = f.val) →
      (∀ j, j < i → (p'.mempool.get root).getDim j = (p.mempool.get root).getDim j) →
      (p'.mempool.get root).isLeaf = (p.mempool.get root).isLeaf →
      (p'.mempool.get root).childIndex = (p.mempool.get root).childIndex →
      (p'.mempool.get root).parent = (p.mempool.get root).parent →
      (∀ j, j ≠ root → p'.mempool.get j = p.mempool.get j) →
      Q (c.atLevel (c.level + (cnt - 1))) p') :
    Ensures E (BTreeInsert.insertCompressedFrom root keysToInsert cnt i c) p Q := by
  induction cnt generalizing i c p with
  | zero =>
      refine hQ p (.refl p) (fun j => ?_) (by omega) (fun _ _ => rfl) rfl rfl rfl (fun _ _ => rfl)
      rw [if_neg (by omega)]
  | succ cnt ih =>
      refine Ensures.bind (ensures_getActualKey (by omega) ?_)
      refine Ensures.bind (ensures_getActualDim (by omega) (Ensures.bind (ensures_update ?_)))
      set nd : Node V := ((p.mempool.get root).setKey i
        ⟨rangeAt c.dimensionOrder c.rule c.level,
          if i = keysToInsert - 1 then c.rule.second else RuleValue.invalid, none⟩).setDim i
            (c.dimensionOrder[c.level] : Fin cfg.D).val with hnd
      have hkey : ∀ j, nd.getKey j = if j = i then
          ⟨rangeAt c.dimensionOrder c.rule c.level,
            if i = keysToInsert - 1 then c.rule.second else RuleValue.invalid, none⟩
          else (p.mempool.get root).getKey j := by
        intro j
        rw [hnd, Node.getKey_setDim, Node.getKey_setKey]
      have hdim : ∀ j, nd.getDim j = if j = i then (c.dimensionOrder[c.level] : Fin cfg.D).val
          else (p.mempool.get root).getDim j := by
        intro j
        rw [hnd, Node.getDim_setDim, Node.getDim_setKey]
      by_cases hcnt : cnt = 0
      · subst hcnt
        refine hQ _ (samePool_write _ _) ?_ ?_ ?_ ?_ ?_ ?_ ?_
        · intro j
          simp only [Store.get_set_self, hkey]
          grind
        · intro j hij hj
          obtain rfl : j = i := by omega
          refine ⟨c.dimensionOrder[c.level], by simp, ?_⟩
          simp only [Store.get_set_self, hdim, if_true]
        · intro j hj
          simp only [Store.get_set_self, hdim]
          rw [if_neg (by omega)]
        · simp [hnd, Node.setDim, Node.setKey]
        · simp [hnd, Node.setDim, Node.setKey]
        · simp [hnd, Node.setDim, Node.setKey]
        · intro j hj
          simp only
          rw [Store.get_set_of_ne _ _ hj]
      · have hstep : Ensures E (BTreeInsert.insertCompressedFrom root keysToInsert cnt (i + 1)
            (c.atLevel (c.level + 1))) { p with mempool := p.mempool.set root nd } Q := by
          refine ih (c := c.atLevel (c.level + 1))
            (by simp only [InsertCookie.atLevel]; omega) ?_
          intro p' hp' hk hd hdold hleaf hch hpar hoth
          simp only [Store.get_set_self, InsertCookie.atLevel]
            at hp' hk hd hdold hleaf hch hpar hoth
          have := hQ p' ((samePool_write _ _).trans hp') ?_ ?_ ?_ ?_ ?_ ?_ ?_
          · rw [show c.level + (cnt + 1 - 1) = c.level + 1 + (cnt - 1) by omega] at this
            exact this
          · intro j
            rw [hk j, hkey]
            rcases Nat.lt_trichotomy j i with hj | rfl | hj
            · rw [if_neg (by omega), if_neg (by omega), if_neg (by omega)]
            · simp
            · by_cases hlast : j < i + (cnt + 1)
              · have hin : i + 1 ≤ j ∧ j < i + 1 + cnt := by omega
                have hin' : i ≤ j ∧ j < i + (cnt + 1) := by omega
                rw [if_pos hin, if_pos hin',
                  show c.level + 1 + (j - (i + 1)) = c.level + (j - i) by omega]
              · rw [if_neg (by omega), if_neg (by omega), if_neg (by omega)]
          · intro j hij hj
            rcases Nat.eq_or_lt_of_le hij with rfl | hij
            · refine ⟨c.dimensionOrder[c.level], by simp, ?_⟩
              rw [hdold _ (by omega), hdim, if_pos rfl]
            · obtain ⟨f, hf, hval⟩ := hd j (by omega) (by omega)
              refine ⟨f, ?_, hval⟩
              rw [← hf, show c.level + 1 + (j - (i + 1)) = c.level + (j - i) by omega]
          · intro j hj
            rw [hdold j (by omega), hdim, if_neg (by omega)]
          · rw [hleaf]
            simp [hnd, Node.setDim, Node.setKey]
          · rw [hch]
            simp [hnd, Node.setDim, Node.setKey]
          · rw [hpar]
            simp [hnd, Node.setDim, Node.setKey]
          · intro j hj
            rw [hoth j hj, Store.get_set_of_ne _ _ hj]
        simpa [hcnt] using hstep

omit [RuleValue V] in
/-- A path that begins with keys of one node. -/
theorem path_append (fill v : V) (ks rest : List Range1d) (k : Range1d) :
    Trie.path fill (ks ++ k :: rest) v =
      thread (ks.map fun k => ⟨k, fill, none⟩)
        (.cons k (if rest = [] then v else fill) (Trie.path fill rest v) .nil) := by
  induction ks with
  | nil => rfl
  | cons a ks ih => simp [Trie.path, thread, ih]

omit [RuleValue V] in
/-- A compressed node, by the number of its keys. -/
theorem Denotes.compressed_node {mem : Store (Node V)} {lvl root m : ℕ} {init : List (KeyInfo V)}
    {k : Range1d} {v : V} (link : Option ℕ) {next : Trie Range1d V} {fp : Multiset ℕ}
    (hlvl : lvl + m < cfg.D) (hn : (mem.get root).CompressedNode cfg sh lvl init ⟨k, v, link⟩)
    (hm : init.length = m) (hd : Denotes cfg sh mem (lvl + (m + 1)) (.link link) next fp) :
    Denotes cfg sh mem lvl (.link (some root)) (thread init (.cons k v next .nil)) (root ::ₘ fp) := by
  subst hm
  have := Denotes.compressed hlvl hn hd
  rwa [thread_append] at this

/-- Two or more levels of a rule in a new compressed node. -/
theorem ensures_insertCompressed {c : InsertCookie cfg.D V} {fuel root : ℕ} {p : NodeAllocator V}
    {live : Multiset ℕ} (hT : 2 ≤ cfg.T) (hpc : cfg.pathCompression = true)
    (hsh : sh.Allows c.dimensionOrder) (hlt : c.level + 1 < c.requiresLevels)
    (hD : c.requiresLevels ≤ cfg.D) (ho : Owns p (root ::ₘ live))
    (hroot : p.mempool.get root = Node.make cfg)
    (hrest : ∀ p' live' lvl, c.level < lvl → lvl < c.requiresLevels → Owns p' live' →
      Ensures E (BTreeInsert.insertToRoot cfg fuel none (c.atLevel lvl)) p'
        (NewLink cfg sh p' live' lvl
          (Trie.path (fillValue cfg c.rule.second) (c.atLevel lvl).ranges c.rule.second))) :
    Ensures E (BTreeInsert.insertCompressed cfg (fuel + 1) root c
        (c.additionalLevelRequiredCnt + 1)) p
      (fun _ => NewLink cfg sh p live c.level
        (Trie.path (fillValue cfg c.rule.second) c.ranges c.rule.second) (some root)) := by
  have hfill : fillValue cfg c.rule.second = RuleValue.invalid := by simp [fillValue, hpc]
  have hrl : root ∉ live := (Multiset.nodup_cons.mp ho.nodup).1
  have hkc : c.additionalLevelRequiredCnt + 1 = c.requiresLevels - c.level := by
    simp only [InsertCookie.additionalLevelRequiredCnt]
    omega
  have hmax : 3 ≤ cfg.maxDegree := by
    simp only [BTreeCfg.maxDegree]
    omega
  rw [BTreeInsert.insertCompressed, hkc]
  refine Ensures.bind (ensures_read ?_)
  rw [hroot, show (Node.make cfg : Node V).keyCnt = 0 from rfl]
  -- the node takes `m + 1` levels
  obtain ⟨m, hm⟩ : ∃ m, min cfg.maxDegree (c.requiresLevels - c.level) = m + 1 :=
    ⟨min cfg.maxDegree (c.requiresLevels - c.level) - 1, by omega⟩
  simp only [Nat.zero_add, hm, Nat.sub_zero]
  refine Ensures.bind (ensures_insertCompressedFrom (by omega) ?_)
  intro p₁ hp₁ hkey hdim _ hleaf hch hpar hoth
  simp only [Nat.add_sub_cancel, Nat.zero_le, true_and, Nat.zero_add, Nat.sub_zero, hroot]
    at hkey hdim hleaf hch hpar ⊢
  have hchild : ∀ j, (p₁.mempool.get root).childIndex.get j = none := by
    intro j
    rw [hch]
    rfl
  refine Ensures.bind (ensures_update ?_)
  set init : List (KeyInfo V) :=
    (rangesFrom c.dimensionOrder c.rule m c.level).map fun k => ⟨k, RuleValue.invalid, none⟩
    with hinit
  set rest := (c.atLevel (c.level + (m + 1))).ranges with hrestdef
  have hrestnil : rest = [] ↔ c.requiresLevels ≤ c.level + (m + 1) := InsertCookie.ranges_eq_nil
  have hinitlen : init.length = m := by simp [hinit]
  -- the trie of the node, over any next layer
  have hpath : Trie.path RuleValue.invalid c.ranges c.rule.second =
      thread init (.cons (rangeAt c.dimensionOrder c.rule (c.level + m))
        (if rest = [] then c.rule.second else RuleValue.invalid)
        (Trie.path RuleValue.invalid rest c.rule.second) .nil) := by
    rw [← path_append, InsertCookie.ranges_eq_append (n := m + 1) (by omega), rangesFrom_add]
    simp [rangesFrom, hrestdef]
  have hnode : ∀ (nd : Node V) (link : Option ℕ),
      (∀ j, nd.getKey j = if j = m then
        ⟨rangeAt c.dimensionOrder c.rule (c.level + m),
          if rest = [] then c.rule.second else RuleValue.invalid, link⟩
        else (p₁.mempool.get root).getKey j) →
      (∀ j, nd.getDim j = (p₁.mempool.get root).getDim j) → nd.keyCnt = m + 1 →
      nd.isLeaf = true → (∀ j, nd.childIndex.get j = none) → nd.parent = none →
      nd.isCompressed = true → nd.CompressedNode cfg sh c.level init
        ⟨rangeAt c.dimensionOrder c.rule (c.level + m),
          if rest = [] then c.rule.second else RuleValue.invalid, link⟩ := by
    intro nd link hk hd hcnt hl hnc hp hcompr
    refine ⟨by omega, by omega, by have := hsh.least_le; omega, ?_, ?_, ?_, hcompr, hl, hnc, hp⟩
    · intro i hi
      rw [hinitlen] at hi
      by_cases him : i = m
      · subst him
        rw [hk, if_pos rfl]
        simp [hinitlen]
      · have hlast : ¬ i = c.requiresLevels - c.level - 1 := by omega
        rw [hk, if_neg him, hkey i, if_pos hi, List.getElem?_append_left (by omega), hinit,
          List.getElem?_map, getElem?_rangesFrom _ _ (by omega)]
        simp [hlast]
    · simp [hinit]
    · intro i hi
      rw [hinitlen] at hi
      obtain ⟨f, hf, hval⟩ := hdim i trivial hi
      rw [hd, hval]
      exact hsh.dim _ f hf
  have hkeylast : (p₁.mempool.get root).getKey m =
      ⟨rangeAt c.dimensionOrder c.rule (c.level + m),
        if rest = [] then c.rule.second else RuleValue.invalid, none⟩ := by
    rw [hkey m, if_pos (by omega)]
    congr 1
    by_cases hr : rest = []
    · rw [if_pos hr, if_pos (by rw [hrestnil] at hr; omega)]
    · rw [if_neg hr, if_neg (by rw [hrestnil] at hr; omega)]
  have ho₁ : Owns p₁ (root ::ₘ live) := ho.congr hp₁
  have hagree₁ : Agree live p.mempool p₁.mempool := by
    intro j hj
    exact hoth j fun hjr => hrl (hjr ▸ hj)
  by_cases hmore : c.level + (m + 1) < c.requiresLevels
  · -- the rule goes on in the next layer
    have hreq : (c.atLevel (c.level + m)).requiredMoreLevels = true :=
      decide_eq_true (show c.level + m + 1 < c.requiresLevels by omega)
    have hlink : ((p₁.mempool.get root).setKeyCnt (m + 1)).nextLevel.get m = none := by
      have := congrArg KeyInfo.nextLevel hkeylast
      exact this
    have hrec := hrest
      { p₁ with mempool := p₁.mempool.set root ((p₁.mempool.get root).setKeyCnt (m + 1)) }
      (root ::ₘ live) (c.level + (m + 1)) (by omega) hmore (ho₁.congr (samePool_write _ _))
    rw [if_pos hreq]
    refine Ensures.bind (ensures_read ?_)
    simp only [Store.get_set_self, hlink]
    refine Ensures.bind (hrec.mono ?_)
    rintro nl p₂ ⟨fp, hd, ho₂, hagree₂, hN₂⟩
    have hroot₂ : p₂.mempool.get root = (p₁.mempool.get root).setKeyCnt (m + 1) := by
      rw [hagree₂ root (by simp), Store.get_set_self]
    refine Ensures.bind (ensures_update (ensures_update ?_))
    have hrfp : root ∉ fp := by
      have := ho₂.nodup
      rw [Multiset.add_cons, Multiset.nodup_cons, Multiset.mem_add] at this
      tauto
    refine ⟨root ::ₘ fp, ?_, ?_, ?_, ?_⟩
    · rw [hfill, hpath]
      have hcomp := hnode { ((p₁.mempool.get root).setKeyCnt (m + 1)).setNextLevel m nl with
          isCompressed := decide (m + 1 > 1) } nl ?_ ?_ rfl hleaf hchild hpar
            (by simp; omega)
      · refine Denotes.compressed_node nl (by omega) ?_ hinitlen ?_
        · simpa [hroot₂] using hcomp
        · rw [hfill] at hd
          exact hd.frame (((Agree.refl _ _).set hrfp).set hrfp)
      · intro j
        by_cases hjm : j = m
        · subst hjm
          have : ({ ((p₁.mempool.get root).setKeyCnt (j + 1)).setNextLevel j nl with
              isCompressed := decide (j + 1 > 1) } : Node V).getKey j =
                { (p₁.mempool.get root).getKey j with nextLevel := nl } := by
            have := Node.getKey_setNextLevel ((p₁.mempool.get root).setKeyCnt (j + 1)) j j nl
            rw [if_pos rfl] at this
            exact this
          rw [this, hkeylast, if_pos rfl]
        · have := Node.getKey_setNextLevel ((p₁.mempool.get root).setKeyCnt (m + 1)) m j nl
          rw [if_neg hjm] at this ⊢
          exact this
      · intro j
        rfl
    · have := ho₂.congr (samePool_write p₂ (p₂.mempool.set root
        ((p₂.mempool.get root).setNextLevel m nl)))
      rw [Multiset.cons_add, ← Multiset.add_cons]
      exact this.congr (samePool_write _ _)
    · refine hagree₁.trans fun j hj => ?_
      have hjr : j ≠ root := fun h => hrl (h ▸ hj)
      simp only
      rw [Store.get_set_of_ne _ _ hjr, Store.get_set_of_ne _ _ hjr,
        hagree₂ j (Multiset.mem_cons_of_mem hj), Store.get_set_of_ne _ _ hjr]
    · exact hN₂.trans hp₁.ITEM_CNT
  · -- the node holds the whole rule
    have hreq : (c.atLevel (c.level + m)).requiredMoreLevels = false :=
      decide_eq_false (show ¬ c.level + m + 1 < c.requiresLevels by omega)
    have hrnil : rest = [] := hrestnil.mpr (by omega)
    rw [if_neg (by simp [hreq])]
    refine ensures_update ?_
    refine ⟨root ::ₘ 0, ?_, ?_, ?_, hp₁.ITEM_CNT⟩
    · rw [hfill, hpath]
      have hcomp := hnode { (p₁.mempool.get root).setKeyCnt (m + 1) with
          isCompressed := decide (m + 1 > 1) } none ?_ (fun _ => rfl) rfl hleaf hchild hpar
            (by simp; omega)
      · refine Denotes.compressed_node none (by omega) ?_ hinitlen ?_
        · simpa using hcomp
        · rw [hrnil]
          exact .null
      · intro j
        by_cases hjm : j = m
        · subst hjm
          rw [if_pos rfl]
          exact hkeylast
        · rw [if_neg hjm]
          rfl
    · have := ho₁.congr (samePool_write p₁ ((p₁.mempool.set root
        ((p₁.mempool.get root).setKeyCnt (m + 1)))))
      rw [Multiset.cons_add, Multiset.zero_add]
      exact this.congr (samePool_write _ _)
    · refine hagree₁.trans fun j hj => ?_
      have hjr : j ≠ root := fun h => hrl (h ▸ hj)
      simp only
      rw [Store.get_set_of_ne _ _ hjr, Store.get_set_of_ne _ _ hjr]

/-- The insertion into a layer that does not exist yet makes a new path. -/
theorem ensures_insertToRoot_none {c : InsertCookie cfg.D V} {fuel : ℕ} {p : NodeAllocator V}
    {live : Multiset ℕ} (hE : ∀ p, E .badAlloc p) (hT : 2 ≤ cfg.T)
    (hsh : sh.Allows c.dimensionOrder) (hlt : c.level < c.requiresLevels)
    (hD : c.requiresLevels ≤ cfg.D) (ho : Owns p live)
    (hfuel : 3 * (c.requiresLevels - c.level) ≤ fuel) :
    Ensures E (BTreeInsert.insertToRoot cfg fuel none c) p
      (NewLink cfg sh p live c.level
        (Trie.path (fillValue cfg c.rule.second) c.ranges c.rule.second)) := by
  induction hn : c.requiresLevels - c.level using Nat.strong_induction_on
    generalizing c fuel p live with
  | _ n ih =>
    have hrec : ∀ (p' : NodeAllocator V) (live' : Multiset ℕ) (lvl fuel' : ℕ), c.level < lvl →
        lvl < c.requiresLevels → Owns p' live' → fuel ≤ fuel' + 3 →
        Ensures E (BTreeInsert.insertToRoot cfg fuel' none (c.atLevel lvl)) p'
          (NewLink cfg sh p' live' lvl
            (Trie.path (fillValue cfg c.rule.second) (c.atLevel lvl).ranges c.rule.second)) := by
      intro p' live' lvl fuel' hl hr ho' hf
      exact ih (c.requiresLevels - lvl) (by omega) (c := c.atLevel lvl) hsh hr hD ho'
        (by simp only [InsertCookie.atLevel]; omega) rfl
    obtain ⟨fuel, rfl⟩ : ∃ f, fuel = f + 3 := ⟨fuel - 3, by omega⟩
    rw [BTreeInsert.insertToRoot]
    refine Ensures.bind ?_
    rw [BTreeInsert.insertInToNewNode]
    refine Ensures.bind (ensures_getActualKey (by omega) ?_)
    refine Ensures.bind (ensures_get ho (hE p) fun root p₁ hroot ho₁ hN₁ hm₁ => ?_)
    have hget₁ : p₁.mempool.get root = Node.make cfg := by simp [hm₁]
    have hagree₁ : Agree live p.mempool p₁.mempool := by
      rw [hm₁]
      exact (Agree.refl _ _).set hroot
    refine Ensures.ite (fun hnl => ?_) (fun hnl => ?_)
    · -- several levels in one node
      have hpc : (cfg.pathCompression && c.requiredMoreLevels) = true := by
        by_contra hpc
        rw [if_neg hpc] at hnl
        omega
      rw [if_pos hpc]
      obtain ⟨hpc₁, hmore⟩ := Bool.and_eq_true_iff.mp hpc
      have hlt' : c.level + 1 < c.requiresLevels := of_decide_eq_true hmore
      refine Ensures.bind ((ensures_insertCompressed hT hpc₁ hsh hlt' hD ho₁ hget₁
        fun p' live' lvl hl hr ho' => hrec p' live' lvl fuel hl hr ho' (by omega)).mono ?_)
      rintro _ p₂ ⟨fp, hd, ho₂, hagree, hN⟩
      exact ⟨fp, hd, ho₂, hagree₁.trans hagree, hN.trans hN₁⟩
    · -- a node for this level alone
      have hfillv : c.level + 1 < c.requiresLevels → fillValue cfg c.rule.second = c.rule.second := by
        intro hlt'
        by_cases hpc : cfg.pathCompression = true
        · have hmore : c.requiredMoreLevels = true := decide_eq_true hlt'
          simp only [hpc, hmore, Bool.and_self, if_true,
            InsertCookie.additionalLevelRequiredCnt] at hnl
          omega
        · simp [fillValue, hpc]
      rw [show c.ranges = rangeAt c.dimensionOrder c.rule c.level ::
        (c.atLevel (c.level + 1)).ranges from InsertCookie.ranges_eq_cons hlt, Trie.path]
      refine Ensures.bind (ensures_update ?_)
      rw [hget₁]
      set nd : Node V := ((Node.make cfg).setKey 0
        ⟨rangeAt c.dimensionOrder c.rule c.level, c.rule.second, none⟩).setKeyCnt 1 with hnd
      have hrl : ∀ j ∈ live, j ≠ root := fun j hj h => hroot (h ▸ hj)
      by_cases hmore : c.level + 1 < c.requiresLevels
      · have hreq : c.requiredMoreLevels = true := decide_eq_true hmore
        have hne : (c.atLevel (c.level + 1)).ranges ≠ [] := by
          rw [Ne, InsertCookie.ranges_eq_nil]
          exact Nat.not_le.mpr hmore
        rw [if_pos hreq, if_neg hne, hfillv hmore]
        refine Ensures.bind (ensures_read ?_)
        simp only [Store.get_set_self]
        rw [show nd.nextLevel.get 0 = none by simp [hnd, Node.setKeyCnt, Node.setKey]]
        refine Ensures.bind ((hrec { p₁ with mempool := p₁.mempool.set root nd } (root ::ₘ live)
          (c.level + 1) (fuel + 1) (by omega) hmore (ho₁.congr (samePool_write _ _))
          (by omega)).mono ?_)
        rintro nl p₂ ⟨fp, hd, ho₂, hagree₂, hN₂⟩
        refine Ensures.bind (ensures_update ?_)
        have hroot₂ : p₂.mempool.get root = nd := by
          rw [hagree₂ root (by simp), Store.get_set_self]
        have hrfp : root ∉ fp := by
          have := ho₂.nodup
          rw [Multiset.add_cons, Multiset.nodup_cons, Multiset.mem_add] at this
          tauto
        rw [hfillv hmore] at hd
        refine ⟨root ::ₘ fp, ?_, ?_, ?_, hN₂.trans hN₁⟩
        · have hleaf : ((p₂.mempool.set root ((p₂.mempool.get root).setNextLevel 0 nl)).get
              root).LeafNode none [⟨rangeAt c.dimensionOrder c.rule c.level, c.rule.second, nl⟩] := by
            rw [Store.get_set_self, hroot₂]
            refine leafNode_single _ _ _ ?_ rfl rfl rfl (fun _ => rfl) rfl
            rw [Node.getKey_setNextLevel, if_pos rfl, hnd, Node.getKey_setKeyCnt,
              Node.getKey_setKey_self]
          exact Denotes.single (by omega) hT hleaf
            (hd.frame ((Agree.refl _ _).set hrfp))
        · rw [Multiset.cons_add, ← Multiset.add_cons]
          exact ho₂.congr (samePool_write _ _)
        · refine hagree₁.trans fun j hj => ?_
          simp only
          rw [Store.get_set_of_ne _ _ (hrl j hj), hagree₂ j (Multiset.mem_cons_of_mem hj),
            Store.get_set_of_ne _ _ (hrl j hj)]
      · have hreq : c.requiredMoreLevels = false := decide_eq_false hmore
        have hnil : (c.atLevel (c.level + 1)).ranges = [] :=
          InsertCookie.ranges_eq_nil.mpr (Nat.not_lt.mp hmore)
        rw [if_neg (by simp [hreq]), if_pos hnil, hnil, Trie.path]
        refine ⟨root ::ₘ 0, ?_, ?_, ?_, hN₁⟩
        · have hleaf : ((p₁.mempool.set root nd).get root).LeafNode none
              [⟨rangeAt c.dimensionOrder c.rule c.level, c.rule.second, none⟩] := by
            rw [Store.get_set_self]
            refine leafNode_single _ _ _ ?_ rfl rfl rfl (fun _ => rfl) rfl
            rw [hnd, Node.getKey_setKeyCnt, Node.getKey_setKey_self]
          exact Denotes.single (by omega) hT hleaf .null
        · rw [Multiset.cons_add, Multiset.zero_add]
          exact ho₁.congr (samePool_write _ _)
        · refine hagree₁.trans fun j hj => ?_
          simp only
          rw [Store.get_set_of_ne _ _ (hrl j hj)]

end Pcv
