import Pcv.Ovs.OvsClassifier
import Pcv.PartitionSort.ClassifierRuleMap
import Mathlib.Data.Finset.Card
import Mathlib.Data.Finset.Insert

/-!
# Runs of the Open vSwitch port

The interface is described by a set: `classifier_replace` puts its rule into it, and
`classifier_remove` takes its rule out.  `Agrees` says that the answers of the interface are those
of the set.

They never are.  `classifier_count` reads a classifier where there is none, and a cursor is read
at the end of the map whatever the map holds.  `classifier_remove` compares what it has found with
itself; so it finds no rule and changes nothing.
-/

namespace Pcv

namespace Ovs

/-- A call that changes the set of the rules, or fails to. -/
inductive Event
  | replaced (rule : ℕ)
  /-- An insertion that ends in an exception or a failed assertion. -/
  | failed
  | removed (rule : ClsRulePtr)
deriving DecidableEq

/-- The rules that were inserted and not removed since; the last call comes first. -/
def contents : List Event → Finset ClsRulePtr
  | [] => ∅
  | .replaced rule :: es => insert (some rule) (contents es)
  | .failed :: es => contents es
  | .removed rule :: es => (contents es).erase rule

/-- A call of `classifier_remove`. -/
def Event.IsRemoval : Event → Prop
  | .removed _ => True
  | _ => False

instance (e : Event) : Decidable e.IsRemoval := by
  cases e <;> unfold Event.IsRemoval <;> infer_instance

section Runs

variable (S : Setup)

/-- The calls `es`, the last one first, lead to the state. -/
inductive Reaches : List Event → Classifier S → Prop
  | init (pool : NodeAllocator OvsRuleValue) : Reaches [] (classifierInit pool)
  | replaced {es : List Event} {s s' : Classifier S} {fuel rule nConjs : ℕ}
      {r : ClsRule S.Minimatch} {old : ClsRulePtr} : Reaches es s →
        classifierReplace fuel rule r nConjs s = .ok old s' → Reaches (.replaced rule :: es) s'
  | failed {es : List Event} {s s' : Classifier S} {fuel rule nConjs : ℕ}
      {r : ClsRule S.Minimatch} {e : OvsFault} : Reaches es s →
        classifierReplace fuel rule r nConjs s = .error e s' → e ≠ .thrown .tooDeep →
          Reaches (.failed :: es) s'
  | removed {es : List Event} {s s' : Classifier S} {fuel : ℕ} {rule : ClsRulePtr} {b : Bool} :
      Reaches es s → classifierRemove fuel rule s = .ok b s' → Reaches (.removed rule :: es) s'

variable {S}

/-! ## The interface and the set -/

/-- The calls of `cls_cursor_advance` visit the rules one after the other, and stop. -/
inductive Visits : ClsCursor S → List ClsRulePtr → Prop
  | stop {cur : ClsCursor S} : cur.rule = none → Visits cur []
  | visit {cur cur' : ClsCursor S} {rule : ℕ} {rest : List ClsRulePtr} : cur.rule = some rule →
      clsCursorAdvance cur = .ok cur' → Visits cur' rest → Visits cur (some rule :: rest)

/-- The removal returns, and answers for the set; nothing changes if the rule is not in it. -/
def Removes (s : Classifier S) (R : Finset ClsRulePtr) (rule : ClsRulePtr) : Prop :=
  ∃ n, ∀ fuel, n ≤ fuel → ∃ s', classifierRemove fuel rule s = .ok (decide (rule ∈ R)) s' ∧
    (rule ∉ R → s' = s)

/-- An iteration visits every rule of the set once, and stops. -/
def Iterates (s : Classifier S) (R : Finset ClsRulePtr) : Prop :=
  ∃ cur visited, clsCursorStart s none = .ok cur ∧ Visits cur visited ∧ visited.Nodup ∧
    ∀ rule, rule ∈ visited ↔ rule ∈ R

/-- The interface answers for the set. -/
structure Agrees (s : Classifier S) (R : Finset ClsRulePtr) : Prop where
  removes : ∀ rule, Removes s R rule
  looksUp : ∀ flow rule, classifierLookup s flow none = .ok (some rule) → some rule ∈ R
  isEmpty : classifierIsEmpty s = decide (R = ∅)
  count : classifierCount s = .ok R.card
  iterates : Iterates s R

/-! ## The calls one by one -/

/-- No rule is ever found. -/
theorem classifierRemove_eq (fuel : ℕ) (rule : ClsRulePtr) (s : Classifier S) :
    classifierRemove fuel rule s = .ok false s := by
  show (if iteratorAt s.priv.toPcvRule rule ≠ iteratorAt s.priv.toPcvRule rule then _
    else Pure.pure false : M S Bool) s = _
  rw [if_neg (by simp)]
  rfl

theorem removes_iff {s : Classifier S} {R : Finset ClsRulePtr} {rule : ClsRulePtr} :
    Removes s R rule ↔ rule ∉ R := by
  constructor
  · rintro ⟨n, hn⟩ hmem
    obtain ⟨s', hs', -⟩ := hn n le_rfl
    rw [classifierRemove_eq] at hs'
    simp [hmem] at hs'
  · intro hmem
    refine ⟨0, fun fuel _ => ⟨s, ?_, fun _ => rfl⟩⟩
    rw [classifierRemove_eq]
    simp [hmem]

theorem classifierCount_eq (s : Classifier S) : classifierCount s = .error .undefined := rfl

/-- A cursor that stands at an entry is moved on until it is read behind the last one. -/
theorem not_visits {cur : ClsCursor S} {visited : List ClsRulePtr} (htarget : cur.target = none)
    {e : ClsRulePtr × S.Rule} {it : Iterator ClsRulePtr S.Rule} (hpos : cur.pos = some (e :: it))
    (hrule : cur.rule = e.1) (hkeys : ∀ e' ∈ e :: it, e'.1 ≠ none) : ¬ Visits cur visited := by
  have hsome : e.1 ≠ none := hkeys e List.mem_cons_self
  induction it generalizing cur visited e with
  | nil =>
    intro h
    cases h with
    | stop hstop => exact hsome (hrule ▸ hstop)
    | visit _ hadv _ =>
      simp [clsCursorAdvance, hpos, hrule, htarget, hsome] at hadv
  | cons e' it ih =>
    intro h
    cases h with
    | stop hstop => exact hsome (hrule ▸ hstop)
    | visit _ hadv hrest =>
      simp only [clsCursorAdvance, hpos, hrule, htarget, hsome, reduceCtorEq, or_self, if_false,
        List.tail_cons] at hadv
      obtain rfl := Except.ok.inj hadv
      exact ih rfl rfl rfl (fun e'' he'' => hkeys e'' (List.mem_cons_of_mem _ he''))
        (hkeys e' (by simp)) hrest

/-! ## What a run keeps -/

/-- What is known of the two maps after the calls. -/
structure Kept (es : List Event) (s : Classifier S) : Prop where
  keys : ∀ e ∈ s.priv.toPcvRule, e.1 ≠ none
  maps : (∃ rule, .replaced rule ∈ es) → ∃ rule, s.priv.cls.Maps rule

/-- An insertion adds its rule to both maps; one that fails adds none to `to_pcv_rule`. -/
theorem ensures_classifierReplace (fuel rule nConjs : ℕ) (r : ClsRule S.Minimatch)
    (s : Classifier S) :
    Ensures (fun e s' => e ≠ .thrown .tooDeep → s'.priv.toPcvRule = s.priv.toPcvRule ∧
        s.priv.cls.KeepsMap s'.priv.cls) (classifierReplace fuel rule r nConjs) s
      fun _ s' => s'.priv.toPcvRule =
          UnorderedMap.assign s.priv.toPcvRule (some rule) (pcvRule rule r) ∧
        s'.priv.cls.Maps (pcvRule rule r) ∧ s.priv.cls.KeepsMap s'.priv.cls := by
  unfold classifierReplace
  by_cases hconjs : nConjs = 0
  case neg =>
    rw [if_pos hconjs]
    exact .bind (.throw fun _ => ⟨rfl, fun _ h => h⟩)
  rw [if_neg (not_not.mpr hconjs)]
  cases hrun : PartitionSortClassifer.insertRule S.std S.cfg fuel (pcvRule rule r) s.priv.cls with
  | ok a cls =>
    have hon : onCls (PartitionSortClassifer.insertRule S.std S.cfg fuel (pcvRule rule r)) s =
        .ok a { s with priv := { s.priv with cls := cls } } := by rw [onCls, hrun]
    have hmaps := PartitionSortClassifer.maps_of_insert hrun
    exact .bind_ok hon (.bind (.modify (.pure ⟨rfl, hmaps⟩)))
  | error e cls =>
    have hon : onCls (PartitionSortClassifer.insertRule S.std S.cfg fuel (pcvRule rule r)) s =
        .error (.thrown e) { s with priv := { s.priv with cls := cls } } := by rw [onCls, hrun]
    refine .bind (.of_error hon fun hne => ⟨rfl, ?_⟩)
    exact PartitionSortClassifer.keepsMap_of_insert_error (fun he => hne (by rw [he])) hrun

theorem Reaches.kept {es : List Event} {s : Classifier S} (h : Reaches S es s) : Kept es s := by
  induction h with
  | init pool => exact ⟨nofun, nofun⟩
  | @replaced es s s' fuel rule nConjs r old _ hrun ih =>
    obtain ⟨hmap, hmaps, -⟩ := (ensures_classifierReplace fuel rule nConjs r s).ok hrun
    refine ⟨fun e he => ?_, fun _ => ⟨_, hmaps⟩⟩
    rw [hmap] at he
    rcases List.mem_cons.mp he with rfl | he
    · exact Option.some_ne_none rule
    · exact ih.keys e (List.mem_filter.mp he).1
  | @failed es s s' fuel rule nConjs r e _ hrun hne ih =>
    obtain ⟨hmap, hkeeps⟩ := (ensures_classifierReplace fuel rule nConjs r s).error hrun hne
    refine ⟨fun e he => ih.keys e (hmap ▸ he), ?_⟩
    rintro ⟨rule', hrule'⟩
    obtain ⟨r', hr'⟩ := ih.maps ⟨rule', by simpa using hrule'⟩
    exact ⟨r', hkeeps r' hr'⟩
  | removed _ hrun ih =>
    rw [classifierRemove_eq] at hrun
    cases hrun
    refine ⟨ih.keys, ?_⟩
    rintro ⟨rule', hrule'⟩
    exact ih.maps ⟨rule', by simpa using hrule'⟩

/-- The state is the one without the removals. -/
theorem Reaches.without_removals {es : List Event} {s : Classifier S} (h : Reaches S es s) :
    Reaches S (es.filter fun e => ¬ e.IsRemoval) s := by
  induction h with
  | init pool => exact .init pool
  | replaced _ hrun ih => exact ih.replaced hrun
  | failed _ hrun hne ih => exact ih.failed hrun hne
  | removed _ hrun ih =>
    rw [classifierRemove_eq] at hrun
    cases hrun
    exact ih

theorem contents_nonempty {es : List Event} (h : (contents es).Nonempty) :
    ∃ rule, .replaced rule ∈ es := by
  induction es with
  | nil => exact absurd h Finset.not_nonempty_empty
  | cons e es ih =>
    cases e with
    | replaced rule => exact ⟨rule, List.mem_cons_self⟩
    | failed =>
      obtain ⟨rule, hrule⟩ := ih h
      exact ⟨rule, List.mem_cons_of_mem _ hrule⟩
    | removed rule' =>
      obtain ⟨rule, hrule⟩ := ih (h.mono (Finset.erase_subset _ _))
      exact ⟨rule, List.mem_cons_of_mem _ hrule⟩

theorem not_iterates {es : List Event} {s : Classifier S} (h : Reaches S es s)
    (R : Finset ClsRulePtr) : ¬ Iterates s R := by
  rintro ⟨cur, visited, hstart, hvisits, -⟩
  unfold clsCursorStart at hstart
  cases hmap : s.priv.toPcvRule with
  | nil =>
    rw [hmap] at hstart
    cases hstart
  | cons e it =>
    rw [hmap] at hstart
    obtain rfl := Except.ok.inj hstart
    exact not_visits rfl rfl rfl (fun e' he' => h.kept.keys e' (hmap ▸ he')) hvisits

/-- From the first insertion on, the classifier is never reported to be empty. -/
theorem classifierIsEmpty_eq {es : List Event} {s : Classifier S} (h : Reaches S es s)
    (hrule : ∃ rule, .replaced rule ∈ es) : classifierIsEmpty s = false := by
  obtain ⟨rule, hmaps⟩ := h.kept.maps hrule
  unfold classifierIsEmpty
  cases hmap : s.priv.cls.ruleToTree with
  | nil => simp [PartitionSortClassifer.Maps, hmap, UnorderedMap.find] at hmaps
  | cons => rfl

/-- After no sequence of calls does the interface answer for the set of the rules inserted and not
removed.  A removal answers for the set only if its rule is not in it, and it changes nothing; once
a rule has been inserted, the emptiness is right only if the set is not empty; the size and the
iteration are never right. -/
theorem not_agrees {es : List Event} {s : Classifier S} (h : Reaches S es s) :
    ¬ Agrees s (contents es) ∧
      (∀ rule, Removes s (contents es) rule ↔ rule ∉ contents es) ∧
      Reaches S (es.filter fun e => ¬ e.IsRemoval) s ∧
      ((∃ rule, .replaced rule ∈ es) → (classifierIsEmpty s = decide (contents es = ∅) ↔
        (contents es).Nonempty)) ∧
      classifierCount s ≠ .ok (contents es).card ∧ ¬ Iterates s (contents es) := by
  refine ⟨fun hagrees => not_iterates h _ hagrees.iterates, fun rule => removes_iff,
    h.without_removals, fun hrule => ?_, nofun, not_iterates h _⟩
  rw [classifierIsEmpty_eq h hrule, Finset.nonempty_iff_ne_empty]
  simp

end Runs

/-! ## A rule that stays -/

section OneRule

/-- A match that lists the bytes that the mask sets, with the values they have to have. -/
private abbrev ListedBytes := List (ℕ × Fin 256)

private def expandListed (m : ListedBytes) : Match where
  flow o := (List.lookup o m).getD 0
  wc o := if (List.lookup o m).isSome then 255 else 0

/-- Two fields of two bytes in network order, in a classifier with two trees. -/
private def twoFields : Setup where
  std := .insertion
  cfg := ⟨⟨2, 2, 2, true⟩, 2, 10⟩
  structFlowPacketSpec := #v[⟨0, 2, true⟩, ⟨2, 2, true⟩]
  Minimatch := ListedBytes
  minimatchExpand := expandListed

private def emptyTwoFields : Classifier twoFields :=
  classifierInit (DynamicMempool.make 8 (Node.make twoFields.cfg.toBTreeCfg))

private def port80 : ClsRule twoFields.Minimatch := ⟨4, [(2, 0), (3, 80)]⟩

private theorem exists_replaced : ∃ s, classifierReplace 20 1 port80 0 emptyTwoFields =
    .ok none s := by
  have h : (match classifierReplace 20 1 port80 0 emptyTwoFields with
      | .ok none _ => true
      | _ => false) = true := by decide +kernel
  split at h
  next s hrun => exact ⟨s, hrun⟩
  next => cases h

/-- A rule is inserted and removed. -/
theorem not_agrees_port80 : ∃ s, Reaches twoFields [.removed (some 1), .replaced 1] s ∧
    Reaches twoFields [.replaced 1] s ∧ classifierIsEmpty s = false ∧
      ¬ Agrees s (contents [.removed (some 1), .replaced 1]) := by
  obtain ⟨s, hrun⟩ := exists_replaced
  have hreach : Reaches twoFields [.replaced 1] s := (Reaches.init _).replaced hrun
  have hremoved := hreach.removed (classifierRemove_eq 20 (some 1) s)
  have h := not_agrees hremoved
  exact ⟨s, hremoved, h.2.2.1, classifierIsEmpty_eq hreach ⟨1, by decide⟩, h.1⟩

end OneRule

/-- The classifier of the port, before the first call. -/
private def ovsSetup : Setup where
  std := .insertion
  cfg := classifierCfg
  structFlowPacketSpec := Vector.ofFn fun i => ⟨2 * i.val, 2, true⟩
  Minimatch := Match
  minimatchExpand := id

/-- The number of the rules is not even reported for the new classifier of the port. -/
theorem not_forall_agrees : ¬ ∀ (S : Setup), S.cfg = classifierCfg → ∀ (es : List Event)
    (s : Classifier S), Reaches S es s → Agrees s (contents es) := by
  intro h
  have hagrees := h ovsSetup rfl [] (classifierInit (DynamicMempool.make (2 ^ 20 - 1)
    (Node.make classifierCfg.toBTreeCfg))) (.init _)
  have hcount := hagrees.count
  rw [classifierCount_eq] at hcount
  cases hcount

end Ovs

end Pcv
