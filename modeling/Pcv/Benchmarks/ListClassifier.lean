import Pcv.PartitionSort.RuleValue
import Mathlib.Data.List.Induction
import Mathlib.Data.List.Sort
import Mathlib.Data.Multiset.AddSub

/-!
# The list of rules

The tests compare what a classifier finds with what a list of the same rules finds.  The list is
sorted by the priorities of the rules, and a search takes the first rule that matches.

`std::sort` leaves the order of rules with equal priorities open.  As in
`WeightedIntervalSchedulingSolver`, the model takes the sort as a parameter.
-/

namespace Pcv

variable {D : ℕ} {V : Type} [RuleValue V]

/-- `std::sort` with the comparator `a.second.priority > b.second.priority`. -/
structure PrioritySort (D : ℕ) (V : Type) [RuleValue V] where
  sort : List (RuleSpec D V) → List (RuleSpec D V)
  perm : ∀ l, (sort l).Perm l
  sorted : ∀ l, (sort l).Pairwise fun a b => ¬ priority b.second > priority a.second

/-- The insertion sort, one of the sorts that `std::sort` may be. -/
def PrioritySort.insertion (D : ℕ) (V : Type) [RuleValue V] : PrioritySort D V where
  sort := List.insertionSort fun a b => priority b.second ≤ priority a.second
  perm := List.perm_insertionSort _
  sorted l := by
    have : Std.Total fun a b : RuleSpec D V => priority b.second ≤ priority a.second :=
      ⟨fun a b => Nat.le_total _ _⟩
    have : IsTrans (RuleSpec D V) fun a b => priority b.second ≤ priority a.second :=
      ⟨fun _ _ _ h h' => Nat.le_trans h' h⟩
    exact (List.pairwise_insertionSort _ l).imp Nat.not_lt.mpr

structure ListBasedClassifier (D : ℕ) (V : Type) where
  rules : List (RuleSpec D V)
  rulesSorted : Bool

namespace ListBasedClassifier

omit [RuleValue V] in
/-- The constructor. -/
def make (D : ℕ) (V : Type) : ListBasedClassifier D V := ⟨[], true⟩

def insert (r : RuleSpec D V) (c : ListBasedClassifier D V) : ListBasedClassifier D V :=
  ⟨c.rules ++ [r], false⟩

def prepare (std : PrioritySort D V) (c : ListBasedClassifier D V) : ListBasedClassifier D V :=
  ⟨std.sort c.rules, true⟩

/-- `std::remove` and the erasure of what it leaves behind. -/
def remove [DecidableEq V] (r : RuleSpec D V) (c : ListBasedClassifier D V) :
    ListBasedClassifier D V :=
  ⟨c.rules.filter (· ≠ r), c.rulesSorted⟩

/-- The loop over the fields. -/
def isMatch (r : RuleSpec D V) (v : KeyVec D) : Bool :=
  (List.finRange D).all fun d => (r.first.get d).inRange (v.get d)

/-- The loop over the rules. -/
def searchIn (v : KeyVec D) : List (RuleSpec D V) → V
  | [] => RuleValue.invalid
  | r :: rules => if isMatch r v then r.second else searchIn v rules

def search (c : ListBasedClassifier D V) (v : KeyVec D) : Except String V :=
  if !c.rulesSorted then .error "rules not prepared for the lookup"
  else .ok (searchIn v c.rules)

/-- The list after the rules have been inserted one after another. -/
def insertAll (rules : List (RuleSpec D V)) : ListBasedClassifier D V :=
  rules.foldl (fun c r => c.insert r) (make D V)

end ListBasedClassifier

/-! ## What a search should find -/

/-- The answer to a packet: the value of a rule that matches and has the greatest priority of all
that do, and an invalid value if no rule matches. -/
structure AnswersByPriority (rules : Multiset (RuleSpec D V)) (v : KeyVec D) (res : V) : Prop where
  miss : isValid res = false ↔ ∀ r ∈ rules, ¬ r.Matches v
  hit : isValid res = true → ∃ r ∈ rules, r.Matches v ∧ res = r.second ∧
    ∀ s ∈ rules, s.Matches v → priority s.second ≤ priority r.second

namespace AnswersByPriority

variable {rules rules' : Multiset (RuleSpec D V)} {v : KeyVec D} {res res' : V}

/-- The answer is the value of a rule that matches, and no rule that matches has a greater priority. -/
theorem iff : AnswersByPriority rules v res ↔
    (isValid res = true → ∃ r ∈ rules, r.Matches v ∧ res = r.second) ∧
      ∀ s ∈ rules, s.Matches v → isValid res = true ∧ priority s.second ≤ priority res := by
  constructor
  · intro h
    have hvalid : ∀ s ∈ rules, s.Matches v → isValid res = true := by
      intro s hs hm
      by_contra hfalse
      exact h.miss.mp (by simpa using hfalse) s hs hm
    refine ⟨fun hres => ?_, fun s hs hm => ⟨hvalid s hs hm, ?_⟩⟩
    · obtain ⟨r, hr, hm, heq, -⟩ := h.hit hres
      exact ⟨r, hr, hm, heq⟩
    · obtain ⟨r, -, -, rfl, hle⟩ := h.hit (hvalid s hs hm)
      exact hle s hs hm
  · rintro ⟨hhit, hle⟩
    refine ⟨⟨fun hfalse r hr hm => ?_, fun hmiss => ?_⟩, fun hres => ?_⟩
    · rw [(hle r hr hm).1] at hfalse
      cases hfalse
    · by_contra hres
      obtain ⟨r, hr, hm, -⟩ := hhit (by simpa using hres)
      exact hmiss r hr hm
    · obtain ⟨r, hr, hm, rfl⟩ := hhit hres
      exact ⟨r, hr, hm, rfl, fun s hs hms => (hle s hs hms).2⟩

/-- Nothing else is left open than which one of the rules with the greatest priority is found. -/
theorem agree (h : AnswersByPriority rules v res) (h' : AnswersByPriority rules v res') :
    isValid res' = isValid res ∧ (isValid res = true → priority res' = priority res) := by
  obtain ⟨hhit, hle⟩ := iff.mp h
  obtain ⟨hhit', hle'⟩ := iff.mp h'
  refine ⟨Bool.eq_iff_iff.mpr ⟨fun hres' => ?_, fun hres => ?_⟩, fun hres => ?_⟩
  · obtain ⟨r, hr, hm, -⟩ := hhit' hres'
    exact (hle r hr hm).1
  · obtain ⟨r, hr, hm, -⟩ := hhit hres
    exact (hle' r hr hm).1
  · obtain ⟨r, hr, hm, rfl⟩ := hhit hres
    obtain ⟨hres', hle₁⟩ := hle' r hr hm
    obtain ⟨r', hr', hm', rfl⟩ := hhit' hres'
    exact le_antisymm (hle r' hr' hm').2 hle₁

theorem none (v : KeyVec D) : AnswersByPriority 0 v (RuleValue.invalid : V) := by
  rw [iff]
  simp

/-- An answer for some rules is one for others, if these stand for each other. -/
theorem of_served (h : AnswersByPriority rules v res) (hmem : ∀ a ∈ rules, a ∈ rules')
    (hserved : ∀ r ∈ rules', r.Matches v → ∃ a ∈ rules, a.Matches v ∧
      priority r.second ≤ priority a.second) : AnswersByPriority rules' v res := by
  obtain ⟨hhit, hle⟩ := iff.mp h
  refine iff.mpr ⟨fun hres => ?_, fun r hr hm => ?_⟩
  · obtain ⟨a, ha, hm, heq⟩ := hhit hres
    exact ⟨a, hmem a ha, hm, heq⟩
  · obtain ⟨a, ha, hma, hra⟩ := hserved r hr hm
    exact ⟨(hle a ha hma).1, hra.trans (hle a ha hma).2⟩

end AnswersByPriority

/-! ## What the list finds -/

namespace ListBasedClassifier

omit [RuleValue V] in
theorem isMatch_iff {r : RuleSpec D V} {v : KeyVec D} : isMatch r v = true ↔ r.Matches v := by
  simp [isMatch, RuleSpec.Matches]

omit [RuleValue V] in
theorem rules_insertAll (rules : List (RuleSpec D V)) : (insertAll rules).rules = rules := by
  have h : ∀ c : ListBasedClassifier D V,
      (rules.foldl (fun c r => c.insert r) c).rules = c.rules ++ rules := by
    induction rules with
    | nil => exact fun c => (List.append_nil _).symm
    | cons r rules ih =>
      intro c
      rw [List.foldl_cons, ih, insert, List.append_assoc, List.singleton_append]
  exact h _

/-- The first rule that matches has the greatest priority, if the rules are sorted. -/
theorem searchIn_answers {rules : List (RuleSpec D V)} (v : KeyVec D)
    (hvalid : ∀ r ∈ rules, isValid r.second = true)
    (hsorted : rules.Pairwise fun a b => ¬ priority b.second > priority a.second) :
    AnswersByPriority (rules : Multiset (RuleSpec D V)) v (searchIn v rules) := by
  induction rules with
  | nil => exact .none v
  | cons r rules ih =>
    obtain ⟨hle, hsorted⟩ := List.pairwise_cons.mp hsorted
    have ih := ih (fun s hs => hvalid s (List.mem_cons_of_mem _ hs)) hsorted
    rw [searchIn]
    split
    next hm =>
      rw [isMatch_iff] at hm
      refine AnswersByPriority.iff.mpr ⟨fun _ => ⟨r, by simp, hm, rfl⟩, fun s hs _ =>
        ⟨hvalid r List.mem_cons_self, ?_⟩⟩
      rcases List.mem_cons.mp (Multiset.mem_coe.mp hs) with rfl | hs
      · exact le_rfl
      · exact not_lt.mp (hle s hs)
    next hm =>
      rw [isMatch_iff] at hm
      refine ih.of_served (fun a ha => List.mem_cons_of_mem _ ha) fun s hs hms => ?_
      rcases List.mem_cons.mp (Multiset.mem_coe.mp hs) with rfl | hs
      · exact absurd hms hm
      · exact ⟨s, hs, hms, le_rfl⟩

/-- A search in the prepared list answers every packet. -/
theorem search_prepare (std : PrioritySort D V) {rules : List (RuleSpec D V)} (v : KeyVec D)
    (hvalid : ∀ r ∈ rules, isValid r.second = true) :
    ∃ res, ((insertAll rules).prepare std).search v = .ok res ∧
      AnswersByPriority (rules : Multiset (RuleSpec D V)) v res := by
  refine ⟨_, rfl, ?_⟩
  rw [prepare, rules_insertAll]
  have hperm := std.perm rules
  rw [← Multiset.coe_eq_coe.mpr hperm]
  exact searchIn_answers v (fun r hr => hvalid r (hperm.mem_iff.mp hr)) (std.sorted rules)

/-! ## Runs -/

section Runs

variable [DecidableEq V]

/-- A call that changes the list. -/
inductive Change (D : ℕ) (V : Type)
  | insert (r : RuleSpec D V)
  | remove (r : RuleSpec D V)
  | prepare

def Change.run (std : PrioritySort D V) : Change D V → ListBasedClassifier D V →
    ListBasedClassifier D V
  | .insert r, c => c.insert r
  | .remove r, c => c.remove r
  | .prepare, c => c.prepare std

/-- The list after the calls. -/
def after (std : PrioritySort D V) (calls : List (Change D V)) : ListBasedClassifier D V :=
  calls.foldl (fun c call => call.run std c) (make D V)

/-- The rule is inserted by one of the calls, and not removed by a later one. -/
def Live (calls : List (Change D V)) (r : RuleSpec D V) : Prop :=
  ∃ before behind, calls = before ++ .insert r :: behind ∧ .remove r ∉ behind

/-- No insertion comes after the last preparation. -/
def Prepared (calls : List (Change D V)) : Prop :=
  ∀ before r behind, calls = before ++ .insert r :: behind → .prepare ∈ behind

variable {std : PrioritySort D V} {calls : List (Change D V)} {call : Change D V}

omit [RuleValue V] [DecidableEq V] in
theorem live_concat {r : RuleSpec D V} : Live (calls ++ [call]) r ↔
    call = .insert r ∨ Live calls r ∧ call ≠ .remove r := by
  constructor
  · rintro ⟨before, behind, heq, hr⟩
    rcases List.eq_nil_or_concat behind with rfl | ⟨behind, last, rfl⟩
    · obtain ⟨rfl, hlast⟩ := List.append_inj' heq rfl
      exact Or.inl (List.singleton_inj.mp hlast)
    · rw [List.concat_eq_append, ← List.cons_append, ← List.append_assoc] at heq
      obtain ⟨rfl, hlast⟩ := List.append_inj' heq rfl
      rw [List.concat_eq_append, List.mem_append, not_or] at hr
      rw [List.singleton_inj.mp hlast]
      exact Or.inr ⟨⟨before, behind, rfl, hr.1⟩, fun h => hr.2 (by simp [h])⟩
  · rintro (rfl | ⟨⟨before, behind, rfl, hr⟩, hne⟩)
    · exact ⟨calls, [], rfl, List.not_mem_nil⟩
    · refine ⟨before, behind ++ [call], by simp, fun h => ?_⟩
      rcases List.mem_append.mp h with h | h
      · exact hr h
      · exact hne (List.mem_singleton.mp h).symm

omit [RuleValue V] [DecidableEq V] in
theorem prepared_concat : Prepared (calls ++ [call]) ↔
    call = .prepare ∨ Prepared calls ∧ ∀ r, call ≠ .insert r := by
  constructor
  · intro h
    by_cases hprepare : call = .prepare
    · exact Or.inl hprepare
    refine Or.inr ⟨fun before r behind heq => ?_, fun r hr => ?_⟩
    · have := h before r (behind ++ [call]) (by simp [heq])
      rcases List.mem_append.mp this with hmem | hmem
      · exact hmem
      · exact absurd (List.mem_singleton.mp hmem).symm hprepare
    · exact absurd (h calls r [] (by rw [hr])) List.not_mem_nil
  · rintro h before r behind heq
    rcases List.eq_nil_or_concat behind with rfl | ⟨behind, last, rfl⟩
    · obtain ⟨rfl, hlast⟩ := List.append_inj' heq rfl
      have hcall := List.singleton_inj.mp hlast
      rcases h with rfl | ⟨-, hne⟩
      · cases hcall
      · exact absurd hcall (hne r)
    · rw [List.concat_eq_append, ← List.cons_append, ← List.append_assoc] at heq
      obtain ⟨rfl, hlast⟩ := List.append_inj' heq rfl
      rw [List.concat_eq_append, List.mem_append]
      rcases h with rfl | ⟨hprepared, -⟩
      · exact Or.inr (by rw [List.singleton_inj.mp hlast]; exact List.mem_singleton_self _)
      · exact Or.inl (hprepared before r behind rfl)

/-- The list holds the rules that are live, and is sorted when it says so. -/
structure Kept (calls : List (Change D V)) (c : ListBasedClassifier D V) : Prop where
  mem : ∀ r, r ∈ c.rules ↔ Live calls r
  prepared : c.rulesSorted = true ↔ Prepared calls
  sorted : c.rulesSorted = true →
    c.rules.Pairwise fun a b => ¬ priority b.second > priority a.second

omit [DecidableEq V] in
theorem kept_make : Kept [] (make D V) where
  mem r := by simp [make, Live]
  prepared := by simp [make, Prepared]
  sorted := fun _ => .nil

theorem Kept.run {c : ListBasedClassifier D V} (h : Kept calls c) :
    Kept (calls ++ [call]) (call.run std c) where
  mem r := by
    rw [live_concat, ← h.mem]
    cases call with
    | insert a => simp [Change.run, insert, or_comm, eq_comm]
    | remove a =>
      simp only [Change.run, remove, List.mem_filter, decide_eq_true_eq, ne_eq, reduceCtorEq,
        false_or, Change.remove.injEq]
      exact and_congr_right fun _ => not_congr eq_comm
    | prepare => simp [Change.run, prepare, (std.perm c.rules).mem_iff]
  prepared := by
    rw [prepared_concat, ← h.prepared]
    cases call <;> simp [Change.run, insert, remove, prepare]
  sorted := by
    cases call with
    | insert a => simp [Change.run, insert]
    | remove a => exact fun hsorted => (h.sorted hsorted).filter _
    | prepare => exact fun _ => std.sorted c.rules

theorem kept_after (std : PrioritySort D V) (calls : List (Change D V)) :
    Kept calls (after std calls) := by
  induction calls using List.reverseRecOn with
  | nil => exact kept_make
  | append_singleton calls call ih =>
    rw [after, List.foldl_append]
    exact ih.run

/-- After any calls, a search answers for the rules that are live, or says that the list has not
been prepared since the last insertion. -/
theorem search_after (std : PrioritySort D V) (calls : List (Change D V))
    (hvalid : ∀ r, .insert r ∈ calls → isValid r.second = true) (v : KeyVec D) :
    (¬ Prepared calls → (after std calls).search v = .error "rules not prepared for the lookup") ∧
      (Prepared calls → ∃ res, (after std calls).search v = .ok res ∧
        AnswersByPriority (after std calls).rules v res ∧
          ∀ r, r ∈ (after std calls).rules ↔ Live calls r) := by
  have hkept := kept_after std calls
  refine ⟨fun h => ?_, fun h => ?_⟩
  · rw [← hkept.prepared] at h
    rw [search, if_pos (by simpa using h)]
  · have hsorted := hkept.prepared.mpr h
    refine ⟨_, by rw [search, if_neg (by simp [hsorted])], ?_, hkept.mem⟩
    refine searchIn_answers v (fun r hr => ?_) (hkept.sorted hsorted)
    obtain ⟨before, behind, rfl, -⟩ := (hkept.mem r).mp hr
    exact hvalid r (by simp)

private abbrev portRule (port prio id : ℕ) : RuleSpec 1 RuleValueInt :=
  ⟨.replicate 1 ⟨port, port⟩, RuleValueInt.make prio id⟩

private abbrev comeAndGo : List (Change 1 RuleValueInt) :=
  [.insert (portRule 80 1 1), .insert (portRule 80 2 2), .remove (portRule 80 2 2)] ++ [.prepare]

/-- The better one of two rules for a port is removed again. -/
theorem search_after_removed : ∃ res, (after (.insertion 1 RuleValueInt) comeAndGo).search
    (.replicate 1 80) = .ok res ∧ isValid res = true ∧ Live comeAndGo (portRule 80 1 1) := by
  have hvalid : ∀ r, .insert r ∈ comeAndGo → isValid r.second = true := by
    intro r hr
    simp only [List.cons_append, List.nil_append, List.mem_cons, List.not_mem_nil, reduceCtorEq,
      or_false, Change.insert.injEq] at hr
    rcases hr with rfl | rfl <;> rfl
  obtain ⟨res, hres, hanswers, hlive⟩ := (search_after (.insertion 1 RuleValueInt) comeAndGo hvalid
    (.replicate 1 80)).2 (prepared_concat.mpr (Or.inl rfl))
  have hmem : portRule 80 1 1 ∈ (after (.insertion 1 RuleValueInt) comeAndGo).rules := by decide
  exact ⟨res, hres, ((AnswersByPriority.iff.mp hanswers).2 _ hmem (by decide)).1, (hlive _).mp hmem⟩

end Runs

end ListBasedClassifier

end Pcv
