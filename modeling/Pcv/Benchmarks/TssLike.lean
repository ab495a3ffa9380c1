import Pcv.Library.LongestMatch
import Pcv.Common.RangePrefix
import Pcv.Ovs.OvsMatch
import Pcv.PartitionSort.ClassifierBooks

/-!
# The classifier in the manner of a tuple space search

The benchmarks compare the trees with a classifier that keeps a hash table for each length of a
prefix.  A rule joins its two ranges to one of 32 bits, the first of them in the high half, and a
search joins the two values of its key the other way round.

The mask of a table that holds anything is the one of its length, with two exceptions: for the length
1, the mask is made from an `int` that overflows, and for the length 0 it is the mask of the length
32.  Without rules of these lengths, a search finds the longest prefix, and of those of the same
length the one that was inserted last (`findsLongest_of_insertAll`).  Priorities are not looked at.
-/

namespace Pcv

/-- The classifier has no parameters: its keys are two numbers of 16 bits. -/
structure TssLike.RuleValue where
  priority : Fin (2 ^ 8)
  ruleId : Fin (2 ^ 24)
deriving DecidableEq

/-- `rule_spec_t`. -/
structure TssLike.RuleSpec where
  filter : Vector Range1d 2
  value : TssLike.RuleValue
deriving DecidableEq

/-- `TSS_like`.  A pointer to a table is its index. -/
structure TssLike where
  tables : Vector (UnorderedMap ℕ TssLike.RuleValue) 33
  usedTables : List (Fin 33 × ℕ)

namespace TssLike

/-- `rule_value_t()`. -/
def RuleValue.zero : RuleValue := ⟨⟨0, by decide⟩, ⟨0, by decide⟩⟩

/-- The empty classifier. -/
def make : TssLike := ⟨Vector.replicate 33 [], []⟩

/-- Two values of 16 bits as one. -/
def join (high low : ℕ) : ℕ := high <<< 16 ||| low

def firstField : Fin 2 := ⟨0, Nat.zero_lt_two⟩

def secondField : Fin 2 := ⟨1, Nat.one_lt_two⟩

/-- The range of a rule, its first filter in the high half. -/
def RuleSpec.range (r : RuleSpec) : Range1d :=
  ⟨join (r.filter.get firstField).low (r.filter.get secondField).low,
    join (r.filter.get firstField).high (r.filter.get secondField).high⟩

/-- The value that is searched for: the second one of the key is the high half. -/
def keyValue (val : KeyVec 2) : ℕ := join (val.get secondField) (val.get firstField)

/-- The mask of the table at the `i`th place from the end.  The subtraction is one of `int`, and
overflows for 31. -/
def tableMask (i : ℕ) : ℕ := if i = 32 then 2 ^ 32 - 1 else bitNot 32 (1 <<< i - 1)

/-- The loop that regenerates the vector of the tables which are not empty. -/
def regenerate (tables : Vector (UnorderedMap ℕ RuleValue) 33) : List (Fin 33 × ℕ) :=
  (List.finRange 33).filterMap fun i : Fin 33 =>
    if (tables.get i.rev).length ≠ 0 then some (i.rev, tableMask i) else none

/-- There is no result if an assertion fails: that the bounds are in order, or that on the length. -/
def insert (s : TssLike) (r : RuleSpec) : Option TssLike :=
  let v := r.range
  let pl := v.prefixLenLe 4
  if h : v.low ≤ v.high ∧ pl < 33 then
    let t := UnorderedMap.assign (s.tables.get ⟨pl, h.2⟩) v.low r.value
    let tables := s.tables.set pl t h.2
    some ⟨tables, if t.length = 1 then regenerate tables else s.usedTables⟩
  else none

/-- The loop over the tables. -/
def searchFrom (tables : Vector (UnorderedMap ℕ RuleValue) 33) (v : ℕ) :
    List (Fin 33 × ℕ) → RuleValue
  | [] => .zero
  | (t, mask) :: used =>
      match UnorderedMap.find (tables.get t) (v &&& mask) with
      | some res => res
      | none => searchFrom tables v used

def search (s : TssLike) (val : KeyVec 2) : RuleValue :=
  searchFrom s.tables (keyValue val) s.usedTables

/-- The rules inserted one after the other. -/
def insertAll : List RuleSpec → TssLike → Option TssLike
  | [], s => some s
  | r :: rules, s => (s.insert r).bind (insertAll rules)

/-! ## What a search should find -/

/-- The key, with its halves exchanged, lies in the range. -/
def RuleSpec.Matches (r : RuleSpec) (val : KeyVec 2) : Prop :=
  r.range.inRange (keyValue val) = true

/-- The ranges say a prefix of 32 bits, which is neither empty nor a single bit. -/
structure RuleSpec.IsNetwork (r : RuleSpec) : Prop where
  cidr : r.range.IsCidr 32
  two_le : 2 ≤ r.range.prefixLenLe 4

/-- The rule has the longest prefix of those that match, and is the last of these. -/
structure FindsLongest (rules : List RuleSpec) (val : KeyVec 2) (res : RuleValue) : Prop where
  miss : (∀ r ∈ rules, ¬ r.Matches val) → res = .zero
  hit : (∃ r ∈ rules, r.Matches val) → ∃ before r after, rules = before ++ r :: after ∧
    r.value = res ∧ r.Matches val ∧
      (∀ r' ∈ before, r'.Matches val → r'.range.prefixLenLe 4 ≤ r.range.prefixLenLe 4) ∧
        ∀ r' ∈ after, r'.Matches val → r'.range.prefixLenLe 4 < r.range.prefixLenLe 4

/-! ## The tables -/

def RuleSpec.entry (r : RuleSpec) : TableEntry ℕ RuleValue :=
  ⟨r.range.prefixLenLe 4, r.range.low, r.value⟩

/-- The part of a value that the table of a length is asked for. -/
def masked (n v : ℕ) : ℕ := v &&& tableMask (32 - n)

variable {tables : Vector (UnorderedMap ℕ RuleValue) 33} {s : TssLike}
  {es : List (TableEntry ℕ RuleValue)} {r : RuleSpec}

/-- The tables that are not empty, from the last one on. -/
def held (tables : Vector (UnorderedMap ℕ RuleValue) 33) : List (Fin 33) :=
  ((List.finRange 33).map Fin.rev).filter fun t => (tables.get t).length ≠ 0

theorem regenerate_eq (tables : Vector (UnorderedMap ℕ RuleValue) 33) :
    regenerate tables = (held tables).map fun t => (t, tableMask t.rev) := by
  rw [regenerate, held]
  induction List.finRange 33 with
  | nil => rfl
  | cons i l ih =>
    rw [List.filterMap_cons, List.map_cons, List.filter_cons]
    by_cases h : (tables.get i.rev).length = 0
    · simpa only [h, ne_eq, not_true_eq_false, if_false, decide_false, Bool.false_eq_true] using ih
    · simp only [h, ne_eq, not_false_eq_true, if_true, decide_true, List.map_cons, Fin.rev_rev, ih]

theorem held_pairwise (tables : Vector (UnorderedMap ℕ RuleValue) 33) :
    ((held tables).map Fin.val).Pairwise (· > ·) := by
  rw [List.pairwise_map, held]
  refine List.Pairwise.filter _ (List.pairwise_map.mpr ?_)
  exact (List.pairwise_lt_finRange 33).imp fun h => Fin.rev_lt_rev.mpr h

theorem mem_held {t : Fin 33} : t ∈ held tables ↔ tables.get t ≠ [] := by
  simp only [held, List.mem_filter, List.mem_map, List.mem_finRange, true_and, ne_eq,
    List.length_eq_zero_iff, decide_eq_true_eq, and_iff_right_iff_imp]
  exact fun _ => ⟨t.rev, Fin.rev_rev t⟩

theorem searchFrom_eq (tables : Vector (UnorderedMap ℕ RuleValue) 33) (v : ℕ)
    (used : List (Fin 33 × ℕ)) : searchFrom tables v used =
      (used.findSome? fun u => UnorderedMap.find (tables.get u.1) (v &&& u.2)).getD .zero := by
  induction used with
  | nil => rfl
  | cons u used ih =>
    rw [searchFrom, List.findSome?_cons]
    cases UnorderedMap.find (tables.get u.1) (v &&& u.2) with
    | none => exact ih
    | some res => rfl

/-- Each table keeps the latest entries of its length, and those that are not empty are searched. -/
structure Tabulates (s : TssLike) (es : List (TableEntry ℕ RuleValue)) : Prop where
  find : ∀ (n : Fin 33) k, UnorderedMap.find (s.tables.get n) k = TableEntry.latest es n k
  used : s.usedTables = regenerate s.tables

theorem tabulates_make : make.Tabulates [] where
  find n k := by simp [make, Vector.get, UnorderedMap.find, TableEntry.latest]
  used := by decide

theorem get_set (tables : Vector (UnorderedMap ℕ RuleValue) 33) (n m : Fin 33)
    (t : UnorderedMap ℕ RuleValue) :
    (tables.set n t).get m = if m = n then t else tables.get m := by
  show (tables.set n t)[m.val] = _
  rw [Vector.getElem_set]
  simp only [Fin.ext_iff, eq_comm]
  rfl

/-- An assignment to a table that was not empty leaves the vector as it was. -/
theorem regenerate_set {n : Fin 33} {t : UnorderedMap ℕ RuleValue} (hold : tables.get n ≠ [])
    (ht : t ≠ []) : regenerate (tables.set n t) = regenerate tables := by
  rw [regenerate_eq, regenerate_eq]
  congr 1
  refine List.filter_congr fun m _ => ?_
  rw [get_set]
  split
  · next hm => simp [hm, hold, ht]
  · rfl

/-- Only the first entry of a table is alone in it. -/
theorem ne_nil_of_length_assign {t : UnorderedMap ℕ RuleValue} {k : ℕ} {v : RuleValue}
    (h : (UnorderedMap.assign t k v).length ≠ 1) : t ≠ [] := by
  rintro rfl
  exact h rfl

/-- An insertion adds the entry of its rule. -/
theorem Tabulates.insert (h : s.Tabulates es) (hle : r.range.low ≤ r.range.high) :
    ∃ s', s.insert r = some s' ∧ s'.Tabulates (es ++ [r.entry]) := by
  have hlen : r.range.prefixLenLe 4 < 33 :=
    Nat.lt_succ_of_le (Range1d.isGreatest_prefixLenLe r.range 4).1.1
  refine ⟨_, dif_pos ⟨hle, hlen⟩, ?_, ?_⟩
  · intro n k
    rw [TableEntry.latest_concat, ← h.find]
    show UnorderedMap.find ((s.tables.set (⟨_, hlen⟩ : Fin 33) _).get n) k = _
    rw [get_set]
    by_cases hn : n = ⟨_, hlen⟩
    · subst hn
      rw [if_pos rfl, UnorderedMap.find_assign]
      simp only [RuleSpec.entry, true_and, eq_comm]
    · rw [if_neg hn, if_neg fun hentry => hn (Fin.ext hentry.1.symm)]
  · simp only
    split
    · rfl
    · next hone =>
      rw [h.used]
      exact (regenerate_set (n := ⟨_, hlen⟩) (ne_nil_of_length_assign hone)
        (List.cons_ne_nil _ _)).symm

theorem Tabulates.insertAll {rules : List RuleSpec} (h : s.Tabulates es)
    (hle : ∀ r ∈ rules, r.range.low ≤ r.range.high) :
    ∃ s', insertAll rules s = some s' ∧ s'.Tabulates (es ++ rules.map RuleSpec.entry) := by
  induction rules generalizing s es with
  | nil => exact ⟨s, rfl, by simpa using h⟩
  | cons r rules ih =>
    obtain ⟨hr, hrules⟩ := List.forall_mem_cons.mp hle
    obtain ⟨s₁, hs₁, h₁⟩ := h.insert hr
    obtain ⟨s₂, hs₂, h₂⟩ := ih h₁ hrules
    refine ⟨s₂, ?_, ?_⟩
    · rw [TssLike.insertAll, hs₁, Option.bind_some, hs₂]
    · rwa [List.map_cons, List.append_cons]

/-- A search finds the longest match among the entries. -/
theorem Tabulates.search_eq (h : s.Tabulates es) (hes : ∀ e ∈ es, e.length < 33) (val : KeyVec 2) :
    ∃ res, TableEntry.LongestMatch masked es (keyValue val) res ∧
      s.search val = res.getD .zero := by
  refine ⟨_, TableEntry.longestMatch_findSome (held_pairwise s.tables) (fun e he => ?_) _, ?_⟩
  · refine List.mem_map.mpr ⟨⟨e.length, hes e he⟩, mem_held.mpr fun hnil => ?_, rfl⟩
    have hnone := h.find ⟨e.length, hes e he⟩ e.key
    rw [hnil] at hnone
    exact TableEntry.latest_eq_none_iff.mp hnone.symm e he rfl rfl
  · rw [search, searchFrom_eq, h.used, regenerate_eq, List.findSome?_map, List.findSome?_map]
    congr 2
    funext t
    show UnorderedMap.find (s.tables.get t) _ = _
    rw [h.find]
    congr 2
    show tableMask t.rev = _
    rw [Fin.val_rev, Nat.add_sub_add_right 32 1]

/-! ## Networks -/

/-- The mask of a table of at least one bit is the one of its length. -/
theorem tableMask_eq {n : ℕ} (hpos : 0 < n) (hn : n ≤ 32) :
    tableMask (32 - n) = 2 ^ 32 - 2 ^ (32 - n) := by
  have := Nat.two_pow_pos (32 - n)
  rw [tableMask, if_neg (by omega), bitNot, Nat.one_shiftLeft]
  omega

theorem RuleSpec.IsNetwork.hits_iff (h : r.IsNetwork) {val : KeyVec 2}
    (hval : keyValue val < 2 ^ 32) :
    r.entry.Hits masked (keyValue val) ↔ r.Matches val := by
  have hlen := (Range1d.isGreatest_prefixLenLe r.range 4).1.1
  have := h.two_le
  rw [RuleSpec.Matches, Range1d.IsCidr.inRange_iff_and (show r.range.IsCidr (8 * 4) from h.cidr) hval,
    Range1d.getMaskLeLen_mask]
  show _ &&& tableMask (32 - r.range.prefixLenLe 4) = _ ↔ _
  rw [tableMask_eq (by omega) hlen]
  rfl

theorem join_lt {high low : ℕ} (hhigh : high < 2 ^ 16) (hlow : low < 2 ^ 16) :
    join high low < 2 ^ 32 := by
  rw [join, Nat.shiftLeft_eq]
  exact Nat.or_lt_two_pow (by omega) (by omega)

theorem RuleSpec.entry_length_lt (r : RuleSpec) : r.entry.length < 33 :=
  Nat.lt_succ_of_le (Range1d.isGreatest_prefixLenLe r.range 4).1.1

/-- The longest match among the entries, as one among the rules. -/
theorem findsLongest_of_longestMatch {rules : List RuleSpec} {val : KeyVec 2}
    {res : Option RuleValue} (hval : keyValue val < 2 ^ 32)
    (hrules : ∀ r ∈ rules, r.IsNetwork)
    (h : TableEntry.LongestMatch masked (rules.map RuleSpec.entry) (keyValue val) res) :
    FindsLongest rules val (res.getD .zero) := by
  have hhits : ∀ r ∈ rules, r.entry.Hits masked (keyValue val) ↔ r.Matches val :=
    fun r hr => (hrules r hr).hits_iff hval
  have hnone : res = none ↔ ∀ r ∈ rules, ¬ r.Matches val := by
    rw [h.miss, List.forall_mem_map]
    exact forall₂_congr fun r hr => not_congr (hhits r hr)
  constructor
  · intro hmiss
    rw [hnone.mpr hmiss]
    rfl
  · rintro ⟨r, hr, hm⟩
    cases res with
    | none => exact absurd hm (hnone.mp rfl r hr)
    | some v =>
      obtain ⟨before, e, after, hes, rfl, hhit, hbefore, hafter⟩ := h.hit v rfl
      obtain ⟨before, rest, rfl, rfl, hrest⟩ := List.map_eq_append_iff.mp hes
      obtain ⟨r, after, rfl, rfl, rfl⟩ := List.map_eq_cons_iff.mp hrest
      refine ⟨before, r, after, rfl, rfl, (hhits r (by simp)).mp hhit, fun r' hr' hm' => ?_,
        fun r' hr' hm' => ?_⟩
      · exact hbefore _ (List.mem_map_of_mem hr') ((hhits r' (by simp [hr'])).mpr hm')
      · exact hafter _ (List.mem_map_of_mem hr') ((hhits r' (by simp [hr'])).mpr hm')

/-- After any rules that are networks have been inserted, a search finds the longest of them that
match, and of these the last one. -/
theorem findsLongest_of_insertAll {rules : List RuleSpec} (hrules : ∀ r ∈ rules, r.IsNetwork) :
    ∃ s, insertAll rules make = some s ∧ ∀ val : KeyVec 2, (∀ d, val.get d < 2 ^ 16) →
      FindsLongest rules val (s.search val) := by
  obtain ⟨s, hs, htables⟩ := tabulates_make.insertAll fun r hr => (hrules r hr).cidr.le
  refine ⟨s, hs, fun val hval => ?_⟩
  obtain ⟨res, hres, hsearch⟩ := htables.search_eq
    (List.forall_mem_map.mpr fun r _ => r.entry_length_lt) val
  rw [hsearch]
  exact findsLongest_of_longestMatch (join_lt (hval _) (hval _)) hrules hres

section Nested

private def ruleOf (address bits : Range1d) (ruleId : Fin (2 ^ 24)) : RuleSpec :=
  ⟨Vector.ofFn fun d => if d.val = 0 then address else bits, ⟨⟨0, by decide⟩, ruleId⟩⟩

/-- The network 10.0.0.0/8 twice, and 10.1.0.0/16 in it. -/
private def nestedRules : List RuleSpec :=
  [ruleOf ⟨0x0a00, 0x0aff⟩ (Range1d.wildcard 2) ⟨1, by decide⟩,
    ruleOf ⟨0x0a01, 0x0a01⟩ (Range1d.wildcard 2) ⟨2, by decide⟩,
    ruleOf ⟨0x0a00, 0x0aff⟩ (Range1d.wildcard 2) ⟨3, by decide⟩]

private theorem isNetwork_nestedRules : ∀ r ∈ nestedRules, r.IsNetwork := by
  refine List.forall_mem_cons.mpr ⟨?_, List.forall_mem_cons.mpr ⟨?_, List.forall_mem_singleton.mpr ?_⟩⟩
  · exact ⟨⟨⟨24, 10, by decide +kernel⟩, by decide +kernel⟩, by decide +kernel⟩
  · exact ⟨⟨⟨16, 0x0a01, by decide +kernel⟩, by decide +kernel⟩, by decide +kernel⟩
  · exact ⟨⟨⟨24, 10, by decide +kernel⟩, by decide +kernel⟩, by decide +kernel⟩

/-- The longer prefix is found where it matches, and elsewhere the one that was inserted last. -/
theorem findsLongest_of_insertAll_nested : ∃ s, insertAll nestedRules make = some s ∧
    (∀ val : KeyVec 2, (∀ d, val.get d < 2 ^ 16) →
      FindsLongest nestedRules val (s.search val)) ∧
      (s.search #v[5, 0x0a01]).ruleId.val = 2 ∧ (s.search #v[5, 0x0a02]).ruleId.val = 3 := by
  obtain ⟨s, hs, hfinds⟩ := findsLongest_of_insertAll isNetwork_nestedRules
  have htest : (insertAll nestedRules make).any (fun s =>
      decide ((s.search #v[5, 0x0a01]).ruleId.val = 2 ∧
        (s.search #v[5, 0x0a02]).ruleId.val = 3)) = true := by decide +kernel
  rw [hs] at htest
  exact ⟨s, hs, hfinds, of_decide_eq_true htest⟩

-- the empty prefix matches every key, but is found for no key other than its lower bound
example : (insertAll [ruleOf (Range1d.wildcard 2) (Range1d.wildcard 2) ⟨1, by decide⟩] make).map
    (fun s => ((s.search #v[0, 0]).ruleId.val, (s.search #v[0, 1]).ruleId.val)) = some (1, 0) := by
  decide +kernel

end Nested

end TssLike

end Pcv
