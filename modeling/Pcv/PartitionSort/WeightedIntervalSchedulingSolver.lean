import Pcv.Common.Range
import Mathlib.Data.List.Sort

/-!
# The interval scheduling solver

The score of a field is computed by a dynamic programme over the ranges the rules
have in it, sorted by their upper ends.

`std::sort` leaves the order of ranges with equal upper ends open.  The model
takes the sort as a parameter: any function whose result is a permutation of its
argument and sorted by the comparator of the source.
-/

namespace Pcv

/-- `std::sort` with the comparator `s1.high < s2.high`. -/
structure IntervalSort where
  sort : List Range1d → List Range1d
  perm : ∀ l, (sort l).Perm l
  sorted : ∀ l, (sort l).Pairwise fun s1 s2 => ¬ s2.high < s1.high

/-- The insertion sort, one of the sorts that `std::sort` may be. -/
def IntervalSort.insertion : IntervalSort where
  sort := List.insertionSort fun s1 s2 => s1.high ≤ s2.high
  perm := List.perm_insertionSort _
  sorted l := by
    have : Std.Total (fun s1 s2 : Range1d => s1.high ≤ s2.high) := ⟨fun a b => Nat.le_total _ _⟩
    have : IsTrans Range1d (fun s1 s2 => s1.high ≤ s2.high) := ⟨fun _ _ _ => Nat.le_trans⟩
    exact (List.pairwise_insertionSort _ l).imp fun h => Nat.not_lt.mpr h

namespace WeightedIntervalSchedulingSolver

/-- `latestNonConflict`: the last index before `j` whose interval does not
conflict with `cur`. -/
def latestNonConflict (intervals : List Range1d) (cur : Range1d) : ℕ → Option ℕ
  | 0 => none
  | j + 1 =>
      let r := intervals.getD j default
      if r.high ≤ cur.low ∨ r = cur then some j else latestNonConflict intervals cur j

/-- `get_weight`: an interval equal to its predecessor gains more. -/
def getWeight (intervals : List Range1d) : ℕ → ℕ
  | 0 => 1
  | i + 1 => if intervals.getD i default = intervals.getD (i + 1) default then 2 else 1

/-- The loop that fills `table`; `table` holds the entries before index `i`. -/
def fillTable (intervals : List Range1d) : ℕ → ℕ → List ℕ → List ℕ
  | 0, _, table => table
  | cnt + 1, i, table =>
      let inclProf := getWeight intervals i +
        match latestNonConflict intervals (intervals.getD i default) i with
        | some l => table.getD l 0
        | none => 0
      fillTable intervals cnt (i + 1) (table ++ [max inclProf (table.getD (i - 1) 0)])

/-- `findMaxWeightIntervalSequence`. -/
def findMaxWeightIntervalSequence (std : IntervalSort) (intervals : List Range1d) : ℕ :=
  let intervals := std.sort intervals
  let table := fillTable intervals (intervals.length - 1) 1 [getWeight intervals 0]
  table.getD (intervals.length - 1) 0

end WeightedIntervalSchedulingSolver

end Pcv
