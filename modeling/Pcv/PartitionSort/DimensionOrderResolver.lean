import Pcv.PartitionSort.RuleValue
import Pcv.PartitionSort.WeightedIntervalSchedulingSolver

/-!
# The resolver of the field order

The fields some rule uses come first, those with the greater score before the
others and equal scores in their previous order; then come the unused fields in
their previous order.
-/

namespace Pcv

namespace GreedyDimensionOrderResolver

variable {D : ℕ} {V : Type}

/-- `dim_mask`: the fields that some rule does not leave a wildcard. -/
def dimMask (bytes : ℕ) (rules : List (RuleSpec D V)) (d : Fin D) : Bool :=
  rules.any fun r => !(r.first.get d).isWildcard bytes

/-- `get_dimension_sel_score`. -/
def getDimensionSelScore (std : IntervalSort) (rules : List (RuleSpec D V)) (d : Fin D) : ℕ :=
  WeightedIntervalSchedulingSolver.findMaxWeightIntervalSequence std
    (rules.map fun r => r.first.get d)

/-- The comparator of the sort by scores. -/
def before (originalOrder : DimensionOrder D) (a b : Fin D × ℕ) : Bool :=
  if a.2 ≠ b.2 then decide (a.2 > b.2)
  else decide (originalOrder.toList.idxOf a.1 < originalOrder.toList.idxOf b.1)

/-- The fields in the order `resolve` puts them in, and the number of used ones. -/
def resolveList (std : IntervalSort) (bytes : ℕ) (rules : List (RuleSpec D V))
    (originalOrder : DimensionOrder D) : List (Fin D) × ℕ :=
  let pendingDims := (List.finRange D).filter (dimMask bytes rules)
  let scores := pendingDims.map fun d => (d, getDimensionSelScore std rules d)
  let scores := scores.insertionSort fun a b => !before originalOrder b a
  let unused := originalOrder.toList.filter fun d => !dimMask bytes rules d
  (scores.map Prod.fst ++ unused, scores.length)

/-- `resolve`. -/
def resolve (std : IntervalSort) (bytes : ℕ) (rules : List (RuleSpec D V))
    (originalOrder : DimensionOrder D) : DimensionOrder D × ℕ :=
  let res := resolveList std bytes rules originalOrder
  (Vector.ofFn fun i => res.1.getD i (originalOrder.get i), res.2)

end GreedyDimensionOrderResolver

end Pcv
