import Pcv.Common.Range

/-!
# Configurations, rule values and rules

The trees are generic in the type of the value a rule carries.  What they use of
it is collected in the class `RuleValue`: the value a default constructor makes,
which is not valid, and the validity test; the classifier also reads the
priority.  `RuleValueInt` is the instance the tests of the source use.
-/

namespace Pcv

/-- The template parameters of `_BTreeCfg`.  `keyBytes` is `sizeof(Key_t)`. -/
structure BTreeCfg where
  keyBytes : ℕ
  D : ℕ
  T : ℕ
  pathCompression : Bool
deriving DecidableEq, Repr

/-- What the algorithms use of the value type of a rule. -/
class RuleValue (V : Type) where
  /-- The value made by the default constructor. -/
  invalid : V
  isValid : V → Bool
  priority : V → ℕ
  invalid_not_valid : isValid invalid = false

export RuleValue (isValid priority)

attribute [simp] RuleValue.invalid_not_valid

/-- The value of a rule: its priority and its identifier. -/
structure RuleValueInt where
  priority : ℕ
  ruleId : ℕ
deriving DecidableEq, Repr

namespace RuleValueInt

/-- The identifier that marks a value as invalid. -/
def INVALID_RULE : ℕ := 2 ^ 24 - 1

/-- The constructor: the two fields are bit fields of 8 and 24 bits. -/
def make (priority ruleId : ℕ) : RuleValueInt := ⟨priority % 2 ^ 8, ruleId % 2 ^ 24⟩

end RuleValueInt

instance : RuleValue RuleValueInt where
  invalid := RuleValueInt.make 0 RuleValueInt.INVALID_RULE
  isValid v := v.ruleId != RuleValueInt.INVALID_RULE
  priority v := v.priority
  invalid_not_valid := by decide

/-- A rule: one range for each field, and the value stored for it. -/
structure RuleSpec (D : ℕ) (V : Type) where
  first : Vector Range1d D
  second : V
deriving DecidableEq

/-- The order in which the levels of a tree test the fields. -/
abbrev DimensionOrder (D : ℕ) := Vector (Fin D) D

/-- A packet, already reduced to the value of each field. -/
abbrev KeyVec (D : ℕ) := Vector ℕ D

namespace RuleSpec

variable {D : ℕ} {V : Type}

/-- Every range of the rule is a range of the key type. -/
def Valid (bytes : ℕ) (r : RuleSpec D V) : Prop :=
  ∀ d : Fin D, (r.first.get d).Valid bytes

instance (bytes : ℕ) (r : RuleSpec D V) : Decidable (r.Valid bytes) :=
  inferInstanceAs (Decidable (∀ _, _))

/-- The packet lies in the range of every field. -/
def Matches (r : RuleSpec D V) (v : KeyVec D) : Prop :=
  ∀ d : Fin D, (r.first.get d).inRange (v.get d) = true

instance (r : RuleSpec D V) (v : KeyVec D) : Decidable (r.Matches v) :=
  inferInstanceAs (Decidable (∀ _, _))

/-- A rule over two fields. -/
def box (a b : Range1d) (priority ruleId : ℕ) : RuleSpec 2 RuleValueInt :=
  ⟨.ofFn fun d => if d.val = 0 then a else b, RuleValueInt.make priority ruleId⟩

end RuleSpec

end Pcv
