import Pcv.Ovs.StructFlow
import Pcv.PartitionSort.PartitionSortClassifier

/-!
# The classifier behind the interface of Open vSwitch

Open vSwitch holds a `struct classifier`, a C structure with a pointer to the state of the port,
`classifier_priv`.  That state is a PartitionSort classifier, whose rules carry the pointer they
were inserted with, and the map `to_pcv_rule` from these pointers to the rules.

What belongs to Open vSwitch is a parameter: how its compressed form of a match is expanded.
The pointers between the objects are cast, and a cast to an object of another type is undefined
behaviour, as is reading through an iterator at the end of its container.
-/

namespace Pcv

namespace Ovs

/-- `const struct cls_rule*`; the null pointer is `none`. -/
abbrev ClsRulePtr := Option ℕ

/-- `RuleValue` of the port. -/
structure OvsRuleValue where
  ruleId : ClsRulePtr
  priority : ℕ
deriving DecidableEq

instance : RuleValue OvsRuleValue where
  invalid := ⟨none, 0⟩
  isValid v := v.ruleId.isSome
  priority v := v.priority
  invalid_not_valid := rfl

/-- `struct match`. -/
structure Match where
  flow : StructFlow.Bytes
  wc : StructFlow.Bytes

/-- `struct cls_rule`. -/
structure ClsRule (Minimatch : Type) where
  priority : ℤ
  minimatch : Minimatch

/-- What the port is compiled with. -/
structure Setup where
  std : IntervalSort
  cfg : ClassifierCfg
  structFlowPacketSpec : Vector StructFlow.InPacketPosition cfg.D
  Minimatch : Type
  minimatchExpand : Minimatch → Match

/-- The template parameters of `BTree` and `Classifier` in `classifier-private.h`. -/
def classifierCfg : ClassifierCfg where
  keyBytes := 2
  D := 329
  T := 8
  pathCompression := true
  MAX_TREE_CNT := 100
  TREE_FIXATION_THRESHOLD := 10

/-- What can go wrong in a call of the interface. -/
inductive OvsFault
  /-- An exception of the classifier. -/
  | thrown (fault : PartitionSortClassifer.ClassifierFault)
  | assertion
  /-- An object is read as one of another type, or an iterator is read at the end. -/
  | undefined
deriving DecidableEq

/-- An iterator of a `std::unordered_map`: the entries from its position on. -/
abbrev Iterator (α β : Type) := List (α × β)

/-- `find`, with the iterator it returns. -/
def iteratorAt {α β : Type} [DecidableEq α] (m : UnorderedMap α β) (a : α) : Iterator α β :=
  m.dropWhile fun e => decide (e.1 ≠ a)

section Port

variable (S : Setup)

/-- The rules of the port. -/
abbrev Setup.Rule := RuleSpec S.cfg.D OvsRuleValue

/-- `classifier_priv`. -/
structure ClassifierPriv where
  cls : PartitionSortClassifer S.cfg.D OvsRuleValue
  toPcvRule : UnorderedMap ClsRulePtr S.Rule

/-- `struct classifier`. -/
structure Classifier where
  priv : ClassifierPriv S
  publish : Bool

/-- The objects that a pointer leads to before it is cast. -/
inductive Pointee
  | classifier (cls : Classifier S)
  | classifierPriv (priv : ClassifierPriv S)

variable {S}

/-- The object that is read through `((Classifier*) p)`.  A `classifier_priv` begins with one, a
`struct classifier` has none in it. -/
def Pointee.castClassifier :
    Pointee S → Except OvsFault (PartitionSortClassifer S.cfg.D OvsRuleValue)
  | .classifier _ => .error .undefined
  | .classifierPriv priv => .ok priv.cls

/-- A computation over the classifier of Open vSwitch. -/
abbrev M (S : Setup) := EStateM OvsFault (Classifier S)

/-- `classifier_init`. -/
def classifierInit (pool : NodeAllocator OvsRuleValue) : Classifier S where
  priv := ⟨.make S.cfg.D pool, []⟩
  publish := true

/-- The rule that `classifier_replace` makes. -/
def pcvRule (rule : ℕ) (r : ClsRule S.Minimatch) : S.Rule :=
  let m := S.minimatchExpand r.minimatch
  { first := ⟨(StructFlow.flowToArray S.structFlowPacketSpec.toList m.flow m.wc).toArray,
      by simp [StructFlow.flowToArray]⟩
    second := ⟨some rule, (r.priority % 2 ^ 32).toNat⟩ }

/-- Run a computation over `p->cls`. -/
def onCls {α : Type} (x : PartitionSortClassifer.M S.cfg.D OvsRuleValue α) : M S α := fun s =>
  match x s.priv.cls with
  | .ok a cls => .ok a { s with priv := { s.priv with cls := cls } }
  | .error e cls => .error (.thrown e) { s with priv := { s.priv with cls := cls } }

/-- `classifier_replace`. -/
def classifierReplace (fuel rule : ℕ) (r : ClsRule S.Minimatch) (nConjs : ℕ) :
    M S ClsRulePtr := do
  let tmp := pcvRule rule r
  if nConjs ≠ 0 then throw .assertion
  onCls (PartitionSortClassifer.insertRule S.std S.cfg fuel tmp)
  modify fun s => { s with priv := { s.priv with
    toPcvRule := UnorderedMap.assign s.priv.toPcvRule (some rule) tmp } }
  return none

/-- `classifier_remove`. -/
def classifierRemove (fuel : ℕ) (clsRule : ClsRulePtr) : M S Bool := do
  let p := (← get).priv
  let f := iteratorAt p.toPcvRule clsRule
  if f ≠ iteratorAt p.toPcvRule clsRule then
    match f with
    | [] => throw .undefined
    | (_, rule) :: _ =>
        onCls (PartitionSortClassifer.removeRule S.std S.cfg fuel rule)
        return true
  return false

/-- `classifier_lookup`. -/
def classifierLookup (s : Classifier S) (flow : StructFlow.Bytes) (wc : Option Match) :
    Except OvsFault ClsRulePtr :=
  if wc.isSome then .error .assertion
  else
    match s.priv.cls.search S.cfg (S.structFlowPacketSpec.map (StructFlow.getVal flow)) with
    | .ok res => .ok res.ruleId
    | .error e => .error (.thrown (.node e))

/-- `classifier_is_empty`. -/
def classifierIsEmpty (s : Classifier S) : Bool := s.priv.cls.ruleToTree.isEmpty

/-- `classifier_count`, which casts the pointer to the `struct classifier` itself. -/
def classifierCount (s : Classifier S) : Except OvsFault ℕ := do
  let cls ← (Pointee.classifier s).castClassifier
  return cls.ruleToTree.length

/-! ## The cursor -/

variable (S) in
/-- `struct cls_cursor`; `pos` leads to an iterator on the heap, or is the null pointer. -/
structure ClsCursor where
  target : ClsRulePtr
  pos : Option (Iterator ClsRulePtr S.Rule)
  rule : ClsRulePtr

/-- `cls_cursor_start`. -/
def clsCursorStart (s : Classifier S) (target : ClsRulePtr) : Except OvsFault (ClsCursor S) :=
  match s.priv.toPcvRule with
  | [] => .error .undefined
  | e :: it => .ok ⟨target, some (e :: it), e.1⟩

/-- `cls_cursor_advance`. -/
def clsCursorAdvance (cur : ClsCursor S) : Except OvsFault (ClsCursor S) :=
  match cur.pos with
  | none => .ok { cur with rule := none }
  | some it =>
      if cur.rule = none ∨ cur.rule = cur.target ∨ it = [] then
        .ok { cur with rule := none, pos := none }
      else
        match it.tail with
        | [] => .error .undefined
        | e :: it => .ok { cur with pos := some (e :: it), rule := e.1 }

end Port

end Ovs

end Pcv
