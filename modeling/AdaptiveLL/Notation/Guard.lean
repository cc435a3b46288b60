import AdaptiveLL.Guard
import AdaptiveLL.Json.Value

/-!
# Notation of guards and hosts

A guard is written as an object whose only member names its kind: `pred`, `prec`, `And`, `Or`. The
small-letter `and` and `or` stand for the normalized conjunction and disjunction of their operands.
No guard is `null`.
-/

namespace AdaptiveLL

open Json

namespace Guard

/-- Joins guards from left to right. -/
def joined (f : Guard → Guard → Guard) : List Guard → Guard
  | [] => always
  | g :: rest => rest.foldl f g

/-- A guard from its notation, nested at most `depth` levels deep. -/
def ofJsonWithin : Nat → Value → Guard
  | 0, _ => always
  | depth + 1, v =>
    let operands (vs : List Value) := vs.map (ofJsonWithin depth)
    match v with
    | .record [("pred", .list (rule :: pred :: more))] =>
      predicate rule.toNat pred.toNat ((more.head?.map Value.toBool).getD false)
    | .record [("prec", level)] => precedence level.toInt
    | .record [("and", vs)] => joined Guard.and (operands vs.items)
    | .record [("or", vs)] => joined Guard.or (operands vs.items)
    | .record [("And", vs)] => all (operands vs.items)
    | .record [("Or", vs)] => any (operands vs.items)
    | _ => always

/-- **A guard from its notation.** -/
def ofJson (v : Value) : Guard := ofJsonWithin (v.height + 1) v

mutual

/-- The notation of a guard. -/
def toJson : Guard → Value
  | always => .null
  | predicate rule pred contextual =>
    .record [("pred", .list [.nat rule, .nat pred, .bool contextual])]
  | precedence level => .record [("prec", .int level)]
  | all operands => .record [("And", .list (toJsonAll operands))]
  | any operands => .record [("Or", .list (toJsonAll operands))]

/-- The notations of the operands. -/
def toJsonAll : List Guard → List Value
  | [] => []
  | g :: rest => toJson g :: toJsonAll rest

end

end Guard

/-! ## Hosts -/

/-- The notation of a callback. -/
def Callback.toJson : Callback → Value
  | predicate rule pred position =>
    .list [.text "sempred", .nat rule, .nat pred, .nat position]
  | precedence level => .list [.text "precpred", .int level]
  | action rule number position =>
    .list [.text "action", .nat rule, .nat number, .nat position]

namespace Host

/-- The script of a host from its notation: `at` answers predicates by rule, number and position,
`preds` by rule and number, `default` those that are left, and `min_prec` is the least level of
precedence that passes. -/
def Script.ofJson (v : Value) : Script where
  placed := (v.listAt "at").map fun e =>
    match e.items with
    | [rule, pred, position, answer] =>
      ((rule.toNat, pred.toNat, position.toNat), answer.toBool)
    | _ => ((0, 0, 0), false)
  plain := (v.listAt "preds").map fun e =>
    match e.items with
    | [rule, pred, answer] => ((rule.toNat, pred.toNat), answer.toBool)
    | _ => ((0, 0), false)
  otherwise := v.boolAt "default" true
  leastLevel := v.intAt "min_prec"

/-- A host from the notation of its script. -/
def ofJson (v : Value) : Host := ofScript (Script.ofJson v)

end Host

end AdaptiveLL
