import AdaptiveLL.Cache.Table
import AdaptiveLL.Config.Conflict

/-!
# Answers of a row

What a set of configurations says about its decision: that only one alternative is left, that the
alternatives are in conflict, or nothing yet. Where the configurations are guarded, the answer
depends on the host, and the row keeps each alternative with the disjunction of the guards under
which it was reached.
-/

namespace AdaptiveLL

namespace ConfigSet

/-- The condition under which an alternative was reached: the disjunction of the guards of its
configurations. Without any it is no condition. -/
def guardOf (s : ConfigSet) (alt : Nat) : Guard :=
  match (s.toList.filter (·.alt == alt)).map Config.guard with
  | [] => .always
  | g :: rest => rest.foldl Guard.or g

end ConfigSet

namespace Row

/-- **The answers under guards** for the alternatives in question, of `count` alternatives there
are; `none` if none of them is guarded. -/
def choicesFor (s : ConfigSet) (alts : AltSet) (count : Nat) : Option (List Choice) :=
  let choices := (alts.toList.filter fun a => 0 < a ∧ a ≤ count).map fun a => ⟨s.guardOf a, a⟩
  if choices.any fun c => !c.guard.isAlways then some choices else none

/-- Adds the answers under guards to a row whose question is answered. `count` is the number of
alternatives of the decision. -/
def withChoices (r : Row) (count : Nat) : Row :=
  let alts := r.configs.conflicting.getD (.ofList [r.configs.uniqueAlt])
  match choicesFor r.configs alts count with
  | some choices => { r with choices := some choices, prediction := noAlternative }
  | none => { r with prediction := alts.least }

/-- A row for a set that speaks for one alternative. -/
def settled (s : ConfigSet) (alt : Nat) : Row :=
  { configs := { s with uniqueAlt := alt }, accepting := true, prediction := alt }

/-- A row for a set whose alternatives are in conflict. -/
def conflicting (s : ConfigSet) : Row :=
  let alts := Subsets.alts s.subsets
  { configs := { s with conflicting := some alts }
    accepting := true
    needsContext := true
    prediction := alts.least }

/-- **The row of a set of configurations,** for a decision with `count` alternatives. `ends` says
whether the prediction stops at the set because of a conflict or because every thread has finished
its rule. -/
def classify (s : ConfigSet) (ends : Bool) (count : Nat) : Row :=
  let r :=
    if s.commonAlt ≠ noAlternative then settled s s.commonAlt
    else if ends then conflicting s
    else { configs := s }
  if r.accepting && r.configs.hasGuards then r.withChoices count else r

end Row

end AdaptiveLL
