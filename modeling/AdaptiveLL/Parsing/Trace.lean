import AdaptiveLL.Network.Basic
import AdaptiveLL.Json.Value

/-!
# Parse traces

What a parse did, event by event. The events are those of a walk around the parse tree, with the
alternatives that were chosen.
-/

namespace AdaptiveLL

/-- One event of a parse, with the position of the input. -/
inductive ParseEvent where
  | enter (rule index : Nat)
  | exit (rule index : Nat)
  | choose (decision alt index : Nat)
  | consume (type : Symbol) (index : Nat)
deriving DecidableEq, Inhabited

/-- The event as an object. -/
def ParseEvent.toJson : ParseEvent → Json.Value
  | enter rule index =>
    .record [("event", .text "enter_rule"), ("rule", .nat rule), ("index", .nat index)]
  | exit rule index =>
    .record [("event", .text "exit_rule"), ("rule", .nat rule), ("index", .nat index)]
  | choose decision alt index =>
    .record [("event", .text "decision"), ("decision", .nat decision), ("alt", .nat alt),
      ("index", .nat index)]
  | consume type index =>
    .record [("event", .text "match"), ("token_type", .int type), ("index", .nat index)]

/-- The events of a parse, up to a ceiling. Events past it are only counted. -/
structure ParseTrace where
  events : Array ParseEvent := #[]
  dropped : Nat := 0
  maxEvents : Nat
deriving DecidableEq, Inhabited

namespace ParseTrace

/-- Adds an event. -/
def push (t : ParseTrace) (e : ParseEvent) : ParseTrace :=
  if t.events.size < t.maxEvents then { t with events := t.events.push e }
  else { t with dropped := t.dropped + 1 }

/-- The alternatives chosen, in order, each with its decision. -/
def decisions (t : ParseTrace) : List (Nat × Nat) :=
  t.events.toList.filterMap fun e =>
    match e with
    | .choose decision alt _ => some (decision, alt)
    | _ => none

/-- An event in the text of the parse tree. `first` says whether nothing stands before it. -/
def showEvent (net : Network) (first : Bool) : ParseEvent → String
  | .enter rule _ => (if first then "" else " ") ++ "(" ++ net.ruleName rule
  | .exit .. => ")"
  | .consume type _ => " " ++ net.symbolName type
  | .choose .. => ""

/-- **The parse tree,** in parentheses: the name of each rule followed by what it consists of. -/
def render (net : Network) (t : ParseTrace) : String :=
  t.events.foldl (fun out e => out ++ showEvent net out.isEmpty e) ""

/-- The trace as an object. -/
def toJson (t : ParseTrace) : Json.Value :=
  .record [("events", .listOf ParseEvent.toJson t.events.toList), ("dropped", .nat t.dropped)]

end ParseTrace

end AdaptiveLL
