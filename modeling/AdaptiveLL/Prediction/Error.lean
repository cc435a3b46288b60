import AdaptiveLL.Config.Set
import AdaptiveLL.Journal.Code

/-!
# Prediction errors

Why no alternative could be predicted.
-/

namespace AdaptiveLL

/-- An error of a prediction. -/
inductive PredictionError where
  /-- No alternative can go on with the token at `offending`; the prediction began at `start`. -/
  | noViableAlternative (decision start offending : Nat) (symbol : String)
      (configs : ConfigSummary)
  | exceeded (e : Exceeded)
  | unknownDecision (decision count : Nat)
deriving DecidableEq, Inhabited

namespace PredictionError

/-- The message of the error. -/
def message : PredictionError → String
  | noViableAlternative decision start offending symbol _ =>
    s!"no viable alternative for decision {decision} at input {offending} ({symbol}), " ++
      s!"prediction started at {start}"
  | exceeded e => e.message
  | unknownDecision decision count =>
    s!"decision {decision} does not exist (automaton has {count})"

/-- The code of the error. -/
def code : PredictionError → Code
  | noViableAlternative .. => .noViableAlternative
  | exceeded _ => .resourceExhausted
  | unknownDecision .. => .unknownDecision

/-- Whether the parse can go on after the error. -/
def isRecoverable (e : PredictionError) : Bool := e.code.isRecoverable

/-- Where the error was found, if it is one of the input. -/
def offending? : PredictionError → Option Nat
  | noViableAlternative _ _ offending _ _ => some offending
  | _ => none

/-- Whether the prediction failed because the graph of stacks was full. -/
def isFullGraph : PredictionError → Bool
  | exceeded e => e.resource == .arenaNodes
  | _ => false

/-- Whether the prediction failed because it would have looked at more symbols than it may. -/
def isLookahead : PredictionError → Bool
  | exceeded e => e.resource == .lookahead
  | _ => false

instance : ToString PredictionError := ⟨message⟩

end PredictionError

end AdaptiveLL
