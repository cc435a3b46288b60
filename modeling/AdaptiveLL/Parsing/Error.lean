import AdaptiveLL.Prediction.Error

/-!
# Parse errors

Why a parse stopped.
-/

namespace AdaptiveLL

/-- An error of a parse. -/
inductive ParseError where
  /-- The token at `index` is none of the expected ones. -/
  | mismatched (index : Nat) (found expected : String)
  | failedPredicate (rule predicate : String) (index : Nat)
  | callStackOverflow (depth : Nat)
  | unknownRule (name : String)
  | prediction (e : PredictionError)
deriving DecidableEq, Inhabited

namespace ParseError

/-- The message of the error. -/
def message : ParseError → String
  | mismatched index found expected =>
    s!"mismatched input {found} at token {index}, expecting {expected}"
  | failedPredicate rule predicate index =>
    s!"rule {rule} failed predicate {predicate} at token {index}"
  | callStackOverflow depth => s!"rule invocation depth exceeded {depth}"
  | unknownRule name => s!"unknown start rule '{name}'"
  | prediction e => e.message

/-- The code of the error. -/
def code : ParseError → Code
  | mismatched .. => .mismatchedInput
  | failedPredicate .. => .failedPredicate
  | callStackOverflow _ => .callStackOverflow
  | unknownRule _ => .unknownRule
  | prediction e => e.code

/-- Whether the caller can go on after the error. -/
def isRecoverable (e : ParseError) : Bool := e.code.isRecoverable

/-- Whether the parse failed because a prediction would have looked at more symbols than it may. -/
def isLookahead : ParseError → Bool
  | prediction e => e.isLookahead
  | _ => false

/-- The token at which the error was found, if it is one of the input. -/
def index? : ParseError → Option Nat
  | mismatched index _ _ => some index
  | failedPredicate _ _ index => some index
  | prediction e => e.offending?
  | _ => none

end ParseError

end AdaptiveLL
