import AdaptiveLL.Journal.Code

/-!
# Network errors

Why a grammar cannot be compiled or a network cannot be used.
-/

namespace AdaptiveLL

/-- An error in a grammar or a network. -/
inductive NetworkError where
  | missingState (state target : Nat)
  | undefinedRule (name : String)
  | invalidRule (rule count : Nat)
  | invalidDecision (decision state : Nat)
  | malformedState (state : Nat) (reason : String)
  | invalidCommand (index count : Nat)
  | unsupported (construct grammar : String)
  | duplicateRule (name : String)
  /-- The text is not the document of a network. -/
  | unreadable
deriving DecidableEq, Inhabited

namespace NetworkError

/-- The message of the error. -/
def message : NetworkError → String
  | missingState state target => s!"State {state} has a transition to missing state {target}"
  | undefinedRule name => s!"Reference to undefined rule '{name}'"
  | invalidRule rule count => s!"Rule index {rule} out of range ({count} rules)"
  | invalidDecision decision state => s!"Decision {decision} is not consistent with state {state}"
  | malformedState state reason => s!"Malformed state {state}: {reason}"
  | invalidCommand index count => s!"Lexer action index {index} out of range ({count} actions)"
  | unsupported construct grammar => s!"{construct} is not supported in {grammar} grammars"
  | duplicateRule name => s!"Duplicate rule name '{name}'"
  | unreadable => "Automaton serialization failed"

/-- The code of the error. -/
def code : NetworkError → Code
  | missingState .. => .missingState
  | undefinedRule _ | invalidRule .. | duplicateRule _ => .invalidRule
  | invalidDecision .. => .invalidDecision
  | malformedState .. => .malformedState
  | invalidCommand .. => .invalidLexerAction
  | unsupported .. => .unsupportedConstruct
  | unreadable => .unreadableNetwork

/-- Whether the caller can go on after the error. -/
def isRecoverable (e : NetworkError) : Bool := e.code.isRecoverable

end NetworkError

end AdaptiveLL
