import AdaptiveLL.Journal.Code
import AdaptiveLL.Limits

/-!
# Lexer errors

Why a token could not be recognized or committed.
-/

namespace AdaptiveLL

/-- An error of the lexer. -/
inductive LexError where
  /-- No token rule can go on at `offending`; the token began at `start`, in `line` and
  `column`. -/
  | noViableAlternative (start offending line column : Nat) (text : String)
  | exceeded (e : Exceeded)
  | emptyModeStack
  | modeStackOverflow (depth : Nat)
  | unknownMode (mode : Nat)
deriving DecidableEq, Inhabited

namespace LexError

/-- The message of the error. -/
def message : LexError → String
  | noViableAlternative _ _ line column text =>
    s!"token recognition error at {line}:{column}: '{text}'"
  | exceeded e => e.message
  | emptyModeStack => "popMode with an empty mode stack"
  | modeStackOverflow depth => s!"mode stack exceeded {depth} entries"
  | unknownMode mode => s!"unknown lexer mode {mode}"

/-- The code of the error. A token that is too long has one of its own. -/
def code : LexError → Code
  | noViableAlternative .. => .unrecognizedToken
  | exceeded e => if e.resource = .tokenLength then .tokenTooLong else .resourceExhausted
  | emptyModeStack => .emptyModeStack
  | modeStackOverflow _ => .modeStackOverflow
  | unknownMode _ => .unknownMode

/-- Whether lexing can go on after the error. -/
def isRecoverable (e : LexError) : Bool := e.code.isRecoverable

instance : ToString LexError := ⟨message⟩

end LexError

end AdaptiveLL
