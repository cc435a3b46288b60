import AdaptiveLL.Lexing.Error
import AdaptiveLL.Network.Error
import AdaptiveLL.Notation.Symbol
import AdaptiveLL.Parsing.Error
import AdaptiveLL.Prediction.Report
import AdaptiveLL.Settings.Basic

/-!
# Notation of errors and reports

An error is shown as an object with its kind, its message, its code, whether one can go on after
it, and what it is about.
-/

namespace AdaptiveLL

open Json

/-- An error as an object. -/
def Code.errorRecord (code : Code) (kind message : String)
    (more : List (String × Value)) : Value :=
  .record ([("error", .text kind), ("message", .text message), ("code", .text code.id),
    ("recoverable", .bool code.isRecoverable)] ++ more)

namespace Resource

/-- The name of a resource. -/
def name : Resource → String
  | lookahead => "Lookahead"
  | configSetSize => "ConfigSetSize"
  | contextDepth => "ContextDepth"
  | arenaNodes => "ArenaNodes"
  | tokenLength => "TokenLength"

/-- The resource with a name. -/
def ofName? (s : String) : Option Resource :=
  [lookahead, configSetSize, contextDepth, arenaNodes, tokenLength].find? (·.name == s)

end Resource

namespace Exceeded

/-- What an exceeded ceiling is about. -/
def members (e : Exceeded) : List (String × Value) :=
  [("limit", .text e.resource.name), ("ceiling", .nat e.ceiling), ("observed", .nat e.observed)]

/-- An exceeded ceiling by itself. -/
def toJson (e : Exceeded) : Value :=
  .record ([("error", .text "ResourceExhausted"), ("message", .text e.message)] ++ e.members)

/-- An exceeded ceiling from its notation. -/
def ofJson (v : Value) : Exceeded :=
  ⟨(Resource.ofName? (v.textAt "limit")).getD .lookahead, v.natAt "ceiling", v.natAt "observed"⟩

end Exceeded

namespace SettingsError

/-- The kind of the error. -/
def kind : SettingsError → String
  | unreadable _ => "Io"
  | malformed => "Parse"
  | aboveCeiling .. => "LimitExceeded"
  | zero _ => "ZeroLimit"

/-- Whether the message is fixed by the settings alone. -/
def hasMessage : SettingsError → Bool
  | aboveCeiling .. | zero _ => true
  | unreadable _ | malformed => false

/-- The error as an object. -/
def toJson (e : SettingsError) : Value :=
  .record ([("error", .text e.kind), ("code", .text e.code.id)]
    ++ if e.hasMessage then [("message", .text e.message)] else [])

end SettingsError

namespace NetworkError

/-- The kind of the error. -/
def kind : NetworkError → String
  | missingState .. => "InvalidStateReference"
  | undefinedRule _ => "UndefinedRule"
  | invalidRule .. => "InvalidRuleIndex"
  | invalidDecision .. => "InvalidDecision"
  | malformedState .. => "MalformedState"
  | invalidCommand .. => "InvalidLexerAction"
  | unsupported .. => "UnsupportedConstruct"
  | duplicateRule _ => "DuplicateRule"
  | unreadable => "Serialization"

/-- The error as an object. That a document is unreadable says all there is. -/
def toJson (e : NetworkError) : Value :=
  match e with
  | unreadable =>
    .record [("error", .text e.kind), ("code", .text e.code.id),
      ("recoverable", .bool e.isRecoverable)]
  | _ => e.code.errorRecord e.kind e.message []

/-- An error from its notation. -/
def ofJson (v : Value) : NetworkError :=
  match v.textAt "kind" with
  | "undefined" => undefinedRule (v.textAt "name")
  | "malformed" => malformedState (v.natAt "state") (v.textAt "text")
  | _ => duplicateRule (v.textAt "name")

end NetworkError

namespace LexError

/-- The error as an object. -/
def toJson (e : LexError) : Value :=
  let record := e.code.errorRecord
  match e with
  | noViableAlternative start offending line column text =>
    record "NoViableAlternative" e.message [("start", .nat start), ("offending", .nat offending),
      ("line", .nat line), ("column", .nat column), ("text", .text text)]
  | exceeded x => record "ResourceExhausted" e.message x.members
  | emptyModeStack => record "EmptyModeStack" e.message []
  | modeStackOverflow _ => record "ModeStackOverflow" e.message []
  | unknownMode _ => record "UnknownMode" e.message []

/-- An error from its notation. -/
def ofJson (v : Value) : LexError :=
  match v.textAt "kind" with
  | "NoViableAlternative" =>
    noViableAlternative (v.natAt "start") (v.natAt "offending") (v.natAt "line")
      (v.natAt "column") (v.textAt "text")
  | "EmptyModeStack" => emptyModeStack
  | "ModeStackOverflow" => modeStackOverflow (v.natAt "depth")
  | "UnknownMode" => unknownMode (v.natAt "mode")
  | _ => exceeded (.ofJson v)

end LexError

namespace PredictionError

/-- The error as an object. -/
def toJson (e : PredictionError) : Value :=
  let record (kind : String) (more : List (String × Value)) :=
    e.code.errorRecord kind e.message (("at", .optional .nat e.offending?) :: more)
  match e with
  | noViableAlternative _ start offending symbol configs =>
    record "NoViableAlternative" [("start", .nat start), ("offending", .nat offending),
      ("symbol", .text symbol), ("configs", .text configs.render)]
  | exceeded x => record "ResourceExhausted" x.members
  | unknownDecision .. => record "UnknownDecision" []

/-- An error from its notation. -/
def ofJson (v : Value) : PredictionError :=
  match v.textAt "kind" with
  | "NoViableAlternative" =>
    noViableAlternative (v.natAt "decision") (v.natAt "start") (v.natAt "offending")
      (v.textAt "symbol") ⟨v.natAt "count", AltSet.ofJson (v.memberAt "alts"), v.boolAt "full"⟩
  | "UnknownDecision" => unknownDecision (v.natAt "decision") (v.natAt "count")
  | _ => exceeded (.ofJson v)

end PredictionError

namespace ParseError

/-- The error as an object. -/
def toJson (e : ParseError) : Value :=
  let record (kind : String) :=
    e.code.errorRecord kind e.message [("at", .optional .nat e.index?)]
  match e with
  | mismatched .. => record "MismatchedInput"
  | failedPredicate .. => record "FailedPredicate"
  | callStackOverflow _ => record "CallStackOverflow"
  | unknownRule _ => record "UnknownRule"
  | prediction p => p.toJson

/-- An error from its notation. -/
def ofJson (v : Value) : ParseError :=
  match v.textAt "kind" with
  | "MismatchedInput" => mismatched (v.natAt "index") (v.textAt "found") (v.textAt "expected")
  | "FailedPredicate" => failedPredicate (v.textAt "rule") (v.textAt "predicate") (v.natAt "index")
  | "CallStackOverflow" => callStackOverflow (v.natAt "depth")
  | "UnknownRule" => unknownRule (v.textAt "name")
  | _ => prediction (.ofJson (v.memberAt "inner"))

end ParseError

/-! ## Reports -/

namespace ReportKind

/-- The name of the kind. -/
def name : ReportKind → String
  | ambiguity => "ambiguity"
  | fullContext => "full_context"
  | contextSensitivity => "context_sensitivity"

/-- The kind with a name. -/
def ofName (s : String) : ReportKind :=
  ([fullContext, contextSensitivity].find? (·.name == s)).getD ambiguity

end ReportKind

namespace Report

/-- What a report says, its kind apart. -/
def members (r : Report) : List (String × Value) :=
  [("decision", .nat r.decision), ("start", .nat r.start), ("stop", .nat r.stop),
    ("alts", r.alts.toJson), ("exact", .bool r.exact), ("prediction", .nat r.prediction)]

/-- The report as an object. -/
def toJson (r : Report) : Value := .record (("kind", .text r.kind.name) :: r.members)

/-- A report of a kind from its notation. -/
def ofJson (kind : ReportKind) (v : Value) : Report :=
  { kind, decision := v.natAt "decision", start := v.natAt "start", stop := v.natAt "stop"
    alts := AltSet.ofJson (v.memberAt "alts"), exact := v.boolAt "exact"
    prediction := v.natAt "prediction" }

end Report

end AdaptiveLL
