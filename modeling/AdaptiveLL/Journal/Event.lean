import AdaptiveLL.Journal.Code
import AdaptiveLL.Json.Value
import AdaptiveLL.Limits
import AdaptiveLL.Text

/-!
# Events

An event is one line of the journal: its level, its code, a message, the grammar that was being
run and details as pairs of a key and a value, sorted by key. `render` is the line as people read
it, `toJson` the record a machine reads.
-/

namespace AdaptiveLL

/-- How important an event is, most important first. -/
inductive Level where
  | error
  | warning
  | info
  | debug
deriving DecidableEq, Inhabited

namespace Level

/-- The place of the level in the order of importance. -/
def rank : Level → Nat
  | error => 0
  | warning => 1
  | info => 2
  | debug => 3

/-- The level as events show it. -/
def label : Level → String
  | error => "ERROR"
  | warning => "WARN"
  | info => "INFO"
  | debug => "DEBUG"

/-- The level as settings spell it. -/
def name : Level → String
  | error => "error"
  | warning => "warning"
  | info => "info"
  | debug => "debug"

/-- The level with a name. -/
def ofName? : String → Option Level
  | "error" => some error
  | "warning" => some warning
  | "info" => some info
  | "debug" => some debug
  | _ => none

/-- The level that a person means, in large or small letters, by its name or by its rank. -/
def ofText? (s : String) : Option Level :=
  match Text.lower s with
  | "0" => some error
  | "warn" | "1" => some warning
  | "2" => some info
  | "3" => some debug
  | s => ofName? s

/-- Whether an event of this level passes a filter that lets through `threshold` and what is more
important. -/
def passes (level threshold : Level) : Bool := level.rank ≤ threshold.rank

end Level

/-- One event of the journal. -/
structure Event where
  level : Level
  code : Code
  message : String
  grammar : Option String := none
  /-- Details, ascending by key. -/
  details : List (String × String) := []
deriving Inhabited

namespace Event

/-- A message cut to the ceiling: what is too long ends in three points. -/
def clip (message : String) : String :=
  if message.length ≤ Limits.messageLength then message
  else String.ofList (message.toList.take Limits.messageLength) ++ "..."

/-- An event without details. -/
def new (level : Level) (code : Code) (message : String) : Event :=
  { level := level, code := code, message := clip message }

/-- An error. -/
def error (code : Code) (message : String) : Event := new .error code message

/-- A warning; without a code of its own it is marked as uncoded. -/
def warning (message : String) (code : Code := Code.uncodedWarning) : Event :=
  new .warning code message

/-- An information; a success carries the code of what succeeded. -/
def info (message : String) (code : Code := Code.uncodedInfo) : Event := new .info code message

/-- A remark for debugging. -/
def debug (message : String) : Event := new .debug Code.uncodedDebug message

/-- Sets a key in an ascending list of pairs. -/
def setDetail (key value : String) : List (String × String) → List (String × String)
  | [] => [(key, value)]
  | (k, v) :: rest =>
    if key < k then (key, value) :: (k, v) :: rest
    else if key = k then (key, value) :: rest
    else (k, v) :: setDetail key value rest

/-- The event with one more detail; a key that is there already gets the new value. -/
def detail {α : Type} [ToString α] (e : Event) (key : String) (value : α) : Event :=
  { e with details := setDetail key (toString value) e.details }

/-- The event of a grammar. -/
def inGrammar (e : Event) (grammar : String) : Event := { e with grammar := some grammar }

/-- Whether the event is an error. -/
def isError (e : Event) : Bool := e.level == .error

/-- Whether the event is a warning. -/
def isWarning (e : Event) : Bool := e.level == .warning

/-- The decision the event is about, where its details name one. -/
def decision? (e : Event) : Option Nat := (e.details.lookup "decision").bind Numeral.word?

/-- **The event as a line:** level, code, grammar, message and details. -/
def render (e : Event) : String :=
  let grammar := match e.grammar with
    | some g => s!" [{g}]"
    | none => ""
  let details := match e.details with
    | [] => ""
    | ds => " (" ++ ", ".intercalate (ds.map fun (key, value) => key ++ "=" ++ value) ++ ")"
  s!"[{e.level.label}] {e.code}{grammar} - {e.message}{details}"

/-- The event as a record. What the registry says about the code is added, in full for an
error. -/
def toJson (e : Event) : Json.Value :=
  .record (
    [("level", .text e.level.label), ("code", .text e.code.id), ("message", .text e.message)]
    ++ (match e.grammar with
      | some g => [("grammar", .text g)]
      | none => [])
    ++ (match e.details with
      | [] => []
      | ds => [("context", .record (ds.map fun d => (d.1, .text d.2)))])
    ++ [("category", .text e.code.category), ("severity", .text e.code.severity.label)]
    ++ (if e.isError then
      [("error_metadata", .record [
        ("recoverable", .bool e.code.isRecoverable),
        ("requires_halt", .bool e.code.requiresHalt),
        ("description", .text e.code.description),
        ("recommended_action", .text e.code.action)])]
      else []))

end Event

end AdaptiveLL
