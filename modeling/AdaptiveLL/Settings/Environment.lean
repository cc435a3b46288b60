import AdaptiveLL.Text
import AdaptiveLL.Settings.Basic

/-!
# Settings from the environment

Variables of the environment replace the defaults of the settings. A variable whose value cannot be
read counts as if it were not there.
-/

namespace AdaptiveLL

/-- The variables of a process with their values. -/
structure Environment where
  bindings : List (String × String) := []
deriving DecidableEq, Inhabited

namespace Environment

/-- The value of a variable. -/
def get? (e : Environment) (name : String) : Option String := e.bindings.lookup name

/-- Whether there is such a variable, readable or not. -/
def contains (e : Environment) (name : String) : Bool := (e.get? name).isSome

/-- A truth value: one of two words, spelt exactly. -/
def bool (e : Environment) (name : String) (fallback : Bool) : Bool :=
  match e.get? name with
  | some "true" => true
  | some "false" => false
  | _ => fallback

/-- A number. -/
def word (e : Environment) (name : String) (fallback : Nat) : Nat :=
  ((e.get? name).bind Numeral.word?).getD fallback

/-- A prediction mode. -/
def mode (e : Environment) (name : String) (fallback : PredictionMode) : PredictionMode :=
  ((e.get? name).bind PredictionMode.ofText?).getD fallback

/-- A level. -/
def level (e : Environment) (name : String) (fallback : Level) : Level :=
  ((e.get? name).bind Level.ofText?).getD fallback

/-! ## Names of variables -/

/-- Sets `JournalSettings.structured`. -/
def journalStructured : String := "ATN_LOGGING_USE_STRUCTURED"

/-- Sets `JournalSettings.console`. -/
def journalConsole : String := "ATN_LOGGING_ENABLE_CONSOLE"

/-- Sets `JournalSettings.level`. -/
def journalLevel : String := "ATN_LOGGING_MIN_LEVEL"

end Environment

/-- The prediction settings of an environment. -/
def PredictionSettings.ofEnvironment (e : Environment) : PredictionSettings :=
  let s : PredictionSettings := {}
  { mode := e.mode "ATN_PREDICTION_MODE" s.mode
    useCache := e.bool "ATN_PREDICTION_ENABLE_DFA_CACHE" s.useCache
    maxLookahead := e.word "ATN_PREDICTION_MAX_LOOKAHEAD" s.maxLookahead
    reportContextSensitivity :=
      e.bool "ATN_PREDICTION_REPORT_CONTEXT_SENSITIVITY" s.reportContextSensitivity
    reportSllConflicts := e.bool "ATN_PREDICTION_REPORT_SLL_CONFLICTS" s.reportSllConflicts
    logMisses := e.bool "ATN_PREDICTION_LOG_DFA_MISSES" s.logMisses
    recoverAtRuleEnd := e.bool "ATN_PREDICTION_RECOVER_AT_RULE_END" s.recoverAtRuleEnd }

/-- The lexer settings of an environment. -/
def LexerSettings.ofEnvironment (e : Environment) : LexerSettings :=
  let s : LexerSettings := {}
  { useCache := e.bool "ATN_LEXER_ENABLE_DFA_CACHE" s.useCache
    maxTokenLength := e.word "ATN_LEXER_MAX_TOKEN_LENGTH" s.maxTokenLength
    logTokens := e.bool "ATN_LEXER_LOG_TOKENS" s.logTokens }

/-- The journal settings of an environment. -/
def JournalSettings.ofEnvironment (e : Environment) : JournalSettings :=
  let s : JournalSettings := {}
  { structured := e.bool Environment.journalStructured s.structured
    console := e.bool Environment.journalConsole s.console
    level := e.level Environment.journalLevel s.level }

/-- **The settings of an environment.** -/
def Settings.ofEnvironment (e : Environment) : Settings :=
  { prediction := .ofEnvironment e
    lexer := .ofEnvironment e
    journal := .ofEnvironment e }

end AdaptiveLL
