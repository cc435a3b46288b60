import AdaptiveLL.Journal.Code
import AdaptiveLL.Json.Value
import AdaptiveLL.Journal.Event
import AdaptiveLL.Limits
import AdaptiveLL.Prediction.Mode

/-!
# Settings

What can be tuned without changing what is recognized: how far a prediction goes, which ceilings
below the fixed ones apply, and what the journal lets through.
-/

namespace AdaptiveLL

/-- How predictions are made. -/
structure PredictionSettings where
  mode : PredictionMode := .ll
  /-- Whether the tables of the cache are read and written. -/
  useCache : Bool := true
  /-- The most symbols one prediction may look at. -/
  maxLookahead : Nat := Limits.lookahead
  /-- Whether it is reported that a conflict was settled by the call stack. -/
  reportContextSensitivity : Bool := true
  /-- Whether a conflict that is settled without the call stack is reported as an ambiguity. -/
  reportSllConflicts : Bool := true
  /-- Whether the journal notes every cell that had to be computed. -/
  logMisses : Bool := false
  /-- Whether a dead end may predict an alternative that has finished its rule. -/
  recoverAtRuleEnd : Bool := false
deriving DecidableEq, Inhabited

/-- The settings of a prediction that may not look at a single symbol. -/
def PredictionSettings.blind (s : PredictionSettings) : PredictionSettings :=
  { s with maxLookahead := 0 }

/-- How tokens are recognized. -/
structure LexerSettings where
  /-- Whether the tables of the cache are read and written. -/
  useCache : Bool := true
  /-- The most characters of a token. -/
  maxTokenLength : Nat := Limits.tokenLength
  /-- Whether the journal notes every token. -/
  logTokens : Bool := false
deriving DecidableEq, Inhabited

/-- What is journaled, and where. -/
structure JournalSettings where
  /-- Whether events are written as records rather than lines. -/
  structured : Bool := false
  /-- Whether events are written to the console. -/
  console : Bool := false
  /-- The least important level that is let through. -/
  level : Level := .info
deriving DecidableEq, Inhabited

/-- **All settings.** -/
structure Settings where
  prediction : PredictionSettings := {}
  lexer : LexerSettings := {}
  journal : JournalSettings := {}
deriving DecidableEq, Inhabited

/-- Why settings cannot be used. -/
inductive SettingsError where
  /-- The file cannot be read. -/
  | unreadable (path : String)
  /-- The document has the wrong form, or a value the wrong type. -/
  | malformed
  | aboveCeiling (setting : String) (value ceiling : Nat)
  | zero (setting : String)
deriving DecidableEq, Inhabited

namespace SettingsError

/-- The message of the error. -/
def message : SettingsError → String
  | unreadable path => s!"Failed to read configuration file {path}"
  | malformed => "Invalid configuration TOML"
  | aboveCeiling setting value ceiling =>
    s!"{setting} = {value} exceeds the compile-time ceiling {ceiling}"
  | zero setting => s!"{setting} must be greater than zero"

/-- The code of the error. -/
def code : SettingsError → Code
  | unreadable _ => .unreadableSettings
  | malformed => .invalidSettings
  | aboveCeiling .. | zero _ => .limitOutOfRange

end SettingsError

/-- The journal settings as a document. -/
def JournalSettings.toJson (s : JournalSettings) : Json.Value :=
  .record [
    ("use_structured_logging", .bool s.structured),
    ("enable_console_logging", .bool s.console),
    ("min_log_level", .text s.level.name)]

namespace Settings

/-- Whether a setting lies above zero and not above its ceiling. -/
def checkLimit (setting : String) (value ceiling : Nat) : Except SettingsError Unit :=
  if value = 0 then throw (.zero setting)
  else if ceiling < value then throw (.aboveCeiling setting value ceiling)
  else pure ()

/-- **Whether the settings respect the ceilings.** -/
def check (s : Settings) : Except SettingsError Unit := do
  checkLimit "prediction.max_lookahead" s.prediction.maxLookahead Limits.lookahead
  checkLimit "lexer.max_token_length" s.lexer.maxTokenLength Limits.tokenLength

/-- The settings as a document. -/
def toJson (s : Settings) : Json.Value :=
  .record [
    ("prediction", .record [
      ("mode", .text s.prediction.mode.label),
      ("enable_dfa_cache", .bool s.prediction.useCache),
      ("max_lookahead", .nat s.prediction.maxLookahead),
      ("report_context_sensitivity", .bool s.prediction.reportContextSensitivity),
      ("report_sll_conflicts", .bool s.prediction.reportSllConflicts),
      ("log_dfa_misses", .bool s.prediction.logMisses),
      ("recover_at_rule_end", .bool s.prediction.recoverAtRuleEnd)]),
    ("lexer", .record [
      ("enable_dfa_cache", .bool s.lexer.useCache),
      ("max_token_length", .nat s.lexer.maxTokenLength),
      ("log_tokens", .bool s.lexer.logTokens)]),
    ("logging", s.journal.toJson)]

end Settings

end AdaptiveLL
