import AdaptiveLL.Settings.Environment
import AdaptiveLL.Toml.Reader

/-!
# Settings from a document

`Settings.load` reads settings from a TOML document with a table for each kind of setting. What is
not there is taken from the environment, and names that are not known do not matter. A value of the
wrong type spoils the document. As any structure can, a table may be written as the array of its
values in the order of declaration.
-/

namespace AdaptiveLL

namespace Toml

/-- A reader of values of one type. -/
abbrev Decoder (α : Type) := Value → Option α

namespace Decoder

/-- A truth value. -/
def bool : Decoder Bool
  | .bool b => some b
  | _ => none

/-- An integer that is not negative. -/
def nat : Decoder Nat
  | .int n => if 0 ≤ n then some n.toNat else none
  | _ => none

/-- Whether the value has nothing in it. -/
def isVoid : Value → Bool
  | .array items => items.isEmpty
  | .table members => members.isEmpty
  | _ => false

/-- A name from a fixed list: a string, or the only member of a table with nothing in it. -/
def label {α : Type} (ofLabel : String → Option α) : Decoder α
  | .text s => ofLabel s
  | .table [(s, v)] => if isVoid v then ofLabel s else none
  | _ => none

/-- A value that stands for `fallback` where it is missing. -/
def defaulting {α : Type} (fallback : α) (decode : Decoder α) : Option Value → Option α
  | some v => decode v
  | none => some fallback

end Decoder

/-- The values of a structure, in the order of its names. -/
def Value.fields? (names : List String) : Value → Option (List (Option Value))
  | .table members => some (names.map fun name => members.lookup name)
  | .array items => some (names.zipIdx.map fun (_, i) => items[i]?)
  | _ => none

end Toml

open Toml.Decoder in
/-- Prediction settings from a document; what is missing is taken from `s`. -/
def PredictionSettings.ofToml? (s : PredictionSettings) (v : Toml.Value) :
    Option PredictionSettings := do
  match ← v.fields? ["mode", "enable_dfa_cache", "max_lookahead", "report_context_sensitivity",
    "report_sll_conflicts", "log_dfa_misses", "recover_at_rule_end"] with
  | [mode, cache, lookahead, sensitivity, conflicts, misses, recover] =>
    pure
      { mode := ← defaulting s.mode (label PredictionMode.ofLabel?) mode
        useCache := ← defaulting s.useCache bool cache
        maxLookahead := ← defaulting s.maxLookahead nat lookahead
        reportContextSensitivity := ← defaulting s.reportContextSensitivity bool sensitivity
        reportSllConflicts := ← defaulting s.reportSllConflicts bool conflicts
        logMisses := ← defaulting s.logMisses bool misses
        recoverAtRuleEnd := ← defaulting s.recoverAtRuleEnd bool recover }
  | _ => none

open Toml.Decoder in
/-- Lexer settings from a document; what is missing is taken from `s`. -/
def LexerSettings.ofToml? (s : LexerSettings) (v : Toml.Value) : Option LexerSettings := do
  match ← v.fields? ["enable_dfa_cache", "max_token_length", "log_tokens"] with
  | [cache, length, tokens] =>
    pure
      { useCache := ← defaulting s.useCache bool cache
        maxTokenLength := ← defaulting s.maxTokenLength nat length
        logTokens := ← defaulting s.logTokens bool tokens }
  | _ => none

open Toml.Decoder in
/-- Journal settings from a document; what is missing is taken from `s`. -/
def JournalSettings.ofToml? (s : JournalSettings) (v : Toml.Value) : Option JournalSettings := do
  match ← v.fields? ["use_structured_logging", "enable_console_logging", "min_log_level"] with
  | [structured, console, level] =>
    pure
      { structured := ← defaulting s.structured bool structured
        console := ← defaulting s.console bool console
        level := ← defaulting s.level (label Level.ofName?) level }
  | _ => none

namespace Settings

open Toml.Decoder in
/-- Settings from a document; what is missing is taken from `s`. -/
def ofToml? (s : Settings) (v : Toml.Value) : Option Settings := do
  match ← v.fields? ["prediction", "lexer", "logging"] with
  | [prediction, lexer, journal] =>
    pure
      { prediction := ← defaulting s.prediction s.prediction.ofToml? prediction
        lexer := ← defaulting s.lexer s.lexer.ofToml? lexer
        journal := ← defaulting s.journal s.journal.ofToml? journal }
  | _ => none

/-- The settings, if they respect the ceilings. -/
def checked (s : Settings) : Except SettingsError Settings := do
  s.check
  pure s

/-- **The settings of a document,** which have to respect the ceilings. -/
def load (e : Environment) (document : String) : Except SettingsError Settings :=
  match (Toml.Value.parse? document).bind (ofToml? (.ofEnvironment e)) with
  | some s => s.checked
  | none => throw .malformed

end Settings

end AdaptiveLL
