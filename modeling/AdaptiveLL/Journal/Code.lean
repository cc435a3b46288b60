/-!
# Event codes

Every event of the journal carries a code, and every error of the library has one. The registry
says for a code what it is about, how severe it is, whether the caller can go on after it, and what
to do about it. Codes of successes and of uncoded events are not registered; for an unregistered
code the questions below have fallback answers.
-/

namespace AdaptiveLL

/-- The code of an event or an error. -/
structure Code where
  id : String
deriving DecidableEq, Inhabited

instance : ToString Code := ⟨Code.id⟩

/-- How severe an error is. -/
inductive Severity where
  | critical
  | high
  | medium
  | low
deriving DecidableEq, Inhabited

/-- The name of a severity. -/
def Severity.label : Severity → String
  | critical => "Critical"
  | high => "High"
  | medium => "Medium"
  | low => "Low"

/-- What the registry says about a code. -/
structure CodeInfo where
  code : Code
  category : String
  severity : Severity
  recoverable : Bool
  requiresHalt : Bool
  description : String
  action : String
deriving Inhabited

namespace Code

/-! ## The codes in use -/

def uncodedWarning : Code := ⟨"W000"⟩
def uncodedInfo : Code := ⟨"I000"⟩
def uncodedDebug : Code := ⟨"D000"⟩

def internalError : Code := ⟨"ERR001"⟩
def initializationFailure : Code := ⟨"ERR002"⟩

def invalidSettings : Code := ⟨"E005"⟩
def unreadableSettings : Code := ⟨"E006"⟩
def limitOutOfRange : Code := ⟨"E007"⟩

def missingState : Code := ⟨"E020"⟩
def invalidRule : Code := ⟨"E021"⟩
def invalidDecision : Code := ⟨"E022"⟩
def malformedState : Code := ⟨"E023"⟩
def invalidLexerAction : Code := ⟨"E024"⟩
def unreadableNetwork : Code := ⟨"E025"⟩
def unsupportedConstruct : Code := ⟨"E026"⟩

def noViableAlternative : Code := ⟨"E040"⟩
def resourceExhausted : Code := ⟨"E041"⟩
def unknownDecision : Code := ⟨"E042"⟩
def leftRecursion : Code := ⟨"W043"⟩
def ambiguity : Code := ⟨"W044"⟩
def attemptingFullContext : Code := ⟨"W045"⟩
def contextSensitivity : Code := ⟨"W046"⟩
def stateCeiling : Code := ⟨"W047"⟩
def arenaRenewed : Code := ⟨"W048"⟩

def unrecognizedToken : Code := ⟨"E060"⟩
def emptyModeStack : Code := ⟨"E061"⟩
def modeStackOverflow : Code := ⟨"E062"⟩
def unknownMode : Code := ⟨"E063"⟩
def tokenTooLong : Code := ⟨"E064"⟩

def mismatchedInput : Code := ⟨"E080"⟩
def failedPredicate : Code := ⟨"E081"⟩
def callStackOverflow : Code := ⟨"E082"⟩
def unknownRule : Code := ⟨"E083"⟩

def journalStarted : Code := ⟨"I001"⟩
def networkBuilt : Code := ⟨"I020"⟩
def networkLoaded : Code := ⟨"I021"⟩
def conflictResolved : Code := ⟨"I040"⟩
def cacheCleared : Code := ⟨"I041"⟩
def tokenized : Code := ⟨"I060"⟩
def parsed : Code := ⟨"I080"⟩

/-! ## The registry -/

/-- **The registered codes,** in groups by what they are about. -/
def registry : List CodeInfo := [
  ⟨internalError, "System", .critical, false, true,
    "Critical internal runtime error",
    "File a bug report with the grammar and input that triggered it"⟩,
  ⟨initializationFailure, "System", .critical, false, true,
    "Runtime initialization failure",
    "Check logging and configuration setup"⟩,
  ⟨invalidSettings, "Configuration", .medium, true, false,
    "Runtime configuration could not be parsed",
    "Fix the TOML syntax or key types in the configuration file"⟩,
  ⟨unreadableSettings, "Configuration", .medium, true, false,
    "Runtime configuration file could not be read",
    "Check the configuration path and permissions"⟩,
  ⟨limitOutOfRange, "Configuration", .medium, true, false,
    "Runtime limit outside the compile-time ceiling",
    "Lower the setting or rebuild with a larger profile ceiling"⟩,
  ⟨missingState, "Automaton", .high, false, true,
    "Transition or table refers to a state that does not exist",
    "Regenerate the automaton from the grammar"⟩,
  ⟨invalidRule, "Automaton", .high, false, true,
    "Reference to an undefined rule",
    "Define the rule before referencing it"⟩,
  ⟨invalidDecision, "Automaton", .high, false, true,
    "Decision table is inconsistent with decision states",
    "Regenerate the automaton from the grammar"⟩,
  ⟨malformedState, "Automaton", .high, false, true,
    "State shape violates automaton invariants",
    "Regenerate the automaton from the grammar"⟩,
  ⟨invalidLexerAction, "Automaton", .high, false, true,
    "Action transition refers to an unknown lexer action",
    "Register the lexer action before referencing it"⟩,
  ⟨unreadableNetwork, "Automaton", .medium, true, false,
    "Automaton could not be serialized or deserialized",
    "Check the serialized automaton document"⟩,
  ⟨unsupportedConstruct, "Automaton", .high, false, true,
    "Transition kind not supported by this simulator",
    "Remove precedence predicates from lexer rules"⟩,
  ⟨noViableAlternative, "Prediction", .medium, true, false,
    "No alternative can continue from the current input symbol",
    "Report a syntax error and let the driver recover"⟩,
  ⟨resourceExhausted, "Prediction", .high, true, false,
    "Prediction exceeded a configured resource ceiling",
    "Fail the current decision or raise the ceiling"⟩,
  ⟨unknownDecision, "Prediction", .high, false, true,
    "Decision number outside the automaton decision table",
    "Check the decision number passed by the driver"⟩,
  ⟨leftRecursion, "Prediction", .low, true, false,
    "Closure path re-entered rules without consuming input",
    "Eliminate left recursion before building the automaton"⟩,
  ⟨ambiguity, "Prediction", .low, true, false,
    "Several alternatives match the same input; lowest alternative chosen",
    "Reorder or refactor the ambiguous alternatives"⟩,
  ⟨attemptingFullContext, "Prediction", .low, true, false,
    "SLL conflict; retrying with full-context prediction",
    "No action required"⟩,
  ⟨contextSensitivity, "Prediction", .low, true, false,
    "Decision required full context to resolve",
    "No action required"⟩,
  ⟨stateCeiling, "Prediction", .low, true, false,
    "Decision DFA reached its state ceiling; new states are not cached",
    "Raise max_dfa_states_per_decision"⟩,
  ⟨arenaRenewed, "Prediction", .low, true, false,
    "Context arena reached its node ceiling; the prediction cache was renewed",
    "Raise max_arena_nodes"⟩,
  ⟨unrecognizedToken, "Lexer", .medium, true, false,
    "No token rule matches the input at this position",
    "Skip the offending character and continue"⟩,
  ⟨emptyModeStack, "Lexer", .high, false, false,
    "popMode executed with an empty mode stack",
    "Balance pushMode and popMode commands"⟩,
  ⟨modeStackOverflow, "Lexer", .high, false, false,
    "Mode stack exceeded its ceiling",
    "Balance pushMode and popMode commands"⟩,
  ⟨unknownMode, "Lexer", .high, false, true,
    "Lexer mode does not exist",
    "Check mode numbers in lexer commands"⟩,
  ⟨tokenTooLong, "Lexer", .medium, true, false,
    "Token exceeded the maximum token length",
    "Raise max_token_length or fix the token rule"⟩,
  ⟨mismatchedInput, "Interpreter", .medium, true, false,
    "Input token does not match the expected symbol",
    "Report a syntax error"⟩,
  ⟨failedPredicate, "Interpreter", .medium, true, false,
    "Semantic predicate failed while matching",
    "Report a syntax error"⟩,
  ⟨callStackOverflow, "Interpreter", .high, true, false,
    "Rule invocation depth exceeded the call stack ceiling",
    "Reduce nesting in the input or raise the ceiling"⟩,
  ⟨unknownRule, "Interpreter", .high, false, true,
    "Start rule does not exist",
    "Check the rule index passed to the interpreter"⟩]

/-- What the registry says about the code. -/
def info? (c : Code) : Option CodeInfo := registry.find? (·.code = c)

/-- The severity of the code; medium where it is not registered. -/
def severity (c : Code) : Severity := (c.info?.map CodeInfo.severity).getD .medium

/-- Whether the caller can go on after the event. -/
def isRecoverable (c : Code) : Bool := (c.info?.map CodeInfo.recoverable).getD false

/-- Whether the caller has to stop. -/
def requiresHalt (c : Code) : Bool := (c.info?.map CodeInfo.requiresHalt).getD false

/-- What happened. -/
def description (c : Code) : String := (c.info?.map CodeInfo.description).getD "Unknown error"

/-- What to do about it. -/
def action (c : Code) : String :=
  (c.info?.map CodeInfo.action).getD "No specific action available"

/-- The part of the library the code belongs to. -/
def category (c : Code) : String := (c.info?.map CodeInfo.category).getD "Unknown"

end Code

end AdaptiveLL
