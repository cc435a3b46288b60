/-!
# Ceilings

Every resource that an input could exhaust has a ceiling. The constants below are those the
library is built with; settings may lower some of them. Running into one is not an accident of
the machine but an answer, `Exceeded`, which names the ceiling and what was asked for.
-/

namespace AdaptiveLL

/-- What can run out while predicting or matching. -/
inductive Resource where
  | lookahead
  | configSetSize
  | contextDepth
  | arenaNodes
  | tokenLength
deriving DecidableEq, Inhabited

namespace Resource

/-- The name of the resource in messages. -/
def label : Resource → String
  | lookahead => "lookahead"
  | configSetSize => "configuration set size"
  | contextDepth => "context depth"
  | arenaNodes => "context arena size"
  | tokenLength => "token length"

end Resource

/-- **A ceiling was exceeded:** `observed` is what would have been needed. -/
structure Exceeded where
  resource : Resource
  ceiling : Nat
  observed : Nat
deriving DecidableEq, Inhabited

/-- The message of an exceeded ceiling. -/
def Exceeded.message (e : Exceeded) : String :=
  s!"{e.resource.label} limit of {e.ceiling} exceeded (observed {e.observed})"

namespace Limits

/-- The most symbols one prediction may look at. -/
def lookahead : Nat := 1000000

/-- The most configurations in one set. -/
def configsPerSet : Nat := 200000

/-- The most states kept for one decision. -/
def statesPerDecision : Nat := 100000

/-- The greatest character that gets an edge in the table of a lexer mode. -/
def lastLexerEdge : Int := 127

/-- The most frames in a stack of return states. -/
def contextDepth : Nat := 10000

/-- The most nodes in one stack graph. -/
def arenaNodes : Nat := 5000000

/-- The most numbers that the nodes of one stack graph can have. -/
def stackIds : Nat := 0xffffffff

/-- The most characters in one token. -/
def tokenLength : Nat := 1048576

/-- The most modes on the mode stack of a lexer. -/
def modeStack : Nat := 256

/-- The most active rules of a parse. -/
def callStack : Nat := 2000

/-- The most events kept of one parse. -/
def traceEvents : Nat := 1000000

/-- The most events a journal keeps. -/
def journalEvents : Nat := 10000

/-- The most characters of a journal message. -/
def messageLength : Nat := 10000

/-- The most diagnostics a recorder keeps. -/
def recordedDiagnostics : Nat := 10000

end Limits

end AdaptiveLL
