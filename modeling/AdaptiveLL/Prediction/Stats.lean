import AdaptiveLL.Json.Value

/-!
# Prediction statistics

What the predictions of each decision cost and how they ended.
-/

namespace AdaptiveLL

/-- The counters of one decision. -/
structure DecisionStats where
  decision : Nat := 0
  invocations : Nat := 0
  /-- Symbols looked at without the call stack, in all and at most. -/
  sllLookahead : Nat := 0
  sllMaxLookahead : Nat := 0
  /-- How often a prediction was tried again with the call stack. -/
  fallbacks : Nat := 0
  /-- Symbols looked at with the call stack, in all and at most. -/
  llLookahead : Nat := 0
  llMaxLookahead : Nat := 0
  /-- Cells that were read from the table, and cells that had to be computed. -/
  hits : Nat := 0
  misses : Nat := 0
  ambiguities : Nat := 0
  contextSensitivities : Nat := 0
  evaluations : Nat := 0
  errors : Nat := 0
deriving DecidableEq, Inhabited

namespace DecisionStats

/-- Counts a prediction without the call stack that looked at `n` symbols. -/
def recordSll (n : Nat) (s : DecisionStats) : DecisionStats :=
  { s with sllLookahead := s.sllLookahead + n, sllMaxLookahead := max s.sllMaxLookahead n }

/-- Counts a prediction with the call stack that looked at `n` symbols. -/
def recordLl (n : Nat) (s : DecisionStats) : DecisionStats :=
  { s with llLookahead := s.llLookahead + n, llMaxLookahead := max s.llMaxLookahead n }

/-- Adds the counters of another decision; of the maxima the greater one is kept. -/
def add (s t : DecisionStats) : DecisionStats :=
  { decision := s.decision
    invocations := s.invocations + t.invocations
    sllLookahead := s.sllLookahead + t.sllLookahead
    sllMaxLookahead := max s.sllMaxLookahead t.sllMaxLookahead
    fallbacks := s.fallbacks + t.fallbacks
    llLookahead := s.llLookahead + t.llLookahead
    llMaxLookahead := max s.llMaxLookahead t.llMaxLookahead
    hits := s.hits + t.hits
    misses := s.misses + t.misses
    ambiguities := s.ambiguities + t.ambiguities
    contextSensitivities := s.contextSensitivities + t.contextSensitivities
    evaluations := s.evaluations + t.evaluations
    errors := s.errors + t.errors }

/-- The counters as an object. -/
def toJson (s : DecisionStats) : Json.Value :=
  .record [
    ("decision", .nat s.decision),
    ("invocations", .nat s.invocations),
    ("sll_lookahead_total", .nat s.sllLookahead),
    ("sll_max_lookahead", .nat s.sllMaxLookahead),
    ("ll_fallbacks", .nat s.fallbacks),
    ("ll_lookahead_total", .nat s.llLookahead),
    ("ll_max_lookahead", .nat s.llMaxLookahead),
    ("dfa_hits", .nat s.hits),
    ("dfa_misses", .nat s.misses),
    ("ambiguities", .nat s.ambiguities),
    ("context_sensitivities", .nat s.contextSensitivities),
    ("predicate_evals", .nat s.evaluations),
    ("errors", .nat s.errors)]

end DecisionStats

/-- The counters of all decisions of a network. -/
structure PredictionStats where
  decisions : Array DecisionStats := #[]
deriving DecidableEq, Inhabited

namespace PredictionStats

/-- Counters at zero. -/
def new (count : Nat) : PredictionStats :=
  ⟨(Array.range count).map fun decision => { decision }⟩

/-- The counters of a decision. -/
def get? (s : PredictionStats) (decision : Nat) : Option DecisionStats := s.decisions[decision]?

/-- Changes the counters of a decision; a decision without counters is not counted. -/
def update (s : PredictionStats) (decision : Nat) (f : DecisionStats → DecisionStats) :
    PredictionStats :=
  ⟨s.decisions.modify decision f⟩

/-- The counters of all decisions added up. -/
def total (s : PredictionStats) : DecisionStats := s.decisions.toList.foldl DecisionStats.add {}

/-- The counters at zero again. -/
def reset (s : PredictionStats) : PredictionStats := new s.decisions.size

/-- The counters as an object. -/
def toJson (s : PredictionStats) : Json.Value :=
  .record [("decisions", .listOf DecisionStats.toJson s.decisions.toList)]

end PredictionStats

end AdaptiveLL
