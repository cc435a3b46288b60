import AdaptiveLL.AltSet
import AdaptiveLL.Journal.Event

/-!
# Reports

Ambiguity and context sensitivity are no errors: an alternative is predicted all the same. They are
reported, and a recorder keeps the reports up to a ceiling.
-/

namespace AdaptiveLL

/-- What is reported. -/
inductive ReportKind where
  /-- Several alternatives match the same input; the least was taken. -/
  | ambiguity
  /-- The alternatives conflict, and the prediction is tried again with the call stack. -/
  | fullContext
  /-- The call stack settled a conflict. -/
  | contextSensitivity
deriving DecidableEq, Inhabited

/-- A report about a decision over the tokens from `start` to `stop`. -/
structure Report where
  kind : ReportKind
  decision : Nat
  start : Nat
  stop : Nat
  /-- The alternatives it is about. -/
  alts : AltSet
  /-- Whether the ambiguity is known to be a true one. -/
  exact : Bool := false
  /-- The alternative taken, if it is known yet. -/
  prediction : Nat := noAlternative
deriving DecidableEq, Inhabited

/-- **The report as an event of the journal.** -/
def Report.event (r : Report) : Event :=
  let input := s!"{r.start}..{r.stop}"
  match r.kind with
  | .ambiguity =>
    (((((Event.warning "Ambiguous decision" .ambiguity).detail "decision" r.decision).detail "alts"
      r.alts).detail "exact" r.exact).detail "input" input)
  | .fullContext =>
    (((Event.debug "Attempting full-context prediction").detail "decision" r.decision).detail "alts"
      r.alts).detail "input" input
  | .contextSensitivity =>
    (((Event.info "Full-context prediction resolved conflict" .conflictResolved).detail "decision"
      r.decision).detail "prediction" r.prediction).detail "input" input

/-- Keeps the reports that come in, up to the ceiling. -/
structure Recorder where
  reports : Array Report := #[]
deriving DecidableEq, Inhabited

namespace Recorder

/-- Keeps one more report, if there is room. -/
def record (b : Recorder) (r : Report) : Recorder :=
  if b.reports.size < Limits.recordedDiagnostics then ⟨b.reports.push r⟩ else b

/-- The number of reports kept. -/
def size (b : Recorder) : Nat := b.reports.size

/-- The reports kept, oldest first. -/
def toList (b : Recorder) : List Report := b.reports.toList

/-- The reports of a kind. -/
def ofKind (b : Recorder) (kind : ReportKind) : List Report :=
  b.toList.filter (·.kind == kind)

end Recorder

end AdaptiveLL
