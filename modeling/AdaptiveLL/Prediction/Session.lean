import AdaptiveLL.Cache.Basic
import AdaptiveLL.Prediction.Closure
import AdaptiveLL.Prediction.Error
import AdaptiveLL.Prediction.Report
import AdaptiveLL.Prediction.Stats
import AdaptiveLL.Settings.Basic

/-!
# Prediction sessions

A session is what predictions leave behind for one another: the cache, the statistics, and the
record of what was reported, asked and journaled.
-/

namespace AdaptiveLL

/-- The state of a session. -/
structure Session where
  cache : Cache
  stats : PredictionStats := {}
  recorder : Recorder := {}
  /-- The callbacks made, oldest first. -/
  callbacks : List Callback := []
  journal : Journal := {}
  /-- Whether reports go to the journal, too. -/
  journalsReports : Bool := false
deriving Inhabited

/-- A part of a prediction. -/
abbrev Prediction := Run PredictionError Session

namespace Session

/-- The session of a cache, with nothing counted yet. -/
def new (cache : Cache) : Session :=
  { cache, stats := .new cache.net.decisions.size }

/-- Writes an event into the journal. -/
def note (s : Session) (e : Event) : Session := { s with journal := s.journal.write e }

/-- Changes the counters of a decision. -/
def count (s : Session) (decision : Nat) (f : DecisionStats → DecisionStats) : Session :=
  { s with stats := s.stats.update decision f }

/-- Delivers a report. -/
def deliver (s : Session) (r : Report) : Session :=
  let s := { s with recorder := s.recorder.record r }
  if s.journalsReports then s.note r.event else s

/-- The event of a left recursion that was cut off. -/
def recursionEvent (q : Question) (rule : Nat) : Event :=
  ((Event.warning "Closure entered a rule recursively without consuming input"
    .leftRecursion).detail "decision" q.decision).detail "rule" (q.net.ruleName rule)

/-- Takes over what following configurations left behind. Every callback on the way is one
evaluation. -/
def absorb (s : Session) (q : Question) (t : Trail) : Session :=
  let s :=
    { s with
      cache := { s.cache with graph := t.graph }
      callbacks := s.callbacks ++ t.asked }
  let s := s.count q.decision fun c => { c with evaluations := c.evaluations + t.asked.length }
  t.recursions.foldl (fun s rule => s.note (recursionEvent q rule)) s

end Session

namespace Prediction

/-- Follows configurations in the session's graph of stacks. -/
def probe {α : Type} (q : Question) (m : Probe α) : Prediction α :=
  ExceptT.mk fun s => do
    let (r, t) ← m.from? { graph := s.cache.graph, past := s.callbacks }
    pure (r.mapError .exceeded, s.absorb q t)

/-- Extends the session's graph of stacks. -/
def grow {α : Type} (q : Question) (m : Growing α) : Prediction α := probe q (Probe.grow m)

/-- Changes the counters of the decision. -/
def count (q : Question) (f : DecisionStats → DecisionStats) : Prediction Unit :=
  modify (·.count q.decision f)

/-- The decision's table. -/
def table (q : Question) : Prediction Table := do pure ((← get).cache.table q.decision)

/-- Replaces the decision's table. -/
def setTable (q : Question) (t : Table) : Prediction Unit :=
  modify fun s => { s with cache := s.cache.setTable q.decision t }

/-- Writes an event into the journal. -/
def note (e : Event) : Prediction Unit := modify (·.note e)

/-- Puts a guard to the host, with the input where the decision begins. That is one evaluation,
however many callbacks it takes. -/
def holds (q : Question) (g : Guard) : Prediction Bool := do
  count q fun c => { c with evaluations := c.evaluations + 1 }
  let s ← get
  let (holds, asked) := g.put q.host q.start s.callbacks
  set { s with callbacks := s.callbacks ++ asked }
  pure holds

/-- Puts a row into the decision's table. -/
def install (q : Question) (r : Row) : Prediction Place := do
  let (place, event, t) := (← table q).install r
  setTable q t
  event.forM note
  pure place

end Prediction

end AdaptiveLL
