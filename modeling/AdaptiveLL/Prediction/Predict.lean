import AdaptiveLL.Prediction.Choices
import AdaptiveLL.Prediction.Reach
import AdaptiveLL.Prediction.Session
import AdaptiveLL.Token.Stream

/-!
# Predictions

`Session.predict` chooses an alternative of a decision for the tokens ahead. It first walks the
decision's table, which is extended by a cell wherever one is missing. The configurations of the
table know no call stack. Where their alternatives conflict, the prediction begins again with the
call stack of the parse, unless the mode forbids it; what it finds then depends on the stack and is
never kept.

The stream of tokens is only read. A prediction that finds the graph of stacks full is made once
more on a renewed cache.
-/

namespace AdaptiveLL

/-- A prediction to be made: the question, the settings, the call stack as the states that called
the active rules, outermost first, and the tokens, from the cursor on. -/
structure Request extends Question where
  settings : PredictionSettings
  callers : List StateId
  stream : TokenStream
deriving Inhabited

namespace Request

/-! ## Answers and dead ends -/

/-- Fails if a prediction would look at more symbols than it may. -/
def checkLookahead (r : Request) (n : Nat) : Prediction Unit :=
  if r.settings.maxLookahead < n then
    throw (.exceeded ⟨.lookahead, r.settings.maxLookahead, n⟩)
  else pure ()

/-- The error of a dead end. -/
def noViable (r : Request) (offending : Nat) (s : ConfigSet) : PredictionError :=
  .noViableAlternative r.decision r.start offending
    (r.net.symbolName (r.stream.typeAt offending)) s.summary

/-- A report about the tokens up to a position. -/
def report (r : Request) (kind : ReportKind) (stop : Nat) (alts : AltSet) (exact : Bool)
    (prediction : Nat) : Report :=
  { kind, decision := r.decision, start := r.start, stop, alts, exact, prediction }

/-- Reports and counts an ambiguity. -/
def reportAmbiguity (r : Request) (stop : Nat) (alts : AltSet) (exact : Bool) (prediction : Nat) :
    Prediction Unit := do
  Prediction.count r.toQuestion fun c => { c with ambiguities := c.ambiguities + 1 }
  modify (·.deliver (r.report .ambiguity stop alts exact prediction))

/-- The alternatives whose guards hold. Every guard is put to the host. -/
def passing (r : Request) (choices : List Choice) : Prediction AltSet :=
  choices.foldlM (fun acc c => do
    if c.guard.isAlways then pure (acc.insert c.alt)
    else if ← Prediction.holds r.toQuestion c.guard then pure (acc.insert c.alt)
    else pure acc) .empty

/-- The answer of a row that has one, with the stream where the row was reached. -/
def answer (r : Request) (row : Row) (stream : TokenStream) : Prediction Nat :=
  match row.choices with
  | none => pure row.prediction
  | some choices => do
    match (← r.passing choices).min? with
    | some alt => pure alt
    | none => throw (r.noViable stream.index row.configs)

/-- Whether a thread has finished the rule of the decision. -/
def finishedRule (r : Request) (g : StackGraph) (c : Config) : Bool :=
  decide (0 < c.outer) || (r.atRuleStop c && g.hasEmptyStack c.stack)

/-- The least alternative for which a thread has finished the rule of the decision. -/
def finishedAlt? (r : Request) (g : StackGraph) (cs : List Config) : Option Nat :=
  ((cs.filter (r.finishedRule g)).map Config.alt).min?

/-- Parts configurations by whether their guards hold. -/
def partition (r : Request) : List Config → Prediction (List Config × List Config)
  | [] => pure ([], [])
  | c :: rest => do
    let passes ←
      if c.guard.isAlways then pure true else Prediction.holds r.toQuestion c.guard
    let (valid, invalid) ← r.partition rest
    pure (if passes then (c :: valid, invalid) else (valid, c :: invalid))

/-- **A dead end,** with the stream at the token that does not fit. If the settings allow it, an
alternative that has finished its rule is predicted all the same, preferably one whose guards
hold. -/
def deadEnd (r : Request) (s : ConfigSet) (stream : TokenStream) : Prediction Nat := do
  if !r.settings.recoverAtRuleEnd then throw (r.noViable stream.index s)
  else
    let (valid, invalid) ← r.partition s.toList
    let g := (← get).cache.graph
    match (r.finishedAlt? g valid).or (r.finishedAlt? g invalid) with
    | some alt => pure alt
    | none => throw (r.noViable stream.index s)

/-! ## With the call stack -/

/-- Where a prediction with the call stack stands. -/
structure FullPoint where
  configs : ConfigSet
  stream : TokenStream
  /-- The number of symbols looked at. -/
  read : Nat

/-- How a prediction with the call stack ended. -/
structure FullEnd where
  configs : ConfigSet
  /-- Where it ended. -/
  stop : Nat
  read : Nat
  prediction : Nat
  /-- Whether one alternative alone is left. -/
  unique : Bool
  /-- Whether the ambiguity is known to be a true one. -/
  exact : Bool

/-- The alternative for which a prediction with the call stack stops at a set, if it stops: the only
one left, or the one all conflicts settle for. In the exact mode all conflicts have to be the
same. -/
def fullVerdict? (mode : PredictionMode) (s : ConfigSet) : Option Nat :=
  let subsets := s.subsets
  if s.commonAlt ≠ noAlternative then some s.commonAlt
  else if mode = .exact then
    if Subsets.allConflict subsets && Subsets.allEqual subsets then some (Subsets.settled subsets)
    else none
  else if Subsets.settled subsets ≠ noAlternative then some (Subsets.settled subsets)
  else none

/-- One symbol of a prediction with the call stack. The first answer is a dead end. -/
def fullStep (r : Request) (p : FullPoint) :
    Prediction (FullPoint ⊕ ((ConfigSet × TokenStream) ⊕ FullEnd)) := do
  let read := p.read + 1
  r.checkLookahead read
  match ← Prediction.probe r.toQuestion (r.reach (p.stream.lookAhead 1) true p.configs) with
  | none =>
    Prediction.count r.toQuestion (·.recordLl read)
    pure (.inr (.inl (p.configs, p.stream)))
  | some configs =>
    match fullVerdict? r.settings.mode configs with
    | none => pure (.inl ⟨configs, p.stream.consume, read⟩)
    | some prediction =>
      -- Only a conflict can be an ambiguity; a single alternative is a plain answer.
      let unique := configs.commonAlt != noAlternative
      pure (.inr (.inr
        { configs, stop := p.stream.index, read, prediction, unique
          exact := !unique && r.settings.mode == .exact }))

/-- Counts and reports how a prediction with the call stack ended. -/
def concludeFull (r : Request) (e : FullEnd) : Prediction Nat := do
  Prediction.count r.toQuestion (·.recordLl e.read)
  if e.unique then
    if r.settings.reportContextSensitivity then
      Prediction.count r.toQuestion fun c =>
        { c with contextSensitivities := c.contextSensitivities + 1 }
      modify (·.deliver (r.report .contextSensitivity e.stop (.ofList [e.prediction]) false
        e.prediction))
  else r.reportAmbiguity e.stop e.configs.alts e.exact e.prediction
  pure e.prediction

/-- **A prediction with the call stack,** from the set in which it begins. -/
def predictFull (r : Request) (start : ConfigSet) : Prediction Nat := do
  match ← Run.loop r.fullStep r.fuel ⟨start, r.stream, 0⟩ with
  | .inl (configs, stream) => r.deadEnd configs stream
  | .inr e => r.concludeFull e

/-- What is done at a row whose alternatives conflict: if the guards leave one alternative, it is
the answer, and otherwise the call stack decides. -/
def escalate (r : Request) (row : Row) (stream : TokenStream) : Prediction Nat := do
  let passing ←
    match row.choices with
    | some choices => r.passing choices
    | none => pure .empty
  -- Exactly one alternative passes: the guards have settled the conflict.
  match passing.toList with
  | [alt] => pure alt
  | _ =>
    Prediction.count r.toQuestion fun c => { c with fallbacks := c.fallbacks + 1 }
    -- From here on nothing is written into the table: what follows depends on the callers.
    let alts := row.configs.conflicting.getD row.configs.alts
    modify (·.deliver (r.report .fullContext stream.index alts false noAlternative))
    let stack ← Prediction.grow r.toQuestion (StackGraph.ofCallers r.net r.callers)
    let start ← Prediction.probe r.toQuestion (r.startSet true stack)
    r.predictFull start

/-! ## Along the table -/

/-- Where a prediction along the table stands. -/
structure Point where
  place : Place
  stream : TokenStream
  /-- The number of symbols looked at. -/
  read : Nat

/-- The event of a cell that has to be computed. -/
def missEvent (r : Request) (p : Place) (v : Symbol) : Event :=
  let number := match p with
    | .row n => n
    | .loose _ => Table.looseNumber
  (((Event.debug "DFA miss").detail "decision" r.decision).detail "state" number).detail "symbol"
    (r.net.symbolName v)

/-- The row of the set that a symbol leads to, if it leads to any. -/
def targetRow (r : Request) (s : ConfigSet) (v : Symbol) : Prediction (Option Row) := do
  match ← Prediction.probe r.toQuestion (r.reach v false s) with
  | none => pure none
  | some next =>
    let ends ←
      -- A set that speaks for one alternative is classified without looking for conflicts.
      if next.commonAlt ≠ noAlternative then pure false
      else Prediction.grow r.toQuestion (next.endsPrediction r.settings.mode r.net)
    pure (some (Row.classify next ends (r.net.state r.entry).transitions.length))

/-- **Computes the place that a symbol leads to,** and writes it into the table. -/
def target (r : Request) (p : Place) (v : Symbol) : Prediction (Option Place) := do
  let t ← Prediction.table r.toQuestion
  match ← r.targetRow (t.row p).configs v with
  | none =>
    -- A dead end is worth remembering too.
    if r.settings.useCache then Prediction.setTable r.toQuestion (t.linkDead p v).2
    pure none
  | some row =>
    if !r.settings.useCache then pure (some (.loose row))
    else
      -- Installing may find an equal row, so the link goes to the place that comes back.
      let place ← Prediction.install r.toQuestion row
      Prediction.setTable r.toQuestion ((← Prediction.table r.toQuestion).link p v place).2
      pure (some place)

/-- The place that a symbol leads to: read from the table where it is known, and computed
otherwise. -/
def next (r : Request) (p : Place) (v : Symbol) : Prediction (Option Place) := do
  let t ← Prediction.table r.toQuestion
  match if r.settings.useCache then t.cell? p v else none with
  | some c =>
    Prediction.count r.toQuestion fun c => { c with hits := c.hits + 1 }
    match c with
    | .row n => pure (some (.row n))
    | .dead => pure none
  | none =>
    Prediction.count r.toQuestion fun c => { c with misses := c.misses + 1 }
    if r.settings.logMisses then Prediction.note (r.missEvent p v)
    r.target p v

/-- One symbol of a prediction along the table. -/
def step (r : Request) (p : Point) : Prediction (Point ⊕ Nat) := do
  let read := p.read + 1
  r.checkLookahead read
  match ← r.next p.place (p.stream.lookAhead 1) with
  | none =>
    Prediction.count r.toQuestion (·.recordSll read)
    let t ← Prediction.table r.toQuestion
    .inr <$> r.deadEnd (t.row p.place).configs p.stream
  | some place =>
    let row := (← Prediction.table r.toQuestion).row place
    if row.needsContext && r.settings.mode != .sll then
      Prediction.count r.toQuestion (·.recordSll read)
      .inr <$> r.escalate row p.stream
    else if row.accepting then
      Prediction.count r.toQuestion (·.recordSll read)
      if row.needsContext && r.settings.reportSllConflicts then
        r.reportAmbiguity p.stream.index (row.configs.conflicting.getD .empty) false row.prediction
      .inr <$> r.answer row p.stream
    else pure (.inl ⟨place, p.stream.consume, read⟩)

/-- The place where the decision begins: the first row of the table, which is computed the first
time. -/
def startPlace (r : Request) : Prediction Place := do
  let t ← Prediction.table r.toQuestion
  match if r.settings.useCache then t.startRow else none with
  | some n => pure (.row n)
  | none =>
    let configs ← Prediction.probe r.toQuestion (r.startSet false StackId.empty)
    if !r.settings.useCache then pure (.loose { configs })
    else
      let place ← Prediction.install r.toQuestion { configs }
      let (place, t) := (← Prediction.table r.toQuestion).setStart place
      Prediction.setTable r.toQuestion t
      pure place

/-- Makes the prediction in the cache as it is. -/
def attempt (r : Request) : Prediction Nat := do
  let count := (← get).cache.tables.size
  if count ≤ r.decision then throw (.unknownDecision r.decision count)
  let place ← r.startPlace
  Run.loop r.step r.fuel ⟨place, r.stream, 0⟩

end Request

namespace Session

/-- The event of a prediction that failed. -/
def failureEvent (decision start : Nat) (e : PredictionError) : Event :=
  (((Event.debug "Prediction failed").detail "decision" decision).detail "start_index"
    start).detail "error" e.message

/-- Renews the cache, unless that was done since the generation that was seen. -/
def renew (s : Session) (seen : Nat) : Session :=
  match s.cache.renew seen with
  | some (cache, event) => { s with cache := cache }.note event
  | none => s

/-- The request for a prediction in a session. -/
def request (s : Session) (settings : PredictionSettings) (host : Oracle) (fuel : Nat)
    (stream : TokenStream) (decision : Nat) (callers : List StateId) : Request :=
  { net := s.cache.net
    host, decision, fuel, settings, callers, stream
    entry := (s.cache.table decision).start
    start := stream.index }

/-- **Predicts an alternative** of a decision for the tokens from the cursor on. `callers` holds
the states that called the active rules, outermost first. -/
def predict (settings : PredictionSettings) (host : Oracle) (fuel : Nat) (stream : TokenStream)
    (decision : Nat) (callers : List StateId) : Prediction Nat := do
  modify (·.count decision fun c => { c with invocations := c.invocations + 1 })
  let r := (← get).request settings host fuel stream decision callers
  -- The generation tells whether the cache was renewed while the prediction ran.
  let seen := (← get).cache.generation
  let first ← r.attempt.outcome
  let result ←
    match first with
    | .error e =>
      if e.isFullGraph then do
        -- The graph is full: forget everything and try exactly once more.
        modify (·.renew seen)
        r.attempt.outcome
      else pure first
    | .ok _ => pure first
  match result with
  | .ok alt => pure alt
  | .error e =>
    modify (·.count decision fun c => { c with errors := c.errors + 1 })
    modify (·.note (failureEvent decision stream.index e))
    throw e

/-- **Whether a prediction needs a number that 32 bits do not hold.** It lays out its first row as
soon as it knows where the decision starts. A blind prediction fails there, before it reads a
symbol. -/
def overflows (settings : PredictionSettings) (host : Oracle) (fuel : Nat) (stream : TokenStream)
    (decision : Nat) (callers : List StateId) (s : Session) : Bool :=
  (s.cache.table decision).width?.isNone &&
    match (predict settings.blind host fuel stream decision callers).from? s with
    | some (.error e, _) => e.isLookahead
    | _ => false

end Session

end AdaptiveLL
