import AdaptiveLL.Network.Lookahead
import AdaptiveLL.Parsing.Error
import AdaptiveLL.Parsing.Trace
import AdaptiveLL.Prediction.Predict

/-!
# Parsing

`Parser.parse` parses a stream of tokens straight from the network. It follows the only transition
of a plain state, predicts an alternative at every decision with the call stack as it is, and
traces what it does. A precedence test is answered by the activation it is met in: the level of an
operator has to reach the level with which the rule was called.
-/

namespace AdaptiveLL

/-- A rule that is being parsed. -/
structure Activation where
  rule : Nat
  /-- Where the caller goes on; the start rule has no caller. -/
  follow : Option StateId
  /-- The least level of an operator that may continue the rule. -/
  precedence : Int
deriving DecidableEq, Inhabited

/-- With what a parse works: the settings of its predictions, the answers of its host, its ceilings,
and the number of steps after which a loop gives up. -/
structure ParseSetup where
  settings : PredictionSettings
  host : Oracle
  maxDepth : Nat
  maxEvents : Nat
  fuel : Nat
deriving Inhabited

/-- The setup of a parse whose predictions may not look at a single symbol. -/
def ParseSetup.blind (setup : ParseSetup) : ParseSetup :=
  { setup with settings := setup.settings.blind }

/-- A parser: its session and its tokens. -/
structure Parser where
  session : Session
  stream : TokenStream
deriving Inhabited

/-- A part of a parse. -/
abbrev Parsing := Run ParseError Parser

/-- Where a parse stands. -/
structure Walk where
  state : StateId
  /-- The rules that are being parsed, the innermost first. -/
  frames : List Activation
  /-- The states that called them, the innermost first. -/
  callers : List StateId
  trace : ParseTrace
deriving Inhabited

namespace Walk

/-- The level that an operator has to reach here. -/
def precedence (w : Walk) : Int := (w.frames.head?.map Activation.precedence).getD 0

/-- The walk with one more event. -/
def push (w : Walk) (e : ParseEvent) : Walk := { w with trace := w.trace.push e }

end Walk

namespace Parser

/-- The session after a prediction, in which the host was not asked for precedence. -/
def settle (s : Session) : Session := { s with callbacks := s.callbacks.filter Callback.isAsked }

/-- Predicts an alternative of a decision. -/
def predict (setup : ParseSetup) (w : Walk) (decision : Nat) : Parsing Nat :=
  ExceptT.mk fun p => do
    let (r, s) ← (Session.predict setup.settings (setup.host.atLevel w.precedence) setup.fuel
      p.stream decision w.callers.reverse).from? p.session
    pure (r.mapError .prediction, { p with session := settle s })

/-- The error of a token that is none of the expected ones. -/
def mismatch (net : Network) (p : Parser) (w : Walk) : ParseError :=
  .mismatched p.stream.index (net.symbolName (p.stream.lookAhead 1))
    ((net.expectedTokens w.state w.callers.reverse).render net.symbolName)

/-- The error of a guard that does not hold. -/
def failed (net : Network) (p : Parser) (rule : Nat) (g : Guard) : ParseError :=
  .failedPredicate (net.ruleName rule) g.render p.stream.index

/-- Notes a callback to the host. -/
def call (c : Callback) (p : Parser) : Parser :=
  { p with session := { p.session with callbacks := p.session.callbacks ++ [c] } }

/-- Leaves the innermost rule. The answer is where to go on, or the trace of the parse. -/
def leave (w : Walk) : Parsing (Walk ⊕ ParseTrace) := do
  match w.frames with
  | [] => pure (.inr w.trace)
  | f :: frames =>
    let w := { w.push (.exit f.rule (← get).stream.index) with frames := frames }
    match f.follow with
    | some follow => pure (.inl { w with state := follow, callers := w.callers.tail })
    | none => pure (.inr w.trace)

/-- Chooses an alternative at a state; a plain state has only one. -/
def choose (setup : ParseSetup) (state : State) (w : Walk) : Parsing (Walk × Nat) := do
  match state.decision with
  | some decision =>
    -- A decision with a single way out needs no prediction.
    if 1 < state.transitions.length then
      let alt ← predict setup w decision
      pure (w.push (.choose decision alt (← get).stream.index), alt)
    else pure (w, 1)
  | none => pure (w, 1)

/-- Consumes the current token, which has to fit the transition. -/
def consume (net : Network) (w : Walk) (t : Transition) : Parsing Walk := do
  let p ← get
  let v := p.stream.lookAhead 1
  if t.accepts v Symbol.firstToken net.maxTokenType then
    set { p with stream := p.stream.consume }
    pure (w.push (.consume v p.stream.index))
  else throw (mismatch net p w)

/-- Calls a rule. -/
def enter (setup : ParseSetup) (w : Walk) (rule : Nat) (follow : StateId) (precedence : Int) :
    Parsing Walk := do
  -- The start rule counts as an activation as well.
  if setup.maxDepth ≤ w.frames.length then throw (.callStackOverflow setup.maxDepth)
  else
    let w := w.push (.enter rule (← get).stream.index)
    pure { w with
      frames := ⟨rule, some follow, precedence⟩ :: w.frames
      callers := w.state :: w.callers }

/-- **Takes a transition.** -/
def take (setup : ParseSetup) (net : Network) (state : State) (w : Walk) (t : Transition) :
    Parsing Walk :=
  match t with
  | .epsilon _ => pure w
  | .atom .. | .range .. | .set .. | .notSet .. | .wildcard _ => consume net w t
  | .rule _ rule follow precedence => enter setup w rule follow precedence
  | .predicate _ rule pred contextual => do
    let p ← get
    let g := Guard.predicate rule pred contextual
    set (call (.predicate rule pred p.stream.index) p)
    if (g.put setup.host p.stream.index p.session.callbacks).1 then pure w
    else throw (failed net p rule g)
  | .precedence _ level => do
    if w.precedence ≤ level then pure w
    else throw (failed net (← get) state.rule (.precedence level))
  | .action _ rule action _ => do
    modify fun p => call (.action rule action p.stream.index) p
    pure w

/-- One state of a parse. -/
def step (setup : ParseSetup) (net : Network) (w : Walk) : Parsing (Walk ⊕ ParseTrace) := do
  let state := net.state w.state
  if state.isRuleStop then leave w
  else
    let (w, alt) ← choose setup state w
    match state.transitions[alt - 1]? with
    | none => throw (mismatch net (← get) w)
    | some t =>
      let w ← take setup net state w t
      pure (.inl { w with state := t.target })

/-- The walk at the beginning of a rule. -/
def begin (setup : ParseSetup) (net : Network) (rule index : Nat) : Walk :=
  { state := net.ruleStarts[rule]?.getD 0
    frames := [⟨rule, none, 0⟩]
    callers := []
    trace := ({ maxEvents := setup.maxEvents } : ParseTrace).push (.enter rule index) }

/-- The event of a parse that succeeded. -/
def parsedEvent (rule : String) (s : TokenStream) (start : Nat) (t : ParseTrace) : Event :=
  ((((Event.info "Parse completed" .parsed).detail "rule" rule).detail "source" s.name).detail
    "tokens" (s.index - start)).detail "events" t.events.size

/-- The event of a parse that failed. -/
def failedEvent (rule : String) (s : TokenStream) (e : ParseError) : Event :=
  (((Event.error e.code "Parse failed").detail "rule" rule).detail "source" s.name).detail "error"
    e.message

/-- Writes an event into the journal. -/
def note (e : Event) (p : Parser) : Parser := { p with session := p.session.note e }

/-- **Parses a rule** from the cursor on. Afterwards the cursor is behind the last token that was
matched. -/
def parse (setup : ParseSetup) (rule : String) : Parsing ParseTrace := do
  let p ← get
  let net := p.session.cache.net
  match net.ruleIndex? rule with
  | none => throw (.unknownRule rule)
  | some i =>
    let start := p.stream.index
    match ← (Run.loop (step setup net) setup.fuel (begin setup net i start)).outcome with
    | .ok trace =>
      modify fun p => note (parsedEvent rule p.stream start trace) p
      pure trace
    | .error e =>
      modify fun p => note (failedEvent rule p.stream e) p
      throw e

/-- Whether a parse needs a number that 32 bits do not hold: its first prediction does, if it makes
one, since all tables of a parser are of one width. -/
def overflows (setup : ParseSetup) (rule : String) (p : Parser) : Bool :=
  p.session.cache.tables.any (·.width?.isNone) &&
    match (parse setup.blind rule).from? p with
    | some (.error e, _) => e.isLookahead
    | _ => false

/-- A setup whose ceilings are not above the fixed ones. -/
def setup (settings : PredictionSettings) (host : Oracle) (fuel : Nat)
    (maxDepth : Nat := Limits.callStack) (maxEvents : Nat := Limits.traceEvents) : ParseSetup :=
  { settings, host, fuel
    maxDepth := min maxDepth Limits.callStack
    maxEvents := min maxEvents Limits.traceEvents }

end Parser

end AdaptiveLL
