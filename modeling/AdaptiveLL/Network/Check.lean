import AdaptiveLL.Journal.Basic
import AdaptiveLL.Json.Writer
import AdaptiveLL.Network.Document
import AdaptiveLL.Network.Error

/-!
# Checking networks

`Network.check` decides whether the tables of a network fit together: every state number leads to a
state, every rule number to a rule, the decision table and the decision states name each other,
and a lexer has its modes and token types. The first fault found is the answer.
-/

namespace AdaptiveLL

namespace Network

/-- Whether a table entry names a state of the kind it should. -/
def checkKind (net : Network) (s : StateId) (kind : StateKind) (what : String) :
    Except NetworkError Unit :=
  match net.states[s]? with
  | some state =>
    if state.kind = kind then pure () else throw (.malformedState s (what ++ " has the wrong kind"))
  | none => throw (.missingState s s)

/-- Whether a transition of state `s` leads where it may. -/
def checkTransition (net : Network) (s : StateId) (t : Transition) : Except NetworkError Unit := do
  if net.states.size ≤ t.target then throw (.missingState s t.target)
  match t with
  | .rule target rule follow _ =>
    if net.states.size ≤ follow then throw (.missingState s follow)
    if net.ruleStarts[rule]? ≠ some target then
      throw (.malformedState s "rule transition does not target its rule's start state")
  | .precedence .. =>
    if net.isLexer then throw (.unsupported "precedence predicate" "lexer")
  | .action _ _ action _ =>
    if net.isLexer ∧ net.commands.length ≤ action then
      throw (.invalidCommand action net.commands.length)
  | _ => pure ()

/-- Whether the start and the stop of a rule are such states, and its own. -/
def checkRule (net : Network) (rule : Nat) (start stop : StateId) : Except NetworkError Unit := do
  net.checkKind start .ruleStart "rule start table entry"
  net.checkKind stop .ruleStop "rule stop table entry"
  if (net.state start).rule ≠ rule ∨ (net.state stop).rule ≠ rule then
    throw (.malformedState start "rule boundary owned by another rule")

/-- Whether a state knows its place, its rule and its decision, and its transitions are sound. -/
def checkState (net : Network) (i : Nat) (s : State) : Except NetworkError Unit := do
  if s.index ≠ i then throw (.malformedState i "state index does not match position")
  if net.ruleCount ≤ s.rule ∧ s.kind ≠ .tokensStart then
    throw (.invalidRule s.rule net.ruleCount)
  match s.decision with
  | some d => if net.decisions[d]? ≠ some i then throw (.invalidDecision d i)
  | none => pure ()
  s.transitions.forM (net.checkTransition i)

/-- Whether an entry of the decision table names a state that knows the decision. -/
def checkDecision (net : Network) (decision : Nat) (s : StateId) : Except NetworkError Unit :=
  if net.states[s]?.bind State.decision = some decision then pure ()
  else throw (.invalidDecision decision s)

/-- Whether the tables of a lexer are there. -/
def checkLexer (net : Network) : Except NetworkError Unit := do
  if net.ruleTokenTypes.length ≠ net.ruleCount then
    throw (.malformedState 0 "lexer rule token type table size mismatch")
  net.modeStarts.forM fun s => net.checkKind s .tokensStart "mode start table entry"
  if net.modeStarts.isEmpty then throw (.malformedState 0 "lexer automaton has no modes")

/-- **Whether the tables of the network fit together.** -/
def check (net : Network) : Except NetworkError Unit := do
  if net.ruleStarts.size ≠ net.ruleCount ∨ net.ruleStops.size ≠ net.ruleCount then
    throw (.invalidRule (max net.ruleStarts.size net.ruleStops.size) net.ruleCount)
  (net.ruleStarts.toList.zip net.ruleStops.toList).zipIdx.forM fun ((start, stop), rule) =>
    net.checkRule rule start stop
  net.states.toList.zipIdx.forM fun (s, i) => net.checkState i s
  net.decisions.toList.zipIdx.forM fun (s, decision) => net.checkDecision decision s
  if net.isLexer then net.checkLexer

/-! ## Loading -/

/-- The event of a network that was loaded. -/
def loadedEvent (net : Network) : Event :=
  (((Event.info "Automaton loaded" .networkLoaded).detail "grammar" net.name).detail "states"
    net.states.size).detail "decisions" net.decisions.size

/-- **A network from the text of its document,** checked. -/
def ofText? (source : String) : Except NetworkError Network :=
  match (Json.Value.parse? source).bind ofJson? with
  | some net => do
    net.check
    pure net
  | none => throw .unreadable

end Network

end AdaptiveLL
