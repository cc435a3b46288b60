import AdaptiveLL.Json.Reader
import AdaptiveLL.Network.Basic

/-!
# Network documents

The JSON form in which networks are saved. `Network.toJson` writes the members in the order of
declaration and leaves out what has its default: the decision and partner of a state that has
none, and `non_greedy` where it is false. `Network.ofJson?` reads the document back; members that
may be missing stand for their defaults, and a set is taken as its spans are written.
-/

namespace AdaptiveLL

open Json

/-! ## Symbol sets -/

/-- A span as an object. -/
def Span.toJson (s : Span) : Value := .record [("start", .int s.start), ("stop", .int s.stop)]

/-- A span from its document. -/
def Span.ofJson? (v : Value) : Option Span := do
  match ← structureMembers ["start", "stop"] v with
  | [start, stop] =>
    pure ⟨← required Decoder.int32 start, ← required Decoder.int32 stop⟩
  | _ => none

/-- A set as the list of its spans. -/
def SymbolSet.toJson (s : SymbolSet) : Value := .listOf Span.toJson s.spans

/-- A set from its document, as the spans are written. -/
def SymbolSet.ofJson? (v : Value) : Option SymbolSet := (Decoder.list Span.ofJson? v).map .mk

/-! ## Transitions -/

namespace Transition

/-- The transition as a tagged object. -/
def toJson (t : Transition) : Value :=
  let own : List (String × Value) :=
    match t with
    | epsilon _ | wildcard _ => []
    | atom _ label => [("label", .int label)]
    | range _ start stop => [("start", .int start), ("stop", .int stop)]
    | set _ s | notSet _ s => [("set", s.toJson)]
    | rule _ callee follow level =>
      [("rule_index", .nat callee), ("follow_state", .nat follow), ("precedence", .int level)]
    | predicate _ owner pred contextual =>
      [("rule_index", .nat owner), ("pred_index", .nat pred),
        ("is_ctx_dependent", .bool contextual)]
    | precedence _ level => [("precedence", .int level)]
    | action _ owner number contextual =>
      [("rule_index", .nat owner), ("action_index", .nat number),
        ("is_ctx_dependent", .bool contextual)]
  .record ([("kind", .text t.kind), ("target", .nat t.target)] ++ own)

/-- A transition from its document. -/
def ofJson? (v : Value) : Option Transition := do
  let (kind, body) ← taggedMembers v
  let names (own : List String) := structureMembers ("target" :: own) body
  match kind with
  | "epsilon" =>
    match ← names [] with
    | [t] => pure (epsilon (← required Decoder.nat t))
    | _ => none
  | "atom" =>
    match ← names ["label"] with
    | [t, label] => pure (atom (← required Decoder.nat t) (← required Decoder.int32 label))
    | _ => none
  | "range" =>
    match ← names ["start", "stop"] with
    | [t, start, stop] =>
      pure (range (← required Decoder.nat t) (← required Decoder.int32 start)
        (← required Decoder.int32 stop))
    | _ => none
  | "set" =>
    match ← names ["set"] with
    | [t, s] => pure (set (← required Decoder.nat t) (← required SymbolSet.ofJson? s))
    | _ => none
  | "not_set" =>
    match ← names ["set"] with
    | [t, s] => pure (notSet (← required Decoder.nat t) (← required SymbolSet.ofJson? s))
    | _ => none
  | "wildcard" =>
    match ← names [] with
    | [t] => pure (wildcard (← required Decoder.nat t))
    | _ => none
  | "rule" =>
    match ← names ["rule_index", "follow_state", "precedence"] with
    | [t, r, follow, p] =>
      pure (rule (← required Decoder.nat t) (← required Decoder.nat r)
        (← required Decoder.nat follow) (← required Decoder.int32 p))
    | _ => none
  | "predicate" =>
    match ← names ["rule_index", "pred_index", "is_ctx_dependent"] with
    | [t, r, p, c] =>
      pure (predicate (← required Decoder.nat t) (← required Decoder.nat r)
        (← required Decoder.nat p) (← required Decoder.bool c))
    | _ => none
  | "precedence" =>
    match ← names ["precedence"] with
    | [t, p] => pure (precedence (← required Decoder.nat t) (← required Decoder.int32 p))
    | _ => none
  | "action" =>
    match ← names ["rule_index", "action_index", "is_ctx_dependent"] with
    | [t, r, a, c] =>
      pure (action (← required Decoder.nat t) (← required Decoder.nat r)
        (← required Decoder.nat a) (← required Decoder.bool c))
    | _ => none
  | _ => none

end Transition

/-! ## States -/

namespace State

/-- The state as an object. -/
def toJson (s : State) : Value :=
  .record (
    [("index", .nat s.index), ("kind", .text s.kind.label), ("rule_index", .nat s.rule),
      ("transitions", .listOf Transition.toJson s.transitions)]
    ++ (match s.decision with
      | some d => [("decision", .nat d)]
      | none => [])
    ++ (if s.nonGreedy then [("non_greedy", .bool true)] else [])
    ++ (match s.partner with
      | some p => [("partner", .nat p)]
      | none => []))

/-- A value nested no deeper than a limit. -/
def shallow (limit : Nat) (decode : Decoder Transition) : Decoder Transition := fun v =>
  if v.height ≤ limit then decode v else none

/-- A state from its document. A transition may be nested as deep as the limit allows. -/
def ofJson? (limit : Nat) (v : Value) : Option State := do
  match ← structureMembers
    ["index", "kind", "rule_index", "transitions", "decision", "non_greedy", "partner"] v with
  | [index, kind, rule, transitions, decision, nonGreedy, partner] =>
    pure {
      index := ← required Decoder.nat index
      kind := ← required (Decoder.name StateKind.ofLabel?) kind
      rule := ← required Decoder.nat rule
      transitions := ← required (Decoder.list (shallow limit Transition.ofJson?)) transitions
      decision := ← defaulting none (Decoder.nullable Decoder.nat) decision
      nonGreedy := ← defaulting false Decoder.bool nonGreedy
      partner := ← defaulting none (Decoder.nullable Decoder.nat) partner }
  | _ => none

end State

/-! ## Networks -/

namespace Network

/-- The deepest nesting a document may have. -/
def maxNesting : Nat := 127

/-- The network as an object. -/
def toJson (net : Network) : Value :=
  .record [
    ("grammar_type", .text net.kind.label),
    ("grammar_name", .text net.name),
    ("max_token_type", .int net.maxTokenType),
    ("states", .listOf State.toJson net.states.toList),
    ("decision_to_state", .listOf .nat net.decisions.toList),
    ("rule_names", .listOf .text net.ruleNames),
    ("rule_to_start_state", .listOf .nat net.ruleStarts.toList),
    ("rule_to_stop_state", .listOf .nat net.ruleStops.toList),
    ("token_names", .listOf .text net.tokenNames),
    ("rule_to_token_type", .listOf .int net.ruleTokenTypes),
    ("mode_names", .listOf .text net.modeNames),
    ("mode_to_start_state", .listOf .nat net.modeStarts),
    ("lexer_actions", .listOf Command.toJson net.commands)]

/-- A command nested no deeper than the document allows where commands stand. -/
def shallowCommand : Decoder Command := fun v =>
  if v.height + 2 ≤ maxNesting then Command.ofJson? v else none

/-- **A network from its document.** Its tables are not checked. -/
def ofJson? (v : Value) : Option Network := do
  match ← structureMembers
    ["grammar_type", "grammar_name", "max_token_type", "states", "decision_to_state", "rule_names",
      "rule_to_start_state", "rule_to_stop_state", "token_names", "rule_to_token_type",
      "mode_names", "mode_to_start_state", "lexer_actions"] v with
  | [kind, name, maxTokenType, states, decisions, ruleNames, ruleStarts, ruleStops, tokenNames,
      ruleTokenTypes, modeNames, modeStarts, commands] =>
    pure {
      kind := ← required (Decoder.name GrammarKind.ofLabel?) kind
      name := ← required Decoder.text name
      maxTokenType := ← required Decoder.int32 maxTokenType
      states := (← required (Decoder.list (State.ofJson? (maxNesting - 4))) states).toArray
      decisions := (← required (Decoder.list Decoder.nat) decisions).toArray
      ruleNames := ← required (Decoder.list Decoder.text) ruleNames
      ruleStarts := (← required (Decoder.list Decoder.nat) ruleStarts).toArray
      ruleStops := (← required (Decoder.list Decoder.nat) ruleStops).toArray
      tokenNames := ← defaulting [] (Decoder.list Decoder.text) tokenNames
      ruleTokenTypes := ← defaulting [] (Decoder.list Decoder.int32) ruleTokenTypes
      modeNames := ← defaulting [] (Decoder.list Decoder.text) modeNames
      modeStarts := ← defaulting [] (Decoder.list Decoder.nat) modeStarts
      commands := ← defaulting [] (Decoder.list shallowCommand) commands }
  | _ => none

end Network

end AdaptiveLL
