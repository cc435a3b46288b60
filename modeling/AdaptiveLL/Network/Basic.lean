import AdaptiveLL.Command.Basic
import AdaptiveLL.Guard
import AdaptiveLL.SymbolSet

/-!
# Transition networks

A grammar is run as a network of states. Every rule has a start and a stop state; a rule transition
calls another rule and goes on at its follow state once that rule's stop state is reached. Match
transitions consume one symbol, all others none. A state with several ways on is a decision point
and carries a decision number; its transitions are the alternatives, numbered from one.

A network is read-only. `Network.check` (in `Network.Check`) decides whether its tables fit
together.
-/

namespace AdaptiveLL

/-- The number of a state: its position in the table of states. -/
abbrev StateId := Nat

/-! ## Transitions -/

/-- A way from one state to the next. -/
inductive Transition where
  | epsilon (target : StateId)
  | atom (target : StateId) (label : Symbol)
  | range (target : StateId) (start stop : Symbol)
  | set (target : StateId) (set : SymbolSet)
  | notSet (target : StateId) (set : SymbolSet)
  | wildcard (target : StateId)
  /-- Calls the rule whose start state is `target`, to go on at `follow`. -/
  | rule (target : StateId) (rule : Nat) (follow : StateId) (precedence : Int)
  | predicate (target : StateId) (rule pred : Nat) (contextual : Bool)
  | precedence (target : StateId) (level : Int)
  /-- Runs an action: one of the host in a parser, a command of the network in a lexer. -/
  | action (target : StateId) (rule action : Nat) (contextual : Bool)
deriving DecidableEq, Inhabited

namespace Transition

/-- The state the transition leads to. -/
def target : Transition → StateId
  | epsilon t | atom t _ | range t _ _ | set t _ | notSet t _ | wildcard t | rule t _ _ _
  | predicate t _ _ _ | precedence t _ | action t _ _ _ => t

/-- Whether the transition consumes nothing. -/
def isEpsilon : Transition → Bool
  | epsilon _ | rule .. | predicate .. | precedence .. | action .. => true
  | _ => false

/-- Whether the transition is a call of a rule. -/
def isRule : Transition → Bool
  | rule .. => true
  | _ => false

/-- Whether the transition runs an action. -/
def isAction : Transition → Bool
  | action .. => true
  | _ => false

/-- **Whether the transition consumes the symbol,** in a vocabulary from `lo` to `hi`. -/
def accepts (t : Transition) (v lo hi : Symbol) : Bool :=
  match t with
  | atom _ label => label == v
  | range _ start stop => start ≤ v && v ≤ stop
  | set _ s => s.contains v
  | notSet _ s => lo ≤ v && v ≤ hi && !s.contains v
  | wildcard _ => lo ≤ v && v ≤ hi
  | _ => false

/-- The symbols on the transition; for a complemented set, those it leaves out. -/
def label? : Transition → Option SymbolSet
  | atom _ label => some (.singleton label)
  | range _ start stop => some (.ofRange start stop)
  | set _ s | notSet _ s => some s
  | _ => none

/-- The condition under which the transition may be taken. -/
def guard? : Transition → Option Guard
  | predicate _ owner pred contextual => some (.predicate owner pred contextual)
  | precedence _ level => some (.precedence level)
  | _ => none

/-- The state where a call goes on. -/
def follow? : Transition → Option StateId
  | rule _ _ follow _ => some follow
  | _ => none

/-- The name of the transition's kind. -/
def kind : Transition → String
  | epsilon _ => "epsilon"
  | atom .. => "atom"
  | range .. => "range"
  | set .. => "set"
  | notSet .. => "not_set"
  | wildcard _ => "wildcard"
  | rule .. => "rule"
  | predicate .. => "predicate"
  | precedence .. => "precedence"
  | action .. => "action"

end Transition

/-! ## States -/

/-- The part a state plays. -/
inductive StateKind where
  | basic
  | ruleStart
  | ruleStop
  | blockStart
  | plusBlockStart
  | starBlockStart
  | blockEnd
  | starLoopEntry
  | starLoopBack
  | plusLoopBack
  | loopEnd
  | tokensStart
deriving DecidableEq, Inhabited

namespace StateKind

/-- Every kind, in the order of declaration. -/
def all : List StateKind :=
  [basic, ruleStart, ruleStop, blockStart, plusBlockStart, starBlockStart, blockEnd, starLoopEntry,
    starLoopBack, plusLoopBack, loopEnd, tokensStart]

/-- The name of the kind. -/
def label : StateKind → String
  | basic => "basic"
  | ruleStart => "rule_start"
  | ruleStop => "rule_stop"
  | blockStart => "block_start"
  | plusBlockStart => "plus_block_start"
  | starBlockStart => "star_block_start"
  | blockEnd => "block_end"
  | starLoopEntry => "star_loop_entry"
  | starLoopBack => "star_loop_back"
  | plusLoopBack => "plus_loop_back"
  | loopEnd => "loop_end"
  | tokensStart => "tokens_start"

/-- The kind with a name. -/
def ofLabel? (s : String) : Option StateKind := all.find? (·.label == s)

/-- Whether states of the kind may carry a decision number. -/
def mayDecide : StateKind → Bool
  | blockStart | plusBlockStart | starBlockStart | starLoopEntry | plusLoopBack | tokensStart =>
    true
  | _ => false

end StateKind

/-- A state of the network. -/
structure State where
  index : StateId
  kind : StateKind
  rule : Nat
  transitions : List Transition := []
  /-- The number of the decision taken here. -/
  decision : Option Nat := none
  /-- Whether leaving a loop or an option comes before going through it. -/
  nonGreedy : Bool := false
  /-- The block end of a block start, or the loop-back state of a loop. -/
  partner : Option StateId := none
deriving DecidableEq, Inhabited

namespace State

/-- Whether the state ends its rule. -/
def isRuleStop (s : State) : Bool := s.kind == .ruleStop

/-- Whether a decision is taken at the state. -/
def isDecision (s : State) : Bool := s.decision.isSome

/-- Whether there are ways on and none of them consumes a symbol. A state without ways on does
not count. -/
def onlyEpsilon (s : State) : Bool := !s.transitions.isEmpty && s.transitions.all (·.isEpsilon)

end State

/-! ## Networks -/

/-- What a grammar describes: the characters of tokens or the tokens of a text. -/
inductive GrammarKind where
  | lexer
  | parser
deriving DecidableEq, Inhabited

namespace GrammarKind

/-- The name of the kind. -/
def label : GrammarKind → String
  | lexer => "lexer"
  | parser => "parser"

/-- The kind with a name. -/
def ofLabel? : String → Option GrammarKind
  | "lexer" => some lexer
  | "parser" => some parser
  | _ => none

end GrammarKind

/-- **A transition network** with the tables that lead into it. The tables of modes, token types and
commands are those of a lexer and empty in a parser. -/
structure Network where
  kind : GrammarKind
  name : String
  maxTokenType : Int
  states : Array State
  decisions : Array StateId
  ruleNames : List String
  ruleStarts : Array StateId
  ruleStops : Array StateId
  /-- The names of the token types, by type. -/
  tokenNames : List String := []
  ruleTokenTypes : List Int := []
  modeNames : List String := []
  modeStarts : List StateId := []
  commands : List Command := []
deriving DecidableEq, Inhabited

namespace Network

/-- The state of a number. -/
def state (net : Network) (s : StateId) : State := net.states[s]?.getD default

/-- Whether the network is that of a lexer. -/
def isLexer (net : Network) : Bool := net.kind == .lexer

/-- The number of rules. -/
def ruleCount (net : Network) : Nat := net.ruleNames.length

/-- The state at which a decision is taken. -/
def decisionState? (net : Network) (decision : Nat) : Option State :=
  net.decisions[decision]?.map net.state

/-- The number of the rule with a name. -/
def ruleIndex? (net : Network) (name : String) : Option Nat := net.ruleNames.idxOf? name

/-- The name of a rule. -/
def ruleName (net : Network) (rule : Nat) : String := net.ruleNames[rule]?.getD "<invalid>"

/-- The name of a token type; types without one are numbers. -/
def tokenName (net : Network) (v : Symbol) : String :=
  match if 0 ≤ v then net.tokenNames[v.toNat]? else none with
  | some name => if name.isEmpty then toString v else name
  | none => toString v

/-- The name of a symbol in diagnostics. -/
def symbolName (net : Network) (v : Symbol) : String :=
  if v = Symbol.eof then "<EOF>"
  else match net.kind with
    | .lexer => v.showChar
    | .parser => net.tokenName v

/-- The least symbol of the vocabulary. -/
def firstSymbol (net : Network) : Symbol :=
  if net.isLexer then Symbol.firstChar else Symbol.firstToken

/-- The greatest symbol of the vocabulary. -/
def lastSymbol (net : Network) : Symbol :=
  if net.isLexer then Symbol.lastChar else net.maxTokenType

end Network

end AdaptiveLL
