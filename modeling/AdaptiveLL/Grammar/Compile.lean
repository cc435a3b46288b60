import AdaptiveLL.Grammar.Element
import AdaptiveLL.Network.Check

/-!
# Compiling grammars

`Grammar.compile` lays out the network of a grammar. Each element becomes a fragment with an entry
and an exit. Alternatives fan out from a block start and join at a block end; a starred block is
entered from a loop entry and left through a loop end, a repeated block is left from a loop-back
state. Decisions are numbered as they are laid out, the start states of lexer modes first. In a
parser network the stop state of a rule leads on to every state at which a call of the rule goes
on, so that a prediction without a call stack can follow all of them.
-/

namespace AdaptiveLL

/-- The entry and the exit of a fragment. -/
structure Fragment where
  entry : StateId
  exit : StateId
deriving Inhabited

/-- A network in the making. -/
structure Draft where
  kind : GrammarKind
  states : Array State := #[]
  decisions : Array StateId := #[]
  ruleNames : List String := []
  ruleStarts : Array StateId := #[]
  ruleStops : Array StateId := #[]
  commands : List Command := []
  maxTokenType : Int := 0
deriving Inhabited

/-- Laying out a part of a network. -/
abbrev Layout := EStateM NetworkError Draft

namespace Layout

/-! ## States and transitions -/

/-- A new state of a rule. -/
def newState (kind : StateKind) (rule : Nat) : Layout StateId :=
  modifyGet fun d =>
    (d.states.size, { d with states := d.states.push { index := d.states.size, kind, rule } })

/-- Changes a state. -/
def update (s : StateId) (f : State → State) : Layout Unit :=
  modify fun d => { d with states := d.states.modify s f }

/-- Adds a transition after those the state has. -/
def link (s : StateId) (t : Transition) : Layout Unit :=
  update s fun state => { state with transitions := state.transitions ++ [t] }

/-- Adds an epsilon transition. -/
def join (s target : StateId) : Layout Unit := link s (.epsilon target)

/-- Adds an epsilon transition before those the state has. -/
def joinFirst (s target : StateId) : Layout Unit :=
  update s fun state => { state with transitions := .epsilon target :: state.transitions }

/-- Gives a state the next decision number. -/
def decide (s : StateId) : Layout Unit := do
  let number := (← get).decisions.size
  update s fun state => { state with decision := some number }
  modify fun d => { d with decisions := d.decisions.push s }

/-- A fragment of one transition. -/
def single (rule : Nat) (t : StateId → Transition) : Layout Fragment := do
  let entry ← newState .basic rule
  let exit ← newState .basic rule
  link entry (t exit)
  pure ⟨entry, exit⟩

/-! ## Leaves -/

/-- Refuses a construct that belongs to the other kind of grammar. -/
def require (kind : GrammarKind) (construct : String) : Layout Unit := do
  let d ← get
  if d.kind ≠ kind then throw (.unsupported construct d.kind.label)

/-- Notes that a parser grammar uses a token type. -/
def noteToken (v : Symbol) : Layout Unit :=
  modify fun d =>
    if d.kind = .parser then { d with maxTokenType := max d.maxTokenType v } else d

/-- The number of a command in the table of commands; equal commands share one. -/
def intern (c : Command) : Layout Nat :=
  modifyGet fun d =>
    match d.commands.idxOf? c with
    | some i => (i, d)
    | none => (d.commands.length, { d with commands := d.commands ++ [c] })

/-- A chain of characters from a state on; its last state is the answer. -/
def chain (rule : Nat) : StateId → List Char → Layout StateId
  | s, [] => pure s
  | s, c :: rest => do
    let next ← newState .basic rule
    link s (.atom next c.toNat)
    chain rule next rest

/-- The fragment of a text. -/
def literal (rule : Nat) (text : String) : Layout Fragment := do
  require .lexer "string literal"
  match text.toList with
  | [] => single rule .epsilon
  | cs => do
    let entry ← newState .basic rule
    let exit ← chain rule entry cs
    pure ⟨entry, exit⟩

/-- The fragment of a call. -/
def call (rule : Nat) (name : String) (precedence : Int) : Layout Fragment := do
  let d ← get
  match d.ruleNames.idxOf? name with
  | none => throw (.undefinedRule name)
  | some callee =>
    let entry ← newState .basic rule
    let exit ← newState .basic rule
    link entry (.rule ((d.ruleStarts[callee]?).getD 0) callee exit precedence)
    pure ⟨entry, exit⟩

/-- The fragment of a command. -/
def command (rule : Nat) (c : Command) : Layout Fragment := do
  let i ← intern c
  single rule (.action · rule i false)

/-! ## Loops -/

/-- Leads a decision state into its block and out of it: the block comes first if it is greedy. -/
def branch (s block exit : StateId) (greedy : Bool) : Layout Unit :=
  if greedy then do
    join s block
    join s exit
  else do
    join s exit
    join s block

/-- Makes a block skippable. -/
def optional (block : Fragment) (greedy : Bool) : Layout Fragment := do
  if greedy then join block.entry block.exit else joinFirst block.entry block.exit
  update block.entry fun s => { s with nonGreedy := !greedy }
  decide block.entry
  pure block

/-- Makes a block repeatable, any number of times. -/
def star (rule : Nat) (block : Fragment) (several greedy : Bool) : Layout Fragment := do
  if several then decide block.entry
  -- The entry decides between one more round and the exit, before every round.
  let entry ← newState .starLoopEntry rule
  let back ← newState .starLoopBack rule
  let exit ← newState .loopEnd rule
  update exit fun s => { s with partner := some back }
  update entry fun s => { s with partner := some back, nonGreedy := !greedy }
  branch entry block.entry exit greedy
  join block.exit back
  join back entry
  decide entry
  pure ⟨entry, exit⟩

/-- Makes a block repeatable, at least once. -/
def plus (rule : Nat) (block : Fragment) (several greedy : Bool) : Layout Fragment := do
  if several then decide block.entry
  let back ← newState .plusLoopBack rule
  let exit ← newState .loopEnd rule
  update exit fun s => { s with partner := some back }
  update back fun s => { s with nonGreedy := !greedy }
  join block.exit back
  -- The decision comes after the first round, so the block is passed at least once.
  branch back block.entry exit greedy
  decide back
  pure ⟨block.entry, exit⟩

/-! ## Elements -/

/-- A block of alternatives between a start state and a block end, laid out by `fill`. -/
def block (rule : Nat) (kind : StateKind) (fill : Fragment → Layout Unit) : Layout Fragment := do
  let entry ← newState kind rule
  let exit ← newState .blockEnd rule
  update entry fun s => { s with partner := some exit }
  fill ⟨entry, exit⟩
  pure ⟨entry, exit⟩

/-- Makes a fragment one alternative of a block. -/
def attach (block alternative : Fragment) : Layout Unit := do
  join block.entry alternative.entry
  join alternative.exit block.exit

/-- Leads from an exit through fragments one after the other; the last exit is the answer. -/
def connect : StateId → List Fragment → Layout StateId
  | exit, [] => pure exit
  | exit, next :: rest => do
    join exit next.entry
    connect next.exit rest

mutual

/-- **Lays out an element** of a rule. The alternatives of a choice that is made optional or
repeated are the alternatives of the block itself. -/
def element (rule : Nat) : Element → Layout Fragment
  | .token v => do
    noteToken v
    single rule (.atom · v)
  | .range start stop => do
    noteToken stop
    single rule (.range · start stop)
  | .set s => do
    s.spans.getLast?.forM fun span => noteToken span.stop
    single rule (.set · s)
  | .notSet s => single rule (.notSet · s)
  | .wildcard => single rule .wildcard
  | .literal text => literal rule text
  | .ruleRef name precedence => call rule name precedence
  | .seq [] => single rule .epsilon
  | .seq (e :: rest) => do
    let first ← element rule e
    let others ← sequence rule rest
    let exit ← connect first.exit others
    pure ⟨first.entry, exit⟩
  | .alt [] => single rule .epsilon
  | .alt [e] => element rule e
  | .alt (e :: e' :: rest) => do
    let choice ← block rule .blockStart fun b => do
      let body ← element rule e
      attach b body
      alternatives rule (e' :: rest) b
    decide choice.entry
    pure choice
  | .optional (.alt (e :: rest)) greedy => do
    optional (← block rule .blockStart (alternatives rule (e :: rest))) greedy
  | .optional body greedy => do
    optional (← block rule .blockStart fun b => element rule body >>= attach b) greedy
  | .star (.alt (e :: rest)) greedy => do
    star rule (← block rule .starBlockStart (alternatives rule (e :: rest))) (!rest.isEmpty) greedy
  | .star body greedy => do
    star rule (← block rule .starBlockStart fun b => element rule body >>= attach b) false greedy
  | .plus (.alt (e :: rest)) greedy => do
    plus rule (← block rule .plusBlockStart (alternatives rule (e :: rest))) (!rest.isEmpty) greedy
  | .plus body greedy => do
    plus rule (← block rule .plusBlockStart fun b => element rule body >>= attach b) false greedy
  | .predicate pred contextual => single rule (.predicate · rule pred contextual)
  | .precedence level => do
    require .parser "precedence predicate"
    single rule (.precedence · level)
  | .action action => do
    if (← get).kind = .lexer then command rule (.custom rule action)
    else single rule (.action · rule action false)
  | .command c => do
    require .lexer "lexer command"
    command rule c
  | .epsilon => single rule .epsilon
termination_by structural e => e

/-- Lays out the elements of a sequence. -/
def sequence (rule : Nat) : List Element → Layout (List Fragment)
  | [] => pure []
  | e :: rest => do
    let first ← element rule e
    let others ← sequence rule rest
    pure (first :: others)
termination_by structural l => l

/-- Lays out the alternatives of a block. -/
def alternatives (rule : Nat) : List Element → Fragment → Layout Unit
  | [], _ => pure ()
  | e :: rest, b => do
    let body ← element rule e
    attach b body
    alternatives rule rest b
termination_by structural l => l

end

/-! ## Whole grammars -/

/-- The start state of a lexer mode, which is a decision. -/
def modeStart (_ : String) : Layout StateId := do
  let s ← newState .tokensStart 0
  decide s
  pure s

/-- The start and the stop state of a rule. -/
def ruleEnds (rule : Nat) : Layout Unit := do
  let start ← newState .ruleStart rule
  let stop ← newState .ruleStop rule
  modify fun d =>
    { d with ruleStarts := d.ruleStarts.push start, ruleStops := d.ruleStops.push stop }

/-- The body of a rule, between its start and its stop state. -/
def ruleBody (index : Nat) (r : Rule) : Layout Unit := do
  let body ← element index r.body
  let d ← get
  join ((d.ruleStarts[index]?).getD 0) body.entry
  join body.exit ((d.ruleStops[index]?).getD 0)

/-- Makes a token rule an alternative of its mode. -/
def tokenRule (modeStarts : List StateId) (index : Nat) (r : Rule) : Layout Unit :=
  r.tokenType.forM fun type => do
    modify fun d => { d with maxTokenType := max d.maxTokenType type }
    join ((modeStarts[r.mode]?).getD 0) (((← get).ruleStarts[index]?).getD 0)

/-- The links from the stop state of each called rule to the states at which its calls go on. -/
def followLinks (d : Draft) : List (StateId × StateId) :=
  d.states.toList.flatMap fun s => s.transitions.filterMap fun t =>
    match t with
    | .rule _ rule follow _ => some ((d.ruleStops[rule]?).getD 0, follow)
    | _ => none

/-- Lays out a grammar; the start states of its modes are the answer. -/
def grammar (g : Grammar) : Layout (List StateId) := do
  let modeStarts ← if g.kind = .lexer then g.modes.mapM modeStart else pure []
  -- All rules get their ends first, so that a call can refer to a rule further down.
  (List.range g.rules.length).forM ruleEnds
  g.rules.zipIdx.forM fun (r, i) => ruleBody i r
  if g.kind = .lexer then g.rules.zipIdx.forM fun (r, i) => tokenRule modeStarts i r
  -- The end of a rule leads back to every place it is called from.
  else (followLinks (← get)).forM fun link => join link.1 link.2
  pure modeStarts

end Layout

namespace Grammar

/-- The first name that an earlier rule has already. -/
def repeatedName? : List String → List String → Option String
  | _, [] => none
  | earlier, name :: rest =>
    if earlier.contains name then some name else repeatedName? (name :: earlier) rest

/-- The draft with which laying out a grammar begins. -/
def draft (g : Grammar) : Draft :=
  { kind := g.kind
    ruleNames := g.rules.map Rule.name
    maxTokenType := (g.tokenNames.length - 1 : Nat) }

/-- The network of a finished draft. -/
def network (g : Grammar) (modeStarts : List StateId) (d : Draft) : Network :=
  { kind := g.kind
    name := g.name
    maxTokenType := d.maxTokenType
    states := d.states
    decisions := d.decisions
    ruleNames := g.rules.map Rule.name
    ruleStarts := d.ruleStarts
    ruleStops := d.ruleStops
    tokenNames := g.tokenNames
    ruleTokenTypes :=
      if g.kind = .lexer then g.rules.map fun r => r.tokenType.getD Symbol.noToken else []
    modeNames := if g.kind = .lexer then g.modes else []
    modeStarts := modeStarts
    commands := d.commands }

/-- **The network of a grammar.** Rule names have to differ, every call has to name a rule, and
constructs have to fit the kind of the grammar. -/
def compile (g : Grammar) : Except NetworkError Network :=
  match repeatedName? [] (g.rules.map Rule.name) with
  | some name => throw (.duplicateRule name)
  | none =>
    match (Layout.grammar g).run g.draft with
    | .error e _ => throw e
    | .ok modeStarts d => do
      let net := g.network modeStarts d
      net.check
      pure net

end Grammar

/-- The event of a network that was compiled. -/
def Network.builtEvent (net : Network) : Event :=
  ((((Event.info "Automaton constructed" .networkBuilt).detail "grammar" net.name).detail "type"
    net.kind.label).detail "states" net.states.size).detail "decisions" net.decisions.size

end AdaptiveLL
