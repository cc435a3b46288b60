import AdaptiveLL.Lexing.Scan
import AdaptiveLL.Token.Stream

/-!
# The lexer

The lexer turns a text into tokens. It asks its scanner for the longest match in the current mode,
runs the commands of the match and does what they order: emit the token, drop it, or keep it as the
beginning of the next one. Modes can be stacked.
-/

namespace AdaptiveLL

namespace Token

/-- The type that a command sets to drop the match. -/
def skipped : Int := -3

/-- The type that a command sets to keep the match as the beginning of the next one. -/
def continued : Int := -2

end Token

/-- What a lexer has done so far. -/
structure LexMetrics where
  tokens : Nat := 0
  skipped : Nat := 0
  offChannel : Nat := 0
  errors : Nat := 0
  longestToken : Nat := 0
deriving DecidableEq, Inhabited

namespace LexMetrics

/-- Counts a token. -/
def record (m : LexMetrics) (t : Token) : LexMetrics :=
  { m with
    tokens := m.tokens + 1
    offChannel := if t.channel = defaultChannel then m.offChannel else m.offChannel + 1
    longestToken := max m.longestToken (t.stop - t.start) }

/-- The counters as an object. -/
def toJson (m : LexMetrics) : Json.Value :=
  .record [("tokens", .nat m.tokens), ("skipped", .nat m.skipped),
    ("off_channel", .nat m.offChannel), ("errors", .nat m.errors),
    ("longest_token", .nat m.longestToken)]

end LexMetrics

/-- The mode in which a lexer begins. -/
def defaultMode : Nat := 0

/-- **A lexer.** -/
structure Lexer where
  scanner : Scanner
  mode : Nat := defaultMode
  /-- The modes to return to, the next one first. -/
  modeStack : List Nat := []
  /-- Where the token being built begins. -/
  start : Position
  /-- The type that a command has set for the token being built. -/
  type : Option Int := none
  channel : Int := defaultChannel
  /-- Whether the end of the input was emitted. -/
  ended : Bool := false
  /-- The number of tokens emitted. -/
  emitted : Nat := 0
  metrics : LexMetrics := {}
deriving Inhabited

/-- With what a lexer works: its settings, the answers of its host, and the number of steps after
which a loop gives up. -/
structure LexSetup where
  settings : LexerSettings
  host : Oracle
  fuel : Nat
deriving Inhabited

/-- A part of the work of a lexer. -/
abbrev Lexing := Run LexError Lexer

namespace Lexer

/-- The lexer of a cache for a text. -/
def new (cache : Cache) (stream : CharStream) : Lexer :=
  { scanner := { cache, stream }, start := ⟨stream.index, 1, 0⟩ }

/-- The text with its cursor. -/
def stream (l : Lexer) : CharStream := l.scanner.stream

/-- Writes an event into the journal. -/
def note (l : Lexer) (e : Event) : Lexer := { l with scanner := l.scanner.note e }

/-- Begins again at the start of the text, in the default mode. -/
def reset (l : Lexer) : Lexer :=
  { l with
    scanner := { l.scanner with stream := l.scanner.stream.seek 0, line := 1, column := 0 }
    mode := defaultMode
    modeStack := []
    type := none
    channel := defaultChannel
    ended := false
    emitted := 0
    metrics := {} }

/-! ## Modes -/

/-- Whether there is such a mode. -/
def hasMode (l : Lexer) (mode : Nat) : Bool := mode < l.scanner.cache.net.modeStarts.length

/-- Goes to a mode. -/
def setMode (mode : Nat) : EStateM LexError Lexer Unit := fun l =>
  if l.hasMode mode then .ok () { l with mode := mode } else .error (.unknownMode mode) l

/-- Goes to a mode and remembers the current one. -/
def pushMode (mode : Nat) : EStateM LexError Lexer Unit := fun l =>
  if !l.hasMode mode then .error (.unknownMode mode) l
  else if Limits.modeStack ≤ l.modeStack.length then
    .error (.modeStackOverflow Limits.modeStack) l
  else .ok () { l with mode := mode, modeStack := l.mode :: l.modeStack }

/-- Returns to the mode remembered last. -/
def popMode : EStateM LexError Lexer Nat := fun l =>
  match l.modeStack with
  | [] => .error .emptyModeStack l
  | mode :: rest => .ok mode { l with mode := mode, modeStack := rest }

/-! ## Switches -/

/-- Sets the type of the token being built. -/
def setType (type : Int) (l : Lexer) : Lexer := { l with type := some type }

/-- Puts the input at a position. Line and column stay as they are. -/
def seek (index : Nat) (l : Lexer) : Lexer :=
  { l with scanner := { l.scanner with stream := l.scanner.stream.seek index } }

/-- Notes a callback to the host. -/
def call (c : Callback) (l : Lexer) : Lexer :=
  { l with scanner := { l.scanner with callbacks := l.scanner.callbacks ++ [c] } }

/-- **The switches through which commands act on the lexer.** -/
def control : Control Lexer where
  setType := setType
  setChannel channel l := { l with channel := channel }
  setMode := setMode
  pushMode := pushMode
  popMode := popMode
  skip := setType Token.skipped
  more := setType Token.continued
  custom rule action l := l.call (.action rule action l.stream.index)
  position l := l.stream.index
  seek := seek

/-- Throws switches as a part of the lexer's work. -/
def operate {α : Type} (m : EStateM LexError Lexer α) : Lexing α :=
  Run.ofStep fun l =>
    match m.run l with
    | .ok a l => (.ok a, l)
    | .error e l => (.error e, l)

/-! ## Emitting -/

/-- The token that ends the input here. -/
def eofToken (l : Lexer) : Token :=
  { Token.endOfInput l.stream.index l.scanner.line l.scanner.column with index := l.emitted }

/-- The token being built, which ends at the cursor. -/
def token (l : Lexer) (type : Int) : Token :=
  { type
    channel := l.channel
    start := l.start.index
    stop := l.stream.index
    text := l.stream.text l.start.index l.stream.index
    line := l.start.line
    column := l.start.column
    index := l.emitted }

/-- The event of a token that was emitted. -/
def tokenEvent (l : Lexer) (t : Token) : Event :=
  ((Event.debug "Token emitted").detail "token" t).detail "mode" l.mode

/-- Emits a token. -/
def emit (setup : LexSetup) (t : Token) (l : Lexer) : Lexer :=
  let l := { l with emitted := l.emitted + 1, metrics := l.metrics.record t }
  if setup.settings.logTokens then l.note (l.tokenEvent t) else l

/-! ## Tokens -/

/-- Begins a token at the cursor. -/
def begin (l : Lexer) : Lexer :=
  { l with channel := defaultChannel, start := l.scanner.position }

/-- One match, with the commands it orders; the answer is the type of the token. -/
def matchOnce (setup : LexSetup) : Lexing Int := do
  modify fun l => { l with type := none }
  let mode := (← get).mode
  let m ← Run.zoom Lexer.scanner (fun s l => { l with scanner := s })
    (Scanner.matchToken setup.settings setup.host setup.fuel mode)
  -- The commands run after the match, so they see the cursor behind it.
  m.routine.forM fun r => operate (r.run control m.start)
  pure ((← get).type.getD m.type)

/-- One match of a token. `fresh` says whether a token begins with it; the answer is the token, or
whether the next match begins one. -/
def nextStep (setup : LexSetup) (fresh : Bool) : Lexing (Bool ⊕ Token) := do
  let l ← get
  if fresh && (l.ended || l.stream.lookAhead 1 == Symbol.eof) then
    set { l with ended := true }
    pure (.inr l.eofToken)
  else
    if fresh then modify begin
    let type ← matchOnce setup
    if type = Token.skipped then
      modify fun l =>
        { l with metrics := { l.metrics with skipped := l.metrics.skipped + 1 } }
      pure (.inl true)
    -- The next match goes on with the same start, channel included.
    else if type = Token.continued then pure (.inl false)
    -- A rule may recognize the end of the input by itself.
    else if type = Symbol.eof then pure (.inr (← get).eofToken)
    else
      let t := (← get).token type
      modify (emit setup t)
      pure (.inr t)

/-- **The next token,** on any channel. At the end of the input, and ever after, it is the token
that ends the input. -/
def nextToken (setup : LexSetup) : Lexing Token := Run.loop (nextStep setup) setup.fuel true

/-- Passes over the character that stopped the last match. -/
def recover (l : Lexer) : Lexer := { l with scanner := l.scanner.advance }

/-! ## Whole texts -/

/-- The event of a text that was turned into tokens. -/
def completedEvent (l : Lexer) (count : Nat) : Event :=
  ((((((Event.info "Tokenization completed" .tokenized).detail "source" l.stream.name).detail
    "token_count" count).detail "skipped" l.metrics.skipped).detail "off_channel"
    l.metrics.offChannel).detail "errors" l.metrics.errors).detail "longest_token"
    l.metrics.longestToken

/-- The event of an error that was passed over. -/
def errorEvent (l : Lexer) (e : LexError) : Event :=
  ((((Event.error e.code "Lexing error").detail "source" l.stream.name).detail "line"
    l.start.line).detail "column" l.start.column).detail "error" e.message

/-- The tokens up to and including the end of the input; the latest one comes first in what is
there already. -/
def allStep (setup : LexSetup) (tokens : List Token) : Lexing (List Token ⊕ List Token) := do
  let t ← nextToken setup
  pure (if t.isEof then .inr (t :: tokens).reverse else .inl (t :: tokens))

/-- **Every token up to the end of the input;** the first error ends the work. -/
def allTokens (setup : LexSetup) : Lexing (List Token) := do
  let tokens ← Run.loop (allStep setup) setup.fuel []
  modify fun l => l.note (l.completedEvent tokens.length)
  pure tokens

/-- Every token and every error, the latest of each first. -/
structure Harvest where
  tokens : List Token := []
  errors : List LexError := []
deriving Inhabited

/-- One token or one error. An error that recovery cannot get past ends the work. -/
def tokenizeStep (setup : LexSetup) (h : Harvest) : Lexing (Harvest ⊕ Harvest) := do
  match ← (nextToken setup).outcome with
  | .ok t =>
    let h := { h with tokens := t :: h.tokens }
    pure (if t.isEof then .inr h else .inl h)
  | .error e =>
    modify fun l => { l with metrics := { l.metrics with errors := l.metrics.errors + 1 } }
    modify fun l => l.note (l.errorEvent e)
    let h := { h with errors := e :: h.errors }
    if e.isRecoverable then
      modify recover
      pure (.inl h)
    else pure (.inr h)

/-- **Every token up to the end of the input, and the errors on the way;** characters that no rule
recognizes are passed over. -/
def tokenize (setup : LexSetup) : Lexing (List Token × List LexError) := do
  let h ← Run.loop (tokenizeStep setup) setup.fuel {}
  modify fun l => l.note (l.completedEvent h.tokens.length)
  pure (h.tokens.reverse, h.errors.reverse)

/-- The stream of all tokens. -/
def tokenStream (setup : LexSetup) : Lexing TokenStream := do
  let tokens ← allTokens setup
  pure (.ofTokens tokens defaultChannel (← get).stream.name)

end Lexer

end AdaptiveLL
