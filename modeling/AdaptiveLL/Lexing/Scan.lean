import AdaptiveLL.Cache.Basic
import AdaptiveLL.CharStream
import AdaptiveLL.Lexing.Closure
import AdaptiveLL.Lexing.Error
import AdaptiveLL.Settings.Basic

/-!
# Scanning

`Scanner.matchToken` recognizes one token. It walks the table of the mode a character at a time and
remembers the last row at which a token was complete. Where no thread can go on it returns there:
the longest match wins, and of several equally long ones the rule that comes first.
-/

namespace AdaptiveLL

/-- A place in the input: its index, its line counted from one, its column counted from zero. -/
structure Position where
  index : Nat
  line : Nat
  column : Nat
deriving DecidableEq, Inhabited

/-- A recognized token: its type, the characters from `start` to before `stop`, and the commands to
run when it is committed. -/
structure TokenMatch where
  type : Int
  start : Nat
  stop : Nat
  routine : Option Routine
deriving DecidableEq, Inhabited

namespace TokenMatch

/-- Whether the end of the input was recognized. -/
def isEof (m : TokenMatch) : Bool := m.type == Symbol.eof

/-- The number of characters. -/
def length (m : TokenMatch) : Nat := m.stop - m.start

/-- Whether there is no character. -/
def isEmpty (m : TokenMatch) : Bool := m.start == m.stop

end TokenMatch

/-- A scanner: its input with the line and column of the cursor, the cache, and the record of what
was asked and journaled. -/
structure Scanner where
  cache : Cache
  stream : CharStream
  line : Nat := 1
  column : Nat := 0
  /-- The callbacks made, oldest first. -/
  callbacks : List Callback := []
  journal : Journal := {}
deriving Inhabited

/-- A part of a match. -/
abbrev Scanning := Run LexError Scanner

namespace Scanner

/-- Where the cursor is. -/
def position (s : Scanner) : Position := ⟨s.stream.index, s.line, s.column⟩

/-- The scanner with its cursor at a place. -/
def moveTo (s : Scanner) (p : Position) : Scanner :=
  { s with stream := s.stream.seek p.index, line := p.line, column := p.column }

/-- The scanner at the first line again, with its cursor where it is. -/
def reset (s : Scanner) : Scanner := { s with line := 1, column := 0 }

/-- **The scanner after its current character.** A line break begins a new line. -/
def advance (s : Scanner) : Scanner :=
  let v := s.stream.lookAhead 1
  if v = Symbol.eof then s
  else
    let s := { s with stream := s.stream.consume }
    if v = 10 then { s with line := s.line + 1, column := 0 }
    else { s with column := s.column + 1 }

/-- Writes an event into the journal. -/
def note (s : Scanner) (e : Event) : Scanner := { s with journal := s.journal.write e }

/-- Takes over what following threads left behind. -/
def absorb (s : Scanner) (t : Trail) : Scanner :=
  { s with
    cache := { s.cache with graph := t.graph }
    callbacks := s.callbacks ++ t.asked }

end Scanner

/-- A match to be made: in which mode, from where, with which host and settings. -/
structure Scan where
  net : Network
  host : Oracle
  settings : LexerSettings
  mode : Nat
  start : Position
  /-- The number of steps after which a loop gives up. -/
  fuel : Nat
deriving Inhabited

namespace Scan

/-- Follows threads in the scanner's graph of stacks. -/
def probe {α : Type} (m : Probe α) : Scanning α :=
  ExceptT.mk fun s => do
    let (r, t) ← m.from? { graph := s.cache.graph, past := s.callbacks }
    pure (r.mapError .exceeded, s.absorb t)

/-- The table of the mode. -/
def table (c : Scan) : Scanning Table := do pure ((← get).cache.table c.mode)

/-- Replaces the table of the mode. -/
def setTable (c : Scan) (t : Table) : Scanning Unit :=
  modify fun s => { s with cache := s.cache.setTable c.mode t }

/-! ## Rows -/

/-- **The row of a set of threads.** The first thread that has finished its token decides. -/
def rowOf (c : Scan) (s : ConfigSet) : Row :=
  match s.toList.find? fun d => (c.net.state d.state).isRuleStop with
  | some d =>
    { configs := s
      accepting := true
      prediction := d.alt
      tokenType := c.net.ruleTokenTypes[(c.net.state d.state).rule]?.getD Symbol.noToken
      routine := d.routine }
  | none => { configs := s }

/-- Puts the row of a set into the table, if tables are used. -/
def install (c : Scan) (s : ConfigSet) : Scanning Place := do
  let row := c.rowOf s
  if !c.settings.useCache then pure (.loose row)
  else
    let (place, event, t) := (← c.table).install row
    c.setTable t
    event.forM fun e => modify (·.note e)
    pure place

/-- From where threads are followed. -/
def vantage (c : Scan) (position : Nat) (atEof : Bool) : Vantage :=
  { net := c.net, host := c.host, position, atEof, fuel := c.fuel }

/-- The place where the mode begins. What depends on a guard holds for this input only and is not
kept as the first row. -/
def startPlace (c : Scan) : Scanning Place := do
  let t ← c.table
  match if c.settings.useCache then t.startRow else none with
  | some n => pure (.row n)
  | none =>
    let position := (← get).stream.index
    let configs ← probe ((c.vantage position false).startSet t.start)
    let place ← c.install { configs with hasGuards := false }
    if configs.hasGuards || !c.settings.useCache then pure place
    else
      let (place, t) := (← c.table).setStart place
      c.setTable t
      pure place

/-- **Computes the place that a character leads to.** What depends on a guard holds for this input
only and is not written into the table. -/
def target (c : Scan) (p : Place) (v : Symbol) : Scanning (Option Place) := do
  let index := (← get).stream.index
  let before := ((← c.table).row p).configs
  let configs ← probe ((c.vantage (index + 1) (v == Symbol.eof)).reachFrom v
    (index - c.start.index) noAlternative ConfigSet.forLexer before.toList)
  if configs.isEmpty then
    if !configs.hasGuards && c.settings.useCache then c.setTable ((← c.table).linkDead p v).2
    pure none
  else
    let place ← c.install { configs with hasGuards := false }
    if !configs.hasGuards && c.settings.useCache then c.setTable ((← c.table).link p v place).2
    pure (some place)

/-- The place that a character leads to: read from the table where it is known, and computed
otherwise. -/
def next (c : Scan) (p : Place) (v : Symbol) : Scanning (Option Place) := do
  let t ← c.table
  match if c.settings.useCache then t.cell? p v else none with
  | some (.row n) => pure (some (.row n))
  | some .dead => pure none
  | none => c.target p v

/-! ## The longest match -/

/-- A complete token, and where the cursor was after it. -/
structure Accepted where
  position : Position
  type : Int
  routine : Option Routine
deriving Inhabited

/-- Where a match stands. -/
structure Point where
  place : Place
  /-- The last complete token. -/
  accepted : Option Accepted
deriving Inhabited

/-- Fails if one more character would make the token too long. -/
def checkLength (c : Scan) : Scanning Unit := do
  let length := (← get).stream.index - c.start.index + 1
  if c.settings.maxTokenLength < length then
    throw (.exceeded ⟨.tokenLength, c.settings.maxTokenLength, length⟩)

/-- What is remembered after coming to a row. -/
def remember (s : Scanner) (row : Row) (before : Option Accepted) : Option Accepted :=
  if row.accepting then some ⟨s.position, row.tokenType, row.routine⟩ else before

/-- One character of a match. The answer is the last complete token and the character at which no
thread could go on. -/
def step (c : Scan) (p : Point) : Scanning (Point ⊕ (Option Accepted × Symbol)) := do
  let v := (← get).stream.lookAhead 1
  match ← c.next p.place v with
  | none => pure (.inr (p.accepted, v))
  | some place =>
    -- The end of the input is matched, but not consumed.
    if v ≠ Symbol.eof then
      c.checkLength
      modify Scanner.advance
    let row := (← c.table).row place
    let accepted := remember (← get) row p.accepted
    if row.accepting ∧ v = Symbol.eof then pure (.inr (accepted, v))
    else pure (.inl ⟨place, accepted⟩)

/-- Returns to the last complete token. Without one, the end of the input is recognized if there is
nothing else, and any other character is an error. -/
def conclude (c : Scan) (accepted : Option Accepted) (v : Symbol) : Scanning TokenMatch := do
  match accepted with
  | some a =>
    modify (·.moveTo a.position)
    pure ⟨a.type, c.start.index, a.position.index, a.routine⟩
  | none =>
    let stream := (← get).stream
    -- Nothing was there at all: the end of the input is the token.
    if v = Symbol.eof ∧ stream.index = c.start.index then
      pure ⟨Symbol.eof, c.start.index, c.start.index, none⟩
    else
      throw (.noViableAlternative c.start.index stream.index c.start.line c.start.column
        (stream.text c.start.index (stream.index + 1)))

/-- Makes the match. -/
def run (c : Scan) : Scanning TokenMatch := do
  let place ← c.startPlace
  let accepted := remember (← get) ((← c.table).row place) none
  let (accepted, v) ← Run.loop c.step c.fuel ⟨place, accepted⟩
  c.conclude accepted v

/-- The event of a match that failed. -/
def failureEvent (c : Scan) (e : LexError) : Event :=
  (((Event.debug "Token recognition failed").detail "mode" c.mode).detail "start_index"
    c.start.index).detail "error" e.message

end Scan

namespace Scanner

/-- **Recognizes the longest token of a mode** at the cursor. After a token the cursor is behind it,
and after an error at the character where no rule could go on. -/
def matchToken (settings : LexerSettings) (host : Oracle) (fuel : Nat) (mode : Nat) :
    Scanning TokenMatch := do
  let s ← get
  if s.cache.tables.size ≤ mode then throw (.unknownMode mode)
  let c : Scan := { net := s.cache.net, host, settings, mode, start := s.position, fuel }
  match ← c.run.outcome with
  | .ok m => pure m
  | .error e =>
    modify (·.note (c.failureEvent e))
    throw e

end Scanner

end AdaptiveLL
