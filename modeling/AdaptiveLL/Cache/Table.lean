import AdaptiveLL.Config.Set
import AdaptiveLL.Journal.Event

/-!
# Decision tables

What was found out about a decision is kept as a deterministic automaton: a row for each set of
configurations met, a cell for each symbol that was looked at in it. No two rows hold the same set,
and a cell, once written, is never changed. A table has a ceiling on its rows; a row past it stays
*loose*: it can be read, but nothing in the table leads to it.
-/

namespace AdaptiveLL

/-- An alternative that is taken if its guard holds. -/
structure Choice where
  guard : Guard
  alt : Nat
deriving DecidableEq, Inhabited

/-- The choice as diagnostics show it. -/
def Choice.render (c : Choice) : String := s!"({c.guard.render}, {c.alt})"

/-- What a symbol leads to. -/
inductive Cell where
  | row (n : Nat)
  /-- No configuration can consume the symbol. -/
  | dead
deriving DecidableEq, Inhabited

/-- A row of a table: a set of configurations and what was found out about it. -/
structure Row where
  configs : ConfigSet
  /-- Whether the table's question is answered here. -/
  accepting : Bool := false
  /-- The answer, as an alternative. -/
  prediction : Nat := noAlternative
  /-- The answer, as a token type. -/
  tokenType : Int := 0
  /-- The commands of the answer. -/
  routine : Option Routine := none
  /-- Whether the answer is only valid without a call stack. -/
  needsContext : Bool := false
  /-- The answers under guards, in the order in which they are tried. -/
  choices : Option (List Choice) := none
  /-- The cells that are written, ascending by slot. -/
  cells : List (Nat × Cell) := []
deriving DecidableEq, Inhabited

/-- Where a row is: in the table, or nowhere. -/
inductive Place where
  | row (n : Nat)
  | loose (r : Row)
deriving DecidableEq, Inhabited

namespace Row

/-- Writes a cell, unless it is written already. -/
def writeCell (slot : Nat) (c : Cell) : List (Nat × Cell) → List (Nat × Cell)
  | [] => [(slot, c)]
  | (s, d) :: rest =>
    if slot < s then (slot, c) :: (s, d) :: rest
    else if slot = s then (s, d) :: rest
    else (s, d) :: writeCell slot c rest

/-- The row with one more cell written. -/
def write (r : Row) (slot : Nat) (c : Cell) : Row := { r with cells := writeCell slot c r.cells }

/-- The cell of a slot, if it is written. -/
def cell? (r : Row) (slot : Nat) : Option Cell := r.cells.lookup slot

/-- The row as diagnostics show it: its number, `:` in front where the question is answered, `^`
after it where the answer needs the call stack, then the answer. -/
def render (r : Row) (number : Nat) : String :=
  let answer :=
    match r.choices with
    | some cs => "[" ++ ", ".intercalate (cs.map Choice.render) ++ "]"
    | none => toString r.prediction
  (if r.accepting then ":" else "") ++ s!"s{number}" ++ (if r.needsContext then "^" else "") ++
    (if r.accepting then "=>" ++ answer else "")

end Row

/-- **The table of a decision,** or of a lexer mode. -/
structure Table where
  /-- The number of the decision or mode. -/
  decision : Nat
  /-- The state of the network at which the decision is taken. -/
  start : StateId
  /-- The least symbol that has a cell. -/
  firstSymbol : Symbol
  /-- The greatest symbol that has a cell. -/
  lastSymbol : Symbol
  /-- The row with which the decision starts, once it is known. -/
  startRow : Option Nat := none
  rows : Array Row := #[]
  maxRows : Nat := Limits.statesPerDecision
  /-- Whether it was reported that the ceiling is reached. -/
  ceilingReported : Bool := false
deriving DecidableEq, Inhabited

namespace Table

/-- The table of a parser decision: it has a cell for the end of the input and for every token
type. -/
def ofDecision (net : Network) (decision : Nat) (start : StateId) : Table :=
  { decision, start, firstSymbol := Symbol.eof, lastSymbol := net.maxTokenType }

/-- The table of a lexer mode: it has cells for the low characters only. -/
def ofMode (mode : Nat) (start : StateId) : Table :=
  { decision := mode, start, firstSymbol := Symbol.firstChar, lastSymbol := Limits.lastLexerEdge }

/-! ## Slots -/

/-- The number of cells of a row. -/
def width (t : Table) : Nat := (t.lastSymbol - t.firstSymbol + 1).toNat

/-- The slot of a symbol that has one. -/
def slot? (t : Table) (v : Symbol) : Option Nat :=
  if v < t.firstSymbol ∨ t.lastSymbol < v then none else some (v - t.firstSymbol).toNat

/-- The symbol of a slot. -/
def symbolAt (t : Table) (slot : Nat) : Symbol := t.firstSymbol + slot

/-- The number of cells of a row, if no number on the way to it takes more than 32 bits. Without it
no row can be laid out. -/
def width? (t : Table) : Option Nat := do
  let span ← Numeral.int32? (t.lastSymbol - t.firstSymbol)
  let count ← Numeral.int32? (span + 1)
  pure count.toNat

/-! ## Rows -/

/-- The number of rows in the table. -/
def size (t : Table) : Nat := t.rows.size

/-- The row at a place. -/
def row (t : Table) : Place → Row
  | .row n => t.rows[n]?.getD default
  | .loose r => r

/-- The number with which a loose row is shown. -/
def looseNumber : Nat := Numeral.maxWord

/-- The row at a place as diagnostics show it. -/
def showPlace (t : Table) (p : Place) : String :=
  match p with
  | .row n => (t.row p).render n
  | .loose r => r.render looseNumber

/-- The event of a table that has reached its ceiling. -/
def ceilingEvent (t : Table) : Event :=
  ((Event.warning "DFA state ceiling reached; further states are not cached"
    .stateCeiling).detail "decision" t.decision).detail "max_states" t.maxRows

/-- **Puts a row into the table.** A row with the same configurations that is there already takes
its place, and past the ceiling the row stays loose. That is reported once. -/
def install (t : Table) (r : Row) : Place × Option Event × Table :=
  match t.rows.findIdx? (·.configs.same r.configs) with
  -- An equal set is known: its row is shared.
  | some n => (.row n, none, t)
  | none =>
    if t.maxRows ≤ t.rows.size then
      -- No room is left; the first time this is worth an event.
      if t.ceilingReported then (.loose r, none, t)
      else (.loose r, some t.ceilingEvent, { t with ceilingReported := true })
    else (.row t.rows.size, none, { t with rows := t.rows.push r })

/-- Makes a row the first one, unless there is one. The answer is the place to start from: a loose
row is never kept. -/
def setStart (t : Table) (p : Place) : Place × Table :=
  match p with
  | .loose _ => (p, t)
  | .row n =>
    match t.startRow with
    | some m => (.row m, t)
    | none => (p, { t with startRow := some n })

/-! ## Cells -/

/-- What the symbol leads to from a row, if that is known. -/
def cell? (t : Table) (p : Place) (v : Symbol) : Option Cell :=
  (t.slot? v).bind (t.row p).cell?

/-- Writes the cell of a symbol, if it has one and it is not written yet. The answer holds the place
again, since a loose row is not in the table. -/
def write (t : Table) (p : Place) (v : Symbol) (c : Cell) : Place × Table :=
  match t.slot? v with
  | none => (p, t)
  | some slot =>
    match p with
    | .row n => (p, { t with rows := t.rows.modify n (·.write slot c) })
    | .loose r => (.loose (r.write slot c), t)

/-- Notes that the symbol leads from one row to another. Nothing leads to a loose row. -/
def link (t : Table) (p : Place) (v : Symbol) (target : Place) : Place × Table :=
  match target with
  | .row n => t.write p v (.row n)
  | .loose _ => (p, t)

/-- Notes that no configuration of the row can consume the symbol. -/
def linkDead (t : Table) (p : Place) (v : Symbol) : Place × Table := t.write p v .dead

/-! ## Printing -/

/-- The cells of a row that lead to rows, one a line. -/
def renderRow (t : Table) (net : Network) (n : Nat) (r : Row) : String :=
  String.join (r.cells.map fun (slot, c) =>
    match c with
    | .dead => ""
    | .row m =>
      s!"{r.render n}-{net.symbolName (t.symbolAt slot)}->{t.showPlace (.row m)}\n")

/-- **The table as text:** a line for each cell that leads to a row. -/
def render (t : Table) (net : Network) : String :=
  String.join (t.rows.toList.zipIdx.map fun (r, n) => t.renderRow net n r)

end Table

end AdaptiveLL
