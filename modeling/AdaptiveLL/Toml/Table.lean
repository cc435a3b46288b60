import AdaptiveLL.Toml.Scalar

/-!
# Tables in the making

A document defines its tables piece by piece: by a header, by passing through them on the way to
another one, or by a dotted key. What was defined once cannot be defined again, and what one of
these ways made cannot always be extended by another. A table that is being made therefore knows
how it came about.
-/

namespace AdaptiveLL.Toml

/-- How a table came about. -/
inductive Origin where
  /-- By its own header. -/
  | header
  /-- On the way of a header to a table inside it. -/
  | implied
  /-- On the way of a dotted key. -/
  | dotted
deriving DecidableEq, Inhabited

/-- What a name stands for while the document is being read. -/
inductive Node where
  /-- A value, which is complete. -/
  | value (v : Value)
  | table (origin : Origin) (entries : List (String × Node))
  /-- An array of tables that is made by headers; only its last table can be extended. -/
  | tables (items : List (List (String × Node)))
deriving Inhabited

/-- The entries of a table in the making. -/
abbrev Entries := List (String × Node)

/-- A key: where to go, and the name there. -/
structure Key where
  path : List String
  name : String
deriving DecidableEq, Inhabited

namespace Entries

/-- The entries with a name standing for something new. -/
def put (name : String) (n : Node) : Entries → Entries
  | [] => [(name, n)]
  | (k, m) :: rest => if k = name then (k, n) :: rest else (k, m) :: put name n rest

/-- **Changes the table at the end of a path,** which is made where it is not there. A value cannot
be passed through, and a dotted key cannot pass through a table that has a header. -/
def change (dotted : Bool) (f : Origin → Entries → Option Entries) :
    List String → Origin → Entries → Option Entries
  | [], origin, es => f origin es
  | k :: path, _, es =>
    match es.lookup k with
    | none => do
      let origin := if dotted then Origin.dotted else Origin.implied
      let inner ← change dotted f path origin []
      pure (es.put k (.table origin inner))
    | some (.table origin inner) =>
      if dotted && origin == .header then none
      else do
        let inner ← change dotted f path origin inner
        pure (es.put k (.table origin inner))
    | some (.tables items) => do
      let last ← items.getLast?
      let last ← change dotted f path .header last
      pure (es.put k (.tables (items.dropLast ++ [last])))
    | some (.value _) => none

/-- Gives a name its value. The table has to be the current one or one that dotted keys made, and
the name must be free. -/
def assignHere (key : Key) (v : Value) (origin : Origin) (es : Entries) : Option Entries :=
  if (origin == .dotted) == key.path.isEmpty then none
  else
    match es.lookup key.name with
    | none => some (es.put key.name (.value v))
    | some _ => none

/-- Gives a key its value in a table that is not made by dotted keys. -/
def assign (key : Key) (v : Value) (es : Entries) : Option Entries :=
  es.change true (assignHere key v) key.path .header

/-- Begins a table at a header: one that is there may only have been implied. -/
def beginTable (key : Key) (es : Entries) : Option Entries :=
  es.change false (fun _ es =>
    match es.lookup key.name with
    | none => some (es.put key.name (.table .header []))
    | some (.table .implied inner) => some (es.put key.name (.table .header inner))
    | some _ => none) key.path .header

/-- Begins one more table of an array at a header. -/
def beginItem (key : Key) (es : Entries) : Option Entries :=
  es.change false (fun _ es =>
    match es.lookup key.name with
    | none => some (es.put key.name (.tables [[]]))
    | some (.tables items) => some (es.put key.name (.tables (items ++ [[]])))
    | some _ => none) key.path .header

end Entries

/-! ## Finished tables -/

mutual

/-- What a name stands for in the end. -/
def Node.toValue : Node → Value
  | .value v => v
  | .table _ es => .table (finishEntries es)
  | .tables items => .array (finishItems items)

/-- The members of a finished table. -/
def finishEntries : List (String × Node) → List (String × Value)
  | [] => []
  | (k, n) :: rest => (k, n.toValue) :: finishEntries rest

/-- The tables of a finished array. -/
def finishItems : List (List (String × Node)) → List Value
  | [] => []
  | es :: rest => .table (finishEntries es) :: finishItems rest

end

/-- The finished table. -/
def Entries.toValue (es : Entries) : Value := .table (finishEntries es)

end AdaptiveLL.Toml
