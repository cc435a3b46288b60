import AdaptiveLL.Toml.Scalar
import AdaptiveLL.Toml.Table

/-!
# Reading TOML

`Value.parse?` reads a document: a table whose members are given line by line. A line is a header,
which says to which table the lines after it belong, or a key with its value. Readers that call
each other spend fuel; the length of the text is always enough, since every call consumes a
character.
-/

namespace AdaptiveLL.Toml

/-! ## Blanks -/

/-- Whether the character is a blank inside a line. -/
def isBlank (c : Char) : Bool := c = ' ' || c = '\t'

/-- The characters after the leading blanks of the line. -/
def skipBlanks (cs : List Char) : List Char := cs.dropWhile isBlank

/-- The characters after a line break. -/
def afterBreak? : List Char → Option (List Char)
  | '\n' :: rest => some rest
  | '\r' :: '\n' :: rest => some rest
  | _ => none

/-- The characters after a comment, if there is one. -/
def skipComment : List Char → List Char
  | '#' :: rest => rest.dropWhile isPlain
  | cs => cs

/-- The characters after the rest of a line that holds nothing more. The end of the text ends a
line, too. -/
def endLine (cs : List Char) : Option (List Char) :=
  match skipComment (skipBlanks cs) with
  | [] => some []
  | cs => afterBreak? cs

/-- The characters after blanks, line breaks and comments. -/
def skipSpace : Nat → List Char → List Char
  | 0, cs => cs
  | fuel + 1, cs =>
    let cs := skipComment (skipBlanks cs)
    match afterBreak? cs with
    | some rest => skipSpace fuel rest
    | none => cs

/-! ## Keys -/

/-- Whether the character can stand in a name without quotation marks. -/
def isBare (c : Char) : Bool := c.isAlphanum || c = '_' || c = '-'

/-- A name: in quotation marks, or bare. -/
def readName (cs : List Char) : Option (String × List Char) :=
  match cs with
  | '"' :: _ | '\'' :: _ => readString cs
  | _ =>
    match cs.span isBare with
    | ([], _) => none
    | (name, rest) => some (String.ofList name, rest)

/-- A key: names with points between them. -/
def readKey : Nat → List Char → Option (Key × List Char)
  | 0, _ => none
  | fuel + 1, cs => do
    let (name, rest) ← readName (skipBlanks cs)
    match skipBlanks rest with
    | '.' :: rest => do
      let (key, rest) ← readKey fuel rest
      pure ({ key with path := name :: key.path }, rest)
    | rest => pure (⟨[], name⟩, rest)

/-! ## Values -/

mutual

/-- A value. -/
def readValue : Nat → List Char → Option (Value × List Char)
  | 0, _ => none
  | fuel + 1, cs =>
    match cs with
    | '[' :: rest => do
      let (items, rest) ← readItems fuel rest
      pure (.array items, rest)
    | '{' :: rest =>
      match skipBlanks rest with
      | '}' :: rest => some (.table [], rest)
      | rest => do
        let (entries, rest) ← readPairs fuel [] rest
        pure (entries.toValue, rest)
    | _ => readScalar cs

/-- The items of an array, up to its closing bracket. A comma may follow the last one. -/
def readItems : Nat → List Char → Option (List Value × List Char)
  | 0, _ => none
  | fuel + 1, cs =>
    match skipSpace cs.length cs with
    | ']' :: rest => some ([], rest)
    | cs => do
      let (item, rest) ← readValue fuel cs
      match skipSpace rest.length rest with
      | ',' :: rest => do
        let (items, rest) ← readItems fuel rest
        pure (item :: items, rest)
      | ']' :: rest => pure ([item], rest)
      | _ => none

/-- The members of a table on one line, up to its closing brace, added to those before them. -/
def readPairs : Nat → Entries → List Char → Option (Entries × List Char)
  | 0, _, _ => none
  | fuel + 1, es, cs => do
    let (key, rest) ← readKey fuel cs
    match rest with
    | '=' :: rest => do
      let (v, rest) ← readValue fuel (skipBlanks rest)
      let es ← es.assign key v
      match skipBlanks rest with
      | ',' :: rest => readPairs fuel es rest
      | '}' :: rest => pure (es, rest)
      | _ => none
    | _ => none

end

/-! ## Documents -/

/-- A document in the making: its tables, and the path of the one that lines belong to. -/
structure Draft where
  root : Entries := []
  current : List String := []
deriving Inhabited

namespace Draft

/-- Begins a table. -/
def beginTable (d : Draft) (key : Key) : Option Draft := do
  let root ← d.root.beginTable key
  pure ⟨root, key.path ++ [key.name]⟩

/-- Begins a table of an array. -/
def beginItem (d : Draft) (key : Key) : Option Draft := do
  let root ← d.root.beginItem key
  pure ⟨root, key.path ++ [key.name]⟩

/-- Gives a key of the current table its value. -/
def assign (d : Draft) (key : Key) (v : Value) : Option Draft := do
  let root ← d.root.change false (fun _ es => es.assign key v) d.current .header
  pure { d with root := root }

end Draft

/-- One line, after its leading blanks. -/
def readLine (fuel : Nat) (d : Draft) (cs : List Char) : Option (Draft × List Char) :=
  match cs with
  | '[' :: '[' :: rest => do
    let (key, rest) ← readKey fuel rest
    let rest ← afterWord "]]" rest
    let d ← d.beginItem key
    pure (d, rest)
  | '[' :: rest => do
    let (key, rest) ← readKey fuel rest
    let rest ← afterWord "]" rest
    let d ← d.beginTable key
    pure (d, rest)
  | _ => do
    let (key, rest) ← readKey fuel cs
    let rest ← afterWord "=" rest
    let (v, rest) ← readValue fuel (skipBlanks rest)
    let d ← d.assign key v
    pure (d, rest)

/-- The lines of a document. -/
def readLines : Nat → Draft → List Char → Option Draft
  | 0, _, _ => none
  | fuel + 1, d, cs =>
    match skipSpace cs.length cs with
    | [] => some d
    | cs => do
      let (d, rest) ← readLine fuel d cs
      let rest ← endLine rest
      readLines fuel d rest

/-- **Reads a whole document.** A byte order mark may stand before it. -/
def Value.parse? (s : String) : Option Value :=
  let cs :=
    match s.toList with
    | '\uFEFF' :: cs => cs
    | cs => cs
  (readLines (2 * cs.length + 2) {} cs).map fun d => d.root.toValue

end AdaptiveLL.Toml
