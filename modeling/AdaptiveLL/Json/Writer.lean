import AdaptiveLL.Json.Value

/-!
# Writing JSON

Two layouts of one document: `compact` puts no blank anywhere, `pretty` puts every item and member
on a line of its own, indented by two blanks a level. Members keep their order. A string escapes
the quotation mark, the backslash and the control characters; everything else is written as it is.
-/

namespace AdaptiveLL.Json

/-- A hexadecimal digit, in small letters. -/
def hexDigit (n : Nat) : Char := (Nat.digitChar n).toLower

/-- The escaped form of one character of a string. -/
def escapeChar (c : Char) : List Char :=
  if c = '"' then ['\\', '"']
  else if c = '\\' then ['\\', '\\']
  else if c = '\n' then ['\\', 'n']
  else if c = '\r' then ['\\', 'r']
  else if c = '\t' then ['\\', 't']
  else if c.toNat = 8 then ['\\', 'b']
  else if c.toNat = 12 then ['\\', 'f']
  else if c.toNat < 32 then
    ['\\', 'u', '0', '0', hexDigit (c.toNat / 16), hexDigit (c.toNat % 16)]
  else [c]

/-- A string between quotation marks. -/
def quote (s : String) : String :=
  String.ofList ('"' :: s.toList.flatMap escapeChar ++ ['"'])

namespace Value

mutual

/-- The document without any blank. -/
def compact : Value → String
  | .null => "null"
  | .bool true => "true"
  | .bool false => "false"
  | .int n => toString n
  | .real spelling => spelling
  | .text s => quote s
  | .list items => "[" ++ ",".intercalate (compactItems items) ++ "]"
  | .record ms => "\x7b" ++ ",".intercalate (compactMembers ms) ++ "\x7d"

/-- The items of a list, each without any blank. -/
def compactItems : List Value → List String
  | [] => []
  | v :: rest => compact v :: compactItems rest

/-- The members of an object, each without any blank. -/
def compactMembers : List (String × Value) → List String
  | [] => []
  | (name, v) :: rest => (quote name ++ ":" ++ compact v) :: compactMembers rest

end

/-- A line break followed by the indentation of a level. -/
def newLine (level : Nat) : String := "\n" ++ String.ofList (List.replicate (2 * level) ' ')

/-- The lines of a list or an object between its brackets; without lines the brackets touch. -/
def block (level : Nat) (opening closing : String) (lines : List String) : String :=
  match lines with
  | [] => opening ++ closing
  | _ =>
    opening ++ newLine (level + 1) ++ ("," ++ newLine (level + 1)).intercalate lines ++
      newLine level ++ closing

mutual

/-- The document at an indentation level, one line for every item and member. -/
def prettyAt (level : Nat) : Value → String
  | .null => "null"
  | .bool true => "true"
  | .bool false => "false"
  | .int n => toString n
  | .real spelling => spelling
  | .text s => quote s
  | .list items => block level "[" "]" (prettyItems (level + 1) items)
  | .record ms => block level "\x7b" "\x7d" (prettyMembers (level + 1) ms)

/-- The items of a list, each in the pretty layout. -/
def prettyItems (level : Nat) : List Value → List String
  | [] => []
  | v :: rest => prettyAt level v :: prettyItems level rest

/-- The members of an object, each in the pretty layout. -/
def prettyMembers (level : Nat) : List (String × Value) → List String
  | [] => []
  | (name, v) :: rest => (quote name ++ ": " ++ prettyAt level v) :: prettyMembers level rest

end

/-- The document in the pretty layout. -/
def pretty (v : Value) : String := v.prettyAt 0

end Value

end AdaptiveLL.Json
