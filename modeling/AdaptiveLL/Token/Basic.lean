import AdaptiveLL.Json.Value
import AdaptiveLL.Symbol

/-!
# Tokens

A token is a piece of the input under a type. It knows its place in the text and in the stream of
tokens it belongs to, and the channel it travels on.
-/

namespace AdaptiveLL

/-- The channel of tokens that say nothing else. -/
def defaultChannel : Int := 0

/-- A token. Its characters are those from `start` to before `stop`. -/
structure Token where
  type : Int
  channel : Int := defaultChannel
  start : Nat := 0
  stop : Nat := 0
  text : String
  /-- The line of the first character, counted from one. -/
  line : Nat := 1
  /-- The column of the first character, counted from zero. -/
  column : Nat := 0
  /-- The position in the stream of tokens. -/
  index : Nat := 0
deriving DecidableEq, Inhabited

namespace Token

/-- The token that ends every stream. -/
def endOfInput (position line column : Nat) : Token :=
  { type := Symbol.eof, start := position, stop := position, text := "<EOF>", line, column }

/-- Whether the token ends its stream. -/
def isEof (t : Token) : Bool := t.type == Symbol.eof

/-- A token of which only the type matters, at a place in a row of such tokens. -/
def ofType (type : Int) (place : Nat) : Token :=
  { type, start := place, stop := place + 1, text := toString type, column := place }

/-- A character of a token's text as diagnostics show it. -/
def showTextChar (c : Char) : List Char :=
  if c = '\n' then ['\\', 'n']
  else if c = '\r' then ['\\', 'r']
  else if c = '\t' then ['\\', 't']
  else [c]

/-- **The token as diagnostics show it:** index, first and last character, text, type, channel
unless it is the default one, line and column. -/
def render (t : Token) : String :=
  let text := String.ofList (t.text.toList.flatMap showTextChar)
  let channel := if t.channel = defaultChannel then "" else s!",channel={t.channel}"
  s!"[@{t.index},{t.start}:{t.stop - 1}='{text}',<{t.type}>{channel},{t.line}:{t.column}]"

instance : ToString Token := ⟨render⟩

/-- The token as an object. -/
def toJson (t : Token) : Json.Value :=
  .record [
    ("token_type", .int t.type),
    ("channel", .int t.channel),
    ("start", .nat t.start),
    ("stop", .nat t.stop),
    ("text", .text t.text),
    ("line", .nat t.line),
    ("column", .nat t.column),
    ("index", .nat t.index)]

end Token

end AdaptiveLL
