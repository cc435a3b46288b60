import AdaptiveLL.Symbol

/-!
# Character streams

A lexer reads the characters of a text one by one. Positions count characters.
-/

namespace AdaptiveLL

/-- A text with a cursor, which is inside or at the end. -/
structure CharStream where
  chars : Array Char
  name : String
  index : Nat
  inside : index ≤ chars.size

namespace CharStream

/-- The stream of a text, from its beginning. -/
def ofText (text : String) (name : String := "<string>") : CharStream :=
  ⟨text.toList.toArray, name, 0, Nat.zero_le _⟩

instance : Inhabited CharStream := ⟨ofText ""⟩

/-- The number of characters. -/
def size (s : CharStream) : Nat := s.chars.size

/-- The character at a position; `Symbol.eof` where there is none. -/
def symbolAt (s : CharStream) (i : Nat) : Symbol :=
  (s.chars[i]?.map fun c => (c.toNat : Int)).getD Symbol.eof

/-- **The symbol at an offset from the cursor:** `1` is the current character, `-1` the one before
it, and `Symbol.eof` what lies past either end. At offset `0` there is none. -/
def lookAhead (s : CharStream) (offset : Int) : Symbol :=
  match offset with
  | .ofNat 0 => 0
  | .ofNat (n + 1) => s.symbolAt (s.index + n)
  | .negSucc n => if n < s.index then s.symbolAt (s.index - (n + 1)) else Symbol.eof

/-- The characters from `start` to before `stop`, as far as there are any. -/
def text (s : CharStream) (start stop : Nat) : String :=
  String.ofList (s.chars.extract start stop).toList

/-- The stream with its cursor at a position, or at the end if that comes first. -/
def seek (s : CharStream) (i : Nat) : CharStream :=
  { s with index := min i s.chars.size, inside := Nat.min_le_right _ _ }

/-- The stream after its current character. -/
def consume (s : CharStream) : CharStream := s.seek (s.index + 1)

end CharStream

end AdaptiveLL
