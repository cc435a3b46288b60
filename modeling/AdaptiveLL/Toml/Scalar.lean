import AdaptiveLL.Text

/-!
# TOML values and their scalars

The documents in which settings are written: tables of named values, arrays, strings, integers and
truth values. A float keeps its spelling, since no setting is one.

Readers of strings, numbers and truth values. Each takes the characters that are left and gives back
what it read with the characters after it. Dates, times and strings over several lines are not
read: no setting is one.
-/

namespace AdaptiveLL.Toml

/-- A TOML value. -/
inductive Value where
  | text (s : String)
  | int (n : Int)
  /-- A number that is no integer, as it is spelt. -/
  | float (spelling : String)
  | bool (b : Bool)
  | array (items : List Value)
  /-- A table; no name occurs twice. -/
  | table (members : List (String × Value))
deriving Inhabited

/-! ## Words -/

/-- The characters after a fixed word, where the text begins with it. -/
def afterWord (word : String) (cs : List Char) : Option (List Char) :=
  if word.toList.isPrefixOf cs then some (cs.drop word.length) else none

/-! ## Numbers -/

/-- The value of a digit of a base up to sixteen. -/
def digit? (base : Nat) (c : Char) : Option Nat :=
  (Numeral.hexValue? c).filter (· < base)

/-- The digits that continue a number, of which a single underscore may separate any two. `n` is the
value of those before them. -/
def moreDigits (base n : Nat) : List Char → Option (Nat × List Char)
  | [] => some (n, [])
  | '_' :: [] => none
  | '_' :: c :: rest => do
    let d ← digit? base c
    moreDigits base (n * base + d) rest
  | c :: rest =>
    match digit? base c with
    | some d => moreDigits base (n * base + d) rest
    | none => some (n, c :: rest)

/-- One digit or more. -/
def readDigits (base : Nat) : List Char → Option (Nat × List Char)
  | [] => none
  | c :: rest => do
    let d ← digit? base c
    moreDigits base d rest

/-- A decimal number without leading zeros. -/
def readDecimal : List Char → Option (Nat × List Char)
  | '0' :: rest => some (0, rest)
  | cs => readDigits 10 cs

/-- The characters after an exponent, if there is one. -/
def afterExponent : List Char → Option (List Char)
  | c :: rest =>
    if c = 'e' ∨ c = 'E' then
      let digits :=
        match rest with
        | '+' :: r => r
        | '-' :: r => r
        | r => r
      (readDigits 10 digits).map Prod.snd
    else some (c :: rest)
  | [] => some []

/-- The characters after a fraction and an exponent, if there are any. -/
def afterFraction : List Char → Option (List Char)
  | '.' :: rest => do
    let (_, rest) ← readDigits 10 rest
    afterExponent rest
  | cs => afterExponent cs

/-- The integer, if it has 64 bits. -/
def integer? (n : Int) : Option Value :=
  if Numeral.fitsInt64 n then some (.int n) else none

/-- An integer in another base, from after its mark. -/
def readBased (base : Nat) (cs : List Char) : Option (Value × List Char) := do
  let (n, rest) ← readDigits base cs
  let v ← integer? n
  pure (v, rest)

/-- A decimal number from after its sign. `spelling` gives the text of a float, which ends before
the characters it is given. -/
def readSigned (sign : Int) (spelling : List Char → String) (cs : List Char) :
    Option (Value × List Char) :=
  match (afterWord "inf" cs).or (afterWord "nan" cs) with
  | some rest => some (.float (spelling rest), rest)
  | none => do
    let (n, rest) ← readDecimal cs
    let after ← afterFraction rest
    if after.length < rest.length then pure (.float (spelling after), after)
    else
      let v ← integer? (sign * n)
      pure (v, rest)

/-- A number: an integer in base two, eight, ten or sixteen, or a float. -/
def readNumber (cs : List Char) : Option (Value × List Char) :=
  let spelling (rest : List Char) := String.ofList (cs.take (cs.length - rest.length))
  match cs with
  | '0' :: 'x' :: rest => readBased 16 rest
  | '0' :: 'o' :: rest => readBased 8 rest
  | '0' :: 'b' :: rest => readBased 2 rest
  | '+' :: rest => readSigned 1 spelling rest
  | '-' :: rest => readSigned (-1) spelling rest
  | _ => readSigned 1 spelling cs

/-! ## Strings -/

/-- Whether the character may stand for itself in a string or a comment: any but control
characters, of which only the tab may. -/
def isPlain (c : Char) : Bool := c = '\t' || (32 ≤ c.toNat && c.toNat ≠ 127)

/-- The character with a code point in hexadecimal digits. -/
def charOfHex? (digits : List Char) : Option Char := do
  let ds ← digits.mapM Numeral.hexValue?
  let n := ds.foldl (fun n d => 16 * n + d) 0
  if n.isValidChar then some (Char.ofNat n) else none

/-- The character of a one-letter escape. -/
def escape? : Char → Option Char
  | 'b' => some '\x08'
  | 't' => some '\t'
  | 'n' => some '\n'
  | 'f' => some '\x0c'
  | 'r' => some '\r'
  | '"' => some '"'
  | '\\' => some '\\'
  | _ => none

/-- The characters of a basic string, from after its opening quotation mark, in which a backslash
begins an escape. -/
def readBasic : List Char → Option (List Char × List Char)
  | [] => none
  | '"' :: rest => some ([], rest)
  | '\\' :: 'u' :: a :: b :: c :: d :: rest => do
    let e ← charOfHex? [a, b, c, d]
    let (cs, left) ← readBasic rest
    pure (e :: cs, left)
  | '\\' :: 'U' :: a :: b :: c :: d :: e :: f :: g :: h :: rest => do
    let e ← charOfHex? [a, b, c, d, e, f, g, h]
    let (cs, left) ← readBasic rest
    pure (e :: cs, left)
  | '\\' :: c :: rest => do
    let e ← escape? c
    let (cs, left) ← readBasic rest
    pure (e :: cs, left)
  | c :: rest =>
    if isPlain c && c != '\\' then do
      let (cs, left) ← readBasic rest
      pure (c :: cs, left)
    else none

/-- The characters of a literal string, from after its opening apostrophe. -/
def readLiteral : List Char → Option (List Char × List Char)
  | [] => none
  | '\'' :: rest => some ([], rest)
  | c :: rest =>
    if isPlain c then do
      let (cs, left) ← readLiteral rest
      pure (c :: cs, left)
    else none

/-- A string of either sort. -/
def readString : List Char → Option (String × List Char)
  | '"' :: rest => (readBasic rest).map fun (cs, left) => (String.ofList cs, left)
  | '\'' :: rest => (readLiteral rest).map fun (cs, left) => (String.ofList cs, left)
  | _ => none

/-! ## Scalars -/

/-- A string, a truth value or a number. -/
def readScalar (cs : List Char) : Option (Value × List Char) :=
  match cs with
  | '"' :: _ | '\'' :: _ => (readString cs).map fun (s, rest) => (.text s, rest)
  | 't' :: _ => (afterWord "true" cs).map fun rest => (.bool true, rest)
  | 'f' :: _ => (afterWord "false" cs).map fun rest => (.bool false, rest)
  | _ => readNumber cs

end AdaptiveLL.Toml
