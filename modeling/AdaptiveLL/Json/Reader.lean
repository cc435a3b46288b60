import AdaptiveLL.Json.Value
import AdaptiveLL.Text

/-!
# Reading JSON

`Value.parse?` reads one document and nothing after it but blanks. The grammar is the strict one:
no comments, no trailing commas, no leading zeros, no raw control characters in strings. A `\u`
escape of a surrogate has to be followed by its other half. An integer that does not fit 64 bits,
and the integer spelt `-0`, are kept as numbers of the other sort (`Value.real`).

Every reader takes the characters that are left and gives back what it read with the characters
after it. Readers that call each other spend fuel; the length of the text is always enough, since
each level of nesting consumes a bracket.
-/

namespace AdaptiveLL.Json

/-- The four blanks of the format. -/
def isBlank (c : Char) : Bool := c = ' ' || c = '\n' || c = '\t' || c = '\r'

/-- The characters after the leading blanks. -/
def skipBlanks (cs : List Char) : List Char := cs.dropWhile isBlank

/-- The characters after a fixed word, where the text begins with it. -/
def afterWord : List Char → List Char → Option (List Char)
  | [], cs => some cs
  | _ :: _, [] => none
  | w :: ws, c :: cs => if w = c then afterWord ws cs else none

/-! ## Numbers -/

/-- The decimal digits in front, and what follows them. -/
def spanDigits (cs : List Char) : List Char × List Char := cs.span Char.isDigit

/-- The value of a list of decimal digits. -/
def digitsValue (ds : List Char) : Nat := ds.foldl (fun n d => 10 * n + (d.toNat - 48)) 0

/-- The fraction in front, if there is one: a point and at least one digit. -/
def readFraction : List Char → Option (List Char × List Char)
  | '.' :: rest =>
    match spanDigits rest with
    | ([], _) => none
    | (ds, left) => some ('.' :: ds, left)
  | cs => some ([], cs)

/-- The exponent in front, if there is one: a letter, perhaps a sign, and at least one digit. -/
def readExponent : List Char → Option (List Char × List Char)
  | c :: rest =>
    if c = 'e' ∨ c = 'E' then
      let (sign, digits) :=
        match rest with
        | '+' :: r => (['+'], r)
        | '-' :: r => (['-'], r)
        | r => ([], r)
      match spanDigits digits with
      | ([], _) => none
      | (ds, left) => some (c :: sign ++ ds, left)
    else some ([], c :: rest)
  | [] => some ([], [])

/-- The number a spelling denotes: a 64-bit integer where it is one. -/
def numberOf (negative : Bool) (whole tail : List Char) : Value :=
  let magnitude := digitsValue whole
  let spelling := String.ofList ((if negative then ['-'] else []) ++ whole ++ tail)
  if !tail.isEmpty then .real spelling
  else if negative then
    if magnitude = 0 || !Numeral.fitsInt64 (-(magnitude : Int)) then .real spelling
    else .int (-(magnitude : Int))
  else if magnitude ≤ Numeral.maxWord then .int magnitude else .real spelling

/-- A number: a sign, digits without a leading zero, a fraction and an exponent. -/
def readNumber (cs : List Char) : Option (Value × List Char) :=
  let (negative, cs) :=
    match cs with
    | '-' :: r => (true, r)
    | r => (false, r)
  match spanDigits cs with
  | ([], _) => none
  | ('0' :: _ :: _, _) => none
  | (whole, cs) => do
    let (fraction, cs) ← readFraction cs
    let (exponent, cs) ← readExponent cs
    pure (numberOf negative whole (fraction ++ exponent), cs)

/-! ## Strings -/

/-- The value of four hexadecimal digits. -/
def hexQuad? (a b c d : Char) : Option Nat := do
  let a ← Numeral.hexValue? a
  let b ← Numeral.hexValue? b
  let c ← Numeral.hexValue? c
  let d ← Numeral.hexValue? d
  pure (((a * 16 + b) * 16 + c) * 16 + d)

/-- The code point of a one-letter escape. -/
def shortEscape? (c : Char) : Option Nat :=
  match c with
  | '"' => some 34
  | '\\' => some 92
  | '/' => some 47
  | 'b' => some 8
  | 'f' => some 12
  | 'n' => some 10
  | 'r' => some 13
  | 't' => some 9
  | _ => none

/-- The units of a string up to the closing quotation mark: a code point for each character and
escape, half a code point for a surrogate escape. -/
def readUnits : List Char → Option (List Nat × List Char)
  | '"' :: rest => some ([], rest)
  | '\\' :: 'u' :: a :: b :: c :: d :: rest => do
    let unit ← hexQuad? a b c d
    let (units, left) ← readUnits rest
    pure (unit :: units, left)
  | '\\' :: c :: rest => do
    let unit ← shortEscape? c
    let (units, left) ← readUnits rest
    pure (unit :: units, left)
  | c :: rest =>
    if c.toNat < 32 then none
    else do
      let (units, left) ← readUnits rest
      pure (c.toNat :: units, left)
  | [] => none

/-- Whether the unit is the first half of a code point. -/
def isHighHalf (u : Nat) : Bool := 0xD800 ≤ u && u < 0xDC00

/-- Whether the unit is the second half of a code point. -/
def isLowHalf (u : Nat) : Bool := 0xDC00 ≤ u && u < 0xE000

/-- The characters of some units: halves are joined in pairs, and one that stands alone spoils the
text. -/
def joinHalves : List Nat → Option (List Char)
  | [] => some []
  | u :: rest =>
    if isHighHalf u then
      match rest with
      | v :: rest =>
        if isLowHalf v then
          (joinHalves rest).map
            (Char.ofNat (0x10000 + (u - 0xD800) * 0x400 + (v - 0xDC00)) :: ·)
        else none
      | [] => none
    else if isLowHalf u then none
    else (joinHalves rest).map (Char.ofNat u :: ·)

/-- A string, from after its opening quotation mark. -/
def readString (cs : List Char) : Option (String × List Char) := do
  let (units, left) ← readUnits cs
  let chars ← joinHalves units
  pure (String.ofList chars, left)

/-! ## Values -/

mutual

/-- A value, after any blanks. -/
def readValue : Nat → List Char → Option (Value × List Char)
  | 0, _ => none
  | fuel + 1, cs =>
    match skipBlanks cs with
    | 'n' :: rest => (afterWord "ull".toList rest).map fun r => (Value.null, r)
    | 't' :: rest => (afterWord "rue".toList rest).map fun r => (Value.bool true, r)
    | 'f' :: rest => (afterWord "alse".toList rest).map fun r => (Value.bool false, r)
    | '"' :: rest => (readString rest).map fun p => (Value.text p.1, p.2)
    | '[' :: rest =>
      match skipBlanks rest with
      | ']' :: rest => some (.list [], rest)
      | rest => (readItems fuel rest).map fun p => (Value.list p.1, p.2)
    | '{' :: rest =>
      match skipBlanks rest with
      | '}' :: rest => some (.record [], rest)
      | rest => (readMembers fuel rest).map fun p => (Value.record p.1, p.2)
    | rest => readNumber rest

/-- The items of a list that has at least one, up to its closing bracket. -/
def readItems : Nat → List Char → Option (List Value × List Char)
  | 0, _ => none
  | fuel + 1, cs => do
    let (item, cs) ← readValue fuel cs
    match skipBlanks cs with
    | ',' :: rest => do
      let (items, rest) ← readItems fuel rest
      pure (item :: items, rest)
    | ']' :: rest => pure ([item], rest)
    | _ => none

/-- The members of an object that has at least one, up to its closing brace. -/
def readMembers : Nat → List Char → Option (List (String × Value) × List Char)
  | 0, _ => none
  | fuel + 1, cs => do
    match skipBlanks cs with
    | '"' :: rest => do
      let (name, rest) ← readString rest
      match skipBlanks rest with
      | ':' :: rest => do
        let (v, rest) ← readValue fuel rest
        match skipBlanks rest with
        | ',' :: rest => do
          let (others, rest) ← readMembers fuel rest
          pure ((name, v) :: others, rest)
        | '}' :: rest => pure ([(name, v)], rest)
        | _ => none
      | _ => none
    | _ => none

end

/-- **Reads a whole document.** Nothing but blanks may follow the value. -/
def Value.parse? (s : String) : Option Value :=
  let cs := s.toList
  match readValue (2 * cs.length + 2) cs with
  | some (v, rest) => if (skipBlanks rest).isEmpty then some v else none
  | none => none

end AdaptiveLL.Json
