/-!
# Text

What is read from plain text: blanks and capitals, as far as settings need them, and numerals. An
unsigned 64-bit number in a text that a person or a shell wrote has an optional plus sign and at
least one decimal digit, and nothing else. Leading zeros are fine, a value that does not fit is not.
-/

namespace AdaptiveLL.Text

/-- **Whether the character is white space:** the characters with that property in the character
database, which are the ASCII blanks from tab to carriage return, the space, and those of other
scripts. -/
def isBlank (c : Char) : Bool :=
  let n := c.toNat
  (9 ≤ n && n ≤ 13) || n == 0x20 || n == 0x85 || n == 0xA0 || n == 0x1680 ||
    (0x2000 ≤ n && n ≤ 0x200A) || n == 0x2028 || n == 0x2029 || n == 0x202F || n == 0x205F ||
    n == 0x3000

/-- The text without blanks at either end. -/
def trim (s : String) : String :=
  String.ofList (((s.toList.dropWhile isBlank).reverse.dropWhile isBlank).reverse)

/-- The text with its ASCII capitals made small. -/
def lower (s : String) : String := String.ofList (s.toList.map Char.toLower)

end AdaptiveLL.Text

namespace AdaptiveLL.Numeral

/-- The largest unsigned number of 64 bits. -/
def maxWord : Nat := 0xffffffffffffffff

/-- Whether a signed number of 32 bits holds the integer. -/
def fitsInt32 (n : Int) : Bool := decide (-0x80000000 ≤ n) && decide (n ≤ 0x7fffffff)

/-- Whether a signed number of 64 bits holds the integer. -/
def fitsInt64 (n : Int) : Bool :=
  decide (-0x8000000000000000 ≤ n) && decide (n ≤ 0x7fffffffffffffff)

/-- The integer, if a signed number of 32 bits holds it. -/
def int32? (n : Int) : Option Int := if fitsInt32 n then some n else none

/-- The number that decimal digits denote; `none` for an empty list or a character that is no
digit. -/
def ofDigits? : List Char → Option Nat
  | [] => none
  | cs =>
    if cs.all Char.isDigit then some (cs.foldl (fun n c => 10 * n + (c.toNat - 48)) 0) else none

/-- **An unsigned number of 64 bits.** -/
def word? (s : String) : Option Nat := do
  let n ←
    match s.toList with
    | '+' :: digits => ofDigits? digits
    | digits => ofDigits? digits
  if n ≤ maxWord then some n else none

/-- The value of a hexadecimal digit. -/
def hexValue? (c : Char) : Option Nat :=
  if '0' ≤ c ∧ c ≤ '9' then some (c.toNat - 48)
  else if 'a' ≤ c ∧ c ≤ 'f' then some (c.toNat - 87)
  else if 'A' ≤ c ∧ c ≤ 'F' then some (c.toNat - 55)
  else none

end AdaptiveLL.Numeral
