/-!
# Symbols

A symbol is what one step of an automaton consumes: the type of a token for a parser, a code
point for a lexer. Both are integers, and two negative values are reserved: `eof` stands for the
end of the input and `ruleEnd` is the look-ahead marker "the end of the rule is reachable".
-/

namespace AdaptiveLL

/-- An input symbol: a token type or a code point. -/
abbrev Symbol := Int

namespace Symbol

/-- The symbol presented at the end of the input. -/
def eof : Symbol := -1

/-- The look-ahead marker for "the end of the rule is reachable". -/
def ruleEnd : Symbol := -2

/-- The least token type a grammar may define. -/
def firstToken : Symbol := 1

/-- The token type of a rule that emits no token. -/
def noToken : Symbol := 0

/-- The least code point. -/
def firstChar : Symbol := 0

/-- The greatest code point. -/
def lastChar : Symbol := 0x10FFFF

end Symbol

/-! ## Printing -/

/-- The digits of `n` in base sixteen, in capitals. -/
def hexDigits (n : Nat) : String :=
  String.ofList ((Nat.toDigits 16 n).map Char.toUpper)

/-- The character with code point `c`, where there is one: surrogates have none. -/
def Symbol.char? (c : Symbol) : Option Char :=
  if h : 0 ≤ c ∧ c.toNat.isValidChar then some (Char.ofNatAux c.toNat h.2) else none

/-- **The printed form of a code point.** The three common control characters are escaped, and a
number that is no code point is shown in hexadecimal as a 32-bit word. -/
def Symbol.showChar (c : Symbol) : String :=
  if c = Symbol.eof then "<EOF>"
  else if c = 0x0A then "'\\n'"
  else if c = 0x0D then "'\\r'"
  else if c = 0x09 then "'\\t'"
  else match c.char? with
    | some ch => "'" ++ ch.toString ++ "'"
    | none => "'\\u\x7b" ++ hexDigits (c % 0x100000000).toNat ++ "\x7d'"

end AdaptiveLL
