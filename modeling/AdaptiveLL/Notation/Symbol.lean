import AdaptiveLL.AltSet
import AdaptiveLL.Json.Value
import AdaptiveLL.SymbolSet

/-!
# Notation of symbols

How people write symbols: a number, or a text of one character for its code point. A range is a
list of two symbols, a set a list of ranges.
-/

namespace AdaptiveLL

open Json

/-- A symbol as a person writes it. -/
def Symbol.ofJson : Value → Symbol
  | .text s => (s.toList.head?.map fun c => (c.toNat : Int)).getD 0
  | v => v.toInt

/-- The symbol of a member. -/
def Symbol.at (v : Value) (name : String) : Symbol := Symbol.ofJson (v.memberAt name)

/-- A range as a person writes it. -/
def Symbol.rangeOfJson : Value → Symbol × Symbol
  | .list [a, b] => (Symbol.ofJson a, Symbol.ofJson b)
  | _ => (0, 0)

/-- The ranges of a member. -/
def Symbol.rangesAt (v : Value) (name : String) : List (Symbol × Symbol) :=
  (v.listAt name).map Symbol.rangeOfJson

/-- The spans of a set as a list of ranges. -/
def SymbolSet.toRanges (s : SymbolSet) : Value :=
  .listOf (fun p => .list [.int p.start, .int p.stop]) s.spans

/-- The members of a set of alternatives. -/
def AltSet.toJson (s : AltSet) : Value := .listOf .nat s.toList

/-- A set of alternatives from a list of them. -/
def AltSet.ofJson (v : Value) : AltSet := .ofList (v.items.map Value.toNat)

end AdaptiveLL
