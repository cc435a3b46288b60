import AdaptiveLL.Json.Value
import AdaptiveLL.Text

/-!
# Decoding JSON values

Readers from `Value` to the types of the library. An integer has to be written as one and to fit
its type. A structure is written as an object, whose member names may come in any order and whose
unknown members do not matter, or as the list of its members in the order of declaration. A name
that occurs twice among the known ones is refused.
-/

namespace AdaptiveLL.Json

/-- A reader of values of one type. -/
abbrev Decoder (α : Type) := Value → Option α

namespace Decoder

/-- A natural number of at most 64 bits. -/
def nat : Decoder Nat
  | .int n => if 0 ≤ n then some n.toNat else none
  | _ => none

/-- A signed integer of 32 bits. -/
def int32 : Decoder Int
  | .int n => if Numeral.fitsInt32 n then some n else none
  | _ => none

/-- A truth value. -/
def bool : Decoder Bool
  | .bool b => some b
  | _ => none

/-- A string. -/
def text : Decoder String
  | .text s => some s
  | _ => none

/-- A list of values of one type. -/
def list {α : Type} (decode : Decoder α) : Decoder (List α)
  | .list items => items.mapM decode
  | _ => none

/-- A value that may be `null`. -/
def nullable {α : Type} (decode : Decoder α) : Decoder (Option α)
  | .null => some none
  | v => (decode v).map some

/-- A name from a fixed list, written alone or as the only member of an object, with `null`. -/
def name {α : Type} (lookup : String → Option α) : Decoder α
  | .text s => lookup s
  | .record [(s, .null)] => lookup s
  | _ => none

end Decoder

/-- The value of the one member with the name, `none` inside where there is none; a repeated name
is refused. -/
def uniqueMember (ms : List (String × Value)) (name : String) : Option (Option Value) :=
  match ms.filter (·.1 == name) with
  | [] => some none
  | [(_, v)] => some (some v)
  | _ => none

/-- **The members of a structure, in the order of its names.** A member that is not there is
`none`. -/
def structureMembers (names : List String) : Value → Option (List (Option Value))
  | .record ms => names.mapM (uniqueMember ms)
  | .list items =>
    if items.length ≤ names.length then
      some (items.map some ++ List.replicate (names.length - items.length) none)
    else none
  | _ => none

/-- **The kind and the other members of a tagged structure.** The kind is the member `kind` of an
object or the first item of a list. -/
def taggedMembers : Value → Option (String × Value)
  | .record ms =>
    match uniqueMember ms "kind" with
    | some (some (.text kind)) => some (kind, .record (ms.filter (·.1 != "kind")))
    | _ => none
  | .list (.text kind :: items) => some (kind, .list items)
  | _ => none

/-- A member that has to be there. -/
def required {α : Type} (decode : Decoder α) : Option Value → Option α
  | some v => decode v
  | none => none

/-- A member that stands for `fallback` where it is missing. -/
def defaulting {α : Type} (fallback : α) (decode : Decoder α) : Option Value → Option α
  | some v => decode v
  | none => some fallback

end AdaptiveLL.Json
