/-!
# JSON values

The documents this library saves and loads. Numbers are integers of at most 64 bits; any other
number keeps its spelling, so that a decoder can tell it apart and refuse it. An object keeps its
members in the order they are written, repeated names included.
-/

namespace AdaptiveLL.Json

/-- A JSON value. -/
inductive Value where
  | null
  | bool (b : Bool)
  | int (n : Int)
  /-- A number that is no 64-bit integer, as it is spelt. -/
  | real (spelling : String)
  | text (s : String)
  | list (items : List Value)
  | record (members : List (String × Value))
deriving Inhabited

namespace Value

/-- The JSON number of a natural number. -/
def nat (n : Nat) : Value := .int n

/-- A value that may be missing: `null` where it is. -/
def optional {α : Type} (encode : α → Value) : Option α → Value
  | none => .null
  | some a => encode a

/-- The list of the encoded items. -/
def listOf {α : Type} (encode : α → Value) (items : List α) : Value := .list (items.map encode)

mutual

/-- The number of lists and objects on the deepest way into the value. -/
def height : Value → Nat
  | .list items => heightOfItems items + 1
  | .record members => heightOfMembers members + 1
  | _ => 0

/-- The height of the highest item. -/
def heightOfItems : List Value → Nat
  | [] => 0
  | v :: rest => max v.height (heightOfItems rest)

/-- The height of the highest member. -/
def heightOfMembers : List (String × Value) → Nat
  | [] => 0
  | (_, v) :: rest => max v.height (heightOfMembers rest)

end

/-- The members of an object, and nothing for any other value. -/
def members : Value → List (String × Value)
  | .record ms => ms
  | _ => []

/-- The first member of the name. -/
def get? (v : Value) (name : String) : Option Value := v.members.lookup name

/-! ## Lenient access

Reading parts of a value that was written by hand: a member that is missing, `null` or of another
type stands for a fallback.
-/

/-- The integer, or zero. -/
def toInt : Value → Int
  | .int n => n
  | _ => 0

/-- The natural number, or zero. -/
def toNat (v : Value) : Nat := v.toInt.toNat

/-- The truth value, or `false`. -/
def toBool : Value → Bool
  | .bool b => b
  | _ => false

/-- The text, or the empty one. -/
def toText : Value → String
  | .text s => s
  | _ => ""

/-- The items of a list, or none. -/
def items : Value → List Value
  | .list vs => vs
  | _ => []

/-- A member that is there and not `null`. -/
def member? (v : Value) (name : String) : Option Value :=
  match v.get? name with
  | some .null => none
  | r => r

/-- A member, or `null`. -/
def memberAt (v : Value) (name : String) : Value := (v.member? name).getD .null

/-- The integer of a member. -/
def intAt (v : Value) (name : String) (fallback : Int := 0) : Int :=
  match v.member? name with
  | some (.int n) => n
  | _ => fallback

/-- The natural number of a member, if there is one. -/
def natAt? (v : Value) (name : String) : Option Nat :=
  match v.member? name with
  | some (.int n) => some n.toNat
  | _ => none

/-- The natural number of a member. -/
def natAt (v : Value) (name : String) (fallback : Nat := 0) : Nat :=
  (v.natAt? name).getD fallback

/-- The truth value of a member. -/
def boolAt (v : Value) (name : String) (fallback : Bool := false) : Bool :=
  match v.member? name with
  | some (.bool b) => b
  | _ => fallback

/-- The text of a member, if there is one. -/
def textAt? (v : Value) (name : String) : Option String :=
  match v.member? name with
  | some (.text s) => some s
  | _ => none

/-- The text of a member. -/
def textAt (v : Value) (name : String) (fallback : String := "") : String :=
  (v.textAt? name).getD fallback

/-- The items of a member. -/
def listAt (v : Value) (name : String) : List Value := (v.memberAt name).items

/-- The natural numbers of a member. -/
def natsAt (v : Value) (name : String) : List Nat := (v.listAt name).map toNat

/-- An object with more members. -/
def extend (v : Value) (more : List (String × Value)) : Value := .record (v.members ++ more)

end Value

end AdaptiveLL.Json
