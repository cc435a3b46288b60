/-!
# Hosts

Predicates and actions are opaque to the automaton: it names them by rule and number, and the host
program decides what they mean. A host whose answers depend only on the question is two
functions. What it was asked is a list of callbacks, which the caller can inspect.

A host may keep a state of its own that its callbacks change. An oracle says how such a host answers
after the callbacks made so far; it is steady if they do not matter.
-/

namespace AdaptiveLL

/-- One question or order to the host. -/
inductive Callback where
  /-- Does the predicate of the rule hold with the input at the position? -/
  | predicate (rule pred position : Nat)
  /-- May an operator of this level continue the current rule? -/
  | precedence (level : Int)
  /-- Run the action of the rule, with the input at the position. -/
  | action (rule action position : Nat)
deriving DecidableEq, Inhabited

/-- Whether a parse puts such a question to the host: it answers precedence tests by itself. -/
def Callback.isAsked : Callback → Bool
  | precedence _ => false
  | _ => true

/-- The answers of a host. -/
structure Host where
  predicate : (rule pred position : Nat) → Bool
  precedence : (level : Int) → Bool

namespace Host

/-- The host to which every predicate holds. -/
def permissive : Host := ⟨fun _ _ _ => true, fun _ => true⟩

instance : Inhabited Host := ⟨permissive⟩

/-- The host that lets an operator continue if its level is at least `least`, and otherwise
answers as `h` does. -/
def atLevel (h : Host) (least : Int) : Host := { h with precedence := fun level => least ≤ level }

/-- **A host given by tables.** A predicate is looked up with its position first, then without;
one that stands in neither table has the answer `otherwise`. -/
structure Script where
  placed : List ((Nat × Nat × Nat) × Bool) := []
  plain : List ((Nat × Nat) × Bool) := []
  otherwise : Bool := true
  leastLevel : Int := 0
deriving Inhabited

/-- The host that answers as its script says. -/
def ofScript (s : Script) : Host where
  predicate rule pred position :=
    match s.placed.lookup (rule, pred, position) with
    | some answer => answer
    | none => (s.plain.lookup (rule, pred)).getD s.otherwise
  precedence level := s.leastLevel ≤ level

end Host

/-- **The answers of a host that callbacks may change.** -/
structure Oracle where
  /-- The answers after the callbacks made so far, oldest first. -/
  after : List Callback → Host

namespace Oracle

/-- A host whose answers never change. -/
instance : Coe Host Oracle := ⟨fun h => ⟨fun _ => h⟩⟩

/-- The oracle to which every predicate holds at any time. -/
abbrev permissive : Oracle := Host.permissive

instance : Inhabited Oracle := ⟨permissive⟩

/-- The answers before any callback. -/
def now (o : Oracle) : Host := o.after []

/-- An oracle whose answers never change. -/
def Steady (o : Oracle) : Prop := ∀ past, o.after past = o.now

/-- The oracle that lets an operator continue if its level is at least `least`, and otherwise answers
as `o` does, which is not asked for levels. -/
def atLevel (o : Oracle) (least : Int) : Oracle :=
  ⟨fun past => (o.after (past.filter Callback.isAsked)).atLevel least⟩

end Oracle

end AdaptiveLL
