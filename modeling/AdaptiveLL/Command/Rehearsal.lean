import AdaptiveLL.Command.Routine

/-!
# Rehearsals

A stand-in for a lexer, with which a routine can be watched: it keeps the state the commands act
on and notes every switch that is thrown, with the position of the input.
-/

namespace AdaptiveLL

/-- A switch that was thrown, and where the input stood. -/
inductive Signal where
  | type (type : Int) (position : Nat)
  | channel (channel : Int) (position : Nat)
  | mode (mode position : Nat)
  | push (mode position : Nat)
  | pop (position : Nat)
  | skip (position : Nat)
  | more (position : Nat)
  | custom (rule action position : Nat)
  | seek (position : Nat)
deriving DecidableEq, Inhabited

/-- The state of the stand-in. -/
structure Rehearsal where
  position : Nat := 0
  mode : Nat := 0
  /-- The stacked modes, the latest last. -/
  modes : List Nat := []
  type : Option Int := none
  channel : Int := 0
  /-- The number of modes there are. -/
  modeCount : Nat := 2
  signals : List Signal := []
deriving Inhabited

namespace Rehearsal

/-- Notes a signal. -/
def note (r : Rehearsal) (s : Signal) : Rehearsal := { r with signals := r.signals ++ [s] }

/-- Whether there is such a mode. -/
def check (mode : Nat) : EStateM LexError Rehearsal Unit := do
  unless mode < (← get).modeCount do throw (.unknownMode mode)

/-- The switches of the stand-in. -/
def control : Control Rehearsal where
  setType type r := { r.note (.type type r.position) with type := some type }
  setChannel channel r := { r.note (.channel channel r.position) with channel := channel }
  setMode mode := do
    modify fun r => r.note (.mode mode r.position)
    check mode
    modify fun r => { r with mode := mode }
  pushMode mode := do
    modify fun r => r.note (.push mode r.position)
    check mode
    modify fun r => { r with modes := r.modes ++ [r.mode], mode := mode }
  popMode := do
    modify fun r => r.note (.pop r.position)
    let r ← get
    match r.modes.getLast? with
    | none => throw .emptyModeStack
    | some mode =>
      set { r with modes := r.modes.dropLast, mode := mode }
      pure mode
  skip r := r.note (.skip r.position)
  more r := r.note (.more r.position)
  custom rule action r := r.note (.custom rule action r.position)
  position := Rehearsal.position
  seek index r := { r.note (.seek index) with position := index }

end Rehearsal

end AdaptiveLL
