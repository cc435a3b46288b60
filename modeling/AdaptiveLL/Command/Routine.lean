import AdaptiveLL.Command.Basic
import AdaptiveLL.Lexing.Error

/-!
# Routines

The commands collected on the way to a token form a routine, run in order when the token is
committed. `Control` is the panel of switches through which commands act on a lexer, whatever its
state is made of.
-/

namespace AdaptiveLL

/-- **The switches of a lexer** with states in `σ`. Modes can be refused. -/
structure Control (σ : Type) where
  setType : Int → σ → σ
  setChannel : Int → σ → σ
  setMode : Nat → EStateM LexError σ Unit
  pushMode : Nat → EStateM LexError σ Unit
  popMode : EStateM LexError σ Nat
  skip : σ → σ
  more : σ → σ
  custom : (rule action : Nat) → σ → σ
  position : σ → Nat
  seek : Nat → σ → σ

/-- Runs one command. A custom action presumes that the input stands at its place. -/
def Command.run {σ : Type} (c : Control σ) : Command → EStateM LexError σ Unit
  | .setChannel channel => modify (c.setChannel channel)
  | .custom rule action => modify (c.custom rule action)
  | .setMode mode => c.setMode mode
  | .more => modify c.more
  | .popMode => do let _ ← c.popMode
  | .pushMode mode => c.pushMode mode
  | .skip => modify c.skip
  | .setType type => modify (c.setType type)
  | .pinned _ command => command.run c

/-- The commands of a token, in the order in which they run. -/
structure Routine where
  commands : List Command
deriving DecidableEq, Hashable, Inhabited

namespace Routine

/-- The routine with one more command at its end; without a routine, the command alone. -/
def append (r : Option Routine) (c : Command) : Routine :=
  ⟨(r.map Routine.commands).getD [] ++ [c]⟩

/-- Whether a command still has to be pinned to its place. -/
def needsPin (c : Command) : Bool := c.isPositionDependent && !c.isPinned

/-- Pins the commands that need it to an offset; `none` if there are none. -/
def pin? (r : Routine) (offset : Nat) : Option Routine :=
  if r.commands.any needsPin then
    some ⟨r.commands.map fun c => if needsPin c then .pinned offset c else c⟩
  else none

/-- Pins the commands that need it to an offset. -/
def pin (r : Routine) (offset : Nat) : Routine := (r.pin? offset).getD r

/-! ## Running -/

/-- Puts the input where a command has to find it: a pinned command at its offset from `start`,
a custom action at `stop`. The answer says whether the input is then away from `stop`; `away` says
whether it was before. -/
def approach {σ : Type} (c : Control σ) (start stop : Nat) (away : Bool) :
    Command → EStateM LexError σ Bool
  | .pinned offset _ => do
    modify (c.seek (start + offset))
    pure (start + offset != stop)
  | .custom .. => do
    modify (c.seek stop)
    pure false
  | _ => pure away

/-- Runs commands until one fails. The answer says whether the input was left away from `stop`;
after a failure it is put back there. -/
def runAll {σ : Type} (c : Control σ) (start stop : Nat) :
    Bool → List Command → EStateM LexError σ Bool
  | away, [] => pure away
  | away, command :: rest => do
    let away ← approach c start stop away command
    try command.run c
    catch e =>
      modify (c.seek stop)
      throw e
    runAll c start stop away rest

/-- **Runs the routine of a token that starts at `start`,** with the input at its end. Every
command finds the input at its place, and afterwards the input stands at the end again, whether
the routine failed or not. -/
def run {σ : Type} (r : Routine) (c : Control σ) (start : Nat) : EStateM LexError σ Unit := do
  let stop := c.position (← get)
  if ← runAll c start stop false r.commands then
    modify (c.seek stop)

/-- The routine as diagnostics show it. -/
def render (r : Routine) : String := "[" ++ ", ".intercalate (r.commands.map toString) ++ "]"

instance : ToString Routine := ⟨render⟩

end Routine

end AdaptiveLL
