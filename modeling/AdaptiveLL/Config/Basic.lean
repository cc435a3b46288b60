import AdaptiveLL.Command.Routine
import AdaptiveLL.StackGraph

/-!
# Configurations

A configuration is one thread of a run through a network: the state it stands at, the alternative
it speaks for, the stacks it may run under, and the guard it was reached under. In a lexer it also
carries the commands collected on its way.
-/

namespace AdaptiveLL

/-- A configuration. -/
structure Config where
  state : StateId
  alt : Nat
  stack : StackId
  guard : Guard := .always
  /-- How often the thread left the rule of the decision for an unknown caller. -/
  outer : Nat := 0
  routine : Option Routine := none
  /-- Whether the thread went through a non-greedy decision. -/
  nonGreedy : Bool := false
deriving DecidableEq, Inhabited

namespace Config

/-- What makes two configurations the same: everything but how often an outer context was
reached. -/
def identity (c : Config) : Config := { c with outer := 0 }

/-- Whether two configurations are the same. -/
def same (c d : Config) : Bool := c.identity = d.identity

/-- The configuration moved to a state. -/
def moveTo (c : Config) (s : StateId) : Config := { c with state := s }

/-- The configuration moved to a state under other stacks. -/
def moveUnder (c : Config) (s : StateId) (stack : StackId) : Config :=
  { c with state := s, stack := stack }

/-- The configuration as diagnostics show it. -/
def render (g : StackGraph) (c : Config) : String :=
  let guard := if c.guard.isAlways then "" else "," ++ c.guard.render
  let outer := if 0 < c.outer then s!",up={c.outer}" else ""
  s!"({c.state},{c.alt},{g.render c.stack}{guard}{outer})"

end Config

end AdaptiveLL
