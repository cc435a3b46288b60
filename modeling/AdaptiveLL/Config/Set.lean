import AdaptiveLL.AltSet
import AdaptiveLL.Config.Basic

/-!
# Configuration sets

A set keeps configurations in the order in which they were added. In a parser's set two
configurations that agree on state, alternative and guard are one, and their stacks are merged. In
a lexer's set, which is *ordered*, only exact repetitions are dropped: there the order is the
priority of the rules.
-/

namespace AdaptiveLL

/-- What configurations of a set are told apart by. -/
structure ConfigKey where
  state : StateId
  alt : Nat
  guard : Guard
  /-- In an ordered set also the stacks, the routine and the non-greedy mark. -/
  exact : Option (StackId × Option Routine × Bool)
deriving DecidableEq, Inhabited

/-- A set of configurations. -/
structure ConfigSet where
  configs : Array Config := #[]
  ordered : Bool := false
  /-- Whether the stacks are exact: the empty stack is then no wildcard. -/
  fullContext : Bool := false
  maxSize : Nat := Limits.configsPerSet
  /-- Whether some configuration has a guard. -/
  hasGuards : Bool := false
  /-- Whether some configuration reached an outer context. -/
  dipsOut : Bool := false
  /-- The alternative that all configurations speak for, once it is known. -/
  uniqueAlt : Nat := noAlternative
  /-- The alternatives in conflict, once they are known. -/
  conflicting : Option AltSet := none
deriving DecidableEq, Inhabited

/-- A short description of a configuration set. -/
structure ConfigSummary where
  count : Nat
  alts : AltSet
  fullContext : Bool
deriving DecidableEq, Inhabited

/-- The description as diagnostics show it. -/
def ConfigSummary.render (s : ConfigSummary) : String :=
  s!"{s.count} configs, alts {s.alts}" ++ if s.fullContext then ", full context" else ""

namespace ConfigSet

/-- A parser's set. -/
def forParser (fullContext : Bool) : ConfigSet := { fullContext := fullContext }

/-- A lexer's set. -/
def forLexer : ConfigSet := { ordered := true, fullContext := true }

/-! ## Adding -/

/-- What the set tells a configuration apart by. -/
def key (s : ConfigSet) (c : Config) : ConfigKey :=
  ⟨c.state, c.alt, c.guard, if s.ordered then some (c.stack, c.routine, c.nonGreedy) else none⟩

/-- The set with the marks that a configuration brings. -/
def mark (s : ConfigSet) (c : Config) : ConfigSet :=
  { s with
    hasGuards := s.hasGuards || !c.guard.isAlways
    dipsOut := s.dipsOut || decide (0 < c.outer) }

/-- What becomes of a configuration when one with the same key is added under merged stacks. -/
def absorb (old c : Config) (stack : StackId) : Config :=
  { old with
    outer := max old.outer c.outer
    nonGreedy := old.nonGreedy || c.nonGreedy
    stack := stack }

/-- Merges the stacks of two nodes of the graph beside the set. -/
def mergeStacks (a b : StackId) (wild : Bool) : EStateM Exceeded (ConfigSet × StackGraph) StackId :=
  fun (s, g) =>
    match (StackGraph.merge a b wild).run g with
    | .ok id g => .ok id (s, g)
    | .error e g => .error e (s, g)

/-- Changes the set beside the graph. -/
def change (f : ConfigSet → ConfigSet) : EStateM Exceeded (ConfigSet × StackGraph) Unit :=
  modify fun (s, g) => (f s, g)

/-- **Adds a configuration.** The answer says whether it is a new one. The marks are set before
anything can fail. -/
def add (c : Config) : EStateM Exceeded (ConfigSet × StackGraph) Bool := do
  change (·.mark c)
  let s := (← get).1
  match s.configs.findIdx? fun d => s.key d = s.key c with
  | some i =>
    -- An ordered set keeps the first of equal threads; elsewhere the stacks are merged.
    if s.ordered then pure false
    else do
      let old := s.configs[i]?.getD default
      let stack ← mergeStacks old.stack c.stack !s.fullContext
      change fun s => { s with configs := s.configs.modify i (absorb · c stack) }
      pure false
  | none =>
    if s.maxSize ≤ s.configs.size then
      throw ⟨.configSetSize, s.maxSize, s.configs.size + 1⟩
    else do
      change fun s => { s with configs := s.configs.push c }
      pure true

/-- The set after adding a configuration. -/
def insert (s : ConfigSet) (c : Config) : Growing ConfigSet := fun g =>
  match (add c).run (s, g) with
  | .ok _ (s, g) => .ok s g
  | .error e (_, g) => .error e g

/-! ## Reading -/

/-- The configurations in order. -/
def toList (s : ConfigSet) : List Config := s.configs.toList

/-- The number of configurations. -/
def size (s : ConfigSet) : Nat := s.configs.size

/-- Whether there is no configuration. -/
def isEmpty (s : ConfigSet) : Bool := s.configs.isEmpty

/-- The alternatives that the configurations speak for. -/
def alts (s : ConfigSet) : AltSet := .ofList (s.toList.map Config.alt)

/-- Whether two sets hold the same configurations in the same order. -/
def sameConfigs (s t : ConfigSet) : Bool :=
  s.toList.map Config.identity == t.toList.map Config.identity

/-- Whether two sets are the same: they hold the same configurations and agree on what was found
out about them. -/
def same (s t : ConfigSet) : Bool :=
  s.fullContext == t.fullContext && s.uniqueAlt == t.uniqueAlt &&
    s.conflicting == t.conflicting && s.hasGuards == t.hasGuards && s.dipsOut == t.dipsOut &&
    s.sameConfigs t

/-- The short description of the set. -/
def summary (s : ConfigSet) : ConfigSummary := ⟨s.size, s.alts, s.fullContext⟩

/-- The set as diagnostics show it. -/
def render (g : StackGraph) (s : ConfigSet) : String :=
  "[" ++ ", ".intercalate (s.toList.map (·.render g)) ++ "]"

end ConfigSet

end AdaptiveLL
