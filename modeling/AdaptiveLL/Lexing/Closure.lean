import AdaptiveLL.Config.Set
import AdaptiveLL.Probe

/-!
# Closures of a lexer

The threads of a lexer are followed as those of a parser are, depth first and the first transition
first, since the order of the configurations is the priority of the token rules. Guards are put to
the host at once, with the input where the thread stands. Commands are collected in the routine of
the thread, except in rules that are called: what these order is the caller's business.

Once a thread of the alternative has finished its token, threads of the alternative that went
through a non-greedy decision are dropped.
-/

namespace AdaptiveLL

/-- From where the threads of a lexer are followed. -/
structure Vantage where
  net : Network
  host : Oracle
  /-- Where guards see the input. -/
  position : Nat
  /-- Whether the end of the input was reached, so that matching it consumes nothing more. -/
  atEof : Bool
  /-- The number of steps after which a loop gives up. -/
  fuel : Nat
deriving Inhabited

/-- What tells the visits of a closure apart. The routine is left out, so that a loop through a
command ends: the first way to get somewhere keeps its commands. -/
abbrev ThreadKey := StateId × Nat × StackId × Bool

/-- What tells a thread apart. -/
def Config.threadKey (c : Config) : ThreadKey := (c.state, c.alt, c.stack, c.nonGreedy)

/-- Whether the state decides for the way out of a loop or an option first. -/
def State.isLazy (s : State) : Bool := s.isDecision && s.nonGreedy

/-- Whether a predicate stands on a transition of the state. -/
def State.hasPredicate (s : State) : Bool :=
  s.transitions.any fun t =>
    match t with
    | .predicate .. => true
    | _ => false

/-- A thread moved to a state. -/
def Network.advance (net : Network) (c : Config) (s : StateId) (stack : StackId)
    (routine : Option Routine) : Config :=
  { c with
    state := s
    stack := stack
    routine := routine
    nonGreedy := c.nonGreedy || (net.state s).isLazy }

/-- A closure of a lexer in the making. -/
structure Chase where
  /-- The threads to be followed, the next one first. -/
  work : List Config
  configs : ConfigSet
  /-- The threads there have been. -/
  seen : List ThreadKey := []
  /-- Whether a thread of the alternative has finished its token. -/
  finished : Bool
deriving Inhabited

namespace Chase

/-- The chase with a configuration collected. -/
def collect (s : Chase) (c : Config) : Probe Chase := do
  let configs ← Probe.grow (s.configs.insert c)
  pure { s with configs := configs }

/-- The chase with a configuration collected that has finished its token. -/
def finish (s : Chase) (c : Config) : Probe Chase := do
  let s ← s.collect { c with stack := StackId.empty }
  pure { s with finished := true }

end Chase

namespace Vantage

/-- The routine of a thread after an action of its network. -/
def routineAfter (v : Vantage) (g : StackGraph) (c : Config) (action : Nat) : Option Routine :=
  match v.net.commands[action]? with
  | some command =>
    -- Only the commands of the token rule itself run, not those of rules it calls.
    if g.hasEmptyStack c.stack then some (Routine.append c.routine command) else c.routine
  | none => c.routine

/-- **Where a transition leads a thread without consuming a character.** -/
def follow (v : Vantage) (c : Config) (t : Transition) : Probe (Option Config) :=
  let moved := some (v.net.advance c t.target c.stack c.routine)
  match t with
  | .epsilon _ => pure moved
  | .rule target _ follow _ => do
    let stack ← Probe.grow (StackGraph.push c.stack follow)
    pure (some (v.net.advance c target stack c.routine))
  | .predicate _ rule pred contextual => do
    if ← Probe.holds v.host v.position (.predicate rule pred contextual) then pure moved
    else pure none
  | .action target _ action _ => do
    let g := (← get).graph
    pure (some (v.net.advance c target c.stack (v.routineAfter g c action)))
  | .atom .. | .range .. | .set .. =>
    pure (if v.atEof && t.accepts Symbol.eof Symbol.firstChar Symbol.lastChar then moved else none)
  | .precedence .. | .notSet .. | .wildcard _ => pure none

/-- Where each of some transitions leads a thread, in order. -/
def followAll (v : Vantage) (c : Config) : List Transition → Probe (List Config)
  | [] => pure []
  | t :: rest => do
    let next ← v.follow c t
    let others ← v.followAll c rest
    pure (next.toList ++ others)

/-- Returns a thread from the end of its rule to its callers. Without any it has finished its
token. -/
def leave (v : Vantage) (c : Config) (s : Chase) : Probe Chase := do
  if c.stack = StackId.empty then s.finish c
  else
    let g := (← get).graph
    -- Some callers are known and one stack is empty: both ways are open.
    let s ← if g.hasEmptyStack c.stack then s.finish c else pure s
    let callers := (g.frames c.stack).filter (!·.isBottom)
    let returned := callers.map fun f => v.net.advance c f.ret f.parent c.routine
    pure { s with work := returned ++ s.work }

/-- Follows every transition of a thread. -/
def expand (v : Vantage) (c : Config) (s : Chase) : Probe Chase := do
  let state := v.net.state c.state
  let s ←
    -- A lazy loop stops growing once its alternative has a complete token.
    if state.onlyEpsilon || (s.finished && c.nonGreedy) then pure s else s.collect c
  let next ← v.followAll c state.transitions
  pure { s with
    work := next ++ s.work
    configs := { s.configs with hasGuards := s.configs.hasGuards || state.hasPredicate } }

/-- Takes the next thread, if there is one. The answer is the set and whether the alternative has
finished its token. -/
def chaseStep (v : Vantage) (s : Chase) : Probe (Chase ⊕ (ConfigSet × Bool)) :=
  match s.work with
  | [] => pure (.inr (s.configs, s.finished))
  | c :: rest =>
    let s := { s with work := rest }
    if s.seen.contains c.threadKey then pure (.inl s)
    else
      let s := { s with seen := c.threadKey :: s.seen }
      .inl <$> (if (v.net.state c.state).isRuleStop then v.leave c s else v.expand c s)

/-- **The closure of a thread,** added to a set. `finished` says whether the alternative has
finished its token already. -/
def closure (v : Vantage) (s : ConfigSet) (finished : Bool) (c : Config) :
    Probe (ConfigSet × Bool) :=
  Run.loop v.chaseStep v.fuel { work := [c], configs := s, finished }

/-! ## Sets of threads -/

/-- **The threads in which a mode begins,** one for each of its token rules. -/
def startSet (v : Vantage) (entry : StateId) : Probe ConfigSet :=
  (v.net.state entry).transitions.zipIdx.foldlM (fun s (t, i) => do
    let c : Config := { state := t.target, alt := i + 1, stack := StackId.empty }
    let (s, _) ← v.closure s false (v.net.advance c t.target StackId.empty none)
    pure s) ConfigSet.forLexer

/-- Follows the transitions of a thread that consume the character, up to the first one after which
the alternative has finished its token. -/
def consumeAll (v : Vantage) (symbol : Symbol) (routine : Option Routine) (finished : Bool)
    (c : Config) (s : ConfigSet) : List Transition → Probe (ConfigSet × Bool)
  | [] => pure (s, false)
  | t :: rest =>
    if t.accepts symbol Symbol.firstChar Symbol.lastChar then do
      let (s, done) ← v.closure s finished (v.net.advance c t.target c.stack routine)
      -- Once the alternative has a complete token, its later transitions do not matter.
      if done then pure (s, true) else v.consumeAll symbol routine finished c s rest
    else v.consumeAll symbol routine finished c s rest

/-- **The threads after a character.** `length` is the number of characters consumed before it, to
which commands that need a place are pinned. `done` is the latest alternative that has finished its
token; its threads that went through a non-greedy decision are dropped. -/
def reachFrom (v : Vantage) (symbol : Symbol) (length : Nat) :
    (done : Nat) → ConfigSet → List Config → Probe ConfigSet
  | _, s, [] => pure s
  | done, s, c :: rest =>
    let finished := c.alt == done
    -- The shorter match wins for a thread that went through a lazy decision.
    if finished && c.nonGreedy then v.reachFrom symbol length done s rest
    else do
      let routine := c.routine.map (·.pin length)
      let (s, now) ←
        v.consumeAll symbol routine finished c s (v.net.state c.state).transitions
      v.reachFrom symbol length (if now then c.alt else done) s rest

end Vantage

end AdaptiveLL
