import AdaptiveLL.Config.Set
import AdaptiveLL.Probe

/-!
# Closures

Which configurations can a thread reach without consuming a symbol? `closure` follows the
transitions that consume nothing, depth first and the first alternative first, and collects the
configurations that can consume one. A call puts its follow state on the stack, the end of a rule
takes one off. At the end of a rule whose caller is unknown the thread either stays, if the stacks
are exact, or goes on at every place where the rule is called.

Guards are collected on the way if the stacks are not exact, and put to the host at once if they
are. Only those met before the first action count.

No configuration is followed twice, and a call that would nest more rules than there are is cut
off: such a path runs in a left recursion.
-/

namespace AdaptiveLL

/-- The question a prediction answers: which alternative of a decision fits the input from a
position on? -/
structure Question where
  net : Network
  host : Oracle
  /-- The number of the decision. -/
  decision : Nat
  /-- The state at which it is taken. -/
  entry : StateId
  /-- The position at which its input begins. -/
  start : Nat
  /-- The number of steps after which a loop gives up. -/
  fuel : Nat
deriving Inhabited

/-- How threads are followed. -/
structure Manner where
  /-- Whether the stacks are exact. -/
  full : Bool
  /-- Whether the end of the input was reached, so that matching it consumes nothing more. -/
  atEof : Bool := false
deriving DecidableEq, Inhabited

/-- A configuration that is still to be followed. -/
structure Visit where
  config : Config
  /-- How many rules the thread has entered; negative once it has left the one it began in. -/
  depth : Int := 0
  /-- Whether guards still count. -/
  collect : Bool
  /-- Whether the end of a rule is still to be looked at. -/
  checkStop : Bool := true
deriving DecidableEq, Inhabited

/-- What tells visits apart: the configuration, whether it has left the rule of the decision, and
whether guards still count. -/
abbrev VisitKey := Config × Bool × Bool

/-- A closure in the making. -/
structure Sweep where
  /-- The visits ahead, the next one first. -/
  work : List Visit
  configs : ConfigSet
  /-- The visits there have been. -/
  seen : List VisitKey
  /-- Whether a left recursion was reported. -/
  reported : Bool := false
deriving Inhabited

namespace Sweep

/-- The sweep with one more visit ahead of the others. -/
def push (s : Sweep) (t : Visit) : Sweep := { s with work := t :: s.work }

/-- The sweep with a configuration collected. -/
def collect (s : Sweep) (c : Config) : Probe Sweep := do
  let configs ← Probe.grow (s.configs.insert c)
  pure { s with configs := configs }

end Sweep

namespace Question

/-! ## One transition -/

/-- Where a guarded transition leads, if its guard allows it. -/
def guarded (q : Question) (full evaluate : Bool) (c : Config) (target : StateId) (g : Guard) :
    Probe (Option Config) := do
  if !evaluate then pure (some (c.moveTo target))
  else if full then
    if ← Probe.holds q.host q.start g then pure (some (c.moveTo target)) else pure none
  else pure (some { c.moveTo target with guard := c.guard.and g })

/-- **Where a transition leads without consuming a symbol.** `collect` says whether guards count,
and `inside` whether the thread is in the rule of the decision: a guard that depends on the rule's
frame counts only there. -/
def follow (q : Question) (m : Manner) (collect inside : Bool) (c : Config) (t : Transition) :
    Probe (Option Config) :=
  match t with
  | .rule target _ follow _ => do
    let stack ← Probe.grow (StackGraph.push c.stack follow)
    pure (some (c.moveUnder target stack))
  | .predicate target rule pred contextual =>
    q.guarded m.full (collect && (!contextual || inside)) c target (.predicate rule pred contextual)
  | .precedence target level =>
    q.guarded m.full (collect && inside) c target (.precedence level)
  | .epsilon target | .action target .. => pure (some (c.moveTo target))
  | .atom .. | .range .. | .set .. =>
    pure (if m.atEof && t.accepts Symbol.eof 0 1 then some (c.moveTo t.target) else none)
  | .notSet .. | .wildcard _ => pure none

/-! ## One visit -/

/-- Notes the visit of a configuration that a transition leads to. At the end of a rule the thread
leaves for an unknown caller; elsewhere a call must not nest too deep. -/
def enter (q : Question) (visit : Visit) (state : State) (t : Transition) (collect : Bool)
    (next : Config) (s : Sweep) : Probe Sweep :=
  -- A thread that leaves for an unknown caller is in an outer rule from now on.
  let next := if state.isRuleStop then { next with outer := next.outer + 1 } else next
  let key : VisitKey := (next.identity, decide (0 < next.outer), collect)
  if s.seen.contains key then pure s
  else
    let s := { s with seen := key :: s.seen }
    if state.isRuleStop then
      let s := { s with configs := { s.configs with dipsOut := true } }
      pure (s.push { config := next, depth := visit.depth - 1, collect })
    else if t.isRule && decide (0 ≤ visit.depth) then
      -- More nested calls than rules: some rule calls itself before consuming anything.
      if q.net.ruleCount < visit.depth + 1 then
        if s.reported then pure s
        else do
          modify fun trail => { trail with recursions := trail.recursions ++ [state.rule] }
          pure { s with reported := true }
      else pure (s.push { config := next, depth := visit.depth + 1, collect })
    else pure (s.push { config := next, depth := visit.depth, collect })

/-- Follows one transition of a visit. -/
def expand (q : Question) (m : Manner) (visit : Visit) (state : State) (s : Sweep)
    (t : Transition) : Probe Sweep := do
  -- A guard behind an action could see its effect, so it no longer counts.
  let collect := visit.collect && !t.isAction
  match ← q.follow m collect (visit.depth == 0) visit.config t with
  | none => pure s
  | some next => q.enter visit state t collect next s

/-- Returns a thread from the end of its rule to a caller. -/
def leave (m : Manner) (visit : Visit) (s : Sweep) (f : Frame) : Probe Sweep :=
  if f.isBottom then
    -- The thread has come to the bottom of its stack.
    if m.full then s.collect { visit.config with stack := StackId.empty }
    else pure (s.push { visit with checkStop := false })
  else
    pure (s.push
      { config := visit.config.moveUnder f.ret f.parent, depth := visit.depth - 1,
        collect := visit.collect })

/-- Follows every transition of a visit. The first one ends up ahead of the others. -/
def expandAll (q : Question) (m : Manner) (visit : Visit) (state : State) (s : Sweep) :
    Probe Sweep := do
  let s ← if state.onlyEpsilon then pure s else s.collect visit.config
  -- The last one pushed is followed first, hence the reversal.
  state.transitions.reverse.foldlM (q.expand m visit state) s

/-- **Follows one visit.** -/
def perform (q : Question) (m : Manner) (visit : Visit) (s : Sweep) : Probe Sweep := do
  let state := q.net.state visit.config.state
  if visit.checkStop && state.isRuleStop then
    if visit.config.stack ≠ StackId.empty then
      let frames := (← get).graph.frames visit.config.stack
      frames.reverse.foldlM (leave m visit) s
    else if m.full then s.collect visit.config
    else q.expandAll m visit state s
  else q.expandAll m visit state s

/-! ## All visits -/

/-- Takes the next visit, if there is one. -/
def sweepStep (q : Question) (m : Manner) (s : Sweep) :
    Probe (Sweep ⊕ (ConfigSet × List VisitKey)) :=
  match s.work with
  | [] => pure (.inr (s.configs, s.seen))
  | visit :: rest => do
    let s ← q.perform m visit { s with work := rest }
    pure (.inl s)

/-- **The closure of a configuration,** added to a set. Closures that share a list of visits follow
each configuration only once. -/
def closure (q : Question) (m : Manner) (collect : Bool) (acc : ConfigSet × List VisitKey)
    (c : Config) : Probe (ConfigSet × List VisitKey) :=
  Run.loop (q.sweepStep m) q.fuel
    { work := [{ config := c, collect }], configs := acc.1, seen := acc.2 }

/-- **The configurations in which a decision begins,** under a set of stacks. -/
def startSet (q : Question) (full : Bool) (stack : StackId) : Probe ConfigSet := do
  let starts := (q.net.state q.entry).transitions.zipIdx.map fun (t, i) =>
    ({ state := t.target, alt := i + 1, stack } : Config)
  let (configs, _) ← starts.foldlM (q.closure { full } true) (ConfigSet.forParser full, [])
  pure configs

end Question

end AdaptiveLL
