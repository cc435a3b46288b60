import AdaptiveLL.Run
import AdaptiveLL.StackGraph

/-!
# Probes

Following configurations extends the graph of stacks and puts guards to the host. A probe is a
computation that does so; what it leaves behind is its trail.
-/

namespace AdaptiveLL

/-- What following configurations leaves behind: a larger graph of stacks, the callbacks made, and
the rules in which a left recursion was cut off. -/
structure Trail where
  graph : StackGraph
  /-- The callbacks made before, oldest first. -/
  past : List Callback := []
  /-- The callbacks made, oldest first. -/
  asked : List Callback := []
  recursions : List Nat := []
deriving Inhabited

/-- A computation on configurations. -/
abbrev Probe := Run Exceeded Trail

namespace Probe

/-- A step that may extend the graph of stacks. -/
def grow {α : Type} (m : Growing α) : Probe α :=
  Run.ofStep fun t =>
    match m.run t.graph with
    | .ok a g => (.ok a, { t with graph := g })
    | .error e g => (.error e, { t with graph := g })

/-- Puts a guard to the host, with the input at a position. -/
def holds (host : Oracle) (position : Nat) (g : Guard) : Probe Bool := do
  let t ← get
  let (holds, asked) := g.put host position (t.past ++ t.asked)
  set { t with asked := t.asked ++ asked }
  pure holds

end Probe

end AdaptiveLL
