import AdaptiveLL.Cache.Table
import AdaptiveLL.Notation.Guard
import AdaptiveLL.Notation.Symbol

/-!
# Notation of configurations

How stacks, configurations, sets of them and the rows of tables are shown as objects.
-/

namespace AdaptiveLL

open Json

/-- A return state: a number, or a text for that of the empty stack. -/
def Frame.retOfJson : Value → Nat
  | .text _ => emptyReturn
  | v => v.toNat

/-- The notation of a frame. -/
def Frame.toJson (f : Frame) : Value :=
  .list [if f.isBottom then .text "$" else .nat f.ret, .text (StackId.render f.parent)]

namespace StackGraph

/-- A node in short. -/
def describe (g : StackGraph) (id : StackId) : Value :=
  .record [("id", .text (StackId.render id)), ("describe", .text (g.render id)),
    ("depth", .nat (g.depth id)), ("len", .nat (g.frames id).length)]

/-- A graph with the limits on its nodes and its depth, if there are two. -/
def ofLimits : List Nat → StackGraph
  | [maxNodes, maxDepth] => withLimits maxNodes maxDepth
  | _ => {}

end StackGraph

/-- A routine from the list of its commands; commands that cannot be read are left out. -/
def Routine.ofJson (v : Value) : Routine := ⟨v.items.filterMap Command.ofJson?⟩

/-- A routine as diagnostics show it. -/
def Routine.shown (r : Option Routine) : Value := .optional (fun r => .text r.render) r

/-- A configuration from its notation; its stack is a number of the list. -/
def Config.ofJson (ids : List StackId) (v : Value) : Config where
  state := v.natAt "state"
  alt := v.natAt "alt"
  stack := ids[v.natAt "ctx"]?.getD StackId.empty
  guard := Guard.ofJson (v.memberAt "sem")
  outer := v.natAt "outer"
  routine := (v.member? "exec").map Routine.ofJson
  nonGreedy := v.boolAt "ng"

/-- A configuration in short. -/
def Config.toJson (g : StackGraph) (c : Config) : Value :=
  .record [("text", .text (c.render g)), ("exec", Routine.shown c.routine),
    ("ng", .bool c.nonGreedy)]

namespace ConfigSet

/-- An empty set of a kind. -/
def ofKind (kind : String) : ConfigSet :=
  match kind with
  | "full" => forParser true
  | "ordered" => forLexer
  | _ => forParser false

/-- What is known about a set. -/
def flags (s : ConfigSet) : Value :=
  .record [("len", .nat s.size), ("empty", .bool s.isEmpty), ("ordered", .bool s.ordered),
    ("full", .bool s.fullContext), ("sem", .bool s.hasGuards), ("dips", .bool s.dipsOut),
    ("unique", .nat s.uniqueAlt), ("conflicting", .optional AltSet.toJson s.conflicting)]

end ConfigSet

/-- A row of a set from its notation. -/
def Row.ofJson (s : ConfigSet) (v : Value) : Row where
  configs :=
    { s with
      uniqueAlt := v.natAt "unique"
      conflicting := (v.member? "conflicting").map AltSet.ofJson }
  accepting := v.boolAt "accept"
  prediction := v.natAt "prediction"
  tokenType := v.intAt "token_type"
  needsContext := v.boolAt "full_context"
  choices := (v.member? "preds").map fun ps => ps.items.map fun p =>
    match p.items with
    | [g, alt] => ⟨Guard.ofJson g, alt.toNat⟩
    | _ => ⟨.always, noAlternative⟩

/-- A row of a table in full. -/
def Row.toJson (g : StackGraph) (number : Nat) (r : Row) : Value :=
  .record [("text", .text (r.render number)),
    ("configs", .listOf (Config.toJson g) r.configs.toList), ("flags", r.configs.flags),
    ("prediction", .nat r.prediction), ("token_type", .int r.tokenType),
    ("exec", Routine.shown r.routine)]

/-- The rows of a table. -/
def Table.toJson (g : StackGraph) (t : Table) : Value :=
  .list (t.rows.toList.zipIdx.map fun (r, n) => r.toJson g n)

end AdaptiveLL
