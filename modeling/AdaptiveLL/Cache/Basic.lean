import AdaptiveLL.Cache.Table
import AdaptiveLL.Journal.Basic

/-!
# Prediction caches

The tables of all decisions of a network, and the graph of stacks that their configurations refer
to. Both belong together: when the graph is full, the cache is *renewed*, that is, begun again with
no row and no stack.
-/

namespace AdaptiveLL

/-- A cache of a network. -/
structure Cache where
  net : Network
  maxNodes : Nat
  maxDepth : Nat
  /-- How often the cache was begun again. -/
  generation : Nat
  /-- The tables, by decision in a parser and by mode in a lexer. -/
  tables : Array Table
  graph : StackGraph
deriving Inhabited

namespace Cache

/-- Tables without rows. -/
def freshTables (net : Network) : Array Table :=
  if net.isLexer then (net.modeStarts.zipIdx.map fun (s, mode) => Table.ofMode mode s).toArray
  else net.decisions.mapIdx fun decision s => Table.ofDecision net decision s

/-- The cache of a network in which nothing is known. -/
def new (net : Network) (maxNodes : Nat := Limits.arenaNodes)
    (maxDepth : Nat := Limits.contextDepth) : Cache :=
  { net, maxNodes, maxDepth
    generation := 0
    tables := freshTables net
    graph := .withLimits maxNodes maxDepth }

/-- The cache begun again. -/
def restart (c : Cache) : Cache :=
  { new c.net c.maxNodes c.maxDepth with generation := c.generation + 1 }

/-- Forgets everything. -/
def clear (c : Cache) : Cache × Event :=
  (c.restart, (Event.info "Prediction cache cleared" .cacheCleared).detail "grammar" c.net.name)

/-- The event of a renewed cache. -/
def renewedEvent (c : Cache) : Event :=
  ((Event.warning "Context arena full, prediction cache renewed" .arenaRenewed).detail "grammar"
    c.net.name).detail "nodes" c.graph.size

/-- **Begins again because the graph was full,** unless that was done since the generation that was
seen. -/
def renew (c : Cache) (seen : Nat) : Option (Cache × Event) :=
  if c.generation = seen then some (c.restart, c.renewedEvent) else none

/-- The table of a decision or mode. -/
def table? (c : Cache) (i : Nat) : Option Table := c.tables[i]?

/-- The table of a decision or mode that there is. -/
def table (c : Cache) (i : Nat) : Table := c.tables[i]?.getD default

/-- The cache with a table replaced. -/
def setTable (c : Cache) (i : Nat) (t : Table) : Cache :=
  { c with tables := c.tables.set! i t }

/-- The number of rows in all tables. -/
def rowCount (c : Cache) : Nat := c.tables.foldr (fun t n => t.size + n) 0

/-- The text of a table. -/
def render? (c : Cache) (i : Nat) : Option String := (c.table? i).map (·.render c.net)

end Cache

end AdaptiveLL
