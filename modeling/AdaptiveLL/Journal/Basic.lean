import AdaptiveLL.AltSet
import AdaptiveLL.Journal.Event

/-!
# The journal

A journal lets events through up to a level and keeps the latest of them, as many as its capacity.
Events written while a grammar is being run are marked with its name.
-/

namespace AdaptiveLL

/-- A journal. `store` may hold more than `capacity` events; only the latest `capacity` count. -/
structure Journal where
  threshold : Level := .debug
  capacity : Nat := Limits.journalEvents
  store : Array Event := #[]
  /-- The grammar being run. -/
  running : Option String := none
deriving Inhabited

namespace Journal

/-! ## Writing -/

/-- Adds an event whatever its level. Events that no longer count are dropped from time to time,
so that the store stays within twice the capacity. -/
def append (j : Journal) (e : Event) : Journal :=
  let room := if j.store.size < 2 * j.capacity then j.store
    else j.store.extract (j.store.size + 1 - j.capacity) j.store.size
  { j with store := room.push e }

/-- Whether an event of the level would be added. -/
def isEnabled (j : Journal) (level : Level) : Bool := level.passes j.threshold

/-- Adds an event if its level passes. -/
def log (j : Journal) (e : Event) : Journal :=
  if j.isEnabled e.level then j.append e else j

/-- Adds an event marked with the grammar being run. -/
def write (j : Journal) (e : Event) : Journal :=
  match j.running with
  | some g => j.log (e.inGrammar g)
  | none => j.log e

/-- The journal while a grammar is being run. -/
def enter (j : Journal) (grammar : String) : Journal := { j with running := some grammar }

/-- What is done to the journal while a grammar is being run. Afterwards the grammar that was being
run before is run again. -/
def within (j : Journal) (grammar : String) (act : Journal → Journal) : Journal :=
  { act (j.enter grammar) with running := j.running }

/-- The journal without its events. -/
def clear (j : Journal) : Journal := { j with store := #[] }

/-- What is said when a second journal is to be started for the whole program. -/
def alreadyStarted : String := "Global logger already initialized"

/-- Starts the journal of the whole program, which is done once. -/
def start (current : Option Journal) (j : Journal) : Except String Journal :=
  if current.isSome then .error alreadyStarted else .ok j

/-! ## Reading -/

/-- The events kept, oldest first. -/
def events (j : Journal) : List Event :=
  (j.store.extract (j.store.size - j.capacity) j.store.size).toList

/-- The number of events kept. -/
def size (j : Journal) : Nat := min j.store.size j.capacity

/-- The events kept that satisfy a condition. -/
def select (j : Journal) (keep : Event → Bool) : List Event := j.events.filter keep

/-- The events that carry a code. -/
def withCode (j : Journal) (code : Code) : List Event := j.select (·.code == code)

/-- The events of a category. -/
def inCategory (j : Journal) (category : String) : List Event :=
  j.select (·.code.category == category)

/-- The events written while the grammar was being run. -/
def ofGrammar (j : Journal) (grammar : String) : List Event :=
  j.select (·.grammar == some grammar)

/-- The events about a decision. -/
def ofDecision (j : Journal) (decision : Nat) : List Event :=
  j.select (·.decision? == some decision)

/-- How many events of each level a journal keeps, and which decisions they are about. -/
structure Summary where
  total : Nat
  errors : Nat
  warnings : Nat
  infos : Nat
  debugs : Nat
  decisions : AltSet

/-- The summary of the events kept. -/
def summary (j : Journal) : Summary :=
  let count (level : Level) := (j.select (·.level == level)).length
  { total := j.size
    errors := count .error
    warnings := count .warning
    infos := count .info
    debugs := count .debug
    decisions := .ofList (j.events.filterMap Event.decision?) }

end Journal

end AdaptiveLL
