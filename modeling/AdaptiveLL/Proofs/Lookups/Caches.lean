import AdaptiveLL.Proofs.Lookups.Rows

/-!
# Lookups in caches

A cache is *in range* if its tables belong to decisions or modes of its network, and their rows and
the graph of stacks are in range. Runs that have a cache in their state keep it so, and the graph in
it grows until the cache is begun again.
-/

namespace AdaptiveLL

namespace Network

variable {net : Network}

/-- The states at which the tables of a cache begin. -/
def entries (net : Network) : List StateId :=
  if net.isLexer then net.modeStarts else net.decisions.toList

theorem entries_eq_decisions (hparser : net.isLexer = false) (d : Nat) :
    net.entries[d]? = net.decisions[d]? := by
  simp [entries, hparser]

theorem Indexed.entry_lt (h : net.Indexed) {i : Nat} {s : StateId}
    (hentry : net.entries[i]? = some s) : s < net.states.size := by
  unfold entries at hentry
  split at hentry
  · next hlexer => exact h.mode_lt hlexer s (List.mem_of_getElem? hentry)
  · exact h.decision_lt i s (by simpa using hentry)

end Network

namespace Cache

/-- **A cache in range** for its network. -/
structure InRange (net : Network) (c : Cache) : Prop where
  net_eq : c.net = net
  starts : ∀ i, (c.table? i).map Table.start = net.entries[i]?
  graph : c.graph.InRange net.states.size
  rows : ∀ i, (c.table i).InRange (net.extentAt (c.table i).start) c.graph.size

variable {net : Network} {c : Cache} {i : Nat} {entry : StateId}

/-- A table with an entry is there. -/
theorem InRange.table?_eq (h : c.InRange net) (hentry : net.entries[i]? = some entry) :
    c.table? i = some (c.table i) := by
  have hmap := (h.starts i).trans hentry
  obtain ⟨t, ht, -⟩ := Option.map_eq_some_iff.mp hmap
  have htable : c.table i = t := by
    unfold table? at ht
    simp [table, ht]
  rw [ht, htable]

/-- An entry has a table. -/
theorem InRange.lt_size (h : c.InRange net) (hentry : net.entries[i]? = some entry) :
    i < c.tables.size := by
  by_contra hle
  have hfound := h.table?_eq hentry
  simp [table?, Nat.le_of_not_lt hle] at hfound

theorem InRange.start_eq (h : c.InRange net) (hentry : net.entries[i]? = some entry) :
    (c.table i).start = entry := by
  have hmap := (h.starts i).trans hentry
  rw [h.table?_eq hentry] at hmap
  exact Option.some.inj hmap

/-- A table that is there has an entry. -/
theorem InRange.entry_eq (h : c.InRange net) (hi : i < c.tables.size) :
    net.entries[i]? = some (c.table i).start := by
  rw [← h.starts i]
  simp [table?, table, hi]

theorem InRange.table (h : c.InRange net) (hentry : net.entries[i]? = some entry) :
    (c.table i).InRange (net.extentAt entry) c.graph.size :=
  h.start_eq hentry ▸ h.rows i

/-! ## New caches -/

private theorem size_freshTables {t : Table} (h : t ∈ freshTables net) : t.size = 0 := by
  unfold freshTables at h
  split at h
  · obtain ⟨⟨s, mode⟩, -, rfl⟩ : ∃ p ∈ net.modeStarts.zipIdx, Table.ofMode p.2 p.1 = t := by
      simpa using h
    rfl
  · obtain ⟨d, hd, rfl⟩ := Array.mem_mapIdx.mp h
    rfl

/-- The tables of a new cache have no rows. -/
theorem size_table_new (net : Network) (maxNodes maxDepth i : Nat) :
    ((Cache.new net maxNodes maxDepth).table i).size = 0 := by
  change ((freshTables net)[i]?.getD default).size = 0
  cases h : (freshTables net)[i]? with
  | none => rfl
  | some t => exact size_freshTables (Array.mem_of_getElem? h)

theorem new_inRange (net : Network) (maxNodes maxDepth : Nat) :
    (Cache.new net maxNodes maxDepth).InRange net := by
  refine ⟨rfl, fun i => ?_, StackGraph.withLimits_inRange _ _ _, fun i n => ?_⟩
  · change ((freshTables net)[i]?).map Table.start = _
    unfold freshTables Network.entries
    split
    · cases h : net.modeStarts[i]? <;> simp [h, Table.ofMode]
    · cases h : net.decisions[i]? <;> simp [h, Table.ofDecision]
  · rw [Table.row_default (size_table_new net maxNodes maxDepth i ▸ Nat.zero_le n)]
    exact Row.default_inRange

theorem InRange.restart (h : c.InRange net) : c.restart.InRange net := by
  have hnew := new_inRange c.net c.maxNodes c.maxDepth
  rw [h.net_eq] at hnew
  unfold Cache.restart
  rw [h.net_eq]
  exact ⟨hnew.net_eq, hnew.starts, hnew.graph, hnew.rows⟩

/-! ## Changes -/

theorem InRange.setGraph (h : c.InRange net) {g : StackGraph} (hg : g.InRange net.states.size)
    (hle : c.graph.size ≤ g.size) : ({ c with graph := g } : Cache).InRange net :=
  ⟨h.net_eq, h.starts, hg, fun i => (h.rows i).mono hle⟩

/-- A table is replaced by one that begins at the same state. -/
theorem InRange.setTable (h : c.InRange net) (hentry : net.entries[i]? = some entry) {t : Table}
    (hstart : t.start = entry) (ht : t.InRange (net.extentAt entry) c.graph.size) :
    (c.setTable i t).InRange net := by
  have hi := h.lt_size hentry
  -- The table at `i` is the new one, and the others are as they were.
  refine ⟨h.net_eq, fun j => ?_, h.graph, fun j => ?_⟩
  · rw [← h.starts j]
    have hold := (h.table?_eq hentry).symm.trans (by rfl : c.table? i = c.tables[i]?)
    unfold table? Cache.setTable
    rw [Array.set!_eq_setIfInBounds, Array.getElem?_setIfInBounds]
    split
    · next heq =>
      subst heq
      rw [← hold, Option.map_some, Option.map_some, hstart, h.start_eq hentry]
    · rfl
  · rw [table_setTable hi]
    split
    · rw [hstart]
      exact ht
    · exact h.rows j

/-! ## Runs on caches -/

variable {ε σ α β : Type}

/-- **What runs on a cache keep:** it is in range, and its graph grows. -/
def scope (net : Network) (cache : σ → Cache) : Scope σ :=
  ⟨fun s => (cache s).InRange net, fun s => (cache s).graph.size⟩

/-- What runs keep that may begin the cache again: it is in range. -/
def lasting (net : Network) (cache : σ → Cache) : Scope σ :=
  ⟨fun s => (cache s).InRange net, fun _ => 0⟩

theorem lasting_safe {cache : σ → Cache} {m' : Run (Stop ε) σ α} {m : Run ε σ α} {s : σ}
    {P : α → Prop} (h : (scope net cache).Safe m' m s fun a _ => P a) :
    (lasting net cache).Safe m' m s fun a _ => P a :=
  Run.Agrees.mono h fun _ _ ⟨hs, _, ha⟩ => ⟨hs, le_rfl, ha⟩

/-- A strict probe with the graph of a cache, after the callbacks so far. Its trail is taken over by
`absorb`. -/
def strictProbe (cache : σ → Cache) (callbacks : σ → List Callback) (absorb : σ → Trail → σ)
    (wrap : Exceeded → ε) (m : StrictProbe α) : Run (Stop ε) σ α :=
  Run.strictWithin (fun s => { graph := (cache s).graph, past := callbacks s }) absorb wrap m

/-- **A probe with the graph of a cache in range** that finds all that it looks up. -/
theorem strictProbe_safe {cache : σ → Cache} {callbacks : σ → List Callback}
    {absorb : σ → Trail → σ} {wrap : Exceeded → ε} {m' : StrictProbe α} {m : Probe α}
    {plain : Run ε σ α} {s : σ} {P : α → Nat → Prop}
    (hplain : plain.from? s =
      (m.from? { graph := (cache s).graph, past := callbacks s }).map fun x =>
        (x.1.mapError wrap, absorb s x.2))
    (habsorb : ∀ t, cache (absorb s t) = { cache s with graph := t.graph })
    (hs : (cache s).InRange net)
    (h : (Trail.scope net.states.size).Safe m' m
      { graph := (cache s).graph, past := callbacks s } P) :
    (scope net cache).Safe (strictProbe cache callbacks absorb wrap m') plain s P := by
  refine .within hplain (Run.Agrees.mono h fun r t ⟨hgraph, hle, ha⟩ => ?_)
  have hsize : (scope net cache).size (absorb s t) = t.graph.size := by
    change (cache (absorb s t)).graph.size = _
    rw [habsorb]
  refine ⟨?_, hle.trans hsize.ge, fun a hr => ?_⟩
  · change (cache (absorb s t)).InRange net
    rw [habsorb]
    exact hs.setGraph hgraph hle
  · rw [hsize]
    cases r with
    | error e => cases hr
    | ok b => exact Except.ok.inj hr ▸ ha b rfl

end Cache

/-- A run that leaves the cache as it is looks nothing up in it. -/
theorem Run.Untouched.safe {ε σ α : Type} {net : Network} {cache : σ → Cache} {m : Run ε σ α}
    {P : α → Prop} (h : m.Untouched cache P) {s : σ} (hs : (cache s).InRange net) :
    (Cache.scope net cache).Safe m.strictly m s fun a _ => P a := by
  refine .strictly ((h s).mono fun r t ⟨ht, ha⟩ => ?_)
  have hsize : (cache t).graph.size = (cache s).graph.size := by rw [ht]
  refine ⟨?_, hsize.ge, ha⟩
  change (cache t).InRange net
  rwa [ht]

end AdaptiveLL
