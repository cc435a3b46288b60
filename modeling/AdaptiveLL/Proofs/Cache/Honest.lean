import AdaptiveLL.Proofs.Cache.Evolution

/-!
# Honest caches

What the rows and cells of a table stand for depends on who fills it. A `Meaning` says what a row,
a cell and the first row have to be; a table is *honest* if all its rows and cells are so. Each way
of writing into a table keeps it honest, if what is written is. A cache is honest if all its tables
are.
-/

namespace AdaptiveLL

/-- **What rows stand for.** Rows are judged without their cells. -/
structure Meaning where
  /-- What a row has to be. -/
  row : Row → Prop
  /-- Where a symbol has to lead from a row: to another row, or nowhere. -/
  leads : Row → Symbol → Option Row → Prop
  /-- What the first row has to be. -/
  first : Row → Prop

namespace Table

/-- What a cell says is so. -/
def Leads (m : Meaning) (t : Table) (r : Row) (v : Symbol) : Cell → Prop
  | .row n => n < t.size ∧ m.leads r v (some (t.row (.row n)).bare)
  | .dead => m.leads r v none

/-- **An honest table.** -/
structure Honest (m : Meaning) (start : StateId) (t : Table) : Prop where
  start_eq : t.start = start
  rows : ∀ n < t.size, m.row (t.row (.row n)).bare
  cells : ∀ n < t.size, ∀ v c, t.cell? (.row n) v = some c → t.Leads m (t.row (.row n)).bare v c
  startRow : ∀ n, t.startRow = some n → n < t.size ∧ m.first (t.row (.row n)).bare

variable {m m' : Meaning} {start : StateId} {t t' : Table} {p target : Place} {v : Symbol} {r : Row}

theorem Leads.evolves {c : Cell} (h : t.Evolves t') (hc : t.Leads m r v c) : t'.Leads m r v c := by
  cases c with
  | dead => exact hc
  | row n => exact ⟨Nat.lt_of_lt_of_le hc.1 h.size_le, (h.bare_eq n hc.1).symm ▸ hc.2⟩

namespace Honest

/-- A table without rows says nothing. -/
theorem of_size_eq_zero (hstart : t.start = start) (hrows : t.size = 0)
    (hfirst : t.startRow = none) : t.Honest m start :=
  ⟨hstart, fun n hn => by omega, fun n hn => by omega, fun n hn => by simp [hfirst] at hn⟩

/-- What rows stand for may be said in another way. -/
theorem mono (ht : t.Honest m start) (hrow : ∀ r, m.row r → m'.row r)
    (hleads : ∀ r v r', m.row r → (∀ x, r' = some x → m.row x) → m.leads r v r' → m'.leads r v r')
    (hfirst : ∀ r, m.row r → m.first r → m'.first r) : t.Honest m' start := by
  refine ⟨ht.start_eq, fun n hn => hrow _ (ht.rows n hn), fun n hn v c hc => ?_, fun n hn => ?_⟩
  · have h := ht.cells n hn v c hc
    cases c with
    | dead => exact hleads _ v none (ht.rows n hn) (fun x hx => by cases hx) h
    | row k =>
      refine ⟨h.1, hleads _ v _ (ht.rows n hn) (fun x hx => ?_) h.2⟩
      exact Option.some.inj hx ▸ ht.rows k h.1
  · obtain ⟨hlt, hn⟩ := ht.startRow n hn
    exact ⟨hlt, hfirst _ (ht.rows n hlt) hn⟩

/-- **Reading a cell.** A loose row has none. -/
theorem of_cell (ht : t.Honest m start) (hp : t.Has p) {c : Cell} (hc : t.cell? p v = some c) :
    t.Leads m (t.row p).bare v c := by
  cases p with
  | row n => exact ht.cells n hp v c hc
  | loose r =>
    obtain ⟨slot, _, hlookup⟩ := Option.bind_eq_some_iff.mp hc
    rw [Table.row, Row.cell?, show r.cells = [] from hp] at hlookup
    cases hlookup

/-- **Writing a true cell.** -/
theorem write (ht : t.Honest m start) {c : Cell} (hc : t.Leads m (t.row p).bare v c) :
    (t.write p v c).2.Honest m start ∧ t.Evolves (t.write p v c).2 := by
  obtain ⟨hevolves, hfirst, hsize, hcells⟩ := write_spec t p v c
  refine ⟨⟨hevolves.start_eq.trans ht.start_eq, ?_, ?_, ?_⟩, hevolves⟩
  · intro n hn
    rw [hsize] at hn
    rw [hevolves.bare_eq n hn]
    exact ht.rows n hn
  · intro n hn u d hd
    rw [hsize] at hn
    rw [hevolves.bare_eq n hn]
    rcases hcells n hn u d hd with hd | ⟨rfl, rfl, rfl⟩
    · exact (ht.cells n hn u d hd).evolves hevolves
    · exact hc.evolves hevolves
  · intro n hn
    rw [hfirst] at hn
    obtain ⟨hlt, hn⟩ := ht.startRow n hn
    rw [hsize, hevolves.bare_eq n hlt]
    exact ⟨hlt, hn⟩

/-- **Linking to a place** that the symbol leads to. -/
theorem link (ht : t.Honest m start) (htarget : t.Has target)
    (h : m.leads (t.row p).bare v (some (t.row target).bare)) :
    (t.link p v target).2.Honest m start ∧ t.Evolves (t.link p v target).2 := by
  cases target with
  | loose r => exact ⟨ht, .refl t⟩
  | row n => exact ht.write ⟨htarget, h⟩

private theorem push (ht : t.Honest m start) (hr : m.row r.bare) (hcells : r.cells = []) :
    (t.push r).Honest m start := by
  have hcases : ∀ n < (t.push r).size, n < t.size ∨ n = t.size := by
    intro n hn
    rw [size_push] at hn
    omega
  refine ⟨ht.start_eq, fun n hn => ?_, fun n hn v c hc => ?_, fun n hn => ?_⟩
  · rcases hcases n hn with hlt | rfl
    · rw [row_push_old hlt]
      exact ht.rows n hlt
    · rw [row_push_new]
      exact hr
  · rcases hcases n hn with hlt | rfl
    · rw [row_push_old hlt]
      rw [cell?_push_old hlt] at hc
      exact (ht.cells n hlt v c hc).evolves (evolves_push t r)
    · -- The new row has no cells yet.
      obtain ⟨slot, _, hcell⟩ := Option.bind_eq_some_iff.mp hc
      rw [row_push_new, Row.cell?, hcells] at hcell
      cases hcell
  · obtain ⟨hlt, hn⟩ := ht.startRow n hn
    rw [row_push_old hlt]
    exact ⟨Nat.lt_of_lt_of_le hlt (evolves_push t r).size_le, hn⟩

/-- **Installing a row.** At the place that comes back there is this row or one of the same
configurations. -/
theorem install (ht : t.Honest m start) (hr : m.row r.bare) (hcells : r.cells = []) :
    (t.install r).2.2.Honest m start ∧ t.Evolves (t.install r).2.2 ∧
      (t.install r).2.2.Has (t.install r).1 ∧
      m.row ((t.install r).2.2.row (t.install r).1).bare ∧
      (((t.install r).2.2.row (t.install r).1) = r ∨
        ((t.install r).2.2.row (t.install r).1).configs.same r.configs = true) := by
  have hrow := t.row_install r
  rcases install_cases t r with ⟨n, hn, heq, -⟩ | ⟨event, reported, heq⟩ | heq <;> rw [heq] at hrow ⊢
  · exact ⟨ht, .refl t, hn, ht.rows n hn, hrow⟩
  · exact ⟨⟨ht.start_eq, ht.rows, ht.cells, ht.startRow⟩, ⟨rfl, rfl, rfl, le_rfl, fun _ _ => rfl⟩,
      hcells, hr, hrow⟩
  · refine ⟨ht.push hr hcells, evolves_push t r, ?_, ?_, hrow⟩
    · change t.size < (t.push r).size
      rw [size_push]
      exact Nat.lt_succ_self _
    · change m.row ((t.push r).row (.row t.size)).bare
      rw [row_push_new]
      exact hr

/-- **Making a row the first one.** The place that comes back is a first one. -/
theorem setStart (ht : t.Honest m start) (hp : t.Has p) (hrow : m.row (t.row p).bare)
    (hfirst : m.first (t.row p).bare) :
    (t.setStart p).2.Honest m start ∧ t.Evolves (t.setStart p).2 ∧
      (t.setStart p).2.Has (t.setStart p).1 ∧
      m.row ((t.setStart p).2.row (t.setStart p).1).bare ∧
      m.first ((t.setStart p).2.row (t.setStart p).1).bare := by
  unfold Table.setStart
  cases p with
  | loose r => exact ⟨ht, .refl t, hp, hrow, hfirst⟩
  | row n =>
    cases hstart : t.startRow with
    | some k =>
      obtain ⟨hk, hfirst'⟩ := ht.startRow k hstart
      exact ⟨ht, .refl t, hk, ht.rows k hk, hfirst'⟩
    | none =>
      refine ⟨⟨ht.start_eq, ht.rows, ht.cells, ?_⟩, ⟨rfl, rfl, rfl, le_rfl, fun _ _ => rfl⟩,
        hp, hrow, hfirst⟩
      intro k hk
      obtain rfl := Option.some.inj hk
      exact ⟨hp, hfirst⟩

end Honest

end Table

/-! ## Caches -/

namespace Cache

/-- **An honest cache** of a network: its graph of stacks is sound and has the ceilings of the cache,
and each table begins at its own state and is honest. -/
structure Honest (net : Network) (starts : Array StateId)
    (meaning : Nat → StateId → StackGraph → Meaning) (nodes : Nat) (c : Cache) : Prop where
  net_eq : c.net = net
  sound : c.graph.Sound
  room_eq : max c.maxNodes 1 = nodes
  nodes_eq : c.graph.maxNodes = nodes
  depth_eq : c.graph.maxDepth = c.maxDepth
  size_eq : c.tables.size = starts.size
  tables : ∀ i start, starts[i]? = some start →
    (c.table i).Honest (meaning i start c.graph) start

namespace Honest

variable {net : Network} {starts : Array StateId} {meaning : Nat → StateId → StackGraph → Meaning}
  {nodes : Nat} {c : Cache}

/-- The graph of stacks may grow, if rows go on to mean the same. -/
theorem setGraph (hc : c.Honest net starts meaning nodes) {g : StackGraph} (hg : c.graph.Grown g)
    (hmeaning : ∀ (i : Nat) (start : StateId) (t : Table), t.Honest (meaning i start c.graph) start →
      t.Honest (meaning i start g) start) :
    ({ c with graph := g } : Cache).Honest net starts meaning nodes ∧
      c.Follows { c with graph := g } :=
  ⟨⟨hc.net_eq, hg.sound, hc.room_eq, hg.maxNodes_eq.trans hc.nodes_eq,
    hg.maxDepth_eq.trans hc.depth_eq, hc.size_eq,
    fun i start hi => hmeaning i start _ (hc.tables i start hi)⟩, ⟨rfl, hg, fun _ => .refl _⟩⟩

/-- A table may be replaced by one that goes on from it. -/
theorem setTable (hc : c.Honest net starts meaning nodes) {i : Nat} {start : StateId} {t : Table}
    (hi : starts[i]? = some start) (ht : t.Honest (meaning i start c.graph) start)
    (hevolves : (c.table i).Evolves t) :
    (c.setTable i t).Honest net starts meaning nodes ∧ c.Follows (c.setTable i t) := by
  have hlt : i < c.tables.size := by
    rw [hc.size_eq]
    exact (Array.getElem?_eq_some_iff.mp hi).1
  have htable := fun k => table_setTable (i := k) (t := t) hlt
  refine ⟨⟨hc.net_eq, hc.sound, hc.room_eq, hc.nodes_eq, hc.depth_eq, ?_, fun k start' hk => ?_⟩,
    ⟨rfl, .refl hc.sound, fun k => ?_⟩⟩
  · rw [← hc.size_eq]
    exact Array.size_setIfInBounds ..
  · rw [htable]
    split
    · next heq =>
      subst heq
      obtain rfl : start = start' := Option.some.inj (hi.symm.trans hk)
      exact ht
    · exact hc.tables k start' hk
  · rw [htable]
    split
    · next heq =>
      subst heq
      exact hevolves
    · exact .refl _

/-- **A cache in which nothing is known is honest.** -/
theorem new {maxNodes maxDepth : Nat} (hroom : max maxNodes 1 = nodes)
    (hsize : (freshTables net).size = starts.size)
    (hstart : ∀ i start, starts[i]? = some start →
      ((Cache.new net maxNodes maxDepth).table i).start = start ∧
        ((Cache.new net maxNodes maxDepth).table i).size = 0 ∧
        ((Cache.new net maxNodes maxDepth).table i).startRow = none) :
    (Cache.new net maxNodes maxDepth).Honest net starts meaning nodes :=
  ⟨rfl, StackGraph.withLimits_sound _ _, hroom, hroom, rfl, hsize, fun i start hi =>
    .of_size_eq_zero (hstart i start hi).1 (hstart i start hi).2.1 (hstart i start hi).2.2⟩

/-- A cache that is begun again is honest, if a new one is. -/
theorem restart (hc : c.Honest net starts meaning nodes)
    (hnew : (Cache.new net c.maxNodes c.maxDepth).Honest net starts meaning nodes) :
    c.restart.Honest net starts meaning nodes := by
  unfold Cache.restart
  rw [hc.net_eq]
  exact ⟨hnew.net_eq, hnew.sound, hnew.room_eq, hnew.nodes_eq, hnew.depth_eq, hnew.size_eq,
    hnew.tables⟩

end Honest

end Cache

end AdaptiveLL
