import AdaptiveLL.Cache.Basic
import AdaptiveLL.Proofs.Stacks.Growth

/-!
# How caches evolve

Whatever is written into a table, its rows stay: a table that *evolves* gets more rows and more
cells, and a cache that follows another one has a larger graph and tables that have evolved.
-/

namespace AdaptiveLL

/-! ## Cells of a row -/

namespace Row

/-- The row without its cells. -/
def bare (r : Row) : Row := { r with cells := [] }

theorem configs_eq_of_bare {r r' : Row} (h : r.bare = r'.bare) : r.configs = r'.configs :=
  (congrArg Row.configs h : r.bare.configs = r'.bare.configs)

/-- **An essential property of rows:** their cells do not matter to it, and the empty row has it. -/
structure Essential (P : Row → Prop) : Prop where
  default : P default
  of_bare : ∀ {r r' : Row}, P r → r'.bare = r.bare → P r'

/-- A cell of a row after writing is an old one or the one that was written. -/
private theorem lookup_writeCell {slot slot' : Nat} {c d : Cell} {cells : List (Nat × Cell)}
    (h : (writeCell slot c cells).lookup slot' = some d) :
    cells.lookup slot' = some d ∨ (slot' = slot ∧ d = c) := by
  induction cells with
  | nil =>
    unfold writeCell at h
    rw [List.lookup_cons] at h
    split at h
    · next heq => exact .inr ⟨by simpa using heq, (Option.some.inj h).symm⟩
    · cases h
  | cons p cells ih =>
    obtain ⟨s, e⟩ := p
    unfold writeCell at h
    split at h
    · rw [List.lookup_cons] at h
      split at h
      · next heq => exact .inr ⟨by simpa using heq, (Option.some.inj h).symm⟩
      · exact .inl h
    · split at h
      · exact .inl h
      · rw [List.lookup_cons] at h ⊢
        split at h
        · exact .inl h
        · exact ih h

theorem cell?_write {r : Row} {slot slot' : Nat} {c d : Cell}
    (h : (r.write slot c).cell? slot' = some d) :
    r.cell? slot' = some d ∨ (slot' = slot ∧ d = c) :=
  lookup_writeCell h

end Row

/-! ## Places -/

namespace Table

/-- Whether there is a row at the place. A loose row has no cells. -/
def Has (t : Table) : Place → Prop
  | .row n => n < t.size
  | .loose r => r.cells = []

/-- The table goes on from another one: it may have more rows and more cells. -/
structure Evolves (t t' : Table) : Prop where
  first_eq : t'.firstSymbol = t.firstSymbol
  last_eq : t'.lastSymbol = t.lastSymbol
  start_eq : t'.start = t.start
  size_le : t.size ≤ t'.size
  bare_eq : ∀ n < t.size, (t'.row (.row n)).bare = (t.row (.row n)).bare

theorem Evolves.refl (t : Table) : t.Evolves t := ⟨rfl, rfl, rfl, le_rfl, fun _ _ => rfl⟩

theorem Evolves.trans {t₁ t₂ t₃ : Table} (h : t₁.Evolves t₂) (h' : t₂.Evolves t₃) :
    t₁.Evolves t₃ where
  first_eq := h'.first_eq.trans h.first_eq
  last_eq := h'.last_eq.trans h.last_eq
  start_eq := h'.start_eq.trans h.start_eq
  size_le := h.size_le.trans h'.size_le
  bare_eq n hn := (h'.bare_eq n (Nat.lt_of_lt_of_le hn h.size_le)).trans (h.bare_eq n hn)

theorem Evolves.has {t t' : Table} (h : t.Evolves t') {p : Place} (hp : t.Has p) : t'.Has p := by
  cases p with
  | row n => exact Nat.lt_of_lt_of_le hp h.size_le
  | loose r => exact hp

theorem Evolves.bare_row {t t' : Table} (h : t.Evolves t') {p : Place} (hp : t.Has p) :
    (t'.row p).bare = (t.row p).bare := by
  cases p with
  | row n => exact h.bare_eq n hp
  | loose r => rfl

theorem Evolves.configs_eq {t t' : Table} (h : t.Evolves t') {p : Place} (hp : t.Has p) :
    (t'.row p).configs = (t.row p).configs :=
  Row.configs_eq_of_bare (h.bare_row hp)

private theorem slot_inj {first v u : Int} (hv : ¬v < first) (hu : ¬u < first)
    (h : (v - first).toNat = (u - first).toNat) : v = u := by
  omega

/-- A symbol is told by its slot. -/
theorem slot?_inj {t : Table} {v u : Symbol} {slot : Nat} (hv : t.slot? v = some slot)
    (hu : t.slot? u = some slot) : v = u := by
  unfold slot? at hv hu
  split at hv
  · cases hv
  split at hu
  · cases hu
  exact slot_inj (by tauto) (by tauto) ((Option.some.inj hv).trans (Option.some.inj hu).symm)

theorem row_eq {t : Table} {n : Nat} (hn : n < t.size) : t.row (.row n) = t.rows[n] := by
  simp [row, Array.getElem?_eq_getElem hn]

/-- Rows after changing one of them. -/
theorem row_modify {t : Table} {m n : Nat} {f : Row → Row} (hn : n < t.size) :
    ({ t with rows := t.rows.modify m f } : Table).row (.row n) =
      if m = n then f (t.row (.row n)) else t.row (.row n) := by
  have hn' : n < (t.rows.modify m f).size := by
    rw [Array.size_modify]
    exact hn
  rw [row_eq hn]
  simp only [row, Array.getElem?_eq_getElem hn', Option.getD_some]
  exact Array.getElem_modify hn'

/-- Rows and cells after writing a cell. -/
theorem write_spec (t : Table) (p : Place) (v : Symbol) (c : Cell) :
    t.Evolves (t.write p v c).2 ∧ (t.write p v c).2.startRow = t.startRow ∧
      (t.write p v c).2.size = t.size ∧
      ∀ n < t.size, ∀ u d, (t.write p v c).2.cell? (.row n) u = some d →
        t.cell? (.row n) u = some d ∨ (p = .row n ∧ u = v ∧ d = c) := by
  unfold write
  cases hslot : t.slot? v with
  | none => exact ⟨.refl t, rfl, rfl, fun _ _ _ _ => .inl⟩
  | some slot =>
    cases p with
    | loose r => exact ⟨.refl t, rfl, rfl, fun _ _ _ _ => .inl⟩
    | row m =>
      refine ⟨⟨rfl, rfl, rfl, by simp [size], fun n hn => ?_⟩, rfl, by simp [size],
        fun n hn u d hcell => ?_⟩
      · rw [row_modify hn]
        split <;> rfl
      · obtain ⟨slot', hslot', hcell⟩ := Option.bind_eq_some_iff.mp hcell
        rw [row_modify hn] at hcell
        have hold : (t.row (.row n)).cell? slot' = some d → t.cell? (.row n) u = some d :=
          fun h => Option.bind_eq_some_iff.mpr ⟨slot', hslot', h⟩
        split at hcell
        · next heq =>
          rcases Row.cell?_write hcell with hcell | ⟨hsame, hd⟩
          · exact .inl (hold hcell)
          · subst hsame
            exact .inr ⟨congrArg Place.row heq, slot?_inj hslot' hslot, hd⟩
        · exact .inl (hold hcell)

/-! ## New rows -/

/-- The table with one more row. -/
def push (t : Table) (r : Row) : Table := { t with rows := t.rows.push r }

theorem size_push (t : Table) (r : Row) : (t.push r).size = t.size + 1 := by
  simp [push, size]

theorem row_push_old {t : Table} {r : Row} {n : Nat} (hn : n < t.size) :
    (t.push r).row (.row n) = t.row (.row n) := by
  have hn' : n < (t.rows.push r).size := by
    rw [Array.size_push]
    exact Nat.lt_succ_of_lt hn
  rw [row_eq hn]
  simp only [push, row, Array.getElem?_eq_getElem hn', Option.getD_some]
  exact Array.getElem_push_lt hn

theorem row_push_new (t : Table) (r : Row) : (t.push r).row (.row t.size) = r := by
  simp [push, row, size]

theorem evolves_push (t : Table) (r : Row) : t.Evolves (t.push r) :=
  ⟨rfl, rfl, rfl, by rw [size_push]; exact Nat.le_succ _, fun n hn => by rw [row_push_old hn]⟩

theorem cell?_push_old {t : Table} {r : Row} {n : Nat} (hn : n < t.size) (v : Symbol) :
    (t.push r).cell? (.row n) v = t.cell? (.row n) v := by
  unfold cell?
  rw [row_push_old hn]
  rfl

/-- The three ways of putting a row into a table. -/
theorem install_cases (t : Table) (r : Row) :
    (∃ n < t.size, t.install r = (.row n, none, t) ∧
      (t.row (.row n)).configs.same r.configs = true) ∨
    (∃ event reported, t.install r = (.loose r, event, { t with ceilingReported := reported })) ∨
    t.install r = (.row t.size, none, t.push r) := by
  unfold install
  cases hfind : t.rows.findIdx? (·.configs.same r.configs) with
  | some n =>
    obtain ⟨hn, hsame, _⟩ := Array.findIdx?_eq_some_iff_getElem.mp hfind
    rw [← row_eq hn] at hsame
    exact .inl ⟨n, hn, rfl, hsame⟩
  | none =>
    dsimp only
    split
    · split
      · next h => exact .inr (.inl ⟨none, true, by rw [← h]⟩)
      · exact .inr (.inl ⟨_, true, rfl⟩)
    · exact .inr (.inr rfl)

/-- Outside the table stands the empty row. -/
theorem row_default {t : Table} {n : Nat} (hn : t.size ≤ n) : t.row (.row n) = default := by
  simp [row, Array.getElem?_eq_none hn]

theorem link_start (t : Table) (p : Place) (v : Symbol) (target : Place) :
    (t.link p v target).2.start = t.start := by
  cases target with
  | row n => exact (t.write_spec p v (.row n)).1.start_eq
  | loose r => rfl

theorem setStart_start (t : Table) (p : Place) : (t.setStart p).2.start = t.start := by
  unfold setStart
  cases p with
  | loose r => rfl
  | row n => cases t.startRow <;> rfl

theorem install_start (t : Table) (r : Row) : (t.install r).2.2.start = t.start := by
  rcases t.install_cases r with ⟨n, -, heq, -⟩ | ⟨event, reported, heq⟩ | heq
  · rw [heq]
  · rw [heq]
  · rw [heq]
    rfl

/-- Writing a cell changes no row but for its cells. -/
theorem bare_row_write (t : Table) (p place : Place) (v : Symbol) (c : Cell) :
    ((t.write p v c).2.row place).bare = (t.row place).bare := by
  obtain ⟨hevolves, -, hsize, -⟩ := t.write_spec p v c
  cases place with
  | loose r => rfl
  | row n =>
    by_cases hn : n < t.size
    · exact hevolves.bare_eq n hn
    · rw [row_default (hsize ▸ Nat.le_of_not_lt hn), row_default (Nat.le_of_not_lt hn)]

theorem bare_row_link (t : Table) (p place target : Place) (v : Symbol) :
    ((t.link p v target).2.row place).bare = (t.row place).bare := by
  cases target with
  | row n => exact t.bare_row_write p place v _
  | loose r => rfl

/-- **The row that is found where a row was put** is this row, or one of the same set. -/
theorem row_install (t : Table) (r : Row) :
    (t.install r).2.2.row (t.install r).1 = r ∨
      ((t.install r).2.2.row (t.install r).1).configs.same r.configs = true := by
  rcases t.install_cases r with ⟨n, -, heq, hsame⟩ | ⟨event, reported, heq⟩ | heq <;> rw [heq]
  · exact .inr hsame
  · exact .inl rfl
  · exact .inl (row_push_new t r)

/-! ## What is said of all rows -/

/-- All rows of the table have the property. -/
def All (P : Row → Prop) (t : Table) : Prop := ∀ n, P (t.row (.row n))

end Table

/-- A place outside the table has the property if its row does. -/
def Place.All (P : Row → Prop) (p : Place) : Prop := ∀ r, p = .loose r → P r

theorem Place.all_row (P : Row → Prop) (n : Nat) : (Place.row n).All P := fun _ h => nomatch h

namespace Table

variable {P : Row → Prop} {t : Table} {p : Place}

theorem All.row (h : t.All P) (hp : p.All P) : P (t.row p) := by
  cases p with
  | row n => exact h n
  | loose r => exact hp r rfl

/-- A table with the same rows, but for their cells. -/
theorem All.of_evolves {t' : Table} (hP : Row.Essential P) (h : t.All P) (hevolves : t.Evolves t')
    (hsize : t'.size = t.size) : t'.All P := by
  intro n
  by_cases hn : n < t.size
  · exact hP.of_bare (h n) (hevolves.bare_eq n hn)
  · rw [row_default (hsize ▸ Nat.le_of_not_lt hn)]
    exact hP.default

theorem All.write (hP : Row.Essential P) (h : t.All P) (p : Place) (v : Symbol) (c : Cell) :
    (t.write p v c).2.All P := by
  obtain ⟨hevolves, -, hsize, -⟩ := t.write_spec p v c
  exact h.of_evolves hP hevolves hsize

theorem All.link (hP : Row.Essential P) (h : t.All P) (p : Place) (v : Symbol) (target : Place) :
    (t.link p v target).2.All P := by
  cases target with
  | row n => exact h.write hP p v _
  | loose r => exact h

theorem All.push (hP : Row.Essential P) (h : t.All P) {r : Row} (hr : P r) : (t.push r).All P := by
  intro n
  rcases Nat.lt_trichotomy n t.size with hn | rfl | hn
  · rw [row_push_old hn]
    exact h n
  · rw [row_push_new]
    exact hr
  · rw [row_default (t.size_push r ▸ hn)]
    exact hP.default

/-- **A row with the property is put into a table whose rows have it.** -/
theorem All.install (hP : Row.Essential P) (h : t.All P) {r : Row} (hr : P r) :
    (t.install r).1.All P ∧ (t.install r).2.2.All P := by
  rcases t.install_cases r with ⟨n, -, heq, -⟩ | ⟨event, reported, heq⟩ | heq <;> rw [heq]
  · exact ⟨Place.all_row P n, h⟩
  · refine ⟨fun r' hr' => ?_, h⟩
    cases hr'
    exact hr
  · exact ⟨Place.all_row P t.size, h.push hP hr⟩

/-- **A row that is put into a table and linked** is found at the place that came back, or one of
the same set is. -/
theorem All.install_link (hP : Row.Essential P) (h : t.All P) {r : Row} (hr : P r) (p : Place)
    (v : Symbol) : ((t.install r).2.2.link p v (t.install r).1).2.All P ∧
      P (((t.install r).2.2.link p v (t.install r).1).2.row (t.install r).1) ∧
      ((((t.install r).2.2.link p v (t.install r).1).2.row (t.install r).1).configs = r.configs ∨
        (((t.install r).2.2.link p v (t.install r).1).2.row (t.install r).1).configs.same
          r.configs = true) := by
  obtain ⟨hplace, hinstalled⟩ := h.install hP hr
  have hbare := bare_row_link (t.install r).2.2 p (t.install r).1 (t.install r).1 v
  refine ⟨hinstalled.link hP p v _, hP.of_bare (hinstalled.row hplace) hbare, ?_⟩
  rw [Row.configs_eq_of_bare hbare]
  exact (t.row_install r).imp (congrArg Row.configs) id

theorem All.setStart (h : t.All P) (hp : p.All P) :
    (t.setStart p).1.All P ∧ (t.setStart p).2.All P := by
  unfold Table.setStart
  cases p with
  | loose r => exact ⟨hp, h⟩
  | row n =>
    cases t.startRow with
    | some m => exact ⟨Place.all_row P m, h⟩
    | none => exact ⟨Place.all_row P n, h⟩

end Table

/-! ## Caches -/

namespace Cache

/-- The cache goes on from another one: its graph has grown and its tables say more. -/
structure Follows (c c' : Cache) : Prop where
  generation_eq : c'.generation = c.generation
  grown : c.graph.Grown c'.graph
  tables : ∀ d, (c.table d).Evolves (c'.table d)

theorem Follows.refl {c : Cache} (h : c.graph.Sound) : c.Follows c :=
  ⟨rfl, .refl h, fun _ => .refl _⟩

theorem Follows.trans {c₁ c₂ c₃ : Cache} (h : c₁.Follows c₂) (h' : c₂.Follows c₃) :
    c₁.Follows c₃ where
  generation_eq := h'.generation_eq.trans h.generation_eq
  grown := h.grown.trans h'.grown
  tables d := (h.tables d).trans (h'.tables d)

variable {c : Cache}

theorem table_setTable {d i : Nat} {t : Table} (hd : d < c.tables.size) :
    (c.setTable d t).table i = if d = i then t else c.table i := by
  unfold setTable table
  rw [Array.set!_eq_setIfInBounds]
  by_cases h : d = i
  · subst h
    simp [hd]
  · simp [h]

/-- All rows of all tables have the property. -/
def All (P : Row → Prop) (c : Cache) : Prop := ∀ d, (c.table d).All P

variable {P : Row → Prop}

theorem All.of_tables {c' : Cache} (h : c.All P) (htables : c'.tables = c.tables) : c'.All P := by
  intro d
  have htable : c'.table d = c.table d := by rw [table, table, htables]
  rw [htable]
  exact h d

theorem All.setTable (h : c.All P) {t : Table} (ht : t.All P) (d : Nat) : (c.setTable d t).All P := by
  intro i
  by_cases hd : d < c.tables.size
  · rw [table_setTable hd]
    split
    · exact ht
    · exact h i
  · -- There is no such table, so none is replaced.
    have hsame : c.setTable d t = c := by
      simp [Cache.setTable, Array.setIfInBounds, hd]
    rw [hsame]
    exact h i

end Cache

end AdaptiveLL
