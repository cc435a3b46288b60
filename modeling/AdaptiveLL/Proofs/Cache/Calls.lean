import AdaptiveLL.Proofs.Cache.Evolution

/-!
# Calls on a table

A program draws up rows, puts them into a table, chooses the first one and writes cells, in any
order, and keeps the places it is answered. Some of these are loose: rows that were drawn up and not
yet put into the table, and rows past its ceiling. Whatever is done, no two rows of the table hold
the same set, the rows are numbered as they come, nothing in the table leads to a loose row, and
what was once read from a cell is read from it ever after.
-/

namespace AdaptiveLL

/-! ## Equal sets -/

namespace ConfigSet

/-- The configurations of a set as sets are compared, and whether their stacks are exact. -/
def content (s : ConfigSet) : Bool × List Config :=
  (s.fullContext, s.toList.map Config.identity)

theorem same_iff {s t : ConfigSet} : s.same t = true ↔
    s.content = t.content ∧ s.uniqueAlt = t.uniqueAlt ∧ s.conflicting = t.conflicting ∧
      s.hasGuards = t.hasGuards ∧ s.dipsOut = t.dipsOut := by
  simp only [same, sameConfigs, content, Bool.and_eq_true, beq_iff_eq, Prod.mk.injEq]
  tauto

theorem same_symm {s t : ConfigSet} (h : s.same t = true) : t.same s = true := by
  obtain ⟨hcontent, halt, hconflict, hguards, hdips⟩ := same_iff.mp h
  exact same_iff.mpr ⟨hcontent.symm, halt.symm, hconflict.symm, hguards.symm, hdips.symm⟩

theorem same_trans {s t u : ConfigSet} (h : s.same t = true) (h' : t.same u = true) :
    s.same u = true := by
  obtain ⟨hcontent, halt, hconflict, hguards, hdips⟩ := same_iff.mp h
  obtain ⟨hcontent', halt', hconflict', hguards', hdips'⟩ := same_iff.mp h'
  exact same_iff.mpr ⟨hcontent.trans hcontent', halt.trans halt', hconflict.trans hconflict',
    hguards.trans hguards', hdips.trans hdips'⟩

end ConfigSet

/-! ## Cells -/

namespace Row

/-- The cells of the row stand in the order of their slots and lead to rows below a bound. -/
structure Tidy (bound : Nat) (r : Row) : Prop where
  ascending : r.cells.Pairwise (·.1 < ·.1)
  lt : ∀ slot n, (slot, Cell.row n) ∈ r.cells → n < bound

/-- A row that comes of another one by writing cells. -/
structure Continues (r r' : Row) : Prop where
  bare_eq : r'.bare = r.bare
  cell? : ∀ slot c, r.cell? slot = some c → r'.cell? slot = some c

theorem Continues.refl (r : Row) : r.Continues r := ⟨rfl, fun _ _ h => h⟩

theorem Continues.trans {r₁ r₂ r₃ : Row} (h : r₁.Continues r₂) (h' : r₂.Continues r₃) :
    r₁.Continues r₃ :=
  ⟨h'.bare_eq.trans h.bare_eq, fun slot c hc => h'.cell? slot c (h.cell? slot c hc)⟩

theorem tidy_bare (bound : Nat) (r : Row) : r.bare.Tidy bound := ⟨.nil, fun _ _ h => nomatch h⟩

theorem Tidy.mono {r : Row} {bound bound' : Nat} (h : r.Tidy bound) (hle : bound ≤ bound') :
    r.Tidy bound' :=
  ⟨h.ascending, fun slot n hmem => Nat.lt_of_lt_of_le (h.lt slot n hmem) hle⟩

private theorem mem_writeCell {slot : Nat} {c : Cell} {cells : List (Nat × Cell)} {p : Nat × Cell}
    (h : p ∈ writeCell slot c cells) : p = (slot, c) ∨ p ∈ cells := by
  induction cells with
  | nil => exact .inl (List.mem_singleton.mp h)
  | cons q cells ih =>
    unfold writeCell at h
    split_ifs at h with hlt heq
    · exact List.mem_cons.mp h
    · exact .inr h
    · rcases List.mem_cons.mp h with rfl | h
      · exact .inr List.mem_cons_self
      · exact (ih h).imp_right (List.mem_cons_of_mem q)

private theorem ascending_writeCell {slot : Nat} {c : Cell} {cells : List (Nat × Cell)}
    (h : cells.Pairwise (·.1 < ·.1)) : (writeCell slot c cells).Pairwise (·.1 < ·.1) := by
  induction cells with
  | nil => exact List.pairwise_singleton _ _
  | cons q cells ih =>
    obtain ⟨hq, hcells⟩ := List.pairwise_cons.mp h
    unfold writeCell
    split_ifs with hlt heq
    · refine List.pairwise_cons.mpr ⟨fun p hp => ?_, h⟩
      rcases List.mem_cons.mp hp with rfl | hp
      · exact hlt
      · exact hlt.trans (hq p hp)
    · exact h
    · refine List.pairwise_cons.mpr ⟨fun p hp => ?_, ih hcells⟩
      rcases mem_writeCell hp with rfl | hp
      · exact Nat.lt_of_le_of_ne (Nat.le_of_not_lt hlt) (Ne.symm heq)
      · exact hq p hp

theorem Tidy.write {r : Row} {bound : Nat} (h : r.Tidy bound) (slot : Nat) {c : Cell}
    (hc : ∀ n, c = .row n → n < bound) : (r.write slot c).Tidy bound := by
  refine ⟨ascending_writeCell h.ascending, fun slot' n hmem => ?_⟩
  rcases mem_writeCell hmem with heq | hmem
  · exact hc n (congrArg Prod.snd heq).symm
  · exact h.lt slot' n hmem

theorem Tidy.cell?_lt {r : Row} {bound : Nat} (h : r.Tidy bound) {slot n : Nat}
    (hcell : r.cell? slot = some (.row n)) : n < bound := by
  unfold cell? at hcell
  obtain ⟨l₁, l₂, hcells, -⟩ := List.lookup_eq_some_iff.mp hcell
  exact h.lt slot n (hcells ▸ List.mem_append_right l₁ List.mem_cons_self)

private theorem lookup_writeCell_self {slot : Nat} {c : Cell} {cells : List (Nat × Cell)}
    (h : cells.Pairwise (·.1 < ·.1)) :
    (writeCell slot c cells).lookup slot = some ((cells.lookup slot).getD c) := by
  induction cells with
  | nil => simp [writeCell]
  | cons q cells ih =>
    obtain ⟨hq, hcells⟩ := List.pairwise_cons.mp h
    unfold writeCell
    split_ifs with hlt heq
    · -- All slots further on are greater, so the cell was not written.
      have hnone : (q :: cells).lookup slot = none := by
        refine List.lookup_eq_none_iff.mpr fun p hp => ?_
        have hslot : slot < p.1 := by
          rcases List.mem_cons.mp hp with rfl | hp
          · exact hlt
          · exact hlt.trans (hq p hp)
        simpa using hslot.ne
      rw [hnone, List.lookup_cons_self, Option.getD_none]
    · subst heq
      rw [List.lookup_cons_self, Option.getD_some]
    · have hne : (slot == q.1) = false := by simpa using heq
      rw [List.lookup_cons, List.lookup_cons, hne]
      exact ih hcells

private theorem lookup_writeCell_of_ne {slot slot' : Nat} (hne : slot' ≠ slot) (c : Cell)
    (cells : List (Nat × Cell)) :
    (writeCell slot c cells).lookup slot' = cells.lookup slot' := by
  have hbeq : (slot' == slot) = false := by simpa using hne
  induction cells with
  | nil => rw [writeCell, List.lookup_cons, hbeq]
  | cons q cells ih =>
    unfold writeCell
    split_ifs
    · rw [List.lookup_cons, hbeq]
    · rfl
    · rw [List.lookup_cons, List.lookup_cons, ih]

/-- **A cell is written once:** writing it again leaves what is there, and no other cell changes. -/
theorem Tidy.cell?_write_eq {r : Row} {bound : Nat} (h : r.Tidy bound) (slot slot' : Nat)
    (c : Cell) : (r.write slot c).cell? slot' =
      if slot' = slot then some ((r.cell? slot).getD c) else r.cell? slot' := by
  split_ifs with heq
  · rw [heq]
    exact lookup_writeCell_self h.ascending
  · exact lookup_writeCell_of_ne heq c r.cells

/-- Writing a cell keeps those that are written. -/
theorem Tidy.continues_write {r : Row} {bound : Nat} (h : r.Tidy bound) (slot : Nat) (c : Cell) :
    r.Continues (r.write slot c) := by
  refine ⟨rfl, fun slot' d hd => ?_⟩
  rw [h.cell?_write_eq]
  split_ifs with heq
  · rw [← heq, hd, Option.getD_some]
  · exact hd

end Row

/-! ## Tables -/

/-- A place that stands for the same row, which may have more cells. -/
inductive Place.Continues : Place → Place → Prop where
  | row (n : Nat) : Place.Continues (.row n) (.row n)
  | loose {r r' : Row} : r.Continues r' → Place.Continues (.loose r) (.loose r')

theorem Place.Continues.refl : (p : Place) → p.Continues p
  | .row n => .row n
  | .loose r => .loose (.refl r)

theorem Place.Continues.trans {p₁ p₂ p₃ : Place} (h : p₁.Continues p₂) (h' : p₂.Continues p₃) :
    p₁.Continues p₃ := by
  cases h with
  | row n => exact h'
  | loose h =>
    cases h' with
    | loose h' => exact .loose (h.trans h')

namespace Table

/-- **A table that goes on from another one by calls.** What was written stays. -/
structure Continues (t t' : Table) : Prop extends t.Evolves t' where
  maxRows_eq : t'.maxRows = t.maxRows
  row : ∀ n < t.size, (t.row (.row n)).Continues (t'.row (.row n))
  startRow : ∀ n, t.startRow = some n → t'.startRow = some n

theorem Continues.refl (t : Table) : t.Continues t :=
  ⟨.refl t, rfl, fun _ _ => .refl _, fun _ h => h⟩

theorem Continues.trans {t₁ t₂ t₃ : Table} (h : t₁.Continues t₂) (h' : t₂.Continues t₃) :
    t₁.Continues t₃ :=
  ⟨h.toEvolves.trans h'.toEvolves, h'.maxRows_eq.trans h.maxRows_eq,
    fun n hn => (h.row n hn).trans (h'.row n (Nat.lt_of_lt_of_le hn h.size_le)),
    fun n hn => h'.startRow n (h.startRow n hn)⟩

/-- **A table as calls leave it.** -/
structure Canonical (t : Table) : Prop where
  size_le : t.size ≤ t.maxRows
  /-- No two rows hold the same set. -/
  eq_of_same : ∀ m < t.size, ∀ n < t.size,
    (t.row (.row m)).configs.same (t.row (.row n)).configs = true → m = n
  tidy : ∀ n < t.size, (t.row (.row n)).Tidy t.size
  startRow_lt : ∀ n, t.startRow = some n → n < t.size

/-- Whether a program may hold the place: there is such a row, or it is loose and leads to rows that
there are. -/
def Hosts (t : Table) : Place → Prop
  | .row n => n < t.size
  | .loose r => r.Tidy t.size

theorem Continues.hosts {t t' : Table} (h : t.Continues t') {p : Place} (hp : t.Hosts p) :
    t'.Hosts p := by
  cases p with
  | row n => exact Nat.lt_of_lt_of_le hp h.size_le
  | loose r => exact Row.Tidy.mono hp h.size_le

theorem Canonical.tidy_row {t : Table} (ht : t.Canonical) {p : Place} (hp : t.Hosts p) :
    (t.row p).Tidy t.size := by
  cases p with
  | row n => exact ht.tidy n hp
  | loose r => exact hp

/-- **What is read from a cell is read from it ever after.** -/
theorem Continues.cell? {t t' : Table} (h : t.Continues t') {p p' : Place} (hp : t.Hosts p)
    (hplace : p.Continues p') {v : Symbol} {c : Cell} (hc : t.cell? p v = some c) :
    t'.cell? p' v = some c := by
  have hslot : t'.slot? v = t.slot? v := by rw [slot?, slot?, h.first_eq, h.last_eq]
  have hrow : (t.row p).Continues (t'.row p') := by
    cases hplace with
    | row n => exact h.row n hp
    | loose hr => exact hr
  unfold Table.cell? at hc ⊢
  obtain ⟨slot, hs, hc⟩ := Option.bind_eq_some_iff.mp hc
  rw [hslot, hs]
  exact hrow.cell? slot c hc

/-! ### Putting rows into a table -/

variable {t : Table}

/-- No row of the table holds the same set as a row. -/
def Lacks (t : Table) (r : Row) : Prop :=
  ∀ n < t.size, (t.row (.row n)).configs.same r.configs = false

private theorem findIdx?_eq_none {r : Row} (h : t.Lacks r) :
    t.rows.findIdx? (·.configs.same r.configs) = none := by
  refine Array.findIdx?_eq_none_iff.mpr fun r' hr' => ?_
  obtain ⟨n, hn, rfl⟩ := Array.mem_iff_getElem.mp hr'
  rw [← row_eq hn]
  exact h n hn

/-- **A set that is known is answered with its row.** -/
theorem Canonical.install_known (ht : t.Canonical) {r : Row} {n : Nat} (hn : n < t.size)
    (hsame : (t.row (.row n)).configs.same r.configs = true) :
    t.install r = (.row n, none, t) := by
  unfold install
  cases hfind : t.rows.findIdx? (·.configs.same r.configs) with
  | none =>
    have hfalse := Array.findIdx?_eq_none_iff.mp hfind t.rows[n] (Array.getElem_mem hn)
    rw [row_eq hn, hfalse] at hsame
    cases hsame
  | some m =>
    obtain ⟨hm, hsame', -⟩ := Array.findIdx?_eq_some_iff_getElem.mp hfind
    rw [← row_eq hm] at hsame'
    rw [ht.eq_of_same m hm n hn (ConfigSet.same_trans hsame' (ConfigSet.same_symm hsame))]

/-- **A new set is given the next number** while there is room. -/
theorem install_new {r : Row} (h : t.Lacks r) (hroom : t.size < t.maxRows) :
    t.install r = (.row t.size, none, t.push r) := by
  unfold install
  rw [findIdx?_eq_none h]
  exact if_neg (Nat.not_le.mpr hroom)

/-- **Past the ceiling a new row stays loose.** -/
theorem install_full {r : Row} (h : t.Lacks r) (hfull : t.maxRows ≤ t.size) :
    ∃ event reported, t.install r = (.loose r, event, { t with ceilingReported := reported }) := by
  unfold install
  rw [findIdx?_eq_none h]
  dsimp only
  rw [if_pos (show t.maxRows ≤ t.rows.size from hfull)]
  split_ifs with hreported
  · exact ⟨none, true, by rw [← hreported]⟩
  · exact ⟨_, true, rfl⟩

private theorem known_or_lacks (t : Table) (r : Row) :
    (∃ n < t.size, (t.row (.row n)).configs.same r.configs = true) ∨ t.Lacks r := by
  by_cases h : t.Lacks r
  · exact .inr h
  · simp only [Lacks, not_forall, Bool.not_eq_false] at h
    obtain ⟨n, hn, hsame⟩ := h
    exact .inl ⟨n, hn, hsame⟩

theorem continues_install (t : Table) (r : Row) : t.Continues (t.install r).2.2 := by
  rcases t.install_cases r with ⟨n, -, heq, -⟩ | ⟨event, reported, heq⟩ | heq <;> rw [heq]
  · exact .refl t
  · exact ⟨⟨rfl, rfl, rfl, le_rfl, fun _ _ => rfl⟩, rfl, fun _ _ => .refl _, fun _ h => h⟩
  · refine ⟨evolves_push t r, rfl, fun n hn => ?_, fun _ h => h⟩
    rw [row_push_old hn]
    exact .refl _

theorem Canonical.push (ht : t.Canonical) {r : Row} (hr : r.Tidy t.size) (hnew : t.Lacks r)
    (hroom : t.size < t.maxRows) : (t.push r).Canonical := by
  have hsize : (t.push r).size = t.size + 1 := t.size_push r
  refine ⟨hsize ▸ hroom, fun m hm n hn hsame => ?_, fun n hn => ?_, fun n hn => ?_⟩
  · rw [hsize, Nat.lt_succ_iff_lt_or_eq] at hm hn
    rcases hm with hm | rfl <;> rcases hn with hn | rfl
    · rw [row_push_old hm, row_push_old hn] at hsame
      exact ht.eq_of_same m hm n hn hsame
    · rw [row_push_old hm, row_push_new, hnew m hm] at hsame
      cases hsame
    · have hsame' := ConfigSet.same_symm hsame
      rw [row_push_old hn, row_push_new, hnew n hn] at hsame'
      cases hsame'
    · rfl
  · rw [hsize, Nat.lt_succ_iff_lt_or_eq] at hn
    rcases hn with hn | rfl
    · rw [row_push_old hn]
      exact (ht.tidy n hn).mono (hsize ▸ Nat.le_succ _)
    · rw [row_push_new]
      exact hr.mono (hsize ▸ Nat.le_succ _)
  · exact hsize ▸ Nat.lt_succ_of_lt (ht.startRow_lt n hn)

theorem Canonical.install (ht : t.Canonical) {r : Row} (hr : r.Tidy t.size) :
    (t.install r).2.2.Canonical := by
  rcases t.known_or_lacks r with ⟨n, hn, hsame⟩ | hnew
  · rw [ht.install_known hn hsame]
    exact ht
  · rcases Nat.lt_or_ge t.size t.maxRows with hroom | hfull
    · rw [install_new hnew hroom]
      exact ht.push hr hnew hroom
    · obtain ⟨event, reported, heq⟩ := install_full hnew hfull
      rw [heq]
      exact ⟨ht.size_le, ht.eq_of_same, ht.tidy, ht.startRow_lt⟩

/-! ### The first row -/

theorem continues_setStart (t : Table) (p : Place) : t.Continues (t.setStart p).2 := by
  unfold setStart
  cases p with
  | loose r => exact .refl t
  | row n =>
    cases hstart : t.startRow with
    | some m => exact .refl t
    | none =>
      exact ⟨⟨rfl, rfl, rfl, le_rfl, fun _ _ => rfl⟩, rfl, fun _ _ => .refl _,
        fun _ h => nomatch hstart.symm.trans h⟩

theorem Canonical.setStart (ht : t.Canonical) {p : Place} (hp : t.Hosts p) :
    (t.setStart p).2.Canonical ∧ t.Hosts (t.setStart p).1 := by
  unfold Table.setStart
  cases p with
  | loose r => exact ⟨ht, hp⟩
  | row n =>
    cases hstart : t.startRow with
    | some m => exact ⟨ht, ht.startRow_lt m hstart⟩
    | none =>
      refine ⟨⟨ht.size_le, ht.eq_of_same, ht.tidy, fun m hm => ?_⟩, hp⟩
      exact Option.some.inj hm ▸ hp

/-! ### Writing cells -/

/-- A row after writing a cell. -/
theorem row_write (t : Table) (p : Place) (v : Symbol) (c : Cell) {n : Nat}
    (hn : n < t.size) : (t.write p v c).2.row (.row n) = t.row (.row n) ∨
      ∃ slot, t.slot? v = some slot ∧
        (t.write p v c).2.row (.row n) = (t.row (.row n)).write slot c := by
  unfold write
  cases t.slot? v with
  | none => exact .inl rfl
  | some slot =>
    cases p with
    | loose r => exact .inl rfl
    | row m =>
      dsimp only
      rw [row_modify hn]
      split_ifs
      · exact .inr ⟨slot, rfl, rfl⟩
      · exact .inl rfl

/-- A place after writing a cell. -/
theorem place_write (t : Table) (p : Place) (v : Symbol) (c : Cell) :
    (t.write p v c).1 = p ∨
      ∃ r slot, p = .loose r ∧ t.slot? v = some slot ∧
        (t.write p v c).1 = .loose (r.write slot c) := by
  unfold write
  cases t.slot? v with
  | none => exact .inl rfl
  | some slot =>
    cases p with
    | row n => exact .inl rfl
    | loose r => exact .inr ⟨r, slot, rfl, rfl, rfl⟩

private theorem maxRows_write (t : Table) (p : Place) (v : Symbol) (c : Cell) :
    (t.write p v c).2.maxRows = t.maxRows := by
  unfold write
  cases t.slot? v with
  | none => rfl
  | some slot => cases p <;> rfl

theorem Canonical.continues_write (ht : t.Canonical) {p : Place} (hp : t.Hosts p) (v : Symbol)
    (c : Cell) : t.Continues (t.write p v c).2 ∧ p.Continues (t.write p v c).1 := by
  obtain ⟨hevolves, hstart, -, -⟩ := t.write_spec p v c
  refine ⟨⟨hevolves, t.maxRows_write p v c, fun n hn => ?_, fun n hn => hstart.trans hn⟩, ?_⟩
  · rcases t.row_write p v c hn with heq | ⟨slot, -, heq⟩ <;> rw [heq]
    · exact .refl _
    · exact (ht.tidy n hn).continues_write slot c
  · rcases t.place_write p v c with heq | ⟨r, slot, rfl, -, heq⟩ <;> rw [heq]
    · exact .refl p
    · exact .loose (Row.Tidy.continues_write hp slot c)

theorem Canonical.write (ht : t.Canonical) {p : Place} (hp : t.Hosts p) (v : Symbol) {c : Cell}
    (hc : ∀ n, c = .row n → n < t.size) :
    (t.write p v c).2.Canonical ∧ (t.write p v c).2.Hosts (t.write p v c).1 := by
  obtain ⟨hevolves, hstart, hsize, -⟩ := t.write_spec p v c
  refine ⟨⟨?_, fun m hm n hn hsame => ?_, fun n hn => ?_, fun n hn => ?_⟩, ?_⟩
  · rw [hsize, maxRows_write]
    exact ht.size_le
  · rw [hsize] at hm hn
    rw [Row.configs_eq_of_bare (hevolves.bare_eq m hm),
      Row.configs_eq_of_bare (hevolves.bare_eq n hn)] at hsame
    exact ht.eq_of_same m hm n hn hsame
  · rw [hsize] at hn ⊢
    rcases t.row_write p v c hn with heq | ⟨slot, -, heq⟩ <;> rw [heq]
    · exact ht.tidy n hn
    · exact (ht.tidy n hn).write slot hc
  · rw [hstart] at hn
    exact hsize ▸ ht.startRow_lt n hn
  · rcases t.place_write p v c with heq | ⟨r, slot, rfl, -, heq⟩ <;> rw [heq]
    · exact (ht.continues_write hp v c).1.hosts hp
    · rw [Hosts, hsize]
      exact Row.Tidy.write hp slot hc

private theorem row_write_self {p : Place} (hp : t.Hosts p) {v : Symbol} {slot : Nat}
    (hslot : t.slot? v = some slot) (c : Cell) :
    (t.write p v c).2.row (t.write p v c).1 = (t.row p).write slot c := by
  unfold write
  rw [hslot]
  cases p with
  | row n =>
    dsimp only
    rw [row_modify hp, if_pos rfl]
  | loose r => rfl

private theorem slot?_write (t : Table) (p : Place) (v u : Symbol) (c : Cell) :
    (t.write p v c).2.slot? u = t.slot? u := by
  obtain ⟨hevolves, -⟩ := t.write_spec p v c
  rw [slot?, slot?, hevolves.first_eq, hevolves.last_eq]

/-- **What is first written for a symbol is read for it,** and for no other symbol. -/
theorem Canonical.cell?_write (ht : t.Canonical) {p : Place} (hp : t.Hosts p) {v : Symbol}
    (hlo : t.firstSymbol ≤ v) (hhi : v ≤ t.lastSymbol) (c : Cell) (u : Symbol) :
    (t.write p v c).2.cell? (t.write p v c).1 u =
      if u = v then some ((t.cell? p v).getD c) else t.cell? p u := by
  have hslot : t.slot? v = some (v - t.firstSymbol).toNat :=
    if_neg (not_or.mpr ⟨not_lt.mpr hlo, not_lt.mpr hhi⟩)
  unfold Table.cell?
  rw [slot?_write, row_write_self hp hslot]
  split_ifs with heq
  · subst heq
    rw [hslot, Option.bind_some, Option.bind_some, (ht.tidy_row hp).cell?_write_eq, if_pos rfl]
  · refine Option.bind_congr fun slot hu => ?_
    rw [(ht.tidy_row hp).cell?_write_eq, if_neg fun hsame => heq ?_]
    exact slot?_inj hu (hsame ▸ hslot)

/-- Symbols out of range have no cell. -/
theorem cell?_out_of_range {v : Symbol} (hv : v < t.firstSymbol ∨ t.lastSymbol < v) (p : Place) :
    t.cell? p v = none := by
  rw [cell?, slot?, if_pos hv, Option.bind_none]

end Table

/-! ## Programs -/

/-- **A call on a table,** by a program that keeps the places it is answered. -/
inductive TableCall where
  /-- Draws up a row. -/
  | draft (r : Row)
  /-- Puts a loose row into the table. -/
  | install (i : Nat)
  | setStart (i : Nat)
  | link (i : Nat) (v : Symbol) (j : Nat)
  | linkDead (i : Nat) (v : Symbol)

/-- A table and the places that a program was answered, in that order. -/
structure Holding where
  table : Table
  places : List Place

namespace Holding

/-- A table of no rows, for the symbols of a range. -/
def empty (decision : Nat) (start : StateId) (lo hi : Symbol) (ceiling : Nat) : Holding :=
  ⟨{ decision, start, firstSymbol := lo, lastSymbol := hi, maxRows := ceiling }, []⟩

/-- The table after a call that is answered with a place. -/
def answer (h : Holding) (p : Place) (t : Table) : Holding := ⟨t, h.places ++ [p]⟩

/-- The table after a call that wrote a cell of a place. -/
def written (h : Holding) (i : Nat) (a : Place × Table) : Holding := ⟨a.2, h.places.set i a.1⟩

/-- **What a call does.** A call on a place that the program was not answered does nothing. -/
def perform (h : Holding) : TableCall → Holding
  | .draft r => h.answer (.loose r.bare) h.table
  | .install i =>
    match h.places[i]? with
    | some (.loose r) => h.answer (h.table.install r).1 (h.table.install r).2.2
    | _ => h
  | .setStart i =>
    match h.places[i]? with
    | some (.row n) => h.answer (h.table.setStart (.row n)).1 (h.table.setStart (.row n)).2
    -- A loose row is handed back as it is.
    | _ => h
  | .link i v j =>
    match h.places[i]?, h.places[j]? with
    | some p, some target => h.written i (h.table.link p v target)
    | _, _ => h
  | .linkDead i v =>
    match h.places[i]? with
    | some p => h.written i (h.table.linkDead p v)
    | none => h

/-- What calls do one after the other. -/
def performAll (h : Holding) (cs : List TableCall) : Holding := cs.foldl perform h

/-- **What calls keep:** the table is as calls leave it, and the program holds every row, but no
other. -/
structure Sound (h : Holding) : Prop where
  canonical : h.table.Canonical
  hosts : ∀ p ∈ h.places, h.table.Hosts p
  held : ∀ n < h.table.size, .row n ∈ h.places

/-- The program goes on: what it held, it holds, and what it could read, it reads. -/
structure Continues (h h' : Holding) : Prop where
  table : h.table.Continues h'.table
  place : ∀ (i : Nat) (p : Place), h.places[i]? = some p →
    ∃ p', h'.places[i]? = some p' ∧ p.Continues p'

theorem Continues.refl (h : Holding) : h.Continues h := ⟨.refl _, fun _ p hp => ⟨p, hp, .refl p⟩⟩

theorem Continues.trans {h₁ h₂ h₃ : Holding} (h : h₁.Continues h₂) (h' : h₂.Continues h₃) :
    h₁.Continues h₃ := by
  refine ⟨h.table.trans h'.table, fun i p hp => ?_⟩
  obtain ⟨p₂, hp₂, hcont₂⟩ := h.place i p hp
  obtain ⟨p₃, hp₃, hcont₃⟩ := h'.place i p₂ hp₂
  exact ⟨p₃, hp₃, hcont₂.trans hcont₃⟩

variable {h : Holding}

/-- A call that is answered with a place. -/
private theorem Sound.answer (hs : h.Sound) {p : Place} {t : Table} (hcont : h.table.Continues t)
    (ht : t.Canonical) (hp : t.Hosts p) (hnew : ∀ n < t.size, n < h.table.size ∨ p = .row n) :
    (h.answer p t).Sound ∧ h.Continues (h.answer p t) := by
  refine ⟨⟨ht, fun q hq => ?_, fun n hn => ?_⟩, hcont, fun i q hq => ⟨q, ?_, .refl q⟩⟩
  · rcases List.mem_append.mp hq with hq | hq
    · exact hcont.hosts (hs.hosts q hq)
    · exact List.mem_singleton.mp hq ▸ hp
  · rcases hnew n hn with hn | rfl
    · exact List.mem_append_left _ (hs.held n hn)
    · exact List.mem_append_right _ List.mem_cons_self
  · rw [Holding.answer, List.getElem?_append_left (List.getElem?_eq_some_iff.mp hq).1, hq]

/-- A call that wrote a cell of a place. -/
private theorem Sound.written (hs : h.Sound) {i : Nat} {p : Place} (hp : h.places[i]? = some p)
    {a : Place × Table} (hcont : h.table.Continues a.2) (hplace : p.Continues a.1)
    (ht : a.2.Canonical) (ha : a.2.Hosts a.1) (hsize : a.2.size = h.table.size) :
    (h.written i a).Sound ∧ h.Continues (h.written i a) := by
  have hi : i < h.places.length := (List.getElem?_eq_some_iff.mp hp).1
  have hall : ∀ (k : Nat) (q : Place), h.places[k]? = some q →
      ∃ q', (h.places.set i a.1)[k]? = some q' ∧ q.Continues q' := by
    intro k q hq
    rw [List.getElem?_set]
    split_ifs with heq
    · subst heq
      exact ⟨a.1, rfl, Option.some.inj (hp.symm.trans hq) ▸ hplace⟩
    · exact ⟨q, hq, .refl q⟩
  refine ⟨⟨ht, fun q hq => ?_, fun n hn => ?_⟩, hcont, hall⟩
  · rcases List.mem_or_eq_of_mem_set hq with hq | rfl
    · exact hcont.hosts (hs.hosts q hq)
    · exact ha
  · obtain ⟨k, hk⟩ := List.mem_iff_getElem?.mp (hs.held n (hsize ▸ hn))
    obtain ⟨q', hq', hcont'⟩ := hall k _ hk
    cases hcont'
    exact List.mem_of_getElem? hq'

private theorem Sound.write (hs : h.Sound) {i : Nat} {p : Place} (hp : h.places[i]? = some p)
    (v : Symbol) {c : Cell} (hc : ∀ n, c = .row n → n < h.table.size) :
    (h.written i (h.table.write p v c)).Sound ∧
      h.Continues (h.written i (h.table.write p v c)) := by
  have hhosts : h.table.Hosts p := hs.hosts p (List.mem_of_getElem? hp)
  obtain ⟨hcont, hplace⟩ := hs.canonical.continues_write hhosts v c
  obtain ⟨hcanon, ha⟩ := hs.canonical.write hhosts v hc
  exact hs.written hp hcont hplace hcanon ha (h.table.write_spec p v c).2.2.1

private theorem Sound.install (hs : h.Sound) {r : Row} (hr : r.Tidy h.table.size) :
    (h.answer (h.table.install r).1 (h.table.install r).2.2).Sound ∧
      h.Continues (h.answer (h.table.install r).1 (h.table.install r).2.2) := by
  refine hs.answer (h.table.continues_install r) (hs.canonical.install hr) ?_ ?_
  · rcases h.table.install_cases r with ⟨n, hn, heq, -⟩ | ⟨event, reported, heq⟩ | heq <;> rw [heq]
    · exact hn
    · exact hr
    · exact (Nat.lt_succ_self _).trans_eq (h.table.size_push r).symm
  · intro n hn
    rcases h.table.install_cases r with ⟨m, -, heq, -⟩ | ⟨event, reported, heq⟩ | heq <;>
      rw [heq] at hn ⊢
    · exact .inl hn
    · exact .inl hn
    · rw [Table.size_push, Nat.lt_succ_iff_lt_or_eq] at hn
      exact hn.imp_right fun heq => congrArg Place.row heq.symm

/-- **What one call keeps.** -/
theorem Sound.perform (hs : h.Sound) (c : TableCall) :
    (h.perform c).Sound ∧ h.Continues (h.perform c) := by
  -- A call that names no place in hand does nothing.
  have hnothing : h.Sound ∧ h.Continues h := ⟨hs, .refl h⟩
  have hhosts : ∀ {i : Nat} {p : Place}, h.places[i]? = some p → h.table.Hosts p :=
    fun hp => hs.hosts _ (List.mem_of_getElem? hp)
  cases c with
  | draft r =>
    exact hs.answer (.refl _) hs.canonical (r.tidy_bare _) fun n hn => .inl hn
  | install i =>
    simp only [Holding.perform]
    split
    · next r hp => exact hs.install (hhosts hp)
    · exact hnothing
  | setStart i =>
    simp only [Holding.perform]
    split
    · next n hp =>
      obtain ⟨hcanon, hsits⟩ := hs.canonical.setStart (hhosts hp)
      have hcont := h.table.continues_setStart (.row n)
      have hsize : (h.table.setStart (.row n)).2.size = h.table.size := by
        unfold Table.setStart
        cases h.table.startRow <;> rfl
      refine hs.answer hcont hcanon (hcont.hosts hsits) fun m hm => .inl (hsize ▸ hm)
    · exact hnothing
  | link i v j =>
    simp only [Holding.perform]
    split
    · next p target hp htarget =>
      cases target with
      | row n => exact hs.write hp v fun m hm => Cell.row.inj hm ▸ hhosts htarget
      | loose r => exact hs.written hp (.refl _) (.refl p) hs.canonical (hhosts hp) rfl
    · exact hnothing
  | linkDead i v =>
    simp only [Holding.perform]
    split
    · next p hp => exact hs.write hp v nofun
    · exact hnothing

/-- **What calls one after the other keep.** -/
theorem Sound.performAll (hs : h.Sound) (cs : List TableCall) :
    (h.performAll cs).Sound ∧ h.Continues (h.performAll cs) := by
  induction cs generalizing h with
  | nil => exact ⟨hs, .refl h⟩
  | cons c cs ih =>
    obtain ⟨hsound, hcont⟩ := hs.perform c
    obtain ⟨hsound', hcont'⟩ := ih hsound
    exact ⟨hsound', hcont.trans hcont'⟩

theorem sound_empty (decision : Nat) (start : StateId) (lo hi : Symbol) (ceiling : Nat) :
    (empty decision start lo hi ceiling).Sound := by
  have hnone : ∀ p ∈ ([] : List Place), (empty decision start lo hi ceiling).table.Hosts p :=
    fun p hp => absurd hp List.not_mem_nil
  refine ⟨⟨Nat.zero_le _, fun m hm => ?_, fun n hn => ?_, nofun⟩, hnone, fun n hn => ?_⟩
  · exact absurd hm (Nat.not_lt_zero m)
  · exact absurd hn (Nat.not_lt_zero n)
  · exact absurd hn (Nat.not_lt_zero n)

/-- **A table is canonical and written once.** Whatever calls have been made on an empty table, and
whatever calls are made on it later,
* no two rows hold the same set,
* a set that is known is answered with its row, a new one gets the next number while there is room,
  and past the ceiling it stays loose and the rows are what they were,
* the rows that were answered are those with a number below the size, which is within the ceiling,
* a loose row does not become the first one, and nothing is noted to lead to it; the first row and
  what is read from a cell are rows of the table,
* what is read from a cell of a place is read from it later, and the row at the place is the same
  but for its cells,
* symbols out of range have no cell,
* the first row stays the first one. -/
theorem performAll_canonical (decision : Nat) (start : StateId) (lo hi : Symbol) (ceiling : Nat)
    (cs later : List TableCall) :
    let h := (empty decision start lo hi ceiling).performAll cs
    let t := h.table
    let h' := h.performAll later
    (∀ m < t.size, ∀ n < t.size,
      (t.row (.row m)).configs.same (t.row (.row n)).configs = true → m = n) ∧
    (∀ r : Row,
      (∀ n < t.size, (t.row (.row n)).configs.same r.configs = true →
        t.install r = (.row n, none, t)) ∧
      (t.Lacks r → t.size < ceiling → t.install r = (.row t.size, none, t.push r)) ∧
      (t.Lacks r → ceiling ≤ t.size → ∃ event reported,
        t.install r = (.loose r, event, { t with ceilingReported := reported }))) ∧
    ((∀ n, .row n ∈ h.places ↔ n < t.size) ∧ t.size ≤ ceiling) ∧
    ((∀ r, t.setStart (.loose r) = (.loose r, t)) ∧
      (∀ p v r, t.link p v (.loose r) = (p, t)) ∧
      (∀ n, t.startRow = some n → n < t.size) ∧
      ∀ p ∈ h.places, ∀ v n, t.cell? p v = some (.row n) → n < t.size) ∧
    (∀ (i : Nat) (p : Place), h.places[i]? = some p → ∃ p', h'.places[i]? = some p' ∧ p.Continues p' ∧
      (h'.table.row p').bare = (t.row p).bare ∧
      ∀ v c, t.cell? p v = some c → h'.table.cell? p' v = some c) ∧
    (∀ p v, v < lo ∨ hi < v → t.cell? p v = none) ∧
    ∀ n, t.startRow = some n → h'.table.startRow = some n := by
  intro h t h'
  obtain ⟨hs, hcont⟩ := (sound_empty decision start lo hi ceiling).performAll cs
  obtain ⟨-, hlater⟩ := hs.performAll later
  have hceiling : t.maxRows = ceiling := hcont.table.maxRows_eq
  refine ⟨hs.canonical.eq_of_same, fun r => ⟨fun n hn => hs.canonical.install_known hn,
    fun hnew hroom => Table.install_new hnew (hceiling.symm ▸ hroom),
    fun hnew hfull => Table.install_full hnew (hceiling.symm ▸ hfull)⟩,
    ⟨fun n => ⟨hs.hosts _, hs.held n⟩, hceiling ▸ hs.canonical.size_le⟩,
    ⟨fun r => rfl, fun p v r => rfl, hs.canonical.startRow_lt, fun p hp v n hcell => ?_⟩,
    fun i p hp => ?_, fun p v hv => Table.cell?_out_of_range ?_ p, hlater.table.startRow⟩
  · obtain ⟨slot, -, hslot⟩ := Option.bind_eq_some_iff.mp hcell
    exact (hs.canonical.tidy_row (hs.hosts p hp)).cell?_lt hslot
  · obtain ⟨p', hp', hplace⟩ := hlater.place i p hp
    have hhosts := hs.hosts p (List.mem_of_getElem? hp)
    refine ⟨p', hp', hplace, ?_, fun v c => hlater.table.cell? hhosts hplace⟩
    cases hplace with
    | row n => exact (hlater.table.row n hhosts).bare_eq
    | loose hr => exact hr.bare_eq
  · rw [hcont.table.first_eq, hcont.table.last_eq]
    exact hv

end Holding

end AdaptiveLL
