import AdaptiveLL.Proofs.Cache.Evolution
import AdaptiveLL.Proofs.Ensures
import AdaptiveLL.Proofs.Prediction.Sessions

/-!
# Kept caches

Little is needed of a cache for predictions to end on it. It is *kept* if its graph of stacks is
sound and holds the configurations of all rows, if a row answers exactly where something was found
out about its set, and if every row that the end of the input leads to answers. Rows are shared by
sets that agree on what was found out, so no row that answers is ever taken for one that does not.

A part of a prediction that begins on a kept cache ends on a kept cache. The rules for this follow the
way in which such parts are put together, and they speak of two parts at once: `EndAlike` says that
these come to the same, so it also tells what may be changed about a prediction without changing
what it does.
-/

namespace AdaptiveLL

open StackGraph (Grows Grown Sound)

/-! ## Rows -/

/-- The graph holds the configurations of the set of a row. -/
structure ConfigSet.Kept (s : ConfigSet) (g : StackGraph) : Prop where
  tidy : s.Tidy g
  full_eq : s.fullContext = false

namespace Row

/-- A kept row: it answers exactly if something was found out about its set. -/
structure Kept (r : Row) (g : StackGraph) : Prop where
  configs : r.configs.Kept g
  answers : r.accepting = false ↔ r.configs.Fresh

variable {r r' : Row} {g g' : StackGraph}

theorem Kept.grown (hr : r.Kept g) (hg : g.Sound) (h : g.Grown g') : r.Kept g' :=
  ⟨⟨hr.configs.tidy.grown hg h, hr.configs.full_eq⟩, hr.answers⟩

theorem accepting_eq_of_bare (h : r.bare = r'.bare) : r.accepting = r'.accepting :=
  (congrArg Row.accepting h : r.bare.accepting = r'.bare.accepting)

/-- Cells do not matter to a row. -/
theorem Kept.of_bare (hr : r.Kept g) (h : r'.bare = r.bare) : r'.Kept g := by
  refine ⟨configs_eq_of_bare h ▸ hr.configs, ?_⟩
  rw [accepting_eq_of_bare h, configs_eq_of_bare h]
  exact hr.answers

theorem kept_default (g : StackGraph) : (default : Row).Kept g where
  configs := ⟨⟨rfl, List.nodup_nil, nofun, ⟨nofun, fun ⟨_, hc, _⟩ => nomatch hc⟩, Nat.zero_le _⟩,
    rfl⟩
  answers := ⟨fun _ => ⟨rfl, rfl⟩, fun _ => rfl⟩

/-- Rows of the same set agree on whether they answer. -/
theorem Kept.accepting_eq (hr : r.Kept g) (hr' : r'.Kept g)
    (h : r.configs.same r'.configs = true) : r.accepting = r'.accepting := by
  have hfresh : r.configs.Fresh ↔ r'.configs.Fresh := by
    simp only [ConfigSet.same, Bool.and_eq_true, beq_iff_eq] at h
    unfold ConfigSet.Fresh
    rw [h.1.1.1.1.2, h.1.1.1.2]
  rw [Bool.eq_iff_iff, ← not_iff_not, Bool.not_eq_true, Bool.not_eq_true, hr.answers, hfresh,
    hr'.answers]

/-- The row of a set in which a decision begins is kept. -/
theorem kept_open {T : Set Thread} {s : ConfigSet} (hs : Question.Stage false T s g) :
    ({ configs := s } : Row).Kept g :=
  ⟨⟨hs.tidy, hs.full_eq⟩,
    fun _ => ⟨hs.continues.uniqueAlt_eq, hs.continues.conflicting_eq⟩, fun _ => rfl⟩

/-- **The row of a set that was classified is kept.** It answers if the prediction stops at the set
or the set speaks for one alternative. -/
theorem kept_classify {T : Set Thread} {s : ConfigSet} (hs : Question.Stage false T s g)
    (ends : Bool) (count : Nat) :
    (classify s ends count).Kept g ∧ (classify s ends count).cells = [] ∧
      (ends = true ∨ s.commonAlt ≠ noAlternative → (classify s ends count).accepting = true) := by
  have hmarks : ∀ u c, ({ s with uniqueAlt := u, conflicting := c } : ConfigSet).Kept g :=
    fun u c => ⟨⟨hs.tidy.unordered, hs.tidy.distinct, hs.tidy.held, hs.tidy.guards_iff,
      hs.tidy.room⟩, hs.full_eq⟩
  rw [classify_eq ⟨hs.continues.uniqueAlt_eq, hs.continues.conflicting_eq⟩]
  refine ⟨⟨?_, ?_⟩, ?_, fun hstops => ?_⟩
  · rw [telling_configs]
    unfold found
    split
    · exact hmarks _ _
    · split
      · exact hmarks _ _
      · exact hmarks _ _
  · rw [telling_accepting, telling_configs]
  · rw [← telling_cells]
  · rw [← Bool.not_eq_false, telling_accepting]
    unfold found ConfigSet.Fresh
    by_cases hcommon : s.commonAlt = noAlternative
    · simp [hcommon, hstops.resolve_right (not_not_intro hcommon)]
    · simp [hcommon]

end Row

/-- A place is kept: it is in the table, or its row is and has no cells. -/
def Place.Kept (p : Place) (g : StackGraph) : Prop :=
  match p with
  | .row _ => True
  | .loose r => r.Kept g ∧ r.cells = []

/-! ## Tables -/

namespace Table

/-- **A kept table.** All its rows are kept, and those that the end of the input leads to answer. -/
structure Kept (t : Table) (g : StackGraph) : Prop where
  rows : ∀ (n : Nat) (row : Row), t.rows[n]? = some row → row.Kept g
  ends : ∀ n m, t.cell? (.row n) Symbol.eof = some (.row m) →
    (t.row (.row m)).accepting = true

variable {t t' : Table} {g g' : StackGraph} {p : Place}

theorem Kept.grown (ht : t.Kept g) (hg : g.Sound) (h : g.Grown g') : t.Kept g' :=
  ⟨fun n row hrow => (ht.rows n row hrow).grown hg h, ht.ends⟩

theorem Kept.row (ht : t.Kept g) (hp : p.Kept g) : (t.row p).Kept g := by
  cases p with
  | loose r => exact hp.1
  | row n =>
    change (t.rows[n]?.getD default).Kept g
    cases hrow : t.rows[n]? with
    | none => exact Row.kept_default g
    | some r => exact ht.rows n r hrow

/-- What lies outside the table has no cells. -/
theorem cell?_eq_none {n : Nat} (hn : t.size ≤ n) (v : Symbol) : t.cell? (.row n) v = none := by
  have hrow : t.row (.row n) = default := by
    change t.rows[n]?.getD default = default
    rw [Array.getElem?_eq_none hn]
    rfl
  unfold cell?
  rw [hrow]
  cases t.slot? v <;> rfl

theorem lt_size_of_cell? {n : Nat} {v : Symbol} {c : Cell} (h : t.cell? (.row n) v = some c) :
    n < t.size := by
  by_contra hn
  rw [cell?_eq_none (Nat.le_of_not_lt hn)] at h
  cases h

/-- A row that answers is in the table. -/
theorem lt_size_of_accepting {n : Nat} (h : (t.row (.row n)).accepting = true) : n < t.size := by
  by_contra hn
  change (t.rows[n]?.getD default).accepting = true at h
  rw [Array.getElem?_eq_none (Nat.le_of_not_lt hn)] at h
  cases h

/-- **A kept place leads to a row that answers** at the end of the input. -/
theorem Kept.accepting_of_cell (ht : t.Kept g) (hp : p.Kept g) {m : Nat}
    (h : t.cell? p Symbol.eof = some (.row m)) : (t.row (.row m)).accepting = true := by
  cases p with
  | row n => exact ht.ends n m h
  | loose r =>
    obtain ⟨slot, -, hcell⟩ := Option.bind_eq_some_iff.mp h
    change r.cells.lookup slot = _ at hcell
    rw [hp.2] at hcell
    cases hcell

/-- Rows that keep all but their cells stay kept. -/
private theorem Kept.evolved (ht : t.Kept g) (h : t.Evolves t') (hsize : t'.size = t.size) (n : Nat)
    (row : Row) (hrow : t'.rows[n]? = some row) : row.Kept g := by
  have hn : n < t.size := hsize ▸ (Array.getElem?_eq_some_iff.mp hrow).1
  have hold := ht.row (p := .row n) trivial
  have hnew : t'.row (.row n) = row := by simp [Table.row, hrow]
  exact hnew ▸ hold.of_bare (h.bare_eq n hn)

/-- **Installing a row keeps the table,** and the row that is found there answers exactly if the
installed one does. -/
theorem Kept.install (ht : t.Kept g) {row : Row} (hrow : row.Kept g) (hcells : row.cells = []) :
    (t.install row).1.Kept g ∧ (t.install row).2.2.Kept g ∧
      (t.install row).2.2.start = t.start ∧
      ((t.install row).2.2.row (t.install row).1).accepting = row.accepting := by
  -- The row is found, refused for want of room and kept loose, or pushed.
  rcases t.install_cases row with ⟨n, hn, heq, hsame⟩ | ⟨event, reported, heq⟩ | heq
  · rw [heq]
    exact ⟨trivial, ht, rfl, (ht.row (p := .row n) trivial).accepting_eq hrow hsame⟩
  · rw [heq]
    exact ⟨⟨hrow, hcells⟩, ⟨ht.rows, ht.ends⟩, rfl, rfl⟩
  · rw [heq]
    refine ⟨trivial, ⟨fun n r hr => ?_, fun n m hcell => ?_⟩, rfl,
      congrArg Row.accepting (row_push_new t row)⟩
    · simp only [push, Array.getElem?_push] at hr
      split at hr
      · exact Option.some.inj hr ▸ hrow
      · exact ht.rows n r hr
    · have hn : n < t.size + 1 := by
        rw [← size_push t row]
        exact lt_size_of_cell? hcell
      rcases Nat.eq_or_lt_of_le (Nat.le_of_lt_succ hn) with rfl | hn
      · -- The new row has no cells yet.
        obtain ⟨slot, -, hcell⟩ := Option.bind_eq_some_iff.mp hcell
        rw [row_push_new] at hcell
        change row.cells.lookup slot = _ at hcell
        rw [hcells] at hcell
        cases hcell
      · rw [cell?_push_old hn] at hcell
        have haccepting := ht.ends n m hcell
        rw [row_push_old (lt_size_of_accepting haccepting)]
        exact haccepting

/-- **Writing a cell keeps the table,** if at the end of the input it leads to a row that answers. -/
theorem Kept.write (ht : t.Kept g) (p : Place) (v : Symbol) (c : Cell)
    (hc : v = Symbol.eof → ∀ m, c = .row m → (t.row (.row m)).accepting = true) :
    (t.write p v c).2.Kept g ∧ (t.write p v c).2.start = t.start := by
  obtain ⟨hevolves, -, hsize, hcells⟩ := t.write_spec p v c
  have hanswers : ∀ m, (t.row (.row m)).accepting = true →
      ((t.write p v c).2.row (.row m)).accepting = true := fun m hm =>
    (Row.accepting_eq_of_bare (hevolves.bare_eq m (lt_size_of_accepting hm))).trans hm
  refine ⟨⟨ht.evolved hevolves hsize, fun n m hcell => hanswers m ?_⟩, hevolves.start_eq⟩
  have hn : n < t.size := hsize ▸ lt_size_of_cell? hcell
  -- The cell is an old one, or it is the one that was written.
  rcases hcells n hn _ _ hcell with hold | ⟨-, hv, hnew⟩
  · exact ht.ends n m hold
  · exact hc hv.symm m hnew.symm

theorem Kept.link (ht : t.Kept g) (p : Place) (v : Symbol) (target : Place)
    (htarget : v = Symbol.eof → (t.row target).accepting = true) :
    (t.link p v target).2.Kept g ∧ (t.link p v target).2.start = t.start := by
  cases target with
  | row n => exact ht.write p v _ fun hv m hm => Cell.row.inj hm ▸ htarget hv
  | loose r => exact ⟨ht, rfl⟩

/-- Linking rows changes no answer. -/
theorem accepting_link (t : Table) (p : Place) (v : Symbol) (target place : Place)
    (h : (t.row place).accepting = true) :
    ((t.link p v target).2.row place).accepting = true := by
  cases target with
  | loose r => exact h
  | row n =>
    obtain ⟨hevolves, -⟩ := t.write_spec p v (.row n)
    cases place with
    | loose r => exact h
    | row m =>
      exact (Row.accepting_eq_of_bare (hevolves.bare_eq m (lt_size_of_accepting h))).trans h

theorem Kept.setStart (ht : t.Kept g) (hp : p.Kept g) :
    (t.setStart p).1.Kept g ∧ (t.setStart p).2.Kept g ∧ (t.setStart p).2.start = t.start := by
  unfold Table.setStart
  cases p with
  | loose r => exact ⟨hp, ht, rfl⟩
  | row n =>
    dsimp only
    split
    · exact ⟨trivial, ht, rfl⟩
    · exact ⟨trivial, ⟨ht.rows, ht.ends⟩, rfl⟩

/-- A table without rows is kept. -/
theorem kept_of_no_rows (h : t.rows = #[]) (g : StackGraph) : t.Kept g where
  rows n row hrow := by
    rw [h] at hrow
    cases hrow
  ends n m hcell := by
    have hn := lt_size_of_cell? hcell
    unfold size at hn
    rw [h] at hn
    cases hn

end Table

/-! ## Caches -/

namespace Cache

/-- **A kept cache** of a network, with room for some stacks. -/
structure Kept (net : Network) (nodes : Nat) (c : Cache) : Prop where
  net_eq : c.net = net
  sound : c.graph.Sound
  room_eq : max c.maxNodes 1 = nodes
  nodes_eq : c.graph.maxNodes = nodes
  size_eq : c.tables.size = net.decisions.size
  start_eq : ∀ d entry, net.decisions[d]? = some entry → (c.table d).start = entry
  tables : ∀ d, (c.table d).Kept c.graph

variable {net : Network} {nodes : Nat} {c : Cache}

theorem Kept.setGraph (hc : c.Kept net nodes) {g : StackGraph} (hg : c.graph.Grown g) :
    ({ c with graph := g } : Cache).Kept net nodes :=
  ⟨hc.net_eq, hg.sound, hc.room_eq, hg.maxNodes_eq.trans hc.nodes_eq, hc.size_eq, hc.start_eq,
    fun d => (hc.tables d).grown hc.sound hg⟩

theorem Kept.setTable (hc : c.Kept net nodes) {d : Nat} {t : Table} (hd : d < c.tables.size)
    (ht : t.Kept c.graph) (hstart : t.start = (c.table d).start) :
    (c.setTable d t).Kept net nodes := by
  have htable := fun i => table_setTable (i := i) (t := t) hd
  refine ⟨hc.net_eq, hc.sound, hc.room_eq, hc.nodes_eq, ?_, fun i entry hi => ?_, fun i => ?_⟩
  · rw [← hc.size_eq]
    exact Array.size_setIfInBounds ..
  · rw [htable]
    split
    · next heq => exact hstart.trans (heq ▸ hc.start_eq i entry hi)
    · exact hc.start_eq i entry hi
  · rw [htable]
    split
    · exact ht
    · exact hc.tables i

/-- **A new cache is kept.** -/
theorem new_kept (hparser : net.isLexer = false) (maxNodes maxDepth : Nat) :
    (Cache.new net maxNodes maxDepth).Kept net (max maxNodes 1) := by
  have hfaithful : (Cache.new net maxNodes maxDepth).Faithful
      ⟨net, .ll, fun _ => ∅, max maxNodes 1⟩ :=
    new_faithful (R := ⟨net, .ll, fun _ => ∅, max maxNodes 1⟩) hparser rfl
  refine ⟨rfl, hfaithful.sound, rfl, hfaithful.nodes_eq, hfaithful.size_eq,
    fun d entry hd => (hfaithful.tables d entry hd).start_eq,
    fun d => Table.kept_of_no_rows ?_ _⟩
  unfold table new freshTables
  simp only [hparser, Bool.false_eq_true, if_false, Array.getElem?_mapIdx]
  cases net.decisions[d]? <;> rfl

theorem Kept.restart (hparser : net.isLexer = false) (hc : c.Kept net nodes) :
    c.restart.Kept net nodes := by
  have hnew := new_kept hparser c.maxNodes c.maxDepth
  obtain rfl := hc.net_eq
  rw [hc.room_eq] at hnew
  exact ⟨rfl, hnew.sound, hnew.room_eq, hnew.nodes_eq, hnew.size_eq, hnew.start_eq, hnew.tables⟩

end Cache

/-! ## Parts of predictions -/

/-- **What a prediction may fail with** that looks at no more than `n` symbols: the ceiling of the
lookahead only if it is less than that. -/
def PredictionSettings.Permits (settings : PredictionSettings) (n : Nat) (e : PredictionError) :
    Prop :=
  ∀ x, e = .exceeded x → x.resource = .lookahead → settings.maxLookahead < n

/-- The ceilings of closures have nothing to do with the lookahead. -/
theorem PredictionSettings.permits_ordinary (settings : PredictionSettings) (n : Nat) {depth : Nat}
    {e : Exceeded} (h : Exceeded.Ordinary depth e) : settings.Permits n (.exceeded e) := by
  intro x hx hresource
  obtain rfl := PredictionError.exceeded.inj hx
  rcases h with hnodes | ⟨-, rfl⟩ | ⟨-, rfl⟩
  · rw [hnodes] at hresource
    cases hresource
  · cases hresource
  · cases hresource

namespace Prediction

/-- **Two parts of a prediction end alike** from the cache `c`: they come to the same, and keep the
cache. What they give satisfies `Q`, and what they fail with `E`. -/
def EndAlike {α : Type} (net : Network) (nodes : Nat) (E : PredictionError → Prop)
    (m m' : Prediction α) (c : Cache) (Q : α → Cache → Prop) : Prop :=
  ∀ s : Session, s.cache = c → m.Alike m' s fun r s' =>
    s'.cache.Kept net nodes ∧ c.graph.Grown s'.cache.graph ∧ (∀ a, r = .ok a → Q a s'.cache) ∧
      ∀ e, r = .error e → E e

/-- **A part of a prediction ends** and keeps the cache. -/
abbrev Ends {α : Type} (net : Network) (nodes : Nat) (E : PredictionError → Prop)
    (m : Prediction α) (c : Cache) (Q : α → Cache → Prop) : Prop :=
  EndAlike net nodes E m m c Q

namespace EndAlike

variable {α β : Type} {net : Network} {nodes : Nat} {E : PredictionError → Prop}
  {m m' : Prediction α} {f f' : α → Prediction β} {c : Cache} {Q Q' : α → Cache → Prop}
  {P : β → Cache → Prop}

theorem mono (h : EndAlike net nodes E m m' c Q)
    (himp : ∀ a c', c'.Kept net nodes → c.graph.Grown c'.graph → Q a c' → Q' a c') :
    EndAlike net nodes E m m' c Q' := fun s hs =>
  (h s hs).mono fun _ _ ⟨hkept, hgrown, hQ, hE⟩ =>
    ⟨hkept, hgrown, fun a ha => himp a _ hkept hgrown (hQ a ha), hE⟩

theorem pure {a : α} (hc : c.Kept net nodes) (h : Q a c) : Ends net nodes E (pure a) c Q := by
  rintro s rfl
  exact .refl (.pure ⟨hc, .refl hc.sound, fun b hb => Except.ok.inj hb ▸ h, nofun⟩)

theorem throw {e : PredictionError} (hc : c.Kept net nodes) (h : E e) :
    Ends net nodes E (throw e : Prediction α) c Q := by
  rintro s rfl
  exact .refl (.throw ⟨hc, .refl hc.sound, nofun, fun e' he' => Except.error.inj he' ▸ h⟩)

theorem bind (h : EndAlike net nodes E m m' c Q)
    (hf : ∀ a c', c'.Kept net nodes → c.graph.Grown c'.graph → Q a c' →
      EndAlike net nodes E (f a) (f' a) c' P) :
    EndAlike net nodes E (m >>= f) (m' >>= f') c P := by
  intro s hs
  refine (h s hs).bind ?_ fun e s' ⟨hkept, hgrown, _, hE⟩ =>
    ⟨hkept, hgrown, nofun, fun e' he' => hE e' (congrArg _ (Except.error.inj he'))⟩
  rintro a s' ⟨hkept, hgrown, hQ, -⟩
  exact (hf a _ hkept hgrown (hQ a rfl) s' rfl).mono fun _ _ ⟨hkept', hgrown', hP, hE⟩ =>
    ⟨hkept', hgrown.trans hgrown', hP, hE⟩

/-- A part that cannot fail and leaves the cache as it is. -/
theorem does (hc : c.Kept net nodes) {R : α → Prop}
    (h : m.Does c fun r _ _ c' => (∃ a, r = .ok a ∧ R a) ∧ c' = c) :
    Ends net nodes E m c fun a c' => R a ∧ c' = c := by
  refine fun s hs => .refl ((h s hs).mono ?_)
  rintro r s' ⟨_, _, -, -, ⟨a, rfl, ha⟩, hsame⟩
  rw [hsame]
  exact ⟨hc, .refl hc.sound, fun b hb => ⟨Except.ok.inj hb ▸ ha, rfl⟩, nofun⟩

/-- A first part that cannot fail and leaves the cache as it is. -/
theorem still (hc : c.Kept net nodes) (h : m.Does c fun r _ _ c' => (∃ a, r = .ok a) ∧ c' = c)
    (hf : ∀ a, EndAlike net nodes E (f a) (f' a) c P) :
    EndAlike net nodes E (m >>= f) (m >>= f') c P := by
  have hm : Ends net nodes E m c fun _ c' => True ∧ c' = c :=
    does hc (h.mono fun _ _ _ _ ⟨⟨a, ha⟩, hsame⟩ => ⟨⟨a, ha, trivial⟩, hsame⟩)
  exact hm.bind fun a c' _ _ ⟨_, hsame⟩ => hsame ▸ hf a

/-- A first part of which it is known what it gives. -/
theorem seq (hc : c.Kept net nodes) {a : α} (h : m.Does c fun r reports asked c' =>
      r = .ok a ∧ reports = [] ∧ asked = [] ∧ c' = c)
    (hf : EndAlike net nodes E (f a) (f' a) c P) :
    EndAlike net nodes E (m >>= f) (m >>= f') c P := by
  have hm : Ends net nodes E m c fun b c' => b = a ∧ c' = c :=
    does hc (h.mono fun _ _ _ _ ⟨hr, _, _, hsame⟩ => ⟨⟨a, hr, rfl⟩, hsame⟩)
  refine hm.bind fun b c' _ _ ⟨hb, hsame⟩ => ?_
  rw [hb, hsame]
  exact hf

theorem map {g : α → β} (h : EndAlike net nodes E m m' c fun a => P (g a)) :
    EndAlike net nodes E (g <$> m) (g <$> m') c P := by
  refine fun s hs => .map ((h s hs).mono ?_)
  rintro (e | a) s' ⟨hkept, hgrown, hQ, hE⟩
  · exact ⟨hkept, hgrown, nofun, fun e' he' => hE e' (congrArg _ (Except.error.inj he'))⟩
  · exact ⟨hkept, hgrown, fun b hb => Except.ok.inj hb ▸ hQ a rfl, nofun⟩

theorem get_bind {f f' : Session → Prediction β}
    (h : ∀ s, s.cache = c → EndAlike net nodes E (f s) (f' s) c P) :
    EndAlike net nodes E (get >>= f) (get >>= f') c P := fun s hs => .get_bind (h s hs s hs)

theorem probe (hc : c.Kept net nodes) {q : Question} {p : Probe α} {Q : α → StackGraph → Prop}
    {F : Nat → Exceeded → Prop} (h : ∀ past, Probe.Ends false p { graph := c.graph, past } Q F)
    (hE : ∀ e, F c.graph.maxDepth e → E (.exceeded e)) :
    Ends net nodes E (Prediction.probe q p) c fun a c' => Q a c'.graph := by
  refine fun s hs => .refl ?_
  have hdoes : (Prediction.probe q p).Does c fun r _ _ c' => c'.Kept net nodes ∧
      c.graph.Grown c'.graph ∧ (∀ a, r = .ok a → Q a c'.graph) ∧ ∀ e, r = .error e → E e := by
    refine .probe fun past => Run.Yields.mono (h past) ?_
    rintro r t ⟨hext, hQ, hF⟩
    refine ⟨hc.setGraph hext.grown, hext.grown, fun a ha => ?_, fun e he => ?_⟩
    · cases r with
      | error e => cases ha
      | ok b => exact Except.ok.inj ha ▸ hQ b rfl
    · cases r with
      | error e' => exact Except.error.inj he ▸ hE e' (hF e' rfl)
      | ok b => cases he
  exact (hdoes s hs).mono fun _ _ ⟨_, _, _, _, h⟩ => h

/-- **The rule of the loop.** If every round that is followed by another one lowers a measure, loops
end alike as soon as both may make more rounds than the measure says. -/
theorem loop {step step' : α → Prediction (α ⊕ β)} (I : α → Cache → Prop) (μ : α → Nat)
    (hstep : ∀ a c', c'.Kept net nodes → I a c' →
      EndAlike net nodes E (step a) (step' a) c' fun next c'' =>
        ∀ a', next = .inl a' → I a' c'' ∧ μ a' < μ a)
    {rounds rounds' : Nat} {a : α} (hc : c.Kept net nodes) (hI : I a c) (h : μ a < rounds)
    (h' : μ a < rounds') :
    EndAlike net nodes E (Run.loop step rounds a) (Run.loop step' rounds' a) c fun _ _ => True := by
  rintro s rfl
  -- The graph grows over all rounds, so the invariant looks back to the beginning.
  refine Run.Alike.loop (fun a s' => s'.cache.Kept net nodes ∧
    s.cache.graph.Grown s'.cache.graph ∧ I a s'.cache) μ ?_ ⟨hc, .refl hc.sound, hI⟩ h h'
  rintro a s₁ ⟨hc₁, hgrown₁, hI₁⟩
  refine (hstep a s₁.cache hc₁ hI₁ s₁ rfl).mono ?_
  rintro (e | (a' | b)) s₂ ⟨hc₂, hgrown₂, hnext, hE⟩
  · exact ⟨hc₂, hgrown₁.trans hgrown₂, nofun,
      fun e' he' => hE e' (congrArg _ (Except.error.inj he'))⟩
  · obtain ⟨hI₂, hlt⟩ := hnext _ rfl a' rfl
    exact ⟨⟨hc₂, hgrown₁.trans hgrown₂, hI₂⟩, hlt⟩
  · exact ⟨hc₂, hgrown₁.trans hgrown₂, fun _ _ => trivial, nofun⟩

end EndAlike

end Prediction

end AdaptiveLL
