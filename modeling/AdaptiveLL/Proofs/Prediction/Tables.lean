import AdaptiveLL.Proofs.Cache.Honest
import AdaptiveLL.Proofs.Prediction.Rows
import AdaptiveLL.Proofs.Prediction.Twins

/-!
# Tables that tell the truth

The table of a decision is *sane* if it is honest about threads: each of its rows holds the threads
of its set, a cell leads to the row of the threads after its symbol, or notes that there are none,
and the first row holds the threads with which the decision begins. Whatever a prediction writes
keeps a table sane.
-/

namespace AdaptiveLL

open StackGraph (Grows Grown Sound)

/-- The threads that predictions meet, if they begin with some. -/
inductive Network.Met (net : Network) (T₀ : Set Thread) : Set Thread → Prop where
  | start : Met net T₀ T₀
  | reach {T : Set Thread} (v : Symbol) : Met net T₀ T → Met net T₀ (net.reachOf false v T)

theorem Network.Met.guardless {net : Network} {T₀ T : Set Thread} (h : net.Met T₀ T)
    (h₀ : Guardless T₀) : Guardless T := by
  induction h with
  | start => exact h₀
  | reach v _ ih => exact ih.reachOf false v

/-- Without guards the mode makes no difference to what is found out. -/
theorem Found.inMode {net : Network} {mode mode' : PredictionMode} {T : Set Thread} {s : ConfigSet}
    (hT : Guardless T) (h : Found net mode T s) : Found net mode' T s := by
  have hweighed : ∀ m : PredictionMode, weighedOf m T = T := by
    intro m
    refine if_neg ?_
    rintro ⟨_, t, ht, hguard⟩
    rw [hT t ht] at hguard
    cases hguard
  have hcloses : Closes net mode T ↔ Closes net mode' T := by
    unfold Closes
    rw [hweighed, hweighed]
  exact ⟨h.unique, h.several, fun hone hc => h.conflict hone (hcloses.mpr hc),
    fun hone hc => h.opens hone fun hc' => hc (hcloses.mp hc')⟩

/-- What a row holds is not in its cells. -/
theorem Row.Holds.of_bare {count : Nat} {T : Set Thread} {r r' : Row} {g : StackGraph}
    (h : r.bare = r'.bare) (hr : r.Holds count T g) : r'.Holds count T g := by
  have hr' := hr.cells []
  change r.bare.Holds count T g at hr'
  rw [h] at hr'
  exact hr'.cells r'.cells

namespace Table

/-! ## Sane tables -/

/-- **What the rows of a decision stand for,** which begins with the threads `T₀`: a symbol leads to
the threads after it, about which there was found out what there is to find, or to nowhere if there
are no such threads. Where the table leads nothing grows too large. -/
def threadMeaning (net : Network) (mode : PredictionMode) (entry : StateId) (T₀ : Set Thread)
    (g : StackGraph) : Meaning where
  row r := net.Met T₀ (r.configs.threads g) ∧
    r.Holds (net.state entry).transitions.length (r.configs.threads g) g
  leads r v r' := net.Withstands g.maxDepth false v (r.configs.threads g) ∧
    r'.elim (net.reachOf false v (r.configs.threads g) = ∅) fun r' =>
      r'.configs.threads g = net.reachOf false v (r.configs.threads g) ∧
        (net.reachOf false v (r.configs.threads g)).Nonempty ∧
        Found net mode (net.reachOf false v (r.configs.threads g)) r'.configs
  first r := (net.questionAt entry).Opened false [] g.maxDepth ∧ r.configs.threads g = T₀ ∧
    r.configs.Fresh

/-- **A sane table** of the decision at `entry`, which begins with the threads `T₀`. -/
abbrev Sane (net : Network) (mode : PredictionMode) (entry : StateId) (T₀ : Set Thread)
    (t : Table) (g : StackGraph) : Prop :=
  t.Honest (threadMeaning net mode entry T₀ g) entry

variable {net : Network} {mode : PredictionMode} {entry : StateId} {T₀ T : Set Thread} {t : Table}
  {g g' : StackGraph}

/-- The graph of stacks may grow. -/
theorem Sane.grown (hg : g.Sound) (h : g.Grown g') (ht : t.Sane net mode entry T₀ g) :
    t.Sane net mode entry T₀ g' := by
  have hthreads : ∀ r, (threadMeaning net mode entry T₀ g).row r →
      r.configs.threads g' = r.configs.threads g := fun r hr => hr.2.tidy.threads_eq hg h
  refine Honest.mono ht (fun r hr => ?_) (fun r v r' hr hr' hleads => ?_) fun r hr hfirst => ?_
  · change net.Met T₀ (r.configs.threads g') ∧ r.Holds _ (r.configs.threads g') g'
    rw [hthreads r hr]
    exact ⟨hr.1, hr.2.grown hg h⟩
  · change net.Withstands g'.maxDepth false v (r.configs.threads g') ∧ _
    rw [hthreads r hr, h.maxDepth_eq]
    refine ⟨hleads.1, ?_⟩
    cases r' with
    | none => exact hleads.2
    | some x =>
      change x.configs.threads g' = _ ∧ _ ∧ _
      rw [hthreads x (hr' x rfl)]
      exact hleads.2
  · exact ⟨h.maxDepth_eq ▸ hfirst.1, (hthreads r hr).trans hfirst.2.1, hfirst.2.2⟩

/-- Without guards a table is as good in any mode. -/
theorem Sane.inMode {mode' : PredictionMode} (h₀ : Guardless T₀)
    (ht : t.Sane net mode entry T₀ g) : t.Sane net mode' entry T₀ g := by
  refine Honest.mono ht (fun _ hr => hr) (fun r v r' hr _ hleads => ?_) fun _ _ hfirst => hfirst
  cases r' with
  | none => exact hleads
  | some x =>
    obtain ⟨hwithstands, hthreads, hne, hfound⟩ := hleads
    exact ⟨hwithstands, hthreads, hne, hfound.inMode ((hr.1.reach v).guardless h₀)⟩

/-- The row at a place holds the threads `T`. -/
structure Shows (t : Table) (count : Nat) (g : StackGraph) (p : Place) (T : Set Thread) :
    Prop where
  has : t.Has p
  holds : (t.row p).Holds count T g

theorem Shows.evolves {t' : Table} {count : Nat} {p : Place} (h : t.Evolves t')
    (hp : t.Shows count g p T) : t'.Shows count g p T :=
  ⟨h.has hp.has, hp.holds.of_bare (h.bare_row hp.has).symm⟩

theorem Shows.grown {count : Nat} {p : Place} (hg : g.Sound) (h : g.Grown g')
    (hp : t.Shows count g p T) : t.Shows count g' p T :=
  ⟨hp.has, hp.holds.grown hg h⟩

/-- A row of a sane table holds the threads of its set. -/
theorem Sane.shows (ht : t.Sane net mode entry T₀ g) {n : Nat} (hn : n < t.size)
    (hT : (t.row (.row n)).configs.threads g = T) :
    t.Shows (net.state entry).transitions.length g (.row n) T := by
  subst hT
  exact ⟨hn, (ht.rows n hn).2.cells (t.row (.row n)).cells⟩

/-- A cell that leads to a row leads to the threads after the symbol. -/
theorem Sane.of_cell (ht : t.Sane net mode entry T₀ g) {count : Nat} {p : Place}
    (hp : t.Shows count g p T) {v : Symbol} {n : Nat} (hcell : t.cell? p v = some (.row n)) :
    net.Withstands g.maxDepth false v T ∧
      t.Shows (net.state entry).transitions.length g (.row n) (net.reachOf false v T) ∧
      (net.reachOf false v T).Nonempty ∧
      Found net mode (net.reachOf false v T) (t.row (.row n)).configs := by
  obtain ⟨hn, hwithstands, hthreads, hne, hfound⟩ := Honest.of_cell ht hp.has hcell
  change net.Withstands g.maxDepth false v ((t.row p).configs.threads g) at hwithstands
  change (t.row (.row n)).configs.threads g = net.reachOf false v ((t.row p).configs.threads g)
    at hthreads
  change (net.reachOf false v ((t.row p).configs.threads g)).Nonempty at hne
  change Found net mode (net.reachOf false v ((t.row p).configs.threads g))
    (t.row (.row n)).configs at hfound
  rw [hp.holds.threads_eq] at hwithstands hthreads hne hfound
  exact ⟨hwithstands, ht.shows hn hthreads, hne, hfound⟩

theorem Sane.of_dead (ht : t.Sane net mode entry T₀ g) {count : Nat} {p : Place}
    (hp : t.Shows count g p T) {v : Symbol} (hcell : t.cell? p v = some .dead) :
    net.Withstands g.maxDepth false v T ∧ net.reachOf false v T = ∅ := by
  have hleads := Honest.of_cell ht hp.has hcell
  change net.Withstands g.maxDepth false v ((t.row p).configs.threads g) ∧
    net.reachOf false v ((t.row p).configs.threads g) = ∅ at hleads
  rwa [hp.holds.threads_eq] at hleads

/-- The first row holds the threads with which the decision begins. -/
theorem Sane.of_startRow (ht : t.Sane net mode entry T₀ g) {n : Nat} (hn : t.startRow = some n) :
    (net.questionAt entry).Opened false [] g.maxDepth ∧
      t.Shows (net.state entry).transitions.length g (.row n) T₀ ∧
      (t.row (.row n)).configs.Fresh := by
  obtain ⟨hlt, hopened, hthreads, hfresh⟩ := ht.startRow n hn
  exact ⟨hopened, ht.shows hlt hthreads, hfresh⟩

/-- Linking to a place that shows the threads after the symbol. -/
theorem Sane.link (ht : t.Sane net mode entry T₀ g) {count : Nat} {p target : Place}
    (hp : t.Shows count g p T) {v : Symbol} (hwithstands : net.Withstands g.maxDepth false v T)
    (htarget : t.Shows count g target (net.reachOf false v T))
    (hne : (net.reachOf false v T).Nonempty)
    (hfound : Found net mode (net.reachOf false v T) (t.row target).configs) :
    (t.link p v target).2.Sane net mode entry T₀ g ∧ t.Evolves (t.link p v target).2 := by
  refine Honest.link ht htarget.has ?_
  change net.Withstands g.maxDepth false v ((t.row p).configs.threads g) ∧
    (t.row target).configs.threads g = net.reachOf false v ((t.row p).configs.threads g) ∧
    (net.reachOf false v ((t.row p).configs.threads g)).Nonempty ∧
    Found net mode (net.reachOf false v ((t.row p).configs.threads g)) (t.row target).configs
  rw [hp.holds.threads_eq]
  exact ⟨hwithstands, htarget.holds.threads_eq, hne, hfound⟩

/-- Noting that there are no threads after the symbol. -/
theorem Sane.linkDead (ht : t.Sane net mode entry T₀ g) {count : Nat} {p : Place}
    (hp : t.Shows count g p T) {v : Symbol} (hwithstands : net.Withstands g.maxDepth false v T)
    (hempty : net.reachOf false v T = ∅) :
    (t.linkDead p v).2.Sane net mode entry T₀ g ∧ t.Evolves (t.linkDead p v).2 := by
  refine Honest.write (c := .dead) ht ?_
  change net.Withstands g.maxDepth false v ((t.row p).configs.threads g) ∧
    net.reachOf false v ((t.row p).configs.threads g) = ∅
  rw [hp.holds.threads_eq]
  exact ⟨hwithstands, hempty⟩

/-! ## New rows -/

/-- Sets that are the same have the same threads, and the same was found out about them. -/
theorem same_spec {s s' : ConfigSet} (h : s.same s' = true) :
    s.threads g = s'.threads g ∧ s.uniqueAlt = s'.uniqueAlt ∧ s.conflicting = s'.conflicting := by
  unfold ConfigSet.same ConfigSet.sameConfigs at h
  simp only [Bool.and_eq_true, beq_iff_eq] at h
  obtain ⟨⟨⟨⟨⟨_, hunique⟩, hconflict⟩, _⟩, _⟩, hlist⟩ := h
  refine ⟨?_, hunique, hconflict⟩
  have hmem : ∀ {l l' : List Config}, l.map Config.identity = l'.map Config.identity →
      ∀ t : Thread, (∃ c ∈ l, t ∈ c.threads g) → ∃ c ∈ l', t ∈ c.threads g := by
    rintro l l' heq t ⟨c, hc, ht⟩
    obtain ⟨c', hc', hid⟩ := List.mem_map.mp (heq ▸ List.mem_map_of_mem hc)
    refine ⟨c', hc', ?_⟩
    obtain ⟨state, alt, stack, guard, _, routine, greedy⟩ := c
    obtain ⟨state', alt', stack', guard', _, routine', greedy'⟩ := c'
    simp only [Config.identity, Config.mk.injEq] at hid
    obtain ⟨rfl, rfl, rfl, rfl, _⟩ := hid
    exact ht
  exact Set.Subset.antisymm (fun t => hmem hlist t) fun t => hmem hlist.symm t

/-- **Installing a row keeps a table sane,** and there is a row of the same threads at the place
that comes back, about which the same was found out. -/
theorem Sane.install (ht : t.Sane net mode entry T₀ g) {r : Row}
    (hr : r.Holds (net.state entry).transitions.length T g) (hT : net.Met T₀ T)
    (hcells : r.cells = []) :
    (t.install r).2.2.Sane net mode entry T₀ g ∧ t.Evolves (t.install r).2.2 ∧
      (t.install r).2.2.Shows (net.state entry).transitions.length g (t.install r).1 T ∧
      ((t.install r).2.2.row (t.install r).1).configs.uniqueAlt = r.configs.uniqueAlt ∧
      ((t.install r).2.2.row (t.install r).1).configs.conflicting = r.configs.conflicting := by
  have hbare : (threadMeaning net mode entry T₀ g).row r.bare := by
    change net.Met T₀ (r.configs.threads g) ∧ r.bare.Holds _ (r.configs.threads g) g
    rw [hr.threads_eq]
    exact ⟨hT, hr.cells []⟩
  obtain ⟨hsane, hevolves, hhas, hrow, hsame⟩ := Honest.install ht hbare hcells
  have hspec : ((t.install r).2.2.row (t.install r).1).configs.threads g = r.configs.threads g ∧
      ((t.install r).2.2.row (t.install r).1).configs.uniqueAlt = r.configs.uniqueAlt ∧
      ((t.install r).2.2.row (t.install r).1).configs.conflicting = r.configs.conflicting := by
    rcases hsame with heq | hsame
    · rw [heq]
      exact ⟨rfl, rfl, rfl⟩
    · exact same_spec hsame
  have hthreads : ((t.install r).2.2.row (t.install r).1).configs.threads g = T :=
    hspec.1.trans hr.threads_eq
  have hholds : ((t.install r).2.2.row (t.install r).1).Holds (net.state entry).transitions.length
      (((t.install r).2.2.row (t.install r).1).configs.threads g) g :=
    hrow.2.cells ((t.install r).2.2.row (t.install r).1).cells
  rw [hthreads] at hholds
  exact ⟨hsane, hevolves, ⟨hhas, hholds⟩, hspec.2⟩

/-- **Making a row the first one keeps a table sane,** and the place that comes back shows the
threads of the beginning. -/
theorem Sane.setStart (ht : t.Sane net mode entry T₀ g) {count : Nat} {p : Place}
    (hcount : count = (net.state entry).transitions.length)
    (hopened : (net.questionAt entry).Opened false [] g.maxDepth)
    (hp : t.Shows count g p T₀)
    (hfresh : (t.row p).configs.Fresh) :
    (t.setStart p).2.Sane net mode entry T₀ g ∧ t.Evolves (t.setStart p).2 ∧
      (t.setStart p).2.Shows count g (t.setStart p).1 T₀ ∧
      ((t.setStart p).2.row (t.setStart p).1).configs.Fresh := by
  subst hcount
  have hrow : (threadMeaning net mode entry T₀ g).row (t.row p).bare := by
    change net.Met T₀ ((t.row p).configs.threads g) ∧
      (t.row p).bare.Holds _ ((t.row p).configs.threads g) g
    rw [hp.holds.threads_eq]
    exact ⟨.start, hp.holds.cells []⟩
  obtain ⟨hsane, hevolves, hhas, hrow', -, hthreads, hfresh'⟩ :=
    Honest.setStart ht hp.has hrow ⟨hopened, hp.holds.threads_eq, hfresh⟩
  have hholds : ((t.setStart p).2.row (t.setStart p).1).Holds (net.state entry).transitions.length
      (((t.setStart p).2.row (t.setStart p).1).configs.threads g) g :=
    hrow'.2.cells ((t.setStart p).2.row (t.setStart p).1).cells
  exact ⟨hsane, hevolves, ⟨hhas, hthreads ▸ hholds⟩, hfresh'⟩

end Table

end AdaptiveLL
