import AdaptiveLL.Proofs.Prediction.Faithful
import AdaptiveLL.Proofs.Prediction.Parts

/-!
# Attempts

An attempt to predict, made on a faithful cache, does what `Request.Told` says unless a ceiling is
met, whatever the cache holds already. Of each of its parts it is said which ceilings it meets.
-/

namespace AdaptiveLL

open StackGraph (Grows Grown Sound)

namespace Request

variable {r : Request} {R : Regime} {F : Set Thread} {asked₀ : List Callback} {words : Nat}
  {c : Cache} {E : Exceeded → Prop}

/-- The request can be made under the regime: the network fits together, no rule re-enters itself,
the fuel suffices, and it is known with what the decision begins. -/
structure Under (r : Request) (R : Regime) (F : Set Thread) (asked₀ : List Callback)
    (words : Nat) : Prop where
  net_eq : r.net = R.net
  mode_eq : r.settings.mode = R.mode
  entry_eq : r.net.decisions[r.decision]? = some r.entry
  consistent : r.net.Consistent
  word : r.net.states.size ≤ emptyReturn
  noReentry : r.net.NoReentry
  words_le : emptyReturn ≤ words
  fuel : sweepBound words Limits.configsPerSet R.nodes < r.fuel
  steps : r.settings.maxLookahead + 1 < r.fuel
  opens : r.toQuestion.Opens false [] R.nodes (R.start r.decision) []
  proper : Proper (R.start r.decision)
  opensFull : r.toQuestion.Opens true (r.net.followsOf r.callers) R.nodes F asked₀
  properFull : Proper F

/-- **One symbol, followed on any set of the threads before it.** -/
theorem reach_acts (hU : r.Under R F asked₀ words) (hc : c.Faithful R) {full : Bool}
    {T : Set Thread} {s : ConfigSet} {v : Symbol} (hs : Question.Stage full T s c.graph)
    (hT : Proper T) :
    Acts R (Prediction.probe r.toQuestion (r.reach v full s)) c (fun res reports asked c' =>
      ∃ next, res = .ok next ∧ reports = [] ∧ asked = [] ∧ c'.tables = c.tables ∧
        r.net.Withstands c.graph.maxDepth full v T ∧
        match next with
        | none => r.net.reachOf full v T = ∅
        | some s' => (r.net.reachOf full v T).Nonempty ∧
          Question.Stage full (r.net.reachOf full v T) s' c'.graph)
      (r.net.ReachMeets full v T c.graph.maxDepth) := by
  have hends : ∀ past, Probe.Ends true (r.reach v full s) { graph := c.graph, past }
      (fun next g => r.net.Withstands c.graph.maxDepth full v T ∧
        match next with
        | none => r.net.reachOf full v T = ∅
        | some s' => (r.net.reachOf full v T).Nonempty ∧
          Question.Stage full (r.net.reachOf full v T) s' g)
      (r.net.ReachMeets full v T) := fun past =>
    have hgraph : ({ graph := c.graph, past } : Trail).graph.Sound := hc.sound
    Question.reach_ends hU.consistent hU.word hU.noReentry hU.words_le hgraph
      (hc.nodes_eq.symm ▸ hU.fuel) hs hT
  exact Acts.probe hc hends

/-! ## Along the table -/

private theorem stopsAt_acts (hc : c.Faithful R) {T : Set Thread}
    {s : ConfigSet} (hs : Question.Stage false T s c.graph) :
    Acts R (r.stopsAt s) c (fun res reports asked c' => ∃ ends, res = .ok ends ∧ reports = [] ∧
      asked = [] ∧ c'.tables = c.tables ∧
        ((¬∃ a, Speaks T a) → (ends = true ↔ Closes r.net r.settings.mode T)))
      (·.resource = .arenaNodes) := by
  unfold stopsAt
  by_cases hcommon : s.commonAlt = noAlternative
  · rw [if_neg (by simpa using hcommon)]
    have hgrows : ∀ past, Probe.Ends true (Probe.grow (s.endsPrediction r.settings.mode r.net))
        { graph := c.graph, past } _ fun _ e => e.resource = .arenaNodes :=
      fun _ => .grow (endsPrediction_grows hc.sound hs)
    refine (Acts.probe hc hgrows).mono ?_
    rintro res reports asked c' _ _ ⟨ends, rfl, rfl, rfl, htables, hiff⟩
    exact ⟨ends, rfl, rfl, rfl, htables, fun _ => hiff⟩
  · rw [if_pos hcommon]
    refine .pure hc ⟨false, rfl, rfl, rfl, rfl, fun hone => ?_⟩
    have hspeaks := (hs.tidy.commonAlt_eq_iff hc.sound hcommon).mp rfl
    rw [hs.threads_eq] at hspeaks
    exact absurd ⟨s.commonAlt, hspeaks⟩ hone

/-- The row that is computed for a symbol holds the threads after it. -/
private theorem targetRow_acts (hU : r.Under R F asked₀ words) (hc : c.Faithful R)
    {T : Set Thread} {s : ConfigSet} {v : Symbol} (hs : Question.Stage false T s c.graph)
    (hT : Proper T) :
    Acts R (r.targetRow s v) c (fun res reports asked c' =>
      ∃ row?, res = .ok row? ∧ reports = [] ∧ asked = [] ∧ c'.tables = c.tables ∧
        r.net.Withstands c.graph.maxDepth false v T ∧
        match row? with
        | none => r.net.reachOf false v T = ∅
        | some row => r.Met T v row c'.graph ∧ row.cells = [])
      (r.net.ReachMeets false v T c.graph.maxDepth) := by
  rw [targetRow_eq]
  refine (reach_acts hU hc hs hT).bind ?_ fun e reports asked c' ⟨_, he, _⟩ => nomatch he
  rintro next reports asked c₁ hc₁ hfollows₁ ⟨next', hnext, rfl, rfl, htables₁, hwithstands, hreach⟩
  obtain rfl := Except.ok.inj hnext
  cases next with
  | none => exact .pure hc₁ ⟨none, rfl, rfl, rfl, htables₁, hwithstands, hreach⟩
  | some s' =>
    obtain ⟨hne, hs'⟩ := hreach
    have hT' : Proper (r.net.reachOf false v T) := hT.reachOf false v
    refine ((stopsAt_acts hc₁ hs').failing fun e he => .inl he).bind ?_
      fun e reports asked c' ⟨_, he, _⟩ => nomatch he
    rintro ends reports asked c₂ hc₂ hfollows₂ ⟨ends', hends', rfl, rfl, htables₂, hiff⟩
    obtain rfl := Except.ok.inj hends'
    have hs₂ := hs'.grown hc₁.sound hfollows₂.grown
    obtain ⟨hholds, hfound⟩ := Row.holds_classify r.altCount hc₂.sound hs₂ hT' hiff
    refine .pure hc₂ ⟨_, rfl, rfl, rfl, htables₂.trans htables₁, hwithstands,
      ⟨hc₂.sound, hholds, hne, hfound⟩, ?_⟩
    rw [Row.classify_eq ⟨hs₂.continues.uniqueAlt_eq, hs₂.continues.conflicting_eq⟩]
    exact (congrArg Row.cells (Row.telling_cells _ _)).symm

/-- The table of the decision is sane. -/
private theorem Under.sane (hU : r.Under R F asked₀ words) (hc : c.Faithful R) :
    (c.table r.decision).Sane r.net r.settings.mode r.entry (R.start r.decision) c.graph := by
  have hsane := hc.tables r.decision r.entry (hU.net_eq ▸ hU.entry_eq)
  rwa [← hU.net_eq, ← hU.mode_eq] at hsane

/-- Replacing the table of the decision. -/
private theorem Under.setTable (hU : r.Under R F asked₀ words) (hc : c.Faithful R) {t : Table}
    (ht : t.Sane r.net r.settings.mode r.entry (R.start r.decision) c.graph)
    (hevolves : (c.table r.decision).Evolves t) :
    (c.setTable r.decision t).Faithful R ∧ c.Follows (c.setTable r.decision t) ∧
      (c.setTable r.decision t).table r.decision = t := by
  rw [hU.net_eq, hU.mode_eq] at ht
  have hentry : R.net.decisions[r.decision]? = some r.entry := hU.net_eq ▸ hU.entry_eq
  obtain ⟨hfaithful, hfollows⟩ := hc.setTable hentry ht hevolves
  refine ⟨hfaithful, hfollows, (Cache.table_setTable ?_).trans (if_pos rfl)⟩
  rw [hc.size_eq]
  exact (Array.getElem?_eq_some_iff.mp hentry).1

variable {T : Set Thread} {p : Place} {v : Symbol}

/-- Putting a row into the table of the decision. -/
private theorem install_acts (hU : r.Under R F asked₀ words) (hc : c.Faithful R) {row : Row}
    (hrow : row.Holds r.altCount T c.graph) (hT : r.net.Met (R.start r.decision) T)
    (hcells : row.cells = []) :
    Acts R (Prediction.install r.toQuestion row) c (fun res reports asked c' =>
      ∃ place, res = .ok place ∧ reports = [] ∧ asked = [] ∧
        (c'.table r.decision).Shows r.altCount c'.graph place T ∧
        ((c'.table r.decision).row place).configs.uniqueAlt = row.configs.uniqueAlt ∧
        ((c'.table r.decision).row place).configs.conflicting = row.configs.conflicting) E := by
  have hinstall := (hU.sane hc).install hrow hT hcells
  rw [install_eq]
  refine .seq hc .table ?_
  generalize (c.table r.decision).install row = res at hinstall
  obtain ⟨place, event, t⟩ := res
  obtain ⟨hsane, hevolves, hshows, hunique, hconflict⟩ := hinstall
  obtain ⟨hc', hfollows, htable⟩ := hU.setTable hc hsane hevolves
  refine .after .setTable hfollows ?_
  have hrest : Acts R (pure place) (c.setTable r.decision t) (fun res reports asked c' =>
      ∃ place, res = .ok place ∧ reports = [] ∧ asked = [] ∧
        (c'.table r.decision).Shows r.altCount c'.graph place T ∧
        ((c'.table r.decision).row place).configs.uniqueAlt = row.configs.uniqueAlt ∧
        ((c'.table r.decision).row place).configs.conflicting = row.configs.conflicting) E := by
    refine .pure hc' ⟨place, rfl, rfl, rfl, ?_⟩
    rw [htable]
    exact ⟨hshows, hunique, hconflict⟩
  cases event with
  | none => exact .seq (a := ⟨⟩) hc' (.pure ⟨rfl, rfl, rfl, rfl⟩) hrest
  | some event => exact .seq hc' .note hrest

/-- Where a prediction stands along the table: at a row of the threads `T`, about which nothing was
found out. -/
structure Stands (r : Request) (R : Regime) (c : Cache) (p : Place) (T : Set Thread) : Prop where
  met : r.net.Met (R.start r.decision) T
  shows : (c.table r.decision).Shows r.altCount c.graph p T
  fresh : ((c.table r.decision).row p).configs.Fresh

theorem Stands.stage (hp : r.Stands R c p T) :
    Question.Stage false T ((c.table r.decision).row p).configs c.graph :=
  hp.shows.holds.stage hp.fresh

/-- Where a symbol leads: to a row of the threads after it, about which there was found out what
there is to find. -/
structure Comes (r : Request) (c : Cache) (T : Set Thread) (v : Symbol) (p : Place) : Prop where
  shows : (c.table r.decision).Shows r.altCount c.graph p (r.net.reachOf false v T)
  nonempty : (r.net.reachOf false v T).Nonempty
  found : Found r.net r.settings.mode (r.net.reachOf false v T)
    ((c.table r.decision).row p).configs

theorem Comes.met (h : r.Comes c T v p) (hg : c.graph.Sound) :
    r.Met T v ((c.table r.decision).row p) c.graph :=
  ⟨hg, h.shows.holds, h.nonempty, h.found⟩

/-- What the search for the next place answers. -/
def Answers (r : Request) (T : Set Thread) (v : Symbol)
    (res : Except PredictionError (Option Place)) (reports : List Report) (asked : List Callback)
    (c : Cache) : Prop :=
  ∃ next, res = .ok next ∧ reports = [] ∧ asked = [] ∧
    r.net.Withstands c.graph.maxDepth false v T ∧
    match next with
    | none => r.net.reachOf false v T = ∅
    | some p => r.Comes c T v p

/-- A symbol looked up in the table leads where the table says. -/
private theorem comes_of_cell (hU : r.Under R F asked₀ words) (hc : c.Faithful R)
    (hp : r.Stands R c p T) {m : Nat}
    (hcell : (c.table r.decision).cell? p v = some (.row m)) :
    r.net.Withstands c.graph.maxDepth false v T ∧ r.Comes c T v (.row m) := by
  obtain ⟨hwithstands, hshows, hne, hfound⟩ := (hU.sane hc).of_cell hp.shows hcell
  exact ⟨hwithstands, hshows, hne, hfound⟩

/-- **The place that is computed for a symbol.** -/
private theorem target_acts (hU : r.Under R F asked₀ words) (hc : c.Faithful R)
    (hp : r.Stands R c p T) :
    Acts R (r.target p v) c (r.Answers T v)
      (r.net.ReachMeets false v T c.graph.maxDepth) := by
  have hmet : r.net.Met (R.start r.decision) (r.net.reachOf false v T) := hp.met.reach v
  unfold target
  refine .seq hc .table ?_
  refine (targetRow_acts hU hc hp.stage hp.shows.holds.proper).bind ?_
    fun e reports asked c' ⟨_, he, _⟩ => nomatch he
  rintro row? reports asked c₁ hc₁ hfollows₁ ⟨row?', hrow?, rfl, rfl, htables, hwithstands, hrow⟩
  obtain rfl := Except.ok.inj hrow?
  rw [← hfollows₁.grown.maxDepth_eq] at hwithstands ⊢
  have htable : c₁.table r.decision = c.table r.decision := by
    unfold Cache.table
    rw [htables]
  have hshows : (c₁.table r.decision).Shows r.altCount c₁.graph p T := by
    rw [htable]
    exact hp.shows.grown hc.sound hfollows₁.grown
  -- No thread is left, or a row is; either is written into the cell only if the cache is in use,
  -- and what is written describes the threads, so the table stays sane.
  cases row? with
  | none =>
    have hdone : ∀ c₂ : Cache, c₂.Faithful R → c₂.graph.maxDepth = c₁.graph.maxDepth →
        Acts R (pure none) c₂ (r.Answers T v)
          (r.net.ReachMeets false v T c₁.graph.maxDepth) :=
      fun c₂ hc₂ hdepth => .pure hc₂ ⟨none, rfl, rfl, rfl, hdepth ▸ hwithstands, hrow⟩
    by_cases hcache : r.settings.useCache = true
    · rw [if_pos hcache]
      obtain ⟨hsane, hevolves⟩ := (hU.sane hc₁).linkDead hshows hwithstands hrow
      rw [htable] at hsane hevolves
      obtain ⟨hc₂, hfollows₂, _⟩ := hU.setTable hc₁ hsane (by rwa [htable])
      exact .after .setTable hfollows₂ (hdone _ hc₂ hfollows₂.grown.maxDepth_eq)
    · rw [if_neg hcache]
      exact hdone _ hc₁ rfl
  | some row =>
    obtain ⟨hrow, hcells⟩ := hrow
    by_cases hcache : r.settings.useCache = true
    · rw [hcache]
      refine (install_acts hU hc₁ hrow.holds hmet hcells).bind ?_
        fun e reports asked c' ⟨_, he, _⟩ => nomatch he
      rintro place reports asked c₂ hc₂ hfollows₂ ⟨place', hplace, rfl, rfl, hshows₂, hunique,
        hconflict⟩
      obtain rfl := Except.ok.inj hplace
      have hfound := hrow.found.congr hunique hconflict
      -- Installing may have moved the table on; the row that is read still stands where it stood.
      have hp₂ := (hshows.grown hc₁.sound hfollows₂.grown).evolves (hfollows₂.tables r.decision)
      have hwithstands₂ := hwithstands
      rw [← hfollows₂.grown.maxDepth_eq] at hwithstands₂
      obtain ⟨hsane, hevolves⟩ := (hU.sane hc₂).link hp₂ hwithstands₂ hshows₂ hrow.nonempty hfound
      obtain ⟨hc₃, hfollows₃, htable₃⟩ := hU.setTable hc₂ hsane hevolves
      refine .seq hc₂ .table (.after .setTable hfollows₃ ?_)
      refine .pure hc₃ ⟨some place, rfl, rfl, rfl, ?_, ?_, hrow.nonempty, ?_⟩
      · rwa [hfollows₃.grown.maxDepth_eq]
      · rw [htable₃]
        exact hshows₂.evolves hevolves
      · rw [htable₃, hevolves.configs_eq hshows₂.has]
        exact hfound
    · rw [Bool.eq_false_of_not_eq_true hcache]
      exact .pure hc₁ ⟨some (.loose row), rfl, rfl, rfl, hwithstands, ⟨hcells, hrow.holds⟩,
        hrow.nonempty, hrow.found⟩

/-- **The place that a symbol leads to,** looked up or computed. -/
theorem next_acts (hU : r.Under R F asked₀ words) (hc : c.Faithful R)
    (hp : r.Stands R c p T) :
    Acts R (r.next p v) c (r.Answers T v)
      (r.net.ReachMeets false v T c.graph.maxDepth) := by
  rw [next_eq]
  refine .seq hc .table ?_
  cases hcell : (if r.settings.useCache then (c.table r.decision).cell? p v else none) with
  | none =>
    refine .seq hc .count (.seq (a := ⟨⟩) hc ?_ (target_acts hU hc hp))
    split
    · exact .note
    · exact .pure ⟨rfl, rfl, rfl, rfl⟩
  | some cell =>
    have hcell' : (c.table r.decision).cell? p v = some cell := by
      split at hcell
      · exact hcell
      · cases hcell
    refine .seq hc .count ?_
    cases cell with
    | row m => exact .pure hc ⟨some (.row m), rfl, rfl, rfl, comes_of_cell hU hc hp hcell'⟩
    | dead => exact .pure hc ⟨none, rfl, rfl, rfl, (hU.sane hc).of_dead hp.shows hcell'⟩

/-! ## Answers -/

private theorem holds_acts (hc : c.Faithful R) (g : Guard) :
    Acts R (Prediction.holds r.toQuestion g) c (fun res _ _ c' =>
      c' = c ∧ ∃ passes, res = .ok passes) E :=
  (Acts.of_does hc .holds fun _ _ _ _ h => h.2.2.1).mono
    fun _ _ _ _ _ _ ⟨hpasses, _, hc', _⟩ => ⟨hc', hpasses⟩

theorem passing_acts (hc : c.Faithful R) (choices : List Choice) :
    Acts R (r.passing choices) c (fun res reports asked c' =>
      (∃ votes, res = .ok votes) ∧ reports = [] ∧ c' = c ∧ (r.host.Steady →
        res = .ok (r.votes choices) ∧ asked = r.asks choices)) E :=
  .of_does hc (r.passing_does choices c) fun _ _ _ _ h => h.2.2.1

/-- **Nothing changes what is answered at a row:** the host is steady, or the row leaves no choices
to put to it. -/
def Certain (r : Request) (row : Row) : Prop := r.host.Steady ∨ row.choices = none

private theorem Certain.steady {row : Row} {choices : List Choice} (h : r.Certain row)
    (hchoices : row.choices = some choices) : r.host.Steady :=
  h.resolve_right (hchoices ▸ nofun)

/-- What is done at a row that answers. -/
theorem answer_acts (hc : c.Faithful R) (row : Row) (stream : TokenStream) :
    Acts R (r.answer row stream) c (fun res reports asked _ =>
      reports = [] ∧ (r.Certain row →
        res = (r.answerDeed row stream).result ∧ asked = (r.answerDeed row stream).asked)) E := by
  cases hchoices : row.choices with
  | none =>
    unfold answer answerDeed
    rw [hchoices]
    exact .pure hc ⟨rfl, fun _ => ⟨rfl, rfl⟩⟩
  | some choices =>
    refine (Acts.of_does hc (r.answer_does row stream c) fun _ _ _ _ h => h.2.1).mono ?_
    rintro res reports asked c' _ _ ⟨hreports, _, hsteady⟩
    exact ⟨hreports, fun hcertain => hsteady (hcertain.steady hchoices)⟩

theorem partition_acts (hc : c.Faithful R) (cs : List Config) :
    Acts R (r.partition cs) c (fun res _ _ c' => c' = c ∧ ∃ parts, res = .ok parts) E := by
  induction cs with
  | nil => exact .pure hc ⟨rfl, _, rfl⟩
  | cons d cs ih =>
    have hrest : ∀ passes : Bool, Acts R (r.partition cs >>= fun parts =>
        pure (if passes then (d :: parts.1, parts.2) else (parts.1, d :: parts.2))) c
          (fun res _ _ c' => c' = c ∧ ∃ parts, res = .ok parts) E := by
      intro passes
      refine ih.bind ?_ ?_
      · rintro parts _ _ c₁ hc₁ _ ⟨rfl, _⟩
        exact .pure hc₁ ⟨rfl, _, rfl⟩
      · rintro _ _ _ _ ⟨_, _, he⟩
        cases he
    unfold partition
    dsimp only
    split
    · exact hrest true
    · refine (holds_acts hc d.guard).bind ?_ ?_
      · rintro passes _ _ c₁ _ _ ⟨rfl, _⟩
        exact hrest passes
      · rintro _ _ _ _ ⟨_, _, he⟩
        cases he

/-- What is done at a dead end. -/
theorem deadEnd_acts (hc : c.Faithful R) (s : ConfigSet) (stream : TokenStream) :
    Acts R (r.deadEnd s stream) c
      (fun res reports asked _ => r.Ended s stream ⟨res, reports, asked⟩) E := by
  unfold deadEnd Ended
  by_cases hrecover : r.settings.recoverAtRuleEnd = true
  · rw [hrecover]
    refine (partition_acts hc s.toList).bind ?_ fun e _ _ c' ⟨_, _, he⟩ => nomatch he
    rintro ⟨valid, invalid⟩ _ _ c₁ hc₁ _ _
    refine .get_bind fun s₁ _ => ?_
    dsimp only
    split
    · exact .pure hc₁ nofun
    · exact .throw hc₁ (.inr nofun)
  · rw [Bool.eq_false_of_not_eq_true hrecover]
    exact .throw hc (.inr fun _ => rfl)

/-! ## With the call stack -/

theorem checkLookahead_acts (hc : c.Faithful R) (n : Nat) :
    Acts R (r.checkLookahead n) c fun res reports asked c' =>
      res = .ok ⟨⟩ ∧ reports = [] ∧ asked = [] ∧ c' = c ∧ n ≤ r.settings.maxLookahead := by
  unfold checkLookahead
  by_cases hn : r.settings.maxLookahead < n
  · rw [if_pos hn]
    exact .throw hc (.inl ⟨_, rfl, trivial⟩)
  · rw [if_neg hn]
    exact .pure hc ⟨rfl, rfl, rfl, rfl, by omega⟩

/-- What holds before each symbol of a prediction with the call stack that began with the threads
`T`. -/
private structure FullPoint.Holds (r : Request) (T : Set Thread) (p : FullPoint) (c : Cache) :
    Prop where
  point : ∃ T', Question.Stage true T' p.configs c.graph ∧ Proper T' ∧
    ∀ d, r.FullTold T' p.stream d → r.FullTold T r.stream d
  read_le : p.read ≤ r.settings.maxLookahead

/-- What is known when a prediction with the call stack has come to its last set. -/
private def FullOver (r : Request) (T : Set Thread) (c : Cache) :
    (ConfigSet × TokenStream) ⊕ FullEnd → Prop
  | .inl (s, stream) => ∃ T', Question.Stage true T' s c.graph ∧
      r.net.reachOf true (stream.lookAhead 1) T' = ∅ ∧
      ∀ d, r.FullTold T' stream d → r.FullTold T r.stream d
  | .inr e => r.FullTold T r.stream (r.stopDeed e.configs e.stop e.prediction) ∧
      e.unique = (e.configs.commonAlt != noAlternative) ∧
      e.exact = (!e.unique && r.settings.mode == .exact)

theorem fullStep_acts (hU : r.Under R F asked₀ words) (hc : c.Faithful R)
    {T : Set Thread} {p : FullPoint} (hp : p.Holds r T c) :
    Acts R (r.fullStep p) c fun res reports asked c' =>
      reports = [] ∧ asked = [] ∧ ∃ next, res = .ok next ∧
        match next with
        | .inl p' => p'.Holds r T c' ∧ p'.read = p.read + 1
        | .inr e => r.FullOver T c' e := by
  obtain ⟨⟨T', hs, hT', hrest⟩, _⟩ := hp
  unfold fullStep
  refine (checkLookahead_acts hc (p.read + 1)).bind ?_ fun e _ _ c' ⟨he, _⟩ => nomatch he
  rintro _ reports asked c₁ hc₁ _ ⟨_, rfl, rfl, rfl, hread⟩
  refine (reach_acts hU hc₁ (v := p.stream.lookAhead 1) hs hT').anyhow.bind ?_
    fun e _ _ c' ⟨_, he, _⟩ => nomatch he
  rintro next reports asked c₂ hc₂ hfollows₂ ⟨next', hnext, rfl, rfl, _, _, hreach⟩
  obtain rfl := Except.ok.inj hnext
  cases next with
  | none =>
    refine .seq hc₂ .count (.pure hc₂ ⟨rfl, rfl, _, rfl, T', ?_, hreach, hrest⟩)
    exact hs.grown hc₁.sound hfollows₂.grown
  | some s' =>
    obtain ⟨hne, hs'⟩ := hreach
    dsimp only
    cases hverdict : fullVerdict? r.settings.mode s' with
    | none =>
      refine .pure hc₂ ⟨rfl, rfl, _, rfl, ⟨⟨_, hs', hT'.reachOf true _, fun d hd => ?_⟩, hread⟩, rfl⟩
      exact hrest d (.next hc₂.sound hs' hne hverdict hd)
    | some alt =>
      refine .pure hc₂ ⟨rfl, rfl, _, rfl, ?_, rfl, rfl⟩
      exact hrest _ (.stop hc₂.sound hs' hne hverdict)

private theorem reportAmbiguity_acts {α : Type} (hc : c.Faithful R) {stop prediction : Nat}
    {alts : AltSet} {exact : Bool} {f : Unit → Prediction α}
    {P : Except PredictionError α → List Report → List Callback → Cache → Prop}
    (hf : Acts R (f ⟨⟩) c (fun res reports asked =>
      P res (r.report .ambiguity stop alts exact prediction :: reports) asked) E) :
    Acts R (r.reportAmbiguity stop alts exact prediction >>= f) c P E := by
  unfold reportAmbiguity
  rw [bind_assoc]
  exact .seq hc .count (.deliver hc hf)

theorem concludeFull_acts (hc : c.Faithful R) {e : FullEnd}
    (hunique : e.unique = (e.configs.commonAlt != noAlternative))
    (hexact : e.exact = (!e.unique && r.settings.mode == .exact)) :
    Acts R (r.concludeFull e) c (fun res reports asked _ =>
      (⟨res, reports, asked⟩ : Deed) = r.stopDeed e.configs e.stop e.prediction) E := by
  rw [concludeFull_eq]
  unfold stopDeed
  refine .seq hc .count ?_
  rw [← hunique]
  by_cases hone : e.unique = true
  · simp only [hone, if_true]
    by_cases hreport : r.settings.reportContextSensitivity = true
    · simp only [hreport, if_true]
      exact .seq hc .count (.deliver hc (.pure hc rfl))
    · simp only [hreport]
      exact .pure hc rfl
  · have hfalse := Bool.eq_false_of_not_eq_true hone
    rw [hfalse, Bool.not_false, Bool.true_and] at hexact
    rw [hfalse, hexact]
    exact reportAmbiguity_acts hc (.pure hc rfl)

/-- **What a prediction with the call stack does.** -/
private theorem predictFull_acts (hU : r.Under R F asked₀ words) (hc : c.Faithful R)
    {T : Set Thread} {s : ConfigSet} (hs : Question.Stage true T s c.graph) (hT : Proper T) :
    Acts R (r.predictFull s) c fun res reports asked _ =>
      r.FullTold T r.stream ⟨res, reports, asked⟩ := by
  unfold predictFull
  refine Acts.bind (Q := fun res reports asked c' => reports = [] ∧ asked = [] ∧
    ∃ e, res = .ok e ∧ r.FullOver T c' e) ?_ ?_ fun e _ _ _ ⟨_, _, _, he, _⟩ => nomatch he
  -- Each round reads one symbol more, and no more symbols are read than the look-ahead ceiling has,
  -- which the fuel exceeds.
  · refine Acts.loop (fun p c' => FullPoint.Holds r T p c')
      (fun p => r.settings.maxLookahead + 1 - p.read) ?_ hc
      ⟨⟨T, hs, hT, fun _ => id⟩, Nat.zero_le _⟩ ?_
    · intro p c' hc' hp
      refine (fullStep_acts hU hc' hp).mono ?_
      rintro res reports asked c'' _ _ ⟨rfl, rfl, next, rfl, hnext⟩
      cases next with
      | inl p' =>
        refine ⟨rfl, rfl, hnext.1, ?_⟩
        have hread := hp.read_le
        have hread' := hnext.2
        omega
      | inr e => exact ⟨rfl, rfl, e, rfl, hnext⟩
    · exact Nat.lt_of_le_of_lt (Nat.sub_le _ _) hU.steps
  · rintro e reports asked c₁ hc₁ _ ⟨rfl, rfl, e', he, hover⟩
    obtain rfl := Except.ok.inj he
    cases e with
    | inl dead =>
      obtain ⟨T', hs', hdead, hrest⟩ := hover
      refine (deadEnd_acts hc₁ dead.1 dead.2).mono fun res reports asked c₂ _ _ hended => ?_
      exact hrest _ (.dead hc₁.sound hs' hdead hended)
    | inr e =>
      obtain ⟨htold, hunique, hexact⟩ := hover
      refine (concludeFull_acts hc₁ hunique hexact).mono fun res reports asked c₂ _ _ hdeed => ?_
      rw [List.nil_append, List.nil_append, hdeed]
      exact htold

/-- The stack of the callers, unless there are too many of them. -/
theorem ofCallers_grows {net : Network} (hnet : net.Consistent)
    (hword : net.states.size ≤ emptyReturn) (callers : List StateId) {g : StackGraph}
    (hg : g.Sound) :
    Grows (StackGraph.ofCallers net callers) g (fun id g' =>
      id < g'.size ∧ g'.stackSet id = {net.followsOf callers})
      (Exceeded.Meets (· < (net.followsOf callers).length) False g.maxDepth) := by
  unfold StackGraph.ofCallers
  refine ((StackGraph.pushAll_grows hg hg.empty_lt hg.stackSet_empty ?_).failing ?_).mono ?_
  · intro follow hfollow
    obtain ⟨s, _, hs⟩ := List.mem_filterMap.mp hfollow
    obtain ⟨t, ht, hcall⟩ := Option.bind_eq_some_iff.mp hs
    have hmem := List.mem_of_head? ht
    cases t with
    | rule target rule follow' level =>
      obtain rfl := Option.some.inj hcall
      exact Nat.lt_of_lt_of_le (hnet.follow_lt _ _ _ _ _ hmem) hword
    | _ => cases hcall
  · rintro e (hnodes | ⟨hlong, rfl⟩)
    · exact .inl hnodes
    · refine .inr (.inl ⟨?_, rfl⟩)
      simpa [Network.followsOf] using hlong
  · rintro id g' _ ⟨hid, hset⟩
    rw [List.append_nil] at hset
    exact ⟨hid, hset⟩

/-- The stack of the callers of a request. -/
theorem callers_acts (hU : r.Under R F asked₀ words) (hc : c.Faithful R) :
    Acts R (Prediction.grow r.toQuestion (StackGraph.ofCallers r.net r.callers)) c
      (fun res reports asked c' => ∃ stack, res = .ok stack ∧ reports = [] ∧ asked = [] ∧
        (r.net.followsOf r.callers).length ≤ c.graph.maxDepth ∧ stack < c'.graph.size ∧
          c'.graph.stackSet stack = {r.net.followsOf r.callers})
      (Exceeded.Meets (· < (r.net.followsOf r.callers).length) False c.graph.maxDepth) := by
  have hends : ∀ past, Probe.Ends true (Probe.grow (StackGraph.ofCallers r.net r.callers))
      { graph := c.graph, past } _
      (Exceeded.Meets (· < (r.net.followsOf r.callers).length) False) :=
    fun _ => .grow (ofCallers_grows hU.consistent hU.word r.callers hc.sound)
  refine (Acts.probe hc hends).mono ?_
  rintro res reports asked c' hc' hfollows ⟨stack, rfl, rfl, rfl, _, hlt, hset⟩
  refine ⟨stack, rfl, rfl, rfl, ?_, hlt, hset⟩
  have hstack : r.net.followsOf r.callers ∈ c'.graph.stackSet stack := hset ▸ rfl
  rw [← hfollows.grown.maxDepth_eq]
  exact StackGraph.HasStack.length_le hc'.sound hstack

/-- The set with which the decision begins under a stack. -/
theorem startSet_acts (hc : c.Faithful R) {full : Bool}
    {σ : List StateId} {T : Set Thread} {asked : List Callback}
    (hopens : r.toQuestion.Opens full σ R.nodes T asked) {stack : StackId}
    (hstack : stack < c.graph.size) (hσ : c.graph.stackSet stack = {σ}) :
    Acts R (Prediction.probe r.toQuestion (r.startSet full stack)) c (fun res reports asked' c' =>
      ∃ s, res = .ok s ∧ reports = [] ∧ c'.tables = c.tables ∧
        r.toQuestion.Opened full σ c.graph.maxDepth ∧
        (∃ T', Proper T' ∧ Question.Stage full T' s c'.graph) ∧
        (r.Steady full → Question.Stage full T s c'.graph ∧ asked' = asked))
      (r.toQuestion.Balks full σ c.graph.maxDepth) := by
  refine Prediction.Does.probe fun past => ?_
  obtain ⟨res, tr, hrun, hgrown, hok, hmeets⟩ :=
    hopens { graph := c.graph, past } stack hc.sound hc.nodes_eq hstack hσ
  refine .of_eq hrun ?_
  obtain ⟨hc', hfollows⟩ := hc.setGraph hgrown
  refine ⟨hc', hfollows, ?_⟩
  have hcame : r.toQuestion.Comes full σ c.graph.maxDepth res :=
    ⟨r.toQuestion, _, tr, stack, .refl full _, hc.sound, rfl, hstack, hσ, hrun⟩
  cases res with
  | error e => exact .inl ⟨e, rfl, hcame⟩
  | ok s =>
    obtain ⟨hs, hsteady⟩ := hok s rfl
    exact .inr ⟨s, rfl, rfl, rfl, ⟨s, hcame⟩, hs, hsteady⟩

private theorem settledBy_eq_some {row : Row} {alt : Nat} :
    r.settledBy row = some alt ↔ ((row.choices.map r.votes).getD .empty).toList = [alt] := by
  unfold settledBy
  split
  · next alt' halt => rw [halt, Option.some_inj, List.singleton_inj]
  · next hmany => exact ⟨(nomatch ·), fun h => absurd h (hmany alt)⟩

/-- What a prediction does at a conflict if `votes` pass: they settle it, or the call stack
decides. -/
private theorem turn_acts (hU : r.Under R F asked₀ words) (hc : c.Faithful R) (row : Row)
    (stream : TokenStream) (votes : AltSet) :
    Acts R (r.turn row stream votes) c fun res reports asked _ => r.Steady true →
      (∃ alt, votes.toList = [alt] ∧ res = .ok alt ∧ reports = [] ∧ asked = []) ∨
      (∀ alt, votes.toList ≠ [alt]) ∧ ∃ d, r.FullTold F r.stream d ∧ res = d.result ∧
        reports = r.fallback row stream.index :: d.reports ∧ asked = asked₀ ++ d.asked := by
  unfold turn
  split
  · next alt halt => exact .pure hc fun _ => .inl ⟨alt, halt, rfl, rfl, rfl⟩
  · next hmany =>
    refine .seq hc .count (.deliver hc ?_)
    refine (callers_acts hU hc).anyhow.bind ?_ fun _ _ _ _ ⟨_, he, _⟩ => nomatch he
    rintro stack _ _ c₂ hc₂ _ ⟨stack', hstack, rfl, rfl, _, hlt, hset⟩
    obtain rfl := Except.ok.inj hstack
    refine (startSet_acts hc₂ hU.opensFull hlt hset).anyhow.bind ?_
      fun _ _ _ _ ⟨_, he, _⟩ => nomatch he
    rintro s _ _ c₃ hc₃ _ ⟨s', hs', rfl, _, _, ⟨T, hT, hstage⟩, hsteady⟩
    obtain rfl := Except.ok.inj hs'
    by_cases hhost : r.Steady true
    · obtain ⟨hs, rfl⟩ := hsteady hhost
      refine (predictFull_acts hU hc₃ hs hU.properFull).mono fun _ _ _ _ _ _ htold _ => ?_
      exact .inr ⟨hmany, _, htold, rfl, by simp [fallback], by simp⟩
    -- With other threads than told the prediction goes on just as well.
    · exact (predictFull_acts hU hc₃ hstage hT).mono fun _ _ _ _ _ _ _ h => absurd h hhost

private theorem escalate_acts (hU : r.Under R F asked₀ words) (hc : c.Faithful R) (row : Row)
    (stream : TokenStream) :
    Acts R (r.escalate row stream) c fun res reports asked _ => r.Certain row → r.Steady true →
      (∃ alt, r.settledBy row = some alt ∧ (⟨res, reports, asked⟩ : Deed) =
        { result := .ok alt, asked := (row.choices.map r.asks).getD [] }) ∨
      r.settledBy row = none ∧ ∃ d, r.FullTold F r.stream d ∧ (⟨res, reports, asked⟩ : Deed) =
        { result := d.result, reports := r.fallback row stream.index :: d.reports
          asked := (row.choices.map r.asks).getD [] ++ asked₀ ++ d.asked } := by
  rw [escalate_eq]
  refine Acts.bind (Q := fun res reports asked c' => (∃ votes, res = .ok votes) ∧ reports = [] ∧
    (r.Certain row → res = .ok ((row.choices.map r.votes).getD .empty) ∧
      asked = (row.choices.map r.asks).getD [])) ?_ ?_ fun _ _ _ _ ⟨⟨_, he⟩, _⟩ => nomatch he
  · cases hchoices : row.choices with
    | none => exact .pure hc ⟨⟨_, rfl⟩, rfl, fun _ => ⟨rfl, rfl⟩⟩
    | some choices =>
      refine (passing_acts hc choices).mono ?_
      exact fun res reports asked c' _ _ ⟨hvotes, hreports, _, hsteady⟩ =>
        ⟨hvotes, hreports, fun hcertain => hsteady (hcertain.steady hchoices)⟩
  · rintro votes reports asked c₁ hc₁ _ ⟨-, rfl, hsteady⟩
    refine (turn_acts hU hc₁ row stream votes).mono ?_
    intro res reports asked' c₂ _ _ htold hcertain hhost
    obtain ⟨hvotes, rfl⟩ := hsteady hcertain
    obtain rfl := Except.ok.inj hvotes
    rcases htold hhost with ⟨alt, halt, rfl, rfl, rfl⟩ | ⟨hmany, d, hfull, rfl, rfl, rfl⟩
    · exact .inl ⟨alt, settledBy_eq_some.mpr halt, by simp⟩
    · refine .inr ⟨Option.eq_none_iff_forall_ne_some.mpr fun alt h => ?_, d, hfull, by simp⟩
      exact hmany alt (settledBy_eq_some.mp h)

/-! ## From the beginning -/

/-- **The place where the decision begins.** -/
theorem startPlace_acts (hU : r.Under R F asked₀ words) (hc : c.Faithful R) :
    Acts R r.startPlace c (fun res reports asked c' =>
      ∃ p, res = .ok p ∧ reports = [] ∧ asked = [] ∧
        r.toQuestion.Opened false [] c.graph.maxDepth ∧ r.Stands R c' p (R.start r.decision))
      (r.toQuestion.Balks false [] c.graph.maxDepth) := by
  have halike : (r.net.questionAt r.entry).Alike false r.toQuestion := ⟨rfl, rfl, nofun⟩
  unfold startPlace
  refine .seq hc .table ?_
  -- A start that is kept was opened in an earlier call, under the same ceiling of depth.
  cases hstart : (if r.settings.useCache then (c.table r.decision).startRow else none) with
  | some n =>
    have hstart' : (c.table r.decision).startRow = some n := by
      split at hstart
      · exact hstart
      · cases hstart
    obtain ⟨hopened, hshows, hfresh⟩ := (hU.sane hc).of_startRow hstart'
    exact .pure hc ⟨.row n, rfl, rfl, rfl, hopened.congr halike, .start, hshows, hfresh⟩
  | none =>
    refine (startSet_acts hc hU.opens hc.sound.empty_lt
      hc.sound.stackSet_empty).bind ?_ fun _ _ _ _ ⟨_, he, _⟩ => nomatch he
    rintro s _ _ c₁ hc₁ hfollows₁ ⟨s', hs', rfl, _, hopened, _, hsteady⟩
    obtain rfl := Except.ok.inj hs'
    obtain ⟨hs, rfl⟩ := hsteady nofun
    have hholds : ({ configs := s } : Row).Holds r.altCount (R.start r.decision) c₁.graph :=
      Row.holds_open hs hU.proper
    have hfresh : s.Fresh := ⟨hs.continues.uniqueAlt_eq, hs.continues.conflicting_eq⟩
    by_cases hcache : r.settings.useCache = true
    · rw [hcache]
      refine (install_acts hU hc₁ hholds .start rfl).bind ?_ fun _ _ _ _ ⟨_, he, _⟩ => nomatch he
      rintro place _ _ c₂ hc₂ hfollows₂ ⟨place', hplace, rfl, rfl, hshows, hunique, hconflict⟩
      obtain rfl := Except.ok.inj hplace
      have hdepth := (hfollows₁.trans hfollows₂).grown.maxDepth_eq
      -- The first row may have been installed meanwhile, and then that one is the start.
      have hset := (hU.sane hc₂).setStart rfl (hdepth.symm ▸ hopened.congr halike.symm) hshows
        ⟨hunique.trans hfresh.1, hconflict.trans hfresh.2⟩
      refine .seq hc₂ .table ?_
      generalize (c₂.table r.decision).setStart place = res at hset
      obtain ⟨first, t⟩ := res
      obtain ⟨hsane, hevolves, hshows', hfresh'⟩ := hset
      obtain ⟨hc₃, hfollows₃, htable₃⟩ := hU.setTable hc₂ hsane hevolves
      refine .after .setTable hfollows₃ (.pure hc₃ ⟨first, rfl, rfl, rfl, hopened, .start, ?_, ?_⟩)
      · rw [htable₃]
        exact hshows'
      · rw [htable₃]
        exact hfresh'
    · rw [Bool.eq_false_of_not_eq_true hcache]
      exact .pure hc₁ ⟨.loose { configs := s }, rfl, rfl, rfl, hopened, .start, ⟨rfl, hholds⟩,
        hfresh⟩

/-- **The host cannot change what a prediction does:** it is steady, or there are no guards to put to
it. -/
def Sure (r : Request) (R : Regime) : Prop :=
  r.host.Steady ∨ r.net.Unguarded ∧ Guardless (R.start r.decision)

private theorem Sure.steady (h : r.Sure R) : r.Steady true := fun _ => h.imp_right And.left

private theorem Sure.certain (h : r.Sure R) {T : Set Thread} {g : StackGraph} {row : Row}
    (hg : g.Sound) (hmet : r.net.Met (R.start r.decision) T) (hrow : row.Holds r.altCount T g) :
    r.Certain row :=
  h.imp_right fun ⟨_, hplain⟩ => hrow.choices_eq hg (hmet.guardless hplain)

/-- What holds before each symbol of a prediction along the table. -/
private structure Point.Holds (r : Request) (R : Regime) (F : Set Thread)
    (asked₀ : List Callback) (p : Point) (c : Cache) : Prop where
  point : ∃ T, r.Stands R c p.place T ∧
    ∀ d, r.Told F asked₀ T p.stream d → r.Told F asked₀ (R.start r.decision) r.stream d
  read_le : p.read ≤ r.settings.maxLookahead

/-- What one symbol of a prediction along the table comes to. -/
private def StepEnds (r : Request) (R : Regime) (F : Set Thread) (asked₀ : List Callback)
    (p : Point) (res : Except PredictionError (Point ⊕ Nat)) (reports : List Report)
    (asked : List Callback) (c : Cache) : Prop :=
  match res with
  | .ok (.inl p') => reports = [] ∧ asked = [] ∧ p'.Holds r R F asked₀ c ∧ p'.read = p.read + 1
  | .ok (.inr alt) =>
    r.Sure R → r.Told F asked₀ (R.start r.decision) r.stream ⟨.ok alt, reports, asked⟩
  | .error e =>
    r.Sure R → r.Told F asked₀ (R.start r.decision) r.stream ⟨.error e, reports, asked⟩

private theorem stepEnds_of_told {p : Point} {res : Except PredictionError Nat}
    {reports : List Report} {asked : List Callback} {c : Cache}
    (h : r.Sure R → r.Told F asked₀ (R.start r.decision) r.stream ⟨res, reports, asked⟩) :
    r.StepEnds R F asked₀ p (res.map .inr) reports asked c := by
  cases res <;> exact h

private theorem turnsAt_iff {row : Row} :
    (row.needsContext && r.settings.mode != .sll) = true ↔ r.TurnsAt row := by
  simp [TurnsAt]

/-- What is done at a row that answers without the call stack. -/
theorem conclude_acts (hc : c.Faithful R) (row : Row) (stream : TokenStream) :
    Acts R (r.conclude row stream) c (fun res reports asked _ =>
      (∃ answer : Except PredictionError Nat, res = answer.map .inr ∧ (r.Certain row →
        (⟨answer, reports, asked⟩ : Deed) = r.answerDeed row stream))) E := by
  unfold conclude
  by_cases hreport : (row.needsContext && r.settings.reportSllConflicts) = true
  · rw [if_pos hreport]
    refine reportAmbiguity_acts hc (.map ((answer_acts hc row stream).mono ?_))
    rintro res reports asked c' _ _ ⟨rfl, hsteady⟩
    refine ⟨res, rfl, fun hhost => ?_⟩
    obtain ⟨rfl, rfl⟩ := hsteady hhost
    simp [answerDeed, hreport]
  · rw [if_neg hreport]
    refine .seq (a := ⟨⟩) hc (.pure ⟨rfl, rfl, rfl, rfl⟩) (.map ((answer_acts hc row stream).mono ?_))
    rintro res reports asked c' _ _ ⟨rfl, hsteady⟩
    refine ⟨res, rfl, fun hhost => ?_⟩
    obtain ⟨rfl, rfl⟩ := hsteady hhost
    simp [answerDeed, hreport]

private theorem step_acts (hU : r.Under R F asked₀ words) (hc : c.Faithful R) {p : Point}
    (hp : p.Holds r R F asked₀ c) : Acts R (r.step p) c (r.StepEnds R F asked₀ p) := by
  obtain ⟨⟨T, hstands, hrest⟩, _⟩ := hp
  rw [step_eq]
  refine (checkLookahead_acts hc (p.read + 1)).bind ?_ fun e _ _ c' ⟨he, _⟩ => nomatch he
  rintro _ reports asked c₁ hc₁ _ ⟨_, rfl, rfl, rfl, hread⟩
  refine (next_acts hU hc₁ (v := p.stream.lookAhead 1) hstands).anyhow.bind ?_
    fun e _ _ c' ⟨_, he, _⟩ => nomatch he
  rintro next reports asked c₂ hc₂ hfollows₂ ⟨next', hnext, rfl, rfl, _, hcomes⟩
  obtain rfl := Except.ok.inj hnext
  cases next with
  | none =>
    have hstage : Question.Stage false T ((c₂.table r.decision).row p.place).configs c₂.graph := by
      rw [(hfollows₂.tables r.decision).configs_eq hstands.shows.has]
      exact hstands.stage.grown hc₁.sound hfollows₂.grown
    refine .seq hc₂ .count (.seq hc₂ .table (.map ((deadEnd_acts hc₂ _ _).mono ?_)))
    exact fun res reports asked c₃ _ _ hended =>
      stepEnds_of_told fun _ => hrest _ (.dead hc₂.sound hstage hcomes hended)
  | some place =>
    have hmet := hcomes.met hc₂.sound
    refine .seq hc₂ .table ?_
    -- The three ends of a step over a live row: begun again with the call stack, answered, gone on.
    by_cases hturns : ((c₂.table r.decision).row place).needsContext && r.settings.mode != .sll
    · rw [if_pos hturns]
      refine .seq hc₂ .count (.map ((escalate_acts hU hc₂ _ _).mono ?_))
      refine fun res reports asked c₃ _ _ htold => stepEnds_of_told fun hhost => hrest _ ?_
      simp only [List.nil_append]
      -- A steady host answers the guards now as it would have answered when the row was computed.
      rcases htold (hhost.certain hc₂.sound (hstands.met.reach _) hcomes.shows.holds) hhost.steady
        with ⟨alt, halt, hdeed⟩ | ⟨hnone, d, htold, hdeed⟩
      · rw [hdeed]
        exact .guarded hmet (turnsAt_iff.mp hturns) halt
      · rw [hdeed]
        exact .full hmet (turnsAt_iff.mp hturns) hnone htold
    · rw [if_neg hturns]
      have hturns' := fun h => hturns (turnsAt_iff.mpr h)
      by_cases haccepting : ((c₂.table r.decision).row place).accepting = true
      · rw [if_pos haccepting]
        refine .seq hc₂ .count ?_
        refine (conclude_acts hc₂ _ p.stream).mono ?_
        rintro res reports asked c₃ _ _ ⟨answer, rfl, hsteady⟩
        refine stepEnds_of_told fun hhost => hrest _ ?_
        simp only [List.nil_append]
        rw [hsteady (hhost.certain hc₂.sound (hstands.met.reach _) hcomes.shows.holds)]
        exact .answer hmet hturns' haccepting
      · rw [if_neg haccepting]
        have haccepting' := Bool.eq_false_of_not_eq_true haccepting
        refine .pure hc₂ ⟨rfl, rfl, ⟨⟨_, ⟨hstands.met.reach _, hcomes.shows, ?_⟩, ?_⟩, hread⟩, rfl⟩
        · exact hcomes.shows.holds.accepting_iff.mp haccepting'
        · exact fun d hd => hrest d (.next hmet hturns' haccepting' hd)

/-- **Where a prediction along the table goes on,** the next symbol has led to several alternatives
that are not in conflict yet. -/
theorem step_goes (hU : r.Under R F asked₀ words) (hc : c.Faithful R) {p : Point} {T : Set Thread}
    (hp : r.Stands R c p.place T) :
    Acts R (r.step p) c fun res _ _ c' => ∀ p', res = .ok (.inl p') →
      p'.stream = p.stream.consume ∧ p'.read = p.read + 1 ∧
        r.Stands R c' p'.place (r.net.reachOf false (p.stream.lookAhead 1) T) ∧
          (¬∃ a, Speaks (r.net.reachOf false (p.stream.lookAhead 1) T) a) ∧
            ¬Closes r.net r.settings.mode (r.net.reachOf false (p.stream.lookAhead 1) T) := by
  rw [step_eq]
  refine (checkLookahead_acts hc (p.read + 1)).bind ?_ fun e _ _ c' ⟨he, _⟩ => nomatch he
  rintro _ _ _ c₁ hc₁ _ ⟨_, _, _, rfl, _⟩
  refine (next_acts hU hc₁ (v := p.stream.lookAhead 1) hp).anyhow.bind ?_
    fun e _ _ c' ⟨_, he, _⟩ => nomatch he
  rintro next _ _ c₂ hc₂ _ ⟨next', hnext, _, _, _, hcomes⟩
  obtain rfl := Except.ok.inj hnext
  -- In every branch but the last the loop is over, so it does not go on.
  have hover : ∀ {res : Except PredictionError Nat} {p' : Point},
      res.map Sum.inr ≠ (.ok (.inl p') : Except PredictionError (Point ⊕ Nat)) := by
    intro res p'
    cases res <;> nofun
  cases next with
  | none =>
    refine .seq hc₂ .count (.seq hc₂ .table (.map ((deadEnd_acts hc₂ _ _).mono ?_)))
    exact fun _ _ _ _ _ _ _ _ h => absurd h hover
  | some place =>
    refine .seq hc₂ .table ?_
    by_cases hturns : ((c₂.table r.decision).row place).needsContext && r.settings.mode != .sll
    · rw [if_pos hturns]
      refine .seq hc₂ .count (.map ((escalate_acts hU hc₂ _ _).mono ?_))
      exact fun _ _ _ _ _ _ _ _ h => absurd h hover
    · rw [if_neg hturns]
      by_cases haccepting : ((c₂.table r.decision).row place).accepting = true
      · rw [if_pos haccepting]
        refine .seq hc₂ .count ?_
        unfold conclude
        split
        · refine reportAmbiguity_acts hc₂ (.map ((answer_acts hc₂ _ _).mono ?_))
          exact fun _ _ _ _ _ _ _ _ h => absurd h hover
        · refine .seq (a := ⟨⟩) hc₂ (.pure ⟨rfl, rfl, rfl, rfl⟩) (.map ((answer_acts hc₂ _ _).mono ?_))
          exact fun _ _ _ _ _ _ _ _ h => absurd h hover
      · rw [if_neg haccepting]
        refine .pure hc₂ fun p' hp' => ?_
        obtain rfl := Sum.inl.inj (Except.ok.inj hp')
        have hfresh := hcomes.shows.holds.accepting_iff.mp (Bool.eq_false_of_not_eq_true haccepting)
        exact ⟨rfl, rfl, ⟨hp.met.reach _, hcomes.shows, hfresh⟩,
          (hcomes.found.fresh_iff hcomes.shows.holds.proper).mp hfresh⟩

/-- **An attempt does what is told of it,** whatever the cache holds, unless the host changes it. -/
theorem attempt_acts (hU : r.Under R F asked₀ words) (hc : c.Faithful R) :
    Acts R r.attempt c fun res reports asked _ => r.Sure R →
      r.Told F asked₀ (R.start r.decision) r.stream ⟨res, reports, asked⟩ := by
  unfold attempt
  refine .get_bind fun s hs => ?_
  have hlt : r.decision < c.tables.size := by
    rw [hc.size_eq, ← hU.net_eq]
    exact (Array.getElem?_eq_some_iff.mp hU.entry_eq).1
  rw [hs]
  dsimp only
  rw [if_neg (Nat.not_le.mpr hlt)]
  refine (startPlace_acts hU hc).anyhow.bind ?_ fun _ _ _ _ ⟨_, he, _⟩ => nomatch he
  rintro place _ _ c₁ hc₁ _ ⟨place', hplace, rfl, rfl, _, hstands⟩
  obtain rfl := Except.ok.inj hplace
  refine Acts.loop (fun p c' => Point.Holds r R F asked₀ p c')
    (fun p => r.settings.maxLookahead + 1 - p.read) ?_ hc₁
    ⟨⟨_, hstands, fun _ => id⟩, Nat.zero_le _⟩ (Nat.lt_of_le_of_lt (Nat.sub_le _ _) hU.steps)
  intro p c' hc' hp
  refine (step_acts hU hc' hp).mono ?_
  rintro (e | (p' | alt)) reports asked c'' _ _ h
  · exact h
  · obtain ⟨hreports, hasked, hp', hread⟩ := h
    refine ⟨hreports, hasked, hp', ?_⟩
    have hread' := hp.read_le
    omega
  · exact h

end Request

end AdaptiveLL
