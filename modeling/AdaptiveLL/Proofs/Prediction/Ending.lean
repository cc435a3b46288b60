import AdaptiveLL.Proofs.Prediction.Kept
import AdaptiveLL.Proofs.Prediction.Parts
import AdaptiveLL.Proofs.Prediction.Transparency

/-!
# Predictions end

Every prediction comes to an end, whatever the guards of the network, whatever earlier predictions
have left in the cache, and even where rules re-enter themselves: closures cut left recursion off,
and no more symbols are looked at than the settings allow. All they ask of the cache is that it is
kept, and they keep it.

What is said here of the two loops of a prediction holds for any number of rounds, and it is said of
two numbers at once: a prediction comes to the same with either of them if its loops do.
-/

namespace AdaptiveLL

/-! ## Predictions with few rounds

A prediction looks at its symbols in two loops, one along the table and one with the call stack.
`Session.predictWithin rounds` makes the same prediction, but neither loop may make more than
`rounds` rounds: where one of them would, there is no result. So a result says that the loops ended
within these rounds. With as many rounds as there is fuel it is the prediction itself.
-/

namespace Request

/-- A prediction with the call stack of at most `rounds` rounds. -/
def predictFullWithin (r : Request) (rounds : Nat) (start : ConfigSet) : Prediction Nat :=
  Run.loop r.fullStep rounds ⟨start, r.stream, 0⟩ >>= r.finishFull

/-- The part of a prediction at a conflict that begins when it is known which alternatives pass. -/
def turnWithin (r : Request) (rounds : Nat) (row : Row) (stream : TokenStream) (passing : AltSet) :
    Prediction Nat :=
  match passing.toList with
  | [alt] => pure alt
  | _ =>
    Prediction.count r.toQuestion (fun c => { c with fallbacks := c.fallbacks + 1 }) >>= fun _ =>
    (modify (·.deliver (r.report .fullContext stream.index
      (row.configs.conflicting.getD row.configs.alts) false noAlternative)) :
        Prediction PUnit) >>= fun _ =>
    Prediction.grow r.toQuestion (StackGraph.ofCallers r.net r.callers) >>= fun stack =>
    Prediction.probe r.toQuestion (r.startSet true stack) >>= r.predictFullWithin rounds

/-- What is done at a row whose alternatives conflict. -/
def escalateWithin (r : Request) (rounds : Nat) (row : Row) (stream : TokenStream) :
    Prediction Nat :=
  (match row.choices with
    | some choices => r.passing choices
    | none => pure .empty) >>= r.turnWithin rounds row stream

/-- One symbol of a prediction along the table. -/
def stepWithin (r : Request) (rounds : Nat) (p : Point) : Prediction (Point ⊕ Nat) :=
  r.checkLookahead (p.read + 1) >>= fun _ =>
  r.next p.place (p.stream.lookAhead 1) >>= fun next =>
  match next with
  | none =>
    Prediction.count r.toQuestion (·.recordSll (p.read + 1)) >>= fun _ =>
    Prediction.table r.toQuestion >>= fun t =>
    .inr <$> r.deadEnd (t.row p.place).configs p.stream
  | some place => Prediction.table r.toQuestion >>= fun t =>
    if (t.row place).needsContext && r.settings.mode != .sll then
      Prediction.count r.toQuestion (·.recordSll (p.read + 1)) >>= fun _ =>
      .inr <$> r.escalateWithin rounds (t.row place) p.stream
    else if (t.row place).accepting then
      Prediction.count r.toQuestion (·.recordSll (p.read + 1)) >>= fun _ =>
      r.conclude (t.row place) p.stream
    else pure (.inl ⟨place, p.stream.consume, p.read + 1⟩)

/-- Makes the prediction in the cache as it is. -/
def attemptWithin (r : Request) (rounds : Nat) : Prediction Nat := do
  let count := (← get).cache.tables.size
  if count ≤ r.decision then throw (.unknownDecision r.decision count)
  let place ← r.startPlace
  Run.loop (r.stepWithin rounds) rounds ⟨place, r.stream, 0⟩

variable (r : Request) (row : Row) (stream : TokenStream)

theorem predictFullWithin_fuel : r.predictFullWithin r.fuel = r.predictFull :=
  funext fun start => (r.predictFull_eq start).symm

theorem turnWithin_fuel : r.turnWithin r.fuel row stream = r.turn row stream := by
  have hfull := r.predictFullWithin_fuel
  funext passing
  unfold turnWithin turn
  -- The two definitions differ in the loop alone, so they agree case by case once it is one name.
  generalize r.predictFullWithin r.fuel = full at hfull ⊢
  subst hfull
  rcases passing.toList with _ | ⟨alt, _ | _⟩ <;> rfl

theorem escalateWithin_fuel : r.escalateWithin r.fuel row stream = r.escalate row stream := by
  rw [escalate_eq, ← turnWithin_fuel]
  rfl

theorem stepWithin_fuel : r.stepWithin r.fuel = r.step := by
  funext p
  rw [step_eq]
  simp only [← escalateWithin_fuel]
  rfl

theorem attemptWithin_fuel : r.attemptWithin r.fuel = r.attempt := by
  unfold attemptWithin attempt
  rw [stepWithin_fuel]

end Request

namespace Session

/-- What follows a first attempt: a second one on a renewed cache, if the first one met a full
graph. -/
def againWithin (r : Request) (rounds seen : Nat) (first : Except PredictionError Nat) :
    Prediction (Except PredictionError Nat) :=
  match first with
  | .error e =>
    if e.isFullGraph then
      (modify (·.renew seen) : Prediction PUnit) >>= fun _ => (r.attemptWithin rounds).outcome
    else pure first
  | .ok _ => pure first

/-- **Predicts an alternative,** as `Session.predict` does, unless one of the loops of the
prediction would make more than `rounds` rounds. -/
def predictWithin (rounds : Nat) (settings : PredictionSettings) (host : Oracle) (fuel : Nat)
    (stream : TokenStream) (decision : Nat) (callers : List StateId) : Prediction Nat := do
  modify (·.count decision fun c => { c with invocations := c.invocations + 1 })
  let r := (← get).request settings host fuel stream decision callers
  let seen := (← get).cache.generation
  let first ← (r.attemptWithin rounds).outcome
  let result ← againWithin r rounds seen first
  close decision stream result

/-- **With as many rounds as there is fuel** it is the prediction itself. -/
theorem predictWithin_fuel (settings : PredictionSettings) (host : Oracle) (fuel : Nat)
    (stream : TokenStream) (decision : Nat) (callers : List StateId) :
    predictWithin fuel settings host fuel stream decision callers =
      predict settings host fuel stream decision callers := by
  have hagain : ∀ (r : Request) (seen : Nat) (first : Except PredictionError Nat),
      againWithin r r.fuel seen first = again r seen first := by
    intro r seen first
    have hattempt := r.attemptWithin_fuel
    unfold againWithin again
    generalize r.attemptWithin r.fuel = attempt at hattempt ⊢
    subst hattempt
    cases first <;> rfl
  rw [predict_eq]
  refine bind_congr fun _ => bind_congr fun s => bind_congr fun s' => ?_
  rw [← Request.attemptWithin_fuel]
  exact bind_congr fun first => congrArg (· >>= close decision stream) (hagain _ _ first)

end Session

/-! ## Requests with ample fuel -/

open StackGraph (Grows Grown Sound)

namespace Request

open Prediction (EndAlike Ends)

variable {r : Request} {net : Network} {nodes n rounds rounds' : Nat} {c : Cache}

/-- The request comes with enough fuel, whatever the network. -/
structure Ample (r : Request) (net : Network) (nodes : Nat) : Prop where
  net_eq : r.net = net
  consistent : r.net.Consistent
  word : r.net.states.size ≤ emptyReturn
  entry_eq : r.net.decisions[r.decision]? = some r.entry
  fuel : sweepBound emptyReturn (max Limits.configsPerSet (r.net.tags r.entry).card) nodes < r.fuel
  steps : r.settings.maxLookahead + 1 < r.fuel

theorem Ample.lt_size (hr : r.Ample net nodes) (hc : c.Kept net nodes) :
    r.decision < c.tables.size := by
  rw [hc.size_eq, ← hr.net_eq]
  exact (Array.getElem?_eq_some_iff.mp hr.entry_eq).1

theorem Ample.start_eq (hr : r.Ample net nodes) (hc : c.Kept net nodes) :
    (c.table r.decision).start = r.entry :=
  hc.start_eq _ _ (hr.net_eq ▸ hr.entry_eq)

/-- What a part of a prediction may fail with that looks at no more than `n` symbols. -/
abbrev Permits (r : Request) (n : Nat) : PredictionError → Prop := r.settings.Permits n

/-! ## Symbols -/

private theorem reach_ends (hr : r.Ample net nodes) (hc : c.Kept net nodes) {full : Bool}
    {s : ConfigSet} {v : Symbol} (htidy : s.Tidy c.graph) (hfull : s.fullContext = full) :
    Ends net nodes (r.Permits n) (Prediction.probe r.toQuestion (r.reach v full s)) c
      fun next c' => ∀ s', next = some s' → ∃ T, Question.Stage full T s' c'.graph ∧
        r.net.Leaves full v (s.threads c.graph) T := by
  have hfuel : sweepBound emptyReturn Limits.configsPerSet c.graph.maxNodes < r.fuel :=
    hc.nodes_eq.symm ▸ (sweepBound_mono (le_max_left _ _)).trans_lt hr.fuel
  have hstays (past : List Callback) : Probe.Ends false (r.reach v full s)
      { graph := c.graph, past } (fun next g' => ∀ s', next = some s' →
        ∃ T, Question.Stage full T s' g' ∧ r.net.Leaves full v (s.threads c.graph) T)
      Exceeded.Ordinary :=
    Question.reach_stays hr.consistent hr.word hc.sound hfuel htidy hfull
  exact .probe hc hstays fun _ => r.settings.permits_ordinary n

private theorem startSet_fuel (hr : r.Ample net nodes) (hc : c.Kept net nodes) :
    sweepBound emptyReturn (r.net.tags r.entry).card c.graph.maxNodes < r.fuel :=
  hc.nodes_eq.symm ▸ (sweepBound_mono (le_max_right _ _)).trans_lt hr.fuel

private theorem startSet_ends (hr : r.Ample net nodes) (hc : c.Kept net nodes) :
    Ends net nodes (r.Permits n)
      (Prediction.probe r.toQuestion (r.startSet false StackId.empty)) c fun s c' =>
        Question.Stage false (s.threads c'.graph) s c'.graph := by
  have hsound (past : List Callback) : ({ graph := c.graph, past } : Trail).graph.Sound := hc.sound
  exact (EndAlike.probe hc (fun past => Question.startSet_stays hr.consistent hr.word (hsound past)
    hc.sound.empty_lt (fun _ => .empty) (startSet_fuel hr hc)) fun _ => r.settings.permits_ordinary n).mono
    fun _ _ _ _ hs => hs.1

/-- **The set with which a prediction with the call stack begins:** nothing but what the alternatives
lead to under the stack of the callers. -/
structure Opened (r : Request) (s : ConfigSet) (g : StackGraph) : Prop where
  stage : Question.Stage true (s.threads g) s g
  proper : Proper (s.threads g)
  within : s.threads g ⊆
    r.net.closureOf { full := true } (r.net.startsOf r.entry (r.net.followsOf r.callers))

private theorem startSet_opens (hr : r.Ample net nodes) (hc : c.Kept net nodes) {stack : StackId}
    (hlt : stack < c.graph.size) (hset : c.graph.stackSet stack = {r.net.followsOf r.callers}) :
    Ends net nodes (r.Permits n) (Prediction.probe r.toQuestion (r.startSet true stack)) c
      fun s c' => r.Opened s c'.graph := by
  have hopen : (!true) = true → c.graph.Open stack := nofun
  have hsound (past : List Callback) : ({ graph := c.graph, past } : Trail).graph.Sound := hc.sound
  have hstays (past : List Callback) := Question.startSet_stays (q := r.toQuestion) hr.consistent
    hr.word (hsound past) hlt hopen (startSet_fuel hr hc)
  have hconfined (past : List Callback) := Question.startSet_confined (q := r.toQuestion)
    hr.consistent hr.word (hsound past) hlt hset (startSet_fuel hr hc)
  exact (EndAlike.probe hc (fun past => (hstays past).both (hconfined past))
    fun _ => r.settings.permits_ordinary n).mono
      fun s c' _ _ ⟨⟨hs, htags⟩, hsub⟩ => ⟨hs, Question.proper_of_tags htags, hsub⟩

private theorem checkLookahead_ends (hc : c.Kept net nodes) {k : Nat} (hk : k ≤ n) :
    Ends net nodes (r.Permits n) (r.checkLookahead k) c fun _ c' =>
      c' = c ∧ k ≤ r.settings.maxLookahead := by
  unfold checkLookahead
  split
  · next hlt => exact .throw hc fun _ _ _ => Nat.lt_of_lt_of_le hlt hk
  · exact .pure hc ⟨rfl, by omega⟩

/-! ## Along the table -/

/-- The table of the decision may be replaced by one that is kept. -/
private theorem setTable_ends {α : Type} {f : Unit → Prediction α} {P : α → Cache → Prop}
    (hr : r.Ample net nodes) (hc : c.Kept net nodes) {t : Table} (ht : t.Kept c.graph)
    (hstart : t.start = r.entry)
    (hf : ∀ c', c'.Kept net nodes → c'.graph = c.graph → c'.table r.decision = t →
      Ends net nodes (r.Permits n) (f ⟨⟩) c' P) :
    Ends net nodes (r.Permits n) (Prediction.setTable r.toQuestion t >>= f) c P := by
  refine fun s hs => ⟨rfl, ?_⟩
  obtain ⟨_, s', hrun, _, _, -, -, rfl, -, -, hcache⟩ :=
    Prediction.Does.setTable (q := r.toQuestion) (t := t) s hs
  have hkept : s'.cache.Kept net nodes :=
    hcache ▸ hc.setTable (hr.lt_size hc) ht (hstart.trans (hr.start_eq hc).symm)
  have hgraph : s'.cache.graph = c.graph := by rw [hcache]; rfl
  have htable : s'.cache.table r.decision = t := by
    rw [hcache, Cache.table_setTable (hr.lt_size hc), if_pos rfl]
  obtain ⟨res, s'', hrun', hkept', hgrown, hP⟩ := (hf _ hkept hgraph htable s' rfl).2
  refine .of_eq (r := res) (t := s'') ?_ ⟨hkept', hgraph ▸ hgrown, hP⟩
  rw [Run.from?_bind, hrun]
  exact hrun'

/-- **The row of the set that a symbol leads to is kept,** and at the end of the input it
answers. -/
private theorem targetRow_ends (hr : r.Ample net nodes) (hc : c.Kept net nodes) {s : ConfigSet}
    {v : Symbol} (hs : s.Kept c.graph) :
    Ends net nodes (r.Permits n) (r.targetRow s v) c fun row? c' => ∀ row, row? = some row →
      row.Kept c'.graph ∧ row.cells = [] ∧ (v = Symbol.eof → row.accepting = true) := by
  rw [targetRow_eq]
  refine (reach_ends hr hc hs.tidy hs.full_eq).bind fun next c₁ hc₁ _ hnext => ?_
  cases next with
  | none => exact .pure hc₁ fun _ h => nomatch h
  | some s' =>
    obtain ⟨T, hs', hleaves⟩ := hnext s' rfl
    have hstop : Ends net nodes (r.Permits n) (r.stopsAt s') c₁ fun ends _ =>
        v = Symbol.eof → ends = true ∨ s'.commonAlt ≠ noAlternative := by
      unfold stopsAt
      split
      · next hcommon => exact .pure hc₁ fun _ => .inr hcommon
      · refine (EndAlike.probe hc₁ (F := Exceeded.Ordinary)
          (fun _ => .grow ((endsPrediction_grows hc₁.sound hs').failing fun _ => .inl))
          fun _ => r.settings.permits_ordinary n).mono fun ends _ _ _ hends heof => .inl ?_
        exact hends.mpr (.inl (hleaves.stopped heof))
    refine hstop.bind fun ends c₂ hc₂ hgrown₂ hends => .pure hc₂ fun row hrow => ?_
    rw [← Option.some.inj hrow]
    obtain ⟨hkept, hcells, haccepting⟩ :=
      Row.kept_classify (hs'.grown hc₁.sound hgrown₂) ends r.altCount
    exact ⟨hkept, hcells, fun heof => haccepting (hends heof)⟩

private theorem install_ends (hr : r.Ample net nodes) (hc : c.Kept net nodes) {row : Row}
    (hrow : row.Kept c.graph) (hcells : row.cells = []) :
    Ends net nodes (r.Permits n) (Prediction.install r.toQuestion row) c fun place c' =>
      place.Kept c'.graph ∧ ((c'.table r.decision).row place).accepting = row.accepting := by
  obtain ⟨hplace, hkept, hstart, haccepting⟩ := (hc.tables r.decision).install hrow hcells
  rw [install_eq]
  refine .seq hc .table (setTable_ends hr hc hkept (hstart.trans (hr.start_eq hc)) ?_)
  intro c' hc' hgraph htable
  rw [← hgraph] at hplace
  rw [← htable] at haccepting
  have hdone : Ends net nodes (r.Permits n) (pure ((c.table r.decision).install row).1) c'
      fun place c'' => place.Kept c''.graph ∧
        ((c''.table r.decision).row place).accepting = row.accepting :=
    .pure hc' ⟨hplace, haccepting⟩
  cases ((c.table r.decision).install row).2.1 with
  | none => exact .seq (a := ⟨⟩) hc' (.pure ⟨rfl, rfl, rfl, rfl⟩) hdone
  | some event => exact .seq hc' .note hdone

variable {p : Place} {v : Symbol}

/-- Where a symbol leads to: a kept place, which answers at the end of the input. -/
private def Leads (r : Request) (v : Symbol) (next : Option Place) (c : Cache) : Prop :=
  ∀ p', next = some p' → p'.Kept c.graph ∧
    (v = Symbol.eof → ((c.table r.decision).row p').accepting = true)

private theorem target_ends (hr : r.Ample net nodes) (hc : c.Kept net nodes) (hp : p.Kept c.graph) :
    Ends net nodes (r.Permits n) (r.target p v) c (Leads r v) := by
  unfold target
  refine .seq hc .table ?_
  refine (targetRow_ends hr hc ((hc.tables _).row hp).configs).bind
    fun row? c₁ hc₁ hgrown₁ hrow => ?_
  cases row? with
  | none =>
    -- A dead end is written to the table if the cache is in use.
    by_cases hcache : r.settings.useCache = true
    · rw [if_pos hcache]
      obtain ⟨hkept, hstart⟩ :=
        ((hc.tables r.decision).grown hc.sound hgrown₁).write p v .dead nofun
      exact setTable_ends hr hc₁ hkept (hstart.trans (hr.start_eq hc)) fun c₂ hc₂ _ _ =>
        .pure hc₂ fun _ h => nomatch h
    · rw [if_neg hcache]
      exact .pure hc₁ fun _ h => nomatch h
  | some row =>
    obtain ⟨hkept, hcells, haccepting⟩ := hrow row rfl
    by_cases hcache : r.settings.useCache = true
    · rw [hcache]
      refine (install_ends hr hc₁ hkept hcells).bind
        fun place c₂ hc₂ _ ⟨hplace, hanswers⟩ => .seq hc₂ .table ?_
      -- The row found in the table may be an older one. It answers if the new one does.
      have hends : v = Symbol.eof → ((c₂.table r.decision).row place).accepting = true :=
        fun heof => hanswers.trans (haccepting heof)
      obtain ⟨hkept, hstart⟩ := (hc₂.tables r.decision).link p v place hends
      refine setTable_ends hr hc₂ hkept (hstart.trans (hr.start_eq hc₂)) fun c₃ hc₃ hgraph htable =>
        .pure hc₃ fun p' hp' => ?_
      rw [hgraph, htable, ← Option.some.inj hp']
      exact ⟨hplace, fun heof => Table.accepting_link _ p v place place (hends heof)⟩
    · rw [Bool.eq_false_of_not_eq_true hcache]
      exact .pure hc₁ fun p' hp' => Option.some.inj hp' ▸ ⟨⟨hkept, hcells⟩, haccepting⟩

private theorem next_ends (hr : r.Ample net nodes) (hc : c.Kept net nodes) (hp : p.Kept c.graph) :
    Ends net nodes (r.Permits n) (r.next p v) c (Leads r v) := by
  rw [next_eq]
  refine .seq hc .table ?_
  cases hcell : (if r.settings.useCache then (c.table r.decision).cell? p v else none) with
  | none =>
    refine .seq hc .count (.seq (a := ⟨⟩) hc ?_ (target_ends hr hc hp))
    split
    · exact .note
    · exact .pure ⟨rfl, rfl, rfl, rfl⟩
  | some cell =>
    refine .seq hc .count ?_
    cases cell with
    | dead => exact .pure hc fun _ h => nomatch h
    | row m =>
      refine .pure hc fun p' hp' => Option.some.inj hp' ▸ ⟨trivial, ?_⟩
      rintro rfl
      split at hcell
      · exact (hc.tables _).accepting_of_cell hp hcell
      · cases hcell

/-! ## Answers -/

private theorem holds_still {g : Guard} : (Prediction.holds r.toQuestion g).Does c
    fun res _ _ c' => (∃ a, res = .ok a) ∧ c' = c :=
  Prediction.Does.holds.mono fun _ _ _ _ ⟨hpasses, _, hsame, _⟩ => ⟨hpasses, hsame⟩

private theorem passing_ends (hc : c.Kept net nodes) (choices : List Choice) :
    Ends net nodes (r.Permits n) (r.passing choices) c fun _ c' => c' = c := by
  have hdoes : (r.passing choices).Does c fun res _ _ c' =>
      (∃ A, res = .ok A ∧ True) ∧ c' = c :=
    (r.passing_does choices c).mono fun _ _ _ _ ⟨⟨votes, hvotes⟩, _, hsame, _⟩ =>
      ⟨⟨votes, hvotes, trivial⟩, hsame⟩
  exact (EndAlike.does hc hdoes).mono fun _ _ _ _ h => h.2

private theorem answer_ends (hc : c.Kept net nodes) (row : Row) (stream : TokenStream) :
    Ends net nodes (r.Permits n) (r.answer row stream) c fun _ _ => True := by
  unfold answer
  cases row.choices with
  | none => exact .pure hc trivial
  | some choices =>
    refine (passing_ends hc choices).bind fun votes c₁ hc₁ _ _ => ?_
    cases votes.min? with
    | none => exact .throw hc₁ nofun
    | some alt => exact .pure hc₁ trivial

private theorem partition_ends (hc : c.Kept net nodes) (cs : List Config) :
    Ends net nodes (r.Permits n) (r.partition cs) c fun _ c' => c' = c := by
  induction cs with
  | nil => exact .pure hc rfl
  | cons d cs ih =>
    have hrest : ∀ passes : Bool, Ends net nodes (r.Permits n) (r.partition cs >>= fun parts =>
        pure (if passes then (d :: parts.1, parts.2) else (parts.1, d :: parts.2))) c
          fun _ c' => c' = c :=
      fun passes => ih.bind fun _ _ hc' _ hsame => .pure hc' hsame
    unfold partition
    dsimp only
    split
    · exact hrest true
    · exact .still hc holds_still hrest

private theorem deadEnd_ends (hc : c.Kept net nodes) (s : ConfigSet) (stream : TokenStream) :
    Ends net nodes (r.Permits n) (r.deadEnd s stream) c fun _ _ => True := by
  unfold deadEnd
  split
  · exact .throw hc nofun
  · refine (partition_ends hc s.toList).bind fun parts c₁ hc₁ _ _ => .get_bind fun s₁ _ => ?_
    dsimp only
    split
    · exact .pure hc₁ trivial
    · exact .throw hc₁ nofun

private theorem delivers {report : Report} : Prediction.Does (modify (·.deliver report)) c
    fun res _ _ c' => (∃ a, res = .ok a) ∧ c' = c :=
  Prediction.Does.deliver.mono fun _ _ _ _ h => ⟨⟨_, h.1⟩, h.2.2.2⟩

private theorem reportAmbiguity_ends (hc : c.Kept net nodes) (stop : Nat) (alts : AltSet)
    (exact : Bool) (prediction : Nat) :
    Ends net nodes (r.Permits n) (r.reportAmbiguity stop alts exact prediction) c
      fun _ c' => c' = c := by
  unfold reportAmbiguity
  refine .seq hc .count ?_
  rw [← bind_pure (modify _)]
  exact .still hc delivers fun _ => .pure hc rfl

/-! ## With the call stack -/

/-- **A round with the call stack is followed by another one** if no verdict was passed. -/
structure FullPoint.Follows (r : Request) (p : FullPoint) (g : StackGraph) (p' : FullPoint)
    (g' : StackGraph) : Prop where
  read_eq : p'.read = p.read + 1
  read_le : p'.read ≤ r.settings.maxLookahead
  stream_eq : p'.stream = p.stream.consume
  open_eq : fullVerdict? r.settings.mode p'.configs = none
  leaves : ∃ T, Question.Stage true T p'.configs g' ∧
    r.net.Leaves true (p.stream.lookAhead 1) (p.configs.threads g) T

theorem fullStep_ends (hr : r.Ample net nodes) (hc : c.Kept net nodes) {p : FullPoint}
    (htidy : p.configs.Tidy c.graph) (hfull : p.configs.fullContext = true) (hread : p.read < n) :
    Ends net nodes (r.Permits n) (r.fullStep p) c fun next c' =>
      ∀ p', next = .inl p' → FullPoint.Follows r p c.graph p' c'.graph := by
  unfold fullStep
  refine (checkLookahead_ends hc hread).bind fun _ c₁ hc₁ _ ⟨hsame, hle⟩ => ?_
  subst hsame
  refine (reach_ends hr hc₁ htidy hfull).bind fun next c₂ hc₂ _ hnext => ?_
  cases next with
  | none => exact .seq hc₂ .count (.pure hc₂ fun _ h => nomatch h)
  | some s' =>
    dsimp only
    split
    · next hopen =>
      refine .pure hc₂ fun p' hp' => ?_
      rw [← Sum.inl.inj hp']
      exact ⟨rfl, hle, rfl, hopen, hnext s' rfl⟩
    · exact .pure hc₂ fun _ h => nomatch h

private theorem concludeFull_ends (hc : c.Kept net nodes) (e : FullEnd) :
    Ends net nodes (r.Permits n) (r.concludeFull e) c fun _ _ => True := by
  rw [concludeFull_eq]
  refine .seq hc .count ?_
  split
  · split
    · exact .seq hc .count (.still hc delivers fun _ => .pure hc trivial)
    · exact .pure hc trivial
  · exact (reportAmbiguity_ends hc _ _ _ _).bind fun _ c₁ hc₁ _ _ => .pure hc₁ trivial

theorem finishFull_ends (hc : c.Kept net nodes) (e : (ConfigSet × TokenStream) ⊕ FullEnd) :
    Ends net nodes (r.Permits n) (r.finishFull e) c fun _ _ => True := by
  cases e with
  | inl dead => exact deadEnd_ends hc dead.1 dead.2
  | inr e => exact concludeFull_ends hc e

private theorem turnWithin_alike (hr : r.Ample net nodes) (hc : c.Kept net nodes)
    (hfull : ∀ s c', c'.Kept net nodes → r.Opened s c'.graph → EndAlike net nodes (r.Permits n)
      (r.predictFullWithin rounds s) (r.predictFullWithin rounds' s) c' fun _ _ => True)
    (row : Row) (stream : TokenStream) (votes : AltSet) :
    EndAlike net nodes (r.Permits n) (r.turnWithin rounds row stream votes)
      (r.turnWithin rounds' row stream votes) c fun _ _ => True := by
  unfold turnWithin
  split
  · exact .pure hc trivial
  · refine .seq hc .count (.still hc delivers fun _ => ?_)
    -- Building the stack of the callers may meet a ceiling, but never that of the lookahead.
    have hcallers := (ofCallers_grows hr.consistent hr.word r.callers hc.sound).failing
      fun _ => Exceeded.Meets.ordinary
    refine (EndAlike.probe hc (F := Exceeded.Ordinary) (fun _ => .grow hcallers)
      fun _ => r.settings.permits_ordinary n).bind fun stack c₁ hc₁ _ ⟨hlt, hset⟩ => ?_
    exact (startSet_opens hr hc₁ hlt hset).bind fun s c₂ hc₂ _ hs => hfull s c₂ hc₂ hs

/-- **Escalations end alike** if the loops with the call stack do. -/
private theorem escalateWithin_alike (hr : r.Ample net nodes) (hc : c.Kept net nodes)
    (hfull : ∀ s c', c'.Kept net nodes → r.Opened s c'.graph → EndAlike net nodes (r.Permits n)
      (r.predictFullWithin rounds s) (r.predictFullWithin rounds' s) c' fun _ _ => True)
    (row : Row) (stream : TokenStream) :
    EndAlike net nodes (r.Permits n) (r.escalateWithin rounds row stream)
      (r.escalateWithin rounds' row stream) c fun _ _ => True := by
  unfold escalateWithin
  refine EndAlike.bind (Q := fun _ c' => c' = c) ?_ fun votes c₁ hc₁ _ _ =>
    turnWithin_alike hr hc₁ hfull row stream votes
  cases row.choices with
  | none => exact .pure hc rfl
  | some choices => exact passing_ends hc choices

/-! ## Attempts -/

/-- An answer ends the loop. -/
private theorem answered {m m' : Prediction Nat} {P : Point → Cache → Prop}
    (h : EndAlike net nodes (r.Permits n) m m' c fun _ _ => True) :
    EndAlike net nodes (r.Permits n) (Sum.inr <$> m) (Sum.inr <$> m') c
      fun next c' => ∀ p', next = .inl p' → P p' c' :=
  .map (h.mono fun _ _ _ _ _ p' hp' => by cases hp')

private theorem conclude_ends (hc : c.Kept net nodes) (row : Row) (stream : TokenStream)
    {P : Point → Cache → Prop} :
    Ends net nodes (r.Permits n) (r.conclude row stream) c
      fun next c' => ∀ p', next = .inl p' → P p' c' := by
  unfold conclude
  have hreport : Ends net nodes (r.Permits n)
      (if row.needsContext && r.settings.reportSllConflicts then
        r.reportAmbiguity stream.index (row.configs.conflicting.getD .empty) false row.prediction
      else pure ⟨⟩) c fun _ c' => c' = c := by
    split
    · exact reportAmbiguity_ends hc _ _ _ _
    · exact .pure hc rfl
  exact hreport.bind fun _ c₁ hc₁ _ _ => answered (answer_ends hc₁ row stream)

/-- **A round along the table is followed by another one** only if the input goes on. -/
structure Point.Follows (r : Request) (p p' : Point) (g' : StackGraph) : Prop where
  read_eq : p'.read = p.read + 1
  read_le : p'.read ≤ r.settings.maxLookahead
  stream_eq : p'.stream = p.stream.consume
  going : p.stream.lookAhead 1 ≠ Symbol.eof
  place : p'.place.Kept g'

/-- **Rounds along the table end alike** if the loops with the call stack do. -/
theorem stepWithin_alike (hr : r.Ample net nodes) (hc : c.Kept net nodes)
    (hfull : ∀ s c', c'.Kept net nodes → r.Opened s c'.graph → EndAlike net nodes (r.Permits n)
      (r.predictFullWithin rounds s) (r.predictFullWithin rounds' s) c' fun _ _ => True)
    {p : Point} (hp : p.place.Kept c.graph) (hread : p.read < n) :
    EndAlike net nodes (r.Permits n) (r.stepWithin rounds p) (r.stepWithin rounds' p) c
      fun next c' => ∀ p', next = .inl p' → p.Follows r p' c'.graph := by
  unfold stepWithin
  refine (checkLookahead_ends hc hread).bind fun _ c₁ hc₁ _ ⟨hsame, hle⟩ => ?_
  subst hsame
  refine (next_ends hr hc₁ hp).bind fun next c₂ hc₂ _ hnext => ?_
  cases next with
  | none => exact .seq hc₂ .count (.seq hc₂ .table (answered (deadEnd_ends hc₂ _ _)))
  | some place =>
    obtain ⟨hplace, hanswers⟩ := hnext place rfl
    refine .seq hc₂ .table ?_
    split
    · exact .seq hc₂ .count (answered (escalateWithin_alike hr hc₂ hfull _ _))
    · split
      · exact .seq hc₂ .count (conclude_ends hc₂ _ _)
      · next hopen =>
        refine .pure hc₂ fun p' hp' => ?_
        rw [← Sum.inl.inj hp']
        exact ⟨rfl, hle, rfl, fun heof => hopen (hanswers heof), hplace⟩

private theorem startPlace_ends (hr : r.Ample net nodes) (hc : c.Kept net nodes) :
    Ends net nodes (r.Permits n) r.startPlace c fun place c' => place.Kept c'.graph := by
  unfold startPlace
  refine .seq hc .table ?_
  cases (if r.settings.useCache then (c.table r.decision).startRow else none) with
  | some n => exact .pure hc trivial
  | none =>
    refine (startSet_ends hr hc).bind fun s c₁ hc₁ _ hs => ?_
    have hkept := Row.kept_open hs
    by_cases hcache : r.settings.useCache = true
    · rw [hcache]
      refine (install_ends hr hc₁ hkept rfl).bind fun place c₂ hc₂ _ ⟨hplace, _⟩ =>
        .seq hc₂ .table ?_
      obtain ⟨hplace', hkept, hstart⟩ := (hc₂.tables r.decision).setStart hplace
      exact setTable_ends hr hc₂ hkept (hstart.trans (hr.start_eq hc₂)) fun c₃ hc₃ hgraph _ =>
        .pure hc₃ (hgraph ▸ hplace')
    · rw [Bool.eq_false_of_not_eq_true hcache]
      exact .pure hc₁ ⟨hkept, rfl⟩

/-- **Attempts end alike** if their loops do. There may be no such decision. -/
theorem attemptWithin_alike (hc : c.Kept net nodes)
    (hr : ∀ entry, net.decisions[r.decision]? = some entry → r.Ample net nodes)
    (hloop : r.Ample net nodes → ∀ place c', c'.Kept net nodes → place.Kept c'.graph →
      EndAlike net nodes (r.Permits n) (Run.loop (r.stepWithin rounds) rounds ⟨place, r.stream, 0⟩)
        (Run.loop (r.stepWithin rounds') rounds' ⟨place, r.stream, 0⟩) c' fun _ _ => True) :
    EndAlike net nodes (r.Permits n) (r.attemptWithin rounds) (r.attemptWithin rounds') c
      fun _ _ => True := by
  unfold attemptWithin
  refine .get_bind fun s hs => ?_
  simp only [hs]
  split
  · exact .throw hc nofun
  · next hknown =>
    rw [hc.size_eq, Nat.not_le] at hknown
    -- The decision is one of the network, so the request has all it takes.
    have hample := hr _ (Array.getElem?_eq_getElem hknown)
    exact (startPlace_ends hample hc).bind fun place c₁ hc₁ _ hplace =>
      hloop hample place c₁ hc₁ hplace

/-! ## With as many symbols as the settings allow -/

private theorem predictFull_ends (hr : r.Ample net nodes) (hc : c.Kept net nodes) {s : ConfigSet}
    (hs : r.Opened s c.graph) :
    Ends net nodes (r.Permits (r.settings.maxLookahead + 1)) (r.predictFullWithin r.fuel s) c
      fun _ _ => True := by
  have hfuel : r.settings.maxLookahead + 1 - 0 < r.fuel := hr.steps
  refine (EndAlike.loop (fun p c => p.configs.Tidy c.graph ∧ p.configs.fullContext = true ∧
    p.read ≤ r.settings.maxLookahead) (fun p => r.settings.maxLookahead + 1 - p.read) ?_ hc
    ⟨hs.stage.tidy, hs.stage.full_eq, Nat.zero_le _⟩ hfuel hfuel).bind
      fun last c₁ hc₁ _ _ => finishFull_ends hc₁ last
  rintro p c' hc' ⟨htidy, hfull, hread⟩
  refine (fullStep_ends hr hc' htidy hfull (Nat.lt_succ_of_le hread)).mono
    fun next c'' _ _ hnext p' hp' => ?_
  obtain ⟨hread', hle, -, -, T, hs', -⟩ := hnext p' hp'
  exact ⟨⟨hs'.tidy, hs'.full_eq, hle⟩, by omega⟩

/-- **An attempt ends,** and keeps the cache. -/
private theorem attempt_ends (hc : c.Kept net nodes)
    (hr : ∀ entry, net.decisions[r.decision]? = some entry → r.Ample net nodes) :
    Ends net nodes (r.Permits (r.settings.maxLookahead + 1)) (r.attemptWithin r.fuel) c
      fun _ _ => True := by
  refine attemptWithin_alike hc hr fun hr place c₁ hc₁ hplace => ?_
  have hfuel : r.settings.maxLookahead + 1 - 0 < r.fuel := hr.steps
  refine .loop (fun p c => p.place.Kept c.graph ∧ p.read ≤ r.settings.maxLookahead)
    (fun p => r.settings.maxLookahead + 1 - p.read) ?_ hc₁ ⟨hplace, Nat.zero_le _⟩ hfuel hfuel
  rintro p c' hc' ⟨hp, hread⟩
  refine (stepWithin_alike hr hc' (fun s c₂ hc₂ hs => predictFull_ends hr hc₂ hs) hp
    (Nat.lt_succ_of_le hread)).mono fun next c'' _ _ hnext p' hp' => ?_
  obtain ⟨hread', hle, -, -, hp'⟩ := hnext p' hp'
  exact ⟨⟨hp', hle⟩, by omega⟩

end Request

/-! ## Predictions in a session -/

namespace Session

variable {net : Network} {nodes n rounds rounds' : Nat} {settings : PredictionSettings}
  {fuel decision : Nat}

/-- A prediction with enough fuel begins with an ample request. -/
private theorem request_ample (hnet : net.Consistent) (hword : net.states.size ≤ emptyReturn)
    {s : Session} (hc : s.cache.Kept net nodes) {entry : StateId}
    (hd : net.decisions[decision]? = some entry) (hfuel : net.ample nodes settings entry ≤ fuel)
    (host : Oracle) (stream : TokenStream) (callers : List StateId) :
    (s.request settings host fuel stream decision callers).Ample net nodes := by
  obtain rfl : s.cache.net = net := hc.net_eq
  obtain rfl : (s.cache.table decision).start = entry := hc.start_eq decision entry hd
  unfold Network.ample at hfuel
  refine ⟨rfl, hnet, hword, hd, ?_, ?_⟩
  · change sweepBound emptyReturn (max Limits.configsPerSet
      (s.cache.net.tags (s.cache.table decision).start).card) nodes < fuel
    omega
  · change settings.maxLookahead + 1 < fuel
    omega

/-- **Predictions end alike** if their attempts do, whatever is predicted. -/
theorem predictWithin_alike (hnet : net.Consistent) (hparser : net.isLexer = false)
    (hword : net.states.size ≤ emptyReturn) {s : Session} (hc : s.cache.Kept net nodes)
    (hfuel : ∀ entry, net.decisions[decision]? = some entry → net.ample nodes settings entry ≤ fuel)
    (host : Oracle) (stream : TokenStream) (callers : List StateId)
    (hattempt : ∀ (s' : Session) (r : Request),
      r = s'.request settings host fuel stream decision callers →
      (∀ entry, net.decisions[decision]? = some entry → r.Ample net nodes) →
      ∀ c, c.Kept net nodes → Prediction.EndAlike net nodes (settings.Permits n)
        (r.attemptWithin rounds) (r.attemptWithin rounds') c fun _ _ => True) :
    (predictWithin rounds settings host fuel stream decision callers).Alike
      (predictWithin rounds' settings host fuel stream decision callers) s fun res s' =>
        s'.cache.Kept net nodes ∧ ∀ e, res = .error e → settings.Permits n e := by
  unfold predictWithin
  refine .modify_bind (.get_bind (.get_bind ?_))
  generalize hcounted : s.count decision (fun c => { c with invocations := c.invocations + 1 }) = s₁
  have hs₁ : s₁.cache = s.cache := hcounted ▸ rfl
  have hc₁ : s₁.cache.Kept net nodes := hs₁.symm ▸ hc
  have hr := hattempt s₁ _ rfl fun entry hd =>
    request_ample hnet hword hc₁ hd (hfuel entry hd) host stream callers
  -- Both attempts are the same part of a prediction, on caches that are kept.
  have houtcome : ∀ s₂ : Session, s₂.cache.Kept net nodes →
      ((s₁.request settings host fuel stream decision callers).attemptWithin rounds).outcome.Alike
        ((s₁.request settings host fuel stream decision callers).attemptWithin rounds').outcome s₂
        fun res s₃ => ∃ first, res = .ok first ∧ s₃.cache.Kept net nodes ∧
          ∀ e, first = .error e → settings.Permits n e := fun s₂ hc₂ =>
    .outcome ((hr _ hc₂ s₂ rfl).mono fun first _ ⟨hkept, _, _, hE⟩ => ⟨first, rfl, hkept, hE⟩)
  refine (houtcome s₁ hc₁).bind ?_ fun _ _ ⟨_, h, _⟩ => nomatch h
  rintro first s₂ ⟨_, hfirst, hc₂, hE⟩
  obtain rfl := Except.ok.inj hfirst
  refine Run.Alike.bind (Q := fun res s₃ => ∃ result, res = .ok result ∧ s₃.cache.Kept net nodes ∧
    ∀ e, result = .error e → settings.Permits n e) ?_ ?_ fun _ _ ⟨_, h, _⟩ => nomatch h
  · unfold againWithin
    cases first with
    | ok alt => exact .refl (.pure ⟨_, rfl, hc₂, nofun⟩)
    | error e =>
      dsimp only
      split
      -- The second attempt may begin on an empty cache, which is kept as well.
      · have hrenewed : (s₂.renew s₁.cache.generation).cache.Kept net nodes := by
          unfold renew Cache.renew
          split
          · next heq =>
            split at heq
            · obtain ⟨rfl, -⟩ := Prod.mk.inj (Option.some.inj heq)
              exact hc₂.restart hparser
            · cases heq
          · exact hc₂
        exact .modify_bind (houtcome _ hrenewed)
      · exact .refl (.pure ⟨_, rfl, hc₂, hE⟩)
  · rintro result s₃ ⟨_, hresult, hc₃, hE⟩
    obtain rfl := Except.ok.inj hresult
    unfold close
    cases result with
    | ok alt => exact .refl (.pure ⟨hc₃, nofun⟩)
    | error e =>
      exact .refl (.modify_bind (.modify_bind (.throw ⟨hc₃, fun e' he' =>
        hE e' (congrArg _ (Except.error.inj he'))⟩)))

/-- **A prediction ends** and keeps the cache, whatever is predicted, on whatever tokens and for
whatever host. -/
theorem predict_ends (hnet : net.Consistent) (hparser : net.isLexer = false)
    (hword : net.states.size ≤ emptyReturn) {s : Session} (hc : s.cache.Kept net nodes)
    (hfuel : ∀ entry, net.decisions[decision]? = some entry → net.ample nodes settings entry ≤ fuel)
    (host : Oracle) (stream : TokenStream) (callers : List StateId) :
    (predict settings host fuel stream decision callers).Yields s fun _ s' =>
      s'.cache.Kept net nodes := by
  have hattempt : ∀ (s' : Session) (r : Request),
      r = s'.request settings host fuel stream decision callers →
      (∀ entry, net.decisions[decision]? = some entry → r.Ample net nodes) →
      ∀ c, c.Kept net nodes → Prediction.Ends net nodes
        (settings.Permits (settings.maxLookahead + 1)) (r.attemptWithin fuel) c fun _ _ => True := by
    rintro s' r rfl hr c hc'
    exact Request.attempt_ends hc' hr
  rw [← predictWithin_fuel]
  exact (predictWithin_alike hnet hparser hword hc hfuel host stream callers hattempt).2.mono
    fun _ _ h => h.1

end Session

/-- **Used caches are kept,** whatever they were used for. -/
theorem Cache.Used.kept {net : Network} (hnet : net.Consistent) (hparser : net.isLexer = false)
    (hword : net.states.size ≤ emptyReturn) {allowed : PredictionSettings → Oracle → Prop} {c : Cache}
    (h : Used net allowed c) : ∃ nodes, c.Kept net nodes := by
  induction h with
  | new maxNodes maxDepth => exact ⟨_, new_kept hparser maxNodes maxDepth⟩
  | clear _ ih =>
    obtain ⟨nodes, hc⟩ := ih
    exact ⟨nodes, hc.restart hparser⟩
  | @predict s s' settings host fuel stream decision callers result _ _ hrun ih =>
    obtain ⟨nodes, hc⟩ := ih
    -- With more fuel the prediction would have ended the same way.
    have hmore := Session.predict_within (le_max_left fuel
      (net.ample nodes settings (net.decisions[decision]?.getD 0))) stream decision callers s _ hrun
    refine ⟨nodes, (Session.predict_ends hnet hparser hword hc (fun entry hd => ?_) host stream
      callers).apply hmore⟩
    rw [hd]
    exact le_max_right _ _

end AdaptiveLL
