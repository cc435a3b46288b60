import AdaptiveLL.Proofs.Lookups.Caches
import AdaptiveLL.Proofs.Prediction.Deeds

/-!
# Lookups of predictions

A prediction looks up its table, the state at which its decision is taken, and what its closures and
steps look up. On a cache in range it finds all of this, the cache stays in range, and the
alternative that is predicted is one of the decision.
-/

namespace AdaptiveLL

/-- A strict part of a prediction. -/
abbrev StrictPrediction := Run (Stop PredictionError) Session

/-- **A view of sessions that the effort of predictions does not show in:** neither the journal and
the callbacks, nor how many evaluations were made and how many symbols were looked at with the call
stack. -/
class Session.Quiet {τ : Type} (view : Session → τ) : Prop where
  note : ∀ s e, view (Session.note s e) = view s
  callbacks : ∀ s l, view { s with callbacks := l } = view s
  evaluated : ∀ s d n, view (Session.count s d fun c =>
    { c with evaluations := c.evaluations + n }) = view s
  recorded : ∀ s d n, view (Session.count s d (·.recordLl n)) = view s

/-- **A view of sessions that no counter shows in** either. -/
class Session.Steady {τ : Type} (view : Session → τ) : Prop extends Session.Quiet view where
  count : ∀ s d g, view (Session.count s d g) = view s
  evaluated := fun s d _ => count s d _
  recorded := fun s d _ => count s d _

/-- The tables of the cache. -/
def Session.tables (s : Session) : Array Table := s.cache.tables

instance : Session.Steady Session.cache where
  note _ _ := rfl
  callbacks _ _ := rfl
  count _ _ _ := rfl

instance : Session.Steady Session.recorder where
  note _ _ := rfl
  callbacks _ _ := rfl
  count _ _ _ := rfl

instance : Session.Steady Session.tables where
  note _ _ := rfl
  callbacks _ _ := rfl
  count _ _ _ := rfl

/-- **A view of sessions that following configurations does not show in.** -/
class Session.Unmoved {τ : Type} (view : Session → τ) : Prop extends Session.Quiet view where
  absorb : ∀ s q t, view (Session.absorb s q t) = view s

instance : Session.Unmoved Session.tables where
  absorb s q t := by rw [Session.tables, (s.absorb_eq q t).1]; rfl

/-- **A view of sessions that the cache does not show in.** -/
class Session.Aside {τ : Type} (view : Session → τ) : Prop extends Session.Quiet view where
  cache : ∀ s c, view { s with cache := c } = view s

instance : Session.Aside Session.recorder := ⟨fun _ _ => rfl⟩

/-- Following configurations changes the cache alone, apart from effort. -/
instance {τ : Type} (view : Session → τ) [Session.Aside view] : Session.Unmoved view where
  absorb s q t := by
    have hnotes : ∀ (l : List Nat) (s : Session),
        view (l.foldl (fun s rule => s.note (Session.recursionEvent q rule)) s) = view s := by
      intro l
      induction l with
      | nil => exact fun _ => rfl
      | cons rule l ih => exact fun s => (ih _).trans (Session.Quiet.note s _)
    unfold Session.absorb
    dsimp only
    rw [hnotes]
    refine (Session.Quiet.evaluated _ _ _).trans ?_
    exact (Session.Quiet.callbacks { s with cache := { s.cache with graph := t.graph } } _).trans
      (Session.Aside.cache s _)

/-! ## Small parts -/

namespace Prediction

open Run (Untouched)

variable {α β : Type}

/-- What predictions keep. -/
abbrev scope (net : Network) : Scope Session := Cache.scope net Session.cache

def strictProbe (q : Question) (m : StrictProbe α) : StrictPrediction α :=
  Cache.strictProbe Session.cache Session.callbacks (Session.absorb · q ·) .exceeded m

def strictGrow (q : Question) (m : StrictGrowing α) : StrictPrediction α :=
  strictProbe q (StrictProbe.grow m)

/-- The decision's table, which has to be there. -/
def strictTable (q : Question) : StrictPrediction Table := do
  Run.lookup ((← get).cache.table? q.decision)

variable {net : Network} {q : Question} {s : Session} {entry : StateId}

theorem strictProbe_safe {m' : StrictProbe α} {m : Probe α} {P : α → Nat → Prop}
    (hs : s.cache.InRange net)
    (h : (Trail.scope net.states.size).Safe m' m
      { graph := s.cache.graph, past := s.callbacks } P) :
    (scope net).Safe (strictProbe q m') (probe q m) s P :=
  Cache.strictProbe_safe (from?_probe q m s) (fun t => (s.absorb_eq q t).1) hs h

theorem strictGrow_safe {m' : StrictGrowing α} {m : Growing α} {P : α → Nat → Prop}
    (hs : s.cache.InRange net)
    (h : (StackGraph.scope net.states.size).Safe m' m.toRun s.cache.graph P) :
    (scope net).Safe (strictGrow q m') (grow q m) s P :=
  strictProbe_safe hs (StrictProbe.grow_safe h)

/-- **The table of a decision is found.** -/
theorem strictTable_safe (hs : s.cache.InRange net)
    (hentry : net.entries[q.decision]? = some entry) :
    (scope net).Safe (strictTable q) (table q) s fun t k =>
      t.start = entry ∧ t.InRange (net.extentAt entry) k := by
  refine .get_bind ?_
  rw [hs.table?_eq hentry]
  exact .pure hs ⟨hs.start_eq hentry, hs.table hentry⟩

/-- A table is replaced by one in range. -/
theorem setTable_safe (hs : s.cache.InRange net)
    (hentry : net.entries[q.decision]? = some entry) {t : Table} (hstart : t.start = entry)
    (ht : t.InRange (net.extentAt entry) s.cache.graph.size) :
    (scope net).Safe (setTable q t).strictly (setTable q t) s fun _ _ => True :=
  .modify (hs.setTable hentry hstart ht) le_rfl trivial

section Steady

variable {τ : Type} {view : Session → τ} [Session.Steady view]

theorem count_untouched (g : DecisionStats → DecisionStats) :
    Untouched view (Prediction.count q g) fun _ => True :=
  .modify (fun s => Session.Steady.count s _ _) trivial

end Steady

section Quiet

variable {τ : Type} {view : Session → τ} [Session.Quiet view]

theorem note_untouched (e : Event) : Untouched view (note e) fun _ => True :=
  .modify (fun s => Session.Quiet.note s e) trivial

theorem holds_untouched (g : Guard) : Untouched view (holds q g) fun _ => True := by
  have hcount : Untouched view (count q fun c => { c with evaluations := c.evaluations + 1 })
      fun _ => True := .modify (fun s => Session.Quiet.evaluated s _ 1) trivial
  refine hcount.bind fun _ _ s => ?_
  exact .get_bind (.modify_bind (.pure ⟨Session.Quiet.callbacks s _, fun _ _ => trivial⟩))

theorem notes_untouched (events : Option Event) :
    Untouched view (events.forM note) fun _ => True := by
  cases events with
  | none => exact .pure trivial
  | some event => exact note_untouched event

end Quiet

section Unmoved

variable {τ : Type} {view : Session → τ} [Session.Unmoved view]

theorem probe_untouched (m : Probe α) : Untouched view (probe q m) fun _ => True := by
  intro s r t hrun
  rw [from?_probe] at hrun
  obtain ⟨⟨r₁, trail⟩, -, heq⟩ := Option.map_eq_some_iff.mp hrun
  obtain ⟨rfl, rfl⟩ := Prod.mk.inj heq
  exact ⟨Session.Unmoved.absorb s q trail, fun _ _ => trivial⟩

theorem grow_untouched (m : Growing α) : Untouched view (grow q m) fun _ => True :=
  probe_untouched _

end Unmoved

/-- Reading the table changes nothing. -/
theorem table_untouched {τ : Type} {view : Session → τ} :
    Untouched view (table q) fun _ => True :=
  .get_bind fun _ => .pure trivial

theorem deliver_untouched (report : Report) :
    Untouched (ε := PredictionError) Session.cache (modifyThe Session (·.deliver report))
      fun _ => True :=
  .modify (fun s => s.deliver_cache report) trivial

/-- **A row in range is put into the table.** -/
theorem install_safe (hs : s.cache.InRange net)
    (hentry : net.entries[q.decision]? = some entry) {row : Row}
    (hrow : row.InRange (net.extentAt entry) s.cache.graph.size) :
    (scope net).Safe (install q row).strictly (install q row) s fun place k =>
      place.InRange (net.extentAt entry) k := by
  rw [Request.install_eq]
  refine (strictTable_safe hs hentry).strictly_bind fun t s₁ hs₁ hle₁ ⟨hstart, ht⟩ => ?_
  obtain ⟨hplace, htable, hsame⟩ := ht.install (hrow.mono hle₁)
  refine (setTable_safe hs₁ hentry (hsame.trans hstart) htable).strictly_bind
    fun _ s₂ hs₂ hle₂ _ => ?_
  exact ((notes_untouched _).safe hs₂).strictly_bind fun _ s₃ hs₃ hle₃ _ =>
    .pure hs₃ (hplace.mono (hle₂.trans hle₃))

end Prediction

/-! ## Strict predictions -/

namespace Request

open Run (Untouched)
open Prediction (strictProbe strictGrow strictTable)

/-- A dead end. The states and the stacks of all configurations have to be there. -/
def strictDeadEnd (r : Request) (s : ConfigSet) (stream : TokenStream) : StrictPrediction Nat := do
  if !r.settings.recoverAtRuleEnd then throw (.failed (r.noViable stream.index s))
  else
    let (valid, invalid) ← (r.partition s.toList).strictly
    let g := (← get).cache.graph
    Run.lookupAll (s.statesOf r.net)
    Run.lookupAll (s.toList.map fun c => g.nodes[c.stack]?)
    match (r.finishedAlt? g valid).or (r.finishedAlt? g invalid) with
    | some alt => pure alt
    | none => throw (.failed (r.noViable stream.index s))

def strictFullStep (r : Request) (p : FullPoint) :
    StrictPrediction (FullPoint ⊕ ((ConfigSet × TokenStream) ⊕ FullEnd)) := do
  (r.checkLookahead (p.read + 1)).strictly
  match ← strictProbe r.toQuestion (r.strictReach (p.stream.lookAhead 1) true p.configs) with
  | none =>
    (Prediction.count r.toQuestion (·.recordLl (p.read + 1))).strictly
    pure (.inr (.inl (p.configs, p.stream)))
  | some configs =>
    match fullVerdict? r.settings.mode configs with
    | none => pure (.inl ⟨configs, p.stream.consume, p.read + 1⟩)
    | some prediction =>
      let unique := configs.commonAlt != noAlternative
      pure (.inr (.inr
        { configs, stop := p.stream.index, read := p.read + 1, prediction, unique
          exact := !unique && r.settings.mode == .exact }))

def strictFinishFull (r : Request) : (ConfigSet × TokenStream) ⊕ FullEnd → StrictPrediction Nat
  | .inl (configs, stream) => r.strictDeadEnd configs stream
  | .inr e => (r.concludeFull e).strictly

def strictPredictFull (r : Request) (start : ConfigSet) : StrictPrediction Nat := do
  let last ← Run.loop r.strictFullStep r.fuel ⟨start, r.stream, 0⟩
  r.strictFinishFull last

def strictTurn (r : Request) (row : Row) (stream : TokenStream) (passing : AltSet) :
    StrictPrediction Nat :=
  match passing.toList with
  | [alt] => pure alt
  | _ => do
    (Prediction.count r.toQuestion fun c => { c with fallbacks := c.fallbacks + 1 }).strictly
    Run.strictly (modify (·.deliver (r.report .fullContext stream.index
      (row.configs.conflicting.getD row.configs.alts) false noAlternative)))
    let stack ← strictGrow r.toQuestion (StackGraph.strictOfCallers r.net r.callers)
    let start ← strictProbe r.toQuestion (r.strictStartSet true stack)
    r.strictPredictFull start

/-- The alternatives of a row that pass. -/
def passingOf (r : Request) (row : Row) : Prediction AltSet :=
  match row.choices with
  | some choices => r.passing choices
  | none => pure .empty

def strictEscalate (r : Request) (row : Row) (stream : TokenStream) : StrictPrediction Nat := do
  let passing ← (r.passingOf row).strictly
  r.strictTurn row stream passing

/-- The row of the set that a symbol leads to. The state of the decision has to be there, and a
place for each alternative in the table of its guards. -/
def strictTargetRow (r : Request) (s : ConfigSet) (v : Symbol) : StrictPrediction (Option Row) := do
  match ← strictProbe r.toQuestion (r.strictReach v false s) with
  | none => pure none
  | some next =>
    let ends ← (if next.commonAlt ≠ noAlternative then pure false
      else strictGrow r.toQuestion (next.strictEndsPrediction r.settings.mode r.net))
    let entry ← Run.lookup r.net.states[r.entry]?
    Run.lookupAll (next.toList.map fun c => (List.range (entry.transitions.length + 1))[c.alt]?)
    pure (some (Row.classify next ends entry.transitions.length))

/-- What is done with the row that a symbol leads to: if tables are used, it is kept. -/
def keepRow (r : Request) (p : Place) (v : Symbol) (t : Table) :
    Option Row → Prediction (Option Place)
  | none => do
    if r.settings.useCache then Prediction.setTable r.toQuestion (t.linkDead p v).2
    pure none
  | some row => do
    if !r.settings.useCache then pure (some (.loose row))
    else
      let place ← Prediction.install r.toQuestion row
      Prediction.setTable r.toQuestion ((← Prediction.table r.toQuestion).link p v place).2
      pure (some place)

def strictTarget (r : Request) (p : Place) (v : Symbol) : StrictPrediction (Option Place) := do
  let t ← strictTable r.toQuestion
  let row ← r.strictTargetRow (t.row p).configs v
  (r.keepRow p v t row).strictly

/-- The place that a cell leads to. -/
def hit (r : Request) (c : Cell) : Prediction (Option Place) := do
  Prediction.count r.toQuestion fun c => { c with hits := c.hits + 1 }
  match c with
  | .row n => pure (some (.row n))
  | .dead => pure none

def strictNext (r : Request) (p : Place) (v : Symbol) : StrictPrediction (Option Place) := do
  let t ← strictTable r.toQuestion
  match if r.settings.useCache then t.cell? p v else none with
  | some c => (r.hit c).strictly
  | none =>
    (Prediction.count r.toQuestion fun c => { c with misses := c.misses + 1 }).strictly
    Run.strictly (if r.settings.logMisses then Prediction.note (r.missEvent p v) else pure ⟨⟩)
    r.strictTarget p v

def strictStep (r : Request) (p : Point) : StrictPrediction (Point ⊕ Nat) := do
  (r.checkLookahead (p.read + 1)).strictly
  match ← r.strictNext p.place (p.stream.lookAhead 1) with
  | none =>
    (Prediction.count r.toQuestion (·.recordSll (p.read + 1))).strictly
    let t ← strictTable r.toQuestion
    .inr <$> r.strictDeadEnd (t.row p.place).configs p.stream
  | some place =>
    let t ← strictTable r.toQuestion
    if (t.row place).needsContext && r.settings.mode != .sll then
      (Prediction.count r.toQuestion (·.recordSll (p.read + 1))).strictly
      .inr <$> r.strictEscalate (t.row place) p.stream
    else if (t.row place).accepting then
      (Prediction.count r.toQuestion (·.recordSll (p.read + 1))).strictly
      (r.conclude (t.row place) p.stream).strictly
    else pure (.inl ⟨place, p.stream.consume, p.read + 1⟩)

/-- What is done with the set in which the decision begins: if tables are used, it is kept. -/
def keepStart (r : Request) (configs : ConfigSet) : Prediction Place := do
  if !r.settings.useCache then pure (.loose { configs })
  else
    let place ← Prediction.install r.toQuestion { configs }
    let (place, t) := (← Prediction.table r.toQuestion).setStart place
    Prediction.setTable r.toQuestion t
    pure place

def strictStartPlace (r : Request) : StrictPrediction Place := do
  let t ← strictTable r.toQuestion
  match if r.settings.useCache then t.startRow else none with
  | some n => pure (.row n)
  | none =>
    let configs ← strictProbe r.toQuestion (r.strictStartSet false StackId.empty)
    (r.keepStart configs).strictly

/-- **A strict attempt:** only the number of the decision may be wrong. -/
def strictAttempt (r : Request) : StrictPrediction Nat := do
  let count := (← get).cache.tables.size
  if count ≤ r.decision then throw (.failed (.unknownDecision r.decision count))
  else
    let place ← r.strictStartPlace
    Run.loop r.strictStep r.fuel ⟨place, r.stream, 0⟩

/-! ## In range -/

/-- **A request that fits its network:** its decision begins where the table of the decision does.
-/
structure Sound (r : Request) : Prop where
  consistent : r.net.Consistent
  entry_lt : r.entry < r.net.states.size
  entry_eq : r.net.entries[r.decision]? = some r.entry

/-- What the prediction keeps. -/
abbrev scope (r : Request) : Scope Session := Prediction.scope r.net

variable {r : Request} {s : Session} {size : Nat} {stream : TokenStream}

theorem checkLookahead_untouched {τ : Type} {view : Session → τ} (n : Nat) :
    Untouched view (r.checkLookahead n) fun _ => True := by
  unfold checkLookahead
  split
  · exact .throw
  · exact .pure trivial

theorem reportAmbiguity_untouched (stop : Nat) (alts : AltSet) (exact : Bool) (a : Nat) :
    Untouched Session.cache (r.reportAmbiguity stop alts exact a) fun _ => True :=
  (Prediction.count_untouched _).bind fun _ _ => Prediction.deliver_untouched _

section Quiet

variable {τ : Type} {view : Session → τ} [Session.Quiet view]

theorem logMiss_untouched (p : Place) (v : Symbol) :
    Untouched view (if r.settings.logMisses then Prediction.note (r.missEvent p v) else pure ⟨⟩)
      fun _ => True := by
  split
  · exact Prediction.note_untouched _
  · exact .pure trivial

/-- The alternatives that pass are alternatives of the choices. -/
private theorem passing_untouched {P : Nat → Prop} {choices : List Choice}
    (hchoices : ∀ c ∈ choices, P c.alt) :
    Untouched view (r.passing choices) fun A => ∀ a ∈ A, P a := by
  have hinsert : ∀ c ∈ choices, ∀ A : AltSet, (∀ a ∈ A, P a) → ∀ a ∈ A.insert c.alt, P a := by
    intro c hc A hA a ha
    rcases AltSet.mem_insert.mp ha with rfl | ha
    · exact hchoices c hc
    · exact hA a ha
  unfold passing
  refine .foldlM (fun c hc A hA => ?_) (by simp)
  split
  · exact .pure (hinsert c hc A hA)
  · refine (Prediction.holds_untouched _).bind fun b _ => ?_
    split
    · exact .pure (hinsert c hc A hA)
    · exact .pure hA

theorem passingOf_untouched {P : Nat → Prop} {row : Row}
    (hchoices : ∀ cs, row.choices = some cs → ∀ c ∈ cs, P c.alt) :
    Untouched view (r.passingOf row) fun A => ∀ a ∈ A, P a := by
  unfold passingOf
  split
  · next choices hsome => exact passing_untouched (hchoices choices hsome)
  · exact .pure (by simp)

/-- **A row answers its prediction or one of its choices.** -/
theorem answer_untouched {P : Nat → Prop} {row : Row}
    (hprediction : row.choices = none → P row.prediction)
    (hchoices : ∀ cs, row.choices = some cs → ∀ c ∈ cs, P c.alt) :
    Untouched view (r.answer row stream) P := by
  unfold answer
  split
  · next hnone => exact .pure (hprediction hnone)
  · next choices hsome =>
    refine (passing_untouched (hchoices choices hsome)).bind fun A hA => ?_
    split
    · next alt halt => exact .pure (hA alt (AltSet.min?_eq_some_iff.mp halt).1)
    · exact .throw

theorem partition_untouched (cs : List Config) :
    Untouched view (r.partition cs) fun parts =>
      (∀ c ∈ parts.1, c ∈ cs) ∧ ∀ c ∈ parts.2, c ∈ cs := by
  induction cs with
  | nil => exact .pure ⟨nofun, nofun⟩
  | cons c cs ih =>
    have hrest : ∀ passes : Bool, Untouched view
        (r.partition cs >>= fun parts => pure (if passes then (c :: parts.1, parts.2)
          else (parts.1, c :: parts.2)) : Prediction (List Config × List Config))
        fun parts => (∀ d ∈ parts.1, d ∈ c :: cs) ∧ ∀ d ∈ parts.2, d ∈ c :: cs := by
      intro passes
      refine ih.bind fun parts hparts => .pure ?_
      have hleft : ∀ d ∈ parts.1, d ∈ c :: cs := fun d hd => List.mem_cons_of_mem _ (hparts.1 d hd)
      have hright : ∀ d ∈ parts.2, d ∈ c :: cs := fun d hd => List.mem_cons_of_mem _ (hparts.2 d hd)
      cases passes
      · exact ⟨hleft, List.forall_mem_cons.mpr ⟨List.mem_cons_self, hright⟩⟩
      · exact ⟨List.forall_mem_cons.mpr ⟨List.mem_cons_self, hleft⟩, hright⟩
    unfold partition
    split
    · exact hrest true
    · exact (Prediction.holds_untouched _).bind fun passes _ => hrest passes

theorem deadEnd_untouched (c : ConfigSet) : Untouched view (r.deadEnd c stream) fun _ => True := by
  unfold deadEnd
  split
  · exact .throw
  refine (partition_untouched _).bind fun parts _ => .get_bind fun s => ?_
  dsimp only
  split
  · exact .pure trivial
  · exact .throw

end Quiet

section Unmoved

variable {τ : Type} {view : Session → τ} [Session.Unmoved view]

theorem fullStep_untouched (p : FullPoint) : Untouched view (r.fullStep p) fun _ => True := by
  unfold fullStep
  refine (checkLookahead_untouched _).bind fun _ _ =>
    (Prediction.probe_untouched _).bind fun next _ => ?_
  cases next with
  | none =>
    have hcount : Untouched view (Prediction.count r.toQuestion (·.recordLl (p.read + 1)))
        fun _ => True := .modify (fun s => Session.Quiet.recorded s _ _) trivial
    exact hcount.bind fun _ _ => .pure trivial
  | some configs =>
    dsimp only
    cases fullVerdict? r.settings.mode configs with
    | none => exact .pure trivial
    | some a => exact .pure trivial

theorem stopsAt_untouched (c : ConfigSet) : Untouched view (r.stopsAt c) fun _ => True := by
  unfold stopsAt
  split
  · exact .pure trivial
  · exact Prediction.grow_untouched _

theorem targetRow_untouched (c : ConfigSet) (v : Symbol) :
    Untouched view (r.targetRow c v) fun _ => True := by
  rw [targetRow_eq]
  refine (Prediction.probe_untouched _).bind fun next _ => ?_
  cases next with
  | none => exact .pure trivial
  | some next => exact (stopsAt_untouched next).bind fun _ _ => .pure trivial

end Unmoved

private theorem conclude_untouched {x : Extent} {row : Row} (hrow : row.InRange x size)
    (haccepting : row.accepting = true) :
    Untouched Session.cache (r.conclude row stream)
      fun next => next.elim (fun _ => False) x.HasAlt := by
  have hanswer : Untouched Session.cache (.inr <$> r.answer row stream : Prediction (Point ⊕ Nat))
      fun next => next.elim (fun _ => False) x.HasAlt :=
    .map (g := Sum.inr) (answer_untouched (hrow.prediction haccepting) hrow.choices)
  unfold conclude
  split
  · exact (reportAmbiguity_untouched _ _ _ _).bind fun _ _ => hanswer
  · exact Untouched.bind (P := fun _ => True) (.pure trivial) fun _ _ => hanswer

theorem concludeFull_untouched (e : FullEnd) :
    Untouched Session.cache (r.concludeFull e) fun a => a = e.prediction := by
  rw [concludeFull_eq]
  refine (Prediction.count_untouched _).bind fun _ _ => ?_
  split
  · split
    · exact (Prediction.count_untouched _).bind fun _ _ =>
        (Prediction.deliver_untouched _).bind fun _ _ => .pure rfl
    · exact .pure rfl
  · exact (reportAmbiguity_untouched _ _ _ _).bind fun _ _ => .pure rfl

/-- An alternative that has finished its rule is that of a configuration. -/
private theorem finishedAlt_mem {g : StackGraph} {cs : List Config} {a : Nat}
    (h : r.finishedAlt? g cs = some a) : ∃ c ∈ cs, c.alt = a := by
  obtain ⟨hmem, -⟩ := List.min?_eq_some_iff.mp h
  obtain ⟨c, hc, rfl⟩ := List.mem_map.mp hmem
  exact ⟨c, List.mem_of_mem_filter hc, rfl⟩

/-- **A dead end finds the states and stacks of its configurations.** -/
theorem strictDeadEnd_safe {x : Extent} (hx : x.states = r.net.states.size)
    (hs : s.cache.InRange r.net) {c : ConfigSet} (hc : c.InRange x s.cache.graph.size) :
    r.scope.Safe (r.strictDeadEnd c stream) (r.deadEnd c stream) s fun a _ => x.HasAlt a := by
  unfold strictDeadEnd deadEnd
  split
  · exact .throw hs
  refine ((partition_untouched c.toList).safe hs).bind fun parts t ht hle ⟨hvalid, hinvalid⟩ => ?_
  refine .get_bind (.lookupAll_bind (hc.statesOf hx) (.lookupAll_bind (fun entry hentry => ?_) ?_))
  · obtain ⟨d, hd, rfl⟩ := List.mem_map.mp hentry
    have hlt : d.stack < t.cache.graph.nodes.size :=
      Nat.lt_of_lt_of_le (hc.configs d hd).stack_lt hle
    simp [hlt]
  · have hfound : ∀ a, (r.finishedAlt? t.cache.graph parts.1).or
        (r.finishedAlt? t.cache.graph parts.2) = some a → x.HasAlt a := by
      intro a ha
      have hmem : ∃ d ∈ c.toList, d.alt = a := by
        rcases Option.or_eq_some_iff.mp ha with ha | ⟨-, ha⟩
        · obtain ⟨d, hd, halt⟩ := finishedAlt_mem ha
          exact ⟨d, hvalid d hd, halt⟩
        · obtain ⟨d, hd, halt⟩ := finishedAlt_mem ha
          exact ⟨d, hinvalid d hd, halt⟩
      obtain ⟨d, hd, rfl⟩ := hmem
      exact (hc.configs d hd).hasAlt
    dsimp only
    cases halt : (r.finishedAlt? t.cache.graph parts.1).or
        (r.finishedAlt? t.cache.graph parts.2) with
    | some a => exact .pure ht (hfound a halt)
    | none => exact .throw ht

/-- A step from a set in range. -/
theorem strictReach_safe (hr : r.Sound) (hs : s.cache.InRange r.net) {c : ConfigSet}
    (hc : c.InRange r.extent s.cache.graph.size) (v : Symbol) (full : Bool) :
    r.scope.Safe (strictProbe r.toQuestion (r.strictReach v full c))
      (Prediction.probe r.toQuestion (r.reach v full c)) s
      fun next k => ∀ c', next = some c' → c'.Alive r.extent k :=
  Prediction.strictProbe_safe hs (Question.strictReach_safe (x := r.extent)
    (t := { graph := s.cache.graph, past := s.callbacks }) hr.consistent rfl hs.graph hc v full)

/-! ## With the call stack -/

/-- **The end of a prediction with the call stack, in range:** it is the verdict on a set some
thread of which is left. -/
structure FullEnd.InRange (mode : PredictionMode) (x : Extent) (size : Nat) (e : FullEnd) :
    Prop where
  alive : e.configs.Alive x size
  verdict : fullVerdict? mode e.configs = some e.prediction
  unique_eq : e.unique = (e.configs.commonAlt != noAlternative)

/-- Where a prediction with the call stack stops, in range: a dead end has a set in range. -/
def LastInRange (mode : PredictionMode) (x : Extent) (size : Nat)
    (last : (ConfigSet × TokenStream) ⊕ FullEnd) : Prop :=
  last.elim (·.1.InRange x size) (·.InRange mode x size)

theorem strictFullStep_safe (hr : r.Sound) (hs : s.cache.InRange r.net) {p : FullPoint}
    (hp : p.configs.InRange r.extent s.cache.graph.size) :
    r.scope.Safe (r.strictFullStep p) (r.fullStep p) s fun next k =>
      next.elim (fun p => p.configs.InRange r.extent k)
        (LastInRange r.settings.mode r.extent k) := by
  unfold strictFullStep fullStep
  refine ((checkLookahead_untouched _).safe hs).bind fun _ t ht hle _ => ?_
  refine (strictReach_safe hr ht (hp.mono hle) _ true).bind fun next u hu hle' hnext => ?_
  cases next with
  | none =>
    exact ((Prediction.count_untouched _).safe hu).bind fun _ w hw hle'' _ =>
      .pure hw (hp.mono (hle.trans (hle'.trans hle'')))
  | some configs =>
    have halive := hnext configs rfl
    dsimp only
    cases hverdict : fullVerdict? r.settings.mode configs with
    | none => exact .pure hu halive.inRange
    | some a => exact .pure hu ⟨halive, hverdict, rfl⟩

theorem strictFullLoop_safe (hr : r.Sound) (hs : s.cache.InRange r.net) {start : ConfigSet}
    (hstart : start.InRange r.extent s.cache.graph.size) :
    r.scope.Safe (Run.loop r.strictFullStep r.fuel ⟨start, r.stream, 0⟩)
      (Run.loop r.fullStep r.fuel ⟨start, r.stream, 0⟩) s
      fun last k => LastInRange r.settings.mode r.extent k last :=
  .loop (fun p k => p.configs.InRange r.extent k)
    (fun _ _ ht hp => strictFullStep_safe hr ht hp) hs hstart

/-- **A prediction with the call stack finds all that it looks up.** -/
theorem strictPredictFull_safe (hr : r.Sound) (hs : s.cache.InRange r.net) {start : ConfigSet}
    (hstart : start.InRange r.extent s.cache.graph.size) :
    r.scope.Safe (r.strictPredictFull start) (r.predictFull start) s
      fun a _ => r.extent.HasAlt a := by
  rw [predictFull_eq]
  refine (strictFullLoop_safe hr hs hstart).bind fun last t ht _ hlast => ?_
  cases last with
  | inl dead => exact strictDeadEnd_safe rfl ht hlast
  | inr e =>
    have halt := hlast.alive.fullVerdict hlast.verdict
    exact ((concludeFull_untouched e).safe ht).mono fun a _ _ ha => ha ▸ halt

theorem strictEscalate_safe (hr : r.Sound) (hs : s.cache.InRange r.net) {row : Row}
    (hrow : row.InRange r.extent s.cache.graph.size) :
    r.scope.Safe (r.strictEscalate row stream) (r.escalate row stream) s
      fun a _ => r.extent.HasAlt a := by
  rw [escalate_eq]
  refine ((passingOf_untouched hrow.choices).safe hs).bind fun passing t ht _ hpassing => ?_
  have hfull : r.scope.Safe (do
      (Prediction.count r.toQuestion fun c => { c with fallbacks := c.fallbacks + 1 }).strictly
      Run.strictly (modify (·.deliver (r.report .fullContext stream.index
        (row.configs.conflicting.getD row.configs.alts) false noAlternative)))
      let stack ← strictGrow r.toQuestion (StackGraph.strictOfCallers r.net r.callers)
      let start ← strictProbe r.toQuestion (r.strictStartSet true stack)
      r.strictPredictFull start)
      (Prediction.count r.toQuestion (fun c => { c with fallbacks := c.fallbacks + 1 }) >>= fun _ =>
        (modify (·.deliver (r.report .fullContext stream.index
          (row.configs.conflicting.getD row.configs.alts) false noAlternative)) :
            Prediction PUnit) >>= fun _ =>
        Prediction.grow r.toQuestion (StackGraph.ofCallers r.net r.callers) >>= fun stack =>
        Prediction.probe r.toQuestion (r.startSet true stack) >>= r.predictFull) t
      fun a _ => r.extent.HasAlt a := by
    refine ((Prediction.count_untouched _).safe ht).bind fun _ t₁ ht₁ _ _ => ?_
    refine ((Prediction.deliver_untouched _).safe ht₁).bind fun _ t₂ ht₂ _ _ => ?_
    refine (Prediction.strictGrow_safe ht₂ (StackGraph.strictOfCallers_safe hr.consistent ht₂.graph
      r.callers)).bind fun stack t₃ ht₃ _ hstack => ?_
    exact (Prediction.strictProbe_safe ht₃ (Question.strictStartSet_safe hr.consistent hr.entry_lt
      ht₃.graph true hstack)).bind fun start t₄ ht₄ _ hstart => strictPredictFull_safe hr ht₄ hstart
  unfold strictTurn turn
  -- The callers decide unless exactly one alternative passes.
  rcases hl : passing.toList with _ | ⟨a, _ | ⟨b, l⟩⟩
  · exact hfull
  · refine .pure ht (hpassing a ?_)
    rw [AltSet.mem_def, hl]
    exact List.mem_singleton_self a
  · exact hfull

/-! ## Along the table -/

/-- **The row that a symbol leads to is in range.** -/
theorem strictTargetRow_safe (hr : r.Sound) (hs : s.cache.InRange r.net) {c : ConfigSet}
    (hc : c.InRange r.extent s.cache.graph.size) (v : Symbol) :
    r.scope.Safe (r.strictTargetRow c v) (r.targetRow c v) s fun found k =>
      ∀ row, found = some row → row.InRange r.extent k := by
  rw [targetRow_eq]
  refine (strictReach_safe hr hs hc v false).bind fun next t ht _ hnext => ?_
  cases next with
  | none => exact .pure ht fun _ h => nomatch h
  | some next =>
    have halive := hnext next rfl
    refine Scope.Safe.bind (P := fun _ _ => True) ?_ fun ends u hu hle _ => ?_
    · unfold stopsAt
      split
      · exact .pure ht trivial
      · exact Prediction.strictGrow_safe ht (ConfigSet.strictEndsPrediction_safe rfl ht.graph
          halive.inRange _)
    have hslots : ∀ entry ∈ next.toList.map fun c =>
        (List.range ((r.net.state r.entry).transitions.length + 1))[c.alt]?,
        entry.isSome = true := by
      intro entry hentry
      obtain ⟨d, hd, rfl⟩ := List.mem_map.mp hentry
      have hle : d.alt ≤ (r.net.state r.entry).transitions.length :=
        (halive.inRange.configs d hd).hasAlt.2
      simp [Nat.lt_succ_of_le hle]
    refine .lookup_bind (Network.getElem?_states hr.entry_lt) (.lookupAll_bind hslots ?_)
    refine .pure hu fun row hrow => Option.some.inj hrow ▸ ?_
    exact Row.classify_inRange (halive.mono hle) ends

theorem target_eq (r : Request) (p : Place) (v : Symbol) :
    r.target p v = (Prediction.table r.toQuestion >>= fun t =>
      r.targetRow (t.row p).configs v >>= r.keepRow p v t) := by
  unfold target
  refine bind_congr fun t => bind_congr fun row => ?_
  cases row <;> rfl

/-- A row in range is kept. -/
private theorem keepRow_safe (hr : r.Sound) (hs : s.cache.InRange r.net) {t : Table}
    (hstart : t.start = r.entry) (ht : t.InRange r.extent s.cache.graph.size) {found : Option Row}
    (hfound : ∀ row, found = some row → row.InRange r.extent s.cache.graph.size) (p : Place)
    (v : Symbol) :
    r.scope.Safe (r.keepRow p v t found).strictly (r.keepRow p v t found) s fun next k =>
      ∀ place, next = some place → place.InRange r.extent k := by
  cases found with
  | none =>
    obtain ⟨hevolves, -⟩ := t.write_spec p v .dead
    unfold keepRow
    dsimp only
    split
    · exact (Prediction.setTable_safe hs hr.entry_eq (hevolves.start_eq.trans hstart)
        (ht.write p v .dead)).strictly_bind fun _ u hu _ _ => .pure hu fun _ h => nomatch h
    · exact .pure hs fun _ h => nomatch h
  | some row =>
    have hrow := hfound row rfl
    unfold keepRow
    dsimp only
    split
    · refine .pure hs fun place hplace row' hrow' => ?_
      rw [← Option.some.inj hplace] at hrow'
      cases hrow'
      exact hrow
    refine (Prediction.install_safe hs hr.entry_eq hrow).strictly_bind
      fun place s₁ hs₁ _ hplace => ?_
    refine (Prediction.strictTable_safe hs₁ hr.entry_eq).strictly_bind
      fun t' s₂ hs₂ hle₂ ⟨hstart', ht'⟩ => ?_
    refine (Prediction.setTable_safe hs₂ hr.entry_eq ((t'.link_start p v place).trans hstart')
      (ht'.link p v place)).strictly_bind fun _ s₃ hs₃ hle₃ _ => .pure hs₃ fun place' h => ?_
    exact Option.some.inj h ▸ hplace.mono (hle₂.trans hle₃)

theorem strictTarget_safe (hr : r.Sound) (hs : s.cache.InRange r.net) {p : Place}
    (hp : p.InRange r.extent s.cache.graph.size) (v : Symbol) :
    r.scope.Safe (r.strictTarget p v) (r.target p v) s fun next k =>
      ∀ place, next = some place → place.InRange r.extent k := by
  rw [target_eq]
  refine (Prediction.strictTable_safe hs hr.entry_eq).bind fun t s₁ hs₁ hle₁ ⟨hstart, ht⟩ => ?_
  refine (strictTargetRow_safe hr hs₁ (ht.row (hp.mono hle₁)).configs v).bind
    fun found s₂ hs₂ hle₂ hfound => ?_
  exact keepRow_safe hr hs₂ hstart (ht.mono hle₂) hfound p v

/-- What is read from the table is a row of the table. -/
theorem hit_untouched (c : Cell) :
    Untouched Session.cache (r.hit c)
      fun next => ∀ place, next = some place → ∃ n, place = .row n := by
  refine (Prediction.count_untouched _).bind fun _ _ => ?_
  cases c with
  | row n => exact .pure fun place h => ⟨n, (Option.some.inj h).symm⟩
  | dead => exact .pure fun _ h => nomatch h

theorem strictNext_safe (hr : r.Sound) (hs : s.cache.InRange r.net) {p : Place}
    (hp : p.InRange r.extent s.cache.graph.size) (v : Symbol) :
    r.scope.Safe (r.strictNext p v) (r.next p v) s fun next k =>
      ∀ place, next = some place → place.InRange r.extent k := by
  rw [next_eq]
  refine (Prediction.strictTable_safe hs hr.entry_eq).bind fun t s₁ hs₁ hle₁ _ => ?_
  cases (if r.settings.useCache then t.cell? p v else none) with
  | some c =>
    refine ((hit_untouched c).safe hs₁).mono fun next k _ hnext place hplace => ?_
    obtain ⟨n, rfl⟩ := hnext place hplace
    exact Place.row_inRange n
  | none =>
    refine ((Prediction.count_untouched _).safe hs₁).bind fun _ s₂ hs₂ hle₂ _ => ?_
    refine ((logMiss_untouched p v).safe hs₂).bind fun _ s₃ hs₃ hle₃ _ => ?_
    exact strictTarget_safe hr hs₃ (hp.mono (hle₁.trans (hle₂.trans hle₃))) v

/-- **A step along the table finds all that it looks up.** -/
theorem strictStep_safe (hr : r.Sound) (hs : s.cache.InRange r.net) {p : Point}
    (hp : p.place.InRange r.extent s.cache.graph.size) :
    r.scope.Safe (r.strictStep p) (r.step p) s fun next k =>
      next.elim (fun p => p.place.InRange r.extent k) fun a => r.extent.HasAlt a := by
  rw [step_eq]
  refine ((checkLookahead_untouched _).safe hs).bind fun _ s₁ hs₁ hle₁ _ => ?_
  refine (strictNext_safe hr hs₁ (hp.mono hle₁) _).bind fun next s₂ hs₂ hle₂ hnext => ?_
  cases next with
  | none =>
    refine ((Prediction.count_untouched _).safe hs₂).bind fun _ s₃ hs₃ hle₃ _ => ?_
    refine (Prediction.strictTable_safe hs₃ hr.entry_eq).bind fun t s₄ hs₄ hle₄ ⟨_, ht⟩ => .map ?_
    refine strictDeadEnd_safe rfl hs₄ (ht.row (hp.mono ?_)).configs
    exact hle₁.trans (hle₂.trans (hle₃.trans hle₄))
  | some place =>
    refine (Prediction.strictTable_safe hs₂ hr.entry_eq).bind fun t s₃ hs₃ hle₃ ⟨_, ht⟩ => ?_
    have hplace := (hnext place rfl).mono hle₃
    have hrow := ht.row hplace
    split
    · refine ((Prediction.count_untouched _).safe hs₃).bind fun _ s₄ hs₄ hle₄ _ => .map ?_
      exact strictEscalate_safe hr hs₄ (hrow.mono hle₄)
    split
    · next haccepting =>
      refine ((Prediction.count_untouched _).safe hs₃).bind fun _ s₄ hs₄ _ _ => ?_
      refine ((conclude_untouched hrow haccepting).safe hs₄).mono fun next k _ hnext => ?_
      cases next with
      | inl p' => exact hnext.elim
      | inr a => exact hnext
    · exact .pure hs₃ hplace

/-! ## Attempts -/

theorem startPlace_eq (r : Request) :
    r.startPlace = (Prediction.table r.toQuestion >>= fun t =>
      match if r.settings.useCache then t.startRow else none with
      | some n => pure (.row n)
      | none =>
        Prediction.probe r.toQuestion (r.startSet false StackId.empty) >>= r.keepStart) := rfl

/-- A set in range is kept. -/
private theorem keepStart_safe (hr : r.Sound) (hs : s.cache.InRange r.net) {configs : ConfigSet}
    (hconfigs : configs.InRange r.extent s.cache.graph.size) :
    r.scope.Safe (r.keepStart configs).strictly (r.keepStart configs) s fun place k =>
      place.InRange r.extent k := by
  have hrow := Row.open_inRange hconfigs
  unfold keepStart
  split
  · exact .pure hs fun row h => by cases h; exact hrow
  refine (Prediction.install_safe hs hr.entry_eq hrow).strictly_bind fun place s₁ hs₁ _ hplace => ?_
  refine (Prediction.strictTable_safe hs₁ hr.entry_eq).strictly_bind
    fun t s₂ hs₂ hle₂ ⟨hstart, ht⟩ => ?_
  obtain ⟨hplace', ht'⟩ := ht.setStart (hplace.mono hle₂)
  refine (Prediction.setTable_safe hs₂ hr.entry_eq ((t.setStart_start place).trans hstart)
    ht').strictly_bind fun _ s₃ hs₃ hle₃ _ => .pure hs₃ (hplace'.mono hle₃)

theorem strictStartPlace_safe (hr : r.Sound) (hs : s.cache.InRange r.net) :
    r.scope.Safe r.strictStartPlace r.startPlace s fun place k => place.InRange r.extent k := by
  rw [startPlace_eq]
  refine (Prediction.strictTable_safe hs hr.entry_eq).bind fun t s₁ hs₁ _ _ => ?_
  cases (if r.settings.useCache then t.startRow else none) with
  | some n => exact .pure hs₁ (Place.row_inRange n)
  | none =>
    exact (Prediction.strictProbe_safe hs₁ (Question.strictStartSet_safe hr.consistent hr.entry_lt
      hs₁.graph false hs₁.graph.empty_lt)).bind fun configs s₂ hs₂ _ hconfigs =>
        keepStart_safe hr hs₂ hconfigs

theorem attempt_eq (r : Request) :
    r.attempt = (get >>= fun s =>
      if s.cache.tables.size ≤ r.decision then
        throw (.unknownDecision r.decision s.cache.tables.size)
      else r.startPlace >>= fun place => Run.loop r.step r.fuel ⟨place, r.stream, 0⟩) := by
  unfold attempt
  refine bind_congr fun s => ?_
  dsimp only
  split <;> rfl

/-- Whether the alternative is one of the decision of the request. -/
def Decides (r : Request) (a : Nat) : Prop :=
  ∃ entry, r.net.entries[r.decision]? = some entry ∧ (r.net.extentAt entry).HasAlt a

/-- **An attempt finds all that it looks up,** and predicts an alternative of the decision. -/
theorem strictAttempt_safe
    (hr : ∀ entry, r.net.entries[r.decision]? = some entry → r.Sound)
    (hs : s.cache.InRange r.net) :
    r.scope.Safe r.strictAttempt r.attempt s fun a _ => r.Decides a := by
  rw [attempt_eq]
  refine .get_bind ?_
  dsimp only
  split
  · exact .throw hs
  · next hd =>
    have hr := hr _ (hs.entry_eq (Nat.lt_of_not_le hd))
    refine (strictStartPlace_safe hr hs).bind fun place t ht _ hplace => ?_
    have hloop : r.scope.Safe (Run.loop r.strictStep r.fuel ⟨place, r.stream, 0⟩)
        (Run.loop r.step r.fuel ⟨place, r.stream, 0⟩) t fun a _ => r.extent.HasAlt a :=
      .loop (fun p k => p.place.InRange r.extent k)
        (fun p u hu hp => strictStep_safe hr hu hp) ht hplace
    exact hloop.mono fun a _ _ ha => ⟨r.entry, hr.entry_eq, ha⟩

end Request

/-! ## Predictions -/

namespace Session

def strictAgain (r : Request) (seen : Nat) (first : Except PredictionError Nat) :
    StrictPrediction (Except PredictionError Nat) :=
  match first with
  | .error e =>
    if e.isFullGraph then do
      Run.strictly (modify (·.renew seen))
      r.strictAttempt.strictOutcome
    else pure first
  | .ok _ => pure first

/-- **A strict prediction:** it stops as soon as a number leads beyond its table. -/
def strictPredict (settings : PredictionSettings) (host : Oracle) (fuel : Nat) (stream : TokenStream)
    (decision : Nat) (callers : List StateId) : StrictPrediction Nat := do
  Run.strictly (modify (·.count decision fun c => { c with invocations := c.invocations + 1 }))
  let r := (← get).request settings host fuel stream decision callers
  let seen := (← get).cache.generation
  let first ← r.strictAttempt.strictOutcome
  let result ← strictAgain r seen first
  (close decision stream result).strictly

variable {net : Network} {s : Session} {decision : Nat}

/-- What predictions keep that may begin the cache again. -/
abbrev lasting (net : Network) : Scope Session := Cache.lasting net Session.cache

theorem renew_inRange (hs : s.cache.InRange net) (seen : Nat) :
    (s.renew seen).cache.InRange net := by
  unfold renew Cache.renew
  by_cases hgeneration : s.cache.generation = seen
  · rw [if_pos hgeneration]
    exact hs.restart
  · rw [if_neg hgeneration]
    exact hs

/-- The request for a prediction fits the network of the cache. -/
theorem request_sound (hnet : s.cache.net.Consistent) (hindexed : s.cache.net.Indexed)
    (hs : s.cache.InRange s.cache.net) (settings : PredictionSettings) (host : Oracle) (fuel : Nat)
    (stream : TokenStream) (decision : Nat) (callers : List StateId) (entry : StateId)
    (hentry : s.cache.net.entries[decision]? = some entry) :
    (s.request settings host fuel stream decision callers).Sound := by
  have hstart : (s.request settings host fuel stream decision callers).entry = entry :=
    hs.start_eq hentry
  exact ⟨hnet, hstart ▸ hindexed.entry_lt hentry, hstart ▸ hentry⟩

/-- An attempt, seen as an outcome. -/
theorem outcome_safe {r : Request}
    (hr : ∀ entry, r.net.entries[r.decision]? = some entry → r.Sound)
    (hs : s.cache.InRange r.net) :
    (lasting r.net).Safe r.strictAttempt.strictOutcome r.attempt.outcome s fun result _ =>
      ∀ a, result = .ok a → r.Decides a :=
  (Cache.lasting_safe (Request.strictAttempt_safe hr hs)).outcome

private theorem strictAgain_safe {r : Request}
    (hr : ∀ entry, r.net.entries[r.decision]? = some entry → r.Sound)
    (hs : s.cache.InRange r.net) (seen : Nat) {first : Except PredictionError Nat}
    (hfirst : ∀ a, first = .ok a → r.Decides a) :
    (lasting r.net).Safe (strictAgain r seen first) (again r seen first) s fun result _ =>
      ∀ a, result = .ok a → r.Decides a := by
  unfold strictAgain again
  cases first with
  | ok a => exact .pure hs hfirst
  | error e =>
    dsimp only
    split
    · exact (Scope.Safe.modify (S := lasting r.net) (P := fun _ _ => True) (g := (·.renew seen))
        (renew_inRange hs seen) le_rfl trivial).bind fun _ t ht _ _ => outcome_safe hr ht
    · exact .pure hs hfirst

/-- The end of a prediction gives its result. -/
theorem close_untouched (stream : TokenStream) {P : Nat → Prop}
    {result : Except PredictionError Nat} (hresult : ∀ a, result = .ok a → P a) :
    Run.Untouched Session.cache (close decision stream result) P := by
  unfold close
  cases result with
  | ok a => exact .pure (hresult a rfl)
  | error e => exact fun s => .of_eq rfl ⟨rfl, nofun⟩

/-- **On a cache in range a prediction finds all that it looks up,** keeps the cache in range, and
predicts an alternative of the decision. -/
theorem strictPredict_safe (hnet : net.Consistent) (hindexed : net.Indexed)
    (hs : s.cache.InRange net) (settings : PredictionSettings) (host : Oracle) (fuel : Nat)
    (stream : TokenStream) (decision : Nat) (callers : List StateId) :
    (lasting net).Safe (strictPredict settings host fuel stream decision callers)
      (predict settings host fuel stream decision callers) s fun a _ =>
        ∃ entry, net.entries[decision]? = some entry ∧ (net.extentAt entry).HasAlt a := by
  have hcount : Run.Untouched (ε := PredictionError) Session.cache (modifyThe Session
      (·.count decision fun c => { c with invocations := c.invocations + 1 })) fun _ => True :=
    .modify (fun _ => rfl) trivial
  rw [predict_eq]
  -- The cache may be renewed on the way, so from here on only its being in range is kept.
  refine (Cache.lasting_safe (hcount.safe hs)).bind fun _ s₁ hs₁ _ _ => .get_bind (.get_bind ?_)
  obtain rfl : s₁.cache.net = net := hs₁.net_eq
  have hr := request_sound hnet hindexed hs₁ settings host fuel stream decision callers
  refine (outcome_safe (r := s₁.request settings host fuel stream decision callers) hr
    hs₁).bind fun first s₂ hs₂ _ hfirst => ?_
  refine (strictAgain_safe hr hs₂ _ hfirst).bind fun result s₃ hs₃ _ hresult => ?_
  exact Cache.lasting_safe ((close_untouched stream hresult).safe hs₃)

end Session

end AdaptiveLL
