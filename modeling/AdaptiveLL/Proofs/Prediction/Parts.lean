import AdaptiveLL.Prediction.Predict

/-!
# The parts of predictions

Some functions of a prediction, written as what they do first and what they do then. This is the
form in which a proof can follow them.
-/

namespace AdaptiveLL

namespace Question

/-- The configurations that consume a symbol are added one by one. -/
theorem consume_eq (q : Question) (v : Symbol) (full : Bool) (s : ConfigSet) :
    q.consume v full s = Probe.grow (((s.toList.filter (!q.atRuleStop ·)).flatMap fun c =>
      ((q.net.state c.state).transitions.filter (·.accepts v 0 q.net.maxTokenType)).map
        fun t => c.moveTo t.target).foldlM ConfigSet.insert (ConfigSet.forParser full)) := by
  unfold consume
  congr 1
  generalize ConfigSet.forParser full = acc
  induction s.toList.filter (!q.atRuleStop ·) generalizing acc with
  | nil => rfl
  | cons c cs ih =>
    rw [List.foldlM_cons, List.flatMap_cons, List.foldlM_append, List.foldlM_map]
    exact bind_congr ih

theorem reach_eq (q : Question) (v : Symbol) (full : Bool) (s : ConfigSet) :
    q.reach v full s = (q.consume v full s >>= fun moved =>
      (if (q.waiting v full s).isEmpty && !(v == Symbol.eof) &&
          (moved.size == 1 || moved.commonAlt != noAlternative) then pure moved
        else q.closeAll { full, atEof := v == Symbol.eof } moved) >>= fun next =>
      (if v == Symbol.eof then q.finished next else pure next) >>= fun next =>
      q.addWaiting full (q.waiting v full s) next >>= fun next =>
      pure (if next.isEmpty then none else some next)) := by
  unfold reach
  refine bind_congr fun moved => ?_
  dsimp only
  by_cases hsettled : ((q.waiting v full s).isEmpty && !(v == Symbol.eof) &&
      (moved.size == 1 || moved.commonAlt != noAlternative)) = true
  · rw [if_pos hsettled, if_pos hsettled]
    refine bind_congr fun next => ?_
    split <;> rfl
  · rw [if_neg hsettled, if_neg hsettled]
    refine bind_congr fun next => ?_
    split <;> rfl

end Question

namespace Request

/-- The number of alternatives of the decision. -/
abbrev altCount (r : Request) : Nat := (r.net.state r.entry).transitions.length

/-- Whether a prediction stops at a set, which is not looked into if the set speaks for one
alternative. -/
def stopsAt (r : Request) (s : ConfigSet) : Prediction Bool :=
  if s.commonAlt ≠ noAlternative then pure false
  else Prediction.grow r.toQuestion (s.endsPrediction r.settings.mode r.net)

theorem targetRow_eq (r : Request) (s : ConfigSet) (v : Symbol) :
    r.targetRow s v = (Prediction.probe r.toQuestion (r.reach v false s) >>= fun next =>
      match next with
      | none => pure none
      | some next => r.stopsAt next >>= fun ends =>
        pure (some (Row.classify next ends r.altCount))) := by
  unfold targetRow stopsAt
  refine bind_congr fun next => ?_
  cases next with
  | none => rfl
  | some next =>
    dsimp only
    split <;> rfl

theorem install_eq (q : Question) (row : Row) :
    Prediction.install q row = (Prediction.table q >>= fun t =>
      Prediction.setTable q (t.install row).2.2 >>= fun _ =>
        (t.install row).2.1.forM Prediction.note >>= fun _ => pure (t.install row).1) := rfl

theorem concludeFull_eq (r : Request) (e : FullEnd) :
    r.concludeFull e = (Prediction.count r.toQuestion (·.recordLl e.read) >>= fun _ =>
      if e.unique then
        if r.settings.reportContextSensitivity then
          Prediction.count r.toQuestion (fun c =>
            { c with contextSensitivities := c.contextSensitivities + 1 }) >>= fun _ =>
          (modify (·.deliver (r.report .contextSensitivity e.stop (.ofList [e.prediction]) false
            e.prediction)) : Prediction PUnit) >>= fun _ => pure e.prediction
        else pure e.prediction
      else r.reportAmbiguity e.stop e.configs.alts e.exact e.prediction >>= fun _ =>
        pure e.prediction) := by
  unfold concludeFull
  refine bind_congr fun _ => ?_
  split
  · split <;> rfl
  · rfl

/-- What is done at the end of a prediction with the call stack. -/
def finishFull (r : Request) : (ConfigSet × TokenStream) ⊕ FullEnd → Prediction Nat
  | .inl (configs, stream) => r.deadEnd configs stream
  | .inr e => r.concludeFull e

theorem predictFull_eq (r : Request) (start : ConfigSet) :
    r.predictFull start =
      Run.loop r.fullStep r.fuel ⟨start, r.stream, 0⟩ >>= r.finishFull := by
  unfold predictFull
  refine bind_congr fun last => ?_
  cases last <;> rfl

/-- The part of a prediction at a conflict that begins when it is known which alternatives pass. -/
def turn (r : Request) (row : Row) (stream : TokenStream) (passing : AltSet) :
    Prediction Nat :=
  match passing.toList with
  | [alt] => pure alt
  | _ =>
    Prediction.count r.toQuestion (fun c => { c with fallbacks := c.fallbacks + 1 }) >>= fun _ =>
    (modify (·.deliver (r.report .fullContext stream.index
      (row.configs.conflicting.getD row.configs.alts) false noAlternative)) :
        Prediction PUnit) >>= fun _ =>
    Prediction.grow r.toQuestion (StackGraph.ofCallers r.net r.callers) >>= fun stack =>
    Prediction.probe r.toQuestion (r.startSet true stack) >>= r.predictFull

theorem escalate_eq (r : Request) (row : Row) (stream : TokenStream) :
    r.escalate row stream = ((match row.choices with
      | some choices => r.passing choices
      | none => pure .empty) >>= r.turn row stream) := by
  unfold escalate turn
  cases row.choices <;> rfl

theorem next_eq (r : Request) (p : Place) (v : Symbol) :
    r.next p v = (Prediction.table r.toQuestion >>= fun t =>
      match if r.settings.useCache then t.cell? p v else none with
      | some c =>
        Prediction.count r.toQuestion (fun c => { c with hits := c.hits + 1 }) >>= fun _ =>
          match c with
          | .row n => pure (some (.row n))
          | .dead => pure none
      | none =>
        Prediction.count r.toQuestion (fun c => { c with misses := c.misses + 1 }) >>= fun _ =>
        (if r.settings.logMisses then Prediction.note (r.missEvent p v) else pure ⟨⟩) >>= fun _ =>
          r.target p v) := by
  unfold next
  refine bind_congr fun t => ?_
  cases (if r.settings.useCache then t.cell? p v else none) with
  | some c => rfl
  | none =>
    refine bind_congr fun _ => ?_
    split <;> rfl

/-- What is done at a row that answers without the call stack. -/
def conclude (r : Request) (row : Row) (stream : TokenStream) : Prediction (Point ⊕ Nat) :=
  (if row.needsContext && r.settings.reportSllConflicts then
    r.reportAmbiguity stream.index (row.configs.conflicting.getD .empty) false row.prediction
  else pure ⟨⟩) >>= fun _ => .inr <$> r.answer row stream

theorem step_eq (r : Request) (p : Point) :
    r.step p = (r.checkLookahead (p.read + 1) >>= fun _ =>
      r.next p.place (p.stream.lookAhead 1) >>= fun next =>
      match next with
      | none =>
        Prediction.count r.toQuestion (·.recordSll (p.read + 1)) >>= fun _ =>
        Prediction.table r.toQuestion >>= fun t =>
        .inr <$> r.deadEnd (t.row p.place).configs p.stream
      | some place => Prediction.table r.toQuestion >>= fun t =>
        if (t.row place).needsContext && r.settings.mode != .sll then
          Prediction.count r.toQuestion (·.recordSll (p.read + 1)) >>= fun _ =>
          .inr <$> r.escalate (t.row place) p.stream
        else if (t.row place).accepting then
          Prediction.count r.toQuestion (·.recordSll (p.read + 1)) >>= fun _ =>
          r.conclude (t.row place) p.stream
        else pure (.inl ⟨place, p.stream.consume, p.read + 1⟩)) := by
  unfold step conclude
  refine bind_congr fun _ => bind_congr fun next => ?_
  cases next with
  | none => rfl
  | some place =>
    refine bind_congr fun t => ?_
    dsimp only
    split
    · rfl
    · split
      · refine bind_congr fun _ => ?_
        split <;> rfl
      · rfl

end Request

namespace Session

/-- What follows a first attempt: a second one on a renewed cache, if the first one met a full
graph. -/
def again (r : Request) (seen : Nat) (first : Except PredictionError Nat) :
    Prediction (Except PredictionError Nat) :=
  match first with
  | .error e =>
    if e.isFullGraph then
      (modify (·.renew seen) : Prediction PUnit) >>= fun _ => r.attempt.outcome
    else pure first
  | .ok _ => pure first

/-- The end of a prediction: its result is given, and an error is counted and journaled. -/
def close (decision : Nat) (stream : TokenStream) (result : Except PredictionError Nat) :
    Prediction Nat :=
  match result with
  | .ok alt => pure alt
  | .error e =>
    (modify (·.count decision fun c => { c with errors := c.errors + 1 }) : Prediction PUnit) >>=
      fun _ => (modify (·.note (failureEvent decision stream.index e)) : Prediction PUnit) >>=
      fun _ => throw e

theorem predict_eq (settings : PredictionSettings) (host : Oracle) (fuel : Nat)
    (stream : TokenStream) (decision : Nat) (callers : List StateId) :
    predict settings host fuel stream decision callers =
      ((modify (·.count decision fun c => { c with invocations := c.invocations + 1 }) :
        Prediction PUnit) >>= fun _ =>
      get >>= fun s => get >>= fun s' =>
      (s.request settings host fuel stream decision callers).attempt.outcome >>= fun first =>
      again (s.request settings host fuel stream decision callers) s'.cache.generation first >>=
        close decision stream) := by
  unfold predict
  refine bind_congr fun _ => bind_congr fun s => bind_congr fun s' => bind_congr fun first => ?_
  cases first with
  | ok alt => rfl
  | error e =>
    unfold again
    dsimp only
    split
    · rw [bind_assoc]
      rfl
    · rfl

end Session

end AdaptiveLL
