import AdaptiveLL.Proofs.Prediction.Ambiguities

/-!
# The accounts of predictions

What the statistics count adds up. An attempt that meets no ceiling looks into the table once for
every symbol that it counts; it counts a report where it delivers it; and where it turns to the call
stack it says so, and then says how that ended: at a dead end, with one alternative left, or with an
ambiguity.

`Request.course` is an attempt up to the end of its loops. It tells whether the call stack was asked
and where that ended, so an attempt is its course and what follows from where that ended.
-/

namespace AdaptiveLL

open Run (Untouched FailsWith)

/-! ## Tallies -/

/-- What is counted for a decision. -/
inductive Entry where
  | invocations
  | errors
  /-- Cells that were looked for in the table. -/
  | lookups
  /-- Symbols looked at without the call stack. -/
  | symbols
  | reports (kind : ReportKind)
deriving DecidableEq

/-- How often each entry was made. -/
abbrev Tally := Entry → Nat

/-- What the counters of a decision say. -/
def DecisionStats.tally (c : DecisionStats) : Tally
  | .invocations => c.invocations
  | .errors => c.errors
  | .lookups => c.hits + c.misses
  | .symbols => c.sllLookahead
  | .reports .ambiguity => c.ambiguities
  | .reports .fullContext => c.fallbacks
  | .reports .contextSensitivity => c.contextSensitivities

namespace Tally

/-- One entry. -/
def one (e : Entry) : Tally := fun e' => if e' = e then 1 else 0

/-- The entry for a failure, if there was one. -/
def failed (failure : Bool) : Tally
  | .errors => failure.toNat
  | _ => 0

/-- The entries for symbols. -/
def looked (lookups symbols : Nat) : Tally
  | .lookups => lookups
  | .symbols => symbols
  | _ => 0

/-- The entries for reports. -/
def delivered (reports : List Report) : Tally
  | .reports kind => (reports.map Report.kind).count kind
  | _ => 0

theorem failed_true : failed true = one .errors := by
  funext e
  cases e <;> rfl

theorem failed_false : failed false = 0 := by
  funext e
  cases e <;> rfl

theorem looked_add (a b a' b' : Nat) : looked a b + looked a' b' = looked (a + a') (b + b') := by
  funext e
  cases e <;> rfl

@[simp] theorem looked_zero : looked 0 0 = 0 := by
  funext e
  cases e <;> rfl

@[simp] theorem delivered_nil : delivered [] = 0 := by
  funext e
  cases e <;> rfl

theorem delivered_append (l l' : List Report) : delivered (l ++ l') = delivered l + delivered l' := by
  funext e
  cases e <;> simp [delivered]

theorem delivered_singleton (rep : Report) : delivered [rep] = one (.reports rep.kind) := by
  funext e
  cases e with
  | reports kind =>
    by_cases hkind : kind = rep.kind
    · simp [delivered, one, hkind]
    · simp [delivered, one, hkind, Ne.symm hkind]
  | _ => simp [delivered, one]

end Tally

namespace DecisionStats

variable (c : DecisionStats) (n : Nat)

theorem tally_evaluated : { c with evaluations := c.evaluations + n }.tally = c.tally := by
  funext e
  rcases e with _ | _ | _ | _ | ⟨_ | _ | _⟩ <;> rfl

theorem tally_recordLl : (c.recordLl n).tally = c.tally := by
  funext e
  rcases e with _ | _ | _ | _ | ⟨_ | _ | _⟩ <;> rfl

theorem tally_recordSll : (c.recordSll n).tally = c.tally + .looked 0 n := by
  funext e
  rcases e with _ | _ | _ | _ | ⟨_ | _ | _⟩ <;> rfl

theorem tally_hit : { c with hits := c.hits + 1 }.tally = c.tally + .looked 1 0 := by
  funext e
  rcases e with _ | _ | _ | _ | ⟨_ | _ | _⟩
  case lookups => exact Nat.add_right_comm _ _ _
  all_goals rfl

theorem tally_miss : { c with misses := c.misses + 1 }.tally = c.tally + .looked 1 0 := by
  funext e
  rcases e with _ | _ | _ | _ | ⟨_ | _ | _⟩ <;> rfl

theorem tally_invocation :
    { c with invocations := c.invocations + 1 }.tally = c.tally + .one .invocations := by
  funext e
  rcases e with _ | _ | _ | _ | ⟨_ | _ | _⟩ <;> rfl

theorem tally_error : { c with errors := c.errors + 1 }.tally = c.tally + .one .errors := by
  funext e
  rcases e with _ | _ | _ | _ | ⟨_ | _ | _⟩ <;> rfl

theorem tally_ambiguity :
    { c with ambiguities := c.ambiguities + 1 }.tally = c.tally + .one (.reports .ambiguity) := by
  funext e
  rcases e with _ | _ | _ | _ | ⟨_ | _ | _⟩ <;> rfl

theorem tally_fallback :
    { c with fallbacks := c.fallbacks + 1 }.tally = c.tally + .one (.reports .fullContext) := by
  funext e
  rcases e with _ | _ | _ | _ | ⟨_ | _ | _⟩ <;> rfl

theorem tally_sensitivity :
    { c with contextSensitivities := c.contextSensitivities + 1 }.tally =
      c.tally + .one (.reports .contextSensitivity) := by
  funext e
  rcases e with _ | _ | _ | _ | ⟨_ | _ | _⟩ <;> rfl

end DecisionStats

/-! ## Accounts of sessions -/

namespace Session

variable {s t u : Session} {d : Nat} {own own' : Tally} {reports reports' : List Report}

/-- What is counted for a decision in a session. -/
def tally? (s : Session) (d : Nat) : Option Tally := (s.stats.get? d).map DecisionStats.tally

/-- The books of a session: what was reported, and what is counted for each decision. -/
def books (s : Session) : Recorder × (Nat → Option Tally) := (s.recorder, s.tally?)

theorem tally?_count {g : DecisionStats → DecisionStats} {own : Tally}
    (hg : ∀ c, (g c).tally = c.tally + own) (s : Session) (d d' : Nat) :
    (s.count d g).tally? d' = (s.tally? d').map fun τ => if d' = d then τ + own else τ := by
  unfold tally? count PredictionStats.get? PredictionStats.update
  dsimp only
  rw [Array.getElem?_modify, Option.map_map]
  by_cases hd : d = d'
  · subst hd
    simp only [if_true, Option.map_map]
    exact congrArg (Option.map · _) (funext fun c => hg c)
  · simp [hd, Ne.symm hd, Function.comp_def]

/-- **What was entered** from one session to another: some entries for the decision, and with them
the reports that were delivered, which are about the decision. -/
structure Entered (d : Nat) (s t : Session) (own : Tally) (reports : List Report) : Prop where
  recorder_eq : t.recorder = reports.foldl Recorder.record s.recorder
  about : ∀ rep ∈ reports, rep.decision = d
  tally?_eq : ∀ d', t.tally? d' =
    (s.tally? d').map fun τ => if d' = d then τ + (own + .delivered reports) else τ

theorem Entered.trans (h : s.Entered d t own reports) (h' : t.Entered d u own' reports') :
    s.Entered d u (own + own') (reports ++ reports') where
  recorder_eq := by rw [h'.recorder_eq, h.recorder_eq, List.foldl_append]
  about := by
    intro rep hrep
    rcases List.mem_append.mp hrep with hrep | hrep
    · exact h.about rep hrep
    · exact h'.about rep hrep
  tally?_eq d' := by
    rw [h'.tally?_eq, h.tally?_eq, Option.map_map]
    refine congrArg (Option.map · _) (funext fun τ => ?_)
    by_cases hd : d' = d
    · simp only [Function.comp_apply, if_pos hd, Tally.delivered_append]
      rw [add_assoc, add_add_add_comm]
    · simp only [Function.comp_apply, if_neg hd]

/-- Nothing is entered where the books stay as they are. -/
theorem Entered.of_books (h : t.books = s.books) : s.Entered d t 0 [] where
  recorder_eq := congrArg Prod.fst h
  about := nofun
  tally?_eq d' := by
    rw [show t.tally? d' = s.tally? d' from congrFun (congrArg Prod.snd h) d']
    simp

theorem Entered.refl (s : Session) : s.Entered d s 0 [] := .of_books rfl

/-- A counter is raised. -/
theorem Entered.count {g : DecisionStats → DecisionStats} (hg : ∀ c, (g c).tally = c.tally + own) :
    s.Entered d (s.count d g) own [] where
  recorder_eq := rfl
  about := nofun
  tally?_eq d' := by rw [tally?_count hg, Tally.delivered_nil, add_zero]

/-- A report is counted and delivered. -/
theorem Entered.report {g : DecisionStats → DecisionStats} {rep : Report}
    (hg : ∀ c, (g c).tally = c.tally + .one (.reports rep.kind)) (hd : rep.decision = d) :
    s.Entered d ((s.count d g).deliver rep) 0 [rep] where
  recorder_eq := by rw [deliver_recorder, count_recorder, List.foldl_cons, List.foldl_nil]
  about := by simp [hd]
  tally?_eq d' := by
    have hdeliver : ((s.count d g).deliver rep).tally? d' = (s.count d g).tally? d' := by
      unfold deliver
      dsimp only
      split <;> rfl
    rw [hdeliver, tally?_count hg, Tally.delivered_singleton, zero_add]

/-- What changes no tally does not show in the books. -/
private theorem books_count {g : DecisionStats → DecisionStats} (hg : ∀ c, (g c).tally = c.tally)
    (s : Session) (d : Nat) : (s.count d g).books = s.books := by
  have hsame : ∀ c, (g c).tally = c.tally + 0 := fun c => (hg c).trans (add_zero _).symm
  have hcount : ∀ d', (s.count d g).tally? d' = s.tally? d' := by
    intro d'
    rw [tally?_count hsame]
    simp
  exact Prod.ext rfl (funext hcount)

instance : Session.Aside Session.books where
  note _ _ := rfl
  callbacks _ _ := rfl
  evaluated s d n := books_count (·.tally_evaluated n) s d
  recorded s d n := books_count (·.tally_recordLl n) s d
  cache _ _ := rfl

end Session

/-! ## Entries of predictions -/

namespace Prediction

variable {α β : Type}

/-- A part that fails at ceilings alone. -/
abbrev Spends (m : Prediction α) : Prop := FailsWith m fun e _ => ∃ x, e = .exceeded x

/-- **What a part of a prediction enters, where it ends:** unless a ceiling is met, its answer, the
entries for the decision and the reports satisfy `Q`. -/
def Enters (d : Nat) (m : Prediction α) (s : Session)
    (Q : Except PredictionError α → Tally → List Report → Prop) : Prop :=
  m.Ensures s fun r t => Spent r ∨ ∃ own reports, s.Entered d t own reports ∧ Q r own reports

namespace Enters

variable {m : Prediction α} {f : α → Prediction β} {d : Nat} {s : Session}
  {Q Q' : Except PredictionError α → Tally → List Report → Prop}
  {R : Except PredictionError β → Tally → List Report → Prop}

theorem mono (h : Enters d m s Q) (himp : ∀ r own reports, Q r own reports → Q' r own reports) :
    Enters d m s Q' :=
  Run.Ensures.mono h fun r _ hr =>
    hr.imp_right fun ⟨own, reports, ht, hQ⟩ => ⟨own, reports, ht, himp r own reports hQ⟩

theorem pure {a : α} (h : Q (.ok a) 0 []) : Enters d (pure a) s Q :=
  Run.Ensures.pure (.inr ⟨0, [], .refl s, h⟩)

theorem throw {e : PredictionError} (h : Q (.error e) 0 []) :
    Enters d (throw e : Prediction α) s Q :=
  Run.Ensures.throw (.inr ⟨0, [], .refl s, h⟩)

theorem get_bind {f : Session → Prediction β} (h : Enters d (f s) s R) :
    Enters d (get >>= f) s R :=
  Run.Ensures.get_bind h

/-- A part that enters nothing. -/
theorem quiet {P : α → Prop} (hm : Untouched Session.books m P) (hQ : ∀ r, Q r 0 []) :
    Enters d m s Q :=
  (hm s).mono fun r _ ⟨ht, _⟩ => .inr ⟨0, [], .of_books ht, hQ r⟩

/-- Two parts in a row. -/
theorem bind (h : Enters d m s Q)
    (hok : ∀ a t own reports, Q (.ok a) own reports →
      Enters d (f a) t fun r own' reports' => R r (own + own') (reports ++ reports'))
    (herr : ∀ e own reports, Q (.error e) own reports → R (.error e) own reports) :
    Enters d (m >>= f) s R := by
  refine Run.Ensures.bind h ?_ ?_
  · rintro a t (⟨e, he⟩ | ⟨own, reports, ht, hQ⟩)
    · cases he
    · refine Run.Ensures.mono (hok a t own reports hQ) fun r u hr => hr.imp_right ?_
      rintro ⟨own', reports', hu, hR⟩
      exact ⟨_, _, ht.trans hu, hR⟩
  · rintro e t (⟨x, hx⟩ | ⟨own, reports, ht, hQ⟩)
    · exact .inl ⟨x, congrArg _ (Except.error.inj hx)⟩
    · exact .inr ⟨own, reports, ht, herr e own reports hQ⟩

/-- A first part that enters nothing. -/
theorem skip {P : α → Prop} (hm : Untouched Session.books m P)
    (hok : ∀ a t, Enters d (f a) t R) (herr : ∀ e, R (.error e) 0 []) :
    Enters d (m >>= f) s R := by
  refine bind (Q := fun _ own reports => own = 0 ∧ reports = []) (quiet hm fun _ => ⟨rfl, rfl⟩) ?_ ?_
  · rintro a t _ _ ⟨rfl, rfl⟩
    simpa only [zero_add, List.nil_append] using hok a t
  · rintro e _ _ ⟨rfl, rfl⟩
    exact herr e

/-- A first part that enters nothing and fails at ceilings alone. -/
theorem after {P : α → Prop} (hm : Untouched Session.books m P) (hspends : Spends m)
    (hok : ∀ a t, Enters d (f a) t R) : Enters d (m >>= f) s R := by
  refine Run.Ensures.bind (Run.Ensures.and (hm s) (hspends s)) ?_ ?_
  · rintro a t ⟨⟨ht, -⟩, -⟩
    refine Run.Ensures.mono (hok a t) fun r u hr => hr.imp_right ?_
    rintro ⟨own, reports, hu, hR⟩
    have hboth := (Session.Entered.of_books (d := d) ht).trans hu
    rw [zero_add, List.nil_append] at hboth
    exact ⟨own, reports, hboth, hR⟩
  · rintro e t ⟨-, hfail⟩
    obtain ⟨x, rfl⟩ := hfail e rfl
    exact .inl ⟨x, rfl⟩

/-- A part that enters nothing and fails at ceilings alone. -/
theorem settled {P : α → Prop} (hm : Untouched Session.books m P) (hspends : Spends m)
    (hQ : ∀ a, Q (.ok a) 0 []) : Enters d m s Q := by
  rw [← bind_pure m]
  exact after hm hspends fun a _ => pure (hQ a)

theorem map {g : α → β} (h : Enters d m s fun r => R (r.map g)) : Enters d (g <$> m) s R := by
  rw [← bind_pure_comp]
  refine bind h (fun a t own reports ha => ?_) fun e own reports he => he
  apply pure
  rw [add_zero, List.append_nil]
  exact ha

/-- The counters are raised first. -/
theorem count_bind {q : Question} {g : DecisionStats → DecisionStats} {own : Tally}
    {f : PUnit → Prediction β} (hd : q.decision = d) (hg : ∀ c, (g c).tally = c.tally + own)
    (h : ∀ t, Enters d (f ⟨⟩) t fun r own' => R r (own + own')) :
    Enters d (Prediction.count q g >>= f) s R := by
  subst hd
  refine Run.Ensures.modify_bind (Run.Ensures.mono (h _) fun r t hr => hr.imp_right ?_)
  rintro ⟨own', reports, ht, hR⟩
  have hboth := (Session.Entered.count (s := s) hg).trans ht
  rw [List.nil_append] at hboth
  exact ⟨_, _, hboth, hR⟩

/-- A report is counted and delivered first. -/
theorem report_bind {q : Question} {g : DecisionStats → DecisionStats} {rep : Report}
    {f : PUnit → Prediction β} (hq : q.decision = d)
    (hg : ∀ c, (g c).tally = c.tally + .one (.reports rep.kind)) (hd : rep.decision = d)
    (h : ∀ t, Enters d (f ⟨⟩) t fun r own reports => R r own (rep :: reports)) :
    Enters d (Prediction.count q g >>= fun _ =>
      (modify (·.deliver rep) : Prediction PUnit) >>= f) s R := by
  subst hq
  refine Run.Ensures.modify_bind (Run.Ensures.modify_bind
    (Run.Ensures.mono (h _) fun r t hr => hr.imp_right ?_))
  rintro ⟨own, reports, ht, hR⟩
  have hboth := (Session.Entered.report (s := s) hg hd).trans ht
  rw [zero_add] at hboth
  exact ⟨_, _, hboth, hR⟩

end Enters

end Prediction

/-! ## The course of an attempt -/

/-- A loop that is followed by something may do it in its last round. -/
theorem Run.loop_bind {ε σ α β γ : Type} {step : α → Run ε σ (α ⊕ β)} {f : β → Run ε σ γ}
    {step' : α → Run ε σ (α ⊕ γ)}
    (hstep : ∀ a, step' a = step a >>= Sum.elim (fun a => pure (.inl a)) fun b => .inr <$> f b)
    (fuel : Nat) (a : α) : loop step' fuel a = loop step fuel a >>= f := by
  induction fuel generalizing a with
  | zero => rfl
  | succ fuel ih =>
    rw [loop, loop, hstep, bind_assoc, bind_assoc]
    refine bind_congr fun next => ?_
    cases next with
    | inl a' => simpa using ih a'
    | inr b => simp

namespace Request

open Prediction

/-- Where the loop of a prediction with the call stack ends. -/
abbrev Last := (ConfigSet × TokenStream) ⊕ FullEnd

variable (r : Request)

/-- What follows where the loops of an attempt ended: an answer is given, and a prediction with the
call stack is finished. -/
def finish : Nat ⊕ Last → Prediction Nat := Sum.elim pure r.finishFull

/-- The turn to the call stack, up to the end of its loop. -/
def turnCourse (row : Row) (stream : TokenStream) (passing : AltSet) : Prediction (Nat ⊕ Last) :=
  match passing.toList with
  | [alt] => pure (.inl alt)
  | _ =>
    Prediction.count r.toQuestion (fun c => { c with fallbacks := c.fallbacks + 1 }) >>= fun _ =>
    (modify (·.deliver (r.report .fullContext stream.index
      (row.configs.conflicting.getD row.configs.alts) false noAlternative)) :
        Prediction PUnit) >>= fun _ =>
    Prediction.grow r.toQuestion (StackGraph.ofCallers r.net r.callers) >>= fun stack =>
    Prediction.probe r.toQuestion (r.startSet true stack) >>= fun start =>
    .inr <$> Run.loop r.fullStep r.fuel ⟨start, r.stream, 0⟩

/-- The answer of a row, after a conflict was reported if the settings ask for it. -/
def settle (row : Row) (stream : TokenStream) : Prediction Nat :=
  (if row.needsContext && r.settings.reportSllConflicts then
    r.reportAmbiguity stream.index (row.configs.conflicting.getD .empty) false row.prediction
  else pure ⟨⟩) >>= fun _ => r.answer row stream

/-- One symbol of an attempt. -/
def stepCourse (p : Point) : Prediction (Point ⊕ (Nat ⊕ Last)) :=
  r.checkLookahead (p.read + 1) >>= fun _ =>
  r.next p.place (p.stream.lookAhead 1) >>= fun next =>
  match next with
  | none =>
    Prediction.count r.toQuestion (·.recordSll (p.read + 1)) >>= fun _ =>
    Prediction.table r.toQuestion >>= fun t =>
    .inr <$> .inl <$> r.deadEnd (t.row p.place).configs p.stream
  | some place => Prediction.table r.toQuestion >>= fun t =>
    if (t.row place).needsContext && r.settings.mode != .sll then
      Prediction.count r.toQuestion (·.recordSll (p.read + 1)) >>= fun _ =>
      .inr <$> (r.passingOf (t.row place) >>= r.turnCourse (t.row place) p.stream)
    else if (t.row place).accepting then
      Prediction.count r.toQuestion (·.recordSll (p.read + 1)) >>= fun _ =>
      .inr <$> .inl <$> r.settle (t.row place) p.stream
    else pure (.inl ⟨place, p.stream.consume, p.read + 1⟩)

/-- **The course of an attempt,** up to the end of its loops: an answer without the call stack, or
where the loop with the call stack ended. -/
def course : Prediction (Nat ⊕ Last) :=
  get >>= fun s =>
  if s.cache.tables.size ≤ r.decision then
    throw (.unknownDecision r.decision s.cache.tables.size)
  else r.startPlace >>= fun place => Run.loop r.stepCourse r.fuel ⟨place, r.stream, 0⟩

theorem turn_eq_course (row : Row) (stream : TokenStream) (passing : AltSet) :
    r.turn row stream passing = r.turnCourse row stream passing >>= r.finish := by
  have hfull : ∀ start, r.predictFull start =
      (.inr <$> Run.loop r.fullStep r.fuel ⟨start, r.stream, 0⟩ : Prediction (Nat ⊕ Last)) >>=
        r.finish := by
    intro start
    rw [predictFull_eq, bind_map_left]
    rfl
  unfold turn turnCourse
  rcases passing.toList with _ | ⟨a, _ | ⟨b, l⟩⟩
  · simp only [bind_assoc, ← hfull]
  · exact (pure_bind _ _).symm
  · simp only [bind_assoc, ← hfull]

theorem step_eq_course (p : Point) :
    r.step p = r.stepCourse p >>= Sum.elim (fun p => pure (.inl p)) fun x => .inr <$> r.finish x := by
  have hround : ∀ m : Prediction (Nat ⊕ Last), (.inr <$> (m >>= r.finish) : Prediction (Point ⊕ Nat)) =
      (.inr <$> m : Prediction (Point ⊕ (Nat ⊕ Last))) >>=
        Sum.elim (fun p => pure (.inl p)) fun x => .inr <$> r.finish x := by
    intro m
    rw [bind_map_left, map_bind]
    rfl
  have hsettled : ∀ m : Prediction Nat, m = (.inl <$> m : Prediction (Nat ⊕ Last)) >>= r.finish := by
    intro m
    rw [bind_map_left]
    exact (bind_pure m).symm
  rw [step_eq]
  unfold stepCourse
  simp only [bind_assoc]
  refine bind_congr fun _ => bind_congr fun next => ?_
  cases next with
  | none =>
    simp only [bind_assoc, ← hround, ← hsettled]
  | some place =>
    simp only [bind_assoc]
    refine bind_congr fun t => ?_
    split
    · have hturn : r.turn (t.row place) p.stream =
          fun passing => r.turnCourse (t.row place) p.stream passing >>= r.finish :=
        funext (r.turn_eq_course _ _)
      rw [bind_assoc, ← hround, bind_assoc, ← hturn, escalate_eq]
      rfl
    · split
      · have hsettle : r.conclude (t.row place) p.stream =
            .inr <$> r.settle (t.row place) p.stream := (map_bind _ _ _).symm
        simp only [bind_assoc, ← hround, ← hsettled, hsettle]
      · simp

/-- **An attempt is its course,** and what follows from where that ended. -/
theorem attempt_eq_course : r.attempt = r.course >>= r.finish := by
  rw [attempt_eq]
  unfold course
  rw [bind_assoc]
  refine bind_congr fun s => ?_
  split
  · rfl
  · rw [bind_assoc]
    exact bind_congr fun place => Run.loop_bind r.step_eq_course r.fuel _

end Request

/-! ## Entries of an attempt -/

namespace Prediction

variable {α : Type} {q : Question}

theorem probe_spends (m : Probe α) : Spends (probe q m) := by
  intro s r t hrun e he
  rw [from?_probe] at hrun
  obtain ⟨⟨r₁, trail⟩, -, heq⟩ := Option.map_eq_some_iff.mp hrun
  obtain ⟨rfl, -⟩ := Prod.mk.inj heq
  cases r₁ with
  | ok a => cases he
  | error x => exact ⟨x, (Except.error.inj he).symm⟩

theorem table_spends : Spends (table q) := .get_bind fun _ => .pure

theorem install_spends (row : Row) : Spends (install q row) := by
  have hnotes : ∀ events : Option Event, Spends (events.forM note) := by
    intro events
    cases events with
    | none => exact .pure
    | some event => exact .modify
  rw [Request.install_eq]
  exact table_spends.bind fun _ => .bind .modify fun _ => (hnotes _).bind fun _ => .pure

end Prediction

namespace Request

open Prediction

variable {r : Request} {s : Session}

theorem checkLookahead_spends (n : Nat) : Spends (r.checkLookahead n) := by
  unfold checkLookahead
  split
  · exact fun s => .throw fun e he => ⟨_, (Except.error.inj he).symm⟩
  · exact .pure

theorem fullStep_spends (p : FullPoint) : Spends (r.fullStep p) := by
  unfold fullStep
  refine (checkLookahead_spends _).bind fun _ => (probe_spends _).bind fun next => ?_
  cases next with
  | none => exact .bind .modify fun _ => .pure
  | some configs =>
    dsimp only
    split <;> exact .pure

theorem target_spends (p : Place) (v : Symbol) : Spends (r.target p v) := by
  have hstops : ∀ c : ConfigSet, Spends (r.stopsAt c) := by
    intro c
    unfold stopsAt
    exact .ite .pure (probe_spends _)
  have hrow : ∀ c : ConfigSet, Spends (r.targetRow c v) := by
    intro c
    rw [targetRow_eq]
    refine (probe_spends _).bind fun next => ?_
    cases next with
    | none => exact .pure
    | some next => exact (hstops next).bind fun _ => .pure
  rw [target_eq]
  refine table_spends.bind fun t => (hrow _).bind fun row => ?_
  cases row with
  | none =>
    unfold keepRow
    exact .ite (.bind .modify fun _ => .pure) .pure
  | some row =>
    unfold keepRow
    exact .ite .pure ((install_spends row).bind fun _ => table_spends.bind fun _ =>
      .bind .modify fun _ => .pure)

/-- **A cell is looked for once,** whether it is found or not. -/
theorem next_enters (p : Place) (v : Symbol) :
    Enters r.decision (r.next p v) s fun res own reports =>
      (∃ next, res = .ok next) ∧ own = .looked 1 0 ∧ reports = [] := by
  rw [next_eq]
  refine .after table_untouched table_spends fun t u => ?_
  cases (if r.settings.useCache then t.cell? p v else none) with
  | some c =>
    refine .count_bind rfl (·.tally_hit) fun _ => ?_
    cases c with
    | row n => exact .pure ⟨⟨_, rfl⟩, add_zero _, rfl⟩
    | dead => exact .pure ⟨⟨_, rfl⟩, add_zero _, rfl⟩
  | none =>
    have hlog : Spends (if r.settings.logMisses then Prediction.note (r.missEvent p v)
        else Pure.pure ⟨⟩) := .ite .modify .pure
    refine .count_bind rfl (·.tally_miss) fun _ => .after (logMiss_untouched p v) hlog fun _ _ => ?_
    exact .settled (target_silent p v) (target_spends p v) fun _ => ⟨⟨_, rfl⟩, add_zero _, rfl⟩

/-- The kinds of what is reported about the end of a prediction with the call stack: nothing about
a dead end, a settled conflict if the settings ask for it, and any other conflict. -/
def endKinds (settings : PredictionSettings) : Last → List ReportKind
  | .inl _ => []
  | .inr e =>
    if e.unique then if settings.reportContextSensitivity then [.contextSensitivity] else []
    else [.ambiguity]

/-- The kinds of what the course of an attempt reports: that the call stack is asked, or else a
conflict at most. -/
def CourseKinds (res : Except PredictionError (Nat ⊕ Last)) (kinds : List ReportKind) : Prop :=
  match res with
  | .ok (.inr _) => kinds = [.fullContext]
  | _ => kinds = [] ∨ kinds = [.ambiguity]

/-- **The end of a prediction with the call stack is reported** as its kind is. -/
theorem finishFull_enters (last : Last) :
    Enters r.decision (r.finishFull last) s fun _ own reports =>
      own = 0 ∧ reports.map Report.kind = endKinds r.settings last := by
  cases last with
  | inl dead => exact .quiet (deadEnd_untouched _) fun _ => ⟨rfl, rfl⟩
  | inr e =>
    unfold finishFull endKinds
    dsimp only
    rw [concludeFull_eq]
    refine .count_bind rfl (fun c => (c.tally_recordLl _).trans (add_zero _).symm) fun _ => ?_
    split
    · split
      · refine .report_bind rfl (·.tally_sensitivity) rfl fun _ => .pure ⟨add_zero _, rfl⟩
      · exact .pure ⟨add_zero _, rfl⟩
    · unfold reportAmbiguity
      rw [bind_assoc]
      exact .report_bind rfl (·.tally_ambiguity) rfl fun _ => .pure ⟨add_zero _, rfl⟩

/-- **The turn to the call stack is reported,** unless the guards have settled the conflict. -/
theorem turnCourse_enters (row : Row) (stream : TokenStream) (passing : AltSet) :
    Enters r.decision (r.turnCourse row stream passing) s fun res own reports =>
      own = 0 ∧ CourseKinds res (reports.map Report.kind) := by
  have hfull : Enters r.decision (Prediction.count r.toQuestion (fun c =>
        { c with fallbacks := c.fallbacks + 1 }) >>= fun _ =>
      (modify (·.deliver (r.report .fullContext stream.index
        (row.configs.conflicting.getD row.configs.alts) false noAlternative)) :
          Prediction PUnit) >>= fun _ =>
      Prediction.grow r.toQuestion (StackGraph.ofCallers r.net r.callers) >>= fun stack =>
      Prediction.probe r.toQuestion (r.startSet true stack) >>= fun start =>
      (.inr <$> Run.loop r.fullStep r.fuel ⟨start, r.stream, 0⟩ : Prediction (Nat ⊕ Last))) s
      fun res own reports => own = 0 ∧ CourseKinds res (reports.map Report.kind) := by
    refine .report_bind rfl (·.tally_fallback) rfl fun _ => ?_
    refine .after (grow_untouched _) (probe_spends _) fun stack _ => ?_
    refine .after (probe_untouched _) (probe_spends _) fun start _ => .map ?_
    exact .settled (.loop fullStep_untouched) (.loop fullStep_spends _ _) fun last => ⟨rfl, rfl⟩
  unfold turnCourse
  rcases passing.toList with _ | ⟨a, _ | ⟨b, l⟩⟩
  · exact hfull
  · exact .pure ⟨rfl, .inl rfl⟩
  · exact hfull

/-- **A conflict that is settled without the call stack** is reported once at most. -/
theorem settle_enters (row : Row) (stream : TokenStream) :
    Enters r.decision (r.settle row stream) s fun _ own reports =>
      own = 0 ∧ (reports.map Report.kind = [] ∨ reports.map Report.kind = [.ambiguity]) := by
  have hanswer : Untouched Session.books (r.answer row stream) fun _ => True :=
    answer_untouched (fun _ => trivial) fun _ _ _ _ => trivial
  unfold settle
  split
  · unfold reportAmbiguity
    rw [bind_assoc]
    refine .report_bind rfl (·.tally_ambiguity) rfl fun _ => ?_
    exact .quiet hanswer fun _ => ⟨rfl, .inr rfl⟩
  · exact .quiet hanswer fun _ => ⟨rfl, .inl rfl⟩

/-- What a round of the course has entered. -/
def RoundEntries (p : Point) (res : Except PredictionError (Point ⊕ (Nat ⊕ Last))) (own : Tally)
    (reports : List Report) : Prop :=
  match res with
  | .ok (.inl p') => own = .looked 1 0 ∧ reports = [] ∧ p'.read = p.read + 1
  | .ok (.inr x) => own = .looked 1 (p.read + 1) ∧ CourseKinds (.ok x) (reports.map Report.kind)
  | .error e => own = .looked 1 (p.read + 1) ∧ CourseKinds (.error e) (reports.map Report.kind)

theorem stepCourse_enters (p : Point) :
    Enters r.decision (r.stepCourse p) s (RoundEntries p) := by
  -- What is done last is done after the cell was looked for and the symbols were counted.
  have hlast : ∀ {m : Prediction (Nat ⊕ Last)} {u : Session},
      Enters r.decision m u (fun res own reports =>
        own = 0 ∧ CourseKinds res (reports.map Report.kind)) →
      Enters r.decision (.inr <$> m : Prediction (Point ⊕ (Nat ⊕ Last))) u fun res own reports =>
        RoundEntries p res (.looked 1 0 + (.looked 0 (p.read + 1) + own)) ([] ++ reports) := by
    intro m u hm
    have hown : Tally.looked 1 0 + (Tally.looked 0 (p.read + 1) + 0) =
        Tally.looked 1 (p.read + 1) := by
      rw [add_zero, Tally.looked_add, Nat.add_zero, Nat.zero_add]
    refine .map (hm.mono ?_)
    rintro (e | x) own reports ⟨rfl, hkinds⟩
    · exact ⟨hown, hkinds⟩
    · exact ⟨hown, hkinds⟩
  unfold stepCourse
  refine .after (checkLookahead_untouched _) (checkLookahead_spends _) fun _ _ => ?_
  refine .bind (next_enters _ _) ?_ ?_
  · rintro next u _ _ ⟨-, rfl, rfl⟩
    cases next with
    | none =>
      refine .count_bind rfl (·.tally_recordSll _) fun _ => ?_
      refine .after table_untouched table_spends fun t _ => hlast (.map ?_)
      refine .quiet (deadEnd_untouched _) fun res => ⟨rfl, ?_⟩
      cases res <;> exact .inl rfl
    | some place =>
      refine .after table_untouched table_spends fun t _ => ?_
      split
      · refine .count_bind rfl (·.tally_recordSll _) fun _ => hlast ?_
        refine .skip (passingOf_untouched (P := fun _ => True) fun _ _ _ _ => trivial)
          (fun passing _ => turnCourse_enters _ _ passing) fun _ => ⟨rfl, .inl rfl⟩
      · split
        · refine .count_bind rfl (·.tally_recordSll _) fun _ => hlast (.map ?_)
          refine (settle_enters _ _).mono fun res own reports ⟨hown, hkinds⟩ => ⟨hown, ?_⟩
          cases res <;> exact hkinds
        · exact .pure ⟨add_zero _, rfl, rfl⟩
  · rintro e _ _ ⟨⟨_, hok⟩, -⟩
    cases hok

end Request

namespace Request

open Prediction

variable {r : Request} {s : Session}

/-- **The course of an attempt** looks for one cell for each symbol that it counts. -/
theorem course_enters : Enters r.decision r.course s fun res own reports =>
    (∃ n, own = .looked n n) ∧ CourseKinds res (reports.map Report.kind) := by
  have hnone : ∃ n, (0 : Tally) = .looked n n := ⟨0, Tally.looked_zero.symm⟩
  unfold course
  refine .get_bind ?_
  split
  · exact .throw ⟨hnone, .inl rfl⟩
  refine .skip startPlace_silent (fun place t => ?_) fun _ => ⟨hnone, .inl rfl⟩
  -- As many cells were looked for as symbols were read.
  refine Run.Ensures.loop (fun p u => t.Entered r.decision u (.looked p.read 0) []) ?_ ?_
  · intro p u hu
    have hlast : ∀ {own : Tally}, own = .looked 1 (p.read + 1) →
        ∃ n, .looked p.read 0 + own = .looked n n := by
      rintro _ rfl
      exact ⟨p.read + 1, by rw [Tally.looked_add, Nat.zero_add]⟩
    refine Run.Ensures.mono (stepCourse_enters (s := u) p) ?_
    rintro (e | (p' | x)) v (⟨y, hy⟩ | ⟨own, reports, hv, hround⟩)
    · exact .inl ⟨y, congrArg _ (Except.error.inj hy)⟩
    · obtain ⟨hown, hkinds⟩ := hround
      exact .inr ⟨_, _, hu.trans hv, hlast hown, hkinds⟩
    · cases hy
    · obtain ⟨rfl, rfl, hread⟩ := hround
      have hnext := hu.trans hv
      rwa [Tally.looked_add, ← hread] at hnext
    · cases hy
    · obtain ⟨hown, hkinds⟩ := hround
      exact .inr ⟨_, _, hu.trans hv, hlast hown, hkinds⟩
  · rw [Tally.looked_zero]
    exact .refl t

/-- **Where the call stack was asked, and how that ended:** where the loop of the prediction with
the call stack ended that an attempt came to, if it came to one. -/
def fullEnd? (r : Request) (s : Session) : Option Last :=
  match r.course.from? s with
  | some (.ok (.inr last), _) => some last
  | _ => none

/-- The kinds of what an attempt reports. -/
def AttemptKinds (settings : PredictionSettings) (last? : Option Last)
    (kinds : List ReportKind) : Prop :=
  match last? with
  | none => kinds = [] ∨ kinds = [.ambiguity]
  | some last => kinds = .fullContext :: endKinds settings last

theorem AttemptKinds.length_le {settings : PredictionSettings} {last? : Option Last}
    {kinds : List ReportKind} (h : AttemptKinds settings last? kinds) : kinds.length ≤ 2 := by
  match last? with
  | none => rcases h with rfl | rfl <;> simp
  | some (.inl dead) =>
    obtain rfl : kinds = [.fullContext] := h
    simp
  | some (.inr e) =>
    obtain rfl : kinds = .fullContext :: endKinds settings (.inr e) := h
    simp only [endKinds]
    split
    · split <;> simp
    · simp

/-- **What an attempt enters.** -/
theorem attempt_enters : Enters r.decision r.attempt s fun _ own reports =>
    (∃ n, own = .looked n n) ∧
      AttemptKinds r.settings (r.fullEnd? s) (reports.map Report.kind) := by
  intro result t hrun
  rw [attempt_eq_course, Run.from?_bind] at hrun
  obtain ⟨⟨res, u⟩, hcourse, hrest⟩ := Option.bind_eq_some_iff.mp hrun
  have hend : ∀ {last? : Option Last}, (match (some (res, u) : Option (_ × Session)) with
      | some (.ok (.inr last), _) => some last
      | _ => none) = last? → r.fullEnd? s = last? := by
    rintro _ rfl
    unfold fullEnd?
    rw [hcourse]
  have hentered := course_enters (s := s) res u hcourse
  rcases res with e | (a | last)
  · obtain ⟨rfl, rfl⟩ : .error e = result ∧ u = t := by simpa using hrest
    rw [hend rfl]
    exact hentered.imp_left fun ⟨x, hx⟩ => ⟨x, congrArg _ (Except.error.inj hx)⟩
  · obtain ⟨rfl, rfl⟩ : .ok a = result ∧ u = t := by simpa [finish] using hrest
    rw [hend rfl]
    exact hentered.imp_left fun ⟨x, hx⟩ => nomatch hx
  · rw [hend rfl]
    obtain ⟨own, reports, hu, hown, hkinds⟩ := hentered.resolve_left fun ⟨x, hx⟩ => nomatch hx
    refine (finishFull_enters (s := u) last result t hrest).imp_right ?_
    rintro ⟨_, reports', ht, rfl, hkinds'⟩
    refine ⟨_, _, hu.trans ht, ?_, ?_⟩
    · rwa [add_zero]
    · unfold AttemptKinds
      rw [List.map_append, hkinds', show reports.map Report.kind = [.fullContext] from hkinds]
      rfl

end Request

end AdaptiveLL
