import AdaptiveLL.Prediction.Predict
import AdaptiveLL.Proofs.Prediction.Deeds
import AdaptiveLL.Proofs.Prediction.Rows

/-!
# Predictions in terms of threads

`Request.Told` says what a prediction does, as a relation on sets of threads that knows no cache,
no graph of stacks and no configuration: how it goes on symbol after symbol, where it stops, what it
answers, reports and asks. `Request.FullTold` does so for the part with the call stack.
-/

namespace AdaptiveLL

/-- **What a prediction does,** seen from outside: its result, the reports it delivers and the
callbacks it makes. -/
structure Deed where
  result : Except PredictionError Nat
  reports : List Report := []
  asked : List Callback := []

/-- The states at which the calls of a parse go on, innermost first. -/
def Network.followsOf (net : Network) (callers : List StateId) : List StateId :=
  (callers.filterMap fun s => (net.state s).transitions.head?.bind Transition.follow?).reverse

namespace Question

/-- **The decision opens with the threads `T`:** every start set under the stack `σ` holds them, and
the callbacks `asked` are made on the way, unless one of the ceilings of a closure is met. If a host
changes its answers meanwhile, the start sets hold some threads or other. -/
def Opens (q : Question) (full : Bool) (σ : List StateId) (nodes : Nat) (T : Set Thread)
    (asked : List Callback) : Prop :=
  ∀ (tr : Trail) (stack : StackId), tr.graph.Sound → tr.graph.maxNodes = nodes →
    stack < tr.graph.size → tr.graph.stackSet stack = {σ} →
    (q.startSet full stack).Yields tr fun r tr' => tr.graph.Grown tr'.graph ∧
      (∀ s, r = .ok s → (∃ T', Proper T' ∧ Stage full T' s tr'.graph) ∧
        (q.Steady full → Stage full T s tr'.graph ∧ tr'.asked = tr.asked ++ asked)) ∧
        ∀ e, r = .error e → Exceeded.Ordinary tr.graph.maxDepth e

end Question

namespace Request

/-! ## Answers -/

/-- The alternatives whose guards hold. -/
def votes (r : Request) (choices : List Choice) : AltSet :=
  (choices.filter fun c => c.guard.isAlways || c.guard.holds r.host.now r.start).foldl
    (fun acc c => acc.insert c.alt) .empty

/-- The callbacks made to find that out. -/
def asks (r : Request) (choices : List Choice) : List Callback :=
  choices.flatMap fun c => if c.guard.isAlways then [] else c.guard.asked r.host.now r.start

/-- What a prediction does at a row that answers. -/
def answerDeed (r : Request) (row : Row) (stream : TokenStream) : Deed where
  result :=
    match row.choices with
    | none => .ok row.prediction
    | some choices =>
      match (r.votes choices).min? with
      | some alt => .ok alt
      | none => .error (r.noViable stream.index row.configs)
  reports :=
    if row.needsContext && r.settings.reportSllConflicts then
      [r.report .ambiguity stream.index (row.configs.conflicting.getD .empty) false row.prediction]
    else []
  asked := (row.choices.map r.asks).getD []

/-- **The guards of all choices are put to the host,** one after the other. -/
theorem passing_does (r : Request) (choices : List Choice) (c : Cache) :
    (r.passing choices).Does c fun res reports asked c' =>
      (∃ votes, res = .ok votes) ∧ reports = [] ∧ c' = c ∧ (r.host.Steady →
        res = .ok (r.votes choices) ∧ asked = r.asks choices) := by
  suffices h : ∀ acc : AltSet, Prediction.Does (choices.foldlM (fun (acc : AltSet) c => do
      if c.guard.isAlways then pure (acc.insert c.alt)
      else if ← Prediction.holds r.toQuestion c.guard then pure (acc.insert c.alt)
      else pure acc) acc) c fun res reports asked c' =>
        (∃ votes, res = .ok votes) ∧ reports = [] ∧ c' = c ∧ (r.host.Steady →
          res = .ok ((choices.filter fun c => c.guard.isAlways ||
            c.guard.holds r.host.now r.start).foldl (fun acc c => acc.insert c.alt) acc) ∧
          asked = r.asks choices)
    from h .empty
  induction choices with
  | nil => exact fun acc => .pure ⟨⟨_, rfl⟩, rfl, rfl, fun _ => ⟨rfl, rfl⟩⟩
  | cons choice choices ih =>
    intro acc
    rw [List.foldlM_cons]
    by_cases halways : choice.guard.isAlways = true
    · simp only [halways, if_true, pure_bind]
      refine (ih (acc.insert choice.alt)).mono ?_
      rintro res reports asked c' ⟨hvotes, hreports, hc', hsteady⟩
      refine ⟨hvotes, hreports, hc', fun hhost => ?_⟩
      obtain ⟨hres, hasked⟩ := hsteady hhost
      exact ⟨by simp [hres, halways], by simp [hasked, asks, halways]⟩
    · rw [if_neg halways, bind_assoc]
      refine Prediction.Does.bind .holds ?_ fun e reports asked c' ⟨⟨_, he⟩, _⟩ => nomatch he
      rintro passes reports asked c₁ ⟨-, rfl, rfl, hpasses⟩
      -- What the host answers, it goes on with the choices that are left.
      cases passes with
      | true =>
        simp only [if_true, pure_bind]
        refine (ih (acc.insert choice.alt)).mono ?_
        rintro res reports asked' c' ⟨hvotes, hreports, hc', hsteady⟩
        refine ⟨hvotes, by rw [hreports, List.nil_append], hc', fun hhost => ?_⟩
        obtain ⟨hholds, rfl⟩ := hpasses hhost
        obtain ⟨hres, hasked⟩ := hsteady hhost
        exact ⟨by simp [hres, ← Except.ok.inj hholds], by simp [hasked, asks, halways]⟩
      | false =>
        simp only [Bool.false_eq_true, if_false, pure_bind]
        refine (ih acc).mono ?_
        rintro res reports asked' c' ⟨hvotes, hreports, hc', hsteady⟩
        refine ⟨hvotes, by rw [hreports, List.nil_append], hc', fun hhost => ?_⟩
        obtain ⟨hholds, rfl⟩ := hpasses hhost
        obtain ⟨hres, hasked⟩ := hsteady hhost
        exact ⟨by simp [hres, ← Except.ok.inj hholds, halways], by simp [hasked, asks, halways]⟩

/-- What is done at a row that answers. -/
theorem answer_does (r : Request) (row : Row) (stream : TokenStream) (c : Cache) :
    (r.answer row stream).Does c fun res reports asked c' =>
      reports = [] ∧ c' = c ∧ (r.host.Steady →
        res = (r.answerDeed row stream).result ∧ asked = (r.answerDeed row stream).asked) := by
  unfold answer answerDeed
  cases row.choices with
  | none => exact .pure ⟨rfl, rfl, fun _ => ⟨rfl, rfl⟩⟩
  | some choices =>
    refine (r.passing_does choices c).bind ?_ fun e reports asked c' ⟨⟨_, he⟩, _⟩ => nomatch he
    rintro votes reports asked c₁ ⟨-, rfl, rfl, hsteady⟩
    dsimp only
    cases hleast : votes.min? with
    | none =>
      refine .throw ⟨rfl, rfl, fun hhost => ?_⟩
      obtain ⟨hvotes, rfl⟩ := hsteady hhost
      rw [Except.ok.inj hvotes] at hleast
      simp [hleast]
    | some alt =>
      refine .pure ⟨rfl, rfl, fun hhost => ?_⟩
      obtain ⟨hvotes, rfl⟩ := hsteady hhost
      rw [Except.ok.inj hvotes] at hleast
      simp [hleast]

/-- What a prediction with the call stack does at a set for which it stops. -/
def stopDeed (r : Request) (s : ConfigSet) (stop prediction : Nat) : Deed where
  result := .ok prediction
  reports :=
    if s.commonAlt != noAlternative then
      if r.settings.reportContextSensitivity then
        [r.report .contextSensitivity stop (.ofList [prediction]) false prediction]
      else []
    else [r.report .ambiguity stop s.alts (r.settings.mode == .exact) prediction]

/-- The guards settle a conflict if exactly one alternative passes them. -/
def settledBy (r : Request) (row : Row) : Option Nat :=
  match ((row.choices.map r.votes).getD .empty).toList with
  | [alt] => some alt
  | _ => none

/-- The report that a conflict is left to the call stack. -/
def fallback (r : Request) (row : Row) (stop : Nat) : Report :=
  r.report .fullContext stop (row.configs.conflicting.getD row.configs.alts) false noAlternative

/-- At a dead end the prediction fails, unless it may recover. -/
def Ended (r : Request) (s : ConfigSet) (stream : TokenStream) (d : Deed) : Prop :=
  r.settings.recoverAtRuleEnd = false → d = { result := .error (r.noViable stream.index s) }

/-! ## Runs -/

/-- **What a prediction with the call stack does,** from the threads before a symbol. -/
inductive FullTold (r : Request) : Set Thread → TokenStream → Deed → Prop where
  | dead {T : Set Thread} {stream : TokenStream} {s : ConfigSet} {g : StackGraph} {d : Deed} :
      g.Sound → Question.Stage true T s g → r.net.reachOf true (stream.lookAhead 1) T = ∅ →
      r.Ended s stream d → FullTold r T stream d
  | stop {T : Set Thread} {stream : TokenStream} {s : ConfigSet} {g : StackGraph} {alt : Nat} :
      g.Sound → Question.Stage true (r.net.reachOf true (stream.lookAhead 1) T) s g →
      (r.net.reachOf true (stream.lookAhead 1) T).Nonempty →
      fullVerdict? r.settings.mode s = some alt →
      FullTold r T stream (r.stopDeed s stream.index alt)
  | next {T : Set Thread} {stream : TokenStream} {s : ConfigSet} {g : StackGraph} {d : Deed} :
      g.Sound → Question.Stage true (r.net.reachOf true (stream.lookAhead 1) T) s g →
      (r.net.reachOf true (stream.lookAhead 1) T).Nonempty →
      fullVerdict? r.settings.mode s = none →
      FullTold r (r.net.reachOf true (stream.lookAhead 1) T) stream.consume d → FullTold r T stream d

/-- A row for the threads after a symbol, about which there was found out what there is to find. -/
structure Met (r : Request) (T : Set Thread) (v : Symbol) (row : Row) (g : StackGraph) : Prop where
  sound : g.Sound
  holds : row.Holds (r.net.state r.entry).transitions.length (r.net.reachOf false v T) g
  nonempty : (r.net.reachOf false v T).Nonempty
  found : Found r.net r.settings.mode (r.net.reachOf false v T) row.configs

/-- Whether the prediction turns to the call stack at a row. -/
def TurnsAt (r : Request) (row : Row) : Prop :=
  row.needsContext = true ∧ r.settings.mode ≠ .sll

/-- **What a prediction does,** from the threads before a symbol. `F` are the threads with which it
begins again under the call stack, and `asked` the callbacks that are made to find them. -/
inductive Told (r : Request) (F : Set Thread) (asked : List Callback) :
    Set Thread → TokenStream → Deed → Prop where
  | dead {T : Set Thread} {stream : TokenStream} {s : ConfigSet} {g : StackGraph} {d : Deed} :
      g.Sound → Question.Stage false T s g → r.net.reachOf false (stream.lookAhead 1) T = ∅ →
      r.Ended s stream d → Told r F asked T stream d
  | answer {T : Set Thread} {stream : TokenStream} {row : Row} {g : StackGraph} :
      r.Met T (stream.lookAhead 1) row g → ¬r.TurnsAt row → row.accepting = true →
      Told r F asked T stream (r.answerDeed row stream)
  | guarded {T : Set Thread} {stream : TokenStream} {row : Row} {g : StackGraph} {alt : Nat} :
      r.Met T (stream.lookAhead 1) row g → r.TurnsAt row → r.settledBy row = some alt →
      Told r F asked T stream { result := .ok alt, asked := (row.choices.map r.asks).getD [] }
  | full {T : Set Thread} {stream : TokenStream} {row : Row} {g : StackGraph} {d : Deed} :
      r.Met T (stream.lookAhead 1) row g → r.TurnsAt row → r.settledBy row = none →
      r.FullTold F r.stream d →
      Told r F asked T stream
        { result := d.result, reports := r.fallback row stream.index :: d.reports
          asked := (row.choices.map r.asks).getD [] ++ asked ++ d.asked }
  | next {T : Set Thread} {stream : TokenStream} {row : Row} {g : StackGraph} {d : Deed} :
      r.Met T (stream.lookAhead 1) row g → ¬r.TurnsAt row → row.accepting = false →
      Told r F asked (r.net.reachOf false (stream.lookAhead 1) T) stream.consume d →
      Told r F asked T stream d

end Request

end AdaptiveLL
