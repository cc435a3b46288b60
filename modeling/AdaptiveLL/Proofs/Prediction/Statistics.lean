import AdaptiveLL.Proofs.Prediction.Accounts
import AdaptiveLL.Proofs.Prediction.Local

/-!
# Prediction statistics add up

A session is driven by one prediction after the other. As long as no ceiling is met, the counters of
each decision agree with one another, with the results of the predictions and with what was reported
about them: every prediction is counted once, and makes one attempt, whose entries are known.
-/

namespace AdaptiveLL

/-! ## Single predictions -/

/-- **A prediction that was made** in a session. -/
structure PredictionCall where
  settings : PredictionSettings
  host : Oracle
  fuel : Nat
  stream : TokenStream
  decision : Nat
  callers : List StateId
  before : Session
  result : Except PredictionError Nat
  after : Session
  made : (Session.predict settings host fuel stream decision callers).from? before =
    some (result, after)

namespace PredictionCall

variable (call : PredictionCall)

/-- Whether the prediction failed. -/
def failed : Bool := !call.result.isOk

/-- The reports that the recorder has kept from the prediction. -/
def reports : List Report := call.after.recorder.toList.drop call.before.recorder.size

/-- The kinds of the reports, oldest first. -/
def kinds : List ReportKind := call.reports.map Report.kind

/-- The ambiguities that were reported after the turn to the call stack was. -/
def fullAmbiguities : Nat := (call.kinds.dropWhile (· != .fullContext)).count .ambiguity

/-- Where the loop with the call stack ended, if the prediction came to it. -/
def fullEnd? : Option Request.Last :=
  (Session.requestOn call.before.cache call.settings call.host call.fuel call.stream call.decision
    call.callers).fullEnd? (call.before.called call.decision)

/-- Whether the prediction came to a dead end with the call stack. -/
def deadEnd : Bool := call.fullEnd?.any (·.isLeft)

/-- Whether the call stack left one alternative. -/
def sensitive : Bool := call.fullEnd?.any fun last => last.elim (fun _ => false) (·.unique)

end PredictionCall

namespace Session

variable {settings : PredictionSettings} {host : Oracle} {fuel : Nat} {stream : TokenStream}
  {decision : Nat} {callers : List StateId} {s s' : Session} {result : Except PredictionError Nat}

/-- The end of a prediction keeps the cache. -/
private theorem close_keeps (decision : Nat) (stream : TokenStream)
    (result : Except PredictionError Nat) (s : Session) :
    ((close decision stream result).Ensures s fun res s' => res = result ∧ s'.cache = s.cache) := by
  cases result with
  | ok a => exact .pure ⟨rfl, rfl⟩
  | error e => exact .modify_bind (.modify_bind (.throw ⟨rfl, rfl⟩))

/-- **A prediction that meets no ceiling makes one attempt.** -/
theorem attempt_of_unspent (hmade : (predict settings host fuel stream decision callers).from? s =
      some (result, s')) (h : s.Unspent result s') :
    ∃ t, (requestOn s.cache settings host fuel stream decision callers).attempt.from?
        (s.called decision) = some (result, t) ∧
      (close decision stream result).from? t = some (result, s') := by
  rw [predict_from?] at hmade
  generalize requestOn s.cache settings host fuel stream decision callers = r at hmade ⊢
  obtain ⟨⟨first, t⟩, hfirst, hrest⟩ := Option.bind_eq_some_iff.mp hmade
  have hsame : t.cache.generation = s.cache.generation :=
    (r.attempt_local _ _ (.refl _ _) _ _ hfirst).1.generation_eq
  dsimp only at hrest
  by_cases hfull : ∃ e, first = .error e ∧ e.isFullGraph = true
  · -- A renewed cache is of another generation.
    obtain ⟨e, rfl, hfull⟩ := hfull
    have hrenewed : (t.renew s.cache.generation).cache.generation = s.cache.generation + 1 := by
      unfold renew Cache.renew
      rw [if_pos hsame, ← hsame]
      rfl
    have hagain : (again r s.cache.generation (.error e) >>= close decision stream).Ensures t
        fun _ u => u.cache.generation = s.cache.generation + 1 := by
      unfold again
      dsimp only
      rw [if_pos hfull, bind_assoc]
      refine .modify_bind (.bind (Q := fun _ u => u.cache.generation = s.cache.generation + 1)
        (.outcome fun second u hu => ?_) (fun second u hu => ?_) fun _ _ he => he)
      · exact (r.attempt_local _ _ (.refl _ _) _ _ hu).1.generation_eq.trans hrenewed
      · exact (close_keeps decision stream second u).mono fun _ v ⟨_, hv⟩ => hv ▸ hu
    have hgeneration : s'.cache.generation = s.cache.generation + 1 := hagain result s' hrest
    have hunspent := h.2
    omega
  · have hkeep : again r s.cache.generation first = pure first := by
      cases first with
      | ok a => rfl
      | error e =>
        exact if_neg fun hfull' => hfull ⟨e, rfl, hfull'⟩
    rw [hkeep, pure_bind] at hrest
    obtain ⟨rfl, -⟩ := close_keeps decision stream first t result s' hrest
    exact ⟨t, hfirst, hrest⟩

/-- **What a prediction enters** that meets no ceiling. -/
theorem predict_entered (hmade : (predict settings host fuel stream decision callers).from? s =
      some (result, s')) (h : s.Unspent result s') :
    ∃ n reports, s.Entered decision s'
        (.one .invocations + (.looked n n + .failed !result.isOk)) reports ∧
      Request.AttemptKinds settings ((requestOn s.cache settings host fuel stream decision
        callers).fullEnd? (s.called decision)) (reports.map Report.kind) := by
  obtain ⟨t, hattempt, hclose⟩ := attempt_of_unspent hmade h
  have hcalled : s.Entered decision (s.called decision) (.one .invocations) [] :=
    .count (·.tally_invocation)
  obtain ⟨_, reports, ht, ⟨n, rfl⟩, hkinds⟩ :=
    (Request.attempt_enters result t hattempt).resolve_left h.1
  refine ⟨n, reports, ?_, hkinds⟩
  have hend : t.Entered decision s' (.failed !result.isOk) [] := by
    cases result with
    | ok a =>
      obtain rfl : t = s' := by simpa [close] using hclose
      rw [show (!(Except.ok a : Except PredictionError Nat).isOk) = false from rfl,
        Tally.failed_false]
      exact .refl t
    | error e =>
      obtain rfl : (t.count decision fun c => { c with errors := c.errors + 1 }).note
          (failureEvent decision stream.index e) = s' := by simpa [close, Run.from?_bind] using hclose
      have hcount : t.Entered decision (t.count decision fun c => { c with errors := c.errors + 1 })
          (.one .errors) [] := .count (·.tally_error)
      rw [show (!(Except.error e : Except PredictionError Nat).isOk) = true from rfl,
        Tally.failed_true]
      exact ⟨hcount.recorder_eq, hcount.about, hcount.tally?_eq⟩
  simpa only [List.nil_append, List.append_nil] using hcalled.trans (ht.trans hend)

end Session

/-- A recorder with room for them keeps all reports. -/
theorem Recorder.toList_foldl_record {b : Recorder} {reports : List Report}
    (h : b.size + reports.length ≤ Limits.recordedDiagnostics) :
    (reports.foldl record b).toList = b.toList ++ reports := by
  induction reports generalizing b with
  | nil => exact (List.append_nil _).symm
  | cons rep reports ih =>
    rw [List.length_cons] at h
    have hroom : b.reports.size < Limits.recordedDiagnostics := by
      unfold size at h
      omega
    have hrecord : b.record rep = ⟨b.reports.push rep⟩ := if_pos hroom
    rw [List.foldl_cons, hrecord, ih]
    · simp [toList]
    · simp only [size, Array.size_push] at h ⊢
      omega

namespace PredictionCall

variable {call : PredictionCall}

/-- **What a prediction enters** if the recorder has room for its reports. -/
theorem entered (hroom : call.before.recorder.size + 2 ≤ Limits.recordedDiagnostics)
    (h : call.before.Unspent call.result call.after) :
    ∃ n, call.before.Entered call.decision call.after
        (.one .invocations + (.looked n n + .failed call.failed)) call.reports ∧
      Request.AttemptKinds call.settings call.fullEnd? call.kinds := by
  obtain ⟨n, delivered, hentered, hkinds⟩ := Session.predict_entered call.made h
  have hlength : delivered.length ≤ 2 := by
    have hle := hkinds.length_le
    rwa [List.length_map] at hle
  obtain rfl : delivered = call.reports := by
    unfold reports
    rw [hentered.recorder_eq, Recorder.toList_foldl_record (by omega)]
    exact (List.drop_left' rfl).symm
  exact ⟨n, hentered, hkinds⟩

/-- **Every turn to the call stack ends in one of three ways,** and an ambiguity is reported for
the last one. -/
theorem count_fullContext (h : Request.AttemptKinds call.settings call.fullEnd? call.kinds) :
    call.kinds.count .fullContext =
      call.fullAmbiguities + call.sensitive.toNat + call.deadEnd.toNat := by
  unfold fullAmbiguities sensitive deadEnd
  cases hend : call.fullEnd? with
  | none =>
    rw [hend] at h
    rcases h with h | h <;> rw [h] <;> rfl
  | some last =>
    rw [hend] at h
    rw [show call.kinds = _ from h]
    cases last with
    | inl dead => rfl
    | inr e =>
      unfold Request.endKinds
      cases hunique : e.unique with
      | true => cases call.settings.reportContextSensitivity <;> simp [hunique]
      | false => simp [hunique]

/-- What the call stack has settled is reported if the settings ask for it. -/
theorem count_contextSensitivity
    (h : Request.AttemptKinds call.settings call.fullEnd? call.kinds)
    (hreport : call.settings.reportContextSensitivity = true) :
    call.kinds.count .contextSensitivity = call.sensitive.toNat := by
  unfold sensitive
  cases hend : call.fullEnd? with
  | none =>
    rw [hend] at h
    rcases h with h | h <;> rw [h] <;> rfl
  | some last =>
    rw [hend] at h
    rw [show call.kinds = _ from h]
    cases last with
    | inl dead => rfl
    | inr e =>
      unfold Request.endKinds
      cases hunique : e.unique <;> simp [hunique, hreport]

end PredictionCall

/-! ## Predictions one after the other -/

/-- **The statistics of a decision add up** to the predictions that were made for it. -/
structure DecisionStats.AddsUp (c : DecisionStats) (d : Nat) (calls : List PredictionCall) :
    Prop where
  invocations_eq : c.invocations = calls.length
  errors_eq : c.errors = calls.countP (·.failed)
  lookups_eq : c.hits + c.misses = c.sllLookahead
  about : ∀ call ∈ calls, ∀ rep ∈ call.reports, rep.decision = d
  fallbacks_eq : c.fallbacks = (calls.flatMap (·.kinds)).count .fullContext
  ambiguities_eq : c.ambiguities = (calls.flatMap (·.kinds)).count .ambiguity
  contextSensitivities_eq :
    c.contextSensitivities = (calls.flatMap (·.kinds)).count .contextSensitivity
  /-- Every turn to the call stack ended with an ambiguity, with one alternative, or in a dead end. -/
  settled : c.fallbacks =
    (calls.map (·.fullAmbiguities)).sum + calls.countP (·.sensitive) + calls.countP (·.deadEnd)
  /-- If the settings ask for it, all that the call stack settled was reported. -/
  sensitive : (∀ call ∈ calls, call.settings.reportContextSensitivity = true) →
    c.contextSensitivities = calls.countP (·.sensitive)

namespace DecisionStats.AddsUp

variable {c c' : DecisionStats} {d : Nat} {calls : List PredictionCall}

/-- With nothing counted and no prediction made. -/
theorem new (d : Nat) : AddsUp { decision := d } d [] := by
  constructor <;> simp

/-- Only what is counted matters. -/
theorem congr (h : c.AddsUp d calls) (htally : c'.tally = c.tally) : c'.AddsUp d calls where
  invocations_eq := (congrFun htally .invocations).trans h.invocations_eq
  errors_eq := (congrFun htally .errors).trans h.errors_eq
  lookups_eq := (congrFun htally .lookups).trans
    (h.lookups_eq.trans (congrFun htally .symbols).symm)
  about := h.about
  fallbacks_eq := (congrFun htally (.reports .fullContext)).trans h.fallbacks_eq
  ambiguities_eq := (congrFun htally (.reports .ambiguity)).trans h.ambiguities_eq
  contextSensitivities_eq :=
    (congrFun htally (.reports .contextSensitivity)).trans h.contextSensitivities_eq
  settled := (congrFun htally (.reports .fullContext)).trans h.settled
  sensitive hreport :=
    (congrFun htally (.reports .contextSensitivity)).trans (h.sensitive hreport)

/-- **One more prediction.** -/
theorem append {call : PredictionCall} {n : Nat} (h : c.AddsUp d calls)
    (htally : c'.tally = c.tally +
      (.one .invocations + (.looked n n + .failed call.failed) + .delivered call.reports))
    (habout : ∀ rep ∈ call.reports, rep.decision = d)
    (hkinds : Request.AttemptKinds call.settings call.fullEnd? call.kinds) :
    c'.AddsUp d (calls ++ [call]) := by
  have hentry : ∀ e, c'.tally e = c.tally e + (Tally.one .invocations e +
      (Tally.looked n n e + Tally.failed call.failed e) + Tally.delivered call.reports e) :=
    congrFun htally
  have hreports : ∀ kind, c'.tally (.reports kind) =
      c.tally (.reports kind) + call.kinds.count kind := by
    intro kind
    rw [hentry]
    simp [Tally.one, Tally.looked, Tally.failed, Tally.delivered, PredictionCall.kinds]
  have hdelivered : ∀ kind, c.tally (.reports kind) = (calls.flatMap (·.kinds)).count kind →
      c'.tally (.reports kind) = ((calls ++ [call]).flatMap (·.kinds)).count kind := by
    intro kind hkind
    rw [hreports, hkind]
    simp
  have hfull := PredictionCall.count_fullContext hkinds
  have hfallbacks : c'.fallbacks = c.fallbacks + call.kinds.count .fullContext :=
    hreports .fullContext
  have hsensitivities : c'.contextSensitivities =
      c.contextSensitivities + call.kinds.count .contextSensitivity :=
    hreports .contextSensitivity
  -- One identity after the other: calls, errors, look-ups, whom the reports are about, how full
  -- context was settled, and how often it was found to matter.
  refine ⟨?_, ?_, ?_, ?_, hdelivered .fullContext h.fallbacks_eq,
    hdelivered .ambiguity h.ambiguities_eq,
    hdelivered .contextSensitivity h.contextSensitivities_eq, ?_, ?_⟩
  · have hcount : c'.invocations = c.invocations + 1 := hentry .invocations
    rw [hcount, h.invocations_eq, List.length_append, List.length_singleton]
  · have hcount : c'.errors = c.errors + (0 + (0 + call.failed.toNat) + 0) := hentry .errors
    rw [hcount, h.errors_eq, List.countP_append, List.countP_singleton]
    cases call.failed <;> rfl
  · have hlookups : c'.hits + c'.misses = c.hits + c.misses + (0 + (n + 0) + 0) := hentry .lookups
    have hsymbols : c'.sllLookahead = c.sllLookahead + (0 + (n + 0) + 0) := hentry .symbols
    rw [hlookups, hsymbols, h.lookups_eq]
  · intro made hmade
    rcases List.mem_append.mp hmade with hmade | hmade
    · exact h.about made hmade
    · obtain rfl := List.mem_singleton.mp hmade
      exact habout
  · rw [hfallbacks, h.settled, hfull]
    simp only [List.map_append, List.sum_append, List.countP_append, List.countP_singleton]
    cases call.sensitive <;> cases call.deadEnd <;> simp <;> omega
  · intro hreport
    have hlast := PredictionCall.count_contextSensitivity hkinds (hreport call (by simp))
    have hbefore := h.sensitive fun made hmade => hreport made (List.mem_append_left _ hmade)
    rw [hsensitivities, hbefore, hlast, List.countP_append, List.countP_singleton]
    cases call.sensitive <;> rfl

end DecisionStats.AddsUp

namespace PredictionStats

/-- **Predictions one after the other** that meet no ceiling, and what they leave in the statistics
of `count` decisions. The recorder has room for what each of them reports, whether it was emptied
before or not. The caches and settings may be any, and so may be what is done to them between
predictions. -/
inductive Counts (count : Nat) : List PredictionCall → PredictionStats → Prop
  | new : Counts count [] (.new count)
  | append {calls : List PredictionCall} (call : PredictionCall) :
      Counts count calls call.before.stats →
        call.before.recorder.size + 2 ≤ Limits.recordedDiagnostics →
        call.before.Unspent call.result call.after → Counts count (calls ++ [call]) call.after.stats

/-- **Prediction statistics add up.** Whatever predictions were made one after the other, for
whichever decisions, in whichever modes, with the cache or without, the counters of each decision
agree with one another, with the results and with the reports, as long as no ceiling is met. -/
theorem add_up {count : Nat} {calls : List PredictionCall} {stats : PredictionStats}
    (h : Counts count calls stats) {d : Nat} (hd : d < count) :
    ∃ c, stats.get? d = some c ∧ c.AddsUp d (calls.filter (·.decision == d)) := by
  induction h with
  | new => exact ⟨{ decision := d }, by simp [PredictionStats.new, get?, hd], .new d⟩
  | append call hcalls hroom hunspent ih =>
    obtain ⟨c, hc, haddsUp⟩ := ih
    obtain ⟨n, hentered, hkinds⟩ := PredictionCall.entered hroom hunspent
    have hchange := hentered.tally?_eq d
    rw [show call.before.tally? d = some c.tally by rw [Session.tally?, hc]; rfl] at hchange
    obtain ⟨c', hc', htally⟩ := Option.map_eq_some_iff.mp hchange
    dsimp only at htally
    refine ⟨c', hc', ?_⟩
    rw [List.filter_append]
    by_cases hdecision : d = call.decision
    · rw [if_pos hdecision] at htally
      subst hdecision
      have hown : [call].filter (·.decision == call.decision) = [call] := by simp
      rw [hown]
      exact haddsUp.append htally hentered.about hkinds
    · rw [if_neg hdecision] at htally
      have hother : [call].filter (·.decision == d) = [] := by simp [Ne.symm hdecision]
      rw [hother, List.append_nil]
      exact haddsUp.congr htally

end PredictionStats

/-! ## Two decisions -/

/-- A grammar of two choices, of which the first one is ambiguous:

    s : (X | X | Y) (X | Y X) EOF ; -/
private def Grammar.choices : Grammar where
  kind := .parser
  name := "choices"
  tokenNames := ["<INVALID>", "X", "Y"]
  rules := [⟨"s", .seq [.alt [.token 1, .token 1, .token 2],
    .alt [.token 1, .seq [.token 2, .token 1]], .token Symbol.eof], none, 0⟩]

private def Grammar.choicesNet : Network := choices.compile.toOption.getD default

namespace PredictionStats

/-- A prediction to be made, for a stream of tokens of given types. -/
private structure Task where
  settings : PredictionSettings := {}
  types : List Int
  decision : Nat

/-- Makes predictions one after the other, unless one of them meets a ceiling. -/
private def Task.performAll : List Task → Session → Option Session
  | [], s => some s
  | task :: rest, s =>
    match (Session.predict task.settings .permissive 100 (.ofTypes task.types) task.decision
      []).from? s with
    | none | some (.error (.exceeded _), _) => none
    | some (_, t) =>
      if t.cache.generation = s.cache.generation ∧
        s.recorder.size + 2 ≤ Limits.recordedDiagnostics then performAll rest t
      else none

private theorem Task.performAll_counts {count : Nat} {tasks : List Task} {s t : Session}
    {calls : List PredictionCall} (hcalls : Counts count calls s.stats)
    (h : performAll tasks s = some t) : ∃ made, Counts count (calls ++ made) t.stats ∧
      made.map (fun call => (call.settings, call.stream, call.decision)) =
        tasks.map fun task => (task.settings, .ofTypes task.types, task.decision) := by
  induction tasks generalizing s calls with
  | nil =>
    obtain rfl := Option.some.inj h
    exact ⟨[], by rwa [List.append_nil], rfl⟩
  | cons task rest ih =>
    rw [performAll] at h
    split at h
    · cases h
    · cases h
    next r s₁ hspent hmade =>
      split at h
      · next hfine =>
        have hunspent : s.Unspent r s₁ := ⟨fun ⟨e, he⟩ => hspent e he, hfine.1⟩
        obtain ⟨made, hcounts, hmap⟩ := ih (hcalls.append { made := hmade, .. } hfine.2 hunspent) h
        rw [← List.append_cons] at hcounts
        refine ⟨_, hcounts, ?_⟩
        rw [List.map_cons, List.map_cons, hmap]
      · cases h

/-- Predictions for both decisions, in all modes, with the cache and without, of which the last but
one fails. -/
private def tasks : List Task :=
  [{ types := [1, 1], decision := 0 },
    { settings := { mode := .sll }, types := [1, 1], decision := 0 },
    { types := [2, 1], decision := 1 },
    { settings := { mode := .exact }, types := [1, 2, 1], decision := 0 },
    { settings := { useCache := false }, types := [], decision := 1 },
    { types := [2, 1], decision := 0 }]

/-- The counters of both decisions add up. -/
theorem choices_add_up : ∃ calls stats, Counts 2 calls stats ∧
    calls.map (fun call => (call.settings, call.stream, call.decision)) =
      tasks.map (fun task => (task.settings, .ofTypes task.types, task.decision)) ∧
    ∃ c c', stats.get? 0 = some c ∧ c.AddsUp 0 (calls.filter (·.decision == 0)) ∧
      stats.get? 1 = some c' ∧ c'.AddsUp 1 (calls.filter (·.decision == 1)) ∧
      (c.invocations, c.fallbacks, c.ambiguities, c.errors) = (4, 2, 3, 0) ∧
      (c'.invocations, c'.fallbacks, c'.ambiguities, c'.errors) = (2, 0, 0, 1) := by
  have hends : (Task.performAll tasks (.new (.new Grammar.choicesNet))).map (fun t =>
      [0, 1].map fun d => (t.stats.get? d).map fun c =>
        (c.invocations, c.fallbacks, c.ambiguities, c.errors)) =
      some [some (4, 2, 3, 0), some (2, 0, 0, 1)] := by
    decide +kernel
  obtain ⟨t, hperformed, hcounters⟩ := Option.map_eq_some_iff.mp hends
  obtain ⟨calls, hcounts, hmap⟩ := Task.performAll_counts .new hperformed
  have hsize : Grammar.choicesNet.decisions.size = 2 := by decide +kernel
  obtain ⟨c, hc, haddsUp⟩ := add_up hcounts (show 0 < Grammar.choicesNet.decisions.size by omega)
  obtain ⟨c', hc', haddsUp'⟩ := add_up hcounts (show 1 < Grammar.choicesNet.decisions.size by omega)
  simp only [List.map_cons, List.map_nil, hc, hc', Option.map_some, List.cons.injEq,
    Option.some.injEq, and_true] at hcounters
  exact ⟨calls, t.stats, hsize ▸ hcounts, hmap, c, c', hc, haddsUp, hc', haddsUp', hcounters⟩

end PredictionStats

end AdaptiveLL
