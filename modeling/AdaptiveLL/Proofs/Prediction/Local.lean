import AdaptiveLL.Proofs.InStep
import AdaptiveLL.Proofs.Prediction.Sessions

/-!
# What a prediction reads and writes

A prediction reads the tables and the graph of its cache, and of these it leaves new ones behind.
Of the callbacks made it reads no more than the host does for its answers. What a session has
counted, recorded and journaled is never read, and the rest of the cache is neither read nor
written. So a prediction that begins again on a renewed cache comes to the same end, if the answers
of the host never change.
-/

namespace AdaptiveLL

open Run (Respects)

/-! ## Probes -/

/-- A trail that goes on from another one has the same past. -/
def Trail.Keeps (t t' : Trail) : Prop := t'.past = t.past

instance : IsPreorder Trail Trail.Keeps where
  refl _ := rfl
  trans _ _ _ h h' := h'.trans h

/-- Two trails that differ in their pasts alone, and so that the host does not tell these apart. -/
structure Trail.Alike (host : Oracle) (t t' : Trail) : Prop where
  graph_eq : t.graph = t'.graph
  asked_eq : t.asked = t'.asked
  recursions_eq : t.recursions = t'.recursions
  agrees : host.Agrees t.past t'.past

/-- **A blind probe:** of the past it reads no more than what the host answers. -/
abbrev Probe.Blind {α : Type} (host : Oracle) (p : Probe α) : Prop :=
  Respects Trail.Keeps (Trail.Alike host) p

namespace Probe.Blind

variable {host : Oracle}

theorem grow {α : Type} (m : Growing α) : Blind host (Probe.grow m) := by
  refine .of_step (fun _ => rfl) fun t t' h => ?_
  rw [← h.graph_eq]
  cases m.run t.graph with
  | ok a g => exact ⟨rfl, rfl, rfl, h.asked_eq, h.recursions_eq, h.agrees⟩
  | error e g => exact ⟨rfl, rfl, rfl, h.asked_eq, h.recursions_eq, h.agrees⟩

theorem holds (position : Nat) (g : Guard) : Blind host (Probe.holds host position g) := by
  refine .of_step (g := fun t => let put := g.put host position (t.past ++ t.asked)
    (.ok put.1, { t with asked := t.asked ++ put.2 })) (fun _ => rfl) fun t t' h => ?_
  dsimp only
  rw [← h.asked_eq, Guard.put_of_agrees (h.agrees.append _)]
  exact ⟨rfl, rfl, h.graph_eq, rfl, h.recursions_eq, h.agrees⟩

end Probe.Blind

namespace Question

open Probe (Blind)

variable (q : Question)

private theorem collect_blind (s : Sweep) (c : Config) : Blind q.host (s.collect c) :=
  (Probe.Blind.grow _).bind fun _ => .pure _

private theorem guarded_blind (full evaluate : Bool) (c : Config) (target : StateId) (g : Guard) :
    Blind q.host (q.guarded full evaluate c target g) :=
  .ite (.pure _) (.ite ((Probe.Blind.holds _ _).bind fun _ => .ite (.pure _) (.pure _)) (.pure _))

private theorem follow_blind (m : Manner) (collect inside : Bool) (c : Config) (t : Transition) :
    Blind q.host (q.follow m collect inside c t) := by
  cases t with
  | rule target callee follow level => exact (Probe.Blind.grow _).bind fun _ => .pure _
  | predicate target rule pred contextual => exact q.guarded_blind _ _ _ _ _
  | precedence target level => exact q.guarded_blind _ _ _ _ _
  | _ => exact .pure _

private theorem enter_blind (visit : Visit) (state : State) (t : Transition) (collect : Bool)
    (next : Config) (s : Sweep) : Blind q.host (q.enter visit state t collect next s) := by
  refine .ite (.pure _) (.ite (.pure _) (.ite (.ite (.ite (.pure _) ?_) (.pure _)) (.pure _)))
  refine .bind (.of_step (fun _ => rfl) fun t t' h => ⟨rfl, rfl, h.graph_eq, h.asked_eq, ?_,
    h.agrees⟩) fun _ => .pure _
  exact congrArg (· ++ [state.rule]) h.recursions_eq

private theorem expandAll_blind (m : Manner) (visit : Visit) (state : State) (s : Sweep) :
    Blind q.host (q.expandAll m visit state s) := by
  have hall (s : Sweep) :
      Blind q.host (state.transitions.reverse.foldlM (q.expand m visit state) s) := by
    refine .foldlM (fun s t => (q.follow_blind m _ _ _ t).bind fun next => ?_) _ _
    cases next with
    | none => exact .pure _
    | some next => exact q.enter_blind visit state t _ next s
  exact .ite (hall s) ((q.collect_blind s _).bind hall)

private theorem perform_blind (m : Manner) (visit : Visit) (s : Sweep) :
    Blind q.host (q.perform m visit s) := by
  have hexpand := q.expandAll_blind m visit (q.net.state visit.config.state) s
  refine .ite (.ite (.get_bind (fun t t' h => by rw [h.graph_eq]) fun t => ?_)
    (.ite (q.collect_blind _ _) hexpand)) hexpand
  refine .foldlM (fun s f => ?_) _ _
  exact .ite (.ite (q.collect_blind _ _) (.pure _)) (.pure _)

private theorem closure_blind (m : Manner) (collect : Bool) (acc : ConfigSet × List VisitKey)
    (c : Config) : Blind q.host (q.closure m collect acc c) := by
  refine .loop (fun s => ?_) q.fuel _
  unfold sweepStep
  cases s.work with
  | nil => exact .pure _
  | cons visit rest => exact (q.perform_blind m visit _).bind fun _ => .pure _

/-- Where a decision begins is found by a blind probe. -/
theorem startSet_blind (full : Bool) (stack : StackId) : Blind q.host (q.startSet full stack) :=
  .bind (.foldlM (q.closure_blind _ true) _ _) fun _ => .pure _

/-- A symbol is consumed by a blind probe. -/
theorem reach_blind (v : Symbol) (full : Bool) (s : ConfigSet) :
    Blind q.host (q.reach v full s) := by
  rw [reach_eq]
  refine (Probe.Blind.grow _).bind fun moved => .bind ?_ fun next => .bind ?_ fun next =>
    .bind ?_ fun last => .pure _
  · exact .ite (.pure _) (.bind (.foldlM (q.closure_blind _ false) _ _) fun _ => .pure _)
  · exact .ite (.ite (.pure _) (Probe.Blind.grow _)) (.pure _)
  · exact .ite (.pure _) (Probe.Blind.grow _)

end Question

/-! ## Parts of a prediction -/

namespace Session

variable {host : Oracle} {s s' t t' : Session}

/-- Two sessions in which the same is known, and after which the host answers alike. -/
structure Alike (host : Oracle) (s s' : Session) : Prop where
  tables_eq : s.cache.tables = s'.cache.tables
  graph_eq : s.cache.graph = s'.cache.graph
  agrees : host.Agrees s.callbacks s'.callbacks

/-- A session that goes on from another one: all of the cache is kept but its tables and its
graph. -/
structure Keeps (s t : Session) : Prop where
  net_eq : t.cache.net = s.cache.net
  maxNodes_eq : t.cache.maxNodes = s.cache.maxNodes
  maxDepth_eq : t.cache.maxDepth = s.cache.maxDepth
  generation_eq : t.cache.generation = s.cache.generation

theorem Alike.refl (host : Oracle) (s : Session) : s.Alike host s := ⟨rfl, rfl, .refl host _⟩

theorem Alike.symm (h : s.Alike host s') : s'.Alike host s :=
  ⟨h.tables_eq.symm, h.graph_eq.symm, h.agrees.symm⟩

theorem Alike.table_eq (h : s.Alike host s') (d : Nat) : s.cache.table d = s'.cache.table d := by
  unfold Cache.table
  rw [h.tables_eq]

instance : IsPreorder Session Keeps where
  refl _ := ⟨rfl, rfl, rfl, rfl⟩
  trans _ _ _ h h' := ⟨h'.net_eq.trans h.net_eq, h'.maxNodes_eq.trans h.maxNodes_eq,
    h'.maxDepth_eq.trans h.maxDepth_eq, h'.generation_eq.trans h.generation_eq⟩

end Session

namespace Prediction

variable {α β : Type}

/-- **A local part of a prediction:** what it answers and which tables and graph it leaves depends
on the tables, the graph and the host alone, and the rest of the cache is kept. -/
abbrev Local (host : Oracle) (m : Prediction α) : Prop :=
  Respects Session.Keeps (Session.Alike host) m

namespace Local

variable {host : Oracle}

/-- A change of anything but the cache and the callbacks. -/
theorem modify {g : Session → Session} (h : ∀ s, (g s).cache = s.cache)
    (hcallbacks : ∀ s, (g s).callbacks = s.callbacks) :
    Local host (modifyThe Session g : Prediction PUnit) := by
  refine .of_step (Run.from?_modify g) fun s s' halike => ⟨⟨?_, ?_, ?_, ?_⟩, rfl, ⟨?_, ?_, ?_⟩⟩
  any_goals dsimp only; rw [h]
  · rw [h, halike.tables_eq]
  · rw [h, halike.graph_eq]
  · dsimp only
    rw [hcallbacks, hcallbacks]
    exact halike.agrees

theorem count (q : Question) (g : DecisionStats → DecisionStats) :
    Local host (Prediction.count q g) := .modify (fun _ => rfl) fun _ => rfl

theorem note (e : Event) : Local host (Prediction.note e) := .modify (fun _ => rfl) fun _ => rfl

theorem deliver (report : Report) :
    Local host (modifyThe Session (·.deliver report) : Prediction PUnit) :=
  .modify (fun s => s.deliver_cache report) fun s => s.deliver_callbacks report

theorem table (q : Question) : Local host (Prediction.table q) :=
  .get_bind (fun s s' h => by rw [h.table_eq]) fun _ => .pure _

theorem setTable (q : Question) (table : Table) : Local host (Prediction.setTable q table) :=
  .of_step (fun _ => rfl) fun _ _ h => ⟨⟨rfl, rfl, rfl, rfl⟩, rfl,
    congrArg (·.set! q.decision table) h.tables_eq, h.graph_eq, h.agrees⟩

theorem holds (q : Question) (g : Guard) : Local q.host (Prediction.holds q g) := by
  refine (count q _).bind fun _ => ?_
  refine .of_step (g := fun s => let put := g.put q.host q.start s.callbacks
    (.ok put.1, { s with callbacks := s.callbacks ++ put.2 })) (fun _ => rfl) fun s s' h => ?_
  dsimp only
  rw [Guard.put_of_agrees h.agrees]
  exact ⟨⟨rfl, rfl, rfl, rfl⟩, rfl, h.tables_eq, h.graph_eq, h.agrees.append _⟩

theorem probe {q : Question} {p : Probe α} (hp : p.Blind host) :
    Local host (Prediction.probe q p) := by
  rintro s s' halike r t hrun
  rw [Prediction.from?_probe] at hrun
  obtain ⟨⟨r', trail⟩, hprobe, hend⟩ := Option.map_eq_some_iff.mp hrun
  obtain ⟨rfl, rfl⟩ := Prod.mk.inj hend
  obtain ⟨-, trail', hprobe', htrail⟩ := hp { graph := s.cache.graph, past := s.callbacks }
    { graph := s'.cache.graph, past := s'.callbacks }
    ⟨halike.graph_eq, rfl, rfl, halike.agrees⟩ _ _ hprobe
  obtain ⟨hcache, -, hcallbacks⟩ := s.absorb_eq q trail
  obtain ⟨hcache', -, hcallbacks'⟩ := s'.absorb_eq q trail'
  refine ⟨⟨by rw [hcache], by rw [hcache], by rw [hcache], by rw [hcache]⟩, s'.absorb q trail', ?_,
    ⟨?_, ?_, ?_⟩⟩
  · rw [Prediction.from?_probe, hprobe']
    rfl
  · rw [hcache, hcache']
    exact halike.tables_eq
  · rw [hcache, hcache']
    exact htrail.graph_eq
  · rw [hcallbacks, hcallbacks', htrail.asked_eq]
    exact halike.agrees.append _

theorem grow (q : Question) (m : Growing α) : Local host (Prediction.grow q m) := .probe (.grow m)

theorem install (q : Question) (row : Row) : Local host (Prediction.install q row) := by
  rw [Request.install_eq]
  refine (table q).bind fun t => (setTable q _).bind fun _ => .bind ?_ fun _ => .pure _
  cases (t.install row).2.1 with
  | none => exact .pure _
  | some event => exact note event

end Local

end Prediction

/-! ## All of a prediction -/

namespace Request

open Prediction (Local)

variable (r : Request)

private theorem checkLookahead_local (n : Nat) : Local r.host (r.checkLookahead n) := by
  unfold checkLookahead
  exact .ite (.throw _) (.pure _)

private theorem passing_local (choices : List Choice) : Local r.host (r.passing choices) := by
  unfold passing
  refine .foldlM (fun acc c => .ite (.pure _) ((Local.holds _ _).bind fun passes => ?_)) _ _
  exact .ite (.pure _) (.pure _)

private theorem answer_local (row : Row) (stream : TokenStream) : Local r.host (r.answer row stream) := by
  unfold answer
  cases row.choices with
  | none => exact .pure _
  | some choices =>
    refine (passing_local r choices).bind fun votes => ?_
    cases votes.min? with
    | none => exact .throw _
    | some alt => exact .pure alt

private theorem partition_local (cs : List Config) : Local r.host (r.partition cs) := by
  induction cs with
  | nil => exact .pure _
  | cons c cs ih =>
    unfold partition
    split
    · exact ih.bind fun _ => .pure _
    · exact .bind (Local.holds _ _) fun _ => ih.bind fun _ => .pure _

private theorem deadEnd_local (s : ConfigSet) (stream : TokenStream) :
    Local r.host (r.deadEnd s stream) := by
  unfold deadEnd
  refine .ite (.throw _) ((partition_local r _).bind fun parts => ?_)
  refine .get_bind (fun s s' h => by rw [h.graph_eq]) fun s => ?_
  dsimp only
  split
  · exact .pure _
  · exact .throw _

private theorem reportAmbiguity_local (stop : Nat) (alts : AltSet) (exact : Bool)
    (prediction : Nat) : Local r.host (r.reportAmbiguity stop alts exact prediction) :=
  (Local.count _ _).bind fun _ => Local.deliver _

private theorem fullStep_local (p : FullPoint) : Local r.host (r.fullStep p) := by
  unfold fullStep
  refine (checkLookahead_local r _).bind fun _ => (Local.probe (r.reach_blind _ _ _)).bind fun next => ?_
  cases next with
  | none => exact (Local.count _ _).bind fun _ => .pure _
  | some configs =>
    dsimp only
    split
    · exact .pure _
    · exact .pure _

private theorem concludeFull_local (e : FullEnd) : Local r.host (r.concludeFull e) := by
  rw [concludeFull_eq]
  refine (Local.count _ _).bind fun _ => .ite (.ite ?_ (.pure _)) ?_
  · exact (Local.count _ _).bind fun _ => (Local.deliver _).bind fun _ => .pure _
  · exact (reportAmbiguity_local r _ _ _ _).bind fun _ => .pure _

private theorem predictFull_local (start : ConfigSet) : Local r.host (r.predictFull start) := by
  unfold predictFull
  refine (Respects.loop (fullStep_local r) _ _).bind fun last => ?_
  cases last with
  | inl dead => exact deadEnd_local r _ _
  | inr e => exact concludeFull_local r e

private theorem escalate_local (row : Row) (stream : TokenStream) :
    Local r.host (r.escalate row stream) := by
  rw [escalate_eq]
  refine Respects.bind ?_ fun votes => ?_
  · cases row.choices with
    | none => exact .pure _
    | some choices => exact passing_local r choices
  · unfold turn
    split
    · exact .pure _
    · exact (Local.count _ _).bind fun _ => (Local.deliver _).bind fun _ =>
        (Local.grow _ _).bind fun _ => (Local.probe (r.startSet_blind _ _)).bind (predictFull_local r)

private theorem targetRow_local (s : ConfigSet) (v : Symbol) : Local r.host (r.targetRow s v) := by
  rw [targetRow_eq]
  refine (Local.probe (r.reach_blind _ _ _)).bind fun next => ?_
  cases next with
  | none => exact .pure _
  | some next => exact .bind (.ite (.pure _) (Local.grow _ _)) fun _ => .pure _

private theorem target_local (p : Place) (v : Symbol) : Local r.host (r.target p v) := by
  unfold target
  refine (Local.table _).bind fun t => (targetRow_local r _ v).bind fun row => ?_
  cases row with
  | none => exact .ite ((Local.setTable _ _).bind fun _ => .pure _) (.pure _)
  | some row =>
    exact .ite (.pure _) ((Local.install _ _).bind fun _ => (Local.table _).bind fun _ =>
      (Local.setTable _ _).bind fun _ => .pure _)

private theorem next_local (p : Place) (v : Symbol) : Local r.host (r.next p v) := by
  rw [next_eq]
  refine (Local.table _).bind fun t => ?_
  split
  · refine (Local.count _ _).bind fun _ => ?_
    split <;> exact .pure _
  · exact (Local.count _ _).bind fun _ => (Respects.ite (Local.note _) (.pure _)).bind fun _ =>
      target_local r p v

private theorem step_local (p : Point) : Local r.host (r.step p) := by
  rw [step_eq]
  refine (checkLookahead_local r _).bind fun _ => (next_local r _ _).bind fun next => ?_
  cases next with
  | none =>
    exact (Local.count _ _).bind fun _ => (Local.table _).bind fun t => (deadEnd_local r _ _).map
  | some place =>
    refine (Local.table _).bind fun t => .ite ?_ (.ite ?_ (.pure _))
    · exact (Local.count _ _).bind fun _ => (escalate_local r _ _).map
    · refine (Local.count _ _).bind fun _ => ?_
      exact (Respects.ite (reportAmbiguity_local r _ _ _ _) (.pure _)).bind fun _ =>
        (answer_local r _ _).map

private theorem startPlace_local : Local r.host r.startPlace := by
  unfold startPlace
  refine (Local.table _).bind fun t => ?_
  split
  · exact .pure _
  · exact (Local.probe (r.startSet_blind _ _)).bind fun configs => .ite (.pure _) ((Local.install _ _).bind fun _ =>
      (Local.table _).bind fun t => (Local.setTable _ _).bind fun _ => .pure _)

/-- **An attempt reads and writes the tables and the graph alone.** -/
theorem attempt_local : Local r.host r.attempt := by
  have hrest := (startPlace_local r).bind fun place =>
    Respects.loop (step_local r) r.fuel (⟨place, r.stream, 0⟩ : Point)
  unfold attempt
  refine .get_bind (fun s s' h => by rw [h.tables_eq]) fun s => ?_
  exact .ite (.bind (.throw _) fun _ => hrest) hrest

end Request

/-! ## Predictions and their attempts -/

namespace Session

variable {settings : PredictionSettings} {host : Oracle} {fuel : Nat} {stream : TokenStream}
  {decision : Nat} {callers : List StateId} {s s₁ t t₁ : Session}

/-- The session in which a prediction is counted. -/
def called (s : Session) (decision : Nat) : Session :=
  s.count decision fun c => { c with invocations := c.invocations + 1 }

/-- A prediction makes an attempt, and perhaps another one. -/
theorem predict_from? (settings : PredictionSettings) (host : Oracle) (fuel : Nat)
    (stream : TokenStream) (decision : Nat) (callers : List StateId) (s : Session) :
    (predict settings host fuel stream decision callers).from? s =
      ((requestOn s.cache settings host fuel stream decision callers).attempt.from?
        (s.called decision)).bind fun (first, s₁) =>
          (again (requestOn s.cache settings host fuel stream decision callers)
            s.cache.generation first >>= close decision stream).from? s₁ := by
  rw [predict_eq]
  change ((requestOn s.cache settings host fuel stream decision callers).attempt.outcome >>=
    fun first => again (requestOn s.cache settings host fuel stream decision callers)
      s.cache.generation first >>= close decision stream).from? (s.called decision) = _
  rw [Run.from?_bind, Run.from?_outcome]
  cases (requestOn s.cache settings host fuel stream decision callers).attempt.from?
    (s.called decision) <;> rfl

/-- A prediction is closed with the result it has come to. -/
private theorem exists_close (decision : Nat) (stream : TokenStream)
    (result : Except PredictionError Nat) (s : Session) :
    ∃ s', (close decision stream result).from? s = some (result, s') := by
  cases result with
  | ok alt => exact ⟨s, rfl⟩
  | error e => exact ⟨_, rfl⟩

/-- **A prediction comes to what its attempt comes to,** if there was room for all nodes. -/
theorem predict_of_attempt {first : Except PredictionError Nat}
    (h : (requestOn s.cache settings host fuel stream decision callers).attempt.from?
      (s.called decision) = some (first, s₁))
    (hroom : ∀ e, first = .error e → e.isFullGraph = false) :
    ∃ s', (predict settings host fuel stream decision callers).from? s = some (first, s') := by
  have hkeep : again (requestOn s.cache settings host fuel stream decision callers)
      s.cache.generation first = pure first := by
    cases first with
    | ok alt => rfl
    | error e => simp [again, hroom e rfl]
  rw [predict_from?, h]
  change ∃ s', (again _ _ first >>= close decision stream).from? s₁ = _
  rw [hkeep, pure_bind]
  exact exists_close decision stream first s₁

/-- A cache that is begun again knows what a new one knows. -/
theorem alike_renew {u : Session}
    (hhost : host.Steady) (hu : u.cache = .new s.cache.net s.cache.maxNodes s.cache.maxDepth)
    (hkeeps : s.Keeps t) : u.Alike host (t.renew s.cache.generation) := by
  have hcache : (t.renew s.cache.generation).cache = t.cache.restart := by
    unfold renew Cache.renew
    rw [if_pos hkeeps.generation_eq]
    rfl
  rw [← hkeeps.net_eq, ← hkeeps.maxNodes_eq, ← hkeeps.maxDepth_eq] at hu
  exact ⟨by rw [hcache, hu]; rfl, by rw [hcache, hu]; rfl, hhost.agrees _ _⟩

/-- **A prediction that finds the graph full begins again** as on a new cache, if the answers of the
host never change. -/
theorem predict_of_full (hhost : host.Steady) {e : PredictionError} {second : Except PredictionError Nat}
    (h : (requestOn s.cache settings host fuel stream decision callers).attempt.from?
      (s.called decision) = some (.error e, s₁)) (hfull : e.isFullGraph = true)
    (ht : t.cache = .new s.cache.net s.cache.maxNodes s.cache.maxDepth)
    (hagain : (requestOn s.cache settings host fuel stream decision callers).attempt.from? t =
      some (second, t₁)) :
    ∃ s', (predict settings host fuel stream decision callers).from? s = some (second, s') := by
  have hrhost : (requestOn s.cache settings host fuel stream decision callers).host.Steady := hhost
  generalize hr : requestOn s.cache settings host fuel stream decision callers = r
    at h hagain hrhost
  obtain ⟨hkeeps, -⟩ := r.attempt_local _ _ (.refl _ _) _ _ h
  have halike : t.Alike r.host (s₁.renew s.cache.generation) :=
    alike_renew (s := s.called decision) hrhost ht hkeeps
  obtain ⟨-, t₂, hrun, -⟩ := r.attempt_local _ _ halike _ _ hagain
  obtain ⟨s', hclose⟩ := exists_close decision stream second t₂
  refine ⟨s', ?_⟩
  rw [predict_from?, hr, h]
  simp [again, hfull, Run.from?_bind, hrun, hclose]

/-- **With a new cache a second attempt is no better than the first one,** if the answers of the host
never change. -/
theorem predict_of_new (hhost : host.Steady) {maxNodes maxDepth : Nat} {net : Network}
    {first : Except PredictionError Nat} (hs : s.cache = .new net maxNodes maxDepth)
    (h : (requestOn s.cache settings host fuel stream decision callers).attempt.from?
      (s.called decision) = some (first, s₁)) :
    ∃ s', (predict settings host fuel stream decision callers).from? s = some (first, s') := by
  by_cases hfull : ∃ e, first = .error e ∧ e.isFullGraph = true
  · obtain ⟨e, rfl, hfull⟩ := hfull
    refine predict_of_full hhost h hfull (t := s.called decision) ?_ h
    change s.cache = _
    rw [hs]
    rfl
  · exact predict_of_attempt h fun e he =>
      Bool.eq_false_of_not_eq_true fun h' => hfull ⟨e, he, h'⟩

/-- So a prediction that ends there has ended at once. -/
theorem attempt_of_predict (hhost : host.Steady) {maxNodes maxDepth : Nat} {net : Network}
    {result : Except PredictionError Nat} {s' : Session} (hs : s.cache = .new net maxNodes maxDepth)
    (h : (predict settings host fuel stream decision callers).from? s = some (result, s')) :
    ∃ s₁, (requestOn s.cache settings host fuel stream decision callers).attempt.from?
      (s.called decision) = some (result, s₁) := by
  have hrun := h
  rw [predict_from?] at hrun
  obtain ⟨⟨first, s₁⟩, hattempt, -⟩ := Option.bind_eq_some_iff.mp hrun
  obtain ⟨s'', hfirst⟩ := predict_of_new hhost hs hattempt
  obtain ⟨rfl, -⟩ : first = result ∧ s'' = s' := by simpa using hfirst.symm.trans h
  exact ⟨s₁, hattempt⟩

end Session

end AdaptiveLL
