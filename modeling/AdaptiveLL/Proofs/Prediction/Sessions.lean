import AdaptiveLL.Proofs.Prediction.Attempts

/-!
# Predictions in a session

A prediction keeps the cache of its session faithful, and does what `Request.Told` says unless a
ceiling is met. If the graph of stacks is full, the cache is begun again and so is the prediction.
-/

namespace AdaptiveLL

namespace Cache

variable {R : Regime}

theorem table_new (net : Network) (hparser : net.isLexer = false) (maxNodes maxDepth d : Nat)
    {entry : StateId} (hd : net.decisions[d]? = some entry) :
    (Cache.new net maxNodes maxDepth).table d = Table.ofDecision net d entry := by
  unfold table new freshTables
  simp [hparser, hd]

/-- **A cache in which nothing is known is faithful.** -/
theorem new_faithful (hparser : R.net.isLexer = false) {maxNodes maxDepth : Nat}
    (hroom : max maxNodes 1 = R.nodes) : (Cache.new R.net maxNodes maxDepth).Faithful R := by
  refine Honest.new hroom (by simp [freshTables, hparser]) fun d entry hd => ?_
  rw [table_new R.net hparser maxNodes maxDepth d hd]
  exact ⟨rfl, rfl, rfl⟩

/-- A cache that is begun again is faithful. -/
theorem Faithful.restart (hparser : R.net.isLexer = false) {c : Cache} (hc : c.Faithful R) :
    c.restart.Faithful R :=
  Honest.restart hc (new_faithful hparser hc.room_eq)

end Cache

namespace Session

/-- The request for a prediction on a cache. -/
def requestOn (c : Cache) (settings : PredictionSettings) (host : Oracle) (fuel : Nat)
    (stream : TokenStream) (decision : Nat) (callers : List StateId) : Request :=
  ({ cache := c } : Session).request settings host fuel stream decision callers

variable {R : Regime} {c : Cache} {F : Set Thread} {asked₀ : List Callback} {words : Nat}
  {settings : PredictionSettings} {host : Oracle} {fuel : Nat} {stream : TokenStream}
  {decision : Nat} {callers : List StateId}

private theorem close_does {result : Except PredictionError Nat} {c : Cache} :
    Prediction.Does (close decision stream result) c fun res reports asked c' =>
      res = result ∧ reports = [] ∧ asked = [] ∧ c' = c := by
  cases result with
  | ok alt => exact .pure ⟨rfl, rfl, rfl, rfl⟩
  | error e =>
    intro s hs
    exact .of_eq (r := .error e) rfl ⟨[], [], rfl, by simp, rfl, rfl, rfl, hs⟩

/-- What a prediction on a cache comes to. What it does is told unless the host changes it. Only what the
last attempt did is told, so the reports and callbacks are told as long as the cache was not
renewed. -/
def Foretold (R : Regime) (F : Set Thread) (asked₀ : List Callback) (r : Request) (c : Cache)
    (res : Except PredictionError Nat) (reports : List Report) (asked : List Callback)
    (c' : Cache) : Prop :=
  c'.Faithful R ∧ (Spent res ∨ (r.Sure R → ∃ reports' asked',
    r.Told F asked₀ (R.start r.decision) r.stream ⟨res, reports', asked'⟩ ∧
      (c'.generation = c.generation → reports = reports' ∧ asked = asked')))

private theorem attempt_does {r : Request} (hU : r.Under R F asked₀ words) (hc : c.Faithful R) :
    Prediction.Does r.attempt.outcome c fun res reports asked c' => ∃ first, res = .ok first ∧
      c'.Faithful R ∧ c.Follows c' ∧ (Spent first ∨ (r.Sure R →
        r.Told F asked₀ (R.start r.decision) r.stream ⟨first, reports, asked⟩)) :=
  .outcome (Prediction.Does.mono (Request.attempt_acts hU hc)
    fun first _ _ _ ⟨hc', hfollows, htold⟩ =>
      ⟨first, rfl, hc', hfollows, htold.imp_left fun ⟨e, he, _⟩ => ⟨e, he⟩⟩)

private theorem renew_does {c' : Cache} (hfollows : c.Follows c') :
    Prediction.Does (modify (·.renew c.generation)) c' fun res reports asked c'' =>
      res = .ok ⟨⟩ ∧ reports = [] ∧ asked = [] ∧ c'' = c'.restart := by
  intro s hs
  have hrenew : (s.renew c.generation).cache = c'.restart ∧
      (s.renew c.generation).recorder = s.recorder ∧
      (s.renew c.generation).callbacks = s.callbacks := by
    unfold renew Cache.renew
    rw [hs, if_pos hfollows.generation_eq]
    exact ⟨rfl, rfl, rfl⟩
  exact .of_eq (r := .ok ⟨⟩) (t := s.renew c.generation) rfl
    ⟨[], [], hrenew.2.1, by rw [hrenew.2.2, List.append_nil], rfl, rfl, rfl, hrenew.1⟩

private theorem again_does {r : Request} (hU : r.Under R F asked₀ words)
    (hparser : R.net.isLexer = false) {c' : Cache} (hc' : c'.Faithful R) (hfollows : c.Follows c')
    {first : Except PredictionError Nat} {reports₀ : List Report} {asked₁ : List Callback}
    (htold : Spent first ∨ (r.Sure R →
      r.Told F asked₀ (R.start r.decision) r.stream ⟨first, reports₀, asked₁⟩)) :
    Prediction.Does (again r c.generation first) c' fun res reports asked c'' => ∃ result,
      res = .ok result ∧
      Foretold R F asked₀ r c result (reports₀ ++ reports) (asked₁ ++ asked) c'' := by
  have hkeep : Prediction.Does (pure first) c' fun res reports asked c'' => ∃ result,
      res = .ok result ∧
      Foretold R F asked₀ r c result (reports₀ ++ reports) (asked₁ ++ asked) c'' :=
    .pure ⟨first, rfl, hc', htold.imp_right fun h hhost => ⟨_, _, h hhost, by simp⟩⟩
  unfold again
  cases first with
  | ok alt => exact hkeep
  | error e =>
    dsimp only
    split
    · refine .after (renew_does hfollows) (Prediction.Does.mono
        (attempt_does hU (hc'.restart hparser)) ?_)
      rintro res reports asked c'' ⟨second, rfl, hc'', hfollows'', htold''⟩
      refine ⟨second, rfl, hc'', htold''.imp_right fun h hhost => ⟨_, _, h hhost, fun hgen => ?_⟩⟩
      -- The renewed cache is of a later generation.
      have hlater : c''.generation = c.generation + 1 :=
        hfollows''.generation_eq.trans (congrArg (· + 1) hfollows.generation_eq)
      omega
    · exact hkeep

/-- **A prediction does what is told of it,** and leaves a faithful cache behind. -/
theorem predict_does (hparser : R.net.isLexer = false) (hc : c.Faithful R)
    (hU : (requestOn c settings host fuel stream decision callers).Under R F asked₀ words) :
    (predict settings host fuel stream decision callers).Does c
      (Foretold R F asked₀ (requestOn c settings host fuel stream decision callers) c) := by
  rw [predict_eq]
  have hcount : Prediction.Does (modify (·.count decision fun c =>
      { c with invocations := c.invocations + 1 })) c fun res reports asked c' =>
      res = .ok ⟨⟩ ∧ reports = [] ∧ asked = [] ∧ c' = c :=
    fun s hs => .of_eq (r := .ok ⟨⟩) rfl ⟨[], [], rfl, by simp, rfl, rfl, rfl, hs⟩
  refine .after hcount (.get_bind fun s hs => .get_bind fun s' hs' => ?_)
  have hrequest : s.request settings host fuel stream decision callers =
      requestOn c settings host fuel stream decision callers := by
    subst hs
    rfl
  rw [hrequest, hs']
  refine (attempt_does hU hc).bind ?_ fun _ _ _ _ ⟨_, he, _⟩ => nomatch he
  rintro first reports asked c₁ ⟨first', hfirst, hc₁, hfollows, htold⟩
  obtain rfl := Except.ok.inj hfirst
  refine (again_does hU hparser hc₁ hfollows htold).bind ?_ fun _ _ _ _ ⟨_, he, _⟩ => nomatch he
  rintro result reports' asked' c₂ ⟨result', hresult, hforetold⟩
  obtain rfl := Except.ok.inj hresult
  refine Prediction.Does.mono close_does ?_
  rintro res _ _ c₃ ⟨rfl, rfl, rfl, rfl⟩
  simpa using hforetold

end Session

end AdaptiveLL
