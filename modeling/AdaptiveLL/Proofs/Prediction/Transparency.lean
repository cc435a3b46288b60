import AdaptiveLL.Grammar.Compile
import AdaptiveLL.Proofs.Network.Passing
import AdaptiveLL.Proofs.Network.Machine
import AdaptiveLL.Proofs.Prediction.Guarded
import AdaptiveLL.Proofs.Prediction.Used

/-!
# The cache does not show

What a prediction does is told by the threads with which its decision begins, and these are told by
the network. So it makes no difference which predictions used the cache before, nor whether the
cache is used at all: the answer, the reports and the callbacks are the same, as long as no ceiling
is met.
-/

namespace AdaptiveLL

/-! ## What is told does not depend on the cache -/

namespace Request

variable {r : Request} {T F : Set Thread} {asked : List Callback} {stream : TokenStream} {d : Deed}

/-- The request with other fuel, with or without the cache. -/
def recast (r : Request) (fuel : Nat) (useCache : Bool) : Request :=
  { r with fuel, settings := { r.settings with useCache } }

theorem FullTold.recast (h : r.FullTold T stream d) (fuel : Nat) (useCache : Bool) :
    (r.recast fuel useCache).FullTold T stream d := by
  induction h with
  | dead hg hs hempty hend => exact .dead hg hs hempty hend
  | stop hg hs hne hverdict => exact .stop (r := r.recast fuel useCache) hg hs hne hverdict
  | next hg hs hne hverdict _ ih => exact .next hg hs hne hverdict ih

private theorem Met.recast {v : Symbol} {row : Row} {g : StackGraph} (h : r.Met T v row g)
    (fuel : Nat) (useCache : Bool) : (r.recast fuel useCache).Met T v row g :=
  ⟨h.sound, h.holds, h.nonempty, h.found⟩

theorem Told.recast (h : r.Told F asked T stream d) (fuel : Nat) (useCache : Bool) :
    (r.recast fuel useCache).Told F asked T stream d := by
  induction h with
  | dead hg hs hempty hend => exact .dead hg hs hempty hend
  | answer hmet hturn haccepting =>
    exact .answer (r := r.recast fuel useCache) (hmet.recast fuel useCache) hturn haccepting
  | guarded hmet hturn hsettled =>
    exact .guarded (r := r.recast fuel useCache) (hmet.recast fuel useCache) hturn hsettled
  | full hmet hturn hsettled hfull =>
    exact .full (r := r.recast fuel useCache) (hmet.recast fuel useCache) hturn hsettled
      (hfull.recast fuel useCache)
  | next hmet hturn haccepting _ ih =>
    exact .next (r := r.recast fuel useCache) (hmet.recast fuel useCache) hturn haccepting ih

end Request

/-! ## Networks in which predictions end -/

namespace Network

/-- **A network in which predictions end,** whatever its guards. -/
structure Tame (net : Network) : Prop where
  consistent : net.Consistent
  parser : net.isLexer = false
  word : net.states.size ≤ emptyReturn
  noReentry : net.NoReentry

/-- The regime of predictions in a mode under guards. -/
def guardedRegime (net : Network) (mode : PredictionMode) (nodes : Nat) : Regime where
  net := net
  mode := mode
  start d := (net.questionAt (net.decisions[d]?.getD 0)).beginning false []
  nodes := nodes

/-- A number of steps that suffices for a prediction under guards. -/
noncomputable def ample (net : Network) (nodes : Nat) (settings : PredictionSettings)
    (entry : StateId) : Nat :=
  sweepBound emptyReturn (max Limits.configsPerSet (net.tags entry).card) nodes +
    settings.maxLookahead + 2

variable {net : Network} {nodes : Nat} {c : Cache} {settings : PredictionSettings} {decision : Nat}
  {entry : StateId}

/-- **A prediction with enough fuel can be made** under guards, from the same threads whatever the
cache. -/
theorem Tame.exists_under (hnet : net.Tame) (hd : net.decisions[decision]? = some entry)
    (settings : PredictionSettings) (host : Oracle) (stream : TokenStream) (callers : List StateId) :
    ∃ F asked, ∀ nodes c, c.Faithful (net.guardedRegime settings.mode nodes) → ∀ fuel useCache,
      net.ample nodes settings entry ≤ fuel →
        (Session.requestOn c { settings with useCache } host fuel stream decision callers).Under
          (net.guardedRegime settings.mode nodes) F asked emptyReturn := by
  let q : Question := { net, host, decision, entry, start := stream.index, fuel := 0 }
  obtain ⟨asked, -, hopensFull⟩ :=
    q.exists_opens true (net.followsOf callers) hnet.consistent hnet.word nofun
  obtain ⟨none', hnone, hopens⟩ :=
    (net.questionAt entry).exists_opens false [] hnet.consistent hnet.word fun _ => rfl
  obtain rfl := hnone rfl
  refine ⟨q.beginning true (net.followsOf callers), asked, fun nodes c hc fuel useCache hfuel => ?_⟩
  have hentry : (c.table decision).start = entry := (hc.tables decision entry hd).start_eq
  have hnet_eq : c.net = net := hc.net_eq
  have hrequest : Session.requestOn c { settings with useCache } host fuel stream decision callers =
      { net, host, decision, entry, start := stream.index, fuel,
        settings := { settings with useCache }, callers, stream } := by
    rw [← hentry, ← hnet_eq]
    rfl
  rw [hrequest]
  have hstart : (net.guardedRegime settings.mode nodes).start decision =
      (net.questionAt entry).beginning false [] := by
    simp [guardedRegime, hd]
  have hmost : ∀ n ≤ max Limits.configsPerSet (net.tags entry).card,
      sweepBound emptyReturn n nodes < fuel := by
    intro n hn
    refine lt_of_le_of_lt (sweepBound_mono hn) ?_
    unfold ample at hfuel
    omega
  have hways := hmost _ (le_max_right _ _)
  exact {
    net_eq := rfl
    mode_eq := rfl
    entry_eq := hd
    consistent := hnet.consistent
    word := hnet.word
    noReentry := hnet.noReentry
    words_le := le_rfl
    fuel := hmost _ (le_max_left _ _)
    steps := by
      change settings.maxLookahead + 1 < fuel
      unfold ample at hfuel
      omega
    opens := hstart.symm ▸ hopens { q with fuel } ⟨rfl, rfl, nofun⟩ nodes hways
    proper := hstart.symm ▸ Question.beginning_proper (q := net.questionAt entry) hnet.consistent
      hnet.word fun _ => rfl
    opensFull := hopensFull { q with fuel } ⟨rfl, rfl, fun _ => ⟨rfl, rfl⟩⟩ nodes hways
    properFull := Question.beginning_proper (q := q) hnet.consistent hnet.word nofun }

end Network

/-- **Used caches are faithful,** whatever the guards, as long as all predictions were made in one
mode. -/
theorem Cache.Used.faithful_guarded {net : Network} (hnet : net.Tame) {mode : PredictionMode}
    {c : Cache} (h : Used net (fun settings _ => settings.mode = mode) c) :
    ∃ nodes, c.Faithful (net.guardedRegime mode nodes) := by
  induction h with
  | new maxNodes maxDepth =>
    exact ⟨max maxNodes 1, Cache.new_faithful (R := net.guardedRegime mode _) hnet.parser rfl⟩
  | clear _ ih =>
    obtain ⟨nodes, hc⟩ := ih
    exact ⟨nodes, hc.restart hnet.parser⟩
  | @predict s s' settings host fuel stream decision callers result _ hmode hrun ih =>
    obtain ⟨nodes, hc⟩ := ih
    subst hmode
    refine ⟨nodes, ?_⟩
    cases hd : net.decisions[decision]? with
    | some entry =>
      -- With more fuel the prediction would have ended the same way.
      have hmore := Session.predict_within (le_max_left fuel (net.ample nodes settings entry)) stream
        decision callers s _ hrun
      obtain ⟨F, asked, hunder⟩ := hnet.exists_under hd settings host stream callers
      have hdoes := Session.predict_does hnet.parser hc
        (hunder nodes s.cache hc _ settings.useCache (le_max_right fuel _))
      obtain ⟨_, _, -, -, hfaithful, -⟩ := (hdoes s rfl).apply hmore
      exact hfaithful
    | none =>
      have hsize : s.cache.tables.size ≤ decision := by
        rw [hc.size_eq]
        exact Array.getElem?_eq_none_iff.mp hd
      obtain ⟨_, _, -, -, -, -, -, hkept⟩ := (Session.predict_unknown hsize s rfl).apply hrun
      rw [hkept]
      exact hc

/-! ## Transparency -/

namespace Session

/-- **No ceiling was met** by a prediction: it did not fail at one, and its cache was not renewed. -/
def Unspent (s : Session) (result : Except PredictionError Nat) (s' : Session) : Prop :=
  ¬Spent result ∧ s'.cache.generation = s.cache.generation

/-- **What a prediction was seen to do:** its result, the reports it delivered and the callbacks it
made. -/
def Performed (s : Session) (result : Except PredictionError Nat) (s' : Session) (d : Deed) : Prop :=
  result = d.result ∧ s'.recorder = d.reports.foldl Recorder.record s.recorder ∧
    s'.callbacks = s.callbacks ++ d.asked

variable {net : Network} {settings : PredictionSettings} {host : Host} {stream : TokenStream}
  {decision : Nat} {callers : List StateId}

/-- **What a prediction does on used caches** is one thing. -/
private theorem exists_deed (hnet : net.Tame) (settings : PredictionSettings)
    (hrecover : settings.recoverAtRuleEnd = false) (host : Host) (stream : TokenStream)
    (decision : Nat) (callers : List StateId) :
    ∃ P : Deed → Prop, (∀ d d', P d → P d' → d = d') ∧ ∀ s : Session,
      s.cache.Used net (fun earlier _ => earlier.mode = settings.mode) →
        ∃ enough, ∀ fuel, enough ≤ fuel → ∀ useCache,
          (predict { settings with useCache } host fuel stream decision callers).Yields s
            fun result s' => s.Unspent result s' → ∃ d, P d ∧ s.Performed result s' d := by
  cases hd : net.decisions[decision]? with
  | none =>
    refine ⟨fun d => d = { result := .error (.unknownDecision decision net.decisions.size) },
      fun d d' h h' => h.trans h'.symm, fun s hused => ⟨0, fun fuel _ useCache => ?_⟩⟩
    obtain ⟨nodes, hc⟩ := hused.faithful_guarded hnet
    have hsize := hc.size_eq
    change s.cache.tables.size = net.decisions.size at hsize
    have hunknown : s.cache.tables.size ≤ decision := by
      rw [hsize]
      exact Array.getElem?_eq_none_iff.mp hd
    refine (predict_unknown hunknown s rfl).mono ?_
    rintro result s' ⟨reports, asked, hrecorder, hcallbacks, rfl, rfl, rfl, -⟩ -
    exact ⟨_, rfl, by rw [hsize], hrecorder, hcallbacks⟩
  | some entry =>
    obtain ⟨F, asked, hunder⟩ := hnet.exists_under hd settings host stream callers
    let r : Request := { net, host, decision, entry, start := stream.index, fuel := 0,
                         settings, callers, stream }
    let T := (net.questionAt entry).beginning false []
    have hfrank : Frank T := Question.beginning_frank (q := net.questionAt entry) hnet.consistent
      hnet.word fun _ => rfl
    -- What is told depends on the threads where the decision begins, and on no cache.
    refine ⟨fun d => r.Told F asked T stream d, fun d d' => Request.Told.unique hrecover hfrank,
      fun s hused => ?_⟩
    obtain ⟨nodes, hc⟩ := hused.faithful_guarded hnet
    refine ⟨net.ample nodes settings entry, fun fuel hfuel useCache => ?_⟩
    have hentry : (s.cache.table decision).start = entry :=
      (hc.tables decision entry hd).start_eq
    have hnet_eq : s.cache.net = net := hc.net_eq
    -- Neither the fuel nor the use of the tables is told.
    have hrequest : (requestOn s.cache { settings with useCache } host fuel stream decision
        callers).recast 0 settings.useCache = r := by
      change ({ net := s.cache.net, host, decision, entry := (s.cache.table decision).start,
                start := stream.index, fuel := 0, settings, callers, stream } : Request) = r
      rw [hentry, hnet_eq]
    have hstart : (net.guardedRegime settings.mode nodes).start decision = T := by
      simp [Network.guardedRegime, hd, T]
    refine (predict_does hnet.parser hc (hunder nodes s.cache hc fuel useCache hfuel) s rfl).mono ?_
    rintro result s' ⟨reports, made, hrecorder, hcallbacks, -, htold⟩ ⟨hunspent, hgeneration⟩
    obtain ⟨reports', made', htold, hsame⟩ := htold.resolve_left hunspent
      (.inl (Oracle.steady_coe host))
    obtain ⟨rfl, rfl⟩ := hsame hgeneration
    have htold' := htold.recast 0 settings.useCache
    rw [hrequest, show (requestOn s.cache { settings with useCache } host fuel stream decision
      callers).decision = decision from rfl, hstart] at htold'
    exact ⟨_, htold', rfl, hrecorder, hcallbacks⟩

/-- **The cache does not show.** In a parser's network that passes the check and has no re-entry, let
two sessions have caches that earlier predictions in one mode have used in any way, or not at all.
A prediction with recovery at the end of a rule switched off, by a host that answers by the
arguments alone, does the same in both: it gives the same result, delivers the same reports and
makes the same callbacks, with the cache or without, as long as no ceiling is met. -/
theorem predict_transparent (hcheck : net.check = .ok ()) (hparser : net.isLexer = false)
    (hno : net.NoReentry) (hword : net.states.size ≤ emptyReturn) (settings : PredictionSettings)
    (hrecover : settings.recoverAtRuleEnd = false) (host : Host) (stream : TokenStream)
    (decision : Nat) (callers : List StateId) {s₁ s₂ : Session}
    (hused₁ : s₁.cache.Used net fun earlier _ => earlier.mode = settings.mode)
    (hused₂ : s₂.cache.Used net fun earlier _ => earlier.mode = settings.mode) :
    ∃ enough, ∀ fuel, enough ≤ fuel → ∀ cached₁ cached₂,
      (predict { settings with useCache := cached₁ } host fuel stream decision callers).Yields s₁
        fun result₁ s₁' =>
      (predict { settings with useCache := cached₂ } host fuel stream decision callers).Yields s₂
        fun result₂ s₂' =>
          s₁.Unspent result₁ s₁' → s₂.Unspent result₂ s₂' →
            ∃ d, s₁.Performed result₁ s₁' d ∧ s₂.Performed result₂ s₂' d := by
  have hnet : net.Tame := ⟨Network.consistent_of_check hcheck, hparser, hword, hno⟩
  obtain ⟨P, hunique, hdoes⟩ := exists_deed hnet settings hrecover host stream decision callers
  obtain ⟨enough₁, hfirst⟩ := hdoes s₁ hused₁
  obtain ⟨enough₂, hsecond⟩ := hdoes s₂ hused₂
  refine ⟨max enough₁ enough₂, fun fuel hfuel cached₁ cached₂ => ?_⟩
  refine (hfirst fuel (le_of_max_le_left hfuel) cached₁).mono fun result₁ s₁' hdone₁ => ?_
  refine (hsecond fuel (le_of_max_le_right hfuel) cached₂).mono fun result₂ s₂' hdone₂ => ?_
  intro hunspent₁ hunspent₂
  obtain ⟨d₁, hd₁, hperformed₁⟩ := hdone₁ hunspent₁
  obtain ⟨d₂, hd₂, hperformed₂⟩ := hdone₂ hunspent₂
  obtain rfl := hunique d₁ d₂ hd₁ hd₂
  exact ⟨d₁, hperformed₁, hperformed₂⟩

end Session

/-! ## Three ways to an item -/

namespace Grammar

/-- One token that fits three alternatives, two of them under a condition. -/
def items : Grammar where
  kind := .parser
  name := "items"
  tokenNames := ["<INVALID>", "ITEM"]
  rules :=
    [⟨"item", .seq [.alt [.seq [.predicate 0 false, .token 1], .seq [.precedence 2, .token 1],
      .token 1], .token Symbol.eof], none, 0⟩]

/-- The network of the three alternatives. -/
def itemsNet : Network := items.compile.toOption.getD default

theorem itemsNet_check : itemsNet.check = .ok () := by
  have hok : itemsNet.check.isOk = true := by decide +kernel
  cases h : itemsNet.check with
  | ok => rfl
  | error e => rw [h] at hok; cases hok

/-- A rule that calls none does not re-enter itself. -/
theorem itemsNet_noReentry : itemsNet.NoReentry :=
  Network.noReentry_of_no_calls (by decide +kernel)

end Grammar

namespace Session

/-- Whether a prediction of an item finds the first alternative, asks the host on the way, and leaves
more than one row behind. -/
private def warms (s : Session) : Bool :=
  match (predict {} .permissive 100 (.ofTypes [1]) 0 []).from? s with
  | some (.ok alt, s') => alt == 1 && !s'.callbacks.isEmpty && decide (1 < (s'.cache.table 0).size)
  | _ => false

theorem items_transparent : ∃ warm : Session, 1 < (warm.cache.table 0).size ∧
    ∃ enough, ∀ fuel, enough ≤ fuel → ∀ cached₁ cached₂,
      (predict { useCache := cached₁ } .permissive fuel (.ofTypes [1]) 0 []).Yields warm
        fun result₁ s₁' =>
      (predict { useCache := cached₂ } .permissive fuel (.ofTypes [1]) 0 []).Yields
          (.new (.new Grammar.itemsNet)) fun result₂ s₂' =>
          warm.Unspent result₁ s₁' → Unspent (.new (.new Grammar.itemsNet)) result₂ s₂' →
            ∃ d, warm.Performed result₁ s₁' d ∧
              Performed (.new (.new Grammar.itemsNet)) result₂ s₂' d := by
  have hwarms : warms (.new (.new Grammar.itemsNet)) = true := by decide +kernel
  have hnew : (Session.new (.new Grammar.itemsNet)).cache = .new Grammar.itemsNet := rfl
  unfold warms at hwarms
  split at hwarms
  · next alt warm hrun =>
    simp only [Bool.and_eq_true, decide_eq_true_eq] at hwarms
    exact ⟨warm, hwarms.2, predict_transparent Grammar.itemsNet_check (by decide +kernel)
      Grammar.itemsNet_noReentry (by decide +kernel) {} rfl .permissive (.ofTypes [1]) 0 []
      (.predict (hnew ▸ .new _ _) rfl hrun) (hnew ▸ .new _ _)⟩
  · cases hwarms

end Session

end AdaptiveLL
