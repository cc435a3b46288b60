import AdaptiveLL.Proofs.Prediction.Fuel
import AdaptiveLL.Proofs.Prediction.Opening
import AdaptiveLL.Proofs.Prediction.Sessions

/-!
# Used caches

A cache is shared by predictions of all kinds. `Cache.Used` are the caches that they can leave
behind, and in a network without guards all of these are faithful.
-/

namespace AdaptiveLL

/-- **A cache as earlier predictions have left it:** made new, used for predictions that are
allowed, and perhaps cleared in between. -/
inductive Cache.Used (net : Network) (allowed : PredictionSettings → Oracle → Prop) : Cache → Prop where
  | new (maxNodes maxDepth : Nat) : Used net allowed (.new net maxNodes maxDepth)
  | clear {c : Cache} : Used net allowed c → Used net allowed c.clear.1
  | predict {s s' : Session} {settings : PredictionSettings} {host : Oracle} {fuel : Nat}
      {stream : TokenStream} {decision : Nat} {callers : List StateId}
      {result : Except PredictionError Nat} :
      Used net allowed s.cache → allowed settings host →
      (Session.predict settings host fuel stream decision callers).from? s = some (result, s') →
      Used net allowed s'.cache

namespace Session

/-- A decision that there is none of is refused, and the cache left as it is. -/
theorem predict_unknown {c : Cache} {settings : PredictionSettings} {host : Oracle} {fuel : Nat}
    {stream : TokenStream} {decision : Nat} {callers : List StateId}
    (h : c.tables.size ≤ decision) :
    (predict settings host fuel stream decision callers).Does c fun res reports asked c' =>
      res = .error (.unknownDecision decision c.tables.size) ∧ reports = [] ∧ asked = [] ∧
        c' = c := by
  rw [predict_eq]
  have hcount : Prediction.Does (modify (·.count decision fun c =>
      { c with invocations := c.invocations + 1 })) c fun res reports asked c' =>
      res = .ok ⟨⟩ ∧ reports = [] ∧ asked = [] ∧ c' = c :=
    fun s hs => .of_eq (r := .ok ⟨⟩) rfl ⟨[], [], rfl, by simp, rfl, rfl, rfl, hs⟩
  refine .after hcount (.get_bind fun s hs => .get_bind fun s' hs' => ?_)
  have hattempt : Prediction.Does (s.request settings host fuel stream decision
      callers).attempt.outcome c fun res reports asked c' =>
      res = .ok (.error (.unknownDecision decision c.tables.size)) ∧ reports = [] ∧ asked = [] ∧
        c' = c := by
    refine .outcome (.get_bind fun s' hs' => ?_)
    have hdecision : s'.cache.tables.size ≤ (s.request settings host fuel stream decision
        callers).decision := hs' ▸ h
    rw [if_pos hdecision, hs']
    exact .throw ⟨rfl, rfl, rfl, rfl⟩
  refine .after hattempt (.after (.pure ⟨rfl, rfl, rfl, rfl⟩) ?_)
  intro s hs
  exact .of_eq (r := .error _) rfl ⟨[], [], rfl, by simp, rfl, rfl, rfl, hs⟩

end Session

namespace Network

/-- **A network in which predictions end** and no guards count. -/
structure Quiet (net : Network) : Prop where
  consistent : net.Consistent
  parser : net.isLexer = false
  word : net.states.size ≤ emptyReturn
  noReentry : net.NoReentry
  unguarded : net.Unguarded

/-- The regime of predictions in a mode, with room for some nodes: decisions begin with their
openings. -/
def regime (net : Network) (mode : PredictionMode) (nodes : Nat) : Regime where
  net := net
  mode := mode
  start d := net.openingOf (net.decisions[d]?.getD 0) false []
  nodes := nodes

variable {net : Network} {nodes : Nat} {c : Cache}

/-- The mode of a regime does not matter. -/
theorem Faithful.inMode {mode mode' : PredictionMode} (hc : c.Faithful (net.regime mode nodes)) :
    c.Faithful (net.regime mode' nodes) :=
  ⟨hc.net_eq, hc.sound, hc.room_eq, hc.nodes_eq, hc.depth_eq, hc.size_eq, fun d entry hd =>
    Table.Sane.inMode openingOf_guardless (hc.tables d entry hd)⟩

/-- A number of steps that suffices for a prediction. -/
def enough (net : Network) (words nodes : Nat) (settings : PredictionSettings) (entry : StateId) :
    Nat :=
  sweepBound words (max Limits.configsPerSet (net.state entry).transitions.length) nodes +
    settings.maxLookahead + 2

/-- **A prediction with enough fuel can be made** under the regime of its mode. -/
theorem Quiet.under (hnet : net.Quiet) {words : Nat} (hwords : emptyReturn ≤ words)
    {settings : PredictionSettings} (hc : c.Faithful (net.regime settings.mode nodes))
    {decision : Nat} {entry : StateId} (hd : net.decisions[decision]? = some entry) (host : Oracle)
    {fuel : Nat} (hfuel : net.enough words nodes settings entry ≤ fuel) (stream : TokenStream)
    (callers : List StateId) :
    (Session.requestOn c settings host fuel stream decision callers).Under
      (net.regime settings.mode nodes) (net.openingOf entry true (net.followsOf callers)) []
      words := by
  obtain rfl : (c.table decision).start = entry := (hc.tables decision entry hd).start_eq
  obtain rfl : c.net = net := hc.net_eq
  have hstart : (c.net.regime settings.mode nodes).start decision =
      c.net.openingOf (c.table decision).start false [] := by
    simp [regime, hd]
  have hmost : ∀ n ≤ max Limits.configsPerSet
      (c.net.state (c.table decision).start).transitions.length,
      sweepBound words n nodes ≤ sweepBound words (max Limits.configsPerSet
        (c.net.state (c.table decision).start).transitions.length) nodes :=
    fun _ hn => sweepBound_mono hn
  have hconfigs := hmost _ (le_max_left _ _)
  have hways := hmost _ (le_max_right _ _)
  unfold enough at hfuel
  have hopens : ∀ full σ, (full = false → σ = []) →
      (Session.requestOn c settings host fuel stream decision callers).toQuestion.Opens full σ
        nodes (c.net.openingOf (c.table decision).start full σ) [] := fun full σ hσ =>
    Question.opens hnet.consistent hnet.word hnet.noReentry hnet.unguarded hwords hσ
      (lt_of_le_of_lt hways (by change _ < fuel; omega))
  exact {
    net_eq := rfl
    mode_eq := rfl
    entry_eq := hd
    consistent := hnet.consistent
    word := hnet.word
    noReentry := hnet.noReentry
    words_le := hwords
    fuel := lt_of_le_of_lt hconfigs (by change _ < fuel; omega)
    steps := by change settings.maxLookahead + 1 < fuel; omega
    opens := hstart.symm ▸ hopens false [] fun _ => rfl
    proper := hstart.symm ▸ openingOf_proper
    opensFull := hopens true _ nofun
    properFull := openingOf_proper }

/-- **A prediction does what is told of it,** whoever the host is: there is nothing to put to it. -/
theorem Quiet.predict_does (hnet : net.Quiet) {settings : PredictionSettings}
    (hc : c.Faithful (net.regime settings.mode nodes)) {decision : Nat} {entry : StateId}
    (hd : net.decisions[decision]? = some entry) (host : Oracle) {fuel : Nat}
    (hfuel : net.enough emptyReturn nodes settings entry ≤ fuel) (stream : TokenStream)
    (callers : List StateId) :
    (Session.predict settings host fuel stream decision callers).Does c fun res _ _ c' =>
      c'.Faithful (net.regime settings.mode nodes) ∧ (Spent res ∨ ∃ reports asked,
        (Session.requestOn c settings host fuel stream decision callers).Told
          (net.openingOf entry true (net.followsOf callers)) [] (net.openingOf entry false []) stream
          ⟨res, reports, asked⟩) := by
  have hnet_eq : (Session.requestOn c settings host fuel stream decision callers).net = net :=
    hc.net_eq
  have hstart : (net.regime settings.mode nodes).start decision = net.openingOf entry false [] := by
    simp [regime, hd]
  refine (Session.predict_does hnet.parser hc
    (hnet.under le_rfl hc hd host hfuel stream callers)).mono ?_
  rintro res reports asked c' ⟨hc', htold⟩
  refine ⟨hc', htold.imp_right fun htold => ?_⟩
  obtain ⟨reports', asked', htold, -⟩ := htold (.inr ⟨hnet_eq ▸ hnet.unguarded,
    (congrArg Guardless hstart).mpr openingOf_guardless⟩)
  change Request.Told _ _ _ ((net.regime settings.mode nodes).start decision) stream _ at htold
  exact ⟨reports', asked', hstart ▸ htold⟩

end Network

/-- **Used caches are faithful** where no guards count, whatever they were used for. -/
theorem Cache.Used.faithful {net : Network} (hnet : net.Quiet)
    {allowed : PredictionSettings → Oracle → Prop} {c : Cache} (h : Used net allowed c) :
    ∃ nodes, ∀ mode, c.Faithful (net.regime mode nodes) := by
  induction h with
  | new maxNodes maxDepth =>
    exact ⟨max maxNodes 1, fun mode => Cache.new_faithful (R := net.regime mode _) hnet.parser rfl⟩
  | clear _ ih =>
    obtain ⟨nodes, hc⟩ := ih
    exact ⟨nodes, fun mode => (hc mode).restart hnet.parser⟩
  | @predict s s' settings host fuel stream decision callers result _ _ hrun ih =>
    obtain ⟨nodes, hc⟩ := ih
    refine ⟨nodes, fun mode => ?_⟩
    cases hd : net.decisions[decision]? with
    | some entry =>
      -- With more fuel the prediction would have ended the same way.
      have hmore := Session.predict_within (le_max_left fuel
        (net.enough emptyReturn nodes settings entry)) stream decision callers s _ hrun
      have hdoes := hnet.predict_does (hc settings.mode) hd host (le_max_right fuel _) stream callers
      obtain ⟨_, _, -, -, hfaithful, -⟩ := (hdoes s rfl).apply hmore
      exact Network.Faithful.inMode hfaithful
    | none =>
      have hsize : s.cache.tables.size ≤ decision := by
        rw [(hc mode).size_eq]
        exact Array.getElem?_eq_none_iff.mp hd
      obtain ⟨_, _, -, -, -, -, -, hkept⟩ := (Session.predict_unknown hsize s rfl).apply hrun
      rw [hkept]
      exact hc mode

end AdaptiveLL
