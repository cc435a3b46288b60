import AdaptiveLL.Proofs.Lookups.Parses
import AdaptiveLL.Proofs.Lookups.Scans
import AdaptiveLL.Proofs.Prediction.Transparency

/-!
# Checked networks are safe to look things up in

A network that passes the check leads from its states and tables to states and tables only. So
nothing that is done with it ever looks up a state, a rule, a decision, a stack or an alternative
that is not there: a strict run, which would stop, ends as the plain one does.
-/

namespace AdaptiveLL

/-- **A cache that has been in use:** made new, used for predictions, parses and matches, whether
they succeeded or failed, and perhaps cleared in between. -/
inductive Cache.Lived (net : Network) : Cache → Prop where
  | new (maxNodes maxDepth : Nat) : Lived net (.new net maxNodes maxDepth)
  | clear {c : Cache} : Lived net c → Lived net c.clear.1
  | predicted {s s' : Session} {settings : PredictionSettings} {host : Oracle} {fuel : Nat}
      {stream : TokenStream} {decision : Nat} {callers : List StateId}
      {r : Except PredictionError Nat} :
      Lived net s.cache →
      (Session.predict settings host fuel stream decision callers).from? s = some (r, s') →
      Lived net s'.cache
  | parsed {p p' : Parser} {setup : ParseSetup} {rule : String} {r : Except ParseError ParseTrace} :
      Lived net p.session.cache →
      (Parser.parse setup rule).from? p = some (r, p') → Lived net p'.session.cache
  | matched {s s' : Scanner} {settings : LexerSettings} {host : Oracle} {fuel mode : Nat}
      {r : Except LexError TokenMatch} :
      Lived net s.cache →
      (Scanner.matchToken settings host fuel mode).from? s = some (r, s') → Lived net s'.cache

/-- **Every cache that has been in use is in range.** -/
theorem Cache.Lived.inRange {net : Network} (hnet : net.Consistent) (hindexed : net.Indexed)
    {c : Cache} (hc : c.Lived net) : c.InRange net := by
  induction hc with
  | new maxNodes maxDepth => exact Cache.new_inRange net maxNodes maxDepth
  | clear _ ih => exact ih.restart
  | predicted _ hrun ih =>
    exact ((Session.strictPredict_safe hnet hindexed ih _ _ _ _ _ _).ensures _ _ hrun).1
  | parsed _ hrun ih =>
    exact ((Parser.strictParse_safe hnet hindexed ih _ _).ensures _ _ hrun).1
  | matched _ hrun ih =>
    exact ((Scanner.strictMatchToken_safe hnet hindexed ih _ _ _ _).ensures _ _ hrun).1

namespace Network

/-- **No lookup leads beyond its table,** whatever the input, the callers, the host and the settings
are, and whatever the cache was used for before. -/
structure LookupsSucceed (net : Network) : Prop where
  predict : ∀ s : Session, s.cache.Lived net →
    ∀ settings host fuel stream decision callers,
      (Session.strictPredict settings host fuel stream decision callers).from? s =
        (Session.predict settings host fuel stream decision callers).strictly.from? s
  /-- An alternative that is predicted is one of the decision. -/
  alternative : net.isLexer = false → ∀ s : Session, s.cache.Lived net →
    ∀ settings host fuel stream decision callers a s',
      (Session.predict settings host fuel stream decision callers).from? s = some (.ok a, s') →
      ∃ state, net.decisionState? decision = some state ∧ 1 ≤ a ∧ a ≤ state.transitions.length
  parse : ∀ p : Parser, p.session.cache.Lived net →
    ∀ setup rule,
      (Parser.strictParse setup rule).from? p = (Parser.parse setup rule).strictly.from? p
  matchToken : ∀ s : Scanner, s.cache.Lived net →
    ∀ settings host fuel mode,
      (Scanner.strictMatchToken settings host fuel mode).from? s =
        (Scanner.matchToken settings host fuel mode).strictly.from? s
  nextTokens : ∀ q < net.states.size, net.strictNextTokens q = some (net.nextTokens q)
  expectedTokens : ∀ q < net.states.size, ∀ callers, (∀ c ∈ callers, c < net.states.size) →
    net.strictExpectedTokens q callers = some (net.expectedTokens q callers)
  nextTokensInContext : ∀ q < net.states.size, ∀ callers, (∀ c ∈ callers, c < net.states.size) →
    net.strictNextTokensInContext q callers = some (net.nextTokensInContext q callers)

/-- **In a network that passes the check no lookup leads beyond its table.** -/
theorem lookups_succeed {net : Network} (hcheck : net.check = .ok ()) : net.LookupsSucceed := by
  have hnet := consistent_of_check hcheck
  have hindexed := indexed_of_check hcheck
  constructor
  case predict =>
    intro s hs settings host fuel stream decision callers
    exact (Session.strictPredict_safe hnet hindexed (hs.inRange hnet hindexed) settings host fuel
      stream decision callers).from?_eq
  case alternative =>
    intro hparser s hs settings host fuel stream decision callers a s' hrun
    obtain ⟨-, -, halt⟩ := (Session.strictPredict_safe hnet hindexed (hs.inRange hnet hindexed)
      settings host fuel stream decision callers).ensures _ _ hrun
    -- In a parser the tables begin at the decision states.
    obtain ⟨entry, hentry, hpos, hle⟩ := halt a rfl
    rw [entries_eq_decisions hparser] at hentry
    exact ⟨net.state entry, by rw [decisionState?, hentry]; rfl, hpos, hle⟩
  case parse =>
    intro p hp setup rule
    exact (Parser.strictParse_safe hnet hindexed (hp.inRange hnet hindexed) setup
      rule).from?_eq
  case matchToken =>
    intro s hs settings host fuel mode
    exact (Scanner.strictMatchToken_safe hnet hindexed (hs.inRange hnet hindexed) settings host fuel
      mode).from?_eq
  case nextTokens => exact fun q hq => strictNextTokens_eq hnet hindexed hq
  case expectedTokens => exact fun q hq callers => strictExpectedTokens_eq hnet hindexed hq
  case nextTokensInContext =>
    exact fun q hq callers => strictNextTokensInContext_eq hnet hindexed hq

/-- Whether an item is predicted to be the first alternative. -/
private def findsItem : Bool :=
  match (Session.predict {} .permissive 100 (.ofTypes [1]) 0 []).from?
    (.new (.new Grammar.itemsNet)) with
  | some (.ok a, _) => a == 1
  | _ => false

theorem items_lookups_succeed :
    (∃ s', (Session.strictPredict {} .permissive 100 (.ofTypes [1]) 0 []).from?
      (.new (.new Grammar.itemsNet)) = some (.ok 1, s')) ∧
    ∃ state, Grammar.itemsNet.decisionState? 0 = some state ∧ 1 ≤ state.transitions.length := by
  have hlookups := lookups_succeed Grammar.itemsNet_check
  have hlived : (Session.new (.new Grammar.itemsNet)).cache.Lived Grammar.itemsNet := .new _ _
  have hparser : Grammar.itemsNet.isLexer = false := by decide +kernel
  have hfinds : findsItem = true := by decide +kernel
  unfold findsItem at hfinds
  split at hfinds
  · next a s' hrun =>
    obtain rfl : a = 1 := by simpa using hfinds
    obtain ⟨state, hstate, -, hle⟩ :=
      hlookups.alternative hparser _ hlived {} .permissive 100 (.ofTypes [1]) 0 [] 1 s' hrun
    refine ⟨⟨s', ?_⟩, state, hstate, hle⟩
    rw [hlookups.predict _ hlived, Run.from?_strictly, hrun]
    rfl
  · cases hfinds

/-- Where a transition leads nowhere, a strict walk stops. -/
example : ({ Grammar.itemsNet with
    states := Grammar.itemsNet.states.modify 0 fun s => { s with transitions := [.epsilon 99] } } :
      Network).strictNextTokens 0 = none := by decide +kernel

end Network

end AdaptiveLL
