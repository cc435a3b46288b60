import AdaptiveLL.Proofs.Grammar.Reading
import AdaptiveLL.Proofs.Grammar.Shape
import AdaptiveLL.Proofs.Parsing.Moves
import AdaptiveLL.Proofs.Prediction.Least
import AdaptiveLL.Proofs.Prediction.Used

/-!
# What a parse chooses

At every decision a parse comes to, the prediction with its call stack chooses the least alternative
from which the rest of the tokens can be read, up to the end of the rule that is parsed. It does so
whatever earlier predictions have left in the cache.
-/

namespace AdaptiveLL

namespace Session

variable {net : Network} {nodes : Nat} {c : Cache} {top : Nat} {stop q : StateId}
  {settings : PredictionSettings}

/-- **A prediction on a faithful cache** leaves a faithful cache behind, and chooses the least
alternative that is viable for the word ahead, if there is one. -/
theorem predict_least (hnet : net.Quiet) (horderly : net.Orderly) (hclosed : net.Closed top stop)
    (hc : ∀ mode, c.Faithful (net.regime mode nodes)) {decision : Nat}
    (hd : net.decisions[decision]? = some q) (hstop : net.isStop q = false)
    (hcalls : ∀ t ∈ (net.state q).transitions, t.isRule = false) {callers : List StateId}
    (hlinked : net.Linked top q (net.followsOf callers)) (hmode : settings.mode ≠ .sll)
    (host : Oracle) {fuel : Nat} (hfuel : net.enough emptyReturn nodes settings q ≤ fuel)
    (stream : TokenStream) :
    (predict settings host fuel stream decision callers).Does c fun res _ _ c' =>
      (∀ mode, c'.Faithful (net.regime mode nodes)) ∧ ∀ v a, stream.Ahead v →
        net.Viable stop q (net.followsOf callers) (v ++ [Symbol.eof]) a →
          (∀ b, net.Viable stop q (net.followsOf callers) (v ++ [Symbol.eof]) b → a ≤ b) →
            res = .ok a ∨ Spent res := by
  refine (hnet.predict_does (hc settings.mode) hd host hfuel stream callers).mono ?_
  rintro res reports asked c' ⟨hc', hres⟩
  refine ⟨fun mode => Network.Faithful.inMode hc', fun v a hahead hviable hleast => ?_⟩
  rcases hres with hspent | ⟨reports', asked', htold⟩
  · exact .inr hspent
  left
  have hnet_eq : (requestOn c settings host fuel stream decision callers).net = net :=
    (hc settings.mode).net_eq
  -- Both ways to begin keep the alternative: without a call stack, and with the one at hand.
  have hword : v ++ [Symbol.eof] = (v ++ [Symbol.eof]).head (by simp) :: (v ++ [Symbol.eof]).tail :=
    (List.cons_head_tail _).symm
  have hawaits : ∀ full σ, σ = net.followsOf callers ∨ full = false ∧ σ = [] →
      net.Awaits top stop full (net.openingOf q full σ) a (v ++ [Symbol.eof]) := by
    intro full σ hσ
    rw [hword] at hviable ⊢
    exact hviable.awaits horderly hstop hcalls hlinked hσ
  have hplain : (requestOn c settings host fuel stream decision callers).Plain top stop :=
    ⟨hnet_eq ▸ horderly, hnet_eq ▸ hclosed, hnet_eq ▸ hnet.parser⟩
  refine htold.result_eq (P := net.Viable stop q (net.followsOf callers) (v ++ [Symbol.eof]))
    hplain hmode hleast hahead Network.openingOf_guardless ?_ hahead Network.openingOf_proper ?_ ?_
  · rw [hnet_eq]
    exact hawaits false [] (.inr ⟨rfl, rfl⟩)
  · rw [hnet_eq]
    exact hawaits true _ (.inl rfl)
  · rw [hnet_eq]
    exact Network.honest_opening horderly hclosed hstop hcalls hlinked

end Session

namespace Parser

/-- **Where parses of a rule come to,** whatever their settings, hosts and tokens. -/
inductive Visits (net : Network) (rule : Nat) : Walk → Prop where
  | begin (setup : ParseSetup) (index : Nat) : Visits net rule (begin setup net rule index)
  | step {setup : ParseSetup} {w w' : Walk} {p p' : Parser} :
      Visits net rule w → (step setup net w).from? p = some (.ok (.inl w'), p') →
      Visits net rule w'

variable {net : Network} {top : Nat} {w w' : Walk} {s s' : TokenStream}

theorem Moves.linked (horderly : net.Orderly) (h : Moves net w s w' s')
    (hw : net.Linked top w.state w.follows) : net.Linked top w'.state w'.follows := by
  cases h with
  | hop hhop => exact Network.Linked.hop horderly hw hhop
  | eat hstop ht hacc hstand =>
    rw [show w'.state = _ from congrArg Prod.fst hstand,
      show w'.follows = _ from congrArg Prod.snd hstand]
    exact Network.Linked.eat horderly hw hstop ht hacc

theorem begin_matched (setup : ParseSetup) (index : Nat) :
    (begin setup net top index).Matched net :=
  ⟨[], _, rfl, rfl, .nil⟩

/-- The calls of a parse are matched, and its stack was built by calls. -/
theorem Visits.matched_linked (horderly : net.Orderly) {start : StateId}
    (hstart : net.ruleStarts[top]? = some start) (hrule : (net.state start).rule = top)
    (h : Visits net top w) : w.Matched net ∧ net.Linked top w.state w.follows := by
  induction h with
  | begin setup index =>
    refine ⟨begin_matched setup index, .base ?_⟩
    change (net.state (net.ruleStarts[top]?.getD 0)).rule = top
    rw [hstart]
    exact hrule
  | step _ hstep ih =>
    obtain ⟨hmatched, hmove⟩ := step_moves horderly ih.1 hstep
    exact ⟨hmatched, hmove.linked horderly ih.2⟩

end Parser

namespace Grammar.Built

variable {g : Grammar} {net : Network} {modeStarts : List StateId} {d : Draft}

/-- **A grammar without conditions** has a network in which predictions end. -/
theorem quiet (h : g.Built net modeStarts d) (hparser : g.kind = .parser) (hplain : g.Unconditional)
    (hno : net.NoReentry) (hword : net.states.size ≤ emptyReturn) : net.Quiet where
  consistent := h.consistent
  parser := h.isLexer_eq hparser
  word := hword
  noReentry := hno
  unguarded := h.unguarded hparser hplain

/-- A parse stands at the start of its rule first. -/
theorem begin_stand (h : g.Built net modeStarts d) {i : Nat} (hi : i < g.rules.length)
    (setup : ParseSetup) (index : Nat) :
    (Parser.begin setup net i index).stand = (g.startState i, []) := by
  refine Prod.ext ?_ rfl
  change net.ruleStarts[i]?.getD 0 = g.startState i
  rw [h.start_iff.mpr ⟨hi, rfl⟩]
  rfl

end Grammar.Built

/-- **Predictions choose the least alternative that can go on.** In the network of a parser grammar
without conditions and without re-entry, closed by the rule that is parsed, let a parse have come to
a decision. If the tokens ahead can be read from some alternatives, under the calls of the parse and
up to the end of the rule, the least of these is predicted, whatever earlier predictions have left
in the cache, as long as no ceiling is met. -/
theorem Parser.predict_least_viable {g : Grammar} {net : Network} (hcompile : g.compile = .ok net)
    (hparser : g.kind = .parser) (hplain : g.Unconditional) (hno : net.NoReentry)
    (hword : net.states.size ≤ emptyReturn) {top : Nat} {r : Rule} {es : List Element}
    (hr : g.rules[top]? = some r) (hclosed : g.ClosedBy r es) {stop : StateId}
    (hstop : net.ruleStops[top]? = some stop) {w : Walk} (hvisits : Visits net top w)
    {decision : Nat} (hd : (net.state w.state).decision = some decision)
    {settings : PredictionSettings} (hmode : settings.mode ≠ .sll) {stream : TokenStream}
    {v : List Symbol} (hahead : stream.Ahead v) {a : Nat}
    (hviable : net.Viable stop w.state w.follows (v ++ [Symbol.eof]) a)
    (hleast : ∀ b, net.Viable stop w.state w.follows (v ++ [Symbol.eof]) b → a ≤ b)
    {s : Session} (hused : s.cache.Used net fun _ _ => True) (host : Oracle) :
    ∃ enough, ∀ fuel, enough ≤ fuel →
      (Session.predict settings host fuel stream decision w.callers.reverse).Yields s fun res _ =>
        res = .ok a ∨ Spent res := by
  obtain ⟨modeStarts, d, hbuilt⟩ := Grammar.exists_built hcompile
  have hlt := (List.getElem?_eq_some_iff.mp hr).1
  have horderly := hbuilt.orderly hparser
  have hquiet := hbuilt.quiet hparser hplain hno hword
  obtain ⟨-, rfl⟩ := hbuilt.stop_iff.mp hstop
  obtain ⟨hinner, hways⟩ := hbuilt.of_decision hparser (q := w.state) (by rw [hd]; nofun)
  have hcalls : ∀ t ∈ (net.state w.state).transitions, t.isRule = false := by
    intro t ht
    obtain ⟨p, rfl⟩ := hways t ht
    rfl
  obtain ⟨hmatched, hlinked⟩ := hvisits.matched_linked horderly
    (hbuilt.start_iff.mpr ⟨hlt, rfl⟩) (hbuilt.rule_start hlt)
  obtain ⟨nodes, hc⟩ := hused.faithful hquiet
  refine ⟨net.enough emptyReturn nodes settings w.state, fun fuel hfuel => ?_⟩
  rw [← hmatched.followsOf_eq] at hviable hleast hlinked
  refine (Session.predict_least hquiet horderly (hbuilt.closed hparser hr hclosed) hc
    (hquiet.consistent.decision_state _ _ hd) hinner hcalls hlinked hmode host hfuel stream s
    rfl).mono ?_
  rintro res s' ⟨_, _, -, -, -, hres⟩
  exact hres v a hahead hviable hleast

/-! ## Nested pairs -/

namespace Grammar

/-- The network of nested pairs. -/
def nestedNet : Network := nested.compile.toOption.getD default

theorem compile_nested : nested.compile = .ok nestedNet := by
  obtain ⟨net, h⟩ := exists_nested
  rw [nestedNet, h]
  rfl

/-- Nested pairs are called only by the text, or behind an opening parenthesis. -/
theorem nested_noReentry : nestedNet.NoReentry := by
  have hstates : ∀ q < nestedNet.states.size, nestedNet.isStop q = false →
      ∀ t ∈ (nestedNet.state q).transitions, ∀ d ∈ t.onward true [],
        (if d.1 ∈ [0, 4, 11, 12] then 1 else 0) + d.2.length ≤
            (if q ∈ [0, 4, 11, 12] then 1 else 0) ∧
          ∀ r ∈ d.2, (if r ∈ [0, 4, 11, 12] then 1 else 0) ≤
            (if q ∈ [0, 4, 11, 12] then 1 else 0) := by
    decide +kernel
  refine Network.noReentry_of_height (fun q => if q ∈ [0, 4, 11, 12] then 1 else 0)
    fun q hq t ht => ?_
  rcases nestedNet.state_cases q with ⟨hlt, -⟩ | ⟨-, hplain⟩
  · exact hstates q hlt hq t ht
  · rw [hplain] at ht
    cases ht

theorem nested_unconditional : nested.Unconditional := by
  unfold Unconditional
  decide +kernel

theorem nested_closedBy : nested.ClosedBy
    ⟨"text", .seq [.ruleRef "pairs" 0, .token Symbol.eof], none, 0⟩ [.ruleRef "pairs" 0] where
  mem := List.mem_cons_self
  body_eq := rfl
  uncalled := by decide +kernel
  inner := by decide +kernel
  outer := by
    intro r' hr' hname e he
    rcases List.mem_cons.mp hr' with rfl | hr'
    · exact absurd rfl hname
    · obtain rfl := List.mem_singleton.mp hr'
      revert e
      decide +kernel

end Grammar

namespace Parser

/-- The text comes to the decision whether there is another pair. -/
theorem visits_pairs : ∃ w, Visits Grammar.nestedNet 0 w ∧ w.state = 16 ∧
    w.follows = [5] ∧ w.callers = [4] := by
  let setup : ParseSetup := { (default : ParseSetup) with maxDepth := 2 }
  have hstart : Visits Grammar.nestedNet 0 (begin setup Grammar.nestedNet 0 0) := .begin setup 0
  have hbegin : (begin setup Grammar.nestedNet 0 0).state = 0 := by decide +kernel
  have hfirst : (step setup Grammar.nestedNet (begin setup Grammar.nestedNet 0 0)).from? default =
      some (.ok (.inl { begin setup Grammar.nestedNet 0 0 with state := 4 }), default) :=
    step_epsilon (by rw [hbegin]; decide +kernel) (by rw [hbegin]; decide +kernel)
      (by rw [hbegin]; decide +kernel)
  obtain ⟨w, hcall, hstate, hframes, hcallers⟩ : ∃ w,
      (step setup Grammar.nestedNet { begin setup Grammar.nestedNet 0 0 with state := 4 }).from?
          default = some (.ok (.inl w), default) ∧ w.state = 2 ∧
        w.frames = ⟨1, some 5, 0⟩ :: [⟨0, none, 0⟩] ∧ w.callers = [4] :=
    step_call (by decide +kernel) (by decide +kernel) (by decide +kernel) (by decide)
  have hloop : (step setup Grammar.nestedNet w).from? default =
      some (.ok (.inl { w with state := 16 }), default) :=
    step_epsilon (by rw [hstate]; decide +kernel) (by rw [hstate]; decide +kernel)
      (by rw [hstate]; decide +kernel)
  refine ⟨_, ((hstart.step hfirst).step hcall).step hloop, rfl, ?_, hcallers⟩
  unfold Walk.follows
  rw [hframes]
  rfl

theorem nested_predict_pair : ∃ w, Visits Grammar.nestedNet 0 w ∧ w.state = 16 ∧
    ∃ enough, ∀ fuel, enough ≤ fuel →
      (Session.predict {} .permissive fuel (.ofTypes [1, 2]) 0 w.callers.reverse).Yields
        (.new (.new Grammar.nestedNet)) fun res _ => res = .ok 1 ∨ Spent res := by
  obtain ⟨w, hvisits, hstate, hfollows, -⟩ := visits_pairs
  have hnew : (Session.new (.new Grammar.nestedNet)).cache = .new Grammar.nestedNet := rfl
  refine ⟨w, hvisits, hstate, predict_least_viable Grammar.compile_nested rfl
    Grammar.nested_unconditional Grammar.nested_noReentry (by decide +kernel)
    (show Grammar.nested.rules[0]? = some _ from rfl) Grammar.nested_closedBy
    (show Grammar.nestedNet.ruleStops[0]? = some 1 by decide +kernel) hvisits
    (by rw [hstate]; decide +kernel) (show ({} : PredictionSettings).mode ≠ .sll by decide)
    (TokenStream.ahead_ofTypes (w := [1, 2]) (by decide)) ?_ ?_ (hnew ▸ .new _ _) _⟩
  · rw [hstate, hfollows]
    -- Alternatives count from one: the first way leads into the body of the loop.
    exact ⟨0, .epsilon 8, by decide +kernel, rfl, Network.reads_of_scripted
      [0, 0, 0, 0, 0, 1, 0, 0, 0, 0, 0, 0, 0, 1, 0, 0, 0, 0, 0] (by decide +kernel)⟩
  · rintro b ⟨i, -, -, rfl, -⟩
    exact Nat.le_add_left 1 i

end Parser

end AdaptiveLL
