import AdaptiveLL.Proofs.Parsing.Choices
import AdaptiveLL.Proofs.Prediction.Agreement

/-!
# When a parse needs its call stack

A parse that comes to a decision predicts along the table of the decision first. Where that settles
the decision without a conflict, following the same symbols under the calls of the parse would leave
nothing, or the same alternative alone.
-/

namespace AdaptiveLL

namespace Parser

variable {net : Network} {top : Nat} {start stop : StateId} {w w' : Walk} {s s' : TokenStream}

/-- **Where a parse is:** either it has not matched the end of the input, or only the end of the rule
that is parsed is left. -/
def Along (net : Network) (start stop : StateId) (w : Walk) : Prop :=
  net.Comes (start, []) w.stand ∨ w.follows = [] ∧
    (w.state = stop ∨ net.isStop w.state = false ∧ (net.state w.state).transitions = [.epsilon stop])

private theorem Moves.along (hnet : net.Sealed top start stop) (h : Moves net w s w' s')
    (hw : Along net start stop w) : Along net start stop w' := by
  rcases hw with hcomes | ⟨hnil, hend⟩
  · cases h with
    | hop hhop => exact .inl (hcomes.hop hhop)
    | eat hq ht hacc hstand =>
      by_cases heof : s.lookAhead 1 = Symbol.eof
      · -- Behind the end of the input there is only the end of the outermost rule.
        rw [heof] at hacc
        obtain ⟨hrule, hstop, hways⟩ := hnet.closed.eof _ _ ht
          ((Transition.accepts_eof le_rfl (show 0 ≤ Symbol.firstToken by decide)).trans hacc)
        have hlinked := Network.Linked.eat hnet.orderly (hnet.linked hcomes) hq ht hacc
        have hfollows : w'.follows = [] :=
          (congrArg Prod.snd hstand).trans (hlinked.eq_nil hnet.closed hrule)
        have hstate : w'.state = _ := congrArg Prod.fst hstand
        exact .inr ⟨hfollows, .inr (by rw [hstate]; exact ⟨hstop, hways⟩)⟩
      · refine .inl ?_
        rw [hstand]
        exact hcomes.eat (by rwa [Network.inner_of_not_isStop hq]) hacc heof
  · rcases hend with hstate | ⟨hq, hways⟩
    · have hstop : net.isStop w.state = true := by rw [hstate]; exact hnet.closed.isStop
      cases h with
      | hop hhop =>
        rcases hhop.along_or_back with ⟨hfalse, -⟩ | ⟨-, hback⟩
        · rw [show net.isStop w.state = false from hfalse] at hstop
          cases hstop
        · rw [show w.stand.2 = [] from hnil] at hback
          cases hback
      | eat hq =>
        rw [hq] at hstop
        cases hstop
    · cases h with
      | hop hhop =>
        rcases hhop.along_or_back with ⟨-, t, ht, hon⟩ | ⟨hback, -⟩
        · rw [show w.stand.1 = w.state from rfl, hways, List.mem_singleton] at ht
          subst ht
          have hstand := (Option.some.inj hon).symm
          exact .inr ⟨(congrArg Prod.snd hstand).trans hnil, .inl (congrArg Prod.fst hstand)⟩
        · rw [show net.isStop w.state = true from hback] at hq
          cases hq
      | eat _ ht hacc =>
        rw [hways, List.mem_singleton] at ht
        subst ht
        cases hacc

/-- The calls of a parse are matched, and it is on its way. -/
theorem Visits.along (hnet : net.Sealed top start stop)
    (hstart : net.ruleStarts[top]? = some start) (h : Visits net top w) :
    w.Matched net ∧ Along net start stop w := by
  induction h with
  | begin setup index =>
    refine ⟨begin_matched setup index, .inl ?_⟩
    have hstand : (Parser.begin setup net top index).stand = (start, []) := by
      refine Prod.ext ?_ rfl
      change net.ruleStarts[top]?.getD 0 = start
      rw [hstart]
      rfl
    rw [hstand]
    exact .refl _
  | step _ hstep ih =>
    obtain ⟨hmatched, hmove⟩ := step_moves hnet.orderly ih.1 hstep
    exact ⟨hmatched, hmove.along hnet ih.2⟩

/-- **At the beginning of a decision** the threads of the table are a guide to those under the calls
of the parse. -/
private theorem guides_opening (hnet : net.Sealed top start stop)
    (hw : Along net start stop w) (hstop : net.isStop w.state = false)
    (hways : ∀ t ∈ (net.state w.state).transitions, ∃ p, t = .epsilon p) :
    net.Guides start (net.openingOf w.state false []) (net.openingOf w.state true w.follows) := by
  rcases hw with hcomes | ⟨-, hstate | ⟨-, hone⟩⟩
  · exact .inl (Network.covers_opening hnet hcomes hstop hways)
  · rw [hstate, hnet.closed.isStop] at hstop
    cases hstop
  · have halt : ∀ {full σ}, ∀ t ∈ net.openingOf w.state full σ, t.1.1 = 1 := by
      intro full σ t ht
      obtain ⟨⟨c, ⟨i, tr, htr, heq⟩, -⟩, -⟩ := trim_subset _ _ ht
      rw [hone] at htr
      obtain ⟨hi, -⟩ := List.getElem?_eq_some_iff.mp htr
      obtain rfl : i = 0 := by simpa using hi
      exact congrArg Prod.fst (Prod.mk.inj heq).1
    exact .inr ⟨1, halt, halt⟩

end Parser

/-- A grammar that is closed by a rule has a network that is sealed by it. -/
theorem Grammar.Built.isSealed {g : Grammar} {net : Network} {modeStarts : List StateId} {d : Draft}
    (h : g.Built net modeStarts d) (hparser : g.kind = .parser) (hno : net.NoReentry) {top : Nat}
    {r : Rule} {es : List Element} (hr : g.rules[top]? = some r) (hclosed : g.ClosedBy r es) :
    net.Sealed top (g.startState top) (g.stopState top) where
  orderly := h.orderly hparser
  closed := h.closed hparser hr hclosed
  parser := by
    rw [h.network_eq, Network.isLexer]
    simp [Grammar.network, hparser]
  start_rule := h.rule_start (List.getElem?_eq_some_iff.mp hr).1
  fine _ hcomes := h.fine_of_comes hno hr hclosed.body_eq hcomes

/-- **The table never overrules the call stack.** In the network of a parser grammar without
conditions and without re-entry, closed by the rule that is parsed, let a parse have come to a
decision. If a prediction along the table settles the decision for an alternative after some
symbols, without a conflict, then the same symbols, followed from the beginning under the calls of
the parse, leave nothing, or configurations for that alternative alone, as long as no ceiling is
met. -/
theorem Parser.table_agrees {g : Grammar} {net : Network} (hcompile : g.compile = .ok net)
    (hparser : g.kind = .parser) (hplain : g.Unconditional) (hno : net.NoReentry)
    (hword : net.states.size ≤ emptyReturn) {top : Nat} {r : Rule} {es : List Element}
    (hr : g.rules[top]? = some r) (hclosed : g.ClosedBy r es) {w : Walk}
    (hvisits : Visits net top w) {decision : Nat}
    (hd : (net.state w.state).decision = some decision) (settings : PredictionSettings)
    (host : Oracle) (stream : TokenStream) {s : Session}
    (hused : s.cache.Used net fun _ _ => True) :
    ∃ enough, ∀ fuel, enough ≤ fuel → ∀ n a s',
      (s.request settings host fuel stream decision w.callers.reverse).Settles s n a s' →
        ((s.request settings host fuel stream decision w.callers.reverse).withCallers
          (stream.next n)).Yields { graph := s'.cache.graph, past := s'.callbacks } fun res _ =>
            ∀ configs, res = .ok (some configs) → ∀ c ∈ configs.toList, c.alt = a := by
  obtain ⟨modeStarts, d, hbuilt⟩ := Grammar.exists_built hcompile
  have hlt := (List.getElem?_eq_some_iff.mp hr).1
  have hnet := hbuilt.isSealed hparser hno hr hclosed
  have hquiet := hbuilt.quiet hparser hplain hno hword
  obtain ⟨hinner, hways⟩ := hbuilt.of_decision hparser (q := w.state) (by rw [hd]; nofun)
  obtain ⟨hmatched, halong⟩ := hvisits.along hnet (hbuilt.start_iff.mpr ⟨hlt, rfl⟩)
  have hentry := hquiet.consistent.decision_state _ _ hd
  obtain ⟨nodes, hc⟩ := hused.faithful hquiet
  refine ⟨net.enough emptyReturn nodes settings w.state, fun fuel hfuel n a s' hsettles => ?_⟩
  have hU := hquiet.under le_rfl (hc settings.mode) hentry host hfuel stream w.callers.reverse
  have hnet_eq : s.cache.net = net := (hc settings.mode).net_eq
  have hstart : (net.regime settings.mode nodes).start decision = net.openingOf w.state false [] := by
    simp [Network.regime, hentry]
  have hguides := guides_opening hnet halong hinner hways
  rw [← hmatched.followsOf_eq, ← hstart] at hguides
  have hguardless : Guardless ((net.regime settings.mode nodes).start decision) := by
    rw [hstart]
    exact Network.openingOf_guardless
  obtain ⟨hc', halts⟩ := Request.Settles.agrees hU (hnet_eq.symm ▸ hnet) hguardless
    (hnet_eq.symm ▸ hguides) (hc settings.mode) hsettles
  have hunguarded : s.cache.net.Unguarded := hnet_eq.symm ▸ hquiet.unguarded
  refine (Request.withCallers_ends hU (fun _ => .inr hunguarded) hc' (stream.next n)
    s'.callbacks).mono fun res tr hres configs hok => ?_
  obtain ⟨hstage, hsound⟩ := hres configs hok
  intro c hmem
  obtain ⟨σ, hσ⟩ := hstage.tidy.exists_stack hsound hmem
  have hthread := ConfigSet.mem_threads_of_mem hmem hσ
  rw [hstage.threads_eq] at hthread
  exact halts _ hthread

/-- Behind an opening parenthesis the table settles for another pair, and so does the call stack. -/
theorem Parser.nested_table_agrees : ∃ w, Visits Grammar.nestedNet 0 w ∧ w.state = 16 ∧
    ∃ enough, ∀ fuel, enough ≤ fuel →
      let s : Session := .new (.new Grammar.nestedNet)
      let r := s.request {} .permissive fuel (.ofTypes [1, 2]) 0 w.callers.reverse
      ∃ s', r.Settles s 1 1 s' ∧
        (r.withCallers [1]).Yields { graph := s'.cache.graph, past := s'.callbacks } fun res _ =>
          ∀ configs, res = .ok (some configs) → ∀ c ∈ configs.toList, c.alt = 1 := by
  obtain ⟨w, hvisits, hstate, -, hcallers⟩ := visits_pairs
  have hnew : (Session.new (.new Grammar.nestedNet)).cache = .new Grammar.nestedNet := rfl
  have hdecision : (Grammar.nestedNet.state w.state).decision = some 0 := by
    rw [hstate]
    decide +kernel
  obtain ⟨enough, hagrees⟩ := table_agrees Grammar.compile_nested rfl Grammar.nested_unconditional
    Grammar.nested_noReentry (by decide +kernel) (show Grammar.nested.rules[0]? = some _ from rfl)
    Grammar.nested_closedBy hvisits hdecision {} .permissive
    (.ofTypes [1, 2]) (s := .new (.new Grammar.nestedNet)) (hnew ▸ .new _ _)
  obtain ⟨s', hsettles⟩ := Request.settles_of_settlesAtOnce (a := 1)
    (r := (Session.new (.new Grammar.nestedNet)).request {} .permissive 100 (.ofTypes [1, 2]) 0
      w.callers.reverse) (s := .new (.new Grammar.nestedNet)) (by rw [hcallers]; decide +kernel)
  refine ⟨w, hvisits, hstate, max 100 enough, fun fuel hfuel => ?_⟩
  have hmore := hsettles.fueled (le_of_max_le_left hfuel)
  rw [Request.request_fueled] at hmore
  exact ⟨s', hmore, hagrees fuel (le_of_max_le_right hfuel) 1 1 s' hmore⟩

end AdaptiveLL
