import AdaptiveLL.Proofs.Grammar.Lookahead
import AdaptiveLL.Proofs.Parsing.Agreement
import AdaptiveLL.Proofs.Prediction.Expected

/-!
# What a parse expects

The tokens that a parse says it expects are those that the network admits where the parse stands,
under its calls. So a prediction that is made for such a token does not fail at it, if the rule that
is parsed closes the grammar. It may fail at a later token, as no more is known of those.
-/

namespace AdaptiveLL

namespace Parser

variable {net : Network} {top : Nat} {start stop : StateId} {w : Walk} {c : Stand}

/-- What is consumed where a parse comes to without consuming anything is admitted. -/
private theorem Along.admits (hnet : net.Sealed top start stop) (hw : Along net start stop w)
    (hrun : Relation.ReflTransGen (net.Hop true false) w.stand c) (hq : net.isStop c.1 = false)
    {t : Transition} (ht : t ∈ (net.state c.1).transitions) {v : Symbol}
    (hacc : t.accepts v net.firstSymbol net.lastSymbol = true) : net.Admits stop v c := by
  rcases hw with hcomes | ⟨hnil, hend⟩
  · refine .consumes hq ht hacc fun hv => (hnet.fine _ ?_).live
    exact (hcomes.hops hrun).eat (by rwa [Network.inner_of_not_isStop hq]) hacc hv
  · -- Behind the end of the input nothing is consumed.
    have hlast : ∀ d, Relation.ReflTransGen (net.Hop true false) (stop, []) d → d = (stop, []) := by
      intro d hrun
      rcases Relation.ReflTransGen.cases_head hrun with heq | ⟨e, hhop, -⟩
      · exact heq.symm
      · rcases hhop.along_or_back with ⟨hfalse, -⟩ | ⟨-, hback⟩
        · exact absurd (hfalse.symm.trans hnet.closed.isStop) Bool.false_ne_true
        · cases hback
    have hstand : w.stand = (w.state, []) := Prod.ext rfl hnil
    rw [hstand] at hrun
    have hc : c = (w.state, []) ∧ (net.state w.state).transitions = [.epsilon stop] ∨
        c = (stop, []) := by
      rcases hend with hstate | ⟨hinner, hways⟩
      · exact .inr (hlast c (hstate ▸ hrun))
      · rcases Relation.ReflTransGen.cases_head hrun with heq | ⟨e, hhop, hrest⟩
        · exact .inl ⟨heq.symm, hways⟩
        · rcases hhop.along_or_back with ⟨-, t, ht, hon⟩ | ⟨hback, -⟩
          · rw [hways, List.mem_singleton] at ht
            subst ht
            obtain rfl := Option.some.inj hon
            exact .inr (hlast c hrest)
          · exact absurd (hinner.symm.trans hback) Bool.false_ne_true
    rcases hc with ⟨rfl, hways⟩ | rfl
    · rw [hways, List.mem_singleton] at ht
      subst ht
      cases hacc
    · rw [hnet.closed.isStop] at hq
      cases hq

/-- **Expected tokens are not rejected at once.** In the network of a parser grammar without
conditions and without re-entry, closed by the rule that is parsed, let a parse have come to a
decision. If the current token, or the end of the input, is among the expected tokens under the calls
of the parse, a prediction fails at a later token if it finds no viable alternative at all, whatever
earlier predictions have left in the cache. -/
theorem predict_expected {g : Grammar} {net : Network} (hcompile : g.compile = .ok net)
    (hparser : g.kind = .parser) (hplain : g.Unconditional) (hsets : g.HasCanonicalSets)
    (hmarker : g.Unmarked) (hno : net.NoReentry) (hword : net.states.size ≤ emptyReturn) {top : Nat}
    {r : Rule} {es : List Element} (hr : g.rules[top]? = some r) (hclosed : g.ClosedBy r es)
    {w : Walk} (hvisits : Visits net top w) {decision : Nat}
    (hd : (net.state w.state).decision = some decision) {settings : PredictionSettings}
    (hrecover : settings.recoverAtRuleEnd = false) {stream : TokenStream} (hstream : stream.Closed)
    (hexpected : (net.expectedTokens w.state w.callers.reverse).contains
      (stream.lookAhead 1) = true) {s : Session} (hused : s.cache.Used net fun _ _ => True)
    (host : Oracle) :
    ∃ enough, ∀ fuel, enough ≤ fuel →
      (Session.predict settings host fuel stream decision w.callers.reverse).Yields s fun res _ =>
        ∀ decision' start offending symbol configs,
          res = .error (.noViableAlternative decision' start offending symbol configs) →
            start < offending := by
  obtain ⟨modeStarts, d, hbuilt⟩ := Grammar.exists_built hcompile
  have hlt := (List.getElem?_eq_some_iff.mp hr).1
  have hnet := hbuilt.isSealed hparser hno hr hclosed
  have hquiet := hbuilt.quiet hparser hplain hno hword
  have hstart := hbuilt.start_iff.mpr ⟨hlt, rfl⟩
  obtain ⟨hinner, hways⟩ := hbuilt.of_decision hparser (q := w.state) (by rw [hd]; nofun)
  obtain ⟨hmatched, hlinked⟩ := hvisits.matched_linked hnet.orderly hstart (hbuilt.rule_start hlt)
  obtain ⟨-, halong⟩ := hvisits.along hnet hstart
  -- What is expected is admitted by a stand that the parse comes to without consuming anything.
  obtain ⟨hcallers, hfollows⟩ := hmatched.followOf?_eq
  obtain ⟨c, hrun, hoffers⟩ := (Grammar.expectedTokens_exact hcompile hsets hmarker
    (hno.noReentryBy false) w.state (fun c hc => hcallers c (List.mem_reverse.mp hc)) _).mp hexpected
  rw [hfollows] at hrun
  have hadmits : net.Admits (g.stopState top) (stream.lookAhead 1) c := by
    rcases hoffers with ⟨t, ht, hacc⟩ | ⟨hstop, hnil, heof⟩
    · have hq := (hbuilt.of_match ht (Transition.isEpsilon_of_accepts hacc)).1
      exact halong.admits hnet hrun hq ht hacc
    · have htop := hlinked.hops hnet.orderly hrun
      rw [hnil] at htop
      cases htop with
      | base htop => exact .ends (Prod.ext (hnet.closed.only _ hstop htop) hnil) heof
  obtain ⟨nodes, hc⟩ := hused.faithful hquiet
  rw [← hmatched.followsOf_eq] at hlinked hrun
  refine ⟨net.enough emptyReturn nodes settings w.state, fun fuel hfuel => ?_⟩
  refine (Session.predict_failsLater hquiet hnet.orderly hnet.closed hc
    (hquiet.consistent.decision_state _ _ hd) hinner hways hlinked hrecover host hfuel hstream hrun
    hadmits s rfl).mono ?_
  rintro res s' ⟨_, _, -, -, hres⟩ decision' start offending symbol configs herr
  rcases hres with ⟨e, he⟩ | hlater
  · cases herr.symm.trans he
  · obtain ⟨i, configs', hlt, heq⟩ := hlater _ herr
    cases heq
    exact hlt

end Parser

/-! ## Nested pairs -/

namespace Grammar

/-- There are no sets in the grammar of nested pairs. -/
theorem nested_hasCanonicalSets : nested.HasCanonicalSets := by
  have hparts : ∀ e ∈ nested.parts, ∀ s, e ≠ .set s ∧ e ≠ .notSet s := by
    simp [parts, nested, Element.parts, Element.partsOf]
  intro s hs
  rcases hs with hs | hs
  · exact absurd rfl (hparts _ hs s).1
  · exact absurd rfl (hparts _ hs s).2

theorem nested_unmarked : nested.Unmarked := by
  unfold Unmarked
  decide +kernel

/-- A text may begin with a parenthesis. -/
theorem nested_expects : (nestedNet.expectedTokens 16 [4]).contains 1 = true := by
  have hcalls : ∀ c ∈ [4], (nestedNet.followOf? c).isSome := by decide +kernel
  have hstack : ([4].filterMap nestedNet.followOf?).reverse = [5] := by decide +kernel
  have hrun : nestedNet.Reads (16, [5]) [] (10, [5]) :=
    Network.reads_of_scripted [0, 0] (by decide +kernel)
  rw [expectedTokens_exact compile_nested nested_hasCanonicalSets nested_unmarked
    (nested_noReentry.noReentryBy false) 16 hcalls 1, hstack]
  exact ⟨(10, [5]), hrun.hops, .inl ⟨.atom 11 1, by decide +kernel, by decide +kernel⟩⟩

end Grammar

/-- **One parenthesis is no dead end** at the beginning of a text, though nothing follows it. -/
theorem Parser.nested_predict_expected : ∃ w, Visits Grammar.nestedNet 0 w ∧ w.state = 16 ∧
    (Grammar.nestedNet.expectedTokens w.state w.callers.reverse).contains 1 = true ∧
    ∃ enough, ∀ fuel, enough ≤ fuel →
      (Session.predict {} .permissive fuel (.ofTypes [1]) 0 w.callers.reverse).Yields
        (.new (.new Grammar.nestedNet)) fun res _ =>
          ∀ decision' start offending symbol configs,
            res = .error (.noViableAlternative decision' start offending symbol configs) →
              start < offending := by
  obtain ⟨w, hvisits, hstate, -, hcallers⟩ := visits_pairs
  have hnew : (Session.new (.new Grammar.nestedNet)).cache = .new Grammar.nestedNet := rfl
  have hreverse : w.callers.reverse = [4] := by rw [hcallers, List.reverse_singleton]
  have hexpected :
      (Grammar.nestedNet.expectedTokens w.state w.callers.reverse).contains 1 = true := by
    rw [hstate, hreverse]
    exact Grammar.nested_expects
  have hahead : (TokenStream.ofTypes [1]).lookAhead 1 = 1 := by decide +kernel
  exact ⟨w, hvisits, hstate, hexpected, predict_expected Grammar.compile_nested rfl
    Grammar.nested_unconditional Grammar.nested_hasCanonicalSets Grammar.nested_unmarked
    Grammar.nested_noReentry (by decide +kernel)
    (show Grammar.nested.rules[0]? = some _ from rfl) Grammar.nested_closedBy hvisits
    (by rw [hstate]; decide +kernel) rfl (TokenStream.ofTokens_closed _ _ _)
    (hahead.symm ▸ hexpected) (hnew ▸ .new _ _) _⟩

end AdaptiveLL
