import AdaptiveLL.Proofs.Prediction.Verdict
import AdaptiveLL.Proofs.Prediction.Viable
import AdaptiveLL.Proofs.Token.Ahead

/-!
# The least viable alternative

What a prediction does, as `Request.Told` tells it, without guards and for input that some
alternative is viable for: it predicts the least of these. Along the table it can only err on the
side of caution, since a thread without a call stack shadows every caller; it answers there only if
one alternative is left, and turns to the call stack otherwise.
-/

namespace AdaptiveLL

namespace Request

variable {r : Request} {top : Nat} {stop : StateId} {P : Nat → Prop} {T F : Set Thread} {a : Nat}
  {w : List Symbol} {d : Deed} {asked : List Callback}

/-- What is assumed of the network of a request. -/
structure Plain (r : Request) (top : Nat) (stop : StateId) : Prop where
  orderly : r.net.Orderly
  closed : r.net.Closed top stop
  parser : r.net.isLexer = false

/-- A kept alternative is left after a symbol. -/
private theorem exists_alt_reach {full : Bool} (hnet : r.Plain top stop) {stream : TokenStream}
    (hahead : stream.Ahead w) (hkept : r.net.Awaits top stop full T a (w ++ [Symbol.eof])) :
    ∃ t ∈ r.net.reachOf full (stream.lookAhead 1) T, t.1.1 = a := by
  cases hahead with
  | done heof =>
    rw [heof]
    obtain ⟨t, ht, halt, _⟩ := hkept.reach_eof hnet.orderly hnet.closed hnet.parser
    exact ⟨t, ht, halt⟩
  | more hv _ =>
    rcases hkept.reach hnet.orderly hnet.parser hv (by simp) with hone | hnext
    · obtain ⟨t, ht⟩ := hone.1
      exact ⟨t, ht, hone.2 t ht⟩
    · exact hnext.keeps.exists_alt

/-- **With the call stack the least viable alternative is predicted.** -/
theorem FullTold.result_eq (hnet : r.Plain top stop) (hleast : ∀ b, P b → a ≤ b)
    {stream : TokenStream} (htold : r.FullTold T stream d) (hahead : stream.Ahead w)
    (hT : Proper T) (hkept : r.net.Awaits top stop true T a (w ++ [Symbol.eof]))
    (hhonest : r.net.Honest top stop P T (w ++ [Symbol.eof])) : d.result = .ok a := by
  induction htold generalizing w with
  | dead _ _ hempty _ =>
    obtain ⟨t, ht, _⟩ := exists_alt_reach hnet hahead hkept
    rw [hempty] at ht
    cases ht
  | @stop T stream s g alt hg hs _ hverdict =>
    refine congrArg Except.ok ?_
    have hT' : Proper (r.net.reachOf true (stream.lookAhead 1) T) := hT.reachOf true _
    cases hahead with
    | done heof =>
      rw [heof] at hs hT'
      obtain ⟨t, ht, halt, hstand⟩ := hkept.reach_eof hnet.orderly hnet.closed hnet.parser
      have hends := hhonest.reach_eof hnet.orderly hnet.closed hnet.parser hkept
      exact eq_of_fullVerdict hg hs hT' (C := fun _ => True) ⟨t, ht, halt, trivial⟩
        (fun u hu _ => hleast _ (hends u hu).2) hverdict
    | more hv _ =>
      rcases hkept.reach_honest hnet.orderly hnet.closed hnet.parser hv hhonest (by simp) with
        hone | ⟨⟨t, ht, halt, c, hshadow, _, hcons⟩, hnext⟩
      · obtain ⟨t, ht⟩ := hone.1
        exact eq_of_fullVerdict hg hs hT' (C := fun _ => True) ⟨t, ht, hone.2 t ht, trivial⟩
          (fun u hu _ => (hone.2 u hu).ge) hverdict
      · rw [← hshadow.eq] at hcons
        exact eq_of_fullVerdict hg hs hT' (C := fun c => r.net.Reads c _ (stop, []))
          ⟨t, ht, halt, hcons.reads⟩ (fun u hu hreads => hleast _ (hnext.tells u hu hreads)) hverdict
  | @next T stream s g d hg hs hne hverdict _ ih =>
    have hT' : Proper (r.net.reachOf true (stream.lookAhead 1) T) := hT.reachOf true _
    cases hahead with
    | done heof =>
      rw [heof] at hs hT' hne
      have hends := hhonest.reach_eof hnet.orderly hnet.closed hnet.parser hkept
      exact absurd hverdict (fullVerdict_ne_none hg hs hT' hne fun t ht => (hends t ht).1)
    | more hv hahead =>
      rcases hkept.reach_honest hnet.orderly hnet.closed hnet.parser hv hhonest (by simp) with
        hone | ⟨hnext, hhonest'⟩
      · exact absurd ⟨a, hone⟩ (not_speaks_of_fullVerdict hg hs hT' hverdict)
      · exact ih hahead hT' hnext hhonest'

/-- **The least viable alternative is predicted.** -/
theorem Told.result_eq (hnet : r.Plain top stop) (hmode : r.settings.mode ≠ .sll)
    (hleast : ∀ b, P b → a ≤ b) {stream : TokenStream} (htold : r.Told F asked T stream d)
    (hahead : stream.Ahead w) (hT : Guardless T)
    (hkept : r.net.Awaits top stop false T a (w ++ [Symbol.eof]))
    {w₀ : List Symbol} (hahead₀ : r.stream.Ahead w₀) (hF : Proper F)
    (hkept₀ : r.net.Awaits top stop true F a (w₀ ++ [Symbol.eof]))
    (hhonest₀ : r.net.Honest top stop P F (w₀ ++ [Symbol.eof])) : d.result = .ok a := by
  have hcontext : ∀ {row : Row}, ¬r.TurnsAt row → row.needsContext = false := fun hturns =>
    Bool.eq_false_of_not_eq_true fun h => hturns ⟨h, hmode⟩
  have hspeaks : ∀ {T : Set Thread} {stream : TokenStream} {w : List Symbol} {b : Nat},
      r.net.Awaits top stop false T a (w ++ [Symbol.eof]) → stream.Ahead w →
      Speaks (r.net.reachOf false (stream.lookAhead 1) T) b → b = a := by
    intro T stream w b hkept hahead hb
    obtain ⟨t, ht, halt⟩ := exists_alt_reach hnet hahead hkept
    exact (hb.2 t ht).symm.trans halt
  induction htold generalizing w with
  | dead _ _ hempty _ =>
    obtain ⟨t, ht, _⟩ := exists_alt_reach hnet hahead hkept
    rw [hempty] at ht
    cases ht
  | @answer T stream row g hmet hturns haccepting =>
    have hT' : Guardless (r.net.reachOf false (stream.lookAhead 1) T) := hT.reachOf false _
    have hone := hmet.holds.speaks hmet.sound hT' hmet.found haccepting (hcontext hturns)
    unfold answerDeed
    rw [hmet.holds.choices_eq hmet.sound hT']
    exact congrArg Except.ok (hspeaks hkept hahead hone)
  | @guarded T stream row g alt hmet _ hsettled =>
    have hT' : Guardless (r.net.reachOf false (stream.lookAhead 1) T) := hT.reachOf false _
    unfold settledBy at hsettled
    rw [hmet.holds.choices_eq hmet.sound hT'] at hsettled
    cases hsettled
  | full _ _ _ hfull =>
    have hresult := hfull.result_eq hnet hleast hahead₀ hF hkept₀ hhonest₀
    exact hresult
  | @next T stream row g d hmet hturns haccepting _ ih =>
    have hT' : Guardless (r.net.reachOf false (stream.lookAhead 1) T) := hT.reachOf false _
    obtain ⟨hone, hcloses⟩ := (hmet.found.fresh_iff hmet.holds.proper).mp
      (hmet.holds.accepting_iff.mp haccepting)
    cases hahead with
    | done heof =>
      rw [heof] at hcloses
      exact absurd (.inl fun t ht => Network.isStop_of_mem_reachOf_eof ht) hcloses
    | more hv hahead =>
      rcases hkept.reach hnet.orderly hnet.parser hv (by simp) with hall | hnext
      · exact absurd ⟨a, hall⟩ hone
      · exact ih hahead hT' hnext

end Request

end AdaptiveLL
