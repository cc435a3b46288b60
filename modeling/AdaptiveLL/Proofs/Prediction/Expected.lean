import AdaptiveLL.Proofs.Grammar.Progress
import AdaptiveLL.Proofs.Prediction.Least
import AdaptiveLL.Proofs.Prediction.Used

/-!
# Expected symbols

A prediction does not fail at the current symbol if the network comes, without consuming anything, to
a place that *admits* the symbol: it is consumed there and hops lead on behind it, or the input and
the outermost rule end together. Threads shadow such a place, with the call stack and without it, so
the symbol leaves some of them; and where a prediction fails later on, it says so.

This needs the outermost rule to be called by no rule. Otherwise the end of it leads on to where it
is called, without the call stack, and nothing is left of what ends there.
-/

namespace AdaptiveLL

namespace Network

variable {net : Network} {top : Nat} {stop entry : StateId} {full : Bool} {T : Set Thread}
  {v : Symbol} {c d s : Stand} {σ ρ : List StateId}

/-- **The stand admits the symbol:** it is consumed there, and unless it is the end of the input hops
lead on behind it; or both the input and the outermost rule end. -/
inductive Admits (net : Network) (stop : StateId) (v : Symbol) (c : Stand) : Prop where
  | consumes {t : Transition} : net.isStop c.1 = false → t ∈ (net.state c.1).transitions →
      t.accepts v net.firstSymbol net.lastSymbol = true →
      (v ≠ Symbol.eof → net.Live (t.target, c.2)) → Admits net stop v c
  | ends : c = (stop, []) → v = Symbol.eof → Admits net stop v c

/-! ## Shadows of what rests -/

/-- What rests under the call stack has shadows that rest. -/
private theorem Rests.shadow (hclosed : net.Closed top stop) (hlinked : net.Linked top d.1 d.2)
    (hrests : net.Rests true d) (hs : Shadows full s d) : net.Rests full s := by
  obtain ⟨hstate, ρ, hstack, -⟩ := hs
  unfold Rests at hrests ⊢
  rw [hstate]
  split at hrests
  · next hstop =>
    -- The end of the outermost rule leads nowhere.
    obtain ⟨hnil, -⟩ := hrests
    obtain ⟨hs, -⟩ := List.append_eq_nil_iff.mp (hstack.symm.trans hnil)
    have hd : d.1 = stop := by
      rw [hnil] at hlinked
      cases hlinked with
      | base htop => exact hclosed.only d.1 hstop htop
    rw [if_pos hstop]
    exact ⟨hs, .inr (by simp [State.onlyEpsilon, hd, hclosed.ends])⟩
  · next hstop =>
    rw [if_neg hstop]
    exact hrests

/-- What admits a symbol rests. -/
private theorem Admits.rests (hclosed : net.Closed top stop) (h : net.Admits stop v c) :
    net.Rests true c := by
  unfold Rests
  cases h with
  | consumes hstop ht hacc =>
    rw [hstop]
    exact onlyEpsilon_of_accepts ht hacc
  | ends hc =>
    rw [hc, if_pos hclosed.isStop]
    exact ⟨rfl, .inl rfl⟩

theorem trim_nonempty (h : T.Nonempty) : (trim (!full) T).Nonempty := by
  obtain ⟨t, ht⟩ := h
  have hself : Shadows full t.2 t.2 := ⟨rfl, [], by simp, fun _ => rfl⟩
  obtain ⟨u, hu, -⟩ := exists_shadow ht hself
  exact ⟨u, hu⟩

/-- **A closure keeps shadows** of what hops lead to and rests. -/
private theorem exists_closed (hnet : net.Orderly) (hclosed : net.Closed top stop) {t : Thread}
    (ht : t ∈ T) (hs : Shadows full t.2 c) (hlinked : net.Linked top c.1 c.2)
    (hrun : Relation.ReflTransGen (net.Hop true false) c d) (hrests : net.Rests true d) :
    ∃ u ∈ trim (!full) (net.closureOf { full } T), Shadows full u.2 d := by
  obtain ⟨s, hs', hrun'⟩ := hs.hops hnet hlinked hrun
  have hmem : (t.1, s) ∈ net.closureOf { full } T :=
    ⟨⟨t.2, ht, hrun'⟩, hrests.shadow hclosed (hlinked.hops hnet hrun) hs'⟩
  obtain ⟨u, hu, -, hu'⟩ := exists_shadow hmem hs'
  exact ⟨u, hu, hu'⟩

/-- **A decision begins with a shadow** of what admits a symbol after it. -/
theorem Admits.opening (hnet : net.Orderly) (hclosed : net.Closed top stop)
    (hlinked : net.Linked top entry ρ) (hstop : net.isStop entry = false)
    (hways : ∀ t ∈ (net.state entry).transitions, ∃ p, t = .epsilon p)
    (hσ : σ = ρ ∨ full = false ∧ σ = [])
    (hrun : Relation.ReflTransGen (net.Hop true false) (entry, ρ) c) (h : net.Admits stop v c) :
    ∃ t ∈ net.openingOf entry full σ, Shadows full t.2 c := by
  rcases Relation.ReflTransGen.cases_head hrun with rfl | ⟨d, hhop, hrest⟩
  · -- Nothing is consumed at the decision itself.
    cases h with
    | consumes _ ht hacc =>
      obtain ⟨p, rfl⟩ := hways _ ht
      cases hacc
    | ends hc =>
      rw [(Prod.mk.inj hc).1, hclosed.isStop] at hstop
      cases hstop
  · rcases hhop.along_or_back with ⟨-, t, ht, hon⟩ | ⟨hback, -⟩
    · obtain ⟨p, rfl⟩ := hways t ht
      obtain rfl := Option.some.inj hon
      obtain ⟨i, hi⟩ := List.getElem?_of_mem ht
      have hshadow : Shadows full (p, σ) (p, ρ) := by
        rcases hσ with rfl | ⟨rfl, rfl⟩
        · exact ⟨rfl, [], by simp, fun _ => rfl⟩
        · exact ⟨rfl, ρ, rfl, nofun⟩
      exact exists_closed hnet hclosed (t := ((i + 1, .always), p, σ)) ⟨i, _, hi, rfl⟩ hshadow
        (hlinked.hop hnet hhop) hrest (h.rests hclosed)
    · exact absurd (hstop.symm.trans hback) Bool.false_ne_true

/-! ## One symbol -/

private theorem reachOf_nonempty_of_waiting (h : (net.waitingOf full v T).Nonempty) :
    (net.reachOf full v T).Nonempty := by
  unfold reachOf
  dsimp only
  split
  · next hstopped => exact hstopped.2.mono fun t ht => ht.1
  · exact trim_nonempty (h.mono Set.subset_union_right)

/-- Before the end of the input something is left of threads that move on and get somewhere. -/
private theorem reachOf_nonempty_of_moved (heof : v ≠ Symbol.eof)
    (hmoved : (net.movedOn v T).Nonempty)
    (hclosure : (trim (!full) (net.closureOf { full } (trim (!full) (net.movedOn v T)))).Nonempty) :
    (net.reachOf full v T).Nonempty := by
  rcases reachOf_cases net full T heof with ⟨b, -, heq⟩ | ⟨next, hnext, heq⟩
  · rw [heq]
    exact trim_nonempty hmoved
  · rw [← hnext] at hclosure
    rcases heq with heq | heq
    · rwa [heq]
    · rw [heq]
      exact trim_nonempty (hclosure.mono Set.subset_union_left)

/-- A vocabulary may begin earlier. -/
private theorem accepts_of_firstSymbol (hparser : net.isLexer = false) {t : Transition}
    (h : t.accepts v net.firstSymbol net.lastSymbol = true) :
    t.accepts v 0 net.maxTokenType = true := by
  have hlast : net.lastSymbol = net.maxTokenType := by simp [lastSymbol, hparser]
  have hfirst := net.firstSymbol_nonneg
  rw [hlast] at h
  cases t with
  | notSet =>
    simp only [Transition.accepts, Bool.and_eq_true, decide_eq_true_eq] at h ⊢
    exact ⟨⟨hfirst.trans h.1.1, h.1.2⟩, h.2⟩
  | wildcard =>
    simp only [Transition.accepts, Bool.and_eq_true, decide_eq_true_eq] at h ⊢
    exact ⟨hfirst.trans h.1, h.2⟩
  | _ => exact h

/-- **A symbol leaves something** of threads one of which shadows a stand that admits it. -/
theorem Admits.reachOf_nonempty (hnet : net.Orderly) (hclosed : net.Closed top stop)
    (hparser : net.isLexer = false) (h : net.Admits stop v c) (hlinked : net.Linked top c.1 c.2)
    {t : Thread} (ht : t ∈ T) (hs : Shadows full t.2 c) : (net.reachOf full v T).Nonempty := by
  obtain ⟨tag, p, τ⟩ := t
  obtain ⟨q, ρ⟩ := c
  obtain ⟨hp, ρ', hρ, hfull⟩ := id hs
  obtain rfl : p = q := hp
  -- The symbol is admitted at the end of the outermost rule, or consumed by a transition.
  cases h with
  | ends hc hv =>
    obtain ⟨rfl, rfl⟩ := Prod.mk.inj hc
    have hend : net.isStop p = true := hclosed.isStop
    exact reachOf_nonempty_of_waiting ⟨_, ⟨ht, hend⟩, .inr hv⟩
  | @consumes tr hstop htr hacc hlive =>
    have hmoves : (tag, tr.target, τ) ∈ net.movedOn v T :=
      ⟨p, tr, ht, hstop, htr, accepts_of_firstSymbol hparser hacc, rfl⟩
    have hlinked' := hlinked.eat hnet hstop htr hacc
    by_cases hv : v = Symbol.eof
    · -- The end of the input is matched only before the end of the outermost rule.
      subst hv
      obtain ⟨hrule, hinner, hways⟩ := hclosed.eof p tr htr
        ((Transition.accepts_eof net.firstSymbol_nonneg le_rfl).symm.trans hacc)
      have hnil : ρ = [] := hlinked'.eq_nil hclosed hrule
      have hreads : net.Reads (tr.target, ρ) [] (stop, []) := by
        rw [hnil]
        refine .hop (.along (t := .epsilon stop) (fun hs => ?_)
          (by rw [hways]; exact List.mem_singleton.mpr rfl) rfl) (.refl _)
        exact absurd (hinner.symm.trans hs) Bool.false_ne_true
      have hawaits : net.Awaits top stop full T tag.1 [Symbol.eof] :=
        ⟨_, ht, rfl, (p, ρ), hs, hlinked, _, _, tr, rfl, hstop, htr, hacc, hreads⟩
      obtain ⟨u, hu, -⟩ := hawaits.reach_eof hnet hclosed hparser
      exact ⟨u, hu⟩
    -- After any other symbol the threads are closed up to a state that waits for the next.
    · obtain ⟨d, hrun, hrests⟩ := hlive hv
      have hshadow : Shadows full (tr.target, τ) (tr.target, ρ) := ⟨rfl, ρ', hρ, hfull⟩
      obtain ⟨u, hu, -, hu'⟩ := exists_shadow hmoves hshadow
      obtain ⟨w, hw, -⟩ := exists_closed hnet hclosed hu hu' hlinked' hrun hrests
      exact reachOf_nonempty_of_moved hv ⟨_, hmoves⟩ ⟨w, hw⟩

end Network

/-! ## Predictions that fail later -/

namespace Request

variable {r : Request} {T F : Set Thread} {asked : List Callback} {stream : TokenStream} {d : Deed}

/-- **The prediction does not fail at its first symbol.** -/
def FailsLater (r : Request) (d : Deed) : Prop :=
  ∀ e, d.result = .error e → ∃ i s, r.start < i ∧ e = r.noViable i s

private theorem Ended.failsLater {s : ConfigSet} (h : r.Ended s stream d)
    (hrecover : r.settings.recoverAtRuleEnd = false) (hlt : r.start < stream.index) :
    r.FailsLater d := by
  intro e he
  rw [h hrecover] at he
  exact ⟨_, s, hlt, (Except.error.inj he).symm⟩

private theorem FullTold.failsLater (hrecover : r.settings.recoverAtRuleEnd = false)
    (h : r.FullTold T stream d) (hclosed : stream.Closed) (hlt : r.start < stream.index) :
    r.FailsLater d := by
  induction h with
  | dead _ _ _ hend => exact hend.failsLater hrecover hlt
  | stop => exact nofun
  | next _ _ _ _ _ ih => exact ih hclosed.consume (Nat.lt_of_lt_of_le hlt hclosed.index_le_consume)

private theorem answerDeed_failsLater {row : Row} (hlt : r.start < stream.index) :
    r.FailsLater (r.answerDeed row stream) := by
  intro e he
  unfold answerDeed at he
  split at he
  · cases he
  · split at he
    · cases he
    · exact ⟨_, _, hlt, (Except.error.inj he).symm⟩

private theorem Told.failsLater (hrecover : r.settings.recoverAtRuleEnd = false)
    (hfull : ∀ d, r.FullTold F r.stream d → r.FailsLater d) (h : r.Told F asked T stream d)
    (hclosed : stream.Closed) (hlt : r.start < stream.index) : r.FailsLater d := by
  induction h with
  | dead _ _ _ hend => exact hend.failsLater hrecover hlt
  | answer => exact answerDeed_failsLater hlt
  | guarded => exact nofun
  | full _ _ _ htold => exact fun e he => hfull _ htold e he
  | next _ _ _ _ ih => exact ih hclosed.consume (Nat.lt_of_lt_of_le hlt hclosed.index_le_consume)

/-- **With the call stack** a prediction fails later if the first symbol leaves something, and, at the
end of the input, leaves it in one place. -/
theorem FullTold.failsLater_of_nonempty (hrecover : r.settings.recoverAtRuleEnd = false)
    (hstart : r.start = stream.index) (hclosed : stream.Closed) (hF : Proper F)
    (hne : (r.net.reachOf true (stream.lookAhead 1) F).Nonempty)
    (hone : stream.lookAhead 1 = Symbol.eof →
      ∃ place, ∀ t ∈ r.net.reachOf true (stream.lookAhead 1) F, t.2 = place)
    (h : r.FullTold F stream d) : r.FailsLater d := by
  cases h with
  | dead _ _ hempty => exact absurd hempty hne.ne_empty
  | stop => exact nofun
  | next hg hs hne' hverdict htold =>
    by_cases heof : stream.lookAhead 1 = Symbol.eof
    · obtain ⟨place, hplace⟩ := hone heof
      exact absurd hverdict (fullVerdict_ne_none hg hs (hF.reachOf true _) hne' hplace)
    · exact htold.failsLater hrecover hclosed.consume
        (hstart ▸ hclosed.index_lt_consume heof)

/-- **A prediction fails later** if the first symbol leaves something without the call stack, and a
prediction with it would fail later. -/
theorem Told.failsLater_of_nonempty (hrecover : r.settings.recoverAtRuleEnd = false)
    (hstart : r.start = r.stream.index) (hclosed : r.stream.Closed) (hT : Guardless T)
    (hne : (r.net.reachOf false (r.stream.lookAhead 1) T).Nonempty)
    (hfull : ∀ d, r.FullTold F r.stream d → r.FailsLater d) (h : r.Told F asked T r.stream d) :
    r.FailsLater d := by
  cases h with
  | dead _ _ hempty => exact absurd hempty hne.ne_empty
  | @answer _ _ row g hmet =>
    -- Without guards a row that answers has an answer.
    intro e he
    unfold answerDeed at he
    rw [hmet.holds.choices_eq hmet.sound (hT.reachOf false _)] at he
    cases he
  | guarded => exact nofun
  | full _ _ _ htold => exact fun e he => hfull _ htold e he
  | @next _ _ row g _ hmet hturns haccepting htold =>
    by_cases heof : r.stream.lookAhead 1 = Symbol.eof
    · obtain ⟨-, hcloses⟩ := (hmet.found.fresh_iff hmet.holds.proper).mp
        (hmet.holds.accepting_iff.mp haccepting)
      rw [heof] at hcloses
      exact absurd (.inl fun t ht => Network.isStop_of_mem_reachOf_eof ht) hcloses
    · exact htold.failsLater hrecover hfull hclosed.consume
        (hstart ▸ hclosed.index_lt_consume heof)

end Request

namespace Session

variable {net : Network} {nodes : Nat} {c : Cache} {top : Nat} {stop q : StateId}
  {settings : PredictionSettings}

/-- **A prediction on a faithful cache** does not fail at the current symbol, if the network comes to
a stand that admits it, under the call stack and without consuming anything. -/
theorem predict_failsLater (hnet : net.Quiet) (horderly : net.Orderly)
    (hclosed : net.Closed top stop) (hc : ∀ mode, c.Faithful (net.regime mode nodes))
    {decision : Nat} (hd : net.decisions[decision]? = some q) (hstop : net.isStop q = false)
    (hways : ∀ t ∈ (net.state q).transitions, ∃ p, t = .epsilon p) {callers : List StateId}
    (hlinked : net.Linked top q (net.followsOf callers))
    (hrecover : settings.recoverAtRuleEnd = false) (host : Oracle) {fuel : Nat}
    (hfuel : net.enough emptyReturn nodes settings q ≤ fuel) {stream : TokenStream}
    (hstream : stream.Closed) {d : Stand}
    (hrun : Relation.ReflTransGen (net.Hop true false) (q, net.followsOf callers) d)
    (hadmits : net.Admits stop (stream.lookAhead 1) d) :
    (predict settings host fuel stream decision callers).Does c fun res _ _ _ =>
      Spent res ∨ ∀ e, res = .error e → ∃ i s, stream.index < i ∧
        e = (requestOn c settings host fuel stream decision callers).noViable i s := by
  refine (hnet.predict_does (hc settings.mode) hd host hfuel stream callers).mono ?_
  rintro res reports asked c' ⟨-, hres⟩
  rcases hres with hspent | ⟨reports', asked', htold⟩
  · exact .inl hspent
  right
  have hnet_eq : (requestOn c settings host fuel stream decision callers).net = net :=
    (hc settings.mode).net_eq
  -- Both ways to begin leave something, without a call stack and with the one at hand.
  have hsome : ∀ full σ, σ = net.followsOf callers ∨ full = false ∧ σ = [] →
      (net.reachOf full (stream.lookAhead 1) (net.openingOf q full σ)).Nonempty := by
    intro full σ hσ
    obtain ⟨t, ht, hshadow⟩ := hadmits.opening horderly hclosed hlinked hstop hways hσ hrun
    exact hadmits.reachOf_nonempty horderly hclosed hnet.parser (hlinked.hops horderly hrun) ht
      hshadow
  have hends : ∀ t ∈ net.reachOf true Symbol.eof (net.openingOf q true (net.followsOf callers)),
      t.2 = (stop, []) :=
    (Network.honest_opening (w := []) horderly hclosed hstop (fun t ht => by
      obtain ⟨p, rfl⟩ := hways t ht
      rfl) hlinked).ended_reach_eof horderly hclosed
  have hfull : ∀ d, (requestOn c settings host fuel stream decision callers).FullTold
      (net.openingOf q true (net.followsOf callers)) stream d →
        (requestOn c settings host fuel stream decision callers).FailsLater d := by
    intro d htold
    refine htold.failsLater_of_nonempty hrecover rfl hstream Network.openingOf_proper ?_
      fun heof => ⟨(stop, []), ?_⟩
    · rw [hnet_eq]
      exact hsome true _ (.inl rfl)
    · rw [hnet_eq, heof]
      exact hends
  have hlater := htold.failsLater_of_nonempty hrecover rfl hstream Network.openingOf_guardless
    (by rw [hnet_eq]; exact hsome false [] (.inr ⟨rfl, rfl⟩)) hfull
  exact hlater

end Session

end AdaptiveLL
