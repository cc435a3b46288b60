import AdaptiveLL.Proofs.Network.Orderly
import AdaptiveLL.Proofs.Parsing.Choices
import AdaptiveLL.Proofs.Prediction.Ending
import AdaptiveLL.Proofs.Prediction.Opening
import AdaptiveLL.Proofs.Prediction.Reach
import AdaptiveLL.Proofs.Prediction.Verdict
import AdaptiveLL.Proofs.Token.Ahead

/-!
# How many symbols are looked at

A prediction looks at every token ahead at most once in either of its loops, and then at the end of
the input. There the loops stop, though nothing more can be consumed: along the table because a row
that the end of the input leads to answers, and with the call stack because all threads that are
left stand at one place, so that a verdict is passed.

The threads of a prediction with exact stacks are in calls of one outermost rule, and none leaves it.
What is left at the end of the input has finished all its rules, so every thread stands at the end
of the outermost one with no call left.
-/

namespace AdaptiveLL

open StackGraph (Sound)

namespace Network

variable {net : Network} {root : Nat} {T T' : Set Thread} {v : Symbol}

/-! ## The outermost rule -/

/-- **The outermost rule** of a stand: that of its last return state, or of its state under no
call. -/
def rootOf (net : Network) (d : Stand) : Nat := (net.state (d.2.getLastD d.1)).rule

theorem rootOf_cons (p r : StateId) (σ : List StateId) :
    net.rootOf (p, r :: σ) = net.rootOf (r, σ) := by
  unfold rootOf
  rw [List.getLastD_cons]

theorem rootOf_congr {p p' : StateId} (h : (net.state p').rule = (net.state p).rule)
    (σ : List StateId) : net.rootOf (p', σ) = net.rootOf (p, σ) := by
  cases σ with
  | nil => exact h
  | cons r σ => rw [rootOf_cons, rootOf_cons]

/-- **Hops stay in the outermost rule.** -/
theorem Orderly.rootOf_hop (hnet : net.Orderly) {atEof : Bool} {c d : Stand}
    (h : net.Hop true atEof c d) : net.rootOf d = net.rootOf c := by
  rcases h.along_or_back with ⟨hq, t, ht, hon⟩ | ⟨_, hback⟩
  · rcases Transition.onward_eq hon with rfl | ⟨rule, follow, level, hrule, rfl⟩
    · refine rootOf_congr (hnet.along _ hq t ht ?_) c.2
      cases t <;> first | rfl | simp [Transition.onward] at hon
    · rw [hrule] at ht
      rw [rootOf_cons]
      exact rootOf_congr (hnet.call _ _ _ _ _ ht).2 c.2
  · obtain ⟨q, σ⟩ := c
    obtain rfl : σ = d.1 :: d.2 := hback
    exact (rootOf_cons q d.1 d.2).symm

theorem Orderly.rootOf_hops (hnet : net.Orderly) {atEof : Bool} {c d : Stand}
    (h : Relation.ReflTransGen (net.Hop true atEof) c d) : net.rootOf d = net.rootOf c := by
  induction h with
  | refl => rfl
  | tail _ hhop ih => exact (hnet.rootOf_hop hhop).trans ih

/-! ## Threads of one root -/

/-- **Threads of the outermost rule `root`,** none of which could return to a caller. -/
structure Rooted (net : Network) (root : Nat) (T : Set Thread) : Prop where
  root_eq : ∀ t ∈ T, net.rootOf t.2 = root
  done : ∀ t ∈ T, net.isStop t.2.1 = true → t.2.2 = []

/-- Closing threads of one root leaves no thread that could return. -/
theorem Rooted.closureOf (hnet : net.Orderly) {m : Manner} (hm : m.full = true)
    (h : ∀ t ∈ T, net.rootOf t.2 = root) : net.Rooted root (net.closureOf m T) where
  root_eq := by
    rintro t ⟨⟨c, hc, hrun⟩, -⟩
    rw [hm] at hrun
    exact (hnet.rootOf_hops hrun).trans (h _ hc)
  done := by
    rintro t ⟨-, hrests⟩ hstop
    unfold Rests at hrests
    rw [if_pos hstop] at hrests
    exact hrests.1

theorem Rooted.movedOn (hnet : net.Orderly) (h : net.Rooted root T) (v : Symbol) :
    ∀ t ∈ net.movedOn v T, net.rootOf t.2 = root := by
  rintro ⟨tag, p, σ⟩ ⟨q, t, hq, hstop, ht, hacc, rfl⟩
  rw [← h.root_eq _ hq]
  exact rootOf_congr (hnet.along q hstop t ht
    (Transition.isRule_of_isEpsilon (Transition.isEpsilon_of_accepts hacc))) σ

/-- **A decision inside a rule begins in the outermost rule of its state.** -/
theorem rootOf_startsOf (hnet : net.Orderly) {entry : StateId} (hstop : net.isStop entry = false)
    (hcalls : ∀ t ∈ (net.state entry).transitions, t.isRule = false) (σ : List StateId) :
    ∀ t ∈ net.startsOf entry σ, net.rootOf t.2 = net.rootOf (entry, σ) := by
  rintro _ ⟨i, t, hi, rfl⟩
  have ht := List.mem_of_getElem? hi
  exact rootOf_congr (hnet.along entry hstop t ht (hcalls t ht)) σ

/-- **Threads that several alternatives are left of stay rooted** when a symbol is read. -/
theorem Leaves.rooted (hnet : net.Orderly) (hT : net.Rooted root T) (hproper : Proper T)
    (h : net.Leaves true v T T') (hseveral : ¬∃ a, Speaks T' a) : net.Rooted root T' := by
  classical
  -- Threads that wait at the end of the input have been there, and those that move on are closed.
  have hwaiting : net.Rooted root (net.waitingOf true v T) :=
    ⟨fun t ht => hT.root_eq t ht.1.1, fun t ht => hT.done t ht.1.1⟩
  have hadvance : net.Rooted root (net.advanceOf true v T) := by
    have hwithin := h.within rfl hproper
    unfold advanceOf at hwithin ⊢
    simp only [Bool.not_true, trim_false] at hwithin ⊢
    by_cases hsettled : net.waitingOf true v T = ∅ ∧ v ≠ Symbol.eof ∧
        ∃ a, Speaks (net.movedOn v T) a
    · -- Of a single alternative nothing else can be left.
      obtain ⟨hnone, heof, a, ha⟩ := hsettled
      rw [if_neg heof, if_pos ⟨hnone, heof, a, ha⟩, hnone, Set.union_empty] at hwithin
      exact absurd ⟨a, h.nonempty, fun t ht => ha.2 t (hwithin ht)⟩ hseveral
    · rw [if_neg hsettled]
      have hclosed := Rooted.closureOf hnet (m := { full := true, atEof := v == Symbol.eof }) rfl
        (hT.movedOn hnet v)
      split
      · exact ⟨fun t ht => hclosed.root_eq t ht.1, fun t ht => hclosed.done t ht.1⟩
      · exact hclosed
  have hall := h.within rfl hproper
  exact ⟨fun t ht => (hall ht).elim (hadvance.root_eq t) (hwaiting.root_eq t),
    fun t ht => (hall ht).elim (hadvance.done t) (hwaiting.done t)⟩

/-- **Rooted threads at the end of their rules** all stand at one place. -/
theorem Rooted.stand_eq (hends : net.EndsOnce) (hT : net.Rooted root T)
    (hstop : ∀ t ∈ T, net.isStop t.2.1 = true) (hne : T.Nonempty) : ∃ d, ∀ t ∈ T, t.2 = d := by
  obtain ⟨t₀, ht₀⟩ := hne
  have hnil : ∀ t ∈ T, t.2 = (t.2.1, []) := fun t ht =>
    Prod.ext rfl (hT.done t ht (hstop t ht))
  have hrule : ∀ t ∈ T, (net.state t.2.1).rule = root := by
    intro t ht
    rw [← hT.root_eq t ht, hnil t ht]
    rfl
  -- Under no call the outermost rule is that of the state, and it has one end.
  refine ⟨t₀.2, fun t ht => ?_⟩
  rw [hnil t ht, hnil t₀ ht₀,
    hends _ _ (hstop t ht) (hstop t₀ ht₀) ((hrule t ht).trans (hrule t₀ ht₀).symm)]

end Network

namespace Request

variable {net : Network} {root : Nat} {T T' : Set Thread} {v : Symbol} {s : ConfigSet}
  {g : StackGraph} {mode : PredictionMode}

/-- **Without a verdict the input goes on,** and the threads that are left stay rooted. -/
theorem rooted_of_fullVerdict (hnet : net.Orderly) (hends : net.EndsOnce) (hg : g.Sound)
    (hT : net.Rooted root T) (hproper : Proper T) (hs : Question.Stage true T' s g)
    (hproper' : Proper T') (hleaves : net.Leaves true v T T')
    (hopen : fullVerdict? mode s = none) : v ≠ Symbol.eof ∧ net.Rooted root T' := by
  have hrooted := hleaves.rooted hnet hT hproper (not_speaks_of_fullVerdict hg hs hproper' hopen)
  refine ⟨fun heof => ?_, hrooted⟩
  obtain ⟨d, hd⟩ := hrooted.stand_eq hends (hleaves.stopped heof) hleaves.nonempty
  exact fullVerdict_ne_none hg hs hproper' hleaves.nonempty hd hopen

end Request

/-! ## Networks of parsers -/

/-- **A network in which decisions are taken inside rules,** and no rule ends twice. -/
structure Network.Ruled (net : Network) : Prop where
  orderly : net.Orderly
  endsOnce : net.EndsOnce
  isStop_eq : ∀ (d : Nat) (entry : StateId), net.decisions[d]? = some entry → net.isStop entry = false
  calls : ∀ (d : Nat) (entry : StateId), net.decisions[d]? = some entry →
    ∀ t ∈ (net.state entry).transitions, t.isRule = false

theorem Grammar.ruled {g : Grammar} {net : Network} (h : g.compile = .ok net)
    (hparser : g.kind = .parser) : net.Ruled := by
  obtain ⟨modeStarts, draft, hbuilt⟩ := exists_built h
  have hdecision : ∀ (d : Nat) (entry : StateId), net.decisions[d]? = some entry →
      net.isStop entry = false ∧ ∀ t ∈ (net.state entry).transitions, ∃ p, t = .epsilon p := by
    intro d entry hd
    refine hbuilt.of_decision hparser ?_
    rw [Network.decision_of_check (check_of_compile h) hd]
    exact Option.some_ne_none d
  refine ⟨hbuilt.orderly hparser, hbuilt.endsOnce, fun d entry hd => (hdecision d entry hd).1,
    fun d entry hd t ht => ?_⟩
  obtain ⟨p, rfl⟩ := (hdecision d entry hd).2 t ht
  rfl

namespace Request

open Prediction (EndAlike)

variable {r : Request} {net : Network} {nodes rounds rounds' : Nat} {c : Cache}

/-! ## With the call stack -/

/-- **What holds before every round with the call stack:** the threads are rooted, and as many
symbols were looked at as tokens were consumed. -/
private structure FullPoint.Steady (r : Request) (p : FullPoint) (c : Cache) : Prop where
  stage : Question.Stage true (p.configs.threads c.graph) p.configs c.graph
  proper : Proper (p.configs.threads c.graph)
  rooted : r.net.Rooted (r.net.rootOf (r.entry, r.net.followsOf r.callers))
    (p.configs.threads c.graph)
  rest : p.stream.AtRest
  count : p.read + p.stream.tokensAhead = r.stream.tokensAhead

/-- A prediction with the call stack begins so. -/
private theorem Opened.steady (hr : r.Ample net nodes) (hnet : r.net.Ruled) {s : ConfigSet}
    (hs : r.Opened s c.graph) (hrest : r.stream.AtRest) :
    FullPoint.Steady r ⟨s, r.stream, 0⟩ c where
  stage := hs.stage
  proper := hs.proper
  rooted := by
    -- The alternatives begin in the rule of the decision, which is then in the outermost one.
    have hclosed := Network.Rooted.closureOf hnet.orderly (m := { full := true }) rfl
      (Network.rootOf_startsOf hnet.orderly (hnet.isStop_eq _ _ hr.entry_eq)
        (hnet.calls _ _ hr.entry_eq) (r.net.followsOf r.callers))
    exact ⟨fun t ht => hclosed.root_eq t (hs.within ht), fun t ht => hclosed.done t (hs.within ht)⟩
  rest := hrest
  count := Nat.zero_add _

/-- **A round with the call stack that is followed by another one** has consumed a token. -/
private theorem FullPoint.Follows.steady (hnet : r.net.Ruled) {p p' : FullPoint}
    {c₀ : Cache} (hc : c.graph.Sound) (hp : FullPoint.Steady r p c₀)
    (h : FullPoint.Follows r p c₀.graph p' c.graph) :
    FullPoint.Steady r p' c ∧ p'.stream.tokensAhead < p.stream.tokensAhead := by
  obtain ⟨T, hs, hleaves⟩ := h.leaves
  have hproper := hleaves.proper hp.proper
  -- At the end of the input a verdict would have been passed, so the symbol was a token.
  obtain ⟨hgoing, hrooted⟩ := rooted_of_fullVerdict hnet.orderly hnet.endsOnce hc hp.rooted
    hp.proper hs hproper hleaves h.open_eq
  have hless := hp.rest.tokensAhead_consume hgoing
  obtain rfl : p'.configs.threads c.graph = T := hs.threads_eq
  rw [← h.stream_eq] at hless
  have hcount := hp.count
  have hread := h.read_eq
  exact ⟨⟨hs, hproper, hrooted, h.stream_eq ▸ hp.rest.consume, by omega⟩, by omega⟩

/-- **Predictions with the call stack end alike** with any number of rounds that exceeds the number
of tokens ahead. -/
private theorem predictFullWithin_alike (hr : r.Ample net nodes) (hnet : r.net.Ruled)
    (hc : c.Kept net nodes) {s : ConfigSet} (hs : r.Opened s c.graph) (hrest : r.stream.AtRest)
    (h : r.stream.tokensAhead < rounds) (h' : r.stream.tokensAhead < rounds') :
    EndAlike net nodes (r.Permits (r.stream.tokensAhead + 1)) (r.predictFullWithin rounds s)
      (r.predictFullWithin rounds' s) c fun _ _ => True := by
  refine (EndAlike.loop (FullPoint.Steady r) (·.stream.tokensAhead) ?_ hc
    (hs.steady hr hnet hrest) h h').bind fun last c₁ hc₁ _ _ => finishFull_ends hc₁ last
  intro p c' hc' hp
  have hread : p.read < r.stream.tokensAhead + 1 :=
    Nat.lt_succ_of_le (Nat.le.intro hp.count)
  exact (fullStep_ends hr hc' hp.stage.tidy hp.stage.full_eq hread).mono
    fun next c'' hc'' _ hnext p' hp' => (hnext p' hp').steady hnet hc''.sound hp

/-! ## Along the table -/

/-- **Attempts end alike** with any number of rounds that exceeds the number of tokens ahead. -/
theorem attemptWithin_alike_of_lt (hc : c.Kept net nodes)
    (hr : ∀ entry, net.decisions[r.decision]? = some entry → r.Ample net nodes)
    (hnet : net.Ruled) (hrest : r.stream.AtRest) (h : r.stream.tokensAhead < rounds)
    (h' : r.stream.tokensAhead < rounds') :
    EndAlike net nodes (r.Permits (r.stream.tokensAhead + 1)) (r.attemptWithin rounds)
      (r.attemptWithin rounds') c fun _ _ => True := by
  refine attemptWithin_alike hc hr fun hr place c₁ hc₁ hplace => ?_
  have hnet' : r.net.Ruled := hr.net_eq.symm ▸ hnet
  refine .loop (fun p c => p.place.Kept c.graph ∧ p.stream.AtRest ∧
    p.read + p.stream.tokensAhead = r.stream.tokensAhead) (·.stream.tokensAhead) ?_ hc₁
    ⟨hplace, hrest, Nat.zero_add _⟩ h h'
  -- Rows that the end of the input leads to answer: a round without an answer consumes a token.
  rintro p c' hc' ⟨hp, hprest, hcount⟩
  refine (stepWithin_alike hr hc' (fun s c₂ hc₂ hs => predictFullWithin_alike hr hnet' hc₂ hs hrest
    h h') hp (Nat.lt_succ_of_le (Nat.le.intro hcount))).mono fun next c'' _ _ hnext p' hp' => ?_
  obtain ⟨hread, -, hstream, hgoing, hplace'⟩ := hnext p' hp'
  have hless := hprest.tokensAhead_consume hgoing
  rw [← hstream] at hless
  exact ⟨⟨hplace', hstream ▸ hprest.consume, by omega⟩, by omega⟩

end Request

/-! ## Predictions -/

namespace Session

/-- **A prediction looks at each token ahead at most once in either of its loops.** With `n` tokens
ahead neither loop makes more than `n + 1` rounds: nothing changes if they may not. So the ceiling
of the lookahead is met only if it is less than `n + 1`. -/
theorem predict_rounds {g : Grammar} {net : Network} (h : g.compile = .ok net)
    (hparser : g.kind = .parser) (hword : net.states.size ≤ emptyReturn)
    {allowed : PredictionSettings → Oracle → Prop} {c : Cache} (hc : c.Used net allowed)
    {stream : TokenStream} (hrest : stream.AtRest) (settings : PredictionSettings) (host : Oracle)
    (decision : Nat) (callers : List StateId) :
    ∃ enough, ∀ fuel, enough ≤ fuel → ∀ rounds, stream.tokensAhead + 1 ≤ rounds →
      ∀ s : Session, s.cache = c → ∃ res s',
        (predict settings host fuel stream decision callers).from? s = some (res, s') ∧
        (predictWithin rounds settings host fuel stream decision callers).from? s =
          some (res, s') ∧
        ∀ e, res = .error (.exceeded e) → e.resource = .lookahead →
          settings.maxLookahead < stream.tokensAhead + 1 := by
  obtain ⟨modeStarts, draft, hbuilt⟩ := Grammar.exists_built h
  have hlexer := hbuilt.isLexer_eq hparser
  obtain ⟨nodes, hkept⟩ := hc.kept hbuilt.consistent hlexer hword
  -- The fuel is a number of rounds too, which is why it has to exceed the tokens ahead as well.
  refine ⟨max (net.ample nodes settings (net.decisions[decision]?.getD 0)) (stream.tokensAhead + 1),
    fun fuel hfuel rounds hrounds s hs => ?_⟩
  have hample : ∀ entry, net.decisions[decision]? = some entry →
      net.ample nodes settings entry ≤ fuel := by
    intro entry hd
    rw [hd] at hfuel
    exact (le_max_left _ _).trans hfuel
  have hattempt : ∀ (s' : Session) (r : Request),
      r = s'.request settings host fuel stream decision callers →
      (∀ entry, net.decisions[decision]? = some entry → r.Ample net nodes) →
      ∀ c, c.Kept net nodes → Prediction.EndAlike net nodes
        (settings.Permits (stream.tokensAhead + 1)) (r.attemptWithin fuel)
        (r.attemptWithin rounds) c fun _ _ => True := by
    rintro s' r rfl hr c' hc'
    exact Request.attemptWithin_alike_of_lt hc' hr (Grammar.ruled h hparser) hrest
      ((le_max_right _ _).trans hfuel) hrounds
  obtain ⟨hsame, res, s', hrun, -, hpermits⟩ := predictWithin_alike hbuilt.consistent hlexer hword
    (hs.symm ▸ hkept) hample host stream callers hattempt
  rw [predictWithin_fuel] at hsame hrun
  exact ⟨res, s', hrun, hsame ▸ hrun, fun e he => hpermits _ he e rfl⟩

/-- A pair of parentheses is looked at in three rounds. -/
theorem nested_predict_rounds : (TokenStream.ofTypes [1, 2]).tokensAhead = 2 ∧
    ∃ enough, ∀ fuel, enough ≤ fuel → ∀ rounds, 3 ≤ rounds →
      ∀ s : Session, s.cache = .new Grammar.nestedNet → ∃ res s',
        (predict {} .permissive fuel (.ofTypes [1, 2]) 0 [4]).from? s = some (res, s') ∧
        (predictWithin rounds {} .permissive fuel (.ofTypes [1, 2]) 0 [4]).from? s =
          some (res, s') ∧
        ∀ e, res = .error (.exceeded e) → e.resource = .lookahead → Limits.lookahead < 3 := by
  have hahead : (TokenStream.ofTypes [1, 2]).tokensAhead = 2 := by decide
  have hrest : (TokenStream.ofTypes [1, 2]).AtRest := TokenStream.ofTokens_atRest _ _ _
  have hrounds := predict_rounds Grammar.compile_nested rfl (by decide +kernel)
    (.new _ _ : Cache.Used _ (fun _ _ => True) (.new Grammar.nestedNet)) hrest {} .permissive 0 [4]
  rw [hahead] at hrounds
  exact ⟨hahead, hrounds⟩

end Session

end AdaptiveLL
