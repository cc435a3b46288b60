import AdaptiveLL.Proofs.Parsing.Acceptance
import AdaptiveLL.Proofs.Prediction.Ending
import AdaptiveLL.Proofs.Prediction.Local

/-!
# Parses end

A parse comes to an end on every input, with whatever guards and even with rules that re-enter
themselves, if every round of a loop reads a token. Matching the end of the input does not count,
since that can be done again and again. Every prediction of the parse ends. What the parse itself
does is a run through the network under no more calls than its settings allow, which reads no more
tokens than there are, and there is a longest one of these.
-/

namespace AdaptiveLL

namespace Parser

variable {net : Network} {setup : ParseSetup} {w w' : Walk} {p p' : Parser} {nodes : Nat}

/-! ## More fuel -/

private theorem predict_within {fuel : Nat} (h : setup.fuel ≤ fuel) (w : Walk) (d : Nat) :
    (predict setup w d).Within (predict { setup with fuel } w d) := by
  intro p x hx
  rw [predict_from?] at hx ⊢
  obtain ⟨y, hy, rfl⟩ := Option.map_eq_some_iff.mp hx
  rw [Session.predict_within h _ _ _ _ _ hy]
  rfl

private theorem step_within {fuel : Nat} (h : setup.fuel ≤ fuel) (w : Walk) :
    (step setup net w).Within (step { setup with fuel } net w) := by
  unfold step
  refine .ite (.refl _) (.bind ?_ fun chosen => .refl _)
  unfold choose
  cases (net.state w.state).decision with
  | none => exact .refl _
  | some d => exact .ite (.bind (predict_within h w d) fun _ => .refl _) (.refl _)

/-- **More fuel changes no parse that ends.** -/
theorem parse_within {fuel : Nat} (h : setup.fuel ≤ fuel) (rule : String) :
    (parse setup rule).Within (parse { setup with fuel } rule) := by
  unfold parse
  refine .bind (.refl _) fun p => ?_
  dsimp only
  cases p.session.cache.net.ruleIndex? rule with
  | none => exact .refl _
  | some i => exact .bind (.outcome (.loop (step_within h) h _)) fun _ => .refl _

/-- A parse whose loop gives nothing gives nothing. -/
private theorem parse_eq_none (hnet : p.session.cache.net = net) {rule : String} {i : Nat}
    (hi : net.ruleIndex? rule = some i)
    (h : (Run.loop (step setup net) setup.fuel (begin setup net i p.stream.index)).from? p = none) :
    (parse setup rule).from? p = none := by
  unfold parse
  simp only [Run.from?_bind, Run.from?_get, Option.bind_some, hnet, hi, Run.from?_outcome, h,
    Option.map_none, Option.bind_none]

/-! ## Steps -/

/-- What the predictions of a parse need to end. -/
structure Supplied (setup : ParseSetup) (net : Network) (nodes : Nat) : Prop where
  consistent : net.Consistent
  parser : net.isLexer = false
  word : net.states.size ≤ emptyReturn
  fuel : ∀ entry ∈ net.decisions, net.ample nodes setup.settings entry ≤ setup.fuel

/-- **Choosing an alternative ends** and keeps the cache. -/
private theorem choose_returns (hs : Supplied setup net nodes) (hc : p.session.cache.Kept net nodes) :
    (choose setup (net.state w.state) w).Yields p fun _ p₁ => p₁.session.cache.Kept net nodes := by
  unfold choose
  split
  · next d _ =>
    split
    · refine .bind (Q := fun _ p₁ => p₁.session.cache.Kept net nodes) ?_
        (fun alt p₁ hc₁ => .get_bind (.pure hc₁)) fun _ _ h => h
      obtain ⟨r, s, hrun, hkept⟩ := Session.predict_ends hs.consistent hs.parser hs.word hc
        (fun entry hd => hs.fuel entry (Array.mem_of_getElem? hd)) (setup.host.atLevel w.precedence)
        p.stream w.callers.reverse
      exact .of_eq (by rw [predict_from?, hrun]; rfl) hkept
    · exact .pure hc
  · exact .pure hc

/-- No more rules become active than there may be. -/
private theorem step_depth (setup : ParseSetup) (net : Network) (w : Walk) :
    (step setup net w).Gives fun next => ∀ w', next = .inl w' →
      w'.frames.length ≤ max w.frames.length setup.maxDepth := by
  have hchoose : (choose setup (net.state w.state) w).Gives fun chosen =>
      chosen.1.frames = w.frames := by
    unfold choose
    split
    · exact .ite (.after fun _ => .after fun _ => .pure rfl) (.pure rfl)
    · exact .pure rfl
  -- Only a call adds to the active rules, and it is refused beyond the ceiling.
  have htake : ∀ w₁ : Walk, w₁.frames = w.frames → ∀ t,
      (take setup net (net.state w.state) w₁ t).Gives fun w₂ =>
        w₂.frames.length ≤ max w.frames.length setup.maxDepth := by
    intro w₁ hw₁ t
    have hsame : w₁.frames.length ≤ max w.frames.length setup.maxDepth := hw₁ ▸ le_max_left ..
    have hconsume : (consume net w₁ t).Gives fun w₂ =>
        w₂.frames.length ≤ max w.frames.length setup.maxDepth :=
      .after fun _ => .ite (.after fun _ => .pure hsame) .throw
    cases t with
    | epsilon => exact .pure hsame
    | rule target rule follow level =>
      simp only [take, enter]
      split
      · exact .throw
      · next hdepth => exact .after fun _ => .pure (by
          simp only [Walk.push, List.length_cons]
          omega)
    | predicate => exact .after fun _ => .after fun _ => .ite (.pure hsame) .throw
    | precedence => exact .ite (.pure hsame) (.after fun _ => .throw)
    | action => exact .after fun _ => .pure hsame
    | _ => exact hconsume
  unfold step
  refine .ite ?_ (.bind hchoose fun chosen hchosen => ?_)
  · unfold leave
    split
    · exact .pure fun _ h => absurd h Sum.inr_ne_inl
    · next f frames hframes =>
      refine .after fun _ => ?_
      dsimp only
      split
      · refine .pure fun w' hw' => ?_
        rw [← Sum.inl.inj hw', hframes, List.length_cons]
        exact (Nat.le_succ _).trans (le_max_left ..)
      · exact .pure fun _ h => absurd h Sum.inr_ne_inl
  · obtain ⟨w₁, alt⟩ := chosen
    dsimp only
    split
    · exact .after fun _ => .throw
    · next t _ =>
      refine (htake w₁ hchosen t).bind fun w₂ hw₂ => .pure fun w' hw' => ?_
      rw [← Sum.inl.inj hw']
      exact hw₂

/-- **A step ends.** If the parse goes on, it has made a move, and the cache is kept. -/
private theorem step_returns (hs : Supplied setup net nodes) (horderly : net.Orderly)
    (hw : w.Matched net) (hc : p.session.cache.Kept net nodes) :
    (step setup net w).Yields p fun r p' => ∀ w', r = .ok (.inl w') →
      p'.session.cache.Kept net nodes ∧ w'.Matched net ∧ Moves net w p.stream w' p'.stream ∧
        w'.frames.length ≤ max w.frames.length setup.maxDepth := by
  have hkept : (step setup net w).Yields p fun r p' => ∀ w', r = .ok (.inl w') →
      p'.session.cache.Kept net nodes := by
    cases hstop : net.isStop w.state with
    | true =>
      refine (step_leaves hw hstop).mono ?_
      rintro r p' ⟨rfl, -⟩ _ _
      exact hc
    | false =>
      obtain ⟨r, p₁, hrun, hc₁⟩ := choose_returns (w := w) hs hc
      refine step_yields horderly hw hstop ⟨r, p₁, hrun, ?_⟩
      obtain ⟨-, hlike⟩ := choose_alike hrun
      cases r with
      | error e =>
        rintro _ ⟨⟩
      | ok chosen =>
        refine ⟨hlike _ _ rfl, ?_⟩
        split
        · rintro _ _ ⟨⟩
        · intro r' p' htaken _ heq
          cases htaken with
          | hop _ _ _ hcache => exact hcache ▸ hc₁
          | eat _ _ _ hcache => exact hcache ▸ hc₁
          | mismatched | guarded | overflow => cases heq
  -- The rest is known of any step that has come to an end.
  obtain ⟨r, p', hrun, h⟩ := hkept
  refine ⟨r, p', hrun, fun w' hr => ?_⟩
  subst hr
  obtain ⟨hmatched, hmoves⟩ := step_moves horderly hw hrun
  exact ⟨h w' rfl, hmatched, hmoves, step_depth setup net w p _ p' hrun w' rfl⟩

/-! ## Whole parses -/

/-- A parse on its way, which can make no more than `bound` further steps. -/
private structure Underway (net : Network) (depth nodes bound : Nat) (w : Walk) (p : Parser) :
    Prop where
  matched : w.Matched net
  depth_le : w.frames.length ≤ depth
  kept : p.session.cache.Kept net nodes
  closed : p.stream.Closed
  lasts : (Gauge.limited net depth).Lasts bound p.stream.remaining w.stand

/-- **A move is one of the steps that can be made.** -/
private theorem Underway.move {depth bound : Nat} (hparser : net.isLexer = false)
    (h : Underway net depth nodes bound w p) (hmoves : Moves net w p.stream w' p'.stream)
    (hmatched : w'.Matched net) (hdepth : w'.frames.length ≤ depth)
    (hkept : p'.session.cache.Kept net nodes) :
    1 ≤ bound ∧ Underway net depth nodes (bound - 1) w' p' := by
  cases hmoves with
  | hop hhop hstream =>
    have hallows : w'.stand.2.length ≤ depth := (List.length_filterMap_le ..).trans hdepth
    obtain ⟨hpos, hlasts⟩ := h.lasts.hop hhop hallows
    exact ⟨hpos, hmatched, hdepth, hkept, hstream ▸ h.closed, hstream ▸ hlasts⟩
  | eat hstop ht hacc hstand hstream =>
    have hspent : p'.stream.remaining +
        (Gauge.limited net depth).weight [p.stream.lookAhead 1] ≤ p.stream.remaining := by
      rw [hstream]
      by_cases heof : p.stream.lookAhead 1 = Symbol.eof
      · rw [TokenStream.consume_of_eof heof, heof]
        exact Nat.le_refl _
      · have hless := h.closed.remaining_consume_lt heof
        have hone : (Gauge.limited net depth).weight [p.stream.lookAhead 1] ≤ 1 :=
          List.countP_le_length
        omega
    rw [accepts_eq hparser] at hacc
    obtain ⟨hpos, hlasts⟩ := h.lasts.eat hstop ht hacc hspent
    exact ⟨hpos, hmatched, hdepth, hkept, hstream ▸ h.closed.consume, hstand ▸ hlasts⟩

/-- **The loop of a parse ends.** -/
private theorem walk_returns {depth bound : Nat} (hs : Supplied setup net nodes)
    (horderly : net.Orderly) (hdepth : setup.maxDepth ≤ depth) (hsteps : bound < setup.fuel)
    (h : Underway net depth nodes bound w p) :
    (Run.loop (step setup net) setup.fuel w).Yields p fun _ _ => True := by
  refine Run.Yields.loop_counted (fun n w p => n ≤ bound ∧ Underway net depth nodes (bound - n) w p)
    bound (fun n w p h => h.1) ?_ ⟨Nat.zero_le _, h⟩ (by omega)
  rintro n w p ⟨hn, h⟩
  refine (step_returns hs horderly h.matched h.kept).mono ?_
  rintro (e | (w' | t)) p' hnext
  · trivial
  · obtain ⟨hkept, hmatched, hmoves, hframes⟩ := hnext w' rfl
    obtain ⟨hpos, hmoved⟩ := h.move hs.parser hmoves hmatched
      (hframes.trans (max_le h.depth_le hdepth)) hkept
    exact ⟨by omega, by rwa [← Nat.sub_sub]⟩
  · trivial

end Parser

/-- **A parse always ends.** Let every round of a loop of a parser grammar read a token: matching
the end of the input does not count. Then a parse comes to an end, from whichever rule, on whichever
tokens, in whichever mode, under whichever ceilings, with whichever answers of the host, and with
whatever earlier predictions have left in the cache. With enough fuel it comes to the same end
whatever the fuel is. -/
theorem Parser.parse_ends {g : Grammar} {net : Network} (hcompile : g.compile = .ok net)
    (hparser : g.kind = .parser) (hword : net.states.size ≤ emptyReturn)
    (hloops : g.LoopsRead net.firstSymbol net.lastSymbol (· != Symbol.eof)) {s : Session}
    (hused : s.cache.Used net fun _ _ => True) {stream : TokenStream} (hclosed : stream.Closed)
    (setup : ParseSetup) (rule : String) :
    ∃ enough result, ∀ fuel, enough ≤ fuel →
      (parse { setup with fuel } rule).from? ⟨s, stream⟩ = some result := by
  obtain ⟨modeStarts, d, hbuilt⟩ := Grammar.exists_built hcompile
  have hlexer := hbuilt.isLexer_eq hparser
  obtain ⟨nodes, hc⟩ := hused.kept hbuilt.consistent hlexer hword
  -- More fuel changes no end that was reached, so one amount of fuel will do.
  suffices hends : ∃ enough, (parse { setup with fuel := enough } rule).Yields ⟨s, stream⟩
      fun _ _ => True by
    obtain ⟨enough, r, p, hrun, -⟩ := hends
    refine ⟨enough, (r, p), fun fuel hfuel => ?_⟩
    have hwithin : (parse { setup with fuel := enough } rule).Within
        (parse { setup with fuel } rule) := parse_within hfuel rule
    exact hwithin _ _ hrun
  cases hi : net.ruleIndex? rule with
  | none =>
    refine ⟨0, .get_bind ?_⟩
    simp only [hc.net_eq, hi]
    exact .throw trivial
  | some i =>
    obtain ⟨r, hr⟩ := hbuilt.exists_rule hi
    have hlt := (List.getElem?_eq_some_iff.mp hr).1
    -- The calls are bounded by their ceiling, the tokens by those ahead, and so the runs are.
    obtain ⟨bound, hbound⟩ := hbuilt.runs_end (Gauge.limited net (max setup.maxDepth 1)) hloops hr
      stream.remaining
    refine ⟨max (bound + 1) (net.decisions.toList.toFinset.sup (net.ample nodes setup.settings)),
      ?_⟩
    generalize hfuel : max (bound + 1) _ = fuel
    have hsupplied : Supplied { setup with fuel } net nodes := by
      refine ⟨hbuilt.consistent, hlexer, hword, fun entry hentry => hfuel ▸ ?_⟩
      exact (Finset.le_sup (f := net.ample nodes setup.settings)
        (List.mem_toFinset.mpr (Array.mem_toList_iff.mpr hentry))).trans (le_max_right _ _)
    have hsteps : bound < fuel := hfuel ▸ le_max_left (bound + 1) _
    have hunderway : Underway net (max setup.maxDepth 1) nodes bound
        (begin { setup with fuel } net i stream.index) ⟨s, stream⟩ :=
      ⟨begin_matched _ _, le_max_right _ _, hc, hclosed, hbuilt.begin_stand hlt _ _ ▸ hbound⟩
    exact parse_yields hc.net_eq hi (R := fun _ _ => True) (walk_returns hsupplied
      (hbuilt.orderly hparser) (le_max_left _ _) hsteps hunderway)

/-! ## Sums that begin with themselves -/

namespace Grammar

/-- Sums, of which the first number may be missing or stand after ends of the input. A sum begins
with a sum, and the numbers with a condition. -/
def sums : Grammar where
  kind := .parser
  name := "sums"
  tokenNames := ["<INVALID>", "NUM", "PLUS"]
  rules :=
    [⟨"sum", .alt [.seq [.ruleRef "sum" 0, .token 2, .ruleRef "numbers" 0],
        .ruleRef "numbers" 0], none, 0⟩,
      ⟨"numbers", .seq [.predicate 0 false,
        .star (.seq [.optional (.token Symbol.eof) true, .token 1]) true], none, 0⟩]

/-- The network of sums. -/
def sumsNet : Network := sums.compile.toOption.getD default

theorem compile_sums : sums.compile = .ok sumsNet := by
  have hok : sums.compile.isOk = true := by decide +kernel
  unfold sumsNet
  cases h : sums.compile with
  | ok net => rfl
  | error e =>
    rw [h] at hok
    cases hok

/-- Every round of the loop reads a number. -/
theorem sums_loopsRead (lo hi : Symbol) : sums.LoopsRead lo hi (· != Symbol.eof) := by
  have hloop : ∀ body greedy, .star body greedy ∈ sums.parts ∨ .plus body greedy ∈ sums.parts →
      body = .seq [.optional (.token Symbol.eof) true, .token 1] := by
    simp [parts, sums, Element.parts, Element.partsOf]
  intro body greedy hmem w hw
  rw [hloop body greedy hmem, show [Element.optional (.token Symbol.eof) true, .token 1] =
    [.optional (.token Symbol.eof) true] ++ [.token 1] from rfl] at hw
  obtain ⟨u, rfl, -⟩ := denotes_seq_token.mp hw
  exact ⟨1, by simp, by decide⟩

end Grammar

theorem Parser.parse_ends_sums : ∃ enough result, ∀ fuel, enough ≤ fuel →
    (parse { setup {} .permissive 0 with fuel } "sum").from?
      ⟨.new (.new Grammar.sumsNet), .ofTypes [1, 2, 1]⟩ = some result := by
  have hnew : (Session.new (.new Grammar.sumsNet)).cache = .new Grammar.sumsNet := rfl
  exact parse_ends Grammar.compile_sums rfl (by decide +kernel) (Grammar.sums_loopsRead _ _)
    (hnew ▸ .new _ _) (TokenStream.ofTokens_closed _ _ _) _ _

/-! ## A loop that reads nothing -/

/-- **A prediction that leaves the cache as it is can be made again:** it comes to the same answer,
with whatever fuel, if the answers of the host never change. -/
theorem Session.predict_repeats {c : Cache} {settings : PredictionSettings} {host : Oracle}
    (hhost : host.Steady) {fuel : Nat} {stream : TokenStream} {decision : Nat}
    {callers : List StateId} {alt : Nat} {t : Session}
    (h : (requestOn c settings host fuel stream decision callers).attempt.from? { cache := c } =
      some (.ok alt, t)) (htables : t.cache.tables = c.tables) (hgraph : t.cache.graph = c.graph)
    {s s' : Session} (hs : s.cache = c) {fuel' : Nat} {r : Except PredictionError Nat}
    (hrun : (predict settings host fuel' stream decision callers).from? s = some (r, s')) :
    r = .ok alt ∧ s'.cache = c := by
  obtain ⟨most, hle, hle'⟩ : ∃ most, fuel ≤ most ∧ fuel' ≤ most :=
    ⟨max fuel fuel', le_max_left .., le_max_right ..⟩
  have hmore := predict_within hle' stream decision callers s _ hrun
  generalize hcounted : s.count decision (fun c => { c with invocations := c.invocations + 1 }) = s₁
  have hs₁ : s₁.cache = c := hcounted ▸ hs
  -- The two sessions have the same tables and graph, which is all an attempt reads.
  have halike : Session.Alike host { cache := c } s₁ :=
    ⟨by rw [hs₁], by rw [hs₁], hhost.agrees _ _⟩
  obtain ⟨-, t₁, hattempt, hsame⟩ := Request.attempt_local _ _ _ halike _ _
    (Request.attempt_within hle _ _ h)
  obtain ⟨hkeeps, -⟩ := Request.attempt_local _ _ _ halike.symm _ _ hattempt
  have hrequest : s₁.request settings host most stream decision callers =
      (requestOn c settings host fuel stream decision callers).fueled most := by
    subst hs₁
    rfl
  have hknown : (predict settings host most stream decision callers).from? s =
      some (.ok alt, t₁) := by
    rw [predict_eq, Run.from?_bind, Run.from?_modify, hcounted]
    simp only [Option.bind_some, Run.from?_bind, Run.from?_get, Run.from?_outcome, hrequest,
      hattempt, Option.map_some, again, Run.from?_pure, close]
  rw [hknown] at hmore
  obtain ⟨rfl, rfl⟩ := Prod.mk.inj (Option.some.inj hmore)
  refine ⟨rfl, ?_⟩
  have hfields : ∀ c' : Cache, c'.net = c.net → c'.maxNodes = c.maxNodes →
      c'.maxDepth = c.maxDepth → c'.generation = c.generation → c'.tables = c.tables →
        c'.graph = c.graph → c' = c := by
    rintro ⟨⟩ rfl rfl rfl rfl rfl rfl
    rfl
  exact hfields _ (hs₁ ▸ hkeeps.net_eq) (hs₁ ▸ hkeeps.maxNodes_eq) (hs₁ ▸ hkeeps.maxDepth_eq)
    (hs₁ ▸ hkeeps.generation_eq) (hsame.tables_eq ▸ htables) (hsame.graph_eq ▸ hgraph)

namespace Grammar

/-- A loop whose rounds may read nothing. -/
def stalling : Grammar where
  kind := .parser
  name := "stalling"
  tokenNames := ["<INVALID>", "A"]
  rules :=
    [⟨"s", .seq [.star (.optional (.token 1) true) true, .token Symbol.eof], none, 0⟩]

/-- The network of that loop, which no proof unfolds unless it evaluates it. -/
@[irreducible] def stallingNet : Network := stalling.compile.toOption.getD default

theorem compile_stalling : stalling.compile = .ok stallingNet := by
  have hok : stalling.compile.isOk = true := by decide +kernel
  unfold stallingNet
  cases h : stalling.compile with
  | ok net => rfl
  | error e =>
    rw [h] at hok
    cases hok

end Grammar

namespace Parser

/-- How a parse of the loop is set up. -/
private abbrev stallingSetup (fuel : Nat) : ParseSetup :=
  setup { useCache := false } .permissive fuel

/-- What is predicted at the end of the input: another round, in which nothing is read. -/
private theorem stalling_predicts {d : Nat} (hd : d ∈ [0, 1]) {s s' : Session}
    (hs : s.cache = .new Grammar.stallingNet) {fuel : Nat} {r : Except PredictionError Nat}
    (hrun : (Session.predict { useCache := false } (.atLevel .permissive 0) fuel (.ofTypes []) d
      []).from? s = some (r, s')) : r = .ok (2 - d) ∧ s'.cache = .new Grammar.stallingNet := by
  have hattempt : ∀ d ∈ [0, 1], ((Session.requestOn (.new Grammar.stallingNet) { useCache := false }
      (.atLevel .permissive 0) 12 (.ofTypes []) d []).attempt.from?
        { cache := .new Grammar.stallingNet }).map (fun x =>
          (x.1.toOption, x.2.cache.tables, x.2.cache.graph)) =
      some (some (2 - d), (Cache.new Grammar.stallingNet).tables,
        (Cache.new Grammar.stallingNet).graph) := by
    decide +kernel
  obtain ⟨⟨r₀, t⟩, ht, heq⟩ := Option.map_eq_some_iff.mp (hattempt d hd)
  simp only [Prod.mk.injEq] at heq
  obtain ⟨halt, htables, hgraph⟩ := heq
  cases r₀ with
  | error e => cases halt
  | ok alt =>
    obtain rfl := Option.some.inj halt
    have hhost := (Oracle.steady_coe .permissive).atLevel 0
    exact Session.predict_repeats hhost ht htables hgraph hs hrun

/-- A parse in the loop. -/
private structure Stalled (w : Walk) (p : Parser) : Prop where
  state : w.state ∈ [0, 8, 2, 4, 5, 3, 9]
  frames : w.frames = [⟨0, none, 0⟩]
  callers : w.callers = []
  cache : p.session.cache = .new Grammar.stallingNet
  stream : p.stream = .ofTypes []

/-- **A parse in the loop stays in it.** -/
private theorem Stalled.step {fuel : Nat} {w : Walk} {p p' : Parser} (h : Stalled w p)
    {r : Except ParseError (Walk ⊕ ParseTrace)}
    (hrun : (step (stallingSetup fuel) Grammar.stallingNet w).from? p = some (r, p')) :
    ∃ w', r = .ok (.inl w') ∧ Stalled w' p' := by
  -- The loop goes through seven states: at five there is one way on, at two there is a choice.
  have hstops : ∀ q ∈ [0, 8, 2, 4, 5, 3, 9], Grammar.stallingNet.isStop q = false := by
    decide +kernel
  have hplain : ∀ m ∈ [(0, 8), (2, 4), (5, 3), (3, 9), (9, 8)],
      (Grammar.stallingNet.state m.1).decision = none ∧
        (Grammar.stallingNet.state m.1).transitions = [.epsilon m.2] := by
    decide +kernel
  have hchoice : ∀ m ∈ [(8, 1, 2), (4, 0, 5)],
      (Grammar.stallingNet.state m.1).decision = some m.2.1 ∧ m.2.1 ∈ [0, 1] ∧
        1 < (Grammar.stallingNet.state m.1).transitions.length ∧
          (Grammar.stallingNet.state m.1).transitions[2 - m.2.1 - 1]? = some (.epsilon m.2.2) := by
    decide +kernel
  have hstop := hstops w.state h.state
  have hmoves : (∃ q ∈ [8, 4, 3, 9], (w.state, q) ∈ [(0, 8), (2, 4), (5, 3), (3, 9), (9, 8)]) ∨
      ∃ d, ∃ q ∈ [2, 5], (w.state, d, q) ∈ [(8, 1, 2), (4, 0, 5)] := by
    have hstate := h.state
    simp only [List.mem_cons, List.not_mem_nil, or_false] at hstate
    rcases hstate with hq | hq | hq | hq | hq | hq | hq <;> rw [hq] <;> simp
  rcases hmoves with ⟨q, hq, hmem⟩ | ⟨d, q, hq, hmem⟩
  · obtain ⟨hdecision, hways⟩ := hplain _ hmem
    obtain ⟨rfl, rfl⟩ := Prod.mk.inj
      (Option.some.inj (hrun.symm.trans (step_epsilon hstop hdecision hways)))
    have hinside : [8, 4, 3, 9] ⊆ [0, 8, 2, 4, 5, 3, 9] := by decide
    exact ⟨_, rfl, hinside hq, h.frames, h.callers, h.cache, h.stream⟩
  · obtain ⟨hdecision, hd, hseveral, ht⟩ := hchoice _ hmem
    obtain ⟨r₁, s, hpredict, hgo⟩ := step_choice hstop hdecision hseveral hrun
    have hprecedence : w.precedence = 0 := by
      unfold Walk.precedence
      rw [h.frames]
      rfl
    rw [h.stream, h.callers, hprecedence] at hpredict
    obtain ⟨hr, hcache⟩ := stalling_predicts hd h.cache hpredict
    obtain ⟨w', hx, hstate, hframes, hcallers⟩ := hgo _ q hr ht
    obtain ⟨rfl, rfl⟩ := Prod.mk.inj hx
    have hinside : [2, 5] ⊆ [0, 8, 2, 4, 5, 3, 9] := by decide
    refine ⟨w', rfl, ?_, hframes.trans h.frames, hcallers.trans h.callers, hcache, h.stream⟩
    rw [hstate]
    exact hinside hq

private theorem stalled_begin (fuel : Nat) :
    Stalled (begin (stallingSetup fuel) Grammar.stallingNet 0 (TokenStream.ofTypes []).index)
      ⟨.new (.new Grammar.stallingNet), .ofTypes []⟩ := by
  obtain ⟨_, _, hbuilt⟩ := Grammar.exists_built Grammar.compile_stalling
  have hstand := hbuilt.begin_stand (show 0 < Grammar.stalling.rules.length from Nat.one_pos)
    (stallingSetup fuel) (TokenStream.ofTypes []).index
  refine ⟨?_, rfl, rfl, rfl, rfl⟩
  rw [show (begin (stallingSetup fuel) Grammar.stallingNet 0 (TokenStream.ofTypes []).index).state =
    Grammar.stalling.startState 0 from congrArg Prod.fst hstand]
  exact List.mem_cons_self ..

/-- **Not every parse ends:** a loop whose rounds may read nothing is gone through again and again
at the end of the input. -/
theorem stalling_never_ends : Grammar.stalling.kind = .parser ∧
    ∃ net, Grammar.stalling.compile = .ok net ∧ ∀ fuel,
      (parse (setup { useCache := false } .permissive fuel) "s").from?
        ⟨.new (.new net), .ofTypes []⟩ = none := by
  refine ⟨rfl, _, Grammar.compile_stalling, fun fuel => ?_⟩
  obtain ⟨_, _, hbuilt⟩ := Grammar.exists_built Grammar.compile_stalling
  have hrule : Grammar.stalling.rules[0]? = some ⟨"s", .seq
      [.star (.optional (.token 1) true) true, .token Symbol.eof], none, 0⟩ := rfl
  refine parse_eq_none rfl (hbuilt.ruleIndex?_eq hrule) ?_
  exact Run.loop_eq_none Stalled (fun w p h r p' hrun => h.step hrun) _ (stalled_begin fuel)

end Parser

end AdaptiveLL
