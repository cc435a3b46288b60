import AdaptiveLL.Proofs.Grammar.Compiled
import AdaptiveLL.Proofs.Network.Orderly
import AdaptiveLL.Proofs.Prediction.Sweep

/-!
# The shape of compiled networks

In the network of a parser grammar the rules keep apart: ways that are no calls stay within their
rule, and the end of a rule leads back to where its calls go on. What is asked of the grammar, that
it has no conditions or is closed by a rule, holds of the network.
-/

namespace AdaptiveLL

/-! ## Grammars -/

/-- Whether the element is the end of the input or has it among its symbols. -/
def Element.matchesEof (e : Element) : Bool := e.accepts Symbol.eof 0 1

namespace Grammar

/-- **No rule has a condition in its body.** -/
def Unconditional (g : Grammar) : Prop := ∀ e ∈ g.parts, e.isGuard = false

/-- **The grammar is closed by a rule,** whose body is some elements and then the end of the input:
no rule refers to it, and the end of the input is matched nowhere else. -/
structure ClosedBy (g : Grammar) (r : Rule) (es : List Element) : Prop where
  mem : r ∈ g.rules
  body_eq : r.body = .seq (es ++ [.token Symbol.eof])
  uncalled : ∀ e ∈ g.parts, e.calls r.name = false
  inner : ∀ e ∈ Element.partsOf es, e.matchesEof = false
  outer : ∀ r' ∈ g.rules, r'.name ≠ r.name → ∀ e ∈ r'.body.parts, e.matchesEof = false

theorem mem_parts {g : Grammar} {r : Rule} (hr : r ∈ g.rules) {e : Element} (he : e ∈ r.body.parts) :
    e ∈ g.parts := List.mem_flatMap.mpr ⟨r, hr, he⟩

end Grammar

namespace Draft.Comes

variable {d : Draft} {rule : Nat} {p : StateId} {e : Element} {t : Transition}

theorem guard?_eq (h : d.Comes rule p e t) (he : e.isGuard = false) : t.guard? = none := by
  cases h with
  | leaf hleaf => cases hleaf <;> first | rfl | cases he
  | char => rfl
  | call => rfl

theorem target_eq (h : d.Comes rule p e t) (hrule : t.isRule = false) : t.target = p := by
  cases h with
  | leaf hleaf => cases hleaf <;> rfl
  | char => rfl
  | call => cases hrule

theorem matchesEof (h : d.Comes rule p e t) (hacc : t.accepts Symbol.eof 0 1 = true) :
    e.matchesEof = true := by
  cases h with
  | leaf hleaf => cases hleaf <;> exact hacc
  | @char text c hc =>
    simp [Transition.accepts, Symbol.eof] at hacc
  | call => cases hacc

end Draft.Comes

namespace Grammar.Built

variable {g : Grammar} {net : Network} {modeStarts : List StateId} {d : Draft}

/-- Where a way on is found: at the start of a mode, at the start or the end of a rule, or inside
one. -/
theorem ways_cases (h : g.Built net modeStarts d) {q : StateId} {t : Transition}
    (ht : t ∈ (net.state q).transitions) :
    (q < g.modeCount ∧ ∃ i < g.rules.length, t = .epsilon (g.startState i)) ∨
    (∃ i < g.rules.length, q = g.startState i ∧
      ∃ entry, (net.state q).transitions = [.epsilon entry] ∧ (net.state entry).rule = i) ∨
    (∃ i < g.rules.length, q = g.stopState i ∧ g.kind = .parser ∧
      ∃ p start level follow, Transition.rule start i follow level ∈ (net.state p).transitions ∧
        t = .epsilon follow) ∨
    g.frameSize ≤ q ∧ q < d.size ∧ ∃ r i, g.rules[i]? = some r ∧ Inside g r i d q := by
  rw [h.state_eq] at ht
  simp only [h.state_eq]
  refine (h.finished.ways_cases ht).imp_right (Or.imp_left ?_)
  rintro ⟨i, hi, hq, entry, hways, hown⟩
  exact ⟨i, hi, hq, entry, hways, hown.rule_eq⟩

/-- Where a way on is found in the network of a parser grammar. -/
theorem way_cases (h : g.Built net modeStarts d) (hparser : g.kind = .parser) {q : StateId}
    {t : Transition} (ht : t ∈ (net.state q).transitions) :
    (∃ i < g.rules.length, q = g.startState i ∧
      ∃ entry, (net.state q).transitions = [.epsilon entry] ∧ (net.state entry).rule = i) ∨
    (∃ i < g.rules.length, q = g.stopState i ∧
      ∃ p start level follow, Transition.rule start i follow level ∈ (net.state p).transitions ∧
        t = .epsilon follow) ∨
    g.frameSize ≤ q ∧ q < d.size ∧ ∃ r i, g.rules[i]? = some r ∧ Inside g r i d q := by
  have hcount : g.modeCount = 0 := if_neg (by rw [hparser]; decide)
  rcases h.ways_cases ht with ⟨hm, -⟩ | hstart | ⟨i, hi, hq, -, hcall⟩ | hinside
  · exact absurd (hcount ▸ hm) (Nat.not_lt_zero q)
  · exact .inl hstart
  · exact .inr (.inl ⟨i, hi, hq, hcall⟩)
  · exact .inr (.inr hinside)

/-- What is owned by a rule in the draft belongs to it in the network. -/
theorem rule_of_owns (h : g.Built net modeStarts d) {i : Nat} {p : StateId} (hp : d.Owns i p) :
    (net.state p).rule = i := by
  rw [h.state_eq]
  exact hp.rule_eq

theorem kind_of_owns (h : g.Built net modeStarts d) {i : Nat} {p : StateId} (hp : d.Owns i p) :
    (net.state p).kind ≠ .tokensStart := by
  rw [h.state_eq]
  exact hp.kind_ne

theorem rule_start (h : g.Built net modeStarts d) {i : Nat} (hi : i < g.rules.length) :
    (net.state (g.startState i)).rule = i := by
  rw [h.state_eq]
  exact h.framed.start_rule i hi

theorem rule_stop (h : g.Built net modeStarts d) {i : Nat} (hi : i < g.rules.length) :
    (net.state (g.stopState i)).rule = i := by
  rw [h.state_eq]
  exact h.framed.stop_rule i hi

/-- **A way on inside a body** is a plain step, or the only one and comes from a part of the
body. -/
theorem inside_cases (h : g.Built net modeStarts d) {q : StateId} {r : Rule} {i : Nat}
    (hinside : Inside g r i d q) {t : Transition} (ht : t ∈ (net.state q).transitions) :
    (∃ p, t = .epsilon p ∧ (net.state p).rule = i) ∨
      ((net.state q).transitions = [t] ∧ (net.state q).decision = none ∧
        ∃ p, (net.state p).rule = i ∧ ∃ e ∈ r.body.parts, d.Comes i p e t) := by
  rw [h.state_eq q] at ht ⊢
  rcases hinside.wired.ways with hall | ⟨hdecision, t', p, hone, hp, e, he, hcomes⟩
  · obtain ⟨p, hp, hown⟩ := hall t ht
    exact .inl ⟨p, hp, h.rule_of_owns hown⟩
  · have ht' : t ∈ d.ways q := ht
    rw [hone, List.mem_singleton] at ht'
    subst ht'
    exact .inr ⟨hone, hdecision, p, h.rule_of_owns hp, e, he, hcomes⟩

theorem rule_inside (h : g.Built net modeStarts d) {q : StateId} {r : Rule} {i : Nat}
    (hinside : Inside g r i d q) : (net.state q).rule = i := by
  rw [h.state_eq]
  exact hinside.wired.rule_eq

/-- **A call** lies inside the body of a rule, and comes from a reference to the rule it calls. -/
theorem of_call (h : g.Built net modeStarts d) {q start follow : StateId} {callee : Nat}
    {level : Int}
    (ht : Transition.rule start callee follow level ∈ (net.state q).transitions) :
    ∃ r i r', g.rules[i]? = some r ∧ g.rules[callee]? = some r' ∧
      .ruleRef r'.name level ∈ r.body.parts ∧ start = g.startState callee ∧
        (net.state q).rule = i ∧ (net.state follow).rule = i ∧ net.isStop q = false ∧
          (net.state q).transitions = [.rule start callee follow level] := by
  rcases h.ways_cases ht with ⟨-, i, -, heq⟩ | ⟨i, -, -, entry, hways, -⟩ |
    ⟨i, -, -, -, p, _, _, _, -, heq⟩ | ⟨hge, hlt, r, i, hr, hinside⟩
  · cases heq
  · rw [hways, List.mem_singleton] at ht
    cases ht
  · cases heq
  · rcases h.inside_cases hinside ht with ⟨p, heq, -⟩ | ⟨hone, -, p, hp, e, he, hcomes⟩
    · cases heq
    · obtain ⟨name, rfl, rfl, hn⟩ := hcomes.of_call rfl
      obtain ⟨r', hr', rfl, hstart⟩ := h.framed.of_names hn
      exact ⟨r, i, r', hr, hr', he, hstart, h.rule_inside hinside, hp, h.isStop_inside hge hlt, hone⟩

/-- Every rule ends at its stop state alone. -/
theorem endsOnce (h : g.Built net modeStarts d) : net.EndsOnce := by
  intro q q' hq hq' hrule
  obtain ⟨i, hi, rfl⟩ := h.of_isStop hq
  obtain ⟨i', hi', rfl⟩ := h.of_isStop hq'
  rw [h.rule_stop hi, h.rule_stop hi'] at hrule
  rw [hrule]

/-- **In the network of a parser grammar the rules keep apart.** -/
theorem orderly (h : g.Built net modeStarts d) (hparser : g.kind = .parser) : net.Orderly where
  along q hq t ht hrule := by
    rcases h.way_cases hparser ht with ⟨i, hi, rfl, entry, hways, hentry⟩ | ⟨i, hi, rfl, -⟩ |
      ⟨hge, hlt, r, i, hr, hinside⟩
    · rw [hways, List.mem_singleton] at ht
      subst ht
      exact hentry.trans (h.rule_start hi).symm
    · rw [h.isStop_stop hi] at hq
      cases hq
    · rw [h.rule_inside hinside]
      rcases h.inside_cases hinside ht with ⟨p, rfl, hp⟩ | ⟨-, -, p, hp, e, -, hcomes⟩
      · exact hp
      · rw [hcomes.target_eq hrule]
        exact hp
  call q target rule follow level ht := by
    obtain ⟨r, i, r', -, hr', -, rfl, hq, hfollow, -⟩ := h.of_call ht
    exact ⟨h.rule_start (List.getElem?_eq_some_iff.mp hr').1, hfollow.trans hq.symm⟩
  alone q target rule follow level ht := by
    obtain ⟨r, i, r', -, -, -, -, -, -, hstop, hone⟩ := h.of_call ht
    exact ⟨hone, hstop⟩
  back q target rule follow level ht s hs hrule := by
    obtain ⟨i, hi, rfl⟩ := h.of_isStop hs
    rw [h.rule_stop hi] at hrule
    subst hrule
    rw [h.state_eq]
    refine (h.finished.stop_ways i hi _).mpr ⟨hparser, q, target, level, follow, ?_, rfl⟩
    rw [h.state_eq] at ht
    exact ht

/-- **No conditions in the grammar, no guards in the network.** -/
theorem unguarded (h : g.Built net modeStarts d) (hparser : g.kind = .parser)
    (hplain : g.Unconditional) : net.Unguarded := by
  intro q t ht
  rcases h.way_cases hparser ht with ⟨i, -, -, entry, hways, -⟩ | ⟨i, -, -, p, _, _, _, -, rfl⟩ |
    ⟨-, -, r, i, hr, hinside⟩
  · rw [hways, List.mem_singleton] at ht
    rw [ht]
    rfl
  · rfl
  · rcases h.inside_cases hinside ht with ⟨p, rfl, -⟩ | ⟨-, -, p, -, e, he, hcomes⟩
    · rfl
    · exact hcomes.guard?_eq (hplain e (mem_parts (List.mem_of_getElem? hr) he))

/-- Rules differ in their names. -/
theorem index_inj (h : g.Built net modeStarts d) {i j : Nat} {r r' : Rule}
    (hr : g.rules[i]? = some r) (hr' : g.rules[j]? = some r') (hname : r.name = r'.name) : i = j := by
  have hi : (g.rules.map Rule.name)[i]? = some r.name := by rw [List.getElem?_map, hr]; rfl
  have hj : (g.rules.map Rule.name)[j]? = some r.name := by
    rw [List.getElem?_map, hr', hname]
    rfl
  obtain ⟨hlt, hi⟩ := List.getElem?_eq_some_iff.mp hi
  obtain ⟨hlt', hj⟩ := List.getElem?_eq_some_iff.mp hj
  exact (h.names_nodup.getElem_inj_iff).mp (hi.trans hj.symm)

/-- **A grammar that is closed by a rule has a network that is.** -/
theorem closed (h : g.Built net modeStarts d) (hparser : g.kind = .parser) {top : Nat} {r : Rule}
    {es : List Element} (hr : g.rules[top]? = some r) (hclosed : g.ClosedBy r es) :
    net.Closed top (g.stopState top) := by
  have htop := (List.getElem?_eq_some_iff.mp hr).1
  have huncalled : ∀ q target follow level,
      Transition.rule target top follow level ∉ (net.state q).transitions := by
    intro q target follow level ht
    obtain ⟨r₁, i, r₂, hr₁, hr₂, hmem, -⟩ := h.of_call ht
    obtain rfl := Option.some.inj (hr.symm.trans hr₂)
    have := hclosed.uncalled _ (mem_parts (List.mem_of_getElem? hr₁) hmem)
    simp [Element.calls] at this
  refine ⟨huncalled, h.isStop_stop htop, ?_, fun s hs hrule => ?_, fun q t ht hacc => ?_⟩
  · rw [List.eq_nil_iff_forall_not_mem]
    intro t ht
    rw [h.state_eq] at ht
    obtain ⟨-, q, start, level, follow, hcall, -⟩ := (h.finished.stop_ways top htop t).mp ht
    refine huncalled q start follow level ?_
    rw [h.state_eq]
    exact hcall
  · obtain ⟨i, hi, rfl⟩ := h.of_isStop hs
    rw [h.rule_stop hi] at hrule
    rw [hrule]
  · rcases h.way_cases hparser ht with ⟨i, -, -, entry, hways, -⟩ | ⟨i, -, -, p, _, _, _, -, rfl⟩ |
      ⟨hge, hlt, r', i, hr', hinside⟩
    · rw [hways, List.mem_singleton] at ht
      subst ht
      cases hacc
    · cases hacc
    · -- No way on of a wired state matches the end of the input unless one of its parts does.
      have hwired : ∀ parts, d.Wired i parts q → ∃ e ∈ parts, e.matchesEof = true := by
        intro parts hwired
        have ht' : t ∈ d.ways q := by
          rw [h.state_eq] at ht
          exact ht
        rcases hwired.ways with hall | ⟨-, t', p, hone, -, e, he, hcomes⟩
        · obtain ⟨p, rfl, -⟩ := hall t ht'
          cases hacc
        · rw [hone, List.mem_singleton] at ht'
          subst ht'
          exact ⟨e, he, hcomes.matchesEof hacc⟩
      have hi : i = top := by
        by_contra hne
        obtain ⟨e, he, heof⟩ := hwired _ hinside.wired
        rw [hclosed.outer r' (List.mem_of_getElem? hr')
          (fun hname => hne (h.index_inj hr' hr hname)) e he] at heof
        cases heof
      subst hi
      obtain rfl := Option.some.inj (hr.symm.trans hr')
      rcases hinside.tail es _ hclosed.body_eq with hw | ⟨exit, hways, hexit_ge, hexit_lt, hexit⟩ |
        hways
      · obtain ⟨e, he, heof⟩ := hwired _ hw
        rw [hclosed.inner e he] at heof
        cases heof
      · have ht' : t ∈ d.ways q := by
          rw [h.state_eq] at ht
          exact ht
        rw [hways, List.mem_singleton] at ht'
        subst ht'
        refine ⟨?_, h.isStop_inside hexit_ge hexit_lt, by rw [h.state_eq]; exact hexit⟩
        rcases h.inside_cases hinside ht with ⟨p, heq, -⟩ | ⟨-, -, p, hp, e, -, hcomes⟩
        · cases heq
        · rw [hcomes.target_eq rfl]
          exact hp
      · rw [h.state_eq] at ht
        have ht' : t ∈ d.ways q := ht
        rw [hways, List.mem_singleton] at ht'
        subst ht'
        cases hacc

/-- **Where a decision is taken** the ways on are plain steps, and no rule ends. -/
theorem of_decision (h : g.Built net modeStarts d) (hparser : g.kind = .parser) {q : StateId}
    (hq : (net.state q).decision ≠ none) :
    net.isStop q = false ∧ ∀ t ∈ (net.state q).transitions, ∃ p, t = .epsilon p := by
  rw [h.state_eq] at hq
  have hlt : q < d.size := by
    refine Nat.lt_of_not_le fun hge => hq ?_
    rw [Draft.state, Array.getElem?_eq_none hge]
    rfl
  have hge : g.frameSize ≤ q := by
    refine Nat.le_of_not_lt fun hframe => hq (h.framed.decision q hframe ?_)
    rw [show g.modeCount = 0 from if_neg (by rw [hparser]; decide)]
    exact Nat.zero_le q
  obtain ⟨r, i, -, hinside⟩ := h.finished.bodied.inside q hge hlt
  refine ⟨h.isStop_inside hge hlt, fun t ht => ?_⟩
  rcases h.inside_cases hinside ht with ⟨p, rfl, -⟩ | ⟨-, hdecision, -⟩
  · exact ⟨p, rfl⟩
  · rw [h.state_eq] at hdecision
    exact absurd hdecision hq

/-- **Where no decision is taken** there is at most one way on. -/
theorem length_le_one (h : g.Built net modeStarts d) (hparser : g.kind = .parser) {q : StateId}
    (hstop : net.isStop q = false) (hq : (net.state q).decision = none) :
    (net.state q).transitions.length ≤ 1 := by
  cases hways : (net.state q).transitions with
  | nil => exact Nat.zero_le _
  | cons t ts =>
    rw [← hways]
    rcases h.way_cases hparser (t := t) (by rw [hways]; exact List.mem_cons_self ..) with
      ⟨i, -, -, entry, hone, -⟩ | ⟨i, hi, rfl, -⟩ | ⟨-, -, r, i, -, hinside⟩
    · rw [hone]
      exact Nat.le_refl _
    · rw [h.isStop_stop hi] at hstop
      cases hstop
    · rw [h.state_eq] at hq ⊢
      exact hinside.wired.plain hq

theorem isLexer_eq (h : g.Built net modeStarts d) (hparser : g.kind = .parser) :
    net.isLexer = false := by
  rw [h.network_eq, Network.isLexer]
  simp [Grammar.network, hparser]

/-- What is found by its name is a rule. -/
theorem exists_rule (h : g.Built net modeStarts d) {name : String} {i : Nat}
    (hi : net.ruleIndex? name = some i) : ∃ r, g.rules[i]? = some r := by
  have hnames : net.ruleNames = g.rules.map Rule.name := by rw [h.network_eq]; rfl
  obtain ⟨hlt, -⟩ := List.idxOf?_eq_some_iff.mp hi
  rw [hnames, List.length_map] at hlt
  exact ⟨_, List.getElem?_eq_getElem hlt⟩

/-- Rules are found by their names. -/
theorem ruleIndex?_eq (h : g.Built net modeStarts d) {i : Nat} {r : Rule}
    (hr : g.rules[i]? = some r) : net.ruleIndex? r.name = some i := by
  have hnames : net.ruleNames = g.rules.map Rule.name := by rw [h.network_eq]; rfl
  obtain ⟨hlt, hget⟩ := List.getElem?_eq_some_iff.mp hr
  unfold Network.ruleIndex?
  rw [hnames, List.idxOf?_eq_some_iff]
  refine ⟨by rwa [List.length_map], by rw [List.getElem_map, hget], fun j hj heq => ?_⟩
  rw [List.getElem_map] at heq
  have := h.index_inj (List.getElem?_eq_getElem (Nat.lt_trans hj hlt)) hr heq
  exact absurd this (Nat.ne_of_lt hj)

end Grammar.Built

end AdaptiveLL
