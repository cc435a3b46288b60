import AdaptiveLL.Proofs.Grammar.Reading
import AdaptiveLL.Proofs.Grammar.Shape
import AdaptiveLL.Proofs.Lexing.Plain

/-!
# The networks of lexer grammars

A lexer grammar without conditions, whose options and loops are greedy and which does not match the
end of the input, has a plain network. The alternatives of a mode are its token rules, in the order in
which they are declared, and a strand that has completed its token has read a word of its rule.
-/

namespace AdaptiveLL

namespace Grammar

/-- **A grammar of tokens only:** a lexer grammar without conditions in which every option and every
loop is greedy and nothing matches the end of the input. -/
structure Tokenizes (g : Grammar) : Prop where
  kind_eq : g.kind = .lexer
  unconditional : g.Unconditional
  greedy : ∀ e ∈ g.parts, e.isLazy = false
  inner : ∀ e ∈ g.parts, e.matchesEof = false

/-- **A token rule of a mode:** the rule of that number gives tokens of the type. -/
structure TokenRule (g : Grammar) (mode i : Nat) (r : Rule) (type : Int) : Prop where
  rule_eq : g.rules[i]? = some r
  type_eq : r.tokenType = some type
  mode_eq : g.ruleMode r = mode

/-- The alternatives of a mode begin where its token rules do. -/
theorem mem_tokenStarts {g : Grammar} {mode : Nat} {s : StateId} :
    s ∈ g.tokenStarts mode g.rules.zipIdx ↔
      ∃ i r type, g.TokenRule mode i r type ∧ s = g.startState i := by
  unfold tokenStarts
  simp only [List.mem_filterMap, Prod.exists, List.mem_zipIdx_iff_getElem?, Bool.and_eq_true,
    Option.isSome_iff_exists, beq_iff_eq, Option.ite_none_right_eq_some, Option.some.injEq]
  constructor
  · rintro ⟨r, i, hr, ⟨⟨type, htype⟩, hmode⟩, rfl⟩
    exact ⟨i, r, type, ⟨hr, htype, hmode⟩, rfl⟩
  · rintro ⟨i, r, type, ⟨hr, htype, hmode⟩, rfl⟩
    exact ⟨r, i, hr, ⟨⟨type, htype⟩, hmode⟩, rfl⟩

/-- Rules declared earlier come first. -/
theorem sorted_tokenStarts (g : Grammar) (mode : Nat) :
    (g.tokenStarts mode g.rules.zipIdx).Pairwise (· < ·) := by
  have hzip : g.rules.zipIdx.Pairwise fun a b => a.2 < b.2 := by
    rw [← List.pairwise_map, List.zipIdx_map_snd]
    exact List.pairwise_lt_range'
  unfold tokenStarts
  refine List.pairwise_filterMap.mpr (hzip.imp fun hlt s hs s' hs' => ?_)
  obtain rfl := Option.some.inj (Option.ite_none_right_eq_some.mp hs).2
  obtain rfl := Option.some.inj (Option.ite_none_right_eq_some.mp hs').2
  exact Nat.add_lt_add_left (Nat.mul_lt_mul_of_pos_left hlt Nat.two_pos) _

/-- What matches the end of the input does so whatever the characters are. -/
private theorem accepts_eof {t : Transition}
    (h : t.accepts Symbol.eof Symbol.firstChar Symbol.lastChar = true) :
    t.accepts Symbol.eof 0 1 = true := by
  cases t <;> simp_all [Transition.accepts, Symbol.eof, Symbol.firstChar]

namespace Built

variable {g : Grammar} {net : Network} {modeStarts : List StateId} {d : Draft}

theorem isLexer_of_lexer (h : g.Built net modeStarts d) (hlexer : g.kind = .lexer) :
    net.isLexer = true := by
  rw [h.network_eq, Network.isLexer]
  simp [Grammar.network, hlexer]

theorem modeStart_iff (h : g.Built net modeStarts d) (hlexer : g.kind = .lexer) {mode : Nat}
    {entry : StateId} : net.modeStarts[mode]? = some entry ↔ mode < g.modes.length ∧ entry = mode := by
  have hcount : g.modeCount = g.modes.length := if_pos hlexer
  rw [h.network_eq]
  change modeStarts[mode]? = some entry ↔ _
  rw [h.finished.modes_eq, hcount]
  by_cases hmode : mode < g.modes.length
  · simp [hmode, eq_comm]
  · simp [hmode]

/-- **The type of a token rule** is what the end of the rule answers. -/
theorem ruleTokenType_eq (h : g.Built net modeStarts d) (hlexer : g.kind = .lexer) {mode i : Nat}
    {r : Rule} {type : Int} (hr : g.TokenRule mode i r type) :
    net.ruleTokenTypes[(net.state (g.stopState i)).rule]? = some type := by
  rw [h.rule_stop (List.getElem?_eq_some_iff.mp hr.rule_eq).1, h.network_eq]
  simp [Grammar.network, hlexer, hr.rule_eq, hr.type_eq]

section Alternatives

variable {mode : Nat}

private theorem alternatives_eq (h : g.Built net modeStarts d) (hmode : mode < g.modeCount) :
    (net.state mode).transitions = (g.tokenStarts mode g.rules.zipIdx).map .epsilon := by
  rw [h.state_eq]
  exact h.finished.mode_ways mode hmode

/-- An alternative of a mode is one of its token rules. -/
theorem of_alternative (h : g.Built net modeStarts d) (hmode : mode < g.modeCount) {t : Transition}
    (ht : t ∈ (net.state mode).transitions) :
    ∃ i r type, g.TokenRule mode i r type ∧ t = .epsilon (g.startState i) := by
  rw [h.alternatives_eq hmode] at ht
  obtain ⟨s, hs, rfl⟩ := List.mem_map.mp ht
  obtain ⟨i, r, type, hr, rfl⟩ := mem_tokenStarts.mp hs
  exact ⟨i, r, type, hr, rfl⟩

/-- A token rule of a mode is one of its alternatives. -/
theorem alternative_of_tokenRule (h : g.Built net modeStarts d) (hmode : mode < g.modeCount)
    {i : Nat} {r : Rule} {type : Int} (hr : g.TokenRule mode i r type) :
    .epsilon (g.startState i) ∈ (net.state mode).transitions := by
  rw [h.alternatives_eq hmode]
  exact List.mem_map_of_mem (mem_tokenStarts.mpr ⟨i, r, type, hr, rfl⟩)

/-- **Alternatives are in the order of their rules.** -/
theorem alternatives_ordered (h : g.Built net modeStarts d) (hmode : mode < g.modeCount)
    {k k' i i' : Nat} (hk : (net.state mode).transitions[k]? = some (.epsilon (g.startState i)))
    (hk' : (net.state mode).transitions[k']? = some (.epsilon (g.startState i'))) (hle : k ≤ k') :
    i ≤ i' := by
  rw [h.alternatives_eq hmode, List.getElem?_map] at hk hk'
  obtain ⟨s, hs, hstart⟩ := Option.map_eq_some_iff.mp hk
  obtain ⟨s', hs', hstart'⟩ := Option.map_eq_some_iff.mp hk'
  obtain rfl := Transition.epsilon.inj hstart
  obtain rfl := Transition.epsilon.inj hstart'
  obtain ⟨hlt, hs⟩ := List.getElem?_eq_some_iff.mp hs
  obtain ⟨hlt', hs'⟩ := List.getElem?_eq_some_iff.mp hs'
  suffices hstates : g.startState i ≤ g.startState i' by
    unfold startState at hstates
    omega
  rcases Nat.eq_or_lt_of_le hle with rfl | hlt''
  · exact (hs.symm.trans hs').le
  · have := List.pairwise_iff_getElem.mp (g.sorted_tokenStarts mode) k k' hlt hlt' hlt''
    rw [hs, hs'] at this
    exact Nat.le_of_lt this

end Alternatives

/-- A way on in a lexer that is no plain step is the only one, and comes from a part of a rule. -/
theorem lexer_ways (h : g.Built net modeStarts d) (hlexer : g.kind = .lexer) {q : StateId}
    {t : Transition} (ht : t ∈ (net.state q).transitions) : (∃ p, t = .epsilon p) ∨
      (net.state q).transitions = [t] ∧ ∃ i p e, e ∈ g.parts ∧ d.Comes i p e t := by
  rcases h.ways_cases ht with ⟨-, i, -, rfl⟩ | ⟨i, -, -, entry, hone, -⟩ | ⟨_, _, _, hparser, _⟩ |
    ⟨-, -, r, i, hr, hinside⟩
  · exact .inl ⟨_, rfl⟩
  · rw [hone, List.mem_singleton] at ht
    exact .inl ⟨entry, ht⟩
  · cases hlexer.symm.trans hparser
  · rcases h.inside_cases hinside ht with ⟨p, rfl, -⟩ | ⟨hone, -, p, -, e, he, hcomes⟩
    · exact .inl ⟨p, rfl⟩
    · exact .inr ⟨hone, i, p, e, mem_parts (List.mem_of_getElem? hr) he, hcomes⟩

/-- **The end of the input leads nowhere** in a lexer in which nothing matches it. -/
theorem stopsAtEof (h : g.Built net modeStarts d) (hlexer : g.kind = .lexer)
    (hinner : ∀ e ∈ g.parts, e.matchesEof = false) : net.StopsAtEof := by
  intro q t ht
  rcases h.lexer_ways hlexer ht with ⟨p, rfl⟩ | ⟨-, i, p, e, he, hcomes⟩
  · rfl
  · refine Bool.eq_false_of_not_eq_true fun hacc => ?_
    exact absurd ((hinner e he).symm.trans (hcomes.matchesEof (accepts_eof hacc))) nofun

/-- Where a token ends there is no way on. -/
theorem lexer_stop_ways (h : g.Built net modeStarts d) (hlexer : g.kind = .lexer) {q : StateId}
    (hq : net.isStop q = true) : (net.state q).transitions = [] := by
  obtain ⟨i, hi, rfl⟩ := h.of_isStop hq
  refine List.eq_nil_iff_forall_not_mem.mpr fun t ht => ?_
  rw [h.state_eq] at ht
  cases hlexer.symm.trans ((h.finished.stop_ways i hi t).mp ht).1

/-- **The network of a grammar of tokens is plain.** -/
theorem plain (h : g.Built net modeStarts d) (hg : g.Tokenizes) : net.Plain := by
  refine ⟨h.isLexer_of_lexer hg.kind_eq, fun q t ht => ?_, fun q => ?_,
    h.stopsAtEof hg.kind_eq hg.inner, fun q t ht heps => ?_,
    fun q hq => h.lexer_stop_ways hg.kind_eq hq⟩
  · rcases h.lexer_ways hg.kind_eq ht with ⟨p, rfl⟩ | ⟨-, i, p, e, he, hcomes⟩
    · rfl
    · exact hcomes.guard?_eq (hg.unconditional e he)
  · suffices hgreedy : (net.state q).nonGreedy = false by
      unfold State.isLazy
      rw [hgreedy, Bool.and_false]
    rw [h.state_eq]
    refine Bool.eq_false_of_not_eq_true fun hlazy => ?_
    rcases Nat.lt_or_ge q d.size with hlt | hge
    · rcases Nat.lt_or_ge q g.frameSize with hframe | hframe
      · exact absurd ((h.framed.greedy q hframe).symm.trans hlazy) nofun
      · obtain ⟨r, i, hri, hinside⟩ := h.finished.bodied.inside q hframe hlt
        obtain ⟨e, he, hlazy'⟩ := hinside.wired.greedy hlazy
        have hr := List.mem_zipIdx_iff_getElem?.mp hri
        exact absurd ((hg.greedy e (mem_parts (List.mem_of_getElem? hr) he)).symm.trans hlazy') nofun
    · rw [Draft.state, Array.getElem?_eq_none hge] at hlazy
      cases hlazy
  · rcases h.lexer_ways hg.kind_eq ht with ⟨p, rfl⟩ | ⟨hone, -⟩
    · cases heps
    · exact hone

end Built

end Grammar

end AdaptiveLL
