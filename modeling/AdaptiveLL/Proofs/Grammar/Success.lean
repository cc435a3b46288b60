import AdaptiveLL.Proofs.Grammar.Compiled
import AdaptiveLL.Proofs.Grammar.Refusals
import AdaptiveLL.Proofs.Network.Passing

/-!
# When grammars compile

A grammar compiles exactly if its rules differ in their names, every call names a rule and every
construct belongs to the kind of the grammar: what is laid out then passes the check. In the network
each state inside a rule has one way on, or it is a decision, whose ways on are the alternatives of
an element in their order.
-/

namespace AdaptiveLL

namespace Grammar

/-! ## Descriptions -/

/-- **The grammar is described** step by step, from one without rules and with a single mode. -/
inductive Described : Grammar → Prop where
  | start (kind : GrammarKind) (name : String) : Described { kind, name }
  | withVocabulary {g : Grammar} (names : List String) :
      Described g → Described (g.withVocabulary names)
  | addRule {g : Grammar} (name : String) (body : Element) (tokenType : Option Int) :
      Described g → Described (g.addRule name body tokenType)
  | addMode {g : Grammar} (name : String) : Described g → Described (g.addMode name)

/-- What is described has a mode. -/
theorem Described.modes_ne {g : Grammar} (h : g.Described) : g.modes ≠ [] := by
  induction h with
  | start => exact List.cons_ne_nil _ _
  | withVocabulary _ _ ih => exact ih
  | addRule _ _ _ _ ih => exact ih
  | addMode name _ _ => exact List.append_ne_nil_of_right_ne_nil _ (List.cons_ne_nil _ _)

theorem modeCount_pos {g : Grammar} (hmodes : g.modes ≠ []) (hkind : g.kind = .lexer) :
    0 < g.modeCount := by
  rw [modeCount, if_pos hkind]
  exact List.length_pos_iff.mpr hmodes

end Grammar

/-! ## What is laid out passes the check -/

namespace Finished

variable {g : Grammar} {modeStarts : List StateId} {d : Draft} {q : StateId} {t : Transition}

private theorem lt_of_frame (h : Finished g modeStarts d) (hq : q < g.frameSize) : q < d.size :=
  Nat.lt_of_lt_of_le hq h.bodied.framed.size_ge

/-- **A call** names a rule by its start, and goes on at a state that there is. -/
theorem of_call (h : Finished g modeStarts d) {start follow : StateId} {callee : Nat} {level : Int}
    (ht : Transition.rule start callee follow level ∈ d.ways q) :
    callee < g.rules.length ∧ start = g.startState callee ∧ follow < d.size := by
  obtain ⟨r, i, -, p, hp, e, -, hcomes⟩ := h.of_not_epsilon ht nofun
  obtain ⟨name, -, rfl, hn⟩ := hcomes.of_call rfl
  obtain ⟨r', hr', -, hstart⟩ := h.bodied.framed.of_names hn
  exact ⟨(List.getElem?_eq_some_iff.mp hr').1, hstart, hp.lt⟩

/-- All ways on lead to states that there are. -/
theorem target_lt (h : Finished g modeStarts d) (ht : t ∈ d.ways q) : t.target < d.size := by
  rcases h.ways_cases ht with ⟨-, i, hi, rfl⟩ | ⟨i, -, -, entry, hways, hown⟩ |
    ⟨i, -, -, -, p, start, level, follow, hcall, rfl⟩ | ⟨-, -, r, i, -, hinside⟩
  · exact h.lt_of_frame (g.startState_lt hi)
  · rw [hways, List.mem_singleton] at ht
    exact ht ▸ hown.lt
  · exact (h.of_call hcall).2.2
  · rcases hinside.wired.ways with hall | ⟨-, t', p, hone, hp, e, -, hcomes⟩
    · obtain ⟨p, rfl, hown⟩ := hall t ht
      exact hown.lt
    · have ht' := ht
      rw [hone, List.mem_singleton] at ht'
      subst ht'
      cases hcomes with
      | leaf hleaf => cases hleaf <;> exact hp.lt
      | char => exact hp.lt
      | call =>
        obtain ⟨hcallee, heq, -⟩ := h.of_call ht
        exact heq ▸ h.lt_of_frame (g.startState_lt hcallee)

/-- A condition on the precedence comes from one in the body of a rule. -/
private theorem of_precedence (h : Finished g modeStarts d) {target : StateId} {level : Int}
    (ht : Transition.precedence target level ∈ d.ways q) :
    ∃ r ∈ g.rules, .precedence level ∈ r.body.parts := by
  obtain ⟨r, i, hr, p, -, e, he, hcomes⟩ := h.of_not_epsilon ht nofun
  exact ⟨r, List.mem_of_getElem? hr, hcomes.of_precedence rfl ▸ he⟩

/-- **What is laid out for a grammar whose elements fit passes the check.** -/
theorem passing (h : Finished g modeStarts d) (hmodes : g.modes ≠ [])
    (hfit : ∀ r ∈ g.rules, r.body.FitsIn g.kind (g.rules.map Rule.name)) :
    (g.network modeStarts d).Passing := by
  have hframed := h.bodied.framed
  have hcount : (g.network modeStarts d).ruleCount = g.rules.length := List.length_map _
  have hkind : (g.network modeStarts d).isLexer = true → g.kind = .lexer := fun hl => by
    simpa [Network.isLexer, Grammar.network] using hl
  refine ⟨?_, ?_, fun i s hs => ?_, fun i s hs => ?_, h.bodied.filed.index_eq, fun q hq hne => ?_,
    fun q _ t ht => h.target_lt ht, fun q _ t ht => ?_, h.bodied.filed.decision_iff, fun hl => ?_⟩
  · rw [hcount]
    change d.ruleStarts.size = _
    simp [hframed.starts_eq]
  · rw [hcount]
    change d.ruleStops.size = _
    simp [hframed.stops_eq]
  · obtain ⟨hi, rfl⟩ := hframed.start_iff.mp hs
    exact ⟨h.lt_of_frame (g.startState_lt hi), hframed.start_kind i hi, hframed.start_rule i hi⟩
  · obtain ⟨hi, rfl⟩ := hframed.stop_iff.mp hs
    exact ⟨h.lt_of_frame (g.stopState_lt hi), hframed.stop_kind i hi, hframed.stop_rule i hi⟩
  · rw [hcount]
    change (d.state q).rule < _
    rcases Nat.lt_or_ge q g.frameSize with hframe | hframe
    · rcases Grammar.frame_cases hframe with hm | ⟨i, hi, rfl | rfl⟩
      · exact absurd (hframed.mode_kind q hm) hne
      · rwa [hframed.start_rule i hi]
      · rwa [hframed.stop_rule i hi]
    · obtain ⟨r, i, hri, hinside⟩ := h.bodied.inside q hframe hq
      rw [hinside.wired.rule_eq]
      exact (List.getElem?_eq_some_iff.mp (List.mem_zipIdx_iff_getElem?.mp hri)).1
  · cases t with
    | rule target callee follow level =>
      obtain ⟨hcallee, hstart, hfollow⟩ := h.of_call ht
      exact ⟨hfollow, hframed.start_iff.mpr ⟨hcallee, hstart⟩⟩
    | precedence target level =>
      obtain ⟨r, hr, hmem⟩ := h.of_precedence ht
      have hparser : g.kind = .parser := beq_iff_eq.mp (hfit r hr _ hmem)
      simp [Transition.Fits, Network.isLexer, Grammar.network, hparser]
    | action target rule index contextual =>
      exact fun hl => h.bodied.filed.runs q _ ht target rule index contextual rfl
        (hframed.kind_eq.trans (hkind hl))
    | _ => trivial
  · have hpos := Grammar.modeCount_pos hmodes (hkind hl)
    have hmodeStarts : (g.network modeStarts d).modeStarts = List.range g.modeCount := h.modes_eq
    refine ⟨?_, fun s hs => ?_, ?_⟩
    · rw [hcount]
      change (if g.kind = .lexer then _ else _ : List Int).length = _
      rw [if_pos (hkind hl), List.length_map]
    · rw [hmodeStarts, List.mem_range] at hs
      exact ⟨h.lt_of_frame (Nat.lt_of_lt_of_le hs (Nat.le_add_right _ _)), hframed.mode_kind s hs⟩
    · rw [hmodeStarts]
      exact fun hnil => absurd (List.range_eq_nil.mp hnil) (Nat.ne_of_gt hpos)

end Finished

namespace Grammar

/-- **A grammar compiles** exactly if its rules differ in their names and all elements fit. -/
theorem exists_compile_iff {g : Grammar} (hmodes : g.modes ≠ []) : (∃ net, g.compile = .ok net) ↔
    (g.rules.map Rule.name).Nodup ∧
      ∀ r ∈ g.rules, r.body.FitsIn g.kind (g.rules.map Rule.name) := by
  have hsucceeds := Layout.grammar_succeeds g g.draft rfl rfl
  constructor
  · rintro ⟨net, hnet⟩
    obtain ⟨_, _, hnames, hrun, -⟩ := of_compile hnet
    rw [hrun] at hsucceeds
    exact ⟨repeatedName?_nil.mp hnames, hsucceeds.1⟩
  · rintro ⟨hnodup, hfit⟩
    unfold compile
    rw [repeatedName?_nil.mpr hnodup]
    cases hrun : (Layout.grammar g).run g.draft with
    | error e d =>
      rw [hrun] at hsucceeds
      exact absurd hfit hsucceeds
    | ok modeStarts d =>
      obtain ⟨-, hfinished⟩ := (Layout.grammar_lays g).apply hrun
      have hcheck := Network.check_eq_ok_iff.mpr
        ((hfinished fun hkind => modeCount_pos hmodes hkind).passing hmodes hfit)
      refine ⟨g.network modeStarts d, ?_⟩
      change ((g.network modeStarts d).check >>= fun _ => pure (g.network modeStarts d)) = _
      rw [hcheck]
      rfl

end Grammar

/-! ## Decisions of compiled networks -/

/-- The network has a rule of the name, with a number and a start state. -/
def Network.Declares (net : Network) (name : String) (rule : Nat) (start : StateId) : Prop :=
  net.ruleNames.idxOf? name = some rule ∧ net.ruleStarts[rule]? = some start

/-- **The decisions of the network are those of the grammar.** -/
structure Network.Decided (net : Network) (g : Grammar) : Prop where
  /-- A state that is no decision and ends no rule has one way on. -/
  oneWay : ∀ q < net.states.size, net.isStop q = false → (net.state q).decision = none →
    ∃ t, (net.state q).transitions = [t]
  /-- The decision table and the decisions name each other. -/
  decision_iff : ∀ (k : Nat) (s : StateId),
    net.decisions[k]? = some s ↔ s < net.states.size ∧ (net.state s).decision = some k
  /-- A decision is between the token rules of a mode, or the alternatives of an element. -/
  ways : ∀ s < net.states.size, (net.state s).decision ≠ none →
    (∃ m, net.modeStarts[m]? = some s ∧
      (net.state s).transitions = (g.tokenStarts m g.rules.zipIdx).map .epsilon) ∨
    ∃ i r, g.rules[i]? = some r ∧ ∃ e ∈ r.body.parts, DecidedAt net.state net.Declares i e s

namespace Grammar

namespace Built

variable {g : Grammar} {net : Network} {modeStarts : List StateId} {d : Draft}

/-- The names of the draft are those of the network. -/
private theorem names_eq (h : g.Built net modeStarts d) : d.Names = net.Declares := by
  funext name rule start
  have hnames : net.ruleNames = d.ruleNames := by
    rw [h.network_eq, h.framed.names_eq]
    rfl
  refine propext ⟨fun hn => ⟨hnames ▸ hn.name_eq, ?_⟩, fun ⟨hname, hstart⟩ => ⟨hnames ▸ hname, ?_⟩⟩
  · obtain ⟨r, hr, -, rfl⟩ := h.framed.of_names hn
    exact h.start_iff.mpr ⟨(List.getElem?_eq_some_iff.mp hr).1, rfl⟩
  · obtain ⟨hrule, rfl⟩ := h.start_iff.mp hstart
    exact h.framed.getD_start hrule

/-- **What is built decides as the grammar does.** -/
theorem decided (h : g.Built net modeStarts d) : net.Decided g := by
  have hsize : net.states.size = d.size := by
    rw [h.network_eq]
    rfl
  have hstate : net.state = d.state := funext h.state_eq
  have hbodied := h.finished.bodied
  have hframed := h.framed
  have hsettled : ∀ q, g.frameSize ≤ q → q < d.size → ∃ i r, g.rules[i]? = some r ∧
      Settled net.state net.Declares i r.body.parts q := by
    intro q hge hlt
    obtain ⟨r, i, hri, hsettled⟩ := hbodied.settled d.state (fun _ _ _ => rfl) q hge hlt
    rw [hstate, ← h.names_eq]
    exact ⟨i, r, List.mem_zipIdx_iff_getElem?.mp hri, hsettled⟩
  refine ⟨fun q hq hstop hnone => ?_, fun k s => ?_, fun s hs hdecision => ?_⟩
  · rcases Nat.lt_or_ge q g.frameSize with hframe | hframe
    · rw [hstate] at hnone ⊢
      rcases Grammar.frame_cases hframe with hm | ⟨i, hi, rfl | rfl⟩
      · exact absurd hnone (hframed.mode_decision q hm)
      · obtain ⟨entry, _, hways, -⟩ := hbodied.body g.rules[i] i
          (List.mem_zipIdx_iff_getElem?.mpr (List.getElem?_eq_getElem hi))
        exact ⟨_, hways⟩
      · rw [h.isStop_stop hi] at hstop
        cases hstop
    · obtain ⟨i, r, -, hone | ⟨hdecision, -⟩⟩ := hsettled q hframe (hsize ▸ hq)
      · exact List.length_eq_one_iff.mp hone.ways
      · exact absurd hnone hdecision
  · rw [hstate, hsize, h.network_eq]
    exact hbodied.filed.decision_iff k s
  · rcases Nat.lt_or_ge s g.frameSize with hframe | hframe
    · rw [hstate] at hdecision
      rcases Nat.lt_or_ge s g.modeCount with hm | hge
      · refine .inl ⟨s, ?_, ?_⟩
        · rw [h.network_eq]
          change modeStarts[s]? = some s
          rw [h.finished.modes_eq, List.getElem?_range hm]
        · rw [hstate]
          exact h.finished.mode_ways s hm
      · exact absurd (hframed.decision s hframe hge) hdecision
    · obtain ⟨i, r, hr, hone | ⟨-, e, he, hat⟩⟩ := hsettled s hframe (hsize ▸ hs)
      · exact absurd hone.decision_eq hdecision
      · exact .inr ⟨i, r, hr, e, he, hat⟩

end Built

/-- **A described grammar compiles** exactly if its rules differ in their names and all elements
fit, and the network decides as the grammar does. -/
theorem compiles_iff_and_decided {g : Grammar} (h : g.Described) :
    ((∃ net, g.compile = .ok net) ↔ (g.rules.map Rule.name).Nodup ∧
      ∀ r ∈ g.rules, r.body.FitsIn g.kind (g.rules.map Rule.name)) ∧
        ∀ net, g.compile = .ok net → net.Decided g := by
  refine ⟨exists_compile_iff h.modes_ne, fun net hnet => ?_⟩
  obtain ⟨_, _, hbuilt⟩ := exists_built hnet
  exact hbuilt.decided

/-- A loop that is left as early as possible, around a choice, and a rule with an option that it
refers to. -/
def pairs : Grammar :=
  (Grammar.addRule { kind := .parser, name := "Pairs" } "pairs"
    (.star (.alt [.ruleRef "pair" 0, .token 3]) false)).addRule "pair"
      (.seq [.token 1, .optional (.token 2) true])

theorem pairs_compiles_and_decided : pairs.Described ∧
    ∃ net, pairs.compile = .ok net ∧ net.Decided pairs := by
  have hdescribed : pairs.Described := .addRule _ _ _ (.addRule _ _ _ (.start _ _))
  obtain ⟨hcompiles, hdecided⟩ := compiles_iff_and_decided hdescribed
  obtain ⟨net, hnet⟩ := hcompiles.mpr (by decide)
  exact ⟨hdescribed, net, hnet, hdecided net hnet⟩

end Grammar

end AdaptiveLL
