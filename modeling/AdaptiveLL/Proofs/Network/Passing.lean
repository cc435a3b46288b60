import AdaptiveLL.Network.Check
import Mathlib.Data.List.Basic

/-!
# What the check asks for

`Network.Passing` lists what has to hold of the tables, states and transitions of a network, and a
network passes the check exactly if it does. So the transitions and tables of a network that passes
name only states and rules that it has (`Referring`). The check looks neither at the partners of
states nor at the rules to which conditions and actions belong: those may be any (`check_promises`).
-/

namespace AdaptiveLL

/-! ## Checks one after the other -/

section Except

variable {ε α : Type}

private theorem throw_ne_ok {e : ε} {a : α} : (throw e : Except ε α) ≠ .ok a := nofun

/-- A check that may refuse and goes on otherwise. -/
private theorem unless_iff {p : Prop} [Decidable p] {e : ε} {f : Unit → Except ε Unit} :
    (if p then throw e >>= f else f ()) = .ok () ↔ ¬p ∧ f () = .ok () := by
  by_cases hp : p
  · rw [if_pos hp]
    exact ⟨nofun, fun h => absurd hp h.1⟩
  · rw [if_neg hp]
    exact ⟨fun h => ⟨hp, h⟩, fun h => h.2⟩

private theorem refuse_iff {p : Prop} [Decidable p] {e : ε} :
    (if p then throw e else pure () : Except ε Unit) = .ok () ↔ ¬p := by
  by_cases hp : p
  · rw [if_pos hp]
    exact ⟨nofun, fun h => absurd hp h⟩
  · rw [if_neg hp]
    exact ⟨fun _ => hp, fun _ => rfl⟩

private theorem bind_iff {x : Except ε Unit} {f : Unit → Except ε Unit} :
    (x >>= f) = .ok () ↔ x = .ok () ∧ f () = .ok () := by
  cases x with
  | error e => exact ⟨nofun, fun h => nomatch h.1⟩
  | ok u => exact ⟨fun h => ⟨rfl, h⟩, fun h => h.2⟩

/-- A list is checked item by item. -/
theorem forM_eq_ok_iff {f : α → Except ε Unit} {l : List α} :
    l.forM f = .ok () ↔ ∀ x ∈ l, f x = .ok () := by
  induction l with
  | nil => exact ⟨fun _ => nofun, fun _ => rfl⟩
  | cons a l ih =>
    change (f a >>= fun _ => l.forM f) = .ok () ↔ _
    rw [bind_iff, ih, List.forall_mem_cons]

end Except

/-! ## What is asked for -/

/-- **The transition fits a network:** a call names a rule by its start state and a state to go on
at, conditions on the precedence stand in parsers, and the command of a lexer is in its table. -/
def Transition.Fits (net : Network) : Transition → Prop
  | .rule target callee follow _ =>
      follow < net.states.size ∧ net.ruleStarts[callee]? = some target
  | .precedence .. => net.isLexer = false
  | .action _ _ index _ => net.isLexer = true → index < net.commands.length
  | _ => True

/-- The states the transition names. -/
def Transition.states (t : Transition) : List StateId := t.target :: t.follow?.toList

theorem Transition.mem_states {t : Transition} {s : StateId} :
    s ∈ t.states ↔ s = t.target ∨ t.follow? = some s := by
  simp [Transition.states]

theorem Transition.Fits.follow_lt {net : Network} {t : Transition} {s : StateId} (h : t.Fits net)
    (hs : t.follow? = some s) : s < net.states.size := by
  cases t with
  | rule target callee follow level => exact Option.some.inj hs ▸ h.1
  | _ => cases hs

namespace Network

/-- The state is there, is of a kind and belongs to a rule. -/
structure Boundary (net : Network) (kind : StateKind) (rule : Nat) (s : StateId) : Prop where
  lt : s < net.states.size
  kind_eq : (net.state s).kind = kind
  rule_eq : (net.state s).rule = rule

/-- The tables that a lexer has to have. -/
structure Lexes (net : Network) : Prop where
  types_length : net.ruleTokenTypes.length = net.ruleCount
  mode : ∀ s ∈ net.modeStarts, s < net.states.size ∧ (net.state s).kind = .tokensStart
  modes_ne : net.modeStarts ≠ []

/-- **What the check asks of a network.** -/
structure Passing (net : Network) : Prop where
  starts_size : net.ruleStarts.size = net.ruleCount
  stops_size : net.ruleStops.size = net.ruleCount
  start : ∀ (rule : Nat) (s : StateId), net.ruleStarts[rule]? = some s → net.Boundary .ruleStart rule s
  stop : ∀ (rule : Nat) (s : StateId), net.ruleStops[rule]? = some s → net.Boundary .ruleStop rule s
  index_eq : ∀ q < net.states.size, (net.state q).index = q
  rule_lt : ∀ q < net.states.size, (net.state q).kind ≠ .tokensStart →
    (net.state q).rule < net.ruleCount
  target_lt : ∀ q < net.states.size, ∀ t ∈ (net.state q).transitions, t.target < net.states.size
  fits : ∀ q < net.states.size, ∀ t ∈ (net.state q).transitions, t.Fits net
  /-- The decision table and the states name each other. -/
  decision_iff : ∀ (d : Nat) (s : StateId), net.decisions[d]? = some s ↔
    s < net.states.size ∧ (net.state s).decision = some d
  lexes : net.isLexer = true → net.Lexes

/-! ## Item by item -/

variable {net : Network}

private theorem checkKind_iff {s : StateId} {kind : StateKind} {what : String} :
    net.checkKind s kind what = .ok () ↔ s < net.states.size ∧ (net.state s).kind = kind := by
  unfold checkKind state
  rcases Nat.lt_or_ge s net.states.size with hs | hs
  · simp only [Array.getElem?_eq_getElem hs, Option.getD_some, hs, true_and]
    by_cases hk : net.states[s].kind = kind <;> simp [hk, throw_ne_ok, pure, Except.pure]
  · simp [Nat.not_lt.mpr hs, throw_ne_ok]

private theorem checkTransition_iff {s : StateId} {t : Transition} :
    net.checkTransition s t = .ok () ↔ t.target < net.states.size ∧ t.Fits net := by
  unfold checkTransition
  rw [unless_iff, Nat.not_le]
  refine and_congr_right fun _ => ?_
  cases t with
  | rule target callee follow level =>
    dsimp only
    rw [unless_iff, refuse_iff, Nat.not_le, not_not]
    rfl
  | precedence target level =>
    dsimp only
    rw [refuse_iff, Bool.not_eq_true]
    rfl
  | action target rule action contextual =>
    dsimp only
    rw [refuse_iff, not_and, Nat.not_le]
    rfl
  | _ => exact ⟨fun _ => trivial, fun _ => rfl⟩

private theorem checkRule_iff {rule : Nat} {start stop : StateId} :
    net.checkRule rule start stop = .ok () ↔
      net.Boundary .ruleStart rule start ∧ net.Boundary .ruleStop rule stop := by
  unfold checkRule
  rw [bind_iff, bind_iff, checkKind_iff, checkKind_iff, refuse_iff, not_or, not_not, not_not]
  exact ⟨fun ⟨hstart, hstop, hrule⟩ => ⟨⟨hstart.1, hstart.2, hrule.1⟩, ⟨hstop.1, hstop.2, hrule.2⟩⟩,
    fun ⟨hstart, hstop⟩ => ⟨⟨hstart.1, hstart.2⟩, ⟨hstop.1, hstop.2⟩, hstart.3, hstop.3⟩⟩

theorem checkState_iff {i : Nat} {s : State} :
    net.checkState i s = .ok () ↔ s.index = i ∧
      (s.kind ≠ .tokensStart → s.rule < net.ruleCount) ∧
      (∀ d, s.decision = some d → net.decisions[d]? = some i) ∧
      ∀ t ∈ s.transitions, t.target < net.states.size ∧ t.Fits net := by
  unfold checkState
  rw [unless_iff, unless_iff, not_not, not_and', Nat.not_le]
  refine and_congr_right fun _ => and_congr_right fun _ => ?_
  cases hd : s.decision with
  | none =>
    change s.transitions.forM _ = _ ↔ _
    simp only [forM_eq_ok_iff, checkTransition_iff, reduceCtorEq, false_imp_iff, implies_true, true_and]
  | some d =>
    change (if _ then _ else _) = _ ↔ _
    rw [unless_iff, not_not, forM_eq_ok_iff]
    simp only [checkTransition_iff, Option.some.injEq, forall_eq']

private theorem checkDecision_iff {d : Nat} {s : StateId} :
    net.checkDecision d s = .ok () ↔ s < net.states.size ∧ (net.state s).decision = some d := by
  unfold checkDecision state
  rcases Nat.lt_or_ge s net.states.size with hs | hs
  · simp only [Array.getElem?_eq_getElem hs, Option.bind_some, Option.getD_some, hs, true_and]
    by_cases hd : net.states[s].decision = some d <;> simp [hd, throw_ne_ok, pure, Except.pure]
  · simp [Nat.not_lt.mpr hs, throw_ne_ok]

private theorem checkLexer_iff : net.checkLexer = .ok () ↔ net.Lexes := by
  unfold checkLexer
  rw [unless_iff, bind_iff, forM_eq_ok_iff, refuse_iff, not_not, List.isEmpty_iff]
  simp only [checkKind_iff]
  exact ⟨fun ⟨htypes, hmode, hne⟩ => ⟨htypes, hmode, hne⟩,
    fun ⟨htypes, hmode, hne⟩ => ⟨htypes, hmode, hne⟩⟩

/-! ## The whole check -/

private theorem forall_states {p : StateId → State → Prop} :
    (∀ x ∈ net.states.toList.zipIdx, p x.2 x.1) ↔ ∀ q < net.states.size, p q (net.state q) := by
  constructor
  · intro h q hq
    have := h (net.states[q], q) (by simp [List.mem_zipIdx_iff_getElem?, hq])
    simpa [state, Array.getElem?_eq_getElem hq] using this
  · rintro h ⟨s, q⟩ hmem
    rw [List.mem_zipIdx_iff_getElem?, Array.getElem?_toList] at hmem
    have hq : q < net.states.size := (Array.getElem?_eq_some_iff.mp hmem).1
    simpa [state, show net.states[q]? = some s from hmem] using h q hq

/-- **A network passes the check exactly if it has what is asked for.** -/
theorem check_eq_ok_iff : net.check = .ok () ↔ net.Passing := by
  unfold check
  rw [unless_iff, not_or, not_not, not_not, bind_iff, bind_iff, bind_iff, forM_eq_ok_iff, forM_eq_ok_iff,
    forM_eq_ok_iff]
  -- The check is a sequence of loops; each is turned into a statement about all it goes over.
  have hlexer : (if net.isLexer then net.checkLexer else pure ()) = .ok () ↔
      (net.isLexer = true → net.Lexes) := by
    split
    · next h => rw [checkLexer_iff]; exact ⟨fun hl _ => hl, fun hl => hl h⟩
    · next h => exact ⟨fun _ h' => absurd h' h, fun _ => rfl⟩
  have hstates : (∀ x ∈ net.states.toList.zipIdx, net.checkState x.2 x.1 = .ok ()) ↔
      ∀ q < net.states.size, net.checkState q (net.state q) = .ok () :=
    forall_states (p := fun q s => net.checkState q s = .ok ())
  constructor
  · rintro ⟨⟨hstarts, hstops⟩, hrules, hchecked, hdecisions, hlex⟩
    -- The starts and the stops are checked in pairs, and there are as many of the ones as of the
    -- others.
    have hrule : ∀ (rule : Nat) (start stop : StateId), net.ruleStarts[rule]? = some start →
        net.ruleStops[rule]? = some stop →
          net.Boundary .ruleStart rule start ∧ net.Boundary .ruleStop rule stop := by
      intro rule start stop hstart hstop
      refine checkRule_iff.mp (hrules ((start, stop), rule) ?_)
      rw [List.mem_zipIdx_iff_getElem?, List.getElem?_zip_eq_some]
      exact ⟨by simpa using hstart, by simpa using hstop⟩
    have hstate := fun q hq => checkState_iff.mp (hstates.mp hchecked q hq)
    refine ⟨hstarts, hstops, fun rule s hs => ?_, fun rule s hs => ?_, fun q hq => (hstate q hq).1,
      fun q hq => (hstate q hq).2.1, fun q hq t ht => ((hstate q hq).2.2.2 t ht).1,
      fun q hq t ht => ((hstate q hq).2.2.2 t ht).2, fun d s => ⟨fun hd => ?_, fun ⟨hs, hd⟩ => ?_⟩,
      hlexer.mp hlex⟩
    · obtain ⟨hlt, -⟩ := Array.getElem?_eq_some_iff.mp hs
      exact (hrule rule s _ hs (Array.getElem?_eq_getElem (hstops.symm ▸ hstarts ▸ hlt))).1
    · obtain ⟨hlt, -⟩ := Array.getElem?_eq_some_iff.mp hs
      exact (hrule rule _ s (Array.getElem?_eq_getElem (hstarts.symm ▸ hstops ▸ hlt)) hs).2
    · exact checkDecision_iff.mp (hdecisions (s, d) (by simpa [List.mem_zipIdx_iff_getElem?] using hd))
    · exact (hstate s hs).2.2.1 d hd
  · intro h
    refine ⟨⟨h.starts_size, h.stops_size⟩, ?_, hstates.mpr fun q hq => checkState_iff.mpr ?_, ?_,
      hlexer.mpr h.lexes⟩
    · rintro ⟨⟨start, stop⟩, rule⟩ hmem
      rw [List.mem_zipIdx_iff_getElem?, List.getElem?_zip_eq_some] at hmem
      exact checkRule_iff.mpr ⟨h.start rule start (by simpa using hmem.1),
        h.stop rule stop (by simpa using hmem.2)⟩
    · exact ⟨h.index_eq q hq, h.rule_lt q hq, fun d hd => (h.decision_iff d q).mpr ⟨hq, hd⟩,
        fun t ht => ⟨h.target_lt q hq t ht, h.fits q hq t ht⟩⟩
    · rintro ⟨s, d⟩ hmem
      rw [List.mem_zipIdx_iff_getElem?, Array.getElem?_toList] at hmem
      exact checkDecision_iff.mpr ((h.decision_iff d s).mp hmem)

/-! ## What a network that passes refers to -/

/-- **What the transitions and tables of a network name is there.** -/
structure Referring (net : Network) : Prop where
  state_lt : ∀ q < net.states.size, ∀ t ∈ (net.state q).transitions, ∀ s ∈ t.states,
    s < net.states.size
  callee_lt : ∀ q < net.states.size, ∀ target callee follow level,
    .rule target callee follow level ∈ (net.state q).transitions → callee < net.ruleCount
  rule_lt : ∀ q < net.states.size, (net.state q).kind ≠ .tokensStart →
    (net.state q).rule < net.ruleCount
  decision_lt : ∀ s ∈ net.decisions, s < net.states.size
  start_lt : ∀ s ∈ net.ruleStarts, s < net.states.size
  stop_lt : ∀ s ∈ net.ruleStops, s < net.states.size
  mode_lt : net.isLexer = true → ∀ s ∈ net.modeStarts, s < net.states.size

/-- **A network that passes the check names only what is there.** -/
theorem referring_of_check (h : net.check = .ok ()) : net.Referring := by
  have hp : net.Passing := check_eq_ok_iff.mp h
  refine ⟨fun q hq t ht s hs => ?_, fun q hq target callee follow level ht => ?_, hp.rule_lt,
    fun s hs => ?_, fun s hs => ?_, fun s hs => ?_, fun hl s hs => ((hp.lexes hl).mode s hs).1⟩
  · rcases Transition.mem_states.mp hs with rfl | hfollow
    · exact hp.target_lt q hq t ht
    · exact (hp.fits q hq t ht).follow_lt hfollow
  · have hstart : net.ruleStarts[callee]? = some target := (hp.fits q hq _ ht).2
    exact hp.starts_size ▸ (Array.getElem?_eq_some_iff.mp hstart).1
  · obtain ⟨d, hd⟩ := Array.mem_iff_getElem?.mp hs
    exact ((hp.decision_iff d s).mp hd).1
  · obtain ⟨rule, hrule⟩ := Array.mem_iff_getElem?.mp hs
    exact (hp.start rule s hrule).lt
  · obtain ⟨rule, hrule⟩ := Array.mem_iff_getElem?.mp hs
    exact (hp.stop rule s hrule).lt

end Network

/-! ## What the check passes over -/

/-- The transition with its condition or action given to another rule. -/
def Transition.reassigned (owner : Nat → Nat) : Transition → Transition
  | .predicate target r pred contextual => .predicate target (owner r) pred contextual
  | .action target r index contextual => .action target (owner r) index contextual
  | t => t

@[simp] theorem Transition.target_reassigned (owner : Nat → Nat) (t : Transition) :
    (t.reassigned owner).target = t.target := by
  cases t <;> rfl

/-- The state with another partner, and its conditions and actions given to other rules. -/
def State.reassigned (partner : Option StateId → Option StateId) (owner : Nat → Nat) (s : State) :
    State :=
  { s with
    partner := partner s.partner
    transitions := s.transitions.map (Transition.reassigned owner) }

namespace Network

/-- The network with other partners, and with conditions and actions given to other rules. -/
def reassigned (partner : Option StateId → Option StateId) (owner : Nat → Nat) (net : Network) :
    Network :=
  { net with states := net.states.map (State.reassigned partner owner) }

section Reassigned

variable {net : Network} (partner : Option StateId → Option StateId) (owner : Nat → Nat)

private theorem states_reassigned (s : StateId) :
    (net.reassigned partner owner).states[s]? =
      net.states[s]?.map (State.reassigned partner owner) := by
  simp [reassigned]

private theorem checkKind_reassigned (s : StateId) (kind : StateKind) (what : String) :
    (net.reassigned partner owner).checkKind s kind what = net.checkKind s kind what := by
  unfold checkKind
  rw [states_reassigned]
  cases net.states[s]? <;> rfl

private theorem rule_state_reassigned (s : StateId) :
    ((net.reassigned partner owner).state s).rule = (net.state s).rule := by
  unfold state
  rw [states_reassigned]
  cases net.states[s]? <;> rfl

private theorem checkRule_reassigned (rule : Nat) (start stop : StateId) :
    (net.reassigned partner owner).checkRule rule start stop = net.checkRule rule start stop := by
  simp only [checkRule, checkKind_reassigned, rule_state_reassigned]

private theorem checkTransition_reassigned (s : StateId) (t : Transition) :
    (net.reassigned partner owner).checkTransition s (t.reassigned owner) =
      net.checkTransition s t := by
  have hsize : (net.reassigned partner owner).states.size = net.states.size := by
    simp [reassigned]
  unfold checkTransition
  rw [hsize, Transition.target_reassigned]
  cases t <;> rfl

private theorem checkState_reassigned (i : Nat) (s : State) :
    (net.reassigned partner owner).checkState i (s.reassigned partner owner) =
      net.checkState i s := by
  have htrans : (s.reassigned partner owner).transitions.forM
      ((net.reassigned partner owner).checkTransition i) =
        s.transitions.forM (net.checkTransition i) := by
    simp only [State.reassigned, List.forM_eq_forM, List.forM_map, checkTransition_reassigned]
  unfold checkState
  rw [htrans]
  rfl

private theorem checkDecision_reassigned (decision : Nat) (s : StateId) :
    (net.reassigned partner owner).checkDecision decision s = net.checkDecision decision s := by
  unfold checkDecision
  rw [states_reassigned]
  cases net.states[s]? <;> rfl

private theorem checkLexer_reassigned :
    (net.reassigned partner owner).checkLexer = net.checkLexer := by
  unfold checkLexer
  simp only [checkKind_reassigned]
  rfl

/-- **The check passes over partners, and over the rules of conditions and actions:** the answer,
and the fault it names, is the same whatever they are. -/
theorem check_reassigned : (net.reassigned partner owner).check = net.check := by
  have hstates : (net.reassigned partner owner).states.toList.zipIdx.forM
      (fun x => (net.reassigned partner owner).checkState x.2 x.1) =
        net.states.toList.zipIdx.forM fun x => net.checkState x.2 x.1 := by
    have hmap : (net.reassigned partner owner).states.toList.zipIdx =
        net.states.toList.zipIdx.map (Prod.map (State.reassigned partner owner) id) := by
      simp [reassigned, List.zipIdx_map]
    simp only [hmap, List.forM_eq_forM, List.forM_map, Prod.map_snd, Prod.map_fst, id_eq,
      checkState_reassigned]
  unfold check
  simp only [checkRule_reassigned, checkDecision_reassigned, checkLexer_reassigned, hstates]
  rfl

end Reassigned

/-- **What the check promises, and what it passes over:** the transitions and tables of a network
that passes name only states and rules that it has, but what the partners of its states are and to
which rules its conditions and actions belong makes no difference to the answer. -/
theorem check_promises (net : Network) : (net.check = .ok () → net.Referring) ∧
    ∀ partner owner, (net.reassigned partner owner).check = net.check :=
  ⟨referring_of_check, fun partner owner => check_reassigned partner owner⟩

end Network

/-! ## Networks that pass the check

What `Network.check` promises, as facts about the states of the network: every transition leads to
a state, a call leads to the start of the rule it names, and the decision table and the decision
states name each other.
-/

namespace Network

/-- **The tables of a network fit together.** -/
structure Consistent (net : Network) : Prop where
  starts_size : net.ruleStarts.size = net.ruleCount
  stops_size : net.ruleStops.size = net.ruleCount
  target_lt : ∀ q, ∀ t ∈ (net.state q).transitions, t.target < net.states.size
  follow_lt : ∀ q target rule follow level,
    .rule target rule follow level ∈ (net.state q).transitions → follow < net.states.size
  start_of_call : ∀ q target rule follow level,
    .rule target rule follow level ∈ (net.state q).transitions →
      net.ruleStarts[rule]? = some target
  start_kind : ∀ (rule : Nat) (s : StateId), net.ruleStarts[rule]? = some s →
    (net.state s).kind = .ruleStart
  stop_kind : ∀ (rule : Nat) (s : StateId), net.ruleStops[rule]? = some s →
    (net.state s).kind = .ruleStop
  decision_state : ∀ (q : StateId) (d : Nat), (net.state q).decision = some d →
    net.decisions[d]? = some q

/-- The states at all numbers are those of the table, and the others are plain. -/
theorem state_cases (net : Network) (q : StateId) :
    (∃ h : q < net.states.size, net.state q = net.states[q]) ∨
      (net.states.size ≤ q ∧ net.state q = default) := by
  unfold state
  rcases Nat.lt_or_ge q net.states.size with hq | hq
  · exact .inl ⟨hq, by simp [Array.getElem?_eq_getElem hq]⟩
  · exact .inr ⟨hq, by simp [Array.getElem?_eq_none hq]⟩

/-- Only states of the table have transitions. -/
private theorem lt_of_mem_transitions {net : Network} {q : StateId} {t : Transition}
    (ht : t ∈ (net.state q).transitions) : q < net.states.size := by
  rcases net.state_cases q with ⟨hq, -⟩ | ⟨-, heq⟩
  · exact hq
  · rw [heq] at ht
    cases ht

/-- **What the check promises.** -/
theorem consistent_of_check {net : Network} (h : net.check = .ok ()) : net.Consistent := by
  have hp : net.Passing := check_eq_ok_iff.mp h
  have hcall : ∀ q target rule follow level,
      .rule target rule follow level ∈ (net.state q).transitions →
        follow < net.states.size ∧ net.ruleStarts[rule]? = some target :=
    fun q target rule follow level ht => hp.fits q (lt_of_mem_transitions ht) _ ht
  refine ⟨hp.starts_size, hp.stops_size,
    fun q t ht => hp.target_lt q (lt_of_mem_transitions ht) t ht,
    fun q target rule follow level ht => (hcall q target rule follow level ht).1,
    fun q target rule follow level ht => (hcall q target rule follow level ht).2,
    fun rule s hs => (hp.start rule s hs).kind_eq, fun rule s hs => (hp.stop rule s hs).kind_eq,
    fun q d hd => (hp.decision_iff d q).mpr ⟨?_, hd⟩⟩
  rcases net.state_cases q with ⟨hq, -⟩ | ⟨-, heq⟩
  · exact hq
  · rw [heq] at hd
    cases hd

/-- A lexer that passes the check has a mode. -/
theorem modes_of_check {net : Network} (h : net.check = .ok ()) (hlexer : net.isLexer = true) :
    net.modeStarts ≠ [] :=
  ((check_eq_ok_iff.mp h).lexes hlexer).modes_ne

/-- **Decisions are taken where the table says.** -/
theorem decision_of_check {net : Network} (h : net.check = .ok ()) {d : Nat} {s : StateId}
    (hd : net.decisions[d]? = some s) : (net.state s).decision = some d :=
  (((check_eq_ok_iff.mp h).decision_iff d s).mp hd).2

/-! ## Numbers in the tables -/

/-- **The numbers in the tables lead to states and to rules.** Only the states in which the modes of
a lexer begin need not belong to a rule. -/
structure Indexed (net : Network) : Prop where
  decision_lt : ∀ (d : Nat) (s : StateId), net.decisions[d]? = some s → s < net.states.size
  mode_lt : net.isLexer = true → ∀ s ∈ net.modeStarts, s < net.states.size
  start_lt : ∀ (rule : Nat) (s : StateId), net.ruleStarts[rule]? = some s → s < net.states.size
  rule_lt : ∀ q < net.states.size, (net.state q).kind ≠ .tokensStart →
    (net.state q).rule < net.ruleCount

/-- **What the check promises of the numbers in the tables.** -/
theorem indexed_of_check {net : Network} (h : net.check = .ok ()) : net.Indexed := by
  have hr : net.Referring := referring_of_check h
  exact ⟨fun d s hd => hr.decision_lt s (Array.mem_iff_getElem?.mpr ⟨d, hd⟩), hr.mode_lt,
    fun rule s hs => hr.start_lt s (Array.mem_iff_getElem?.mpr ⟨rule, hs⟩), hr.rule_lt⟩

end Network

end AdaptiveLL
