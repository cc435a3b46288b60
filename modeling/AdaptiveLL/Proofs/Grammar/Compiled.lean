import AdaptiveLL.Proofs.Grammar.Finished
import AdaptiveLL.Proofs.Network.Machine

/-!
# Compiled networks

What is known of the network of a grammar that compiles: it passes the check, and its states are
those of a finished draft. `Renders` keeps what a run through the body of a rule needs.
-/

namespace AdaptiveLL

namespace Grammar

private theorem repeatedName?_eq_none_iff : ∀ {names earlier : List String},
    repeatedName? earlier names = none ↔ names.Nodup ∧ ∀ name ∈ names, name ∉ earlier
  | [], _ => iff_of_true rfl ⟨.nil, nofun⟩
  | name :: rest, earlier => by
    rw [repeatedName?, List.nodup_cons, List.forall_mem_cons]
    split
    · next hmem => exact iff_of_false nofun fun h => h.2.1 (List.contains_iff_mem.mp hmem)
    · next hnot =>
      rw [List.contains_iff_mem] at hnot
      rw [repeatedName?_eq_none_iff]
      constructor
      · rintro ⟨hnodup, hearlier⟩
        exact ⟨⟨fun hmem => hearlier name hmem List.mem_cons_self, hnodup⟩, hnot,
          fun name' hmem hin => hearlier name' hmem (List.mem_cons_of_mem _ hin)⟩
      · rintro ⟨⟨hnew, hnodup⟩, -, hearlier⟩
        refine ⟨hnodup, fun name' hmem hin => ?_⟩
        rcases List.mem_cons.mp hin with rfl | hin
        · exact hnew hmem
        · exact hearlier name' hmem hin

/-- **No name is repeated** exactly if all differ. -/
theorem repeatedName?_nil {names : List String} : repeatedName? [] names = none ↔ names.Nodup := by
  rw [repeatedName?_eq_none_iff]
  exact and_iff_left fun _ _ => List.not_mem_nil

/-- **A grammar was compiled** to a network by way of a draft. -/
structure Built (g : Grammar) (net : Network) (modeStarts : List StateId) (d : Draft) : Prop where
  network_eq : net = g.network modeStarts d
  consistent : net.Consistent
  finished : Finished g modeStarts d
  names_nodup : (g.rules.map Rule.name).Nodup

variable {g : Grammar} {net : Network}

/-- What compiles was laid out and has passed the check. -/
theorem of_compile (h : g.compile = .ok net) : ∃ modeStarts d,
    repeatedName? [] (g.rules.map Rule.name) = none ∧
      (Layout.grammar g).run g.draft = .ok modeStarts d ∧
        net = g.network modeStarts d ∧ net.check = .ok () := by
  unfold compile at h
  split at h
  · cases h
  · next hnames =>
    split at h
    · cases h
    · next modeStarts d hrun =>
      change ((g.network modeStarts d).check >>= fun _ => pure (g.network modeStarts d)) = _ at h
      cases hcheck : (g.network modeStarts d).check with
      | error e =>
        rw [hcheck] at h
        cases h
      | ok u =>
        rw [hcheck] at h
        obtain rfl := Except.ok.inj h
        exact ⟨modeStarts, d, hnames, hrun, rfl, hcheck⟩

theorem check_of_compile (h : g.compile = .ok net) : net.check = .ok () := by
  obtain ⟨_, _, -, -, -, hcheck⟩ := of_compile h
  exact hcheck

/-- **What compiles is built.** -/
theorem exists_built (h : g.compile = .ok net) : ∃ modeStarts d, g.Built net modeStarts d := by
  obtain ⟨_, d, hnames, hrun, rfl, hcheck⟩ := of_compile h
  obtain ⟨rfl, hfinished⟩ := (Layout.grammar_lays g).apply hrun
  refine ⟨_, d, rfl, Network.consistent_of_check hcheck, hfinished fun hkind => ?_,
    repeatedName?_nil.mp hnames⟩
  refine Nat.pos_of_ne_zero fun hzero => Network.modes_of_check hcheck ?_ ?_
  · simp [Network.isLexer, network, hkind]
  · change List.range g.modeCount = []
    rw [hzero]
    rfl

end Grammar

/-- The ways on from a state inside a rule; there are none from the end of one. -/
def Network.inner (net : Network) (q : StateId) : List Transition :=
  if net.isStop q then [] else (net.state q).transitions

theorem Network.inner_of_not_isStop {net : Network} {q : StateId} (h : net.isStop q = false) :
    net.inner q = (net.state q).transitions := by
  rw [inner, h]
  rfl

namespace Grammar

/-- **The bodies of the rules are in the network,** where `N` knows the rules by their names. -/
structure Renders (g : Grammar) (net : Network) (N : String → Nat → StateId → Prop) : Prop where
  names : ∀ {name callee start}, N name callee start →
    ∃ r, g.rules[callee]? = some r ∧ r.name = name ∧ start = g.startState callee
  names_inj : ∀ r ∈ g.rules, ∀ r' ∈ g.rules, r.name = r'.name → r = r'
  body : ∀ {i r}, g.rules[i]? = some r → ∃ entry exit,
    net.inner (g.startState i) = [.epsilon entry] ∧ Laid net.inner N i r.body entry exit ∧
      net.inner exit = [.epsilon (g.stopState i)]
  isStop : ∀ {i}, i < g.rules.length → net.isStop (g.stopState i) = true

namespace Built

variable {g : Grammar} {net : Network} {modeStarts : List StateId} {d : Draft}

theorem state_eq (h : g.Built net modeStarts d) (q : StateId) : net.state q = d.state q := by
  rw [h.network_eq]
  rfl

theorem framed (h : g.Built net modeStarts d) : Framed g d := h.finished.bodied.framed

theorem start_iff (h : g.Built net modeStarts d) {i : Nat} {s : StateId} :
    net.ruleStarts[i]? = some s ↔ i < g.rules.length ∧ s = g.startState i := by
  rw [h.network_eq]
  exact h.framed.start_iff

theorem stop_iff (h : g.Built net modeStarts d) {i : Nat} {s : StateId} :
    net.ruleStops[i]? = some s ↔ i < g.rules.length ∧ s = g.stopState i := by
  rw [h.network_eq]
  exact h.framed.stop_iff

/-- The states inside rules end no rule. -/
theorem isStop_inside (h : g.Built net modeStarts d) {q : StateId} (hge : g.frameSize ≤ q)
    (hlt : q < d.size) : net.isStop q = false := by
  obtain ⟨r, i, -, hinside⟩ := h.finished.bodied.inside q hge hlt
  have hinner := hinside.wired.inner
  unfold Network.isStop State.isRuleStop
  rw [h.state_eq]
  revert hinner
  cases (d.state q).kind <;> simp [StateKind.isInner]

theorem isStop_start (h : g.Built net modeStarts d) {i : Nat} (hi : i < g.rules.length) :
    net.isStop (g.startState i) = false := by
  unfold Network.isStop State.isRuleStop
  rw [h.state_eq, h.framed.start_kind i hi]
  rfl

theorem isStop_mode (h : g.Built net modeStarts d) {m : Nat} (hm : m < g.modeCount) :
    net.isStop m = false := by
  unfold Network.isStop State.isRuleStop
  rw [h.state_eq, h.framed.mode_kind m hm]
  rfl

theorem isStop_stop (h : g.Built net modeStarts d) {i : Nat} (hi : i < g.rules.length) :
    net.isStop (g.stopState i) = true := by
  unfold Network.isStop State.isRuleStop
  rw [h.state_eq, h.framed.stop_kind i hi]
  rfl

/-- The ends of rules are their stop states. -/
theorem of_isStop (h : g.Built net modeStarts d) {q : StateId} (hq : net.isStop q = true) :
    ∃ i < g.rules.length, q = g.stopState i := by
  rcases Nat.lt_or_ge q d.size with hlt | hge
  · rcases Nat.lt_or_ge q g.frameSize with hframe | hframe
    · rcases Grammar.frame_cases hframe with hm | ⟨i, hi, rfl | rfl⟩
      · rw [h.isStop_mode hm] at hq
        cases hq
      · rw [h.isStop_start hi] at hq
        cases hq
      · exact ⟨i, hi, rfl⟩
    · rw [h.isStop_inside hframe hlt] at hq
      cases hq
  · unfold Network.isStop State.isRuleStop at hq
    rw [h.state_eq, Draft.state, Array.getElem?_eq_none hge] at hq
    cases hq

theorem inner_inside (h : g.Built net modeStarts d) {q : StateId} (hge : g.frameSize ≤ q)
    (hlt : q < d.size) : net.inner q = d.ways q := by
  rw [Network.inner_of_not_isStop (h.isStop_inside hge hlt), h.state_eq]
  rfl

theorem renders (h : g.Built net modeStarts d) : g.Renders net d.Names where
  names hn := h.framed.of_names hn
  names_inj r hr r' hr' hname := List.inj_on_of_nodup_map h.names_nodup hr hr' hname
  body hr := by
    obtain ⟨hi, -⟩ := List.getElem?_eq_some_iff.mp hr
    obtain ⟨entry, exit, hstart, -, hge, hlt, hexit, hlaid⟩ :=
      h.finished.bodied.body _ _ (List.mem_zipIdx_iff_getElem?.mpr hr)
    refine ⟨entry, exit, ?_, hlaid net.inner fun q hge hlt => h.inner_inside hge hlt, ?_⟩
    · rw [Network.inner_of_not_isStop (h.isStop_start hi), h.state_eq]
      exact hstart
    · rw [h.inner_inside hge hlt, hexit]
  isStop hi := h.isStop_stop hi

end Built

end Grammar

end AdaptiveLL
