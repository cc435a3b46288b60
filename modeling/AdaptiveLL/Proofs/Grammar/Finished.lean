import AdaptiveLL.Proofs.Grammar.Decisions

/-!
# Drafts of whole grammars

A grammar is laid out in four passes: the start states of its modes, the ends of its rules, the
bodies of its rules, and the ways between them that are known only then. `Finished` says what stands
in the draft after the last one.
-/

namespace AdaptiveLL

namespace Grammar

variable (g : Grammar)

/-- The number of states that come before those of the rules. -/
def modeCount : Nat := if g.kind = .lexer then g.modes.length else 0

/-- The start state of a rule. -/
def startState (rule : Nat) : Nat := g.modeCount + 2 * rule

/-- The stop state of a rule. -/
def stopState (rule : Nat) : Nat := g.modeCount + 2 * rule + 1

/-- The number of states that come before those of the bodies. -/
def frameSize : Nat := g.modeCount + 2 * g.rules.length

variable {g}

theorem startState_lt {rule : Nat} (h : rule < g.rules.length) : g.startState rule < g.frameSize := by
  unfold startState frameSize
  omega

theorem stopState_lt {rule : Nat} (h : rule < g.rules.length) : g.stopState rule < g.frameSize := by
  unfold stopState frameSize
  omega

theorem startState_inj {rule rule' : Nat} (h : g.startState rule = g.startState rule') :
    rule = rule' := by
  unfold startState at h
  omega

theorem stopState_inj {rule rule' : Nat} (h : g.stopState rule = g.stopState rule') :
    rule = rule' := by
  unfold stopState at h
  omega

theorem startState_ne_stopState (rule rule' : Nat) : g.startState rule ≠ g.stopState rule' := by
  unfold startState stopState
  omega

theorem modeCount_le_startState (rule : Nat) : g.modeCount ≤ g.startState rule :=
  Nat.le_add_right _ _

theorem modeCount_lt_stopState (rule : Nat) : g.modeCount < g.stopState rule :=
  Nat.lt_succ_of_le (Nat.le_add_right _ _)

/-- A state of the frame is the start of a mode or an end of a rule. -/
theorem frame_cases {q : Nat} (h : q < g.frameSize) : q < g.modeCount ∨
    ∃ rule < g.rules.length, q = g.startState rule ∨ q = g.stopState rule := by
  rcases Nat.lt_or_ge q g.modeCount with hq | hq
  · exact .inl hq
  · refine .inr ⟨(q - g.modeCount) / 2, ?_, ?_⟩
    · unfold frameSize at h
      omega
    · unfold startState stopState
      omega

end Grammar

/-! ## Modes and ends of rules -/

/-- **The frame of a draft:** the start states of the modes and the ends of the rules. -/
structure Framed (g : Grammar) (d : Draft) : Prop where
  kind_eq : d.kind = g.kind
  names_eq : d.ruleNames = g.rules.map Rule.name
  starts_eq : d.ruleStarts = ((List.range g.rules.length).map g.startState).toArray
  stops_eq : d.ruleStops = ((List.range g.rules.length).map g.stopState).toArray
  size_ge : g.frameSize ≤ d.size
  mode_kind : ∀ m < g.modeCount, (d.state m).kind = .tokensStart
  mode_decision : ∀ m < g.modeCount, (d.state m).decision ≠ none
  start_kind : ∀ i < g.rules.length, (d.state (g.startState i)).kind = .ruleStart
  stop_kind : ∀ i < g.rules.length, (d.state (g.stopState i)).kind = .ruleStop
  start_rule : ∀ i < g.rules.length, (d.state (g.startState i)).rule = i
  stop_rule : ∀ i < g.rules.length, (d.state (g.stopState i)).rule = i
  greedy : ∀ q < g.frameSize, (d.state q).nonGreedy = false
  decision : ∀ q < g.frameSize, g.modeCount ≤ q → (d.state q).decision = none

namespace Framed

open Draft

variable {g : Grammar} {d d' : Draft}

theorem getD_start (h : Framed g d) {i : Nat} (hi : i < g.rules.length) :
    (d.ruleStarts[i]?).getD 0 = g.startState i := by
  simp [h.starts_eq, hi]

theorem getD_stop (h : Framed g d) {i : Nat} (hi : i < g.rules.length) :
    (d.ruleStops[i]?).getD 0 = g.stopState i := by
  simp [h.stops_eq, hi]

/-- The rule of a number starts where its table entry says. -/
theorem start_iff (h : Framed g d) {i : Nat} {s : StateId} :
    d.ruleStarts[i]? = some s ↔ i < g.rules.length ∧ s = g.startState i := by
  rw [h.starts_eq]
  by_cases hi : i < g.rules.length
  · simp [hi, eq_comm]
  · simp [hi]

/-- The rule of a number ends where its table entry says. -/
theorem stop_iff (h : Framed g d) {i : Nat} {s : StateId} :
    d.ruleStops[i]? = some s ↔ i < g.rules.length ∧ s = g.stopState i := by
  rw [h.stops_eq]
  by_cases hi : i < g.rules.length
  · simp [hi, eq_comm]
  · simp [hi]

theorem adds (h : Framed g d) (hadds : d.Adds untouched d') : Framed g d' := by
  have hkeeps : ∀ q < g.frameSize, d'.state q = d.state q := fun q hq =>
    hadds.keeps q (Nat.lt_of_lt_of_le hq h.size_ge) not_false
  exact {
    kind_eq := hadds.grammar_eq.trans h.kind_eq
    names_eq := hadds.names_eq.trans h.names_eq
    starts_eq := hadds.starts_eq.trans h.starts_eq
    stops_eq := hadds.stops_eq.trans h.stops_eq
    size_ge := Nat.le_trans h.size_ge hadds.size_le
    mode_kind := fun m hm => by
      rw [hkeeps m (Nat.lt_of_lt_of_le hm (Nat.le_add_right _ _))]
      exact h.mode_kind m hm
    mode_decision := fun m hm => by
      rw [hkeeps m (Nat.lt_of_lt_of_le hm (Nat.le_add_right _ _))]
      exact h.mode_decision m hm
    start_kind := fun i hi => by
      rw [hkeeps _ (g.startState_lt hi)]
      exact h.start_kind i hi
    stop_kind := fun i hi => by
      rw [hkeeps _ (g.stopState_lt hi)]
      exact h.stop_kind i hi
    start_rule := fun i hi => by
      rw [hkeeps _ (g.startState_lt hi)]
      exact h.start_rule i hi
    stop_rule := fun i hi => by
      rw [hkeeps _ (g.stopState_lt hi)]
      exact h.stop_rule i hi
    greedy := fun q hq => by
      rw [hkeeps q hq]
      exact h.greedy q hq
    decision := fun q hq => by
      rw [hkeeps q hq]
      exact h.decision q hq }

/-- A name that is found is that of a rule. -/
theorem of_names (h : Framed g d) {name : String} {callee : Nat} {start : StateId}
    (hn : d.Names name callee start) :
    ∃ r, g.rules[callee]? = some r ∧ r.name = name ∧ start = g.startState callee := by
  have hfound := hn.name_eq
  rw [h.names_eq, List.idxOf?_eq_some_iff] at hfound
  obtain ⟨hlt, hname, -⟩ := hfound
  rw [List.length_map] at hlt
  rw [List.getElem_map] at hname
  exact ⟨g.rules[callee], List.getElem?_eq_getElem hlt, hname,
    hn.start_eq.symm.trans (h.getD_start hlt)⟩

/-- More ways on change nothing else about a state. -/
theorem state_linked (d : Draft) (s : StateId) (t : Transition) (q : StateId) :
    ∃ ts, (Layout.linked d s t).state q = { d.state q with transitions := ts } := by
  rw [state_change]
  split
  · exact ⟨_, rfl⟩
  · exact ⟨_, rfl⟩

theorem link (h : Framed g d) (s : StateId) (t : Transition) : Framed g (Layout.linked d s t) where
  kind_eq := h.kind_eq
  names_eq := h.names_eq
  starts_eq := h.starts_eq
  stops_eq := h.stops_eq
  size_ge := Nat.le_trans h.size_ge (Nat.le_of_eq size_change.symm)
  mode_kind m hm := by
    obtain ⟨ts, heq⟩ := state_linked d s t m
    rw [heq]
    exact h.mode_kind m hm
  mode_decision m hm := by
    obtain ⟨ts, heq⟩ := state_linked d s t m
    rw [heq]
    exact h.mode_decision m hm
  start_kind i hi := by
    obtain ⟨ts, heq⟩ := state_linked d s t (g.startState i)
    rw [heq]
    exact h.start_kind i hi
  stop_kind i hi := by
    obtain ⟨ts, heq⟩ := state_linked d s t (g.stopState i)
    rw [heq]
    exact h.stop_kind i hi
  start_rule i hi := by
    obtain ⟨ts, heq⟩ := state_linked d s t (g.startState i)
    rw [heq]
    exact h.start_rule i hi
  stop_rule i hi := by
    obtain ⟨ts, heq⟩ := state_linked d s t (g.stopState i)
    rw [heq]
    exact h.stop_rule i hi
  greedy q hq := by
    obtain ⟨ts, heq⟩ := state_linked d s t q
    rw [heq]
    exact h.greedy q hq
  decision q hq := by
    obtain ⟨ts, heq⟩ := state_linked d s t q
    rw [heq]
    exact h.decision q hq

end Framed

namespace Layout

open Draft

variable {g : Grammar} {d : Draft}

/-- The start state of a mode, which is the decision of that number. -/
private def modeState (m : Nat) : State :=
  { index := m, kind := .tokensStart, rule := 0, decision := some m }

private theorem modeStart_lays {name : String} (h : d.decisions = (List.range d.size).toArray) :
    (modeStart name).Lays d fun s d' => s = d.size ∧ d.Adds untouched d' ∧ d'.size = d.size + 1 ∧
      d'.decisions = (List.range d'.size).toArray ∧ d'.state d.size = modeState d.size := by
  refine newState_bind (decide_bind (.pure ⟨rfl, ?_, by simp, ?_, ?_⟩))
  · exact ((Adds.refl _ d).then_add).then_number fun h => absurd h (Nat.lt_irrefl _)
  · change d.decisions.push d.size = _
    rw [h, size_number, size_add, List.range_succ, List.push_toArray]
  · rw [state_number, if_pos ⟨rfl, by simp⟩, state_add, if_pos rfl, decisions_add, h]
    simp [modeState]

private theorem modeStarts_lays {names : List String} :
    ∀ {d : Draft}, d.decisions = (List.range d.size).toArray →
      (names.mapM modeStart).Lays d fun ss d' => ss = List.range' d.size names.length ∧
        d.Adds untouched d' ∧ d'.size = d.size + names.length ∧
          d'.decisions = (List.range d'.size).toArray ∧
            ∀ q, d.size ≤ q → q < d'.size → d'.state q = modeState q := by
  induction names with
  | nil =>
    intro d h
    rw [List.mapM_nil]
    exact .pure ⟨rfl, .refl _ d, rfl, h, fun q hge hlt => absurd hlt (Nat.not_lt.mpr hge)⟩
  | cons name names ih =>
    intro d h
    rw [List.mapM_cons]
    refine (modeStart_lays h).bind ?_
    rintro s d₁ ⟨rfl, hadds, hsize, hdecisions, hstate⟩
    refine (ih hdecisions).bind ?_
    rintro ss d' ⟨rfl, hadds', hsize', hdecisions', hall⟩
    refine .pure ⟨?_, hadds.trans hadds' fun _ _ h => h, ?_, hdecisions', fun q hge hlt => ?_⟩
    · rw [hsize, List.length_cons, List.range'_succ]
    · rw [hsize', hsize, List.length_cons]
      omega
    · rcases Nat.eq_or_lt_of_le hge with rfl | hgt
      · rw [hadds'.keeps _ (hsize ▸ Nat.lt_succ_self _) not_false, hstate]
      · exact hall q (hsize ▸ hgt) hlt

/-- The ends of the rules so far. -/
private structure Ended (g : Grammar) (count : Nat) (d : Draft) : Prop where
  kind_eq : d.kind = g.kind
  names_eq : d.ruleNames = g.rules.map Rule.name
  starts_eq : d.ruleStarts = ((List.range count).map g.startState).toArray
  stops_eq : d.ruleStops = ((List.range count).map g.stopState).toArray
  size_eq : d.size = g.modeCount + 2 * count
  decisions_eq : d.decisions = (List.range g.modeCount).toArray
  mode : ∀ m < g.modeCount, d.state m = modeState m
  start : ∀ i < count, d.state (g.startState i) =
    { index := g.startState i, kind := .ruleStart, rule := i }
  stop : ∀ i < count, d.state (g.stopState i) =
    { index := g.stopState i, kind := .ruleStop, rule := i }

private theorem ruleEnds_lays {count : Nat} (h : Ended g count d) :
    (ruleEnds count).Lays d fun _ => Ended g (count + 1) := by
  refine newState_bind (newState_bind (Lays.modifyGet ?_))
  have hsize := h.size_eq
  have hstart : d.size = g.startState count := hsize
  have hstop : d.size + 1 = g.stopState count := by rw [hsize]; rfl
  have hadds : d.Adds untouched ((d.add .ruleStart count).add .ruleStop count) :=
    ((Adds.refl _ d).then_add).then_add
  refine ⟨h.kind_eq, h.names_eq, ?_, ?_, ?_, h.decisions_eq, ?_, ?_, ?_⟩
  · change d.ruleStarts.push d.size = _
    rw [h.starts_eq, hstart, List.range_succ, List.map_append]
    simp
  · change d.ruleStops.push (d.add .ruleStart count).size = _
    rw [h.stops_eq, size_add, hstop, List.range_succ, List.map_append]
    simp
  · change ((d.add .ruleStart count).add .ruleStop count).size = _
    simp only [size_add, hsize]
    omega
  · intro m hm
    have hlt : m < d.size := by omega
    change ((d.add .ruleStart count).add .ruleStop count).state m = _
    rw [hadds.keeps m hlt not_false, h.mode m hm]
  · intro i hi
    change ((d.add .ruleStart count).add .ruleStop count).state _ = _
    rcases Nat.lt_succ_iff_lt_or_eq.mp hi with hi | rfl
    · have hlt : g.startState i < d.size := by
        unfold Grammar.startState
        omega
      rw [hadds.keeps _ hlt not_false, h.start i hi]
    · simp [state_add, ← hstart]
  · intro i hi
    change ((d.add .ruleStart count).add .ruleStop count).state _ = _
    rcases Nat.lt_succ_iff_lt_or_eq.mp hi with hi | rfl
    · have hlt : g.stopState i < d.size := by
        unfold Grammar.stopState
        omega
      rw [hadds.keeps _ hlt not_false, h.stop i hi]
    · simp [state_add, ← hstop]

private theorem Ended.framed (h : Ended g g.rules.length d) :
    Framed g d ∧ d.Filed ∧ ∀ q < g.frameSize, d.ways q = [] := by
  have hcases : ∀ q < g.frameSize, (d.state q).index = q ∧ d.ways q = [] ∧
      (d.state q).nonGreedy = false ∧
        (d.state q).decision = if q < g.modeCount then some q else none := by
    intro q hq
    rcases Grammar.frame_cases hq with hm | ⟨i, hi, rfl | rfl⟩
    · rw [ways, h.mode q hm, if_pos hm]
      exact ⟨rfl, rfl, rfl, rfl⟩
    · rw [ways, h.start i hi, if_neg (Nat.not_lt.mpr (g.modeCount_le_startState i))]
      exact ⟨rfl, rfl, rfl, rfl⟩
    · rw [ways, h.stop i hi, if_neg (Nat.lt_asymm (g.modeCount_lt_stopState i))]
      exact ⟨rfl, rfl, rfl, rfl⟩
  have hsize : d.size = g.frameSize := h.size_eq
  refine ⟨⟨h.kind_eq, h.names_eq, h.starts_eq, h.stops_eq, Nat.le_of_eq hsize.symm,
    fun m hm => by rw [h.mode m hm]; rfl, fun m hm => by rw [h.mode m hm]; exact Option.some_ne_none m,
    fun i hi => by rw [h.start i hi], fun i hi => by rw [h.stop i hi],
    fun i hi => by rw [h.start i hi], fun i hi => by rw [h.stop i hi],
    fun q hq => (hcases q hq).2.2.1, fun q hq hge => ?_⟩, ⟨fun q hq => ?_, fun k s => ?_,
    fun q t ht => ?_⟩, fun q hq => (hcases q hq).2.1⟩
  · rw [(hcases q hq).2.2.2, if_neg (Nat.not_lt.mpr hge)]
  · exact (hcases q (hsize ▸ hq)).1
  · rw [h.decisions_eq]
    have hle : g.modeCount ≤ d.size := hsize ▸ Nat.le_add_right _ _
    constructor
    · intro hk
      obtain ⟨hlt, rfl⟩ : ∃ hlt : k < g.modeCount, k = s := by
        rw [List.getElem?_toArray, List.getElem?_eq_some_iff] at hk
        simpa using hk
      refine ⟨Nat.lt_of_lt_of_le hlt hle, ?_⟩
      rw [(hcases k (hsize ▸ Nat.lt_of_lt_of_le hlt hle)).2.2.2, if_pos hlt]
    · rintro ⟨hs, hdecision⟩
      rw [(hcases s (hsize ▸ hs)).2.2.2] at hdecision
      split at hdecision
      · next hlt =>
        obtain rfl := Option.some.inj hdecision
        simp [hlt]
      · cases hdecision
  · by_cases hq : q < d.size
    · rw [(hcases q (hsize ▸ hq)).2.1] at ht
      cases ht
    · rw [ways, state, Array.getElem?_eq_none (Nat.not_lt.mp hq)] at ht
      cases ht

private theorem allEnds_lays (h : Ended g 0 d) :
    ((List.range g.rules.length).forM ruleEnds).Lays d fun _ => Ended g g.rules.length := by
  refine (Lays.forM (fun done d' => Ended g done.length d') ?_ h).mono fun _ d' h' => by
    rwa [List.length_range] at h'
  intro done a rest heq d' hd'
  have ha : a = done.length := by
    have hget : (List.range g.rules.length)[done.length]? = some a := by rw [heq]; simp
    obtain ⟨_, hval⟩ := List.getElem?_eq_some_iff.mp hget
    rw [List.getElem_range] at hval
    exact hval.symm
  subst ha
  rw [List.length_append]
  exact ruleEnds_lays hd'

end Layout

/-! ## Bodies -/

/-- **The body of a rule** is between its ends. -/
def Between (g : Grammar) (r : Rule) (i : Nat) (d : Draft) : Prop :=
  ∃ entry exit, d.ways (g.startState i) = [.epsilon entry] ∧ d.Owns i entry ∧
    g.frameSize ≤ exit ∧ exit < d.size ∧ d.ways exit = [.epsilon (g.stopState i)] ∧
      ∀ W : StateId → List Transition, (∀ q, g.frameSize ≤ q → q < d.size → W q = d.ways q) →
        Laid W d.Names i r.body entry exit

/-- Ways on from other states of the frame, and new states, do not matter to a body. -/
theorem Between.adds {g : Grammar} {r : Rule} {i : Nat} {d d' : Draft}
    {touched : StateId → Prop} (h : Between g r i d) (hadds : d.Adds touched d')
    (htouched : ∀ q, touched q → q < g.frameSize) (hne : ¬touched (g.startState i)) :
    Between g r i d' := by
  obtain ⟨entry, exit, hways, hown, hge, hlt, hexit, hlaid⟩ := h
  have hstart : g.startState i < d.size := by
    refine Nat.lt_of_not_le fun hge => ?_
    rw [Draft.ways, Draft.state, Array.getElem?_eq_none hge] at hways
    cases hways
  have hnot : ∀ q, g.frameSize ≤ q → ¬touched q := fun q hq ht =>
    absurd (htouched q ht) (Nat.not_lt.mpr hq)
  refine ⟨entry, exit, ?_, hown.adds hadds, hge, Nat.lt_of_lt_of_le hlt hadds.size_le, ?_,
    fun W hW => ?_⟩
  · rw [hadds.ways_eq hstart hne, hways]
  · rw [hadds.ways_eq hlt (hnot exit hge), hexit]
  · rw [hadds.names]
    refine hlaid W fun q hge hlt => ?_
    rw [hW q hge (Nat.lt_of_lt_of_le hlt hadds.size_le), hadds.ways_eq hlt (hnot q hge)]

/-- **A state inside the body of a rule.** If the body ends with a symbol, that is consumed right
before the end. -/
structure Inside (g : Grammar) (r : Rule) (i : Nat) (d : Draft) (q : StateId) : Prop where
  wired : d.Wired i r.body.parts q
  tail : ∀ es v, r.body = .seq (es ++ [.token v]) → d.Wired i (Element.partsOf es) q ∨
    (∃ exit, d.ways q = [.atom exit v] ∧ g.frameSize ≤ exit ∧ exit < d.size ∧
      d.ways exit = [.epsilon (g.stopState i)]) ∨ d.ways q = [.epsilon (g.stopState i)]

theorem Inside.adds {g : Grammar} {r : Rule} {i : Nat} {d d' : Draft} {q : StateId}
    {touched : StateId → Prop} (h : Inside g r i d q) (hadds : d.Adds touched d')
    (htouched : ∀ q, touched q → q < g.frameSize) (hge : g.frameSize ≤ q) (hlt : q < d.size) :
    Inside g r i d' q := by
  have hnot : ∀ q, g.frameSize ≤ q → ¬touched q := fun q hq ht =>
    absurd (htouched q ht) (Nat.not_lt.mpr hq)
  refine ⟨h.wired.adds hadds hlt (hnot q hge), fun b v hbody => ?_⟩
  rw [hadds.ways_eq hlt (hnot q hge)]
  refine (h.tail b v hbody).imp (fun hw => hw.adds hadds hlt (hnot q hge)) (Or.imp_left ?_)
  rintro ⟨exit, hways, hexit_ge, hexit_lt, hexit⟩
  exact ⟨exit, hways, hexit_ge, Nat.lt_of_lt_of_le hexit_lt hadds.size_le,
    (hadds.ways_eq hexit_lt (hnot exit hexit_ge)).trans hexit⟩

/-- **The bodies of some rules** are between their ends, and nothing else is. -/
structure Bodied (g : Grammar) (done : List (Rule × Nat)) (d : Draft) : Prop where
  framed : Framed g d
  filed : d.Filed
  body : ∀ r i, (r, i) ∈ done → Between g r i d
  inside : ∀ q, g.frameSize ≤ q → q < d.size → ∃ r i, (r, i) ∈ done ∧ Inside g r i d q
  settled : ∀ S : StateId → State, (∀ q, g.frameSize ≤ q → q < d.size → S q = d.state q) →
    ∀ q, g.frameSize ≤ q → q < d.size →
      ∃ r i, (r, i) ∈ done ∧ Settled S d.Names i r.body.parts q

namespace Bodied

variable {g : Grammar} {done : List (Rule × Nat)} {d d' : Draft}

/-- The ways on from the other states of the frame do not matter to the bodies. -/
theorem adds {touched : StateId → Prop} (h : Bodied g done d) (hframed : Framed g d')
    (hfiled : d'.Filed) (hadds : d.Adds touched d') (hsize : d'.size = d.size)
    (htouched : ∀ q, touched q → q < g.frameSize)
    (hne : ∀ r i, (r, i) ∈ done → ¬touched (g.startState i)) : Bodied g done d' := by
  refine ⟨hframed, hfiled, fun r i hri => (h.body r i hri).adds hadds htouched (hne r i hri),
    fun q hge hlt => ?_, fun S hS q hge hlt => ?_⟩
  · rw [hsize] at hlt
    obtain ⟨r, i, hri, hinside⟩ := h.inside q hge hlt
    exact ⟨r, i, hri, hinside.adds hadds htouched hge hlt⟩
  · rw [hadds.names]
    refine h.settled S (fun p hp hlt' => ?_) q hge (hsize ▸ hlt)
    rw [hS p hp (hsize.symm ▸ hlt'), hadds.keeps p hlt' fun ht =>
      absurd (htouched p ht) (Nat.not_lt.mpr hp)]

theorem join (h : Bodied g done d) {s target : StateId} (hs : s < g.frameSize)
    (hne : ∀ r i, (r, i) ∈ done → g.startState i ≠ s) :
    Bodied g done (Layout.linked d s (.epsilon target)) :=
  h.adds (h.framed.link s _) h.filed.join (.change d s (fun _ => rfl) fun _ => rfl)
    Draft.size_change (fun _ hq => hq ▸ hs) hne

end Bodied

namespace Layout

open Draft

variable {g : Grammar} {d : Draft}

private theorem ruleBody_lays {done : List (Rule × Nat)} {r : Rule} {i : Nat}
    (hi : i < g.rules.length) (hnew : ∀ r' i', (r', i') ∈ done → i' ≠ i)
    (h : Bodied g done d) (hstart : d.ways (g.startState i) = []) :
    (ruleBody i r).Lays d fun _ d' => Bodied g (done ++ [(r, i)]) d' ∧
      d.Adds (· = g.startState i) d' := by
  refine (((element_lays i r.body d).and (element_tailed i r.body)).and
    (element_ruled i r.body d h.filed)).bind fun f d₁ ⟨⟨hpiece, htail⟩, hruled⟩ => ?_
  refine (Lays.get (Q := fun a d' => a = d₁ ∧ d' = d₁) ⟨rfl, rfl⟩).bind ?_
  rintro a b ⟨ha, hb⟩
  rw [ha, hb]
  have hframed₁ := h.framed.adds hpiece.adds
  rw [hframed₁.getD_start hi, hframed₁.getD_stop hi]
  refine join_bind (Lays.modifyGet ?_)
  change Bodied g (done ++ [(r, i)]) (linked (linked d₁ (g.startState i) (.epsilon f.entry)) f.exit
    (.epsilon (g.stopState i))) ∧ d.Adds (· = g.startState i) (linked (linked d₁ (g.startState i)
      (.epsilon f.entry)) f.exit (.epsilon (g.stopState i)))
  generalize hd' : linked (linked d₁ (g.startState i) (.epsilon f.entry)) f.exit
    (.epsilon (g.stopState i)) = d'
  have hframe := h.framed.size_ge
  have hstart_lt : g.startState i < d.size := Nat.lt_of_lt_of_le (g.startState_lt hi) hframe
  have hstart_lt₁ : g.startState i < d₁.size := Nat.lt_of_lt_of_le hstart_lt hpiece.adds.size_le
  have hexit_ge : g.frameSize ≤ f.exit := Nat.le_trans hframe hpiece.exit_ge
  have hexit_ne : f.exit ≠ g.startState i := Nat.ne_of_gt (Nat.lt_of_lt_of_le hstart_lt hpiece.exit_ge)
  have hsize : d'.size = d₁.size := by simp [← hd']
  have hadds₁ : d₁.Adds (fun q => q = g.startState i ∨ q = f.exit) d' := hd' ▸
    ((Adds.refl _ d₁).then_link fun _ => .inl rfl).then_link fun _ => .inr rfl
  have hadds : d.Adds (· = g.startState i) d' := by
    have hpiece' : d.Adds (· = g.startState i) d₁ := hpiece.adds.mono fun _ _ h => h.elim
    rw [← hd']
    exact (hpiece'.then_link fun _ => rfl).then_link fun hlt =>
      absurd hlt (Nat.not_lt.mpr hpiece.exit_ge)
  have hstart_ways : d'.ways (g.startState i) = [.epsilon f.entry] := by
    have hold : (d₁.state (g.startState i)).transitions = [] :=
      (hpiece.adds.ways_eq hstart_lt not_false).trans hstart
    rw [ways, ← hd', state_change, if_neg fun h => hexit_ne h.1.symm, state_change,
      if_pos ⟨rfl, hstart_lt₁⟩, hold]
    rfl
  have hexit_ways : d'.ways f.exit = [.epsilon (g.stopState i)] := by
    have hold : (d₁.state f.exit).transitions = [] := hpiece.exit_ways
    rw [ways, ← hd', state_change, if_pos ⟨rfl, size_change.symm ▸ hpiece.exit_lt⟩, state_change,
      if_neg fun h => hexit_ne h.1, hold]
    rfl
  have hnot : ∀ q, d.size ≤ q → q ≠ f.exit → ¬(q = g.startState i ∨ q = f.exit) := by
    rintro q hge hne (heq | heq)
    · exact Nat.ne_of_gt (Nat.lt_of_lt_of_le hstart_lt hge) heq
    · exact hne heq
  have hstop_owns : d'.Owns i (g.stopState i) :=
    Owns.adds ⟨Nat.lt_of_lt_of_le (g.stopState_lt hi) hframe, h.framed.stop_rule i hi,
      by rw [h.framed.stop_kind i hi]; decide⟩ hadds
  refine ⟨⟨hd' ▸ (hframed₁.link _ _).link _ _, hd' ▸ hruled.filed.join.join,
    fun r' i' hmem => ?_, fun q hge hlt => ?_, fun S hS q hge hlt => ?_⟩, hadds⟩
  · rcases List.mem_append.mp hmem with hmem | hmem
    · exact (h.body r' i' hmem).adds hadds (fun q hq => hq ▸ g.startState_lt hi) fun heq =>
        hnew r' i' hmem (g.startState_inj heq)
    · obtain ⟨rfl, rfl⟩ := Prod.mk.inj (List.mem_singleton.mp hmem)
      refine ⟨f.entry, f.exit, hstart_ways, ?_, hexit_ge, hsize ▸ hpiece.exit_lt, hexit_ways,
        fun W hW => ?_⟩
      · exact ((hpiece.wired _ hpiece.entry_ge hpiece.entry_lt).owns hpiece.entry_lt).adds hadds₁
      · rw [hadds.names]
        refine hpiece.laid W fun q hge hlt hne => ?_
        rw [hW q (Nat.le_trans hframe hge) (hsize ▸ hlt), hadds₁.ways_eq hlt (hnot q hge hne)]
  · rcases Nat.lt_or_ge q d.size with hlt' | hge'
    · obtain ⟨r', i', hmem, hinside⟩ := h.inside q hge hlt'
      exact ⟨r', i', List.mem_append_left _ hmem,
        hinside.adds hadds (fun q hq => hq ▸ g.startState_lt hi) hge hlt'⟩
    · have hlt₁ : q < d₁.size := hsize ▸ hlt
      have hkeep : ∀ parts, d₁.Wired i parts q → d'.Wired i parts q := by
        intro parts hwired
        by_cases hq : q = f.exit
        · subst hq
          refine hwired.of_plain hadds₁ hlt₁ ?_
            (fun _ => by rw [hexit_ways]; exact Nat.le_refl _) ?_
          · rw [Plain, hexit_ways]
            intro t ht
            exact ⟨_, List.mem_singleton.mp ht, hstop_owns⟩
          · obtain ⟨ts, heq⟩ := Framed.state_linked (linked d₁ (g.startState i) (.epsilon f.entry))
              f.exit (.epsilon (g.stopState i)) f.exit
            obtain ⟨ts', heq'⟩ := Framed.state_linked d₁ (g.startState i) (.epsilon f.entry) f.exit
            rw [← hd', heq, heq']
            exact hwired.greedy
        · exact hwired.adds hadds₁ hlt₁ (hnot q hge' hq)
      refine ⟨r, i, List.mem_append_right _ (List.mem_singleton_self _),
        hkeep _ (hpiece.wired q hge' hlt₁), fun b v hbody => ?_⟩
      by_cases hq : q = f.exit
      · exact .inr (.inr (hq ▸ hexit_ways))
      · rcases htail b v hbody q hge' hlt₁ with hwired | hways | heq
        · exact .inl (hkeep _ hwired)
        · refine .inr (.inl ⟨f.exit, ?_, hexit_ge, hsize ▸ hpiece.exit_lt, hexit_ways⟩)
          rw [hadds₁.ways_eq hlt₁ (hnot q hge' hq), hways]
        · exact absurd heq hq
  · rw [hsize] at hlt
    rcases Nat.lt_or_ge q d.size with hlt' | hge'
    · have hold : ∀ p, g.frameSize ≤ p → p < d.size → S p = d.state p := fun p hp hlt => by
        rw [hS p hp (Nat.lt_of_lt_of_le hlt hadds.size_le), hadds.keeps p hlt fun heq =>
          absurd (heq ▸ g.startState_lt hi) (Nat.not_lt.mpr hp)]
      obtain ⟨r', i', hmem, hsettled⟩ := h.settled S hold q hge hlt'
      exact ⟨r', i', List.mem_append_left _ hmem, hadds.names ▸ hsettled⟩
    · -- The exit is closed by the way to the end of the rule.
      have hclosed : d'.Settles d.Names i r.body.parts d.size fun _ => False := by
        rw [← hd']
        refine (hruled.settles.elsewhere size_change fun p hp _ => ?_).then_link ?_ (fun p => ?_)
          fun _ => rfl
        · rw [state_change, if_neg fun heq => Nat.ne_of_gt (Nat.lt_of_lt_of_le hstart_lt hp) heq.1]
        · rw [ways, state_change, if_neg fun heq => hexit_ne heq.1]
          exact hpiece.exit_ways
        · simp
      rw [hadds.names]
      refine ⟨r, i, List.mem_append_right _ (List.mem_singleton_self _), hclosed.settled S
        (fun p hp hlt _ => hS p (Nat.le_trans hframe hp) hlt) q hge' (hsize ▸ hlt) not_false⟩

private theorem mem_zipIdx {r : Rule} {i : Nat} (h : (r, i) ∈ g.rules.zipIdx) :
    g.rules[i]? = some r ∧ i < g.rules.length := by
  have hget := List.mem_zipIdx_iff_getElem?.mp h
  exact ⟨hget, (List.getElem?_eq_some_iff.mp hget).1⟩

private theorem bodies_lays (h : Framed g d) (hfiled : d.Filed) (hsize : d.size = g.frameSize)
    (hways : ∀ q < g.frameSize, d.ways q = []) :
    (g.rules.zipIdx.forM fun (r, i) => ruleBody i r).Lays d fun _ d' =>
      Bodied g g.rules.zipIdx d' ∧
        ∀ q < g.frameSize, (∀ i < g.rules.length, q ≠ g.startState i) → d'.ways q = [] := by
  refine (Lays.forM (fun done d' => Bodied g done d' ∧
    ∀ q < g.frameSize, (∀ r i, (r, i) ∈ done → q ≠ g.startState i) → d'.ways q = []) ?_
      ⟨⟨h, hfiled, nofun, fun q hge hlt => ?_, fun S _ q hge hlt => ?_⟩,
        fun q hq _ => hways q hq⟩).mono ?_
  · rintro done ⟨r, i⟩ rest heq d' ⟨hbodied, hold⟩
    have hmem : (r, i) ∈ g.rules.zipIdx := heq ▸ List.mem_append_right _ (List.mem_cons_self ..)
    have hi := (mem_zipIdx hmem).2
    -- Every rule has its own number.
    have hnew : ∀ r' i', (r', i') ∈ done → i' ≠ i := by
      rintro r' i' hr' rfl
      have hnodup : (g.rules.zipIdx.map Prod.snd).Nodup := by
        rw [List.zipIdx_map_snd]
        exact List.nodup_range'
      rw [heq, List.map_append, List.map_cons, List.nodup_append] at hnodup
      exact hnodup.2.2 i' (List.mem_map.mpr ⟨_, hr', rfl⟩) i' (List.mem_cons_self ..) rfl
    refine (ruleBody_lays hi hnew hbodied (hold _ (g.startState_lt hi) fun r' i' hr' heq' =>
      hnew r' i' hr' (g.startState_inj heq').symm)).mono ?_
    rintro _ d'' ⟨hbodied', hadds⟩
    refine ⟨hbodied', fun q hq hne => ?_⟩
    rw [hadds.ways_eq (Nat.lt_of_lt_of_le hq hbodied.framed.size_ge)
      (hne r i (List.mem_append_right _ (List.mem_singleton_self _)))]
    exact hold q hq fun r' i' hr' => hne r' i' (List.mem_append_left _ hr')
  · exact absurd (hsize ▸ hlt) (Nat.not_lt.mpr hge)
  · exact absurd (hsize ▸ hlt) (Nat.not_lt.mpr hge)
  · rintro _ d' ⟨hbodied, hold⟩
    exact ⟨hbodied, fun q hq hne => hold q hq fun r i hri => hne i (mem_zipIdx hri).2⟩

end Layout

/-! ## Ways between rules -/

namespace Grammar

/-- The mode of a token rule. -/
def ruleMode (g : Grammar) (r : Rule) : Nat := if r.mode < g.modeCount then r.mode else 0

/-- The start states of the token rules of a mode among some rules, in their order. -/
def tokenStarts (g : Grammar) (m : Nat) (rules : List (Rule × Nat)) : List StateId :=
  rules.filterMap fun (r, i) =>
    if r.tokenType.isSome && g.ruleMode r == m then some (g.startState i) else none

end Grammar

/-- **What a finished draft holds.** -/
structure Finished (g : Grammar) (modeStarts : List StateId) (d : Draft) : Prop where
  bodied : Bodied g g.rules.zipIdx d
  modes_eq : modeStarts = List.range g.modeCount
  mode_ways : ∀ m < g.modeCount, d.ways m = (g.tokenStarts m g.rules.zipIdx).map .epsilon
  stop_ways : ∀ i < g.rules.length, ∀ t, t ∈ d.ways (g.stopState i) ↔ g.kind = .parser ∧
    ∃ q start level follow,
      Transition.rule start i follow level ∈ d.ways q ∧ t = .epsilon follow

namespace Finished

variable {g : Grammar} {modeStarts : List StateId} {d : Draft}

/-- Where a way on is found: at the start of a mode, at the start or the end of a rule, or inside
one. -/
theorem ways_cases (h : Finished g modeStarts d) {q : StateId} {t : Transition}
    (ht : t ∈ d.ways q) :
    (q < g.modeCount ∧ ∃ i < g.rules.length, t = .epsilon (g.startState i)) ∨
    (∃ i < g.rules.length, q = g.startState i ∧
      ∃ entry, d.ways q = [.epsilon entry] ∧ d.Owns i entry) ∨
    (∃ i < g.rules.length, q = g.stopState i ∧ g.kind = .parser ∧
      ∃ p start level follow, Transition.rule start i follow level ∈ d.ways p ∧
        t = .epsilon follow) ∨
    g.frameSize ≤ q ∧ q < d.size ∧ ∃ r i, g.rules[i]? = some r ∧ Inside g r i d q := by
  have hlt : q < d.size := by
    refine Nat.lt_of_not_le fun hge => ?_
    rw [Draft.ways, Draft.state, Array.getElem?_eq_none hge] at ht
    cases ht
  rcases Nat.lt_or_ge q g.frameSize with hframe | hframe
  · rcases Grammar.frame_cases hframe with hm | ⟨i, hi, rfl | rfl⟩
    · rw [h.mode_ways q hm, List.mem_map] at ht
      obtain ⟨s, hs, rfl⟩ := ht
      obtain ⟨⟨r, i⟩, hri, hstart⟩ := List.mem_filterMap.mp hs
      have hi := (List.getElem?_eq_some_iff.mp (List.mem_zipIdx_iff_getElem?.mp hri)).1
      exact .inl ⟨hm, i, hi, congrArg Transition.epsilon
        (Option.some.inj (Option.ite_none_right_eq_some.mp hstart).2).symm⟩
    · obtain ⟨entry, exit, hways, hown, -⟩ := h.bodied.body g.rules[i] i
        (List.mem_zipIdx_iff_getElem?.mpr (List.getElem?_eq_getElem hi))
      exact .inr (.inl ⟨i, hi, rfl, entry, hways, hown⟩)
    · obtain ⟨hparser, p, start, level, follow, hcall, rfl⟩ := (h.stop_ways i hi t).mp ht
      exact .inr (.inr (.inl ⟨i, hi, rfl, hparser, p, start, level, follow, hcall, rfl⟩))
  · obtain ⟨r, i, hri, hinside⟩ := h.bodied.inside q hframe hlt
    exact .inr (.inr (.inr ⟨hframe, hlt, r, i, List.mem_zipIdx_iff_getElem?.mp hri, hinside⟩))

/-- A way on that is no plain step comes from a part of the body of a rule. -/
theorem of_not_epsilon (h : Finished g modeStarts d) {q : StateId} {t : Transition}
    (ht : t ∈ d.ways q) (hne : ∀ target, t ≠ .epsilon target) :
    ∃ r i, g.rules[i]? = some r ∧ ∃ p, d.Owns i p ∧ ∃ e ∈ r.body.parts, d.Comes i p e t := by
  rcases h.ways_cases ht with ⟨-, i, -, heq⟩ | ⟨i, -, -, entry, hways, -⟩ |
    ⟨i, -, -, -, p, _, _, _, -, heq⟩ | ⟨-, -, r, i, hr, hinside⟩
  · exact absurd heq (hne _)
  · rw [hways, List.mem_singleton] at ht
    exact absurd ht (hne _)
  · exact absurd heq (hne _)
  · rcases hinside.wired.ways with hall | ⟨-, t', p, hone, hp, e, he, hcomes⟩
    · obtain ⟨p, heq, -⟩ := hall t ht
      exact absurd heq (hne p)
    · rw [hone, List.mem_singleton] at ht
      exact ⟨r, i, hr, p, hp, e, he, ht ▸ hcomes⟩

end Finished

namespace Layout

open Draft

variable {g : Grammar} {d : Draft}

/-- One more way on from a state of the frame. -/
private theorem ways_linked {s : StateId} {t : Transition} (hs : s < d.size) (q : StateId) :
    (linked d s t).ways q = if q = s then d.ways q ++ [t] else d.ways q := by
  rw [ways, state_change]
  by_cases hq : q = s
  · rw [if_pos ⟨hq, hq ▸ hs⟩, if_pos hq]
    rfl
  · rw [if_neg fun h => hq h.1, if_neg hq]
    rfl

private theorem tokenRule_lays {r : Rule} {i : Nat} (hi : i < g.rules.length)
    (hmodes : 0 < g.modeCount) (h : Bodied g g.rules.zipIdx d) :
    (tokenRule (List.range g.modeCount) i r).Lays d fun _ d' => Bodied g g.rules.zipIdx d' ∧
      ∀ q, d'.ways q =
        if r.tokenType.isSome ∧ q = g.ruleMode r then d.ways q ++ [.epsilon (g.startState i)]
        else d.ways q := by
  unfold tokenRule
  cases htype : r.tokenType with
  | none => exact .pure ⟨h, fun q => by simp⟩
  | some type =>
    refine Lays.bind (Q := fun _ d' => d' = { d with maxTokenType := max d.maxTokenType type }) rfl ?_
    rintro _ d₁ rfl
    generalize hd₁ : { d with maxTokenType := max d.maxTokenType type } = d₁
    have hadds : d.Adds untouched d₁ := hd₁ ▸
      ⟨Nat.le_refl _, fun _ _ _ => rfl, fun _ _ => rfl, fun _ _ => rfl, rfl, rfl, rfl, rfl⟩
    have hways : ∀ q, d₁.ways q = d.ways q := fun q => hd₁ ▸ rfl
    have hfiled : d₁.Filed := h.filed.of_tables (hd₁ ▸ rfl) (hd₁ ▸ rfl) (hd₁ ▸ rfl)
      (hd₁ ▸ Nat.le_refl _)
    have hbodied := h.adds (h.framed.adds hadds) hfiled hadds (hd₁ ▸ rfl) (fun _ hq => hq.elim)
      fun _ _ _ => id
    refine (Lays.get (Q := fun a d' => a = d₁ ∧ d' = d₁) ⟨rfl, rfl⟩).bind ?_
    rintro a b ⟨ha, hb⟩
    have hmode : ((List.range g.modeCount)[r.mode]?).getD 0 = g.ruleMode r := by
      unfold Grammar.ruleMode
      split
      · next hlt => simp [hlt]
      · next hge => simp [hge]
    have hmode_lt : g.ruleMode r < g.modeCount := by
      unfold Grammar.ruleMode
      split <;> omega
    have hframe : g.ruleMode r < g.frameSize := Nat.lt_of_lt_of_le hmode_lt (Nat.le_add_right _ _)
    rw [ha, hb, hbodied.framed.getD_start hi, hmode]
    refine Lays.modifyGet ⟨hbodied.join hframe fun r' i' _ =>
      Nat.ne_of_gt (Nat.lt_of_lt_of_le hmode_lt (g.modeCount_le_startState i')), fun q => ?_⟩
    · change (linked d₁ (g.ruleMode r) _).ways q = _
      rw [ways_linked (Nat.lt_of_lt_of_le hframe hbodied.framed.size_ge), hways]
      simp

private theorem tokenRules_lays (hmodes : 0 < g.modeCount) (h : Bodied g g.rules.zipIdx d)
    (hold : ∀ q < g.frameSize, (∀ i < g.rules.length, q ≠ g.startState i) → d.ways q = []) :
    (g.rules.zipIdx.forM fun (r, i) => tokenRule (List.range g.modeCount) i r).Lays d fun _ d' =>
      Bodied g g.rules.zipIdx d' ∧
        (∀ m < g.modeCount, d'.ways m = (g.tokenStarts m g.rules.zipIdx).map Transition.epsilon) ∧
          ∀ i < g.rules.length, d'.ways (g.stopState i) = [] := by
  refine Lays.forM (fun done d' => Bodied g g.rules.zipIdx d' ∧
    (∀ m < g.modeCount, d'.ways m = (g.tokenStarts m done).map Transition.epsilon) ∧
      ∀ i < g.rules.length, d'.ways (g.stopState i) = []) ?_ ⟨h, fun m hm => ?_, fun i hi => ?_⟩
  · rintro done ⟨r, i⟩ rest heq d' ⟨hbodied, hmode, hstop⟩
    have hi := (mem_zipIdx (heq ▸ List.mem_append_right _ (List.mem_cons_self ..) :
      (r, i) ∈ g.rules.zipIdx)).2
    refine (tokenRule_lays hi hmodes hbodied).mono ?_
    rintro _ d'' ⟨hbodied', hways⟩
    have hlt : g.ruleMode r < g.modeCount := by
      unfold Grammar.ruleMode
      split <;> omega
    refine ⟨hbodied', fun m hm => ?_, fun j hj => ?_⟩
    · rw [hways, hmode m hm, Grammar.tokenStarts, Grammar.tokenStarts, List.filterMap_append,
        List.map_append]
      by_cases hr : r.tokenType.isSome = true ∧ m = g.ruleMode r
      · simp [hr]
      · rw [if_neg hr]
        have : ¬(r.tokenType.isSome = true ∧ g.ruleMode r = m) := fun h => hr ⟨h.1, h.2.symm⟩
        simp [this]
    · rw [hways, hstop j hj, if_neg]
      rintro ⟨-, heq'⟩
      exact Nat.ne_of_gt (Nat.lt_trans hlt (g.modeCount_lt_stopState j)) heq'
  · exact hold m (Nat.lt_of_lt_of_le hm (Nat.le_add_right _ _)) fun i _ =>
      Nat.ne_of_lt (Nat.lt_of_lt_of_le hm (g.modeCount_le_startState i))
  · exact hold _ (g.stopState_lt hi) fun j _ => (g.startState_ne_stopState j i).symm

/-- A call is made inside the body of a rule, and calls a rule. -/
private theorem of_call (h : Bodied g g.rules.zipIdx d) {q start follow : StateId} {callee : Nat}
    {level : Int} (hways : ∀ p < g.frameSize, ∀ t ∈ d.ways p, ∃ p', t = .epsilon p')
    (ht : Transition.rule start callee follow level ∈ d.ways q) :
    q < d.size ∧ callee < g.rules.length := by
  have hlt : q < d.size := by
    refine Nat.lt_of_not_le fun hge => ?_
    rw [ways, state, Array.getElem?_eq_none hge] at ht
    cases ht
  have hge : g.frameSize ≤ q := by
    refine Nat.le_of_not_lt fun hlt => ?_
    obtain ⟨p', hp'⟩ := hways q hlt _ ht
    cases hp'
  obtain ⟨r, i, -, hinside⟩ := h.inside q hge hlt
  rcases hinside.wired.ways with hall | ⟨-, t, p, hone, -, e, -, hcomes⟩
  · obtain ⟨p, hp, -⟩ := hall _ ht
    cases hp
  · rw [hone, List.mem_singleton] at ht
    obtain ⟨name, -, -, hn⟩ := hcomes.of_call ht.symm
    obtain ⟨r', hr', -⟩ := h.framed.of_names hn
    exact ⟨hlt, (List.getElem?_eq_some_iff.mp hr').1⟩

/-- **The links from the ends of rules** lead to where calls of the rules go on. -/
private theorem mem_followLinks (h : Bodied g g.rules.zipIdx d)
    (hways : ∀ p < g.frameSize, ∀ t ∈ d.ways p, ∃ p', t = .epsilon p')
    {s follow : StateId} : (s, follow) ∈ followLinks d ↔ ∃ i < g.rules.length,
      s = g.stopState i ∧ ∃ q start level, Transition.rule start i follow level ∈ d.ways q := by
  unfold followLinks
  rw [List.mem_flatMap]
  constructor
  · rintro ⟨st, hst, hlink⟩
    obtain ⟨t, ht, hmatch⟩ := List.mem_filterMap.mp hlink
    obtain ⟨q, hq, hqs⟩ := List.getElem_of_mem hst
    have hstate : d.state q = st := by
      rw [state, ← hqs]
      simp at hq
      simp [hq]
    split at hmatch
    · next start callee follow' level =>
      have ht' : Transition.rule start callee follow' level ∈ d.ways q := by rwa [ways, hstate]
      have hlt := (of_call h hways ht').2
      rw [h.framed.getD_stop hlt] at hmatch
      obtain ⟨rfl, rfl⟩ := Prod.mk.inj (Option.some.inj hmatch)
      exact ⟨callee, hlt, rfl, q, start, level, ht'⟩
    · cases hmatch
  · rintro ⟨i, hi, rfl, q, start, level, ht⟩
    have hlt := (of_call h hways ht).1
    refine ⟨d.state q, ?_, List.mem_filterMap.mpr ⟨_, ht, ?_⟩⟩
    · rw [state, Array.getElem?_eq_getElem hlt]
      exact Array.getElem_mem_toList hlt
    · simp only [h.framed.getD_stop hi]

private theorem joins_lays (h : Bodied g g.rules.zipIdx d) {links : List (StateId × StateId)}
    (hlinks : ∀ link ∈ links, ∃ i < g.rules.length, link.1 = g.stopState i) :
    (links.forM fun link : StateId × StateId => join link.1 link.2).Lays d fun _ d' =>
      Bodied g g.rules.zipIdx d' ∧
        (∀ q t, t ∈ d'.ways q ↔ t ∈ d.ways q ∨ ∃ link ∈ links, link.1 = q ∧ t = .epsilon link.2) ∧
          ∀ q, (∀ i < g.rules.length, q ≠ g.stopState i) → d'.ways q = d.ways q := by
  refine Lays.forM (fun (done : List (StateId × StateId)) d' => Bodied g g.rules.zipIdx d' ∧
    (∀ q t, t ∈ d'.ways q ↔ t ∈ d.ways q ∨ ∃ link ∈ done, link.1 = q ∧ t = .epsilon link.2) ∧
      ∀ q, (∀ i < g.rules.length, q ≠ g.stopState i) → d'.ways q = d.ways q) ?_
        ⟨h, fun q t => by simp, fun _ _ => rfl⟩
  rintro done ⟨s, follow⟩ rest heq d' ⟨hbodied, hways, hkeep⟩
  obtain ⟨i, hi, rfl⟩ := hlinks (s, follow) (heq ▸ List.mem_append_right _ (List.mem_cons_self ..))
  have hlt : g.stopState i < d'.size := Nat.lt_of_lt_of_le (g.stopState_lt hi) hbodied.framed.size_ge
  refine Lays.modifyGet ⟨hbodied.join (g.stopState_lt hi) fun r' i' _ =>
    g.startState_ne_stopState i' i, fun q t => ?_, fun q hq => ?_⟩
  · change t ∈ (linked d' (g.stopState i) _).ways q ↔ _
    rw [ways_linked hlt]
    split
    · next hq =>
      simp only [List.mem_append, hways, List.mem_singleton, or_assoc]
      refine or_congr_right ⟨?_, ?_⟩
      · rintro (⟨link, hlink, h⟩ | rfl)
        · exact ⟨link, .inl hlink, h⟩
        · exact ⟨_, .inr rfl, hq.symm, rfl⟩
      · rintro ⟨link, hlink | rfl, h, rfl⟩
        · exact .inl ⟨link, hlink, h, rfl⟩
        · exact .inr rfl
    · next hq =>
      simp only [List.mem_append, hways, List.mem_singleton]
      refine or_congr_right ⟨?_, ?_⟩
      · rintro ⟨link, hlink, h⟩
        exact ⟨link, .inl hlink, h⟩
      · rintro ⟨link, hlink | rfl, h, rfl⟩
        · exact ⟨link, hlink, h, rfl⟩
        · exact absurd h.symm hq
  · change (linked d' (g.stopState i) _).ways q = _
    rw [ways_linked hlt, if_neg (hq i hi), hkeep q hq]

/-- The passes in which a grammar is laid out. -/
theorem grammar_eq (g : Grammar) : grammar g =
    ((if g.kind = .lexer then g.modes.mapM modeStart else pure []) >>= fun modeStarts =>
      (List.range g.rules.length).forM ruleEnds >>= fun _ =>
        (g.rules.zipIdx.forM fun (r, i) => ruleBody i r) >>= fun _ =>
          (if g.kind = .lexer then g.rules.zipIdx.forM fun (r, i) => tokenRule modeStarts i r
            else get >>= fun d => (followLinks d).forM fun link => join link.1 link.2) >>= fun _ =>
              pure modeStarts) := by
  unfold grammar
  split <;> rfl

/-- **Laying out a grammar** finishes a draft. -/
theorem grammar_lays (g : Grammar) : (grammar g).Lays g.draft fun modeStarts d =>
    modeStarts = List.range g.modeCount ∧ ((g.kind = .lexer → 0 < g.modeCount) →
      Finished g modeStarts d) := by
  have hmodes : (if g.kind = .lexer then g.modes.mapM modeStart else pure []).Lays g.draft
      fun ss d => ss = List.range g.modeCount ∧ Ended g 0 d := by
    unfold Grammar.modeCount
    split
    · next hkind =>
      refine (modeStarts_lays rfl).mono ?_
      rintro ss d ⟨rfl, hadds, hsize, hdecisions, hall⟩
      rw [show g.draft.size = 0 from rfl] at hsize hall ⊢
      have hcount : g.modeCount = g.modes.length := if_pos hkind
      refine ⟨List.range_eq_range'.symm, hadds.grammar_eq, hadds.names_eq, hadds.starts_eq,
        hadds.stops_eq, by rw [hsize, hcount]; omega, by rw [hdecisions, hsize, hcount, Nat.zero_add],
        fun m hm => ?_, nofun, nofun⟩
      refine hall m (Nat.zero_le _) ?_
      omega
    · next hkind =>
      have hcount : g.modeCount = 0 := if_neg hkind
      refine .pure ⟨rfl, rfl, rfl, rfl, rfl, by rw [hcount]; rfl, by rw [hcount]; rfl,
        fun m hm => ?_, nofun, nofun⟩
      omega
  rw [grammar_eq]
  refine hmodes.bind ?_
  rintro ss d₁ ⟨rfl, hended⟩
  refine (allEnds_lays hended).bind fun _ d₂ hended => ?_
  obtain ⟨hframed, hfiled, hnil⟩ := hended.framed
  refine (bodies_lays hframed hfiled hended.size_eq hnil).bind ?_
  rintro _ d₃ ⟨hbodied, hold⟩
  have hstop_nil : ∀ i < g.rules.length, d₃.ways (g.stopState i) = [] := fun i hi =>
    hold _ (g.stopState_lt hi) fun j _ => (g.startState_ne_stopState j i).symm
  split
  · next hkind =>
    by_cases hmodes : 0 < g.modeCount
    · refine (tokenRules_lays hmodes hbodied hold).bind ?_
      rintro _ d₄ ⟨hbodied', hmode, hstop⟩
      refine .pure ⟨rfl, fun _ => ⟨hbodied', rfl, hmode, fun i hi t => ?_⟩⟩
      simp [hstop i hi, hkind]
    · exact Lays.any.bind fun _ _ _ => .pure ⟨rfl, fun h => absurd (h hkind) hmodes⟩
  · next hkind =>
    have hparser : g.kind = .parser := by
      cases hk : g.kind with
      | lexer => exact absurd hk hkind
      | parser => rfl
    have hcount : g.modeCount = 0 := if_neg hkind
    have hframe_ways : ∀ p < g.frameSize, ∀ t ∈ d₃.ways p, ∃ p', t = .epsilon p' := by
      intro p hp t ht
      by_cases hstart : ∃ i < g.rules.length, p = g.startState i
      · obtain ⟨i, hi, rfl⟩ := hstart
        obtain ⟨entry, exit, hways, -⟩ := hbodied.body g.rules[i] i
          (List.mem_zipIdx_iff_getElem?.mpr (List.getElem?_eq_getElem hi))
        rw [hways] at ht
        exact ⟨entry, List.mem_singleton.mp ht⟩
      · rw [hold p hp fun i hi heq => hstart ⟨i, hi, heq⟩] at ht
        cases ht
    refine Lays.bind (Q := fun _ d' => Bodied g g.rules.zipIdx d' ∧
      (∀ q t, t ∈ d'.ways q ↔ t ∈ d₃.ways q ∨
        ∃ link ∈ followLinks d₃, link.1 = q ∧ t = .epsilon link.2)) ?_ ?_
    · refine (Lays.get (Q := fun a d' => a = d₃ ∧ d' = d₃) ⟨rfl, rfl⟩).bind ?_
      rintro a b ⟨ha, hb⟩
      rw [ha, hb]
      refine (joins_lays hbodied fun link hlink => ?_).mono fun _ d' h => ⟨h.1, h.2.1⟩
      obtain ⟨i, hi, hs, -⟩ := (mem_followLinks hbodied hframe_ways).mp hlink
      exact ⟨i, hi, hs⟩
    · rintro _ d₄ ⟨hbodied', hways⟩
      refine .pure ⟨rfl, fun _ => ⟨hbodied', rfl, fun m hm => ?_, fun i hi t => ?_⟩⟩
      · exact absurd (hcount ▸ hm) (Nat.not_lt_zero m)
      · rw [hways, hstop_nil i hi]
        simp only [List.not_mem_nil, false_or, hparser, true_and]
        constructor
        · rintro ⟨⟨s, follow⟩, hlink, rfl, rfl⟩
          obtain ⟨j, hj, hs, q, start, level, ht⟩ := (mem_followLinks hbodied hframe_ways).mp hlink
          obtain rfl := g.stopState_inj hs
          exact ⟨q, start, level, follow, (hways _ _).mpr (.inl ht), rfl⟩
        · rintro ⟨q, start, level, follow, ht, rfl⟩
          refine ⟨(g.stopState i, follow), (mem_followLinks hbodied hframe_ways).mpr
            ⟨i, hi, rfl, q, start, level, ?_⟩, rfl, rfl⟩
          rcases (hways _ _).mp ht with ht | ⟨link, -, -, ht⟩
          · exact ht
          · cases ht

end Layout

end AdaptiveLL
