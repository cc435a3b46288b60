import AdaptiveLL.Proofs.Grammar.Drafts

/-!
# Elements that are laid out

`Laid` says how an element of a rule lies in a network: by which states and ways on its exit is
reached from its entry. It speaks of the ways on from all states but the exit, which are added when
it is known what comes next. `element_lays` shows that laying out an element does this, and wires
every state it adds.
-/

namespace AdaptiveLL

/-! ## Single steps of a layout -/

namespace Draft

/-- The draft with one more state. -/
def add (d : Draft) (kind : StateKind) (rule : Nat) : Draft :=
  { d with states := d.states.push { index := d.size, kind, rule } }

/-- The draft with a state changed. -/
def change (d : Draft) (s : StateId) (f : State → State) : Draft :=
  { d with states := d.states.modify s f }

/-- The draft with a state that has the next decision number. -/
def number (d : Draft) (s : StateId) : Draft :=
  { d.change s fun state => { state with decision := some d.decisions.size } with
    decisions := d.decisions.push s }

variable {d : Draft} {kind : StateKind} {rule : Nat} {s q : StateId} {f : State → State}

@[simp] theorem size_add : (d.add kind rule).size = d.size + 1 := by simp [add, size]

@[simp] theorem size_change : (d.change s f).size = d.size := by simp [change, size]

@[simp] theorem size_number : (d.number s).size = d.size := by simp [number, change, size]

@[simp] theorem decisions_add : (d.add kind rule).decisions = d.decisions := rfl

@[simp] theorem decisions_change : (d.change s f).decisions = d.decisions := rfl

theorem state_add (d : Draft) (kind : StateKind) (rule : Nat) (q : StateId) :
    (d.add kind rule).state q =
      if q = d.size then { index := d.size, kind, rule } else d.state q := by
  unfold state add
  simp only [Array.getElem?_push, size]
  split <;> simp_all

theorem state_change (d : Draft) (s : StateId) (f : State → State) (q : StateId) :
    (d.change s f).state q = if q = s ∧ q < d.size then f (d.state q) else d.state q := by
  unfold state change size
  simp only [Array.getElem?_modify, eq_comm (a := s)]
  by_cases hq : q < d.states.size
  · simp only [hq, and_true, Array.getElem?_eq_getElem]
    split <;> rfl
  · simp [hq]

/-- The first of two new states, after a change to it. -/
theorem state_change_pair (d : Draft) (kind kind' : StateKind) (rule rule' : Nat)
    (f : State → State) : (((d.add kind rule).add kind' rule').change d.size f).state d.size =
      f { index := d.size, kind, rule } := by
  have hlt : d.size < d.size + 1 := Nat.lt_succ_self _
  have hin : d.size < ((d.add kind rule).add kind' rule').size := by
    rw [size_add, size_add]
    exact Nat.lt_succ_of_lt hlt
  rw [state_change, if_pos ⟨rfl, hin⟩, state_add, size_add, if_neg (Nat.ne_of_lt hlt), state_add,
    if_pos rfl]

theorem state_number (d : Draft) (s : StateId) (q : StateId) :
    (d.number s).state q =
      if q = s ∧ q < d.size then { d.state q with decision := some d.decisions.size }
      else d.state q :=
  state_change d s _ q

namespace Adds

theorem add (d : Draft) (kind : StateKind) (rule : Nat) :
    Adds (fun _ => False) d (d.add kind rule) := by
  have hkeeps : ∀ q < d.size, (d.add kind rule).state q = d.state q := fun q hq => by
    rw [state_add, if_neg (Nat.ne_of_lt hq)]
  exact {
    size_le := by simp
    keeps := fun q hq _ => hkeeps q hq
    rule_eq := fun q hq => by rw [hkeeps q hq]
    kind_eq := fun q hq => by rw [hkeeps q hq]
    grammar_eq := rfl
    names_eq := rfl
    starts_eq := rfl
    stops_eq := rfl }

theorem change (d : Draft) (s : StateId) {f : State → State}
    (hrule : ∀ state, (f state).rule = state.rule) (hkind : ∀ state, (f state).kind = state.kind) :
    Adds (· = s) d (d.change s f) where
  size_le := by simp
  keeps q _ hne := by rw [state_change, if_neg fun h => hne h.1]
  rule_eq q _ := by
    rw [state_change]
    split
    · exact hrule _
    · rfl
  kind_eq q _ := by
    rw [state_change]
    split
    · exact hkind _
    · rfl
  grammar_eq := rfl
  names_eq := rfl
  starts_eq := rfl
  stops_eq := rfl

theorem number (d : Draft) (s : StateId) : Adds (· = s) d (d.number s) :=
  let h := Adds.change d s (f := fun state => { state with decision := some d.decisions.size })
    (fun _ => rfl) fun _ => rfl
  ⟨h.size_le, h.keeps, h.rule_eq, h.kind_eq, rfl, rfl, rfl, rfl⟩

end Adds

end Draft

/-- The draft with one more way on from a state. -/
abbrev Layout.linked (d : Draft) (s : StateId) (t : Transition) : Draft :=
  d.change s fun state => { state with transitions := state.transitions ++ [t] }

namespace Draft.Adds

variable {touched : StateId → Prop} {d d₁ : Draft} {s : StateId}

theorem then_add {kind : StateKind} {rule : Nat} (h : Adds touched d d₁) :
    Adds touched d (d₁.add kind rule) :=
  h.trans (.add d₁ kind rule) fun _ _ hq => hq.elim

theorem then_change {f : State → State} (h : Adds touched d d₁)
    (hrule : ∀ state, (f state).rule = state.rule) (hkind : ∀ state, (f state).kind = state.kind)
    (hs : s < d.size → touched s) : Adds touched d (d₁.change s f) :=
  h.trans (.change d₁ s hrule hkind) fun _ hq heq => heq ▸ hs (heq ▸ hq)

theorem then_link {t : Transition} (h : Adds touched d d₁) (hs : s < d.size → touched s) :
    Adds touched d (Layout.linked d₁ s t) :=
  h.then_change (fun _ => rfl) (fun _ => rfl) hs

theorem then_number (h : Adds touched d d₁) (hs : s < d.size → touched s) :
    Adds touched d (d₁.number s) :=
  h.trans (.number d₁ s) fun _ hq heq => heq ▸ hs (heq ▸ hq)

end Draft.Adds

namespace Layout

variable {α : Type} {d : Draft} {R : α → Draft → Prop}

theorem newState_bind {kind : StateKind} {rule : Nat} {f : StateId → Layout α}
    (h : (f d.size).Lays (d.add kind rule) R) : (newState kind rule >>= f).Lays d R := h

theorem update_bind {s : StateId} {g : State → State} {f : PUnit → Layout α}
    (h : (f ⟨⟩).Lays (d.change s g) R) : (update s g >>= f).Lays d R := h

theorem link_bind {s : StateId} {t : Transition} {f : PUnit → Layout α}
    (h : (f ⟨⟩).Lays (linked d s t) R) : (link s t >>= f).Lays d R := h

theorem join_bind {s target : StateId} {f : PUnit → Layout α}
    (h : (f ⟨⟩).Lays (linked d s (.epsilon target)) R) : (join s target >>= f).Lays d R := h

theorem attach_bind {block alternative : Fragment} {f : PUnit → Layout α}
    (h : (f ⟨⟩).Lays (linked (linked d block.entry (.epsilon alternative.entry)) alternative.exit
      (.epsilon block.exit)) R) : (attach block alternative >>= f).Lays d R := h

theorem decide_bind {s : StateId} {f : PUnit → Layout α} (h : (f ⟨⟩).Lays (d.number s) R) :
    (decide s >>= f).Lays d R := h

end Layout

/-! ## Where elements lie -/

/-- The characters of a text lie in a chain. -/
def LaidText (W : StateId → List Transition) : StateId → List Char → StateId → Prop
  | s, [], exit => s = exit
  | s, c :: cs, exit => ∃ next, W s = [.atom next c.toNat] ∧ LaidText W next cs exit

/-- The ways into a loop and out of it. -/
def branchWays (greedy : Bool) (block exit : StateId) : List Transition :=
  if greedy then [.epsilon block, .epsilon exit] else [.epsilon exit, .epsilon block]

/-- The ways into the alternatives of an option and past them. -/
def optionWays (greedy : Bool) (targets : List StateId) (exit : StateId) : List Transition :=
  if greedy then targets.map .epsilon ++ [.epsilon exit]
  else .epsilon exit :: targets.map .epsilon

mutual

/-- **The element lies between two states,** given the ways on from all states and the rules of all
names. The exit is where what comes next goes on. -/
inductive Laid (W : StateId → List Transition) (N : String → Nat → StateId → Prop) (rule : Nat) :
    Element → StateId → StateId → Prop where
  | leaf {e : Element} {t : StateId → Transition} {entry exit : StateId} :
      e.Leaf rule t → W entry = [t exit] → Laid W N rule e entry exit
  | text {text : String} {entry exit : StateId} :
      text.toList ≠ [] → LaidText W entry text.toList exit → Laid W N rule (.literal text) entry exit
  | call {name : String} {level : Int} {callee : Nat} {start entry exit : StateId} :
      N name callee start → W entry = [.rule start callee exit level] →
        Laid W N rule (.ruleRef name level) entry exit
  | seq {e : Element} {rest : List Element} {entry next exit : StateId} :
      Laid W N rule e entry next → LaidRest W N rule next rest exit →
        Laid W N rule (.seq (e :: rest)) entry exit
  | only {e : Element} {entry exit : StateId} :
      Laid W N rule e entry exit → Laid W N rule (.alt [e]) entry exit
  | alt {es : List Element} {entry exit : StateId} {targets : List StateId} :
      es ≠ [] → LaidAlts W N rule exit es targets → W entry = targets.map .epsilon →
        Laid W N rule (.alt es) entry exit
  | optional {e : Element} {greedy : Bool} {entry exit : StateId} {targets : List StateId} :
      LaidAlts W N rule exit e.choices targets → W entry = optionWays greedy targets exit →
        Laid W N rule (.optional e greedy) entry exit
  | star {e : Element} {greedy : Bool} {entry exit first last back : StateId}
      {targets : List StateId} :
      LaidAlts W N rule last e.choices targets → W first = targets.map .epsilon →
        W last = [.epsilon back] → W back = [.epsilon entry] →
        W entry = branchWays greedy first exit → Laid W N rule (.star e greedy) entry exit
  | plus {e : Element} {greedy : Bool} {entry exit last back : StateId} {targets : List StateId} :
      LaidAlts W N rule last e.choices targets → W entry = targets.map .epsilon →
        W last = [.epsilon back] → W back = branchWays greedy entry exit →
        Laid W N rule (.plus e greedy) entry exit

/-- The elements lie one after the other, from the exit of what comes before them. -/
inductive LaidRest (W : StateId → List Transition) (N : String → Nat → StateId → Prop)
    (rule : Nat) : StateId → List Element → StateId → Prop where
  | nil {exit : StateId} : LaidRest W N rule exit [] exit
  | cons {e : Element} {es : List Element} {before entry next exit : StateId} :
      W before = [.epsilon entry] → Laid W N rule e entry next → LaidRest W N rule next es exit →
        LaidRest W N rule before (e :: es) exit

/-- The elements lie beside each other, from their targets to a common exit. -/
inductive LaidAlts (W : StateId → List Transition) (N : String → Nat → StateId → Prop)
    (rule : Nat) : StateId → List Element → List StateId → Prop where
  | nil {exit : StateId} : LaidAlts W N rule exit [] []
  | cons {e : Element} {es : List Element} {target last exit : StateId} {targets : List StateId} :
      Laid W N rule e target last → W last = [.epsilon exit] →
        LaidAlts W N rule exit es targets → LaidAlts W N rule exit (e :: es) (target :: targets)

end

theorem LaidAlts.length_eq {W : StateId → List Transition} {N : String → Nat → StateId → Prop}
    {rule : Nat} {exit : StateId} {es : List Element} {targets : List StateId}
    (h : LaidAlts W N rule exit es targets) : targets.length = es.length := by
  induction targets generalizing es with
  | nil => cases h; rfl
  | cons target targets ih =>
    cases h with
    | cons _ _ hrest => rw [List.length_cons, List.length_cons, ih hrest]

theorem Draft.Adds.names {touched : StateId → Prop} {d d' : Draft} (h : d.Adds touched d') :
    d'.Names = d.Names := by
  funext name callee start
  refine propext ⟨fun hn => ⟨h.names_eq ▸ hn.name_eq, h.starts_eq ▸ hn.start_eq⟩, fun hn => ?_⟩
  exact hn.adds h

/-! ## Pieces of a layout -/

/-- No state. -/
abbrev untouched : StateId → Prop := fun _ => False

/-- **A fragment was laid out** for an element of a rule. -/
structure Piece (rule : Nat) (e : Element) (d : Draft) (f : Fragment) (d' : Draft) : Prop where
  adds : d.Adds untouched d'
  entry_ge : d.size ≤ f.entry
  entry_lt : f.entry < d'.size
  exit_ge : d.size ≤ f.exit
  exit_lt : f.exit < d'.size
  exit_ways : d'.ways f.exit = []
  wired : ∀ q, d.size ≤ q → q < d'.size → d'.Wired rule e.parts q
  laid : ∀ W : StateId → List Transition,
    (∀ q, d.size ≤ q → q < d'.size → q ≠ f.exit → W q = d'.ways q) →
      Laid W d.Names rule e f.entry f.exit

namespace Layout

open Draft

variable {d : Draft} {rule : Nat}

/-- Two new states, one way on between them. -/
private theorem pair_piece {e : Element} {t : Transition}
    (hcomes : d.Comes rule (d.size + 1) e t)
    (hlaid : ∀ W : StateId → List Transition, W d.size = [t] →
      Laid W d.Names rule e d.size (d.size + 1)) :
    Piece rule e d ⟨d.size, d.size + 1⟩
      (linked ((d.add .basic rule).add .basic rule) d.size t) := by
  have hadds₁ := (Adds.add d .basic rule).trans (Adds.add (d.add .basic rule) .basic rule)
    fun _ _ h => h
  have hadds : d.Adds untouched (linked ((d.add .basic rule).add .basic rule) d.size t) :=
    hadds₁.trans (Adds.change _ d.size (fun _ => rfl) fun _ => rfl) fun q hq h => by
      change q = d.size at h
      omega
  have hsize : (linked ((d.add .basic rule).add .basic rule) d.size t).size = d.size + 2 := by simp
  have hentry : (linked ((d.add .basic rule).add .basic rule) d.size t).state d.size =
      { index := d.size, kind := .basic, rule, transitions := [t] } :=
    state_change_pair ..
  have hexit : (linked ((d.add .basic rule).add .basic rule) d.size t).state (d.size + 1) =
      { index := d.size + 1, kind := .basic, rule } := by
    simp [state_change, state_add]
  refine ⟨hadds, Nat.le_refl _, by rw [hsize]; exact Nat.lt_add_of_pos_right (by decide),
    Nat.le_succ _, by rw [hsize]; exact Nat.lt_succ_self _, by rw [ways, hexit], ?_, ?_⟩
  · intro q hge hlt
    have hq : q = d.size ∨ q = d.size + 1 := by
      rw [hsize] at hlt
      omega
    rcases hq with rfl | rfl
    · refine ⟨by rw [hentry], by rw [hentry]; rfl, by rw [hentry]; exact (absurd · Bool.false_ne_true),
        fun _ => by rw [ways, hentry]; exact Nat.le_refl _, .inr ⟨by rw [hentry], ?_⟩⟩
      exact ⟨t, d.size + 1, by rw [ways, hentry],
        .of_inner (by rw [hsize]; exact Nat.lt_succ_self _) (by rw [hexit]) (by rw [hexit]; rfl), e,
        e.self_mem_parts, hcomes.adds hadds⟩
    · exact .of_basic hexit
  · intro W hW
    refine hlaid W ?_
    rw [hW d.size (Nat.le_refl _) (by rw [hsize]; exact Nat.lt_add_of_pos_right (by decide)) (by simp),
      ways, hentry]

/-- **A leaf is laid out** as a single transition. -/
theorem single_lays {e : Element} {t : StateId → Transition} (h : e.Leaf rule t) :
    (single rule t).Lays d (Piece rule e d) :=
  newState_bind (newState_bind (link_bind (.pure (by
    rw [size_add]
    exact pair_piece (.leaf h) fun _ hW => .leaf h hW))))

/-! ## Leaves -/

end Layout

namespace Piece

variable {rule : Nat} {e : Element} {d d₁ d' : Draft} {f : Fragment}

/-- A step before that adds no state does not matter. -/
theorem after (hadds : d.Adds untouched d₁) (hsize : d₁.size = d.size)
    (h : Piece rule e d₁ f d') : Piece rule e d f d' where
  adds := hadds.trans h.adds fun _ _ hq => hq
  entry_ge := hsize ▸ h.entry_ge
  entry_lt := h.entry_lt
  exit_ge := hsize ▸ h.exit_ge
  exit_lt := h.exit_lt
  exit_ways := h.exit_ways
  wired q hge hlt := h.wired q (hsize.symm ▸ hge) hlt
  laid W hW := by
    rw [← hadds.names]
    exact h.laid W fun q hge => hW q (hsize ▸ hge)

end Piece

namespace Layout

open Draft

variable {d : Draft} {rule : Nat}

theorem noteToken_bind {α : Type} {v : Symbol} {f : PUnit → Layout α}
    {R : α → Draft → Prop}
    (h : ∀ d₁ : Draft, d.Adds untouched d₁ → d₁.size = d.size → (f ⟨⟩).Lays d₁ R) :
    (noteToken v >>= f).Lays d R := by
  unfold noteToken
  refine h (if d.kind = .parser then { d with maxTokenType := max d.maxTokenType v } else d) ?_ ?_
  · split
    · exact ⟨Nat.le_refl _, fun _ _ _ => rfl, fun _ _ => rfl, fun _ _ => rfl, rfl, rfl, rfl, rfl⟩
    · exact .refl _ d
  · split <;> rfl

theorem require_bind {α : Type} {kind : GrammarKind} {construct : String}
    {f : PUnit → Layout α} {R : α → Draft → Prop} (h : d.kind = kind → (f ⟨⟩).Lays d R) :
    (require kind construct >>= f).Lays d R := by
  refine Lays.bind (Q := fun _ d' => d' = d ∧ d.kind = kind) ?_ fun _ _ ⟨hd, hkind⟩ => hd ▸ h hkind
  unfold require
  refine (Lays.get (Q := fun a d' => a = d ∧ d' = d) ⟨rfl, rfl⟩).bind ?_
  rintro _ _ ⟨rfl, rfl⟩
  split
  · exact .throw
  · next hkind => exact .pure ⟨rfl, Decidable.not_not.mp hkind⟩

theorem command_lays {e : Element} {c : Command} (h : ∀ i, e.Leaf rule (.action · rule i false)) :
    (command rule c).Lays d (Piece rule e d) := by
  unfold command
  refine Lays.bind (Q := fun _ d₁ => d.Adds untouched d₁ ∧ d₁.size = d.size) ?_ fun i d₁ hd₁ =>
    (single_lays (h i)).mono fun f d' hpiece => hpiece.after hd₁.1 hd₁.2
  refine Lays.modifyGet ?_
  split
  · exact ⟨.refl _ d, rfl⟩
  · exact ⟨⟨Nat.le_refl _, fun _ _ _ => rfl, fun _ _ => rfl, fun _ _ => rfl, rfl, rfl, rfl, rfl⟩,
      rfl⟩

/-- **A call is laid out** as a single transition. -/
theorem call_lays {name : String} {level : Int} :
    (call rule name level).Lays d (Piece rule (.ruleRef name level) d) := by
  unfold call
  refine (Lays.get (Q := fun a d' => a = d ∧ d' = d) ⟨rfl, rfl⟩).bind ?_
  rintro _ _ ⟨rfl, rfl⟩
  split
  · exact .throw
  · next callee hcallee =>
    refine newState_bind (newState_bind (link_bind (.pure ?_)))
    rw [size_add]
    exact pair_piece (.call ⟨hcallee, rfl⟩) fun _ hW => .call ⟨hcallee, rfl⟩ hW

/-! ## Texts -/

/-- A chain of characters from a state without ways on. -/
private theorem chain_lays {text : String} :
    ∀ (cs : List Char), (∀ c ∈ cs, c ∈ text.toList) → ∀ {d : Draft} {s : StateId}, s < d.size →
      d.ways s = [] → (d.state s).decision = none → d.Wired rule [.literal text] s →
      (chain rule s cs).Lays d fun exit d' => d.Adds (· = s) d' ∧ exit < d'.size ∧
        s ≤ exit ∧ (cs ≠ [] → d.size ≤ exit) ∧ d'.ways exit = [] ∧
        d'.Wired rule [.literal text] s ∧
        (∀ q, d.size ≤ q → q < d'.size → d'.Wired rule [.literal text] q) ∧
        ∀ W : StateId → List Transition,
          (∀ q, q = s ∨ d.size ≤ q → q < d'.size → q ≠ exit → W q = d'.ways q) →
            LaidText W s cs exit
  | [], _, d, s, hs, hways, _, hwired =>
    .pure ⟨.refl _ d, hs, Nat.le_refl _, fun h => (h rfl).elim, hways, hwired,
      fun q hge hlt => absurd hlt (Nat.not_lt.mpr hge), fun _ _ => rfl⟩
  | c :: cs, hcs, d, s, hs, hways, hdecision, hwired => by
    refine newState_bind (link_bind ?_)
    -- The draft with the next state, to which the character leads.
    generalize hd₁ : linked (d.add .basic rule) s (.atom d.size c.toNat) = d₁
    have hadds : d.Adds (· = s) d₁ := hd₁ ▸
      (Adds.add d .basic rule |>.mono fun _ _ h => h.elim).trans
        (Adds.change _ s (fun _ => rfl) fun _ => rfl) fun _ _ h => h
    have hsize : d₁.size = d.size + 1 := by simp [← hd₁]
    have hstate : d₁.state s = { d.state s with
        transitions := (d.state s).transitions ++ [.atom d.size c.toNat] } := by
      simp [← hd₁, state_change, state_add, Nat.ne_of_lt hs, Nat.lt_succ_of_lt hs]
    have hnext : d₁.state d.size = { index := d.size, kind := .basic, rule } := by
      simp [← hd₁, state_change, state_add, Nat.ne_of_gt hs]
    have hways₁ : d₁.ways s = [.atom d.size c.toNat] := by
      change (d₁.state s).transitions = _
      rw [hstate]
      change d.ways s ++ _ = _
      rw [hways, List.nil_append]
    have hnext_lt : d.size < d₁.size := by omega
    refine Lays.mono (chain_lays cs (fun x hx => hcs x (List.mem_cons_of_mem _ hx)) hnext_lt
      (by rw [ways, hnext]) (by rw [hnext]) (.of_basic hnext)) ?_
    rintro exit d' ⟨hadds', hexit, hle, _, hexit_ways, hwired', hnew, htext⟩
    have hne : s ≠ d.size := Nat.ne_of_lt hs
    have hs₁ : s < d₁.size := Nat.lt_of_lt_of_le hs hadds.size_le
    have hways' : d'.ways s = [.atom d.size c.toNat] := by
      rw [hadds'.ways_eq hs₁ hne, hways₁]
    refine ⟨hadds.trans hadds' fun q hq h => absurd h (Nat.ne_of_lt hq), hexit,
      Nat.le_trans (Nat.le_of_lt hs) hle, fun _ => hle, hexit_ways, ?_, ?_, ?_⟩
    · refine ⟨(hadds'.rule_eq s hs₁).trans ((hadds.rule_eq s hs).trans hwired.rule_eq),
        by rw [hadds'.kind_eq s hs₁, hadds.kind_eq s hs]; exact hwired.inner,
        by rw [hadds'.keeps s hs₁ hne, hstate]; exact hwired.greedy,
        fun _ => by rw [hways']; exact Nat.le_refl _, .inr ⟨?_, ?_⟩⟩
      · rw [hadds'.keeps s hs₁ hne, hstate]
        exact hdecision
      -- The state that was last until now leads on by the character.
      · have howns : d₁.Owns rule d.size := .of_inner hnext_lt (by rw [hnext]) (by rw [hnext]; rfl)
        refine ⟨_, d.size, hways', howns.adds hadds', _, List.mem_singleton.mpr rfl, ?_⟩
        exact .char (hcs c (List.mem_cons_self ..))
    · intro q hge hlt
      rcases Nat.eq_or_lt_of_le hge with rfl | hgt
      · exact hwired'
      · exact hnew q (by rw [hsize]; exact hgt) hlt
    -- A network that agrees with the draft on the chain reads this character, then the others.
    · intro W hW
      have hexit_ne : s ≠ exit := Nat.ne_of_lt (Nat.lt_of_lt_of_le hs hle)
      have hs' : s < d'.size := Nat.lt_of_lt_of_le hs₁ hadds'.size_le
      refine ⟨d.size, (hW s (.inl rfl) hs' hexit_ne).trans hways', htext W ?_⟩
      intro q hq hlt hne'
      refine hW q (.inr ?_) hlt hne'
      rcases hq with rfl | hq
      · exact Nat.le_refl _
      · omega

/-- **A text is laid out** as a chain. -/
theorem literal_lays {text : String} :
    (literal rule text).Lays d (Piece rule (.literal text) d) := by
  unfold literal
  refine require_bind fun _ => ?_
  split
  · next hnil => exact single_lays (.blank hnil)
  · next hne =>
    refine newState_bind ?_
    have hadds := Adds.add d .basic rule
    have hstate : (d.add .basic rule).state d.size = { index := d.size, kind := .basic, rule } := by
      simp [state_add]
    refine Lays.bind (chain_lays text.toList (fun _ h => h) (by simp) (by rw [ways, hstate])
      (by rw [hstate]) (.of_basic hstate)) ?_
    rintro exit d' ⟨hadds', hexit, hle, _, hexit_ways, hwired, hnew, htext⟩
    have hsize := hadds'.size_le
    rw [size_add] at hsize hnew htext
    refine .pure ⟨hadds.trans hadds' fun q hq h => absurd h (Nat.ne_of_lt hq), Nat.le_refl _,
      hsize, hle, hexit, hexit_ways, ?_, ?_⟩
    · intro q hge hlt
      rcases Nat.eq_or_lt_of_le hge with rfl | hgt
      · exact hwired
      · exact hnew q hgt hlt
    · intro W hW
      refine .text hne (htext W fun q hq hlt hne' => hW q ?_ hlt hne')
      rcases hq with rfl | hq
      · exact Nat.le_refl _
      · omega

end Layout

end AdaptiveLL
