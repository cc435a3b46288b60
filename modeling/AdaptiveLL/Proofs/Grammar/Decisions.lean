import AdaptiveLL.Proofs.Grammar.Elements

/-!
# Decisions that are laid out

Of the states that are laid out for an element each is *settled*: it has one way on and is no
decision, or it is the decision of a part of the element, and its ways on are the alternatives of
that part in their order. Only the exit is left open until it is known what comes next. No state is
made a decision twice, so that the table of decisions and the states name each other.
-/

namespace AdaptiveLL

/-! ## Tables that match the states -/

namespace Draft

/-- The transition runs no command that a lexer does not have. -/
def Runs (d : Draft) (t : Transition) : Prop :=
  ∀ target rule index contextual, t = .action target rule index contextual → d.kind = .lexer →
    index < d.commands.length

/-- **The tables of the draft match its states.** -/
structure Filed (d : Draft) : Prop where
  index_eq : ∀ q < d.size, (d.state q).index = q
  decision_iff : ∀ (k : Nat) (s : StateId),
    d.decisions[k]? = some s ↔ s < d.size ∧ (d.state s).decision = some k
  runs : ∀ q, ∀ t ∈ d.ways q, d.Runs t

theorem runs_of_isAction {d : Draft} {t : Transition} (h : t.isAction = false) : d.Runs t := by
  rintro target rule index contextual rfl
  cases h

theorem runs_epsilon (d : Draft) (target : StateId) : d.Runs (.epsilon target) :=
  runs_of_isAction rfl

namespace Filed

variable {d : Draft} {kind : StateKind} {rule : Nat} {s : StateId}

theorem add (h : d.Filed) (kind : StateKind) (rule : Nat) : (d.add kind rule).Filed := by
  refine ⟨fun q hq => ?_, fun k s => ?_, fun q t ht => ?_⟩
  · rw [state_add]
    split_ifs with heq
    · exact heq.symm
    · rw [size_add] at hq
      exact h.index_eq q (Nat.lt_of_le_of_ne (Nat.lt_succ_iff.mp hq) heq)
  · rw [decisions_add, h.decision_iff, state_add, size_add]
    split_ifs with heq
    · simp [heq]
    · exact and_congr_left fun _ => ⟨Nat.lt_succ_of_lt, fun hlt =>
        Nat.lt_of_le_of_ne (Nat.lt_succ_iff.mp hlt) heq⟩
  · rw [ways, state_add] at ht
    split_ifs at ht with heq
    · cases ht
    · exact h.runs q t ht

/-- A state may be changed, but for its number and its decision. -/
theorem change (h : d.Filed) {f : State → State} (hindex : ∀ state, (f state).index = state.index)
    (hdecision : ∀ state, (f state).decision = state.decision)
    (hways : ∀ state, ∀ t ∈ (f state).transitions, t ∈ state.transitions ∨ d.Runs t) :
    (d.change s f).Filed := by
  refine ⟨fun q hq => ?_, fun k s' => ?_, fun q t ht => ?_⟩
  · rw [size_change] at hq
    rw [state_change]
    split_ifs
    · exact (hindex _).trans (h.index_eq q hq)
    · exact h.index_eq q hq
  · rw [decisions_change, h.decision_iff, state_change, size_change]
    split_ifs
    · rw [hdecision]
    · rfl
  · rw [ways, state_change] at ht
    split_ifs at ht
    · exact (hways _ t ht).elim (h.runs q t) id
    · exact h.runs q t ht

theorem link (h : d.Filed) {t : Transition} (ht : d.Runs t) : (Layout.linked d s t).Filed :=
  h.change (fun _ => rfl) (fun _ => rfl) fun _ _ hmem =>
    (List.mem_append.mp hmem).imp_right fun hmem => by rwa [List.mem_singleton.mp hmem]

theorem join (h : d.Filed) {target : StateId} : (Layout.linked d s (.epsilon target)).Filed :=
  h.link (d.runs_epsilon target)

/-- What else is noted in a draft does not matter, as long as no command is lost. -/
theorem of_tables {d' : Draft} (h : d.Filed) (hstates : d'.states = d.states)
    (hdecisions : d'.decisions = d.decisions) (hkind : d'.kind = d.kind)
    (hcommands : d.commands.length ≤ d'.commands.length) : d'.Filed := by
  have hstate : ∀ q, d'.state q = d.state q := fun q => by rw [state, hstates, state]
  have hsize : d'.size = d.size := congrArg Array.size hstates
  refine ⟨fun q hq => ?_, fun k s => ?_, fun q t ht target rule index contextual heq hlexer => ?_⟩
  · rw [hstate]
    exact h.index_eq q (hsize ▸ hq)
  · rw [hdecisions, hstate, hsize]
    exact h.decision_iff k s
  · rw [ways, hstate] at ht
    exact Nat.lt_of_lt_of_le (h.runs q t ht target rule index contextual heq (hkind ▸ hlexer))
      hcommands

/-- **A state that is no decision is given the next number.** -/
theorem number (h : d.Filed) (hs : s < d.size) (hnone : (d.state s).decision = none) :
    (d.number s).Filed := by
  refine ⟨fun q hq => ?_, fun k s' => ?_, fun q t ht => ?_⟩
  · rw [size_number] at hq
    rw [state_number]
    split_ifs
    · exact h.index_eq q hq
    · exact h.index_eq q hq
  · have hpush : (d.number s).decisions[k]? =
        if k = d.decisions.size then some s else d.decisions[k]? := Array.getElem?_push
    have hfresh : ∀ s', s' < d.size → (d.state s').decision ≠ some d.decisions.size := by
      intro s' hs' hdecision
      have hget := (h.decision_iff _ s').mpr ⟨hs', hdecision⟩
      simp at hget
    rw [hpush, size_number]
    -- The new number belongs to the new decision alone: the old numbers are all smaller.
    by_cases heq : s' = s
    · subst heq
      have hstate : ((d.number s').state s').decision = some d.decisions.size := by
        rw [state_number, if_pos ⟨rfl, hs⟩]
      rw [hstate]
      by_cases hk : k = d.decisions.size
      · simp [hk, hs]
      · have hnot : ¬(d.decisions[k]? = some s') := by
          rw [h.decision_iff, hnone]
          exact fun h => nomatch h.2
        rw [if_neg hk]
        exact iff_of_false hnot fun h => hk (Option.some.inj h.2).symm
    · have hstate : (d.number s).state s' = d.state s' := by
        rw [state_number, if_neg fun h => heq h.1]
      rw [hstate]
      by_cases hk : k = d.decisions.size
      · rw [if_pos hk]
        refine iff_of_false (fun h => heq (Option.some.inj h).symm) fun ⟨hs', hdecision⟩ => ?_
        exact hfresh s' hs' (hk ▸ hdecision)
      · rw [if_neg hk]
        exact h.decision_iff k s'
  · rw [ways, state_number] at ht
    split_ifs at ht
    · exact h.runs q t ht
    · exact h.runs q t ht

end Filed

end Draft

/-! ## States that are settled -/

/-- The element is a loop around another one. -/
def Element.IsLoop (loop body : Element) (greedy : Bool) : Prop :=
  loop = .star body greedy ∨ loop = .plus body greedy

/-- **The decision of an element,** given the states and the rules of all names: its ways on lead
to the alternatives of the element in their order, and out of an option or a loop after them if it
is greedy, before them if it is not. -/
inductive DecidedAt (S : StateId → State) (N : String → Nat → StateId → Prop) (rule : Nat) :
    Element → StateId → Prop where
  /-- Between the alternatives of a choice. -/
  | choice {es : List Element} {exit q : StateId} {targets : List StateId} :
      2 ≤ es.length → LaidAlts (fun q => (S q).transitions) N rule exit es targets →
        (S q).transitions = targets.map .epsilon → DecidedAt S N rule (.alt es) q
  /-- Between the alternatives of an option and passing it by. -/
  | option {e : Element} {greedy : Bool} {exit q : StateId} {targets : List StateId} :
      LaidAlts (fun q => (S q).transitions) N rule exit e.choices targets →
        (S q).transitions = optionWays greedy targets exit → (S q).nonGreedy = !greedy →
          DecidedAt S N rule (.optional e greedy) q
  /-- Between the alternatives of a round of a loop. -/
  | block {loop e : Element} {greedy : Bool} {last q : StateId} {targets : List StateId} :
      loop.IsLoop e greedy → 2 ≤ e.choices.length →
        LaidAlts (fun q => (S q).transitions) N rule last e.choices targets →
          (S q).transitions = targets.map .epsilon → DecidedAt S N rule loop q
  /-- Between one more round of a loop and leaving it. -/
  | round {loop e : Element} {greedy : Bool} {entry first last exit q : StateId}
      {targets : List StateId} :
      loop.IsLoop e greedy → LaidAlts (fun q => (S q).transitions) N rule last e.choices targets →
        (S first).transitions = targets.map .epsilon →
          Laid (fun q => (S q).transitions) N rule loop entry exit →
            (S q).transitions = branchWays greedy first exit → (S q).nonGreedy = !greedy →
              DecidedAt S N rule loop q

/-- The state is no decision and has one way on. -/
structure State.OneWay (s : State) : Prop where
  decision_eq : s.decision = none
  ways : s.transitions.length = 1

/-- **The state is settled:** it has one way on, or decides for one of some elements. -/
def Settled (S : StateId → State) (N : String → Nat → StateId → Prop) (rule : Nat)
    (parts : List Element) (q : StateId) : Prop :=
  (S q).OneWay ∨ (S q).decision ≠ none ∧ ∃ e ∈ parts, DecidedAt S N rule e q

/-- **The states from one number on are settled,** whatever they become part of, but for those left
open. These are no decisions. -/
structure Draft.Settles (d : Draft) (N : String → Nat → StateId → Prop) (rule : Nat)
    (parts : List Element) (lo : Nat) (isOpen : StateId → Prop) : Prop where
  bare : ∀ q, lo ≤ q → q < d.size → isOpen q → (d.state q).decision = none
  settled : ∀ S : StateId → State, (∀ q, lo ≤ q → q < d.size → ¬isOpen q → S q = d.state q) →
    ∀ q, lo ≤ q → q < d.size → ¬isOpen q → Settled S N rule parts q

namespace Draft.Settles

variable {d d' : Draft} {N : String → Nat → StateId → Prop} {rule : Nat} {parts parts' : List Element}
  {lo lo' : Nat} {isOpen isOpen' : StateId → Prop}

theorem mono (h : d.Settles N rule parts lo isOpen) (hsub : parts ⊆ parts') :
    d.Settles N rule parts' lo isOpen :=
  ⟨h.bare, fun S hS q hge hlt hq => (h.settled S hS q hge hlt hq).imp_right
    fun ⟨hdecision, e, he, hat⟩ => ⟨hdecision, e, hsub he, hat⟩⟩

/-- States with one way on are settled. -/
theorem of_oneWay (hbare : ∀ q, lo ≤ q → q < d.size → isOpen q → (d.state q).decision = none)
    (hway : ∀ q, lo ≤ q → q < d.size → ¬isOpen q → (d.state q).OneWay) :
    d.Settles N rule parts lo isOpen := by
  refine ⟨hbare, fun S hS q hge hlt hq => .inl ?_⟩
  rw [hS q hge hlt hq]
  exact hway q hge hlt hq

/-- **Open states are closed** by giving them one way on. -/
theorem close (h : d.Settles N rule parts lo isOpen) (hsize : d'.size = d.size)
    (hopen : ∀ q, isOpen' q → isOpen q)
    (hkeep : ∀ q, lo ≤ q → q < d.size → ¬isOpen q → d'.state q = d.state q)
    (hdecision : ∀ q, lo ≤ q → q < d.size → isOpen q →
      (d'.state q).decision = (d.state q).decision)
    (hways : ∀ q, lo ≤ q → q < d.size → isOpen q → ¬isOpen' q → (d'.ways q).length = 1) :
    d'.Settles N rule parts lo isOpen' := by
  refine ⟨fun q hge hlt hq => ?_, fun S hS q hge hlt hq => ?_⟩
  · rw [hsize] at hlt
    rw [hdecision q hge hlt (hopen q hq)]
    exact h.bare q hge hlt (hopen q hq)
  · rw [hsize] at hlt
    by_cases hq' : isOpen q
    · left
      rw [hS q hge (hsize ▸ hlt) hq]
      exact ⟨(hdecision q hge hlt hq').trans (h.bare q hge hlt hq'), hways q hge hlt hq' hq⟩
    · refine h.settled S (fun p hp hlt' hpo => ?_) q hge hlt hq'
      rw [hS p hp (hsize ▸ hlt') fun hp' => hpo (hopen p hp'), hkeep p hp hlt' hpo]

/-- **Settled states before settled states.** -/
theorem append (h : d.Settles N rule parts lo isOpen) (h' : d'.Settles N rule parts' d.size isOpen')
    (hle : d.size ≤ d'.size) (hlo : lo ≤ d.size) (hold : ∀ q, isOpen q → q < d.size)
    (hnew : ∀ q, isOpen' q → d.size ≤ q)
    (hkeep : ∀ q, lo ≤ q → q < d.size → d'.state q = d.state q) :
    d'.Settles N rule (parts ++ parts') lo fun q => isOpen q ∨ isOpen' q := by
  refine ⟨fun q hge hlt hq => ?_, fun S hS q hge hlt hq => ?_⟩
  · rcases hq with hq | hq
    · rw [hkeep q hge (hold q hq)]
      exact h.bare q hge (hold q hq) hq
    · exact h'.bare q (hnew q hq) hlt hq
  · rcases Nat.lt_or_ge q d.size with hq' | hq'
    · refine (h.mono (List.subset_append_left _ _)).settled S (fun p hp hlt' hpo => ?_) q hge hq'
        fun ho => hq (.inl ho)
      have hno : ¬(isOpen p ∨ isOpen' p) := fun ho =>
        ho.elim hpo fun ho => absurd hlt' (Nat.not_lt.mpr (hnew p ho))
      rw [hS p hp (Nat.lt_of_lt_of_le hlt' hle) hno, hkeep p hp hlt']
    · refine (h'.mono (List.subset_append_right _ _)).settled S (fun p hp hlt' hpo => ?_) q hq' hlt
        fun ho => hq (.inr ho)
      exact hS p (Nat.le_trans hlo hp) hlt' fun ho =>
        ho.elim (fun ho => absurd (hold p ho) (Nat.not_lt.mpr hp)) hpo

/-- **Settled states around settled states.** Those before and after them are looked at by
themselves. -/
theorem around (h : d.Settles N rule parts lo' fun _ => False) (hsub : parts ⊆ parts')
    (hkeep : ∀ q, lo' ≤ q → q < d.size → d'.state q = d.state q) (hlo : lo ≤ lo')
    (hle : d.size ≤ d'.size) (hopen : ∀ q, isOpen q → q < lo' ∨ d.size ≤ q)
    (hbare : ∀ q, lo ≤ q → q < d'.size → isOpen q → (d'.state q).decision = none)
    (hown : ∀ S : StateId → State, (∀ q, lo ≤ q → q < d'.size → ¬isOpen q → S q = d'.state q) →
      ∀ q, lo ≤ q → q < d'.size → ¬isOpen q → q < lo' ∨ d.size ≤ q → Settled S N rule parts' q) :
    d'.Settles N rule parts' lo isOpen := by
  refine ⟨hbare, fun S hS q hge hlt hq => ?_⟩
  by_cases hout : q < lo' ∨ d.size ≤ q
  · exact hown S hS q hge hlt hq hout
  · rw [not_or, Nat.not_lt, Nat.not_le] at hout
    refine (h.mono hsub).settled S (fun p hp hlt' _ => ?_) q hout.1 hout.2 not_false
    rw [hS p (Nat.le_trans hlo hp) (Nat.lt_of_lt_of_le hlt' hle) fun ho =>
      (hopen p ho).elim (fun h => absurd hp (Nat.not_le.mpr h)) fun h => absurd hlt' (Nat.not_lt.mpr h),
      hkeep p hp hlt']

/-- A new state is open. -/
theorem then_add {kind : StateKind} (h : d.Settles N rule parts lo isOpen) (hlo : lo ≤ d.size)
    (hold : ∀ q, isOpen q → q < d.size) :
    (d.add kind rule).Settles N rule parts lo fun q => isOpen q ∨ q = d.size := by
  have hnew : (d.add kind rule).Settles N rule [] d.size (· = d.size) := by
    refine .of_oneWay (fun q _ _ hq => ?_) fun q hge hlt hq => ?_
    · rw [state_add, if_pos hq]
    · rw [size_add] at hlt
      exact absurd (Nat.le_antisymm (Nat.lt_succ_iff.mp hlt) hge) hq
  refine List.append_nil parts ▸ h.append hnew (by simp) hlo hold (fun q hq => Nat.le_of_eq hq.symm) ?_
  intro q _ hlt
  rw [state_add, if_neg (Nat.ne_of_lt hlt)]

/-- An open state is closed by the first way on from it. -/
theorem then_link {s : StateId} {t : Transition} (h : d.Settles N rule parts lo isOpen)
    (hways : d.ways s = []) (hopen : ∀ q, isOpen' q ↔ isOpen q ∧ q ≠ s) (hs : lo ≤ s → isOpen s) :
    (Layout.linked d s t).Settles N rule parts lo isOpen' := by
  refine h.close size_change (fun q hq => ((hopen q).mp hq).1) (fun q hge _ hq => ?_) (fun q _ _ _ => ?_)
    fun q _ hlt hq hq' => ?_
  · rw [state_change, if_neg]
    rintro ⟨rfl, -⟩
    exact hq (hs hge)
  · rw [state_change]
    split_ifs <;> rfl
  · obtain rfl : q = s := by
      by_contra hne
      exact hq' ((hopen q).mpr ⟨hq, hne⟩)
    rw [ways, state_change, if_pos ⟨rfl, hlt⟩]
    change (d.ways q ++ [t]).length = 1
    rw [hways]
    rfl

/-- Steps elsewhere do not matter. -/
theorem elsewhere (h : d.Settles N rule parts lo isOpen) (hsize : d'.size = d.size)
    (hkeep : ∀ q, lo ≤ q → q < d.size → d'.state q = d.state q) :
    d'.Settles N rule parts lo isOpen :=
  h.close hsize (fun _ hq => hq) (fun q hge hlt _ => hkeep q hge hlt)
    (fun q hge hlt _ => by rw [hkeep q hge hlt]) fun q _ _ hq hq' => absurd hq hq'

/-- Which states are open may be said otherwise. -/
theorem congr (h : d.Settles N rule parts lo isOpen) (hopen : ∀ q, isOpen q ↔ isOpen' q) :
    d.Settles N rule parts lo isOpen' :=
  (funext fun q => propext (hopen q) : isOpen = isOpen') ▸ h

end Draft.Settles

namespace Layout

open Draft

/-- What is laid out for an element of a rule is settled, but for the exit. -/
structure Ruled (N : String → Nat → StateId → Prop) (rule : Nat) (parts : List Element) (lo : Nat)
    (exit : StateId) (d : Draft) : Prop where
  filed : d.Filed
  settles : d.Settles N rule parts lo (· = exit)

/-- What laying out an element has to settle. -/
abbrev Rules (rule : Nat) (e : Element) : Prop :=
  ∀ d : Draft, d.Filed → (element rule e).Lays d fun f => Ruled d.Names rule e.parts d.size f.exit

variable {d : Draft} {rule : Nat} {parts : List Element} {N : String → Nat → StateId → Prop}

/-! ## Leaves -/

/-- Two new states, one way on between them. -/
private theorem pair_ruled {t : Transition} (h : d.Filed) (ht : d.Runs t) :
    Ruled N rule parts d.size (d.size + 1)
      (linked ((d.add .basic rule).add .basic rule) d.size t) := by
  refine ⟨((h.add _ _).add _ _).link ht, .of_oneWay (fun q _ _ hq => ?_) fun q hge hlt hq => ?_⟩
  · simp [state_change, state_add, hq]
  · simp only [size_change, size_add] at hlt
    obtain rfl : q = d.size := Nat.le_antisymm
      (Nat.lt_succ_iff.mp (Nat.lt_of_le_of_ne (Nat.lt_succ_iff.mp hlt) hq)) hge
    have hentry := state_change_pair d .basic .basic rule rule fun s =>
      { s with transitions := s.transitions ++ [t] }
    exact ⟨congrArg State.decision hentry, congrArg (·.transitions.length) hentry⟩

private theorem single_ruled {t : StateId → Transition} (h : d.Filed) (ht : ∀ p, d.Runs (t p)) :
    (single rule t).Lays d fun f => Ruled N rule parts d.size f.exit :=
  newState_bind (newState_bind (link_bind (.pure (by
    rw [size_add]
    exact pair_ruled h (ht _)))))

private theorem noteToken_ruled {v : Symbol} {t : StateId → Transition} (h : d.Filed)
    (ht : ∀ p, (t p).isAction = false) :
    (noteToken v >>= fun _ => single rule t).Lays d fun f => Ruled N rule parts d.size f.exit := by
  refine Lays.bind (Q := fun _ d₁ => d₁.Filed ∧ d₁.size = d.size) ?_ fun _ d₁ ⟨h₁, hsize⟩ =>
    hsize ▸ single_ruled h₁ fun p => runs_of_isAction (ht p)
  refine Lays.modifyGet ?_
  dsimp only
  split
  · exact ⟨h.of_tables rfl rfl rfl (Nat.le_refl _), rfl⟩
  · exact ⟨h, rfl⟩

/-- A command is run by its number, which the lexer has. -/
private theorem command_ruled {c : Command} (h : d.Filed) :
    (command rule c).Lays d fun f => Ruled N rule parts d.size f.exit := by
  unfold command
  refine Lays.bind (Q := fun i d₁ => d₁.Filed ∧ d₁.size = d.size ∧ i < d₁.commands.length) ?_
    fun i d₁ ⟨h₁, hsize, hi⟩ => hsize ▸ single_ruled h₁ fun p => ?_
  · refine Lays.modifyGet ?_
    split
    · next i hfound =>
      obtain ⟨hlt, -⟩ := List.idxOf?_eq_some_iff.mp hfound
      exact ⟨h, rfl, hlt⟩
    · exact ⟨h.of_tables rfl rfl rfl (by simp), rfl, by simp⟩
  · rintro target rule' index contextual heq -
    cases heq
    exact hi

private theorem call_ruled {name : String} {level : Int} (h : d.Filed) :
    (call rule name level).Lays d fun f => Ruled N rule parts d.size f.exit := by
  unfold call
  refine (Lays.get (Q := fun a d' => a = d ∧ d' = d) ⟨rfl, rfl⟩).bind ?_
  rintro _ _ ⟨rfl, rfl⟩
  split
  · exact .throw
  · refine newState_bind (newState_bind (link_bind (.pure ?_)))
    rw [size_add]
    exact pair_ruled h (runs_of_isAction rfl)

/-- A chain of characters from an open state without ways on. -/
private theorem chain_ruled {lo : Nat} {cs : List Char} :
    ∀ {d : Draft} {s : StateId}, Ruled N rule parts lo s d → lo ≤ d.size → s < d.size →
      d.ways s = [] → (chain rule s cs).Lays d fun exit => Ruled N rule parts lo exit := by
  induction cs with
  | nil => exact fun h _ _ _ => .pure h
  | cons c cs ih =>
    intro d s h hlo hs hways
    refine newState_bind (link_bind (ih ⟨(h.filed.add _ _).link (runs_of_isAction rfl), ?_⟩ ?_ ?_ ?_))
    · refine (h.settles.then_add hlo fun q hq => hq ▸ hs).then_link ?_ (fun q => ?_) fun _ => .inl rfl
      · rw [ways, state_add, if_neg (Nat.ne_of_lt hs)]
        exact hways
      · constructor
        · rintro rfl
          exact ⟨.inr rfl, Nat.ne_of_gt hs⟩
        · rintro ⟨rfl | hq, hne⟩
          · exact absurd rfl hne
          · exact hq
    · simp only [size_change, size_add]
      exact Nat.le_succ_of_le hlo
    · simp
    · simp [ways, state_change, state_add, Nat.ne_of_gt hs]

private theorem literal_ruled {text : String} (h : d.Filed) :
    (literal rule text).Lays d fun f => Ruled N rule parts d.size f.exit := by
  unfold literal
  refine require_bind fun _ => ?_
  split
  · exact single_ruled h fun p => runs_of_isAction rfl
  · refine newState_bind (Lays.bind (chain_ruled ⟨h.add _ _, ?_⟩ ?_ ?_ ?_) fun exit d' h' => .pure h')
    · refine .of_oneWay (fun q _ _ hq => ?_) fun q hge hlt hq => ?_
      · rw [state_add, if_pos hq]
      · rw [size_add] at hlt
        exact absurd (Nat.le_antisymm (Nat.lt_succ_iff.mp hlt) hge) hq
    · simp
    · simp
    · simp [ways, state_add]

/-! ## Alternatives and sequences -/

/-- What is laid out beside each other is settled. -/
private theorem alternatives_ruled {es : List Element} (hes : ∀ e ∈ es, Rules rule e) :
    ∀ {d : Draft} {b : Fragment}, d.Filed → b.entry < d.size →
      (alternatives rule es b).Lays d fun _ d' => d.Adds (· = b.entry) d' ∧ d'.Filed ∧
        d'.Settles d.Names rule (Element.partsOf es) d.size fun _ => False := by
  induction es with
  | nil =>
    intro d b h _
    refine .pure ⟨.refl _ d, h, .of_oneWay (fun _ _ _ hq => hq.elim) fun q hge hlt => ?_⟩
    exact absurd hlt (Nat.not_lt.mpr hge)
  | cons e es ih =>
    intro d b h hentry
    refine ((element_lays rule e d).and (hes e (List.mem_cons_self ..) d h)).bind
      fun body d₁ ⟨hpiece, hruled⟩ => attach_bind ?_
    have hne : ∀ q, d.size ≤ q → q ≠ b.entry := fun q hge =>
      Nat.ne_of_gt (Nat.lt_of_lt_of_le hentry hge)
    have hexit_ne := hne _ hpiece.exit_ge
    -- The block leads to the alternative, whose exit is closed.
    have hin : (linked d₁ b.entry (.epsilon body.entry)).Settles d.Names rule e.parts d.size
        (· = body.exit) := by
      refine hruled.settles.elsewhere size_change fun q hge _ => ?_
      rw [state_change, if_neg fun h => hne q hge h.1]
    have hout : (linked (linked d₁ b.entry (.epsilon body.entry)) body.exit
        (.epsilon b.exit)).Settles d.Names rule e.parts d.size fun _ => False := by
      refine hin.then_link ?_ (fun q => ?_) fun _ => rfl
      · rw [ways, state_change, if_neg fun h => hexit_ne h.1]
        exact hpiece.exit_ways
      · simp
    have hadds := ((hpiece.adds.mono fun q _ (h : untouched q) => (h.elim : q = b.entry)).then_link
      (t := .epsilon body.entry) fun _ => rfl).then_link (t := .epsilon b.exit) fun hlt =>
        absurd hlt (Nat.not_lt.mpr hpiece.exit_ge)
    have hfiled : (linked (linked d₁ b.entry (.epsilon body.entry)) body.exit
      (.epsilon b.exit)).Filed := hruled.filed.join.join
    generalize linked (linked d₁ b.entry (.epsilon body.entry)) body.exit (.epsilon b.exit) = d₃
      at hout hadds hfiled ⊢
    refine (ih (fun e' he' => hes e' (List.mem_cons_of_mem _ he')) hfiled
      (Nat.lt_of_lt_of_le hentry hadds.size_le)).mono ?_
    rintro _ d' ⟨hadds', hfiled', hrest⟩
    rw [hadds.names] at hrest
    refine ⟨hadds.trans hadds' fun _ _ h => h, hfiled', ?_⟩
    rw [Element.partsOf]
    exact (hout.append hrest hadds'.size_le hadds.size_le (fun _ hq => hq.elim)
      (fun _ hq => hq.elim) fun q hge hlt => hadds'.keeps q hlt (hne q hge)).congr fun _ => or_self_iff

/-- What is laid out to be joined is settled, but for the exits. -/
private theorem sequence_ruled {es : List Element} (hes : ∀ e ∈ es, Rules rule e) :
    ∀ {d : Draft}, d.Filed → (sequence rule es).Lays d fun fs d' => d'.Filed ∧
      d'.Settles d.Names rule (Element.partsOf es) d.size (· ∈ fs.map Fragment.exit) := by
  induction es with
  | nil =>
    intro d h
    refine .pure ⟨h, .of_oneWay (fun _ _ _ hq => absurd hq List.not_mem_nil) fun q hge hlt => ?_⟩
    exact absurd hlt (Nat.not_lt.mpr hge)
  | cons e es ih =>
    intro d h
    refine ((element_lays rule e d).and (hes e (List.mem_cons_self ..) d h)).bind
      fun f d₁ ⟨hpiece, hruled⟩ => ?_
    refine ((sequence_lays fun e' _ => element_lays rule e').and
      (ih (fun e' he' => hes e' (List.mem_cons_of_mem _ he')) hruled.filed)).bind
        fun fs d₂ ⟨hrow, hfiled, hrest⟩ => .pure ⟨hfiled, ?_⟩
    rw [hpiece.adds.names] at hrest
    rw [Element.partsOf]
    refine (hruled.settles.append hrest hrow.adds.size_le hpiece.adds.size_le
      (fun q hq => hq ▸ hpiece.exit_lt) (fun q hq => ?_) fun q _ hlt =>
        hrow.adds.keeps q hlt not_false).congr fun q => ?_
    · obtain ⟨f', hf', rfl⟩ := List.mem_map.mp hq
      exact (hrow.bounds f' hf').2.2.1
    · rw [List.map_cons, List.mem_cons]

/-- Joining closes all exits but the last. -/
private theorem connect_ruled {lo : Nat} {fs : List Fragment} :
    ∀ {d : Draft} {s : StateId}, d.Filed →
      d.Settles N rule parts lo (· ∈ s :: fs.map Fragment.exit) →
        (∀ q ∈ s :: fs.map Fragment.exit, d.ways q = []) → (s :: fs.map Fragment.exit).Nodup →
          (connect s fs).Lays d fun exit => Ruled N rule parts lo exit := by
  induction fs with
  | nil => exact fun h hsettles _ _ => .pure ⟨h, hsettles.congr fun q => List.mem_singleton⟩
  | cons f fs ih =>
    intro d s h hsettles hways hnodup
    obtain ⟨hnot, hnodup'⟩ := List.nodup_cons.mp hnodup
    refine join_bind (ih h.join ?_ (fun q hq => ?_) hnodup')
    · refine hsettles.then_link (hways s (List.mem_cons_self ..)) (fun q => ?_)
        fun _ => List.mem_cons_self ..
      rw [List.map_cons, List.mem_cons (a := q) (b := s)]
      refine ⟨fun hq => ⟨.inr hq, fun heq => hnot (heq ▸ hq)⟩, fun ⟨hq, hne⟩ => ?_⟩
      exact hq.resolve_left hne
    · rw [ways, state_change, if_neg fun heq : q = s ∧ _ => hnot (heq.1 ▸ hq)]
      exact hways q (List.mem_cons_of_mem _ hq)

private theorem seq_ruled {e : Element} {rest : List Element} (he : Rules rule e)
    (hrest : ∀ e' ∈ rest, Rules rule e') : Rules rule (.seq (e :: rest)) := by
  intro d h
  unfold element
  refine ((element_lays rule e d).and (he d h)).bind ?_
  rintro first d₁ ⟨hpiece, hruled⟩
  refine ((sequence_lays fun e' _ => element_lays rule e').and
    (sequence_ruled hrest hruled.filed)).bind ?_
  rintro others d₂ ⟨hrow, hfiled, hothers⟩
  rw [hpiece.adds.names] at hothers
  have hnew : ∀ q ∈ others.map Fragment.exit, d₁.size ≤ q ∧ d₂.ways q = [] := by
    intro q hq
    obtain ⟨f, hf, rfl⟩ := List.mem_map.mp hq
    exact ⟨(hrow.bounds f hf).2.2.1, hrow.ends f hf⟩
  have hsettles : d₂.Settles d.Names rule (Element.seq (e :: rest)).parts d.size
      (· ∈ first.exit :: others.map Fragment.exit) := by
    refine ((hruled.settles.append hothers hrow.adds.size_le hpiece.adds.size_le
      (fun q hq => hq ▸ hpiece.exit_lt) (fun q hq => (hnew q hq).1) fun q _ hlt =>
        hrow.adds.keeps q hlt not_false).congr fun q => ?_).mono (List.subset_cons_self _ _)
    rw [List.mem_cons]
  refine Lays.bind (connect_ruled hfiled hsettles ?_ ?_) fun exit d₃ h₃ => .pure h₃
  · intro q hq
    rcases List.mem_cons.mp hq with rfl | hq
    · rw [hrow.adds.ways_eq hpiece.exit_lt not_false, hpiece.exit_ways]
    · exact (hnew q hq).2
  · refine List.nodup_cons.mpr ⟨fun hmem => ?_, hrow.nodup⟩
    exact absurd hpiece.exit_lt (Nat.not_lt.mpr (hnew _ hmem).1)

/-! ## Blocks -/

/-- **A block of alternatives was filled.** All of it is settled but its start and its end. -/
private structure Filled (rule : Nat) (es : List Element) (d : Draft) (targets : List StateId)
    (d₁ : Draft) : Prop where
  filed : d₁.Filed
  size_le : d.size + 2 ≤ d₁.size
  entry_ways : (d₁.state d.size).transitions = targets.map .epsilon
  exit_bare : (d₁.state (d.size + 1)).decision = none
  exit_ways : (d₁.state (d.size + 1)).transitions = []
  settles : d₁.Settles d.Names rule (Element.partsOf es) (d.size + 2) fun _ => False
  laid : ∀ W : StateId → List Transition,
    (∀ q, d.size + 2 ≤ q → q < d₁.size → W q = d₁.ways q) →
      LaidAlts W d.Names rule (d.size + 1) es targets

private theorem block_ruled {kind : StateKind} {es : List Element} (hes : ∀ e ∈ es, Rules rule e)
    (h : d.Filed) : (block rule kind (alternatives rule es)).Lays d fun b d₁ =>
      b = ⟨d.size, d.size + 1⟩ ∧ (d₁.state d.size).decision = none ∧
        ∃ targets, Filled rule es d targets d₁ := by
  have hsize := size_opened d kind rule
  have hopened : (opened d kind rule).Filed :=
    ((h.add _ _).add _ _).change (fun _ => rfl) (fun _ => rfl) fun _ _ ht => .inl ht
  refine block_bind (((fill_lays fun e _ => element_lays rule e).and (alternatives_ruled hes
    (b := ⟨d.size, d.size + 1⟩) hopened (hsize ▸ Nat.lt_add_of_pos_right (by decide)))).mono ?_)
  rintro _ d₁ ⟨⟨targets, hbeside⟩, hadds, hfiled, hsettles⟩
  have hexit : d₁.state (d.size + 1) = { index := d.size + 1, kind := .blockEnd, rule } := by
    rw [hadds.keeps _ (hsize ▸ Nat.lt_succ_self _) (Nat.ne_of_gt (Nat.lt_succ_self _)),
      exit_opened]
  rw [(opened_adds d kind rule).names, hsize] at hsettles
  have hlaid := hbeside.laid
  rw [(opened_adds d kind rule).names, hsize] at hlaid
  refine ⟨rfl, by rw [hbeside.entry_eq, entry_opened], targets, hfiled, hsize ▸ hadds.size_le, ?_,
    by rw [hexit], by rw [hexit], hsettles, hlaid⟩
  rw [hbeside.entry_eq, entry_opened]
  rfl

namespace Filled

variable {es : List Element} {targets : List StateId} {d₁ d₂ : Draft} {e : Element}

private theorem entry_lt (h : Filled rule es d targets d₁) : d.size < d₁.size :=
  Nat.lt_of_lt_of_le (Nat.lt_add_of_pos_right (by decide)) h.size_le

/-- There is one way into each alternative. -/
private theorem length_eq (h : Filled rule es d targets d₁) : targets.length = es.length :=
  (h.laid d₁.ways fun _ _ _ => rfl).length_eq

/-- The start of a block may become a decision. -/
private theorem number (h : Filled rule es d targets d₁)
    (hnone : (d₁.state d.size).decision = none) : Filled rule es d targets (d₁.number d.size) := by
  have hkeep : ∀ q, d.size < q → (d₁.number d.size).state q = d₁.state q := fun q hq => by
    rw [state_number, if_neg fun heq => Nat.ne_of_gt hq heq.1]
  have hgt : ∀ q, d.size + 2 ≤ q → d.size < q := fun q hq =>
    Nat.lt_of_lt_of_le (Nat.lt_add_of_pos_right (by decide)) hq
  refine ⟨h.filed.number h.entry_lt hnone, size_number.symm ▸ h.size_le, ?_, ?_, ?_,
    h.settles.elsewhere size_number fun q hge _ => hkeep q (hgt q hge), fun W hW => h.laid W ?_⟩
  · rw [state_number, if_pos ⟨rfl, h.entry_lt⟩]
    exact h.entry_ways
  · rw [hkeep _ (Nat.lt_succ_self _), h.exit_bare]
  · rw [hkeep _ (Nat.lt_succ_self _), h.exit_ways]
  · intro q hge hlt
    rw [hW q hge (size_number.symm ▸ hlt), ways, hkeep q (hgt q hge), ways]

/-- The alternatives lie where they do, as long as their states stay what they are. -/
private theorem laid_of (h : Filled rule es d targets d₁) {S : StateId → State}
    (hS : ∀ q, d.size + 2 ≤ q → q < d₁.size → S q = d₁.state q) :
    LaidAlts (fun q => (S q).transitions) d.Names rule (d.size + 1) es targets :=
  h.laid _ fun q hge hlt => congrArg State.transitions (hS q hge hlt)

/-- **The start of the block decides** for the element. -/
private theorem decided (h : Filled rule es d targets d₁) (hfiled : d₂.Filed)
    (hsize : d₂.size = d₁.size) (hkeep : ∀ q, q ≠ d.size → d₂.state q = d₁.state q)
    (hdecision : (d₂.state d.size).decision ≠ none) (hparts : Element.partsOf es ⊆ e.parts)
    (hat : ∀ S : StateId → State, S d.size = d₂.state d.size →
      LaidAlts (fun q => (S q).transitions) d.Names rule (d.size + 1) es targets →
        DecidedAt S d.Names rule e d.size) : Ruled d.Names rule e.parts d.size (d.size + 1) d₂ := by
  have hkeep' : ∀ q, d.size + 2 ≤ q → d₂.state q = d₁.state q := fun q hge =>
    hkeep q (Nat.ne_of_gt (Nat.lt_of_lt_of_le (Nat.lt_add_of_pos_right (by decide)) hge))
  refine ⟨hfiled, h.settles.around hparts (fun q hge _ => hkeep' q hge) (Nat.le_add_right _ _)
    (Nat.le_of_eq hsize.symm) (fun q hq => .inl (hq ▸ Nat.lt_succ_self _)) (fun q _ _ hq => ?_)
    fun S hS q hge hlt hq hout => ?_⟩
  · rw [hq, hkeep _ (Nat.ne_of_gt (Nat.lt_succ_self _)), h.exit_bare]
  · have hq' : q = d.size := by
      rcases hout with hlt' | hge'
      · exact Nat.le_antisymm (Nat.lt_succ_iff.mp (Nat.lt_of_le_of_ne (Nat.lt_succ_iff.mp hlt') hq)) hge
      · exact absurd (hsize ▸ hlt) (Nat.not_lt.mpr hge')
    subst hq'
    have hentry := hS d.size hge hlt hq
    refine .inr ⟨hentry ▸ hdecision, e, Element.self_mem_parts e, hat S hentry (h.laid_of ?_)⟩
    intro q hge' hlt'
    rw [hS q (Nat.le_trans (Nat.le_add_right _ _) hge') (hsize ▸ hlt') (Nat.ne_of_gt hge'),
      hkeep' q hge']

end Filled

/-! ## Choices and options -/

private theorem alt_ruled {e e' : Element} {rest : List Element}
    (hes : ∀ x ∈ e :: e' :: rest, Rules rule x) : Rules rule (.alt (e :: e' :: rest)) := by
  intro d h
  rw [element_alt]
  refine (block_ruled hes h).bind ?_
  rintro _ d₁ ⟨rfl, hnone, targets, hfilled⟩
  have hnumber := hfilled.number hnone
  refine decide_bind (.pure (hnumber.decided hnumber.filed rfl (fun _ _ => rfl) ?_
    (List.subset_cons_self _ _) fun S hS halts => .choice (by simp) halts ?_))
  · rw [state_number, if_pos ⟨rfl, hfilled.entry_lt⟩]
    nofun
  · rw [hS, hnumber.entry_ways]

private theorem optional_ruled {body : Element} {greedy : Bool}
    (hes : ∀ x ∈ body.choices, Rules rule x) : Rules rule (.optional body greedy) := by
  intro d h
  rw [element_optional]
  refine (block_ruled hes h).bind ?_
  rintro _ d₁ ⟨rfl, hnone, targets, hfilled⟩
  have hlt := hfilled.entry_lt
  -- The way past the block comes last or first.
  let past : State → State := fun s =>
    if greedy then { s with transitions := s.transitions ++ [Transition.epsilon (d.size + 1)] }
    else { s with transitions := Transition.epsilon (d.size + 1) :: s.transitions }
  have hrun : (optional ⟨d.size, d.size + 1⟩ greedy).Lays d₁ fun f d' =>
      f = ⟨d.size, d.size + 1⟩ ∧ d' = ((d₁.change d.size past).change d.size
        fun s => { s with nonGreedy := !greedy }).number d.size := by
    simp only [past]
    cases greedy <;> exact ⟨rfl, rfl⟩
  refine hrun.mono ?_
  rintro _ d₂ ⟨rfl, hd₂⟩
  have hpast : ∀ s, (past s).index = s.index ∧ (past s).decision = s.decision ∧
      (past s).transitions = if greedy then s.transitions ++ [.epsilon (d.size + 1)]
        else .epsilon (d.size + 1) :: s.transitions := by
    intro s
    simp only [past]
    split <;> exact ⟨rfl, rfl, rfl⟩
  have hstate : d₂.state d.size = { past (d₁.state d.size) with
      nonGreedy := !greedy, decision := some d₁.decisions.size } := by
    simp only [hd₂, state_number, state_change, size_change, hlt, and_self, if_true,
      decisions_change]
  have hfiled : d₂.Filed := by
    have hchanged : (d₁.change d.size past).Filed := by
      refine hfilled.filed.change (fun s => (hpast s).1) (fun s => (hpast s).2.1) fun s t ht => ?_
      rw [(hpast s).2.2] at ht
      split at ht
      · refine (List.mem_append.mp ht).imp_right fun ht => ?_
        exact List.mem_singleton.mp ht ▸ d₁.runs_epsilon _
      · refine (List.mem_cons.mp ht).symm.imp_right fun ht => ?_
        exact ht ▸ d₁.runs_epsilon _
    rw [hd₂]
    refine Filed.number (hchanged.change (fun _ => rfl) (fun _ => rfl) fun _ _ ht => .inl ht)
      (by simpa using hlt) ?_
    simp only [state_change, size_change, hlt, and_self, if_true]
    exact (hpast _).2.1.trans hnone
  refine hfilled.decided hfiled (by simp [hd₂]) (fun q hq => ?_) (by rw [hstate]; nofun)
    (List.Subset.trans (Element.partsOf_choices_subset body) (List.subset_cons_self _ _))
    fun S hS halts => .option halts ?_ (by rw [hS, hstate])
  · simp only [hd₂, state_number, state_change, hq, false_and, if_false]
  · rw [hS, hstate]
    change (past (d₁.state d.size)).transitions = _
    rw [(hpast _).2.2, hfilled.entry_ways]
    rfl

/-! ## Loops -/

private theorem branch_epsilon {greedy : Bool} {first exit : StateId} {t₁ t₂ : Transition}
    (h : branchWays greedy first exit = [t₁, t₂]) (d : Draft) : d.Runs t₁ ∧ d.Runs t₂ := by
  have hruns : ∀ t ∈ branchWays greedy first exit, d.Runs t := fun t ht =>
    (mem_branchWays ht).elim (fun heq => heq ▸ d.runs_epsilon _) fun heq => heq ▸ d.runs_epsilon _
  rw [h] at hruns
  exact ⟨hruns t₁ (by simp), hruns t₂ (by simp)⟩

/-- Changing a state keeps its decision. -/
private theorem decision_change {s q : StateId} {f : State → State}
    (hf : ∀ state, (f state).decision = state.decision) :
    ((d.change s f).state q).decision = (d.state q).decision := by
  rw [state_change]
  split_ifs
  · exact hf _
  · rfl

private theorem star_filed {first last : StateId} {greedy : Bool} (h : d.Filed) :
    (star rule ⟨first, last⟩ false greedy).Lays d fun _ d' => d'.Filed := by
  refine newState_bind (newState_bind (newState_bind (update_bind (update_bind
    (branch_bind fun t₁ t₂ hbranch => join_bind (join_bind (decide_bind (.pure ?_))))))))
  have hruns := branch_epsilon hbranch
  simp only [size_add]
  refine Filed.number (.join (.join (.link (.link ?_ (hruns _).1) (hruns _).2))) ?_ ?_
  · refine .change (.change (((h.add _ _).add _ _).add _ _) ?_ ?_ ?_) ?_ ?_ ?_
    · exact fun _ => rfl
    · exact fun _ => rfl
    · exact fun _ _ ht => .inl ht
    · exact fun _ => rfl
    · exact fun _ => rfl
    · exact fun _ _ ht => .inl ht
  · simp only [size_change, size_add]
    exact Nat.lt_succ_of_lt (Nat.lt_succ_of_lt (Nat.lt_succ_self _))
  · simp only [decision_change, implies_true, state_add]
    split_ifs <;> rfl

private theorem plus_filed {first last : StateId} {greedy : Bool} (h : d.Filed) :
    (plus rule ⟨first, last⟩ false greedy).Lays d fun _ d' => d'.Filed := by
  refine newState_bind (newState_bind (update_bind (update_bind (join_bind
    (branch_bind fun t₁ t₂ hbranch => decide_bind (.pure ?_))))))
  have hruns := branch_epsilon hbranch
  simp only [size_add]
  refine Filed.number (.link (.link (.join ?_) (hruns _).1) (hruns _).2) ?_ ?_
  · refine .change (.change ((h.add _ _).add _ _) ?_ ?_ ?_) ?_ ?_ ?_
    · exact fun _ => rfl
    · exact fun _ => rfl
    · exact fun _ _ ht => .inl ht
    · exact fun _ => rfl
    · exact fun _ => rfl
    · exact fun _ _ ht => .inl ht
  · simp only [size_change, size_add]
    exact Nat.lt_succ_of_lt (Nat.lt_succ_self _)
  · simp only [decision_change, implies_true, state_add]
    split_ifs <;> rfl

/-- **The start of a block decides if there are several alternatives,** before the block is put in
a loop. -/
private theorem several_bind {α : Type} {e : Element} {targets : List StateId} {d₁ : Draft}
    {m : Layout α} {Q : α → Draft → Prop} (h : Filled rule e.choices d targets d₁)
    (hnone : (d₁.state d.size).decision = none)
    (hm : ∀ d₂, Filled rule e.choices d targets d₂ →
      (d₂.state d.size).decision = none ∧ e.choices.length = 1 ∨
        (d₂.state d.size).decision ≠ none ∧ 2 ≤ e.choices.length → m.Lays d₂ Q) :
    (if !e.choices.tail.isEmpty then decide d.size >>= fun _ => m else m).Lays d₁ Q := by
  have hne : e.choices ≠ [] := by
    unfold Element.choices
    split <;> exact List.cons_ne_nil _ _
  obtain ⟨first, rest, heq⟩ := List.exists_cons_of_ne_nil hne
  rw [heq] at hm ⊢
  cases rest with
  | nil => exact hm d₁ (heq ▸ h) (.inl ⟨hnone, rfl⟩)
  | cons e' rest =>
    refine decide_bind (hm _ (heq ▸ h.number hnone) (.inr ⟨?_, by simp⟩))
    rw [state_number, if_pos ⟨rfl, h.entry_lt⟩]
    nofun

/-- The start of a block in a loop is settled. -/
private theorem Filled.settled_entry {loop e : Element} {greedy : Bool} {targets : List StateId}
    {d₁ : Draft} (h : Filled rule e.choices d targets d₁) (hloop : loop.IsLoop e greedy)
    (hentry : (d₁.state d.size).decision = none ∧ e.choices.length = 1 ∨
      (d₁.state d.size).decision ≠ none ∧ 2 ≤ e.choices.length) {S : StateId → State}
    (hS : S d.size = d₁.state d.size)
    (halts : LaidAlts (fun q => (S q).transitions) d.Names rule (d.size + 1) e.choices targets) :
    Settled S d.Names rule loop.parts d.size := by
  have hways : (S d.size).transitions = targets.map .epsilon := by rw [hS, h.entry_ways]
  rcases hentry with ⟨hnone, hone⟩ | ⟨hdecision, hseveral⟩
  · refine .inl ⟨hS ▸ hnone, ?_⟩
    rw [hways, List.length_map, h.length_eq, hone]
  · exact .inr ⟨hS ▸ hdecision, loop, Element.self_mem_parts loop,
      .block hloop hseveral halts hways⟩

/-- **A loop around a block is settled** once its own states are, of which the last one is its exit.
-/
private theorem Filled.looped {loop e : Element} {greedy : Bool} {targets : List StateId}
    {d₁ d₂ : Draft} {own : Nat} (h : Filled rule e.choices d targets d₁)
    (hloop : loop.IsLoop e greedy)
    (hentry : (d₁.state d.size).decision = none ∧ e.choices.length = 1 ∨
      (d₁.state d.size).decision ≠ none ∧ 2 ≤ e.choices.length)
    (hfiled : d₂.Filed) (hsize : d₂.size = d₁.size + own + 1)
    (hkeep : ∀ q, q < d₁.size → q ≠ d.size + 1 → d₂.state q = d₁.state q)
    (hlast : (d₂.state (d.size + 1)).OneWay) (hexit : (d₂.state (d₁.size + own)).decision = none)
    (hown : ∀ S : StateId → State, (∀ q, d.size ≤ q → q < d₁.size + own → S q = d₂.state q) →
      (S d.size).transitions = targets.map .epsilon →
        LaidAlts (fun q => (S q).transitions) d.Names rule (d.size + 1) e.choices targets →
          ∀ q, d₁.size ≤ q → q < d₁.size + own → Settled S d.Names rule loop.parts q) :
    Ruled d.Names rule loop.parts d.size (d₁.size + own) d₂ := by
  have hparts : Element.partsOf e.choices ⊆ loop.parts := by
    refine List.Subset.trans (Element.partsOf_choices_subset e) ?_
    rcases hloop with rfl | rfl
    · exact List.subset_cons_self _ _
    · exact List.subset_cons_self _ _
  have hinner : ∀ q, d.size + 2 ≤ q → q < d₁.size → d₂.state q = d₁.state q := fun q hge hlt =>
    hkeep q hlt (Nat.ne_of_gt hge)
  have hgrown : d₁.size ≤ d₂.size := hsize ▸ Nat.le_add_right d₁.size (own + 1)
  refine ⟨hfiled, h.settles.around hparts hinner (Nat.le_add_right _ _) hgrown
    (fun q hq => .inr (hq ▸ Nat.le_add_right _ _)) (fun q _ _ hq => by rw [hq, hexit])
    fun S hS q hge hlt hne hout => ?_⟩
  have hS' : ∀ q, d.size ≤ q → q < d₁.size + own → S q = d₂.state q := fun q hge hlt =>
    hS q hge (hsize ▸ Nat.lt_succ_of_lt hlt) (Nat.ne_of_lt hlt)
  have hS₀ : S d.size = d₁.state d.size :=
    (hS' d.size (Nat.le_refl _) (Nat.lt_add_right own h.entry_lt)).trans
      (hkeep _ h.entry_lt (Nat.ne_of_lt (Nat.lt_succ_self _)))
  have halts := h.laid_of (S := S) fun q hge hlt =>
    (hS' q (Nat.le_trans (Nat.le_add_right _ _) hge) (Nat.lt_add_right own hlt)).trans
      (hinner q hge hlt)
  -- Outside the alternatives lie the start and the end of the block, and what was added.
  rcases hout with hout | hout
  · rcases Nat.eq_or_lt_of_le hge with rfl | hgt
    · exact h.settled_entry hloop hentry hS₀ halts
    · obtain rfl : q = d.size + 1 := Nat.le_antisymm (Nat.lt_succ_iff.mp hout) hgt
      left
      rw [hS' _ hge (Nat.lt_add_right own h.size_le)]
      exact hlast
  · have hfirst : (S d.size).transitions = targets.map .epsilon := by rw [hS₀, h.entry_ways]
    rw [hsize] at hlt
    exact hown S hS' hfirst halts q hout (Nat.lt_of_le_of_ne (Nat.lt_succ_iff.mp hlt) hne)

private theorem star_several (rule : Nat) (b : Fragment) (several greedy : Bool) :
    star rule b several greedy =
      if several then decide b.entry >>= fun _ => star rule b false greedy
      else star rule b false greedy := by
  cases several <;> rfl

private theorem star_ruled {body : Element} {greedy : Bool}
    (hes : ∀ x ∈ body.choices, Rules rule x) : Rules rule (.star body greedy) := by
  intro d h
  rw [element_star]
  refine (block_ruled hes h).bind ?_
  rintro _ d₁ ⟨rfl, hnone, targets, hfilled⟩
  rw [star_several]
  refine several_bind hfilled hnone fun d₁ hfilled hentry => ?_
  refine ((star_states hfilled.size_le).and (star_filed hfilled.filed)).mono ?_
  rintro _ d₂ ⟨⟨rfl, hstar⟩, hfiled⟩
  have hlast : d₂.ways (d.size + 1) = [.epsilon (d₁.size + 1)] := by
    rw [ways, hstar.last_eq, hfilled.exit_ways, List.nil_append]
  have hbare : (d₂.state (d.size + 1)).decision = none := by
    rw [hstar.last_eq]
    exact hfilled.exit_bare
  refine hfilled.looped (.inl rfl) hentry hfiled hstar.size_eq hstar.adds.keeps
    ⟨hbare, congrArg List.length hlast⟩ (by rw [hstar.exit_eq]) fun S hS hfirst halts q hge hlt => ?_
  have hle := Nat.le_of_lt hfilled.entry_lt
  have hlast_ways : (S (d.size + 1)).transitions = [.epsilon (d₁.size + 1)] := by
    rw [hS _ (Nat.le_succ _) (Nat.lt_add_right 2 hfilled.size_le)]
    exact hlast
  have hround := (hS d₁.size hle (Nat.lt_add_of_pos_right (by decide))).trans hstar.entry_eq
  have hback := (hS (d₁.size + 1) (Nat.le_succ_of_le hle) (Nat.lt_succ_self _)).trans hstar.back_eq
  -- The states that the loop adds: the one that decides about the rounds, and the way back to it.
  rcases Nat.eq_or_lt_of_le hge with rfl | hgt
  · refine .inr ⟨by rw [hround]; exact Option.some_ne_none _, _, Element.self_mem_parts _, ?_⟩
    exact .round (.inl rfl) halts hfirst
      (.star halts hfirst hlast_ways (by rw [hback]) (by rw [hround])) (by rw [hround])
      (by rw [hround])
  · obtain rfl : q = d₁.size + 1 := Nat.le_antisymm (Nat.lt_succ_iff.mp hlt) hgt
    exact .inl (by rw [hback]; exact ⟨rfl, rfl⟩)

private theorem plus_several (rule : Nat) (b : Fragment) (several greedy : Bool) :
    plus rule b several greedy =
      if several then decide b.entry >>= fun _ => plus rule b false greedy
      else plus rule b false greedy := by
  cases several <;> rfl

private theorem plus_ruled {body : Element} {greedy : Bool}
    (hes : ∀ x ∈ body.choices, Rules rule x) : Rules rule (.plus body greedy) := by
  intro d h
  rw [element_plus]
  refine (block_ruled hes h).bind ?_
  rintro _ d₁ ⟨rfl, hnone, targets, hfilled⟩
  rw [plus_several]
  refine several_bind hfilled hnone fun d₁ hfilled hentry => ?_
  refine ((plus_states hfilled.size_le).and (plus_filed hfilled.filed)).mono ?_
  rintro _ d₂ ⟨⟨rfl, hplus⟩, hfiled⟩
  have hlast : d₂.ways (d.size + 1) = [.epsilon d₁.size] := by
    rw [ways, hplus.last_eq, hfilled.exit_ways, List.nil_append]
  have hbare : (d₂.state (d.size + 1)).decision = none := by
    rw [hplus.last_eq]
    exact hfilled.exit_bare
  refine hfilled.looped (.inr rfl) hentry hfiled hplus.size_eq hplus.adds.keeps
    ⟨hbare, congrArg List.length hlast⟩ (by rw [hplus.exit_eq]) fun S hS hfirst halts q hge hlt => ?_
  obtain rfl : q = d₁.size := Nat.le_antisymm (Nat.lt_succ_iff.mp hlt) hge
  have hlast_ways : (S (d.size + 1)).transitions = [.epsilon d₁.size] := by
    rw [hS _ (Nat.le_succ _) (Nat.lt_add_right 1 hfilled.size_le)]
    exact hlast
  have hround := (hS d₁.size (Nat.le_of_lt hfilled.entry_lt) hlt).trans hplus.back_eq
  refine .inr ⟨by rw [hround]; exact Option.some_ne_none _, _, Element.self_mem_parts _, ?_⟩
  exact .round (.inr rfl) halts hfirst (.plus halts hfirst hlast_ways (by rw [hround]))
    (by rw [hround]) (by rw [hround])

/-! ## All elements -/

/-- **Every element is laid out in settled states,** but for its exit. -/
theorem element_ruled (rule : Nat) : ∀ e : Element, Rules rule e
  | .token v => fun _ h => noteToken_ruled h fun _ => rfl
  | .range start stop => fun _ h => noteToken_ruled h fun _ => rfl
  | .set s => fun d h => by
    unfold element
    cases s.spans.getLast? with
    | none => exact single_ruled (t := (.set · s)) h fun _ => runs_of_isAction rfl
    | some span => exact noteToken_ruled h fun _ => rfl
  | .notSet s => fun _ h => single_ruled h fun _ => runs_of_isAction rfl
  | .wildcard => fun _ h => single_ruled h fun _ => runs_of_isAction rfl
  | .literal text => fun _ h => literal_ruled h
  | .ruleRef name level => fun _ h => call_ruled h
  | .seq [] => fun _ h => single_ruled h fun _ => runs_of_isAction rfl
  | .seq (e :: rest) => seq_ruled (element_ruled rule e) fun e' _ => element_ruled rule e'
  | .alt [] => fun _ h => single_ruled h fun _ => runs_of_isAction rfl
  | .alt [e] => fun d h => (element_ruled rule e d h).mono fun f d' h' =>
    ⟨h'.filed, h'.settles.mono (List.Subset.trans
      (Element.parts_subset_partsOf (List.mem_singleton_self e)) (List.subset_cons_self _ _))⟩
  | .alt (e :: e' :: rest) => alt_ruled fun x _ => element_ruled rule x
  | .optional body greedy => optional_ruled fun x hx =>
    have := Element.sizeOf_le_of_mem_choices hx
    element_ruled rule x
  | .star body greedy => star_ruled fun x hx =>
    have := Element.sizeOf_le_of_mem_choices hx
    element_ruled rule x
  | .plus body greedy => plus_ruled fun x hx =>
    have := Element.sizeOf_le_of_mem_choices hx
    element_ruled rule x
  | .predicate pred contextual => fun _ h => single_ruled h fun _ => runs_of_isAction rfl
  | .precedence level => fun _ h => require_bind fun _ => single_ruled h fun _ => runs_of_isAction rfl
  | .action action => fun d h => by
    unfold element
    refine (Lays.get (Q := fun a d' => a = d ∧ d' = d) ⟨rfl, rfl⟩).bind ?_
    rintro _ _ ⟨rfl, rfl⟩
    split
    · exact command_ruled h
    · next hkind => exact single_ruled h fun _ _ _ _ _ _ hlexer => absurd hlexer hkind
  | .command c => fun _ h => require_bind fun _ => command_ruled h
  | .epsilon => fun _ h => single_ruled h fun _ => runs_of_isAction rfl
termination_by e => sizeOf e
decreasing_by
  all_goals first
    | (simp only [Element.optional.sizeOf_spec, Element.star.sizeOf_spec, Element.plus.sizeOf_spec]
       omega)
    | decreasing_tactic

end Layout

end AdaptiveLL
