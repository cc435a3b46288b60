import AdaptiveLL.Proofs.Grammar.Pieces

/-!
# Laying out elements

Blocks, options and loops are put together from their alternatives, and `element_lays` shows that
every element of a rule is laid out where `Laid` says, in states that are wired.
-/

namespace AdaptiveLL

namespace Layout

open Draft

variable {d : Draft} {rule : Nat}

/-! ## Blocks -/

/-- **A block of alternatives was laid out.** Its start and its end come first. -/
structure Blocked (rule : Nat) (kind : StateKind) (es : List Element) (d : Draft) (b : Fragment)
    (targets : List StateId) (d' : Draft) : Prop where
  block_eq : b = ⟨d.size, d.size + 1⟩
  adds : d.Adds untouched d'
  size_le : d.size + 2 ≤ d'.size
  entry_rule : (d'.state d.size).rule = rule
  entry_kind : (d'.state d.size).kind = kind
  entry_greedy : (d'.state d.size).nonGreedy = false
  entry_ways : d'.ways d.size = targets.map .epsilon
  exit_eq : d'.state (d.size + 1) = { index := d.size + 1, kind := .blockEnd, rule }
  owns : ∀ p ∈ targets, d'.Owns rule p
  wired : ∀ q, d.size + 2 ≤ q → q < d'.size → d'.Wired rule (Element.partsOf es) q
  laid : ∀ W : StateId → List Transition,
    (∀ q, d.size + 2 ≤ q → q < d'.size → W q = d'.ways q) →
      LaidAlts W d.Names rule (d.size + 1) es targets

/-- A draft with a block that is still empty: its start, which knows its end, and its end. -/
def opened (d : Draft) (kind : StateKind) (rule : Nat) : Draft :=
  ((d.add kind rule).add .blockEnd rule).change d.size fun s =>
    { s with partner := some (d.size + 1) }

theorem opened_adds (d : Draft) (kind : StateKind) (rule : Nat) :
    d.Adds untouched (opened d kind rule) :=
  (((Adds.refl _ d).then_add).then_add).then_change (fun _ => rfl) (fun _ => rfl)
    fun h => absurd h (Nat.lt_irrefl _)

theorem size_opened (d : Draft) (kind : StateKind) (rule : Nat) :
    (opened d kind rule).size = d.size + 2 := by
  simp [opened]

theorem entry_opened (d : Draft) (kind : StateKind) (rule : Nat) :
    (opened d kind rule).state d.size =
      { index := d.size, kind, rule, partner := some (d.size + 1) } :=
  state_change_pair ..

theorem exit_opened (d : Draft) (kind : StateKind) (rule : Nat) :
    (opened d kind rule).state (d.size + 1) =
      { index := d.size + 1, kind := .blockEnd, rule } := by
  simp [opened, state_change, state_add]

/-- **Laying out a block** fills one that is still empty. -/
theorem block_bind {kind : StateKind} {fill : Fragment → Layout Unit} {R : Fragment → Draft → Prop}
    (h : (fill ⟨d.size, d.size + 1⟩).Lays (opened d kind rule)
      fun _ => R ⟨d.size, d.size + 1⟩) : (block rule kind fill).Lays d R := by
  refine newState_bind (newState_bind (update_bind ?_))
  rw [size_add]
  exact h.bind fun _ d' hd' => .pure hd'

/-- The alternatives of a block are laid out beside each other. -/
theorem fill_lays {kind : StateKind} {es : List Element} (hes : ∀ e ∈ es, Lies rule e) :
    (alternatives rule es ⟨d.size, d.size + 1⟩).Lays (opened d kind rule) fun _ d' =>
      ∃ targets, Beside rule es ⟨d.size, d.size + 1⟩ (opened d kind rule) targets d' := by
  have hsize := size_opened d kind rule
  refine alternatives_lays hes (hsize ▸ Nat.lt_add_of_pos_right (by decide))
    (.of_inner (hsize ▸ Nat.lt_succ_self _) ?_ ?_) (Nat.ne_of_lt (Nat.lt_succ_self _))
  · rw [exit_opened]
  · rw [exit_opened]
    rfl

private theorem block_lays {kind : StateKind} {es : List Element} (hes : ∀ e ∈ es, Lies rule e) :
    (block rule kind (alternatives rule es)).Lays d fun b d' =>
      ∃ targets, Blocked rule kind es d b targets d' := by
  refine block_bind ((fill_lays hes).mono ?_)
  rintro _ d' ⟨targets, hbeside⟩
  have hsize := size_opened d kind rule
  have hentry' : d'.state d.size = { index := d.size, kind, rule, partner := some (d.size + 1),
                                     transitions := targets.map Transition.epsilon } := by
    rw [hbeside.entry_eq, entry_opened]
    rfl
  refine ⟨targets, rfl, (opened_adds d kind rule).trans hbeside.adds fun q hq h =>
    absurd (h : q = d.size) (Nat.ne_of_lt hq), hsize ▸ hbeside.adds.size_le, by rw [hentry'],
    by rw [hentry'], by rw [hentry'], by rw [ways, hentry'], ?_, hbeside.owns,
    hsize ▸ hbeside.wired, ?_⟩
  · rw [hbeside.adds.keeps _ (hsize ▸ Nat.lt_succ_self _) (Nat.ne_of_gt (Nat.lt_succ_self _)),
      exit_opened]
  · rw [← (opened_adds d kind rule).names, ← hsize]
    exact hbeside.laid

namespace Blocked

variable {kind : StateKind} {es : List Element} {b : Fragment} {targets : List StateId}
  {d₁ d₂ : Draft} {e : Element}

private theorem entry_lt (h : Blocked rule kind es d b targets d₁) : d.size < d₁.size :=
  Nat.lt_of_lt_of_le (Nat.lt_add_of_pos_right (by decide)) h.size_le

private theorem exit_lt (h : Blocked rule kind es d b targets d₁) : d.size + 1 < d₁.size :=
  h.size_le

/-- The start of a block belongs to the rule. -/
private theorem entry_owns (h : Blocked rule kind es d b targets d₁) (hkind : kind ≠ .tokensStart) :
    d₁.Owns rule d.size :=
  ⟨h.entry_lt, h.entry_rule, by rw [h.entry_kind]; exact hkind⟩

/-- The start of a block may become a decision. -/
private theorem number (h : Blocked rule kind es d b targets d₁) :
    Blocked rule kind es d b targets (d₁.number d.size) := by
  have hadds := Adds.number d₁ d.size
  have hentry : (d₁.number d.size).state d.size =
      { d₁.state d.size with decision := some d₁.decisions.size } := by
    rw [state_number, if_pos ⟨rfl, h.entry_lt⟩]
  have hne : ∀ q, d.size + 2 ≤ q → q ≠ d.size := fun q hge => Nat.ne_of_gt
    (Nat.lt_of_lt_of_le (Nat.lt_add_of_pos_right (by decide)) hge)
  refine ⟨h.block_eq, h.adds.then_number fun hlt => absurd hlt (Nat.lt_irrefl _), ?_, ?_, ?_, ?_, ?_,
    ?_, fun p hp => (h.owns p hp).adds hadds, fun q hge hq => ?_, fun W hW => h.laid W ?_⟩
  · exact Nat.le_trans h.size_le (Nat.le_of_eq size_number.symm)
  · rw [hentry]; exact h.entry_rule
  · rw [hentry]; exact h.entry_kind
  · rw [hentry]; exact h.entry_greedy
  · rw [ways, hentry]; exact h.entry_ways
  · rw [hadds.keeps _ h.exit_lt (Nat.ne_of_gt (Nat.lt_succ_self _)), h.exit_eq]
  · rw [size_number] at hq
    exact (h.wired q hge hq).adds hadds hq (hne q hge)
  · intro q hge hq
    rw [hW q hge (size_number.symm ▸ hq), hadds.ways_eq hq (hne q hge)]

/-- There is one way into each alternative. -/
private theorem length_targets (h : Blocked rule kind es d b targets d₁) :
    targets.length = es.length :=
  (h.laid d₁.ways fun _ _ _ => rfl).length_eq

/-- The ways into the alternatives are plain steps. -/
private theorem targets_plain (h : Blocked rule kind es d b targets d₁)
    {touched : StateId → Prop} (hadds : d₁.Adds touched d₂) :
    ∀ t ∈ targets.map Transition.epsilon, ∃ p, t = .epsilon p ∧ d₂.Owns rule p := by
  intro t ht
  obtain ⟨p, hp, rfl⟩ := List.mem_map.mp ht
  exact ⟨p, rfl, (h.owns p hp).adds hadds⟩

/-- **A block whose start is given its ways** is a piece. -/
private theorem piece (h : Blocked rule kind es d b targets d₁) (hkind : kind.isInner = true)
    (hadds : d₁.Adds (· = d.size) d₂) (hsize : d₂.size = d₁.size) (hplain : d₂.Plain rule d.size)
    (hdecision : (d₂.state d.size).decision ≠ none)
    (hgreedy : (d₂.state d.size).nonGreedy = true → ∃ e' ∈ e.parts, e'.isLazy = true)
    (hparts : Element.partsOf es ⊆ e.parts)
    (hlaid : ∀ W : StateId → List Transition, W d.size = d₂.ways d.size →
      LaidAlts W d.Names rule (d.size + 1) es targets →
        Laid W d.Names rule e d.size (d.size + 1)) : Piece rule e d b d₂ := by
  obtain rfl := h.block_eq
  have hexit_ne : d.size + 1 ≠ d.size := Nat.ne_of_gt (Nat.lt_succ_self _)
  have hexit_ways : d₂.ways (d.size + 1) = [] := by
    rw [hadds.ways_eq h.exit_lt hexit_ne, ways, h.exit_eq]
  have hne : ∀ q, d.size + 2 ≤ q → q ≠ d.size := fun q hge => Nat.ne_of_gt
    (Nat.lt_of_lt_of_le (Nat.lt_add_of_pos_right (by decide)) hge)
  refine ⟨h.adds.trans hadds fun q hq h => absurd h (Nat.ne_of_lt hq), Nat.le_refl _,
    hsize ▸ h.entry_lt, Nat.le_succ _, hsize ▸ h.exit_lt, hexit_ways, fun q hge hq => ?_,
    fun W hW => ?_⟩
  · rcases Nat.lt_or_ge q (d.size + 2) with hlt | hge'
    · rcases Nat.eq_or_lt_of_le hge with rfl | hgt
      · exact ⟨by rw [hadds.rule_eq _ h.entry_lt, h.entry_rule],
          by rw [hadds.kind_eq _ h.entry_lt, h.entry_kind]; exact hkind, hgreedy,
          fun hnone => absurd hnone hdecision, .inl hplain⟩
      · obtain rfl : q = d.size + 1 := Nat.le_antisymm (Nat.lt_succ_iff.mp hlt) hgt
        refine ⟨by rw [hadds.rule_eq _ h.exit_lt, h.exit_eq],
          by rw [hadds.kind_eq _ h.exit_lt, h.exit_eq]; rfl,
          by rw [hadds.keeps _ h.exit_lt hexit_ne, h.exit_eq]; exact (absurd · Bool.false_ne_true),
          fun _ => by rw [hexit_ways]; exact Nat.zero_le _, .inl (Plain.of_nil hexit_ways)⟩
    · rw [hsize] at hq
      exact ((h.wired q hge' hq).adds hadds hq (hne q hge')).mono hparts
  · refine hlaid W (hW _ (Nat.le_refl _) (hsize ▸ h.entry_lt) (Nat.ne_of_lt (Nat.lt_succ_self _)))
      (h.laid W fun q hge hq => ?_)
    rw [hW q (Nat.le_trans (Nat.le_add_right _ _) hge) (hsize ▸ hq) (Nat.ne_of_gt hge),
      hadds.ways_eq hq (hne q hge)]

end Blocked

/-! ## Choices and options -/

private theorem alternatives_singleton (rule : Nat) (e : Element) :
    alternatives rule [e] = fun b => element rule e >>= attach b := by
  funext b
  simp [alternatives]

theorem element_alt (rule : Nat) (e e' : Element) (rest : List Element) :
    element rule (.alt (e :: e' :: rest)) =
      (block rule .blockStart (alternatives rule (e :: e' :: rest)) >>= fun choice =>
        decide choice.entry >>= fun _ => pure choice) := by
  rw [element]
  rfl

/-- A choice between several alternatives. -/
private theorem alt_lays {e e' : Element} {rest : List Element}
    (hes : ∀ x ∈ e :: e' :: rest, Lies rule x) : Lies rule (.alt (e :: e' :: rest)) := by
  intro d
  rw [element_alt]
  refine (block_lays hes).bind ?_
  rintro b d₁ ⟨targets, h⟩
  refine decide_bind (.pure ?_)
  rw [show b.entry = d.size from congrArg Fragment.entry h.block_eq]
  have hnumber := h.number
  refine hnumber.piece rfl (.refl _ _) rfl ?_
    (by rw [state_number, if_pos ⟨rfl, h.entry_lt⟩]; nofun) (by rw [hnumber.entry_greedy]; nofun)
    (List.subset_cons_self _ _) fun W hW halts =>
      .alt (List.cons_ne_nil _ _) halts (hW.trans hnumber.entry_ways)
  rw [Plain, hnumber.entry_ways]
  exact hnumber.targets_plain (.refl untouched _)

theorem element_optional (rule : Nat) (body : Element) (greedy : Bool) :
    element rule (.optional body greedy) =
      (block rule .blockStart (alternatives rule body.choices) >>= fun b => optional b greedy) := by
  cases body with
  | alt es => cases es <;> simp [element, Element.choices, alternatives_singleton]
  | _ => simp [element, Element.choices, alternatives_singleton]

/-- An option. -/
private theorem optional_lays {body : Element} {greedy : Bool}
    (hes : ∀ x ∈ body.choices, Lies rule x) : Lies rule (.optional body greedy) := by
  intro d
  rw [element_optional]
  refine (block_lays hes).bind ?_
  rintro b d₁ ⟨targets, h⟩
  have hentry : b.entry = d.size := congrArg Fragment.entry h.block_eq
  have hexit : b.exit = d.size + 1 := congrArg Fragment.exit h.block_eq
  -- The way past the block comes last or first.
  let past : State → State := fun s =>
    if greedy then { s with transitions := s.transitions ++ [Transition.epsilon (d.size + 1)] }
    else { s with transitions := Transition.epsilon (d.size + 1) :: s.transitions }
  have hrun : (optional b greedy).Lays d₁ fun f d' => f = b ∧
      d' = ((d₁.change d.size past).change d.size
        fun s => { s with nonGreedy := !greedy }).number d.size := by
    rw [← hentry]
    simp only [past, ← hexit]
    cases greedy <;> exact ⟨rfl, rfl⟩
  refine hrun.mono ?_
  rintro _ d₂ ⟨rfl, rfl⟩
  generalize hd₂ : ((d₁.change d.size past).change d.size
    fun s => { s with nonGreedy := !greedy }).number d.size = d₂
  have hpast : ∀ s, (past s).rule = s.rule ∧ (past s).kind = s.kind := by
    intro s
    simp only [past]
    split <;> exact ⟨rfl, rfl⟩
  have hadds : d₁.Adds (· = d.size) d₂ := hd₂ ▸ .then_number (.then_change (.then_change (.refl _ d₁)
    (fun s => (hpast s).1) (fun s => (hpast s).2) fun _ => rfl) (fun _ => rfl) (fun _ => rfl)
      fun _ => rfl) fun _ => rfl
  have hsize : d₂.size = d₁.size := by simp [← hd₂]
  have hstate : (d₂.state d.size).transitions = optionWays greedy targets (d.size + 1) ∧
      (d₂.state d.size).nonGreedy = !greedy := by
    simp only [← hd₂, state_number, state_change, size_change, h.entry_lt, and_self, if_true, past,
      optionWays, ← h.entry_ways]
    cases greedy <;> exact ⟨rfl, trivial⟩
  have hdecision : (d₂.state d.size).decision ≠ none := by
    rw [← hd₂, state_number, if_pos ⟨rfl, by simpa using h.entry_lt⟩]
    nofun
  refine h.piece rfl hadds hsize ?_ hdecision ?_ ?_ fun W hW halts =>
    .optional halts (hW.trans hstate.1)
  · rw [Plain, ways, hstate.1]
    intro t ht
    have hend : d₂.Owns rule (d.size + 1) :=
      (Owns.of_inner h.size_le (by rw [h.exit_eq]) (by rw [h.exit_eq]; rfl)).adds hadds
    have htargets : t = .epsilon (d.size + 1) ∨ t ∈ targets.map .epsilon := by
      unfold optionWays at ht
      cases greedy <;> simp at ht <;> simp <;> tauto
    rcases htargets with rfl | ht
    · exact ⟨_, rfl, hend⟩
    · exact h.targets_plain hadds t ht
  · rw [hstate.2]
    intro hlazy
    exact ⟨_, Element.self_mem_parts _, hlazy⟩
  · exact List.Subset.trans (Element.partsOf_choices_subset body) (List.subset_cons_self _ _)

/-! ## Loops -/

theorem branch_bind {α : Type} {s block exit : StateId} {greedy : Bool}
    {f : PUnit → Layout α} {R : α → Draft → Prop}
    (h : ∀ t₁ t₂, branchWays greedy block exit = [t₁, t₂] →
      (f ⟨⟩).Lays (linked (linked d s t₁) s t₂) R) : (branch s block exit greedy >>= f).Lays d R := by
  cases greedy <;> exact h _ _ rfl

theorem mem_branchWays {greedy : Bool} {block exit : StateId} {t : Transition}
    (h : t ∈ branchWays greedy block exit) : t = .epsilon block ∨ t = .epsilon exit := by
  unfold branchWays at h
  cases greedy <;> simp at h <;> tauto

/-- **A loop was laid out** around a block that ends at `last`, with states of its own. -/
private structure Looped (rule : Nat) (last : StateId) (greedy : Bool) (back : StateId)
    (d d' : Draft) : Prop where
  adds : d.Adds (· = last) d'
  last_ways : d'.ways last = [.epsilon back]
  last_greedy : (d'.state last).nonGreedy = (d.state last).nonGreedy
  back_owns : d'.Owns rule back
  own : ∀ parts, (greedy = false → ∃ e ∈ parts, e.isLazy = true) →
    ∀ q, d.size ≤ q → q < d'.size → d'.Wired rule parts q

private theorem plain_branch {block exit s : StateId} {greedy : Bool}
    (hblock : d.Owns rule block) (hexit : d.Owns rule exit)
    (hways : d.ways s = branchWays greedy block exit) : d.Plain rule s := by
  rw [Plain, hways]
  intro t ht
  rcases mem_branchWays ht with rfl | rfl
  · exact ⟨_, rfl, hblock⟩
  · exact ⟨_, rfl, hexit⟩

/-- **What laying out a loop that may be passed by does** to the end of its block and to its own
states. -/
structure Starred (rule : Nat) (first last : StateId) (greedy : Bool) (d d' : Draft) : Prop where
  adds : d.Adds (· = last) d'
  size_eq : d'.size = d.size + 3
  last_eq : d'.state last =
    { d.state last with transitions := (d.state last).transitions ++ [.epsilon (d.size + 1)] }
  entry_eq : d'.state d.size =
    { index := d.size, kind := .starLoopEntry, rule
      transitions := branchWays greedy first (d.size + 2)
      decision := some d.decisions.size, nonGreedy := !greedy, partner := some (d.size + 1) }
  back_eq : d'.state (d.size + 1) =
    { index := d.size + 1, kind := .starLoopBack, rule, transitions := [.epsilon d.size] }
  exit_eq : d'.state (d.size + 2) =
    { index := d.size + 2, kind := .loopEnd, rule, partner := some (d.size + 1) }

theorem star_states {first last : StateId} {greedy : Bool} (hlast : last < d.size) :
    (star rule ⟨first, last⟩ false greedy).Lays d fun f d' => f = ⟨d.size, d.size + 2⟩ ∧
      Starred rule first last greedy d d' := by
  refine newState_bind (newState_bind (newState_bind (update_bind (update_bind
    (branch_bind fun t₁ t₂ hbranch => join_bind (join_bind (decide_bind (.pure ?_))))))))
  simp only [size_add] at hbranch ⊢
  have hne₀ : last ≠ d.size := Nat.ne_of_lt hlast
  have hne₁ : last ≠ d.size + 1 := Nat.ne_of_lt (Nat.lt_succ_of_lt hlast)
  have hne₂ : last ≠ d.size + 2 := Nat.ne_of_lt (Nat.lt_succ_of_lt (Nat.lt_succ_of_lt hlast))
  have hne : d.size ≠ d.size + 1 + 1 := by omega
  have hlt : d.size < d.size + 1 + 1 + 1 := by omega
  have hlt' : last < d.size + 1 + 1 + 1 := Nat.lt_trans hlast hlt
  generalize hd' : Draft.number _ d.size = d'
  have hadds : d.Adds (· = last) d' := by
    rw [← hd']
    have hnew : ∀ k, d.size + k < d.size → d.size + k = last := fun k h =>
      absurd h (Nat.not_lt.mpr (Nat.le_add_right _ _))
    exact .then_number (.then_link (.then_link (.then_link (.then_link (.then_change (.then_change
      (.then_add (.then_add (.then_add (.refl _ d)))) (fun _ => rfl) (fun _ => rfl) (hnew 2))
        (fun _ => rfl) (fun _ => rfl) (hnew 0)) (hnew 0)) (hnew 0)) fun _ => rfl) (hnew 1)) (hnew 0)
  refine ⟨trivial, hadds, by simp [← hd'], ?_, ?_, ?_, ?_⟩
  · simp [← hd', state_number, state_change, state_add, hne₀, hne₁, hne₂, hlt']
  · rw [hbranch]
    simp [← hd', state_number, state_change, state_add, hne₀.symm, hlt, hne]
  · simp [← hd', state_number, state_change, state_add, hne₁.symm]
  · simp [← hd', state_number, state_change, state_add, hne₂.symm]

private theorem star_loop {first last : StateId} {greedy : Bool} (hfirst : d.Owns rule first)
    (hlast : last < d.size) (hways : d.ways last = []) :
    (star rule ⟨first, last⟩ false greedy).Lays d fun f d' => f = ⟨d.size, d.size + 2⟩ ∧
      Looped rule last greedy (d.size + 1) d d' ∧ d'.size = d.size + 3 ∧
        d'.ways d.size = branchWays greedy first (d.size + 2) ∧
          d'.ways (d.size + 1) = [.epsilon d.size] ∧ d'.ways (d.size + 2) = [] := by
  refine (star_states hlast).mono ?_
  rintro f d' ⟨rfl, h⟩
  have hsize := h.size_eq
  have howns : ∀ k < 3, (d'.state (d.size + k)).rule = rule →
      (d'.state (d.size + k)).kind.isInner = true → d'.Owns rule (d.size + k) :=
    fun k hk hrule hinner => .of_inner (hsize ▸ Nat.add_lt_add_left hk _) hrule hinner
  have hentry_ways : d'.ways d.size = branchWays greedy first (d.size + 2) := by
    rw [ways, h.entry_eq]
  have hback_owns : d'.Owns rule (d.size + 1) :=
    howns 1 (by decide) (by rw [h.back_eq]) (by rw [h.back_eq]; rfl)
  refine ⟨rfl, ⟨h.adds, by rw [ways, h.last_eq]; exact congrArg (· ++ _) hways, by rw [h.last_eq],
    hback_owns, fun parts hgreedy q hge hq => ?_⟩, hsize, hentry_ways, by rw [ways, h.back_eq],
    by rw [ways, h.exit_eq]⟩
  have hq' : q = d.size ∨ q = d.size + 1 ∨ q = d.size + 2 := by
    rw [hsize] at hq
    omega
  -- The three states that are added: the entry, the way back, the exit.
  rcases hq' with rfl | rfl | rfl
  · refine ⟨by rw [h.entry_eq], by rw [h.entry_eq]; rfl, fun hlazy => hgreedy ?_,
      fun hnone => ?_, .inl (plain_branch (hfirst.adds h.adds)
      (howns 2 (by decide) (by rw [h.exit_eq]) (by rw [h.exit_eq]; rfl)) hentry_ways)⟩
    · rwa [h.entry_eq, Bool.not_eq_true'] at hlazy
    · rw [h.entry_eq] at hnone
      cases hnone
  · refine ⟨by rw [h.back_eq], by rw [h.back_eq]; rfl,
      by rw [h.back_eq]; exact (absurd · Bool.false_ne_true),
      fun _ => by rw [ways, h.back_eq]; exact Nat.le_refl _, .inl fun t ht => ?_⟩
    rw [ways, h.back_eq] at ht
    exact ⟨_, List.mem_singleton.mp ht, howns 0 (by decide) (by rw [Nat.add_zero, h.entry_eq])
      (by rw [Nat.add_zero, h.entry_eq]; rfl)⟩
  · exact ⟨by rw [h.exit_eq], by rw [h.exit_eq]; rfl,
      by rw [h.exit_eq]; exact (absurd · Bool.false_ne_true),
      fun _ => by rw [ways, h.exit_eq]; exact Nat.zero_le _,
      .inl (Plain.of_nil (by rw [ways, h.exit_eq]))⟩

/-- **What laying out a loop that is run at least once does** to the end of its block and to its own
states. -/
structure Repeated (rule : Nat) (first last : StateId) (greedy : Bool) (d d' : Draft) : Prop where
  adds : d.Adds (· = last) d'
  size_eq : d'.size = d.size + 2
  last_eq : d'.state last =
    { d.state last with transitions := (d.state last).transitions ++ [.epsilon d.size] }
  back_eq : d'.state d.size =
    { index := d.size, kind := .plusLoopBack, rule
      transitions := branchWays greedy first (d.size + 1)
      decision := some d.decisions.size, nonGreedy := !greedy }
  exit_eq : d'.state (d.size + 1) =
    { index := d.size + 1, kind := .loopEnd, rule, partner := some d.size }

theorem plus_states {first last : StateId} {greedy : Bool} (hlast : last < d.size) :
    (plus rule ⟨first, last⟩ false greedy).Lays d fun f d' => f = ⟨first, d.size + 1⟩ ∧
      Repeated rule first last greedy d d' := by
  refine newState_bind (newState_bind (update_bind (update_bind (join_bind
    (branch_bind fun t₁ t₂ hbranch => decide_bind (.pure ?_))))))
  simp only [size_add] at hbranch ⊢
  have hne₀ : last ≠ d.size := Nat.ne_of_lt hlast
  have hne₁ : last ≠ d.size + 1 := Nat.ne_of_lt (Nat.lt_succ_of_lt hlast)
  have hlt : d.size < d.size + 1 + 1 := by omega
  have hlt' : last < d.size + 1 + 1 := Nat.lt_trans hlast hlt
  generalize hd' : Draft.number _ d.size = d'
  have hadds : d.Adds (· = last) d' := by
    rw [← hd']
    have hnew : ∀ k, d.size + k < d.size → d.size + k = last := fun k h =>
      absurd h (Nat.not_lt.mpr (Nat.le_add_right _ _))
    exact .then_number (.then_link (.then_link (.then_link (.then_change (.then_change
      (.then_add (.then_add (.refl _ d))) (fun _ => rfl) (fun _ => rfl) (hnew 1))
        (fun _ => rfl) (fun _ => rfl) (hnew 0)) fun _ => rfl) (hnew 0)) (hnew 0)) (hnew 0)
  refine ⟨trivial, hadds, by simp [← hd'], ?_, ?_, ?_⟩
  · simp [← hd', state_number, state_change, state_add, hne₀, hne₁, hlt']
  · rw [hbranch]
    simp [← hd', state_number, state_change, state_add, hne₀.symm, hlt]
  · simp [← hd', state_number, state_change, state_add, hne₁.symm]

private theorem plus_loop {first last : StateId} {greedy : Bool} (hfirst : d.Owns rule first)
    (hlast : last < d.size) (hways : d.ways last = []) :
    (plus rule ⟨first, last⟩ false greedy).Lays d fun f d' => f = ⟨first, d.size + 1⟩ ∧
      Looped rule last greedy d.size d d' ∧ d'.size = d.size + 2 ∧
        d'.ways d.size = branchWays greedy first (d.size + 1) ∧ d'.ways (d.size + 1) = [] := by
  refine (plus_states hlast).mono ?_
  rintro f d' ⟨rfl, h⟩
  have hsize := h.size_eq
  have hback_ways : d'.ways d.size = branchWays greedy first (d.size + 1) := by
    rw [ways, h.back_eq]
  have hback_owns : d'.Owns rule d.size :=
    .of_inner (hsize ▸ Nat.lt_add_of_pos_right (by decide)) (by rw [h.back_eq])
      (by rw [h.back_eq]; rfl)
  refine ⟨rfl, ⟨h.adds, by rw [ways, h.last_eq]; exact congrArg (· ++ _) hways, by rw [h.last_eq],
    hback_owns, fun parts hgreedy q hge hq => ?_⟩, hsize, hback_ways, by rw [ways, h.exit_eq]⟩
  have hq' : q = d.size ∨ q = d.size + 1 := by
    rw [hsize] at hq
    omega
  rcases hq' with rfl | rfl
  · refine ⟨by rw [h.back_eq], by rw [h.back_eq]; rfl, fun hlazy => hgreedy ?_,
      fun hnone => ?_, .inl (plain_branch (hfirst.adds h.adds)
      (.of_inner (hsize ▸ Nat.lt_succ_self _) (by rw [h.exit_eq]) (by rw [h.exit_eq]; rfl))
      hback_ways)⟩
    · rwa [h.back_eq, Bool.not_eq_true'] at hlazy
    · rw [h.back_eq] at hnone
      cases hnone
  · exact ⟨by rw [h.exit_eq], by rw [h.exit_eq]; rfl,
      by rw [h.exit_eq]; exact (absurd · Bool.false_ne_true),
      fun _ => by rw [ways, h.exit_eq]; exact Nat.zero_le _,
      .inl (Plain.of_nil (by rw [ways, h.exit_eq]))⟩

/-- **A block in a loop** is a piece. -/
private theorem Blocked.loop {kind : StateKind} {es : List Element} {b f : Fragment}
    {targets : List StateId} {d₁ d₂ : Draft} {e : Element} {greedy : Bool} {back : StateId}
    (h : Blocked rule kind es d b targets d₁) (hkind : kind.isInner = true)
    (hsingle : (d₁.state d.size).decision = none → es.length ≤ 1)
    (hloop : Looped rule (d.size + 1) greedy back d₁ d₂)
    (hentry : d.size ≤ f.entry ∧ f.entry < d₂.size) (hexit : d₁.size ≤ f.exit ∧ f.exit < d₂.size)
    (hexit_ways : d₂.ways f.exit = [])
    (hgreedy : greedy = false → ∃ e' ∈ e.parts, e'.isLazy = true)
    (hparts : Element.partsOf es ⊆ e.parts)
    (hlaid : ∀ W : StateId → List Transition,
      (∀ q, d₁.size ≤ q → q < d₂.size → q ≠ f.exit → W q = d₂.ways q) →
        W d.size = targets.map .epsilon → W (d.size + 1) = [.epsilon back] →
          LaidAlts W d.Names rule (d.size + 1) es targets →
            Laid W d.Names rule e f.entry f.exit) : Piece rule e d f d₂ := by
  have hadds := hloop.adds
  have hle := hadds.size_le
  have hne : d.size ≠ d.size + 1 := Nat.ne_of_lt (Nat.lt_succ_self _)
  have hne' : ∀ q, d.size + 2 ≤ q → q ≠ d.size + 1 := fun q hge => Nat.ne_of_gt hge
  have hbefore : ∀ q < d₁.size, q ≠ f.exit := fun q hq =>
    Nat.ne_of_lt (Nat.lt_of_lt_of_le hq hexit.1)
  refine ⟨h.adds.trans hadds fun q hq heq => absurd (heq ▸ hq : d.size + 1 < d.size)
    (Nat.not_lt.mpr (Nat.le_succ _)), hentry.1, hentry.2,
    Nat.le_trans h.adds.size_le hexit.1, hexit.2, hexit_ways, fun q hge hq => ?_, fun W hW => ?_⟩
  -- A state of the piece is the start of the block, its end, inside an alternative, or added by the
  -- loop.
  · rcases Nat.lt_or_ge q d₁.size with hlt | hge'
    · rcases Nat.lt_or_ge q (d.size + 2) with hlt' | hge'
      · rcases Nat.eq_or_lt_of_le hge with rfl | hgt
        · refine ⟨by rw [hadds.rule_eq _ hlt, h.entry_rule],
            by rw [hadds.kind_eq _ hlt, h.entry_kind]; exact hkind,
            by rw [hadds.keeps _ hlt hne, h.entry_greedy]; exact (absurd · Bool.false_ne_true), ?_,
            .inl ?_⟩
          · rw [hadds.keeps _ hlt hne, hadds.ways_eq hlt hne, h.entry_ways, List.length_map,
              h.length_targets]
            exact hsingle
          · rw [hadds.ways_eq hlt hne, h.entry_ways]
            exact h.targets_plain hadds
        · obtain rfl : q = d.size + 1 := Nat.le_antisymm (Nat.lt_succ_iff.mp hlt') hgt
          refine ⟨by rw [hadds.rule_eq _ hlt, h.exit_eq],
            by rw [hadds.kind_eq _ hlt, h.exit_eq]; rfl,
            by rw [hloop.last_greedy, h.exit_eq]; exact (absurd · Bool.false_ne_true),
            fun _ => by rw [hloop.last_ways]; exact Nat.le_refl _, .inl ?_⟩
          rw [hloop.last_ways]
          intro t ht
          exact ⟨back, List.mem_singleton.mp ht, hloop.back_owns⟩
      · exact ((h.wired q hge' hlt).adds hadds hlt (hne' q hge')).mono hparts
    · exact hloop.own e.parts hgreedy q hge' hq
  -- What the loop adds leaves the ways of the block as they were, but for its end.
  · have hold : ∀ q, d.size ≤ q → q < d₁.size → W q = d₂.ways q := fun q hge hq =>
      hW q hge (Nat.lt_of_lt_of_le hq hle) (hbefore q hq)
    refine hlaid W (fun q hge => hW q (Nat.le_trans h.adds.size_le hge)) ?_ ?_
      (h.laid W fun q hge hq => ?_)
    · rw [hold _ (Nat.le_refl _) h.entry_lt, hadds.ways_eq h.entry_lt hne, h.entry_ways]
    · rw [hold _ (Nat.le_succ _) h.exit_lt, hloop.last_ways]
    · rw [hold q (Nat.le_trans (Nat.le_add_right _ _) hge) hq, hadds.ways_eq hq (hne' q hge)]

theorem element_star (rule : Nat) (body : Element) (greedy : Bool) :
    element rule (.star body greedy) =
      (block rule .starBlockStart (alternatives rule body.choices) >>= fun b =>
        star rule b (!body.choices.tail.isEmpty) greedy) := by
  cases body with
  | alt es => cases es <;> simp [element, Element.choices, alternatives_singleton]
  | _ => simp [element, Element.choices, alternatives_singleton]

theorem element_plus (rule : Nat) (body : Element) (greedy : Bool) :
    element rule (.plus body greedy) =
      (block rule .plusBlockStart (alternatives rule body.choices) >>= fun b =>
        plus rule b (!body.choices.tail.isEmpty) greedy) := by
  cases body with
  | alt es => cases es <;> simp [element, Element.choices, alternatives_singleton]
  | _ => simp [element, Element.choices, alternatives_singleton]

private theorem length_le_one {α : Type} {l : List α} (h : l.tail = []) : l.length ≤ 1 := by
  cases l with
  | nil => exact Nat.zero_le _
  | cons a l => rw [List.length_cons, show l = [] from h]; exact Nat.le_refl _

/-- A loop that may be passed by. -/
private theorem star_lays {body : Element} {greedy : Bool}
    (hes : ∀ x ∈ body.choices, Lies rule x) : Lies rule (.star body greedy) := by
  intro d
  rw [element_star]
  refine (block_lays hes).bind ?_
  rintro b d₁ ⟨targets, h⟩
  -- Numbering the decision changes no way, so the loop around the block is laid out in either case.
  have hround : ∀ {d₁ : Draft}, Blocked rule .starBlockStart body.choices d b targets d₁ →
      ((d₁.state d.size).decision = none → body.choices.length ≤ 1) →
      (star rule b false greedy).Lays d₁ (Piece rule (.star body greedy) d) := by
    intro d₁ h hsingle
    rw [h.block_eq]
    refine (star_loop (h.entry_owns nofun) h.exit_lt (by rw [ways, h.exit_eq])).mono ?_
    rintro _ d₂ ⟨rfl, hloop, hsize, hentry, hback, hexit⟩
    have hlt : ∀ k < 3, d₁.size + k < d₂.size := fun k hk => hsize ▸ Nat.add_lt_add_left hk _
    refine h.loop rfl hsingle hloop ⟨h.adds.size_le, hlt 0 (by decide)⟩
      ⟨Nat.le_add_right _ _, hlt 2 (by decide)⟩ hexit (fun hlazy => ⟨_, Element.self_mem_parts _, by
        rw [hlazy]; rfl⟩)
      (List.Subset.trans (Element.partsOf_choices_subset body) (List.subset_cons_self _ _))
      fun W hW hfirst hlast halts => .star halts hfirst hlast ?_ ?_
    · rw [hW (d₁.size + 1) (Nat.le_succ _) (hlt 1 (by decide)) (Nat.ne_of_lt (Nat.lt_succ_self _)),
        hback]
    · rw [hW d₁.size (Nat.le_refl _) (hlt 0 (by decide))
        (Nat.ne_of_lt (Nat.lt_add_of_pos_right (by decide))), hentry]
  cases hseveral : !body.choices.tail.isEmpty with
  | false => exact hround h fun _ => length_le_one (by simpa using hseveral)
  | true =>
    have hentry : b.entry = d.size := congrArg Fragment.entry h.block_eq
    refine decide_bind (f := fun _ => star rule b false greedy) ?_
    rw [hentry]
    refine hround h.number fun hnone => ?_
    rw [state_number, if_pos ⟨rfl, h.entry_lt⟩] at hnone
    cases hnone

/-- A loop that is run at least once. -/
private theorem plus_lays {body : Element} {greedy : Bool}
    (hes : ∀ x ∈ body.choices, Lies rule x) : Lies rule (.plus body greedy) := by
  intro d
  rw [element_plus]
  refine (block_lays hes).bind ?_
  rintro b d₁ ⟨targets, h⟩
  -- As above; the block itself is the entry here.
  have hround : ∀ {d₁ : Draft}, Blocked rule .plusBlockStart body.choices d b targets d₁ →
      ((d₁.state d.size).decision = none → body.choices.length ≤ 1) →
      (plus rule b false greedy).Lays d₁ (Piece rule (.plus body greedy) d) := by
    intro d₁ h hsingle
    rw [h.block_eq]
    refine (plus_loop (h.entry_owns nofun) h.exit_lt (by rw [ways, h.exit_eq])).mono ?_
    rintro _ d₂ ⟨rfl, hloop, hsize, hback, hexit⟩
    have hlt : ∀ k < 2, d₁.size + k < d₂.size := fun k hk => hsize ▸ Nat.add_lt_add_left hk _
    refine h.loop rfl hsingle hloop ⟨Nat.le_refl _, Nat.lt_of_lt_of_le h.entry_lt hloop.adds.size_le⟩
      ⟨Nat.le_add_right _ _, hlt 1 (by decide)⟩ hexit (fun hlazy => ⟨_, Element.self_mem_parts _, by
        rw [hlazy]; rfl⟩)
      (List.Subset.trans (Element.partsOf_choices_subset body) (List.subset_cons_self _ _))
      fun W hW hfirst hlast halts => .plus halts hfirst hlast ?_
    rw [hW d₁.size (Nat.le_refl _) (hlt 0 (by decide)) (Nat.ne_of_lt (Nat.lt_succ_self _)), hback]
  cases hseveral : !body.choices.tail.isEmpty with
  | false => exact hround h fun _ => length_le_one (by simpa using hseveral)
  | true =>
    have hentry : b.entry = d.size := congrArg Fragment.entry h.block_eq
    refine decide_bind (f := fun _ => plus rule b false greedy) ?_
    rw [hentry]
    refine hround h.number fun hnone => ?_
    rw [state_number, if_pos ⟨rfl, h.entry_lt⟩] at hnone
    cases hnone

/-! ## All elements -/

/-- **Every element is laid out** where `Laid` says, in states that are wired. -/
theorem element_lays (rule : Nat) : ∀ e : Element, Lies rule e
  | .token v => fun _ => noteToken_bind fun _ hadds hsize =>
      (single_lays (.token v)).mono fun _ _ h => h.after hadds hsize
  | .range start stop => fun _ => noteToken_bind fun _ hadds hsize =>
      (single_lays (.range start stop)).mono fun _ _ h => h.after hadds hsize
  | .set s => fun d => by
    unfold element
    cases s.spans.getLast? with
    | none => exact single_lays (.set s)
    | some span =>
      exact noteToken_bind fun _ hadds hsize =>
        (single_lays (.set s)).mono fun _ _ h => h.after hadds hsize
  | .notSet s => fun _ => single_lays (.notSet s)
  | .wildcard => fun _ => single_lays .wildcard
  | .literal text => fun _ => literal_lays
  | .ruleRef name level => fun _ => call_lays
  | .seq [] => fun _ => single_lays .seq
  | .seq (e :: rest) => seq_lays (element_lays rule e) fun e' _ => element_lays rule e'
  | .alt [] => fun _ => single_lays .alt
  | .alt [e] => fun d => (element_lays rule e d).mono fun f d' h =>
    ⟨h.adds, h.entry_ge, h.entry_lt, h.exit_ge, h.exit_lt, h.exit_ways,
      fun q hge hq => (h.wired q hge hq).mono
        (List.Subset.trans (Element.parts_subset_partsOf (List.mem_singleton_self e))
          (List.subset_cons_self _ _)),
      fun W hW => .only (h.laid W hW)⟩
  | .alt (e :: e' :: rest) => alt_lays fun x _ => element_lays rule x
  | .optional body greedy => optional_lays fun x hx =>
    have := Element.sizeOf_le_of_mem_choices hx
    element_lays rule x
  | .star body greedy => star_lays fun x hx =>
    have := Element.sizeOf_le_of_mem_choices hx
    element_lays rule x
  | .plus body greedy => plus_lays fun x hx =>
    have := Element.sizeOf_le_of_mem_choices hx
    element_lays rule x
  | .predicate pred contextual => fun _ => single_lays (.predicate pred contextual)
  | .precedence level => fun _ => require_bind fun _ => single_lays (.precedence level)
  | .action action => fun d => by
    unfold element
    refine (Lays.get (Q := fun a d' => a = d ∧ d' = d) ⟨rfl, rfl⟩).bind ?_
    rintro _ _ ⟨rfl, rfl⟩
    split
    · exact command_lays fun i => .action action i
    · exact single_lays (.action action action)
  | .command c => fun _ => require_bind fun _ => command_lays fun i => .command c i
  | .epsilon => fun _ => single_lays .epsilon
termination_by e => sizeOf e
decreasing_by
  all_goals first
    | (simp only [Element.optional.sizeOf_spec, Element.star.sizeOf_spec, Element.plus.sizeOf_spec]
       omega)
    | decreasing_tactic

/-! ## Sequences that end with a symbol -/

private theorem sequence_append (rule : Nat) (es : List Element) (e : Element) :
    sequence rule (es ++ [e]) = (sequence rule es >>= fun fs => element rule e >>= fun f =>
      pure (fs ++ [f])) := by
  induction es with
  | nil => simp [sequence]
  | cons e' es ih => simp [sequence, ih]

/-- A symbol is laid out as two states. -/
private theorem token_lays {v : Symbol} : (element rule (.token v)).Lays d fun f d' =>
    f = ⟨d.size, d.size + 1⟩ ∧ Piece rule (.token v) d f d' ∧ d'.size = d.size + 2 ∧
      d'.ways d.size = [.atom (d.size + 1) v] := by
  suffices hstates : (element rule (.token v)).Lays d fun f d' => f = ⟨d.size, d.size + 1⟩ ∧
      d'.size = d.size + 2 ∧ d'.ways d.size = [.atom (d.size + 1) v] from
    ((element_lays rule (.token v) d).and hstates).mono
      fun f d' ⟨hpiece, heq, hsize, hways⟩ => ⟨heq, hpiece, hsize, hways⟩
  refine noteToken_bind fun d₁ hadds₁ hsize₁ => ?_
  refine newState_bind (newState_bind (link_bind (.pure ?_)))
  rw [size_add, hsize₁]
  refine ⟨rfl, by simp [hsize₁], ?_⟩
  have hlt : d.size < d.size + 1 + 1 := Nat.lt_succ_of_lt (Nat.lt_succ_self _)
  simp [ways, state_change, state_add, hsize₁, hlt]

/-- The last symbol is consumed before the exit, and nothing of it lies elsewhere. -/
private theorem tail_lays {es : List Element} {v : Symbol} :
    (element rule (.seq (es ++ [.token v]))).Lays d fun f d' => ∀ q, d.size ≤ q → q < d'.size →
      d'.Wired rule (Element.partsOf es) q ∨ d'.ways q = [.atom f.exit v] ∨ q = f.exit := by
  cases es with
  | nil =>
    have heq : element rule (.seq ([] ++ [.token v])) = (element rule (.token v) >>= pure) := by
      rw [List.nil_append]
      conv_lhs => unfold element
      simp only [sequence, connect, pure_bind]
    rw [heq]
    refine token_lays.bind fun f d' => ?_
    rintro ⟨rfl, -, hsize, hways⟩
    refine .pure fun q hge hq => .inr ?_
    rw [hsize] at hq
    rcases Nat.eq_or_lt_of_le hge with rfl | hgt
    · exact .inl hways
    · exact .inr (Nat.le_antisymm (Nat.lt_succ_iff.mp hq) hgt)
  | cons e rest =>
    have heq : element rule (.seq (e :: rest ++ [.token v])) =
        (element rule e >>= fun first => sequence rule rest >>= fun fs =>
          element rule (.token v) >>= fun f => connect first.exit (fs ++ [f]) >>= fun exit =>
            pure ⟨first.entry, exit⟩) := by
      rw [List.cons_append]
      conv_lhs => unfold element
      simp only [sequence_append, bind_assoc, pure_bind]
    rw [heq]
    refine (element_lays rule e d).bind fun first d₁ hpiece => ?_
    refine (sequence_lays fun e' _ => element_lays rule e').bind fun fs d₂ hrow => ?_
    refine token_lays.bind fun f d₃ => ?_
    rintro ⟨rfl, htoken, hsize₃, hways₃⟩
    have hle₂ := hrow.adds.size_le
    have hle₃ := htoken.adds.size_le
    have hrow_lt : ∀ q ∈ fs.map Fragment.exit, d₁.size ≤ q ∧ q < d₂.size ∧ d₂.ways q = [] := by
      intro q hq
      obtain ⟨f', hf', rfl⟩ := List.mem_map.mp hq
      exact ⟨(hrow.bounds f' hf').2.2.1, (hrow.bounds f' hf').2.2.2, hrow.ends f' hf'⟩
    have hfirst_lt : first.exit < d₂.size := Nat.lt_of_lt_of_le hpiece.exit_lt hle₂
    have hfirst_ways : d₂.ways first.exit = [] := by
      rw [hrow.adds.ways_eq hpiece.exit_lt not_false, hpiece.exit_ways]
    have hexits : (fs ++ [(⟨d₂.size, d₂.size + 1⟩ : Fragment)]).map Fragment.exit =
        fs.map Fragment.exit ++ [d₂.size + 1] := by
      rw [List.map_append]
      rfl
    -- The exits of the parts are apart, without ways on, and before the symbol.
    have hbefore : ∀ q ∈ first.exit :: fs.map Fragment.exit, q < d₂.size ∧ d₂.ways q = [] := by
      intro q hq
      rcases List.mem_cons.mp hq with rfl | hq
      · exact ⟨hfirst_lt, hfirst_ways⟩
      · exact (hrow_lt q hq).2
    have hends : ∀ q ∈ first.exit :: (fs ++ [(⟨d₂.size, d₂.size + 1⟩ : Fragment)]).map
        Fragment.exit, q < d₃.size ∧ d₃.ways q = [] := by
      intro q hq
      rw [hexits, ← List.cons_append, List.mem_append, List.mem_singleton] at hq
      rcases hq with hq | rfl
      · obtain ⟨hlt, hnil⟩ := hbefore q hq
        exact ⟨Nat.lt_of_lt_of_le hlt hle₃, (htoken.adds.ways_eq hlt not_false).trans hnil⟩
      · exact ⟨htoken.exit_lt, htoken.exit_ways⟩
    have hnodup : (first.exit :: (fs ++ [(⟨d₂.size, d₂.size + 1⟩ : Fragment)]).map
        Fragment.exit).Nodup := by
      rw [hexits, ← List.cons_append, List.nodup_append]
      refine ⟨List.nodup_cons.mpr ⟨fun hmem => ?_, hrow.nodup⟩, List.nodup_singleton _, ?_⟩
      · exact absurd hpiece.exit_lt (Nat.not_lt.mpr (hrow_lt _ hmem).1)
      · intro q hq q' hq'
        rw [List.mem_singleton.mp hq']
        exact Nat.ne_of_lt (Nat.lt_succ_of_lt (hbefore q hq).1)
    have howns : ∀ f ∈ fs ++ [(⟨d₂.size, d₂.size + 1⟩ : Fragment)], d₃.Owns rule f.entry := by
      intro f hf
      rcases List.mem_append.mp hf with hf | hf
      · obtain ⟨hge, hlt, -⟩ := hrow.bounds f hf
        exact ((hrow.wired _ hge hlt).owns hlt).adds htoken.adds
      · rw [List.mem_singleton.mp hf]
        exact (htoken.wired _ htoken.entry_ge htoken.entry_lt).owns htoken.entry_lt
    refine (connect_lays hends howns hnodup).bind fun exit d' hconnect => .pure fun q hge hq => ?_
    have hexit : exit = d₂.size + 1 := by
      rw [hconnect.exit_eq, hexits]
      simp
    rw [hconnect.size_eq] at hq
    rcases Nat.lt_or_ge q d₂.size with hlt | hge₂
    · refine .inl (hconnect.wired q hq _ ?_)
      have hwired : d₂.Wired rule (Element.partsOf (e :: rest)) q := by
        rw [Element.partsOf]
        rcases Nat.lt_or_ge q d₁.size with hlt₁ | hge₁
        · exact ((hpiece.wired q hge hlt₁).adds hrow.adds hlt₁ not_false).mono
            (List.subset_append_left _ _)
        · exact (hrow.wired q hge₁ hlt).mono (List.subset_append_right _ _)
      exact hwired.adds htoken.adds hlt not_false
    · refine .inr ?_
      rw [hexit]
      rw [hsize₃] at hq
      rcases Nat.eq_or_lt_of_le hge₂ with rfl | hgt
      · refine .inl ?_
        rw [hconnect.adds.ways_eq (hsize₃ ▸ Nat.lt_add_of_pos_right (by decide)) ?_, hways₃]
        intro hmem
        rw [hexits, ← List.cons_append, List.mem_append, List.mem_singleton] at hmem
        rcases hmem with hmem | heq'
        · exact absurd (hbefore _ hmem).1 (Nat.lt_irrefl _)
        · exact Nat.ne_of_lt (Nat.lt_succ_self _) heq'
      · exact .inr (Nat.le_antisymm (Nat.lt_succ_iff.mp hq) hgt)

/-- **What is inside an element that ends with a symbol.** -/
theorem element_tailed (rule : Nat) (e : Element) : (element rule e).Lays d fun f d' =>
    ∀ es v, e = .seq (es ++ [.token v]) → ∀ q, d.size ≤ q → q < d'.size →
      d'.Wired rule (Element.partsOf es) q ∨ d'.ways q = [.atom f.exit v] ∨ q = f.exit := by
  by_cases h : ∃ es v, e = .seq (es ++ [.token v])
  · obtain ⟨es, v, rfl⟩ := h
    refine tail_lays.mono fun f d' htail es' v' heq => ?_
    obtain ⟨rfl, hlast⟩ := List.append_inj' (Element.seq.inj heq) rfl
    obtain rfl := Element.token.inj (List.singleton_inj.mp hlast)
    exact htail
  · exact Lays.any.mono fun _ _ _ es v heq => absurd ⟨es, v, heq⟩ h

end Layout

end AdaptiveLL
