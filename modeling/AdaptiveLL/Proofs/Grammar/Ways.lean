import AdaptiveLL.Proofs.Grammar.Compiled
import Mathlib.Data.Set.Insert

/-!
# Every state leads on

A state inside a rule that has no way on is *loose*. Laying out an element leaves at most its exit
loose, since everything else is joined to what comes next, and laying out the body of a rule joins
that exit to the end of the rule. So in a compiled network every state inside a rule has a way on.
-/

namespace AdaptiveLL

namespace Draft

/-- **The loose states:** those inside rules that have no way on. -/
def loose (d : Draft) : Set StateId :=
  {q | q < d.size ∧ (d.state q).kind.isInner = true ∧ d.ways q = []}

variable {d : Draft} {kind : StateKind} {rule : Nat} {s : StateId} {t : Transition}
  {f : State → State}

theorem loose_add : (d.add kind rule).loose ⊆ {q | q ∈ d.loose ∨ kind.isInner = true ∧ q = d.size} := by
  rintro q ⟨hlt, hinner, hways⟩
  rw [size_add] at hlt
  unfold ways at hways
  rw [state_add] at hinner hways
  split at hinner
  · next heq => exact .inr ⟨hinner, heq⟩
  · next hne =>
    rw [if_neg hne] at hways
    exact .inl ⟨Nat.lt_of_le_of_ne (Nat.le_of_lt_succ hlt) hne, hinner, hways⟩

/-- Other marks do not matter. -/
theorem loose_change (hkind : ∀ state, (f state).kind = state.kind)
    (hways : ∀ state, (f state).transitions = state.transitions) :
    (d.change s f).loose ⊆ d.loose := by
  rintro q ⟨hlt, hinner, hnil⟩
  rw [size_change] at hlt
  unfold ways at hnil
  rw [state_change] at hinner hnil
  split at hinner
  · next hq =>
    rw [if_pos hq] at hnil
    exact ⟨hlt, hkind _ ▸ hinner, (hways _).symm.trans hnil⟩
  · next hq =>
    rw [if_neg hq] at hnil
    exact ⟨hlt, hinner, hnil⟩

/-- **A state that leads on is not loose any more.** -/
theorem loose_change_cons (hways : ∀ state, (f state).transitions ≠ []) :
    (d.change s f).loose ⊆ d.loose \ {s} := by
  rintro q ⟨hlt, hinner, hnil⟩
  rw [size_change] at hlt
  unfold ways at hnil
  rw [state_change] at hinner hnil
  split at hinner
  · next hq =>
    rw [if_pos hq] at hnil
    exact absurd hnil (hways _)
  · next hq =>
    rw [if_neg hq] at hnil
    exact ⟨⟨hlt, hinner, hnil⟩, fun heq => hq ⟨heq, hlt⟩⟩

end Draft

namespace Layout

open Draft

variable {α β : Type} {rule : Nat} {L L' M : Set StateId}

/-- **A part of a layout that leaves only some states loose:** those of `L'` if there were only those
of `L`. -/
def Leaves (m : Layout α) (L : Set StateId) (L' : α → Set StateId) : Prop :=
  ∀ d : Draft, d.loose ⊆ L → m.Lays d fun a d' => d'.loose ⊆ L' a

namespace Leaves

variable {m : Layout α} {f : α → Layout β} {L₁ L₂ : α → Set StateId} {L₃ : β → Set StateId}

theorem pure {a : α} (h : L ⊆ L₁ a) : Leaves (pure a : Layout α) L L₁ := fun _ hd => .pure (hd.trans h)

theorem throw {e : NetworkError} : Leaves (throw e : Layout α) L L₁ := fun _ _ => .throw

theorem bind (h : Leaves m L L₁) (hf : ∀ a, Leaves (f a) (L₁ a) L₃) : Leaves (m >>= f) L L₃ :=
  fun d hd => (h d hd).bind fun a d' hd' => hf a d' hd'

theorem mono (h : Leaves m L L₁) (hL : ∀ a, L₁ a ⊆ L₂ a) : Leaves m L L₂ :=
  fun d hd => (h d hd).mono fun a _ hd' => hd'.trans (hL a)

theorem get_bind {f : Draft → Layout β} (h : ∀ d, Leaves (f d) L L₃) :
    Leaves (MonadState.get >>= f) L L₃ := by
  have hget : Leaves MonadState.get L fun _ => L := fun _ hd => .get hd
  exact hget.bind h

theorem ite {c : Prop} [Decidable c] {m' : Layout α} (h : Leaves m L L₁) (h' : Leaves m' L L₁) :
    Leaves (if c then m else m') L L₁ := by
  split
  · exact h
  · exact h'

theorem forM {g : α → Layout PUnit} {l : List α} (hg : ∀ a ∈ l, Leaves (g a) L fun _ => L) :
    Leaves (l.forM g) L fun _ => L :=
  fun _ hd => .forM (fun _ d => d.loose ⊆ L)
    (fun _ a _ hl d' hd' => hg a (hl ▸ List.mem_append_right _ List.mem_cons_self) d' hd') hd

end Leaves

/-! ## States and transitions -/

private theorem newState_leaves (kind : StateKind) (rule : Nat) :
    (newState kind rule).Leaves L fun s => insert s L := by
  intro d hd q hq
  rcases loose_add hq with hq | ⟨-, rfl⟩
  · exact .inr (hd hq)
  · exact .inl rfl

/-- The start of a mode or an end of a rule is no state inside a rule. -/
private theorem newState_leaves_outer {kind : StateKind} (hkind : kind.isInner = false) (rule : Nat) :
    (newState kind rule).Leaves L fun _ => L := by
  intro d hd q hq
  rcases loose_add hq with hq | ⟨hinner, -⟩
  · exact hd hq
  · rw [hkind] at hinner
    cases hinner

private theorem update_leaves (s : StateId) {f : State → State}
    (hkind : ∀ state, (f state).kind = state.kind)
    (hways : ∀ state, (f state).transitions = state.transitions) :
    (update s f).Leaves L fun _ => L :=
  fun _ hd => (loose_change hkind hways).trans hd

private theorem link_leaves (s : StateId) (t : Transition) :
    (link s t).Leaves L fun _ => L \ {s} := by
  intro d hd
  have hsub : (linked d s t).loose ⊆ d.loose \ {s} := loose_change_cons fun _ => by simp
  exact hsub.trans (Set.sdiff_subset_sdiff_left hd)

private theorem join_leaves (s target : StateId) : (join s target).Leaves L fun _ => L \ {s} :=
  link_leaves s _

private theorem decide_leaves (s : StateId) : (decide s).Leaves L fun _ => L := by
  intro d hd
  have hsub : (d.number s).loose ⊆ d.loose :=
    loose_change (d := d) (s := s) (f := fun state => { state with decision := some d.decisions.size })
      (fun _ => rfl) fun _ => rfl
  exact hsub.trans hd

private theorem single_leaves (t : StateId → Transition) :
    (single rule t).Leaves L fun f => insert f.exit L := by
  refine (newState_leaves _ _).bind fun entry => (newState_leaves _ _).bind fun exit =>
    (link_leaves _ _).bind fun _ => .pure ?_
  rintro q ⟨rfl | rfl | hq, hne⟩
  · exact .inl rfl
  · exact absurd rfl hne
  · exact .inr hq

/-- What changes no state leaves none loose. -/
private theorem modify_leaves {f : Draft → Draft} (hf : ∀ d, (f d).states = d.states) :
    (modify f : Layout PUnit).Leaves L fun _ => L := by
  intro d hd
  have hsame : (f d).loose = d.loose := by
    unfold loose size ways state
    rw [hf]
  exact .modifyGet (hsame.trans_subset hd)

private theorem noteToken_leaves (v : Symbol) : (noteToken v).Leaves L fun _ => L :=
  modify_leaves fun d => by split <;> rfl

private theorem require_leaves (kind : GrammarKind) (construct : String) :
    (require kind construct).Leaves L fun _ => L :=
  .get_bind fun _ => .ite .throw (.pure Set.Subset.rfl)

/-! ## Leaves -/

private theorem chain_leaves : ∀ (cs : List Char) (s : StateId) {L : Set StateId},
    (chain rule s cs).Leaves (insert s L) fun last => insert last L
  | [], _, _ => .pure Set.Subset.rfl
  | c :: cs, s, L => by
    refine (newState_leaves _ _).bind fun next => (link_leaves _ _).bind fun _ => ?_
    have hsub : insert next (insert s L) \ {s} ⊆ insert next L := by
      rintro q ⟨rfl | rfl | hq, hne⟩
      · exact .inl rfl
      · exact absurd rfl hne
      · exact .inr hq
    exact fun d hd => chain_leaves cs next d (hd.trans hsub)

private theorem literal_leaves (text : String) :
    (literal rule text).Leaves L fun f => insert f.exit L := by
  unfold literal
  refine .bind (require_leaves _ _) fun _ => ?_
  split
  · exact single_leaves _
  · exact (newState_leaves _ _).bind fun entry => (chain_leaves _ entry).bind fun exit =>
      .pure Set.Subset.rfl

private theorem call_leaves (name : String) (level : Int) :
    (call rule name level).Leaves L fun f => insert f.exit L := by
  refine .get_bind fun d => ?_
  split
  · exact .throw
  · exact single_leaves (fun p => .rule _ _ p level)

private theorem command_leaves (c : Command) :
    (command rule c).Leaves L fun f => insert f.exit L := by
  unfold command
  refine .bind (?_ : Leaves _ L fun _ => L) fun i => single_leaves _
  refine fun d hd => .modifyGet ?_
  split
  · exact hd
  · exact hd

/-! ## Joining -/

/-- Joining fragments one after the other leaves only the last exit loose. -/
private theorem connect_leaves : ∀ (fs : List Fragment) (s : StateId) {L : Set StateId},
    (connect s fs).Leaves {q | q ∈ L ∨ q ∈ s :: fs.map Fragment.exit} fun exit => insert exit L
  | [], s, L => .pure fun q hq => by simpa [or_comm] using hq
  | f :: fs, s, L => by
    refine (join_leaves _ _).bind fun _ => ?_
    have hsub : {q | q ∈ L ∨ q ∈ s :: (f :: fs).map Fragment.exit} \ {s} ⊆
        {q | q ∈ L ∨ q ∈ f.exit :: fs.map Fragment.exit} := by
      rintro q ⟨hq | hq, hne⟩
      · exact .inl hq
      · exact .inr ((List.mem_cons.mp hq).resolve_left hne)
    exact fun d hd => connect_leaves fs f.exit d (hd.trans hsub)

/-- What laying out an element leaves loose. -/
private abbrev LeavesExit (rule : Nat) (e : Element) : Prop :=
  ∀ L : Set StateId, (element rule e).Leaves L fun f => insert f.exit L

private theorem sequence_leaves {es : List Element} (hes : ∀ e ∈ es, LeavesExit rule e) :
    ∀ {L : Set StateId}, (sequence rule es).Leaves L
      fun fs => {q | q ∈ L ∨ q ∈ fs.map Fragment.exit} := by
  induction es with
  | nil => exact .pure fun q hq => .inl hq
  | cons e es ih =>
    intro L
    refine (hes e List.mem_cons_self L).bind fun f =>
      (ih fun e' he' => hes e' (List.mem_cons_of_mem _ he')).bind fun fs => .pure ?_
    rintro q ((rfl | hq) | hq)
    · exact .inr List.mem_cons_self
    · exact .inl hq
    · exact .inr (List.mem_cons_of_mem _ hq)

private theorem attach_leaves (b body : Fragment) :
    (attach b body).Leaves (insert body.exit L) fun _ => L \ {b.entry} := by
  refine (join_leaves _ _).bind fun _ => (join_leaves _ _).mono fun _ => ?_
  rintro q ⟨⟨rfl | hq, hentry⟩, hexit⟩
  · exact absurd rfl hexit
  · exact ⟨hq, hentry⟩

/-- Laying out alternatives leads on from the start of their block. -/
private theorem alternatives_leaves {b : Fragment} {e : Element} {es : List Element}
    (hes : ∀ x ∈ e :: es, LeavesExit rule x) :
    (alternatives rule (e :: es) b).Leaves L fun _ => L \ {b.entry} := by
  induction es generalizing e L with
  | nil =>
    refine (hes e List.mem_cons_self L).bind fun body => (attach_leaves b body).bind fun _ => ?_
    exact .pure Set.Subset.rfl
  | cons e' es ih =>
    refine (hes e List.mem_cons_self L).bind fun body => (attach_leaves b body).bind fun _ => ?_
    refine (ih fun x hx => hes x (List.mem_cons_of_mem _ hx)).mono fun _ => ?_
    exact Set.sdiff_subset

private theorem block_leaves {kind : StateKind} {es : List Element} (hne : es ≠ [])
    (hes : ∀ x ∈ es, LeavesExit rule x) :
    (block rule kind (alternatives rule es)).Leaves L fun f => insert f.exit L := by
  obtain ⟨e, es, rfl⟩ := List.exists_cons_of_ne_nil hne
  refine .bind (newState_leaves _ _) fun entry => ?_
  refine .bind (newState_leaves _ _) fun exit => ?_
  refine .bind (update_leaves _ (fun _ => rfl) fun _ => rfl) fun _ => ?_
  refine .bind (alternatives_leaves hes) fun _ => .pure ?_
  rintro q ⟨rfl | rfl | hq, hentry⟩
  · exact .inl rfl
  · exact absurd rfl hentry
  · exact .inr hq

/-! ## Loops -/

private theorem branch_leaves (s target exit : StateId) (greedy : Bool) :
    (branch s target exit greedy).Leaves L fun _ => L \ {s} := by
  have htwice : ∀ a b : StateId,
      (join s a >>= fun _ => join s b).Leaves L fun _ => L \ {s} := fun a b =>
    (join_leaves s a).bind fun _ => (join_leaves s b).mono fun _ => Set.sdiff_subset
  exact .ite (htwice _ _) (htwice _ _)

private theorem optional_leaves (b : Fragment) (greedy : Bool) :
    (optional b greedy).Leaves L fun f => {q | q ∈ L ∧ f = b} := by
  have hfirst : (if greedy then join b.entry b.exit else joinFirst b.entry b.exit).Leaves L
      fun _ => L := by
    refine .ite ((join_leaves _ _).mono fun _ => Set.sdiff_subset) fun d hd => ?_
    have hsub : (d.change b.entry fun state =>
        { state with transitions := .epsilon b.exit :: state.transitions }).loose ⊆
          d.loose \ {b.entry} := loose_change_cons fun _ => List.cons_ne_nil _ _
    exact (hsub.trans Set.sdiff_subset).trans hd
  have heq : optional b greedy =
      ((if greedy then join b.entry b.exit else joinFirst b.entry b.exit) >>= fun _ =>
        update b.entry (fun s => { s with nonGreedy := !greedy }) >>= fun _ =>
          decide b.entry >>= fun _ => pure b) := by
    unfold optional
    split <;> rfl
  rw [heq]
  refine .bind hfirst fun _ => ?_
  refine .bind (update_leaves _ (fun _ => rfl) fun _ => rfl) fun _ => ?_
  exact .bind (decide_leaves _) fun _ => .pure fun q hq => ⟨hq, rfl⟩

/-- A decision at the start of a block. -/
private theorem several_leaves (several : Bool) (s : StateId) :
    (if several then decide s else pure ()).Leaves L fun _ => L :=
  .ite (decide_leaves s) (.pure Set.Subset.rfl)

private theorem star_leaves (b : Fragment) (several greedy : Bool) :
    (star rule b several greedy).Leaves (insert b.exit L) fun f => insert f.exit L := by
  have heq : star rule b several greedy =
      ((if several then decide b.entry else pure ()) >>= fun _ => star rule b false greedy) := by
    unfold star
    split <;> rfl
  rw [heq]
  refine .bind (several_leaves _ _) fun _ => ?_
  refine .bind (newState_leaves _ _) fun entry => ?_
  refine .bind (newState_leaves _ _) fun back => ?_
  refine .bind (newState_leaves _ _) fun exit => ?_
  refine .bind (update_leaves _ (fun _ => rfl) fun _ => rfl) fun _ => ?_
  refine .bind (update_leaves _ (fun _ => rfl) fun _ => rfl) fun _ => ?_
  refine .bind (branch_leaves _ _ _ _) fun _ => ?_
  refine .bind (join_leaves _ _) fun _ => .bind (join_leaves _ _) fun _ => ?_
  refine .bind (decide_leaves _) fun _ => .pure ?_
  rintro q ⟨⟨⟨rfl | rfl | rfl | rfl | hq, hentry⟩, hexit⟩, hback⟩
  · exact .inl rfl
  · exact absurd rfl hback
  · exact absurd rfl hentry
  · exact absurd rfl hexit
  · exact .inr hq

private theorem plus_leaves (b : Fragment) (several greedy : Bool) :
    (plus rule b several greedy).Leaves (insert b.exit L) fun f => insert f.exit L := by
  have heq : plus rule b several greedy =
      ((if several then decide b.entry else pure ()) >>= fun _ => plus rule b false greedy) := by
    unfold plus
    split <;> rfl
  rw [heq]
  refine .bind (several_leaves _ _) fun _ => ?_
  refine .bind (newState_leaves _ _) fun back => ?_
  refine .bind (newState_leaves _ _) fun exit => ?_
  refine .bind (update_leaves _ (fun _ => rfl) fun _ => rfl) fun _ => ?_
  refine .bind (update_leaves _ (fun _ => rfl) fun _ => rfl) fun _ => ?_
  refine .bind (join_leaves _ _) fun _ => .bind (branch_leaves _ _ _ _) fun _ => ?_
  refine .bind (decide_leaves _) fun _ => .pure ?_
  rintro q ⟨⟨rfl | rfl | rfl | hq, hexit⟩, hback⟩
  · exact .inl rfl
  · exact absurd rfl hback
  · exact absurd rfl hexit
  · exact .inr hq

/-! ## Elements and grammars -/

/-- **Laying out an element leaves at most its exit loose.** -/
private theorem element_leaves (rule : Nat) : ∀ e : Element, LeavesExit rule e
  | .token v => fun L => by
    unfold element
    exact .bind (noteToken_leaves v) fun _ => single_leaves _
  | .range start stop => fun L => by
    unfold element
    exact .bind (noteToken_leaves stop) fun _ => single_leaves _
  | .set s => fun L => by
    unfold element
    cases s.spans.getLast? with
    | none => exact single_leaves (.set · s)
    | some span => exact .bind (noteToken_leaves span.stop) fun _ => single_leaves (.set · s)
  | .notSet s => fun L => by
    unfold element
    exact single_leaves _
  | .wildcard => fun L => by
    unfold element
    exact single_leaves _
  | .literal text => fun L => by
    unfold element
    exact literal_leaves text
  | .ruleRef name level => fun L => by
    unfold element
    exact call_leaves name level
  | .seq [] => fun L => by
    unfold element
    exact single_leaves _
  | .seq (e :: rest) => fun L => by
    unfold element
    refine .bind (element_leaves rule e L) fun first => ?_
    refine .bind (sequence_leaves fun e' _ => element_leaves rule e') fun others => ?_
    refine .bind (fun d hd => connect_leaves others first.exit d (hd.trans ?_)) fun exit =>
      .pure Set.Subset.rfl
    rintro q ((rfl | hq) | hq)
    · exact .inr List.mem_cons_self
    · exact .inl hq
    · exact .inr (List.mem_cons_of_mem _ hq)
  | .alt [] => fun L => by
    unfold element
    exact single_leaves _
  | .alt [e] => fun L => by
    unfold element
    exact element_leaves rule e L
  | .alt (e :: e' :: rest) => fun L => by
    have heq : element rule (.alt (e :: e' :: rest)) =
        (block rule .blockStart (alternatives rule (e :: e' :: rest)) >>= fun choice =>
          decide choice.entry >>= fun _ => pure choice) := by
      rw [element]
      rfl
    rw [heq]
    refine .bind (block_leaves (List.cons_ne_nil _ _) fun x _ => element_leaves rule x) fun b => ?_
    exact .bind (decide_leaves _) fun _ => .pure Set.Subset.rfl
  | .optional body greedy => fun L => by
    rw [element_optional]
    refine .bind (block_leaves body.choices_ne_nil fun x hx => ?_) fun b => ?_
    · have := Element.sizeOf_le_of_mem_choices hx
      exact element_leaves rule x
    · refine (optional_leaves b greedy).mono fun f => ?_
      rintro q ⟨hq, rfl⟩
      exact hq
  | .star body greedy => fun L => by
    rw [element_star]
    refine .bind (block_leaves body.choices_ne_nil fun x hx => ?_) fun b => star_leaves b _ greedy
    have := Element.sizeOf_le_of_mem_choices hx
    exact element_leaves rule x
  | .plus body greedy => fun L => by
    rw [element_plus]
    refine .bind (block_leaves body.choices_ne_nil fun x hx => ?_) fun b => plus_leaves b _ greedy
    have := Element.sizeOf_le_of_mem_choices hx
    exact element_leaves rule x
  | .predicate pred contextual => fun L => by
    unfold element
    exact single_leaves _
  | .precedence level => fun L => by
    unfold element
    exact .bind (require_leaves _ _) fun _ => single_leaves _
  | .action action => fun L => by
    unfold element
    exact .get_bind fun d => .ite (command_leaves _) (single_leaves _)
  | .command c => fun L => by
    unfold element
    exact .bind (require_leaves _ _) fun _ => command_leaves c
  | .epsilon => fun L => by
    unfold element
    exact single_leaves _
termination_by e => sizeOf e
decreasing_by
  all_goals first
    | (simp only [Element.optional.sizeOf_spec, Element.star.sizeOf_spec, Element.plus.sizeOf_spec]
       omega)
    | decreasing_tactic

/-- The body of a rule leads on to its end. -/
private theorem ruleBody_leaves (r : Rule) (i : Nat) : (ruleBody i r).Leaves L fun _ => L := by
  refine .bind (element_leaves i r.body L) fun body => .get_bind fun d => ?_
  refine .bind (join_leaves _ _) fun _ => (join_leaves _ _).mono fun _ => ?_
  rintro q ⟨⟨rfl | hq, -⟩, hexit⟩
  · exact absurd rfl hexit
  · exact hq

private theorem tokenRule_leaves (modeStarts : List StateId) (r : Rule) (i : Nat) :
    (tokenRule modeStarts i r).Leaves L fun _ => L := by
  unfold tokenRule
  cases r.tokenType with
  | none => exact Leaves.pure (a := PUnit.unit) Set.Subset.rfl
  | some type =>
    refine .bind (modify_leaves (f := fun d => { d with maxTokenType := max d.maxTokenType type })
      fun _ => rfl) fun _ => ?_
    exact .get_bind fun d => (join_leaves _ _).mono fun _ => Set.sdiff_subset

private theorem grammar_leaves (g : Grammar) : (grammar g).Leaves L fun _ => L := by
  have hjoin : ∀ s target : StateId, (join s target).Leaves L fun _ => L := fun s target =>
    (join_leaves s target).mono fun _ => Set.sdiff_subset
  have hmodes : (if g.kind = .lexer then g.modes.mapM modeStart else pure []).Leaves L fun _ => L := by
    refine .ite ?_ (.pure Set.Subset.rfl)
    induction g.modes with
    | nil => exact .pure Set.Subset.rfl
    | cons name names ih =>
      rw [List.mapM_cons]
      refine .bind (.bind (newState_leaves_outer rfl 0) fun s => ?_) fun s =>
        .bind ih fun ss => .pure Set.Subset.rfl
      exact .bind (decide_leaves s) fun _ => .pure Set.Subset.rfl
  have hgrammar : grammar g =
      ((if g.kind = .lexer then g.modes.mapM modeStart else pure []) >>= fun modeStarts =>
        (List.range g.rules.length).forM ruleEnds >>= fun _ =>
          (g.rules.zipIdx.forM fun x => ruleBody x.2 x.1) >>= fun _ =>
            (if g.kind = .lexer then g.rules.zipIdx.forM fun x => tokenRule modeStarts x.2 x.1
              else get >>= fun d => (followLinks d).forM fun link => join link.1 link.2) >>= fun _ =>
                pure modeStarts) := by
    unfold grammar
    split <;> rfl
  rw [hgrammar]
  refine .bind hmodes fun modeStarts => .bind (.forM fun i _ => ?_) fun _ => ?_
  · refine .bind (newState_leaves_outer rfl i) fun start => ?_
    exact .bind (newState_leaves_outer rfl i) fun stop => modify_leaves fun _ => rfl
  refine .bind (.forM fun x _ => ruleBody_leaves x.1 x.2) fun _ => ?_
  refine .bind (.ite (.forM fun x _ => tokenRule_leaves modeStarts x.1 x.2)
    (.get_bind fun d => .forM fun link _ => hjoin _ _)) fun _ => .pure Set.Subset.rfl

end Layout

/-- In a compiled network every state inside a rule has a way on. -/
private theorem inside_ways_ne_nil {g : Grammar} {net : Network} (h : g.compile = .ok net)
    {q : StateId} (hq : q < net.states.size) (hinner : (net.state q).kind.isInner = true) :
    (net.state q).transitions ≠ [] := by
  unfold Grammar.compile at h
  split at h
  · cases h
  · split at h
    · cases h
    · next modeStarts d hrun =>
      have hnone : d.loose ⊆ ∅ :=
        (Layout.grammar_leaves g g.draft fun q hq => absurd hq.1 (Nat.not_lt_zero q)).apply hrun
      change ((g.network modeStarts d).check >>= fun _ => pure (g.network modeStarts d)) = _ at h
      cases hcheck : (g.network modeStarts d).check with
      | error e =>
        rw [hcheck] at h
        cases h
      | ok u =>
        rw [hcheck] at h
        obtain rfl := Except.ok.inj h
        exact fun hnil => hnone ⟨hq, hinner, hnil⟩

/-- **In the network of a parser only the end of a rule may have no way on.** -/
theorem Grammar.ways_ne_nil {g : Grammar} {net : Network} (h : g.compile = .ok net)
    (hparser : g.kind = .parser) {q : StateId} (hq : q < net.states.size)
    (hstop : net.isStop q = false) : (net.state q).transitions ≠ [] := by
  obtain ⟨modeStarts, d, hbuilt⟩ := Grammar.exists_built h
  have hlt : q < d.size := by
    rw [hbuilt.network_eq] at hq
    exact hq
  rcases Nat.lt_or_ge q g.frameSize with hframe | hframe
  · rcases Grammar.frame_cases hframe with hmode | ⟨i, hi, rfl | rfl⟩
    · simp [Grammar.modeCount, hparser] at hmode
    · obtain ⟨entry, -, hways, -⟩ := hbuilt.renders.body (List.getElem?_eq_getElem hi)
      rw [Network.inner_of_not_isStop hstop] at hways
      simp [hways]
    · rw [hbuilt.isStop_stop hi] at hstop
      cases hstop
  · obtain ⟨r, i, -, hinside⟩ := hbuilt.finished.bodied.inside q hframe hlt
    exact inside_ways_ne_nil h hq (hbuilt.state_eq q ▸ hinside.wired.inner)

end AdaptiveLL
