import AdaptiveLL.Proofs.Grammar.Finished

/-!
# What is refused

Laying out a grammar is refused only where a call names no rule or a construct belongs to the other
kind of grammar. `Layout.Succeeds` tells the condition under which a part of a layout succeeds, and
`grammar_succeeds` puts the conditions of all elements together.
-/

namespace AdaptiveLL

/-! ## Elements that fit -/

namespace Element

/-- Whether the element by itself may stand in a grammar of a kind, with rules of some names. -/
def fits (kind : GrammarKind) (names : List String) : Element → Bool
  | literal _ | command _ => kind == .lexer
  | precedence _ => kind == .parser
  | ruleRef name _ => names.contains name
  | _ => true

/-- Whether the element and all that it is made of may stand there. -/
def FitsIn (kind : GrammarKind) (names : List String) (e : Element) : Prop :=
  ∀ e' ∈ e.parts, e'.fits kind names = true

instance (kind : GrammarKind) (names : List String) (e : Element) :
    Decidable (e.FitsIn kind names) :=
  inferInstanceAs (Decidable (∀ e' ∈ e.parts, e'.fits kind names = true))

/-- An element that is not made of others. -/
theorem fitsIn_of_parts {kind : GrammarKind} {names : List String} {e : Element}
    (h : e.parts = [e]) : e.FitsIn kind names ↔ e.fits kind names = true := by
  rw [FitsIn, h, List.forall_mem_singleton]

/-- A list of elements is made of what its elements are made of. -/
theorem forall_partsOf {P : Element → Prop} {es : List Element} :
    (∀ e ∈ partsOf es, P e) ↔ ∀ e ∈ es, ∀ e' ∈ e.parts, P e' := by
  induction es with
  | nil => simp [partsOf]
  | cons e es ih => rw [partsOf, List.forall_mem_append, ih, List.forall_mem_cons]

/-- The alternatives between which is decided are made of what the element is made of, but for the
choice itself. -/
private theorem fitsIn_choices {kind : GrammarKind} {names : List String} (e : Element) :
    (∀ e' ∈ e.choices, e'.FitsIn kind names) ↔ e.FitsIn kind names := by
  unfold choices
  split
  · next e' rest =>
    unfold FitsIn
    rw [parts, ← forall_partsOf, List.forall_mem_cons (a := alt (e' :: rest))]
    exact ⟨fun h => ⟨rfl, h⟩, fun h => h.2⟩
  · exact List.forall_mem_singleton

/-- An element that is made of a list of others. -/
theorem fitsIn_of_partsOf {kind : GrammarKind} {names : List String} {e : Element}
    {es : List Element} (h : e.parts = e :: partsOf es) (hself : e.fits kind names = true) :
    e.FitsIn kind names ↔ ∀ e' ∈ es, e'.FitsIn kind names := by
  unfold FitsIn
  rw [h, ← forall_partsOf, List.forall_mem_cons]
  exact and_iff_right hself

/-- An option or a loop around an element. -/
theorem fitsIn_around {kind : GrammarKind} {names : List String} {e body : Element}
    (h : e.parts = e :: body.parts) (hself : e.fits kind names = true) :
    e.FitsIn kind names ↔ ∀ e' ∈ body.choices, e'.FitsIn kind names := by
  rw [fitsIn_choices, FitsIn, h, List.forall_mem_cons]
  exact and_iff_right hself

end Element

/-! ## Parts of a layout that succeed -/

namespace Layout

variable {α β : Type} {kind : GrammarKind} {names : List String}

/-- **The part of a layout succeeds exactly if the condition holds,** whatever the draft is, as long
as it is for a grammar of the kind with rules of the names. It then still is. -/
def Succeeds (kind : GrammarKind) (names : List String) (m : Layout α) (P : Prop) : Prop :=
  ∀ d : Draft, d.kind = kind → d.ruleNames = names →
    match m.run d with
    | .ok _ d' => P ∧ d'.kind = kind ∧ d'.ruleNames = names
    | .error _ _ => ¬P

namespace Succeeds

variable {m : Layout α} {f : α → Layout β} {P Q : Prop}

theorem congr (h : Succeeds kind names m P) (hPQ : P ↔ Q) : Succeeds kind names m Q :=
  propext hPQ ▸ h

theorem pure {a : α} : Succeeds kind names (pure a : Layout α) True :=
  fun _ hkind hnames => ⟨trivial, hkind, hnames⟩

theorem throw {e : NetworkError} : Succeeds kind names (throw e : Layout α) False :=
  fun _ _ _ => not_false

theorem modifyGet {g : Draft → α × Draft}
    (h : ∀ d, (g d).2.kind = d.kind ∧ (g d).2.ruleNames = d.ruleNames) :
    Succeeds kind names (MonadStateOf.modifyGet g : Layout α) True :=
  fun d hkind hnames => ⟨trivial, (h d).1.trans hkind, (h d).2.trans hnames⟩

theorem bind (hm : Succeeds kind names m P) (hf : ∀ a, Succeeds kind names (f a) Q) :
    Succeeds kind names (m >>= f) (P ∧ Q) := by
  intro d hkind hnames
  have hmd := hm d hkind hnames
  change match EStateM.bind m f d with
    | .ok _ d' => (P ∧ Q) ∧ d'.kind = kind ∧ d'.ruleNames = names
    | .error _ _ => ¬(P ∧ Q)
  unfold EStateM.bind
  change match m d with
    | .ok _ d' => P ∧ d'.kind = kind ∧ d'.ruleNames = names
    | .error _ _ => ¬P at hmd
  cases hrun : m d with
  | error e d' =>
    rw [hrun] at hmd
    exact fun h => hmd h.1
  | ok a d' =>
    rw [hrun] at hmd
    obtain ⟨hP, hkind', hnames'⟩ := hmd
    have hfa := hf a d' hkind' hnames'
    change match f a d' with
      | .ok _ d' => Q ∧ d'.kind = kind ∧ d'.ruleNames = names
      | .error _ _ => ¬Q at hfa
    dsimp only
    cases hrun' : f a d' with
    | error e d'' =>
      rw [hrun'] at hfa
      exact fun h => hfa h.2
    | ok b d'' =>
      rw [hrun'] at hfa
      exact ⟨⟨hP, hfa.1⟩, hfa.2⟩

/-- A step that always succeeds comes first. -/
theorem after (hm : Succeeds kind names m True) (hf : ∀ a, Succeeds kind names (f a) Q) :
    Succeeds kind names (m >>= f) Q :=
  (hm.bind hf).congr (iff_of_eq (true_and Q))

/-- A step that always succeeds comes last. -/
theorem before (hm : Succeeds kind names m P) (hf : ∀ a, Succeeds kind names (f a) True) :
    Succeeds kind names (m >>= f) P :=
  (hm.bind hf).congr (iff_of_eq (and_true P))

/-- The draft is looked at. -/
theorem get_bind {f : Draft → Layout β}
    (hf : ∀ d, d.kind = kind → d.ruleNames = names → Succeeds kind names (f d) P) :
    Succeeds kind names (MonadState.get >>= f) P :=
  fun d hkind hnames => hf d hkind hnames d hkind hnames

theorem forM {g : α → Layout PUnit} {P : α → Prop} {l : List α}
    (hg : ∀ a ∈ l, Succeeds kind names (g a) (P a)) :
    Succeeds kind names (l.forM g) (∀ a ∈ l, P a) := by
  induction l with
  | nil => exact pure.congr (by simp)
  | cons a l ih =>
    refine ((hg a List.mem_cons_self).bind fun _ =>
      ih fun b hb => hg b (List.mem_cons_of_mem a hb)).congr ?_
    rw [List.forall_mem_cons]

end Succeeds

/-! ## Steps that always succeed -/

variable {rule : Nat}

private theorem newState_succeeds {k : StateKind} :
    Succeeds kind names (newState k rule) True :=
  .modifyGet fun _ => ⟨rfl, rfl⟩

private theorem update_succeeds {s : StateId} {f : State → State} :
    Succeeds kind names (update s f) True :=
  .modifyGet fun _ => ⟨rfl, rfl⟩

private theorem decide_succeeds {s : StateId} : Succeeds kind names (decide s) True :=
  .get_bind fun _ _ _ => .after update_succeeds fun _ => .modifyGet fun _ => ⟨rfl, rfl⟩

private theorem noteToken_succeeds {v : Symbol} : Succeeds kind names (noteToken v) True :=
  .modifyGet fun d => by
    dsimp only
    split <;> exact ⟨rfl, rfl⟩

private theorem intern_succeeds {c : Command} : Succeeds kind names (intern c) True :=
  .modifyGet fun d => by
    split <;> exact ⟨rfl, rfl⟩

private theorem single_succeeds {t : StateId → Transition} :
    Succeeds kind names (single rule t) True :=
  .after newState_succeeds fun _ => .after newState_succeeds fun _ =>
    .after update_succeeds fun _ => .pure

private theorem command_succeeds {c : Command} : Succeeds kind names (command rule c) True :=
  .after intern_succeeds fun _ => single_succeeds

private theorem chain_succeeds {cs : List Char} {s : StateId} :
    Succeeds kind names (chain rule s cs) True := by
  induction cs generalizing s with
  | nil => exact .pure
  | cons c cs ih =>
    exact .after newState_succeeds fun next => .after update_succeeds fun _ => ih

private theorem attach_succeeds {block alternative : Fragment} :
    Succeeds kind names (attach block alternative) True :=
  .after update_succeeds fun _ => update_succeeds

private theorem connect_succeeds {fs : List Fragment} {exit : StateId} :
    Succeeds kind names (connect exit fs) True := by
  induction fs generalizing exit with
  | nil => exact .pure
  | cons f fs ih => exact .after update_succeeds fun _ => ih

private theorem branch_succeeds {s block exit : StateId} {greedy : Bool} :
    Succeeds kind names (branch s block exit greedy) True := by
  cases greedy <;> exact .after update_succeeds fun _ => update_succeeds

private theorem optional_succeeds {block : Fragment} {greedy : Bool} :
    Succeeds kind names (optional block greedy) True := by
  cases greedy <;> exact .after update_succeeds fun _ => .after update_succeeds fun _ =>
    .after decide_succeeds fun _ => .pure

private theorem star_succeeds {block : Fragment} {several greedy : Bool} :
    Succeeds kind names (star rule block several greedy) True := by
  have hround : Succeeds kind names (star rule block false greedy) True :=
    .after newState_succeeds fun _ => .after newState_succeeds fun _ =>
      .after newState_succeeds fun _ => .after update_succeeds fun _ =>
        .after update_succeeds fun _ => .after branch_succeeds fun _ =>
          .after update_succeeds fun _ => .after update_succeeds fun _ =>
            .after decide_succeeds fun _ => .pure
  cases several with
  | false => exact hround
  | true => exact .after decide_succeeds fun _ => hround

private theorem plus_succeeds {block : Fragment} {several greedy : Bool} :
    Succeeds kind names (plus rule block several greedy) True := by
  have hround : Succeeds kind names (plus rule block false greedy) True :=
    .after newState_succeeds fun _ => .after newState_succeeds fun _ =>
      .after update_succeeds fun _ => .after update_succeeds fun _ =>
        .after update_succeeds fun _ => .after branch_succeeds fun _ =>
          .after decide_succeeds fun _ => .pure
  cases several with
  | false => exact hround
  | true => exact .after decide_succeeds fun _ => hround

/-! ## Elements -/

/-- A construct of one kind of grammar. -/
private theorem require_succeeds {k : GrammarKind} {construct : String} :
    Succeeds kind names (require k construct) (kind = k) := by
  unfold require
  refine .get_bind fun d hkind _ => ?_
  split
  · next hne => exact Succeeds.throw.congr (iff_of_false not_false (hkind ▸ hne))
  · next heq => exact Succeeds.pure.congr (iff_of_true trivial (hkind ▸ not_not.mp heq))

private theorem call_succeeds {name : String} {level : Int} :
    Succeeds kind names (call rule name level) (name ∈ names) := by
  unfold call
  refine .get_bind fun d _ hnames => ?_
  split
  · next hnone =>
    rw [List.idxOf?_eq_none_iff, hnames] at hnone
    exact Succeeds.throw.congr (iff_of_false not_false hnone)
  · next callee hsome =>
    have hmem : name ∈ names := by
      obtain ⟨hlt, hget, -⟩ := List.idxOf?_eq_some_iff.mp hsome
      exact hnames ▸ hget ▸ List.getElem_mem hlt
    refine Succeeds.congr ?_ (iff_of_true trivial hmem)
    exact .after newState_succeeds fun _ => .after newState_succeeds fun _ =>
      .after update_succeeds fun _ => .pure

private theorem literal_succeeds {text : String} :
    Succeeds kind names (literal rule text) (kind = .lexer) := by
  unfold literal
  refine .before require_succeeds fun _ => ?_
  split
  · exact single_succeeds
  · exact .after newState_succeeds fun _ => .after chain_succeeds fun _ => .pure

/-- What the condition of an element is. -/
private abbrev Conditions (kind : GrammarKind) (names : List String) (rule : Nat) (e : Element) :
    Prop :=
  Succeeds kind names (element rule e) (e.FitsIn kind names)

private theorem alternatives_succeeds {es : List Element}
    (hes : ∀ e ∈ es, Conditions kind names rule e) (b : Fragment) :
    Succeeds kind names (alternatives rule es b) (∀ e ∈ es, e.FitsIn kind names) := by
  induction es with
  | nil => exact Succeeds.pure.congr (by simp)
  | cons e es ih =>
    refine ((hes e List.mem_cons_self).bind fun _ => .after attach_succeeds fun _ =>
      ih fun e' he' => hes e' (List.mem_cons_of_mem e he')).congr ?_
    rw [List.forall_mem_cons]

private theorem sequence_succeeds {es : List Element}
    (hes : ∀ e ∈ es, Conditions kind names rule e) :
    Succeeds kind names (sequence rule es) (∀ e ∈ es, e.FitsIn kind names) := by
  induction es with
  | nil => exact Succeeds.pure.congr (by simp)
  | cons e es ih =>
    refine ((hes e List.mem_cons_self).bind fun _ =>
      (ih fun e' he' => hes e' (List.mem_cons_of_mem e he')).before fun _ => .pure).congr ?_
    rw [List.forall_mem_cons]

/-- A block succeeds if its alternatives do. -/
private theorem block_succeeds {k : StateKind} {es : List Element}
    (hes : ∀ e ∈ es, Conditions kind names rule e) :
    Succeeds kind names (block rule k (alternatives rule es)) (∀ e ∈ es, e.FitsIn kind names) :=
  .after newState_succeeds fun _ => .after newState_succeeds fun _ => .after update_succeeds fun _ =>
    .before (alternatives_succeeds hes _) fun _ => .pure

/-- An element that is not made of others. -/
private theorem Succeeds.leaf {α : Type} {m : Layout α} {P : Prop} {e : Element}
    (hm : Succeeds kind names m P) (hparts : e.parts = [e]) (h : P ↔ e.fits kind names = true) :
    Succeeds kind names m (e.FitsIn kind names) :=
  hm.congr (h.trans (Element.fitsIn_of_parts hparts).symm)

private theorem true_iff_fits {e : Element} (h : e.fits kind names = true) :
    True ↔ e.fits kind names = true :=
  iff_of_true trivial h

/-- **Laying out an element succeeds** exactly if all that it is made of fits. -/
theorem element_succeeds (rule : Nat) : ∀ e : Element, Conditions kind names rule e
  | .token v =>
    .leaf (.after noteToken_succeeds fun _ => single_succeeds) rfl (true_iff_fits rfl)
  | .range start stop =>
    .leaf (.after noteToken_succeeds fun _ => single_succeeds) rfl (true_iff_fits rfl)
  | .set s => by
    refine .leaf (.after (?_ : Succeeds kind names _ True) fun _ => single_succeeds) rfl
      (true_iff_fits rfl)
    cases s.spans.getLast? with
    | none => exact .pure
    | some span => exact noteToken_succeeds
  | .notSet s => single_succeeds.leaf rfl (true_iff_fits rfl)
  | .wildcard => single_succeeds.leaf rfl (true_iff_fits rfl)
  | .literal text => literal_succeeds.leaf rfl beq_iff_eq.symm
  | .ruleRef name level => call_succeeds.leaf rfl List.contains_iff_mem.symm
  | .seq [] => single_succeeds.leaf rfl (true_iff_fits rfl)
  | .seq (e :: rest) => by
    unfold Conditions element
    refine ((element_succeeds rule e).bind fun _ => ((sequence_succeeds fun e' _ =>
      element_succeeds rule e').before fun _ => .after connect_succeeds fun _ => .pure)).congr ?_
    rw [Element.fitsIn_of_partsOf (e := .seq (e :: rest)) rfl rfl, List.forall_mem_cons]
  | .alt [] => single_succeeds.leaf rfl (true_iff_fits rfl)
  | .alt [e] => (element_succeeds rule e).congr (by
      rw [Element.fitsIn_of_partsOf (e := .alt [e]) rfl rfl, List.forall_mem_singleton])
  | .alt (e :: e' :: rest) => by
    unfold Conditions
    rw [element_alt]
    exact ((block_succeeds fun x _ => element_succeeds rule x).before fun _ =>
      .after decide_succeeds fun _ => .pure).congr (Element.fitsIn_of_partsOf rfl rfl).symm
  | .optional body greedy => by
    unfold Conditions
    rw [element_optional]
    refine ((block_succeeds fun x hx => ?_).before fun _ => optional_succeeds).congr
      (Element.fitsIn_around rfl rfl).symm
    have := Element.sizeOf_le_of_mem_choices hx
    exact element_succeeds rule x
  | .star body greedy => by
    unfold Conditions
    rw [element_star]
    refine ((block_succeeds fun x hx => ?_).before fun _ => star_succeeds).congr
      (Element.fitsIn_around rfl rfl).symm
    have := Element.sizeOf_le_of_mem_choices hx
    exact element_succeeds rule x
  | .plus body greedy => by
    unfold Conditions
    rw [element_plus]
    refine ((block_succeeds fun x hx => ?_).before fun _ => plus_succeeds).congr
      (Element.fitsIn_around rfl rfl).symm
    have := Element.sizeOf_le_of_mem_choices hx
    exact element_succeeds rule x
  | .predicate pred contextual => single_succeeds.leaf rfl (true_iff_fits rfl)
  | .precedence level =>
    .leaf (require_succeeds.before fun _ => single_succeeds) rfl beq_iff_eq.symm
  | .action action => by
    refine Succeeds.leaf (.get_bind fun d _ _ => ?_) rfl (true_iff_fits rfl)
    split
    · exact command_succeeds
    · exact single_succeeds
  | .command c => .leaf (require_succeeds.before fun _ => command_succeeds) rfl beq_iff_eq.symm
  | .epsilon => single_succeeds.leaf rfl (true_iff_fits rfl)
termination_by e => sizeOf e
decreasing_by
  all_goals first
    | (simp only [Element.optional.sizeOf_spec, Element.star.sizeOf_spec, Element.plus.sizeOf_spec]
       omega)
    | decreasing_tactic

/-! ## Whole grammars -/

private theorem modeStarts_succeed {modes : List String} :
    Succeeds kind names (modes.mapM modeStart) True := by
  induction modes with
  | nil =>
    rw [List.mapM_nil]
    exact .pure
  | cons mode modes ih =>
    rw [List.mapM_cons]
    exact .after (.after newState_succeeds fun _ => .after decide_succeeds fun _ => .pure) fun _ =>
      .after ih fun _ => .pure

private theorem ruleEnds_succeeds : Succeeds kind names (ruleEnds rule) True :=
  .after newState_succeeds fun _ => .after newState_succeeds fun _ => .modifyGet fun _ => ⟨rfl, rfl⟩

private theorem ruleBody_succeeds {r : Rule} :
    Succeeds kind names (ruleBody rule r) (r.body.FitsIn kind names) :=
  (element_succeeds rule r.body).before fun _ => .get_bind fun _ _ _ =>
    .after update_succeeds fun _ => update_succeeds

private theorem tokenRule_succeeds {modeStarts : List StateId} {r : Rule} :
    Succeeds kind names (tokenRule modeStarts rule r) True := by
  unfold tokenRule
  cases r.tokenType with
  | none => exact .pure
  | some type =>
    exact .after (.modifyGet fun _ => ⟨rfl, rfl⟩) fun _ => .get_bind fun _ _ _ => update_succeeds

/-- Steps for all of a list that always succeed. -/
private theorem Succeeds.always {α : Type} {g : α → Layout PUnit} {l : List α}
    (hg : ∀ a, Succeeds kind names (g a) True) : Succeeds kind names (l.forM g) True :=
  (Succeeds.forM fun a _ => hg a).congr (by simp)

/-- **Laying out a grammar succeeds** exactly if all that its rules are made of fits. -/
theorem grammar_succeeds (g : Grammar) : Succeeds kind names (grammar g)
    (∀ r ∈ g.rules, r.body.FitsIn kind names) := by
  have hbodies : Succeeds kind names (g.rules.zipIdx.forM fun x => ruleBody x.2 x.1)
      (∀ r ∈ g.rules, r.body.FitsIn kind names) := by
    refine (Succeeds.forM (P := fun x => x.1.body.FitsIn kind names)
      fun x _ => ruleBody_succeeds).congr ⟨fun h r hr => ?_, fun h x hx => ?_⟩
    · obtain ⟨i, hi⟩ := List.mem_iff_getElem?.mp hr
      exact h (r, i) (List.mem_zipIdx_iff_getElem?.mpr hi)
    · exact h x.1 (List.mem_of_getElem? (List.mem_zipIdx_iff_getElem?.mp hx))
  have hmodes : Succeeds kind names (if g.kind = .lexer then g.modes.mapM modeStart else pure [])
      True := by
    split
    · exact modeStarts_succeed
    · exact .pure
  have hlinks : ∀ modeStarts, Succeeds kind names
      (if g.kind = .lexer then g.rules.zipIdx.forM fun x => tokenRule modeStarts x.2 x.1
        else get >>= fun d => (followLinks d).forM fun link => join link.1 link.2) True := by
    intro modeStarts
    split
    · exact .always fun x => tokenRule_succeeds
    · exact .get_bind fun d _ _ => .always fun link => update_succeeds
  rw [grammar_eq]
  exact .after hmodes fun modeStarts => .after (.always fun i => ruleEnds_succeeds) fun _ =>
    hbodies.before fun _ => .after (hlinks modeStarts) fun _ => .pure

end Layout

end AdaptiveLL
