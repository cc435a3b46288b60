import AdaptiveLL.Parsing.Walk
import AdaptiveLL.Proofs.Network.Orderly
import AdaptiveLL.Proofs.Prediction.Told
import AdaptiveLL.Proofs.Run

/-!
# How a parse moves

A parse stands in the network at its state, under the states at which its active calls go on. Every
step that does not end it takes it along a hop of the network, or consumes the current token. With
that the callers it hands to its predictions are always those of its stack.
-/

namespace AdaptiveLL

namespace Walk

/-- The states at which the active calls go on, innermost first. -/
def follows (w : Walk) : List StateId := w.frames.filterMap Activation.follow

/-- Where the parse stands in the network. -/
def stand (w : Walk) : Stand := (w.state, w.follows)

/-- **The callers are those of the active calls.** The start rule has no caller. -/
def Matched (net : Network) (w : Walk) : Prop :=
  ∃ calls start, w.frames = calls ++ [start] ∧ start.follow = none ∧
    List.Forall₂ (fun f s => f.follow.isSome ∧
      (net.state s).transitions.head?.bind Transition.follow? = f.follow) calls w.callers

/-- Only the trace of the two differs. -/
def Alike (w w' : Walk) : Prop :=
  w'.state = w.state ∧ w'.frames = w.frames ∧ w'.callers = w.callers

theorem Alike.stand_eq {w w' : Walk} (h : w.Alike w') : w'.stand = w.stand := by
  unfold stand follows
  rw [h.1, h.2.1]

theorem Alike.matched {net : Network} {w w' : Walk} (h : w.Alike w') (hw : w.Matched net) :
    w'.Matched net := by
  unfold Matched at hw ⊢
  rwa [h.2.1, h.2.2]

variable {net : Network} {w : Walk}

private theorem filterMap_of_forall₂ {calls : List Activation} {callers : List StateId}
    (h : List.Forall₂ (fun f s => f.follow.isSome ∧
      (net.state s).transitions.head?.bind Transition.follow? = f.follow) calls callers) :
    callers.filterMap (fun s => (net.state s).transitions.head?.bind Transition.follow?) =
      calls.filterMap Activation.follow := by
  induction h with
  | nil => rfl
  | cons hfs _ ih => rw [List.filterMap_cons, List.filterMap_cons, hfs.2, ih]

/-- **The callers lead to the stack.** -/
theorem Matched.followsOf_eq (h : w.Matched net) :
    net.followsOf w.callers.reverse = w.follows := by
  obtain ⟨calls, start, hframes, hstart, hall⟩ := h
  unfold Network.followsOf follows
  rw [List.filterMap_reverse, List.reverse_reverse, filterMap_of_forall₂ hall, hframes,
    List.filterMap_append, List.filterMap_cons, hstart]
  exact (List.append_nil _).symm

/-- A caller makes its call first. -/
private theorem followOf?_of_forall₂ {calls : List Activation} {callers : List StateId}
    (h : List.Forall₂ (fun f s => f.follow.isSome ∧
      (net.state s).transitions.head?.bind Transition.follow? = f.follow) calls callers) :
    ∀ s ∈ callers, (net.followOf? s).isSome ∧
      net.followOf? s = (net.state s).transitions.head?.bind Transition.follow? := by
  induction h with
  | nil => exact List.forall_mem_nil _
  | @cons f s _ _ hfs _ ih =>
    refine List.forall_mem_cons.mpr ⟨?_, ih⟩
    obtain ⟨hsome, hfollow⟩ := hfs
    rw [← hfollow] at hsome
    unfold Network.followOf?
    cases hways : (net.state s).transitions with
    | nil =>
      rw [hways] at hsome
      cases hsome
    | cons t ts =>
      rw [hways] at hsome
      obtain ⟨p, hp⟩ := Option.isSome_iff_exists.mp hsome
      change t.follow? = some p at hp
      simp [hp]

/-- Each caller makes a call, and the stack is where these go on. -/
theorem Matched.followOf?_eq (h : w.Matched net) : (∀ s ∈ w.callers, (net.followOf? s).isSome) ∧
    (w.callers.reverse.filterMap net.followOf?).reverse = w.follows := by
  obtain ⟨calls, start, -, -, hall⟩ := id h
  have hfirst := followOf?_of_forall₂ hall
  refine ⟨fun s hs => (hfirst s hs).1, ?_⟩
  rw [← h.followsOf_eq]
  unfold Network.followsOf
  rw [List.filterMap_congr fun s hs => (hfirst s (List.mem_reverse.mp hs)).2]

end Walk

namespace Parser

variable {net : Network} {setup : ParseSetup} {w w' : Walk} {p p' : Parser}

/-- **One move of a parse:** a hop, or a token consumed. -/
inductive Moves (net : Network) (w : Walk) (s : TokenStream) (w' : Walk) (s' : TokenStream) : Prop
  | hop : net.Hop true false w.stand w'.stand → s' = s → Moves net w s w' s'
  | eat {t : Transition} : net.isStop w.state = false → t ∈ (net.state w.state).transitions →
      t.accepts (s.lookAhead 1) Symbol.firstToken net.maxTokenType = true →
      w'.stand = (t.target, w.follows) → s' = s.consume → Moves net w s w' s'

/-! ## Leaving a rule -/

/-- What the end of a rule leads to. -/
inductive Left (net : Network) (w : Walk) : Except ParseError (Walk ⊕ ParseTrace) → Prop
  | back {w' : Walk} : net.Hop true false w.stand w'.stand → w'.Matched net →
      Left net w (.ok (.inl w'))
  | done {t : ParseTrace} : w.follows = [] → Left net w (.ok (.inr t))

theorem leave_yields (hw : w.Matched net) (hstop : net.isStop w.state = true) :
    (leave w).Yields p fun r p' => p' = p ∧ Left net w r := by
  obtain ⟨calls, start, hframes, hstart, hall⟩ := hw
  unfold leave
  rw [hframes]
  cases calls with
  | nil =>
    refine .get_bind ?_
    simp only [hstart]
    refine .pure ⟨rfl, .done ?_⟩
    unfold Walk.follows
    rw [hframes, List.nil_append, List.filterMap_cons, hstart]
    rfl
  | cons f calls =>
    cases hc : w.callers with
    | nil => rw [hc] at hall; cases hall
    | cons s callers =>
      rw [hc] at hall
      obtain ⟨⟨hsome, hfollow⟩, hrest⟩ := List.forall₂_cons.mp hall
      obtain ⟨follow, hf⟩ := Option.isSome_iff_exists.mp hsome
      refine .get_bind ?_
      simp only [hf]
      refine .pure ⟨rfl, .back ?_ ⟨calls, start, rfl, hstart, ?_⟩⟩
      · have hfollows : w.follows = follow :: (calls ++ [start]).filterMap Activation.follow := by
          unfold Walk.follows
          rw [hframes, List.cons_append, List.filterMap_cons, hf]
        unfold Walk.stand
        rw [hfollows]
        exact .back hstop
      · simp only [Walk.push, hc, List.tail_cons]
        exact hrest

/-! ## Taking a transition -/

/-- What a transition leads to, up to the state. The session keeps its cache. -/
inductive Taken (setup : ParseSetup) (net : Network) (w : Walk) (t : Transition) (p : Parser) :
    Except ParseError Walk → Parser → Prop
  | hop {w' : Walk} {p' : Parser} : t.onward false w.follows = some (t.target, w'.follows) →
      w'.Matched net → p'.stream = p.stream → p'.session.cache = p.session.cache →
      Taken setup net w t p (.ok w') p'
  | eat {w' : Walk} {p' : Parser} :
      t.accepts (p.stream.lookAhead 1) Symbol.firstToken net.maxTokenType = true →
      w.Alike w' → p'.stream = p.stream.consume → p'.session.cache = p.session.cache →
      Taken setup net w t p (.ok w') p'
  | mismatched {e : ParseError} : t.isEpsilon = false →
      t.accepts (p.stream.lookAhead 1) Symbol.firstToken net.maxTokenType = false →
      Taken setup net w t p (.error e) p
  | guarded {e : ParseError} {p' : Parser} : t.guard? ≠ none → Taken setup net w t p (.error e) p'
  | overflow : Taken setup net w t p (.error (.callStackOverflow setup.maxDepth)) p

private theorem consume_yields {t : Transition} (ht : t.isEpsilon = false) :
    (consume net w t).Yields p (Taken setup net w t p) := by
  refine .get_bind ?_
  dsimp only
  split
  · next hacc => exact .set_bind (.pure (.eat hacc ⟨rfl, rfl, rfl⟩ rfl rfl))
  · next hacc => exact .throw (.mismatched ht (Bool.eq_false_of_not_eq_true hacc))

private theorem enter_yields (hw : w.Matched net) {target follow : StateId} {rule : Nat}
    {level : Int}
    (hways : (net.state w.state).transitions = [.rule target rule follow level]) :
    (enter setup w rule follow level).Yields p
      (Taken setup net w (.rule target rule follow level) p) := by
  unfold enter
  split
  · exact .throw .overflow
  · refine .get_bind (.pure (.hop ?_ ?_ rfl rfl))
    · rfl
    · obtain ⟨calls, start, hframes, hstart, hall⟩ := hw
      refine ⟨⟨rule, some follow, level⟩ :: calls, start, ?_, hstart, .cons ⟨rfl, ?_⟩ hall⟩
      · simp only [Walk.push, hframes, List.cons_append]
      · rw [show (w.push (.enter rule p.stream.index)).state = w.state from rfl, hways]
        rfl

/-- **What a transition of the current state leads to.** -/
theorem take_yields (hw : w.Matched net) {t : Transition}
    (hcall : t.isRule = true → (net.state w.state).transitions = [t]) :
    (take setup net (net.state w.state) w t).Yields p (Taken setup net w t p) := by
  cases t with
  | epsilon target => exact .pure (.hop rfl hw rfl rfl)
  | rule target rule follow level => exact enter_yields hw (hcall rfl)
  | predicate target rule pred contextual =>
    refine .get_bind (.set_bind ?_)
    split
    · exact .pure (.hop rfl hw rfl rfl)
    · exact .throw (.guarded nofun)
  | precedence target level =>
    simp only [take]
    split
    · exact .pure (.hop rfl hw rfl rfl)
    · exact .get_bind (.throw (.guarded nofun))
  | action target rule action contextual =>
    exact .modify_bind (.pure (.hop rfl hw rfl rfl))
  | _ => exact consume_yields rfl

/-! ## Whole steps -/

theorem predict_from? (d : Nat) : (predict setup w d).from? p =
    ((Session.predict setup.settings (setup.host.atLevel w.precedence) setup.fuel p.stream d
      w.callers.reverse).from? p.session).map fun (r, s) =>
        (r.mapError .prediction, { p with session := settle s }) := by
  change Option.bind _ _ = _
  cases (Session.predict setup.settings (setup.host.atLevel w.precedence) setup.fuel p.stream d
    w.callers.reverse).from? p.session <;> rfl

/-- Choosing an alternative neither moves the parse nor consumes a token. -/
theorem choose_alike {state : State} {r : Except ParseError (Walk × Nat)}
    (h : (choose setup state w).from? p = some (r, p')) :
    p'.stream = p.stream ∧ ∀ w₁ alt, r = .ok (w₁, alt) → w.Alike w₁ := by
  have hpure : ∀ {r : Except ParseError (Walk × Nat)} {p' : Parser},
      (pure (w, 1) : Parsing (Walk × Nat)).from? p = some (r, p') →
        p'.stream = p.stream ∧ ∀ w₁ alt, r = .ok (w₁, alt) → w.Alike w₁ := by
    intro r p' h
    obtain ⟨rfl, rfl⟩ := Prod.mk.inj (Option.some.inj h)
    refine ⟨rfl, fun w₁ alt heq => ?_⟩
    obtain ⟨rfl, -⟩ := Prod.mk.inj (Except.ok.inj heq)
    exact ⟨rfl, rfl, rfl⟩
  unfold choose at h
  split at h
  · split at h
    · rw [Run.from?_bind, predict_from?] at h
      obtain ⟨⟨r₁, p₁⟩, hp₁, hrest⟩ := Option.bind_eq_some_iff.mp h
      obtain ⟨⟨r₂, s⟩, -, heq⟩ := Option.map_eq_some_iff.mp hp₁
      obtain ⟨rfl, rfl⟩ := Prod.mk.inj heq
      cases r₂ with
      | error e =>
        obtain ⟨rfl, rfl⟩ := Prod.mk.inj (Option.some.inj hrest)
        exact ⟨rfl, fun _ _ heq => nomatch heq⟩
      | ok alt =>
        obtain ⟨rfl, rfl⟩ := Prod.mk.inj (Option.some.inj hrest)
        refine ⟨rfl, fun w₁ alt heq => ?_⟩
        obtain ⟨rfl, -⟩ := Prod.mk.inj (Except.ok.inj heq)
        exact ⟨rfl, rfl, rfl⟩
    · exact hpure h
  · exact hpure h

/-- A step at the end of a rule leaves the rule. -/
theorem step_leaves (hw : w.Matched net) (hstop : net.isStop w.state = true) :
    (step setup net w).Yields p fun r p' => p' = p ∧ Left net w r := by
  unfold step
  simp only [show (net.state w.state).isRuleStop = true from hstop, if_true]
  exact leave_yields hw hstop

/-- A step at a state that ends no rule: an alternative is chosen and its transition taken. -/
theorem step_yields (horderly : net.Orderly) (hw : w.Matched net)
    (hstop : net.isStop w.state = false)
    {R : Except ParseError (Walk ⊕ ParseTrace) → Parser → Prop}
    (h : (choose setup (net.state w.state) w).Yields p fun r p₁ =>
      match r with
      | .error e => R (.error e) p₁
      | .ok (w₁, alt) => w.Alike w₁ ∧
        match (net.state w.state).transitions[alt - 1]? with
        | none => ∀ e, R (.error e) p₁
        | some t => ∀ r' p', Taken setup net w₁ t p₁ r' p' →
          R (r'.map fun w => .inl { w with state := t.target }) p') :
    (step setup net w).Yields p R := by
  unfold step
  simp only [show (net.state w.state).isRuleStop = false from hstop, Bool.false_eq_true, if_false]
  refine .bind h ?_ fun e s he => he
  rintro ⟨w₁, alt⟩ p₁ ⟨hlike, hgo⟩
  dsimp only
  split
  · next hnone =>
    rw [hnone] at hgo
    exact .get_bind (.throw (hgo _))
  · next t ht =>
    rw [ht] at hgo
    refine .bind (Q := Taken setup net w₁ t p₁) ?_ (fun a s hs => .pure (hgo _ _ hs))
      fun e s hs => hgo _ _ hs
    have hcall := horderly.eq_singleton (List.mem_of_getElem? ht)
    rw [← hlike.1] at hcall ⊢
    exact take_yields (hlike.matched hw) hcall

/-- A plain step along the only way. -/
theorem step_epsilon (hstop : net.isStop w.state = false) {q : StateId}
    (hdecision : (net.state w.state).decision = none)
    (hways : (net.state w.state).transitions = [.epsilon q]) :
    (step setup net w).from? p = some (.ok (.inl { w with state := q }), p) := by
  unfold step choose
  simp only [show (net.state w.state).isRuleStop = false from hstop, Bool.false_eq_true, if_false,
    hdecision, hways]
  rfl

/-- A step at a decision: it goes where the prediction says. -/
theorem step_choice (hstop : net.isStop w.state = false) {d : Nat}
    (hdecision : (net.state w.state).decision = some d)
    (hseveral : 1 < (net.state w.state).transitions.length)
    {x : Except ParseError (Walk ⊕ ParseTrace) × Parser}
    (h : (step setup net w).from? p = some x) :
    ∃ r s, (Session.predict setup.settings (setup.host.atLevel w.precedence) setup.fuel p.stream d
      w.callers.reverse).from? p.session = some (r, s) ∧ ∀ alt q, r = .ok alt →
        (net.state w.state).transitions[alt - 1]? = some (.epsilon q) →
          ∃ w', x = (.ok (.inl w'), { p with session := settle s }) ∧ w'.state = q ∧
            w'.frames = w.frames ∧ w'.callers = w.callers := by
  unfold step choose at h
  simp only [show (net.state w.state).isRuleStop = false from hstop, Bool.false_eq_true, if_false,
    hdecision, hseveral, if_true, Run.from?_bind, predict_from?] at h
  cases hpredict : (Session.predict setup.settings (setup.host.atLevel w.precedence) setup.fuel
      p.stream d w.callers.reverse).from? p.session with
  | none =>
    rw [hpredict] at h
    cases h
  | some y =>
    refine ⟨y.1, y.2, rfl, fun alt q hr ht => ?_⟩
    rw [hpredict, show y = (.ok alt, y.2) from Prod.ext hr rfl] at h
    simp only [Option.map_some, Except.mapError, Option.bind_some, Run.from?_get, Run.from?_pure,
      ht, take] at h
    exact ⟨_, (Option.some.inj h).symm, rfl, rfl, rfl⟩

/-- A call, if it is not too deep. -/
theorem step_call (hstop : net.isStop w.state = false) {target follow : StateId} {rule : Nat}
    {level : Int} (hdecision : (net.state w.state).decision = none)
    (hways : (net.state w.state).transitions = [.rule target rule follow level])
    (hdepth : w.frames.length < setup.maxDepth) :
    ∃ w', (step setup net w).from? p = some (.ok (.inl w'), p) ∧ w'.state = target ∧
      w'.frames = ⟨rule, some follow, level⟩ :: w.frames ∧ w'.callers = w.state :: w.callers := by
  unfold step choose
  simp only [show (net.state w.state).isRuleStop = false from hstop, Bool.false_eq_true, if_false,
    hdecision, hways]
  simp only [take, enter, Run.from?_bind, Run.from?_pure, Option.bind_some,
    List.getElem?_cons_zero, Nat.not_le.mpr hdepth, if_false, Nat.sub_self, Run.from?_get]
  exact ⟨_, rfl, rfl, rfl, rfl⟩

/-- The move that taking a transition is. -/
theorem Taken.moves {t : Transition} {w₁ w₂ : Walk} (hw : w.Matched net) (hlike : w.Alike w₁)
    (hstop : net.isStop w.state = false) (ht : t ∈ (net.state w.state).transitions)
    (h : Taken setup net w₁ t p (.ok w₂) p') : ({ w₂ with state := t.target } : Walk).Matched net ∧
      Moves net w p.stream { w₂ with state := t.target } p'.stream := by
  have hfollows : w₁.follows = w.follows := congrArg Prod.snd hlike.stand_eq
  cases h with
  | hop hon hmatched hstream =>
    rw [hfollows] at hon
    exact ⟨hmatched, .hop (.along (fun hs => by simp [hstop] at hs) ht hon) hstream⟩
  | eat hacc hlike' hstream =>
    have hfollows' : w₂.follows = w₁.follows := congrArg Prod.snd hlike'.stand_eq
    refine ⟨hlike'.matched (hlike.matched hw), .eat hstop ht hacc ?_ hstream⟩
    exact Prod.ext rfl (hfollows'.trans hfollows)

/-- **A step that does not end a parse is a move.** -/
theorem step_moves (horderly : net.Orderly) (hw : w.Matched net)
    (h : (step setup net w).from? p = some (.ok (.inl w'), p')) :
    w'.Matched net ∧ Moves net w p.stream w' p'.stream := by
  cases hstop : net.isStop w.state with
  | true =>
    obtain ⟨rfl, hleft⟩ := (step_leaves hw hstop).apply h
    cases hleft with
    | back hhop hmatched => exact ⟨hmatched, .hop hhop rfl⟩
  | false =>
    -- The choice was made, since the step came to an end.
    obtain ⟨⟨rc, p₁⟩, hc⟩ : ∃ x, (choose setup (net.state w.state) w).from? p = some x := by
      unfold step at h
      simp only [show (net.state w.state).isRuleStop = false from hstop, Bool.false_eq_true,
        if_false] at h
      rw [Run.from?_bind] at h
      obtain ⟨x, hx, -⟩ := Option.bind_eq_some_iff.mp h
      exact ⟨x, hx⟩
    obtain ⟨hstream, hlike⟩ := choose_alike hc
    refine (step_yields (R := fun r p' => ∀ w', r = .ok (.inl w') →
      w'.Matched net ∧ Moves net w p.stream w' p'.stream) horderly hw hstop
        ⟨rc, p₁, hc, ?_⟩).apply h w' rfl
    cases rc with
    | error e => exact fun _ heq => nomatch heq
    | ok choice =>
      obtain ⟨w₁, alt⟩ := choice
      refine ⟨hlike w₁ alt rfl, ?_⟩
      split
      · exact fun _ _ heq => nomatch heq
      · next t ht =>
        intro r' p₂ htaken w₂ heq
        cases r' with
        | error e => cases heq
        | ok w₃ =>
          obtain rfl := Sum.inl.inj (Except.ok.inj heq)
          rw [← hstream]
          exact htaken.moves hw (hlike w₁ alt rfl) hstop (List.mem_of_getElem? ht)

end Parser

end AdaptiveLL
