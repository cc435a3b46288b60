import AdaptiveLL.Proofs.Ensures
import AdaptiveLL.Proofs.Parsing.Acceptance
import AdaptiveLL.Proofs.Parsing.Replay
import AdaptiveLL.Proofs.Token.Ahead

/-!
# What a parse has derived

The trace of a parse that succeeds is a derivation, whatever the predictions said and whatever the
host answered. Its events are a tree of rules. The tokens it matched are those the cursor has passed.
And the alternatives it chose lead a replay through the network from the start of the rule to an end,
matching just the symbols of the trace.

A parse keeps two stacks: one of activations, and one of the states that made the calls, which it
hands to its predictions. The calls of the replay show that these never drift apart.
-/

namespace AdaptiveLL

/-! ## Trees of events -/

namespace ParseEvent

/-- The decision an event records, with its alternative. -/
def decision? : ParseEvent → Option (Nat × Nat)
  | choose decision alt _ => some (decision, alt)
  | _ => none

/-- The symbol an event matched. -/
def symbol? : ParseEvent → Option Symbol
  | consume v _ => some v
  | _ => none

/-- The token an event matched, with its position. The end of the input is no token. -/
def token? : ParseEvent → Option (Symbol × Nat)
  | consume v i => if v = Symbol.eof then none else some (v, i)
  | _ => none

/-- **Events in which every rule that is entered is left again.** -/
inductive Balanced : List ParseEvent → Prop where
  | nil : Balanced []
  | choose {decision alt i : Nat} {es : List ParseEvent} :
      Balanced es → Balanced (.choose decision alt i :: es)
  | consume {v : Symbol} {i : Nat} {es : List ParseEvent} :
      Balanced es → Balanced (.consume v i :: es)
  | call {rule i j : Nat} {body es : List ParseEvent} :
      Balanced body → Balanced es →
      Balanced (.enter rule i :: (body ++ .exit rule j :: es))

/-- **One tree of events,** rooted at a rule. -/
def Tree (rule : Nat) (es : List ParseEvent) : Prop :=
  ∃ i j body, Balanced body ∧ es = .enter rule i :: (body ++ [.exit rule j])

/-- Events in which some rules, the innermost first, have not been left yet. -/
inductive Open : List Nat → List ParseEvent → Prop where
  | nil {es : List ParseEvent} : Balanced es → Open [] es
  | cons {rule i : Nat} {rules : List Nat} {es body : List ParseEvent} :
      Open rules es → Balanced body → Open (rule :: rules) (es ++ .enter rule i :: body)

variable {es body : List ParseEvent} {rules : List Nat}

theorem Balanced.append (h : Balanced es) (h' : Balanced body) : Balanced (es ++ body) := by
  induction h with
  | nil => exact h'
  | choose _ ih => exact .choose ih
  | consume _ ih => exact .consume ih
  | call hbody _ _ ih =>
    rw [List.cons_append, List.append_assoc]
    exact .call hbody ih

theorem Open.append (h : Open rules es) (h' : Balanced body) : Open rules (es ++ body) := by
  cases h with
  | nil hes => exact .nil (hes.append h')
  | cons hes hinner =>
    rw [List.append_assoc]
    exact .cons hes (hinner.append h')

theorem Open.enter (h : Open rules es) (rule i : Nat) :
    Open (rule :: rules) (es ++ [.enter rule i]) := .cons h .nil

/-- **Leaving the innermost rule** closes its tree. -/
theorem Open.exit {rule : Nat} (h : Open (rule :: rules) es) (j : Nat) :
    Open rules (es ++ [.exit rule j]) := by
  cases h with
  | cons hes hinner =>
    rw [List.append_assoc]
    exact hes.append (.call hinner .nil)

theorem Open.balanced (h : Open [] es) : Balanced es := by
  cases h with
  | nil hes => exact hes

end ParseEvent

/-! ## Traces -/

namespace ParseTrace

/-- The symbols matched, in order. -/
def symbols (t : ParseTrace) : List Symbol := t.events.toList.filterMap ParseEvent.symbol?

/-- The tokens matched, in order, each with its position. -/
def tokens (t : ParseTrace) : List (Symbol × Nat) := t.events.toList.filterMap ParseEvent.token?

/-- The trace with some more events. -/
def record (t : ParseTrace) (es : List ParseEvent) : ParseTrace := es.foldl push t

variable {t t' : ParseTrace} {es : List ParseEvent}

theorem decisions_eq (t : ParseTrace) :
    t.decisions = t.events.toList.filterMap ParseEvent.decision? := rfl

theorem record_append (t : ParseTrace) (es es' : List ParseEvent) :
    t.record (es ++ es') = (t.record es).record es' := List.foldl_append

/-- **Nothing was dropped** if nothing is missing afterwards, and then the events stand at the end. -/
theorem record_complete (h : (t.record es).dropped = 0) :
    t.dropped = 0 ∧ (t.record es).events.toList = t.events.toList ++ es := by
  induction es generalizing t with
  | nil => exact ⟨h, (List.append_nil _).symm⟩
  | cons e es ih =>
    obtain ⟨hpush, hevents⟩ := ih h
    unfold push at hpush
    split at hpush
    · next hsize =>
      have hpushed : t.push e = { t with events := t.events.push e } := if_pos hsize
      refine ⟨hpush, hevents.trans ?_⟩
      rw [hpushed, Array.toList_push, List.append_assoc]
      rfl
    · cases hpush

end ParseTrace

/-! ## Steps -/

namespace Walk

/-- The walk with some more events. -/
def record (w : Walk) (es : List ParseEvent) : Walk := { w with trace := w.trace.record es }

end Walk

namespace Parser

variable {net : Network} {setup : ParseSetup} {w w' : Walk} {p p' : Parser} {s s' : TokenStream}

/-- The alternative that is taken at a state, and what is recorded of that. -/
inductive Chose (state : State) (index : Nat) : Nat → List ParseEvent → Prop where
  | only : state.choice? = none → Chose state index 1 []
  | predicted {decision alt : Nat} : state.choice? = some decision →
      Chose state index alt [.choose decision alt index]

/-- What taking a transition does: the events it adds, and what becomes of the two stacks and of the
tokens. -/
inductive Took (net : Network) (w : Walk) (s : TokenStream) : Transition → List ParseEvent →
    List Activation → List StateId → TokenStream → Prop where
  | free {t : Transition} : t.isEpsilon = true → t.isRule = false →
      Took net w s t [] w.frames w.callers s
  | call {target follow : StateId} {rule : Nat} {level : Int} :
      Took net w s (.rule target rule follow level) [.enter rule s.index]
        (⟨rule, some follow, level⟩ :: w.frames) (w.state :: w.callers) s
  | eat {t : Transition} : t.isEpsilon = false →
      t.accepts (s.lookAhead 1) net.firstSymbol net.lastSymbol = true →
      Took net w s t [.consume (s.lookAhead 1) s.index] w.frames w.callers s.consume

/-- **What a step does** that does not end a parse. -/
inductive Advances (net : Network) (w : Walk) (s : TokenStream) : Walk → TokenStream → Prop where
  | back {f : Activation} {frames : List Activation} {follow : StateId} :
      net.isStop w.state = true → w.frames = f :: frames → f.follow = some follow →
      Advances net w s ⟨follow, frames, w.callers.tail, w.trace.record [.exit f.rule s.index]⟩ s
  | along {alt : Nat} {chosen es : List ParseEvent} {t : Transition} {frames : List Activation}
      {callers : List StateId} {s' : TokenStream} :
      net.isStop w.state = false → Chose (net.state w.state) s.index alt chosen →
      (net.state w.state).transitions[alt - 1]? = some t →
      Took net (w.record chosen) s t es frames callers s' →
      Advances net w s ⟨t.target, frames, callers, w.trace.record (chosen ++ es)⟩ s'

/-- What a step does that ends a parse: it leaves the only rule that is left. -/
inductive Finishes (net : Network) (w : Walk) (s : TokenStream) : ParseTrace → Prop where
  | nothing : w.frames = [] → Finishes net w s w.trace
  | leave {f : Activation} {frames : List Activation} : net.isStop w.state = true →
      w.frames = f :: frames → f.follow = none →
      Finishes net w s (w.trace.record [.exit f.rule s.index])

private theorem choose_chose {state : State} :
    (choose setup state w).Ensures p fun r p₁ => ∀ w₁ alt, r = .ok (w₁, alt) →
      p₁.stream = p.stream ∧ ∃ es, Chose state p.stream.index alt es ∧ w₁ = w.record es := by
  have honly : state.choice? = none → (pure (w, 1) : Parsing (Walk × Nat)).Ensures p fun r p₁ =>
      ∀ w₁ alt, r = .ok (w₁, alt) →
        p₁.stream = p.stream ∧ ∃ es, Chose state p.stream.index alt es ∧ w₁ = w.record es := by
    intro hnone
    refine .pure fun w₁ alt heq => ?_
    obtain ⟨rfl, rfl⟩ := Prod.mk.inj (Except.ok.inj heq)
    exact ⟨rfl, [], .only hnone, rfl⟩
  unfold choose
  split
  · next decision hdecision =>
    split
    · next hseveral =>
      have hchoice : state.choice? = some decision := (if_pos hseveral).trans hdecision
      refine .bind (Q := fun _ p₁ => p₁.stream = p.stream) ?_ (fun alt p₁ hstream => .get_bind ?_)
        fun _ _ _ => nofun
      · intro r p₁ hrun
        rw [predict_from?] at hrun
        obtain ⟨_, -, heq⟩ := Option.map_eq_some_iff.mp hrun
        rw [← (Prod.mk.inj heq).2]
      · refine .pure fun w₁ alt' heq => ?_
        obtain ⟨rfl, rfl⟩ := Prod.mk.inj (Except.ok.inj heq)
        rw [hstream]
        exact ⟨rfl, _, .predicted hchoice, rfl⟩
    · next halone => exact honly (if_neg halone)
  · next hnone => exact honly (by unfold State.choice?; rw [hnone, ite_self])

private theorem take_took (hparser : net.isLexer = false) {state : State} (t : Transition) :
    (take setup net state w t).Ensures p fun r p' => ∀ w', r = .ok w' →
      ∃ es frames callers, Took net w p.stream t es frames callers p'.stream ∧
        w' = ⟨w.state, frames, callers, w.trace.record es⟩ := by
  -- The statement gets a name: it is needed for every kind of transition.
  generalize hR : (fun (r : Except ParseError Walk) (p' : Parser) => ∀ w', r = .ok w' →
      ∃ es frames callers, Took net w p.stream t es frames callers p'.stream ∧
        w' = ⟨w.state, frames, callers, w.trace.record es⟩) = R
  have hfree : t.isEpsilon = true → t.isRule = false → ∀ {p' : Parser}, p'.stream = p.stream →
      (pure w : Parsing Walk).Ensures p' R := by
    intro heps hrule p' hstream
    refine .pure ?_
    rw [← hR]
    intro w' heq
    rw [← Except.ok.inj heq, hstream]
    exact ⟨[], _, _, .free heps hrule, rfl⟩
  have hfails : ∀ {e : ParseError} {p' : Parser}, (throw e : Parsing Walk).Ensures p' R :=
    .throw (hR ▸ nofun)
  have heat : t.isEpsilon = false → (consume net w t).Ensures p R := by
    intro heps
    refine .get_bind ?_
    dsimp only
    split
    · next hacc =>
      refine .set_bind (.pure ?_)
      rw [← hR]
      intro w' heq
      rw [← Except.ok.inj heq]
      exact ⟨[_], _, _, .eat heps (accepts_eq hparser t _ ▸ hacc), rfl⟩
    · exact hfails
  cases t with
  | epsilon => exact hfree rfl rfl rfl
  | rule target rule follow level =>
    simp only [take, enter]
    split
    · exact hfails
    · refine .get_bind (.pure ?_)
      rw [← hR]
      intro w' heq
      rw [← Except.ok.inj heq]
      exact ⟨[_], _, _, .call, rfl⟩
  | predicate =>
    refine .get_bind (.set_bind ?_)
    split
    · exact hfree rfl rfl rfl
    · exact hfails
  | precedence =>
    simp only [take]
    split
    · exact hfree rfl rfl rfl
    · exact .get_bind hfails
  | action => exact .modify_bind (hfree rfl rfl rfl)
  | _ => exact heat rfl

/-- **What a step does.** -/
theorem step_advances (hparser : net.isLexer = false) :
    (step setup net w).Ensures p fun r p' =>
      (∀ w', r = .ok (.inl w') → Advances net w p.stream w' p'.stream) ∧
        ∀ t, r = .ok (.inr t) → Finishes net w p.stream t ∧ p'.stream = p.stream := by
  unfold step
  dsimp only
  split
  · next hstop =>
    unfold leave
    split
    · next hframes =>
      refine .pure ⟨nofun, fun t heq => ?_⟩
      rw [← Sum.inr.inj (Except.ok.inj heq)]
      exact ⟨.nothing hframes, rfl⟩
    · next f frames hframes =>
      refine .get_bind ?_
      dsimp only
      split
      · next follow hfollow =>
        refine .pure ⟨fun w' heq => ?_, nofun⟩
        rw [← Sum.inl.inj (Except.ok.inj heq)]
        exact .back hstop hframes hfollow
      · next hfollow =>
        refine .pure ⟨nofun, fun t heq => ?_⟩
        rw [← Sum.inr.inj (Except.ok.inj heq)]
        exact ⟨.leave hstop hframes hfollow, rfl⟩
  · next hstop =>
    refine choose_chose.bind ?_ fun _ _ _ => ⟨nofun, nofun⟩
    rintro ⟨w₁, alt⟩ p₁ hchose
    obtain ⟨hstream, es, hes, rfl⟩ := hchose w₁ alt rfl
    dsimp only
    split
    · exact .get_bind (.throw ⟨nofun, nofun⟩)
    · next t ht =>
      refine (take_took hparser t).bind (fun w₂ p₂ htook => ?_) fun _ _ _ => ⟨nofun, nofun⟩
      obtain ⟨es', frames, callers, htook', rfl⟩ := htook w₂ rfl
      refine .pure ⟨fun w' heq => ?_, nofun⟩
      rw [← Sum.inl.inj (Except.ok.inj heq), ← hstream]
      change Advances net w p₁.stream ⟨t.target, frames, callers, (w.trace.record es).record es'⟩ _
      rw [← ParseTrace.record_append]
      exact .along (Bool.eq_false_of_not_eq_true hstop) (hstream ▸ hes) ht htook'

/-- Nothing was dropped before if nothing is missing afterwards. -/
theorem Advances.dropped_eq (h : Advances net w s w' s') (hkept : w'.trace.dropped = 0) :
    w.trace.dropped = 0 := by
  cases h with
  | back | along => exact (ParseTrace.record_complete hkept).1

end Parser

/-! ## What the trace tells -/

/-- The activation that a call has made. -/
def Call.activation (c : Call) : Activation := ⟨c.rule, some c.follow, c.level⟩

/-- **A walk whose trace tells where it stands.** The replay of the trace comes to the state of the
walk under some calls. The activations of the walk are those of the calls above that of the outermost
rule, its callers are the states that made the calls, and the rules of the calls are those which the
events have entered and not left. -/
structure Walk.Told (net : Network) (rule : Nat) (start : StateId) (index : Nat) (w : Walk)
    (calls : List Call) : Prop where
  path : Replay.Path net ⟨start, [], w.trace.decisions, w.trace.symbols⟩ ⟨w.state, calls, [], []⟩
  frames_eq : w.frames = calls.map Call.activation ++ [⟨rule, none, 0⟩]
  callers_eq : w.callers = calls.map Call.caller
  entered : ∃ es, w.trace.events.toList = .enter rule index :: es ∧
    ParseEvent.Open (calls.map Call.rule) es

/-- **What a trace derives** from the start of a rule, on the way from one cursor to another. -/
structure ParseTrace.Derives (net : Network) (rule : Nat) (start : StateId) (s s' : TokenStream)
    (t : ParseTrace) : Prop where
  /-- The events are one tree, rooted at the rule. -/
  tree : ParseEvent.Tree rule t.events.toList
  /-- The cursor has only moved on. -/
  reaches : s.Reaches s'
  /-- The tokens matched are those that the cursor has passed. -/
  tokens_eq : t.tokens = s.between s'
  /-- Replaying the alternatives leads to an end, under no calls, and uses up all that was matched. -/
  replay : ∃ stop, net.isStop stop = true ∧
    Replay.Path net ⟨start, [], t.decisions, t.symbols⟩ ⟨stop, [], [], []⟩ ∧
      net.Reads (start, []) t.symbols (stop, [])

namespace Walk.Told

variable {net : Network} {rule index : Nat} {start : StateId} {w w' : Walk} {calls calls' : List Call}
  {es : List ParseEvent}

/-- The replay goes on with what is recorded next. -/
private theorem path_record (h : w.Told net rule start index calls)
    (hkept : (w.trace.record es).dropped = 0) {q : StateId}
    (hstep : Replay.Steps net
      ⟨w.state, calls, es.filterMap ParseEvent.decision?, es.filterMap ParseEvent.symbol?⟩
      ⟨q, calls', [], []⟩) :
    Replay.Path net ⟨start, [], (w.trace.record es).decisions, (w.trace.record es).symbols⟩
      ⟨q, calls', [], []⟩ := by
  have hfar := h.path.extend (es.filterMap ParseEvent.decision?) (es.filterMap ParseEvent.symbol?)
  rw [ParseTrace.decisions_eq, ParseTrace.symbols, (ParseTrace.record_complete hkept).2,
    List.filterMap_append, List.filterMap_append]
  exact hfar.tail hstep

/-- What the events have entered, when more of them are recorded. -/
private theorem entered_record (h : w.Told net rule start index calls)
    (hkept : (w.trace.record es).dropped = 0) {rules : List Nat}
    (hopen : ∀ es', ParseEvent.Open (calls.map Call.rule) es' → ParseEvent.Open rules (es' ++ es)) :
    ∃ es', (w.trace.record es).events.toList = .enter rule index :: es' ∧
      ParseEvent.Open rules es' := by
  obtain ⟨es', hes, hentered⟩ := h.entered
  refine ⟨es' ++ es, ?_, hopen es' hentered⟩
  rw [(ParseTrace.record_complete hkept).2, hes, List.cons_append]

end Walk.Told

namespace Parser

variable {net : Network} {setup : ParseSetup} {w w' : Walk} {p p' : Parser} {s s' : TokenStream}
  {rule index : Nat} {start : StateId} {calls : List Call}

/-- What is recorded of a choice is all that a replay needs to choose. -/
private theorem Chose.chosen? {state : State} {alt : Nat} {es : List ParseEvent}
    (h : Chose state index alt es) :
    Replay.chosen? state (es.filterMap ParseEvent.decision?) = some (alt, []) ∧
      es.filterMap ParseEvent.symbol? = [] ∧ es.filterMap ParseEvent.token? = [] ∧
        ParseEvent.Balanced es := by
  unfold Replay.chosen?
  cases h with
  | only hchoice =>
    rw [hchoice]
    exact ⟨rfl, rfl, rfl, .nil⟩
  | predicted hchoice =>
    rw [hchoice]
    exact ⟨if_pos rfl, rfl, rfl, .choose .nil⟩

/-- **A step of a parse is a step of the replay.** -/
theorem Advances.told (h : Advances net w s w' s') (hkept : w'.trace.dropped = 0)
    (hw : w.Told net rule start index calls) : ∃ calls', w'.Told net rule start index calls' := by
  -- Going back undoes the innermost call, and a transition adds to the records.
  cases h with
  | @back f frames follow hstop hframes hfollow =>
    have heq := hframes.symm.trans hw.frames_eq
    cases calls with
    | nil =>
      rw [(List.cons.inj heq).1] at hfollow
      cases hfollow
    | cons c calls =>
      obtain ⟨rfl, hrest⟩ := List.cons.inj heq
      obtain rfl : c.follow = follow := Option.some.inj hfollow
      refine ⟨calls, ?_, hrest, ?_, ?_⟩
      · exact hw.path_record hkept (Replay.steps_iff.mpr (.inl ⟨hstop, c, calls, rfl, rfl⟩))
      · exact congrArg List.tail hw.callers_eq
      · exact hw.entered_record hkept fun es hes => hes.exit _
  | @along alt chosen es t frames callers s' hstop hchose ht htook =>
    obtain ⟨hchosen, hsymbols, -, hbalanced⟩ := hchose.chosen?
    -- The replay takes the alternative that was recorded last, and then the same transition.
    have hpath : ∀ {calls' : List Call}, es.filterMap ParseEvent.decision? = [] →
        Replay.along? net ⟨w.state, calls, [], es.filterMap ParseEvent.symbol?⟩ t =
          some ⟨t.target, calls', [], []⟩ →
        Replay.Path net ⟨start, [], (w.trace.record (chosen ++ es)).decisions,
          (w.trace.record (chosen ++ es)).symbols⟩ ⟨t.target, calls', [], []⟩ := by
      intro calls' hnone halong
      refine hw.path_record hkept (Replay.steps_iff.mpr (.inr ⟨hstop, alt, [], t, ?_, ht, ?_⟩))
      · rw [List.filterMap_append, hnone, List.append_nil]
        exact hchosen
      · have hsame : (chosen ++ es).filterMap ParseEvent.symbol? =
            es.filterMap ParseEvent.symbol? := by
          rw [List.filterMap_append, hsymbols, List.nil_append]
        rw [← hsame] at halong
        exact halong
    cases htook with
    | free heps hrule =>
      refine ⟨calls, hpath rfl ?_, hw.frames_eq, hw.callers_eq, ?_⟩
      · cases t with
        | rule => cases hrule
        | epsilon | predicate | precedence | action => rfl
        | _ => cases heps
      · refine hw.entered_record hkept fun _ hes => ?_
        rw [List.append_nil]
        exact hes.append hbalanced
    | call =>
      refine ⟨⟨w.state, _, _, _⟩ :: calls, hpath rfl rfl, congrArg (List.cons _) hw.frames_eq,
        congrArg (List.cons _) hw.callers_eq, hw.entered_record hkept fun es' hes => ?_⟩
      rw [← List.append_assoc]
      exact (hes.append hbalanced).enter _ _
    | eat heps hacc =>
      refine ⟨calls, hpath rfl ?_, hw.frames_eq, hw.callers_eq,
        hw.entered_record hkept fun es' hes => hes.append (hbalanced.append (.consume .nil))⟩
      have hconsume : Replay.consume? net ⟨w.state, calls, [], [s.lookAhead 1]⟩ t =
          some ⟨t.target, calls, [], []⟩ := Replay.consume?_eq_some.mpr ⟨_, _, rfl, hacc, rfl⟩
      cases t with
      | epsilon | rule | predicate | precedence | action => cases heps
      | _ => exact hconsume

/-- **The tokens matched are those the cursor has passed.** -/
theorem Advances.tokens (h : Advances net w s w' s') (hkept : w'.trace.dropped = 0)
    {s₀ : TokenStream} (hreach : s₀.Reaches s) (hrest : s.AtRest)
    (htokens : w.trace.tokens = s₀.between s) :
    s₀.Reaches s' ∧ s'.AtRest ∧ w'.trace.tokens = s₀.between s' := by
  have hrecord : ∀ {es : List ParseEvent}, (w.trace.record es).dropped = 0 →
      (w.trace.record es).tokens = s₀.between s ++ es.filterMap ParseEvent.token? := by
    intro es hkept
    rw [ParseTrace.tokens, (ParseTrace.record_complete hkept).2, List.filterMap_append, ← htokens]
    rfl
  cases h with
  | back => exact ⟨hreach, hrest, (hrecord hkept).trans (List.append_nil _)⟩
  | along _ hchose _ htook =>
    have hnone := hchose.chosen?.2.2.1
    refine (?_ : _ ∧ _ ∧ _)
    rw [hrecord hkept, List.filterMap_append, hnone, List.nil_append]
    cases htook with
    | free | call => exact ⟨hreach, hrest, List.append_nil _⟩
    | eat =>
      obtain ⟨hreach', hbetween⟩ := hreach.consume hrest
      refine ⟨hreach', hrest.consume, ?_⟩
      rw [hbetween, List.filterMap_cons]
      unfold ParseEvent.token?
      split <;> simp_all

/-! ## Whole parses -/

/-- A walk and its tokens, of which the trace tells everything. -/
private structure Recorded (net : Network) (rule : Nat) (start : StateId) (s₀ : TokenStream)
    (w : Walk) (s : TokenStream) : Prop where
  told : ∃ calls, w.Told net rule start s₀.index calls
  reaches : s₀.Reaches s
  atRest : s.AtRest
  tokens_eq : w.trace.tokens = s₀.between s

private theorem begin_recorded (hstart : net.ruleStarts[rule]? = some start) (hrest : s.AtRest)
    (hkept : (begin setup net rule s.index).trace.dropped = 0) :
    Recorded net rule start s (begin setup net rule s.index) s := by
  let empty : ParseTrace := { maxEvents := setup.maxEvents }
  have hdropped : (empty.record [.enter rule s.index]).dropped = 0 := hkept
  have hevents : (begin setup net rule s.index).trace.events.toList = [.enter rule s.index] :=
    (ParseTrace.record_complete hdropped).2
  have hstate : (begin setup net rule s.index).state = start := by
    change net.ruleStarts[rule]?.getD 0 = start
    rw [hstart]
    rfl
  refine ⟨⟨[], ?_, rfl, rfl, [], hevents, .nil .nil⟩, .refl s, hrest, ?_⟩
  · rw [ParseTrace.decisions_eq, ParseTrace.symbols, hevents, hstate]
    exact .refl
  · rw [ParseTrace.tokens, hevents, TokenStream.between_self]
    rfl

/-- **Every round keeps the record.** -/
private theorem rounds_recorded (hparser : net.isLexer = false)
    (hstart : net.ruleStarts[rule]? = some start) (hrest : p.stream.AtRest) {x : Walk × Parser}
    (h : Relation.ReflTransGen (Run.Rounds (step setup net))
      (begin setup net rule p.stream.index, p) x) (hkept : x.1.trace.dropped = 0) :
    Recorded net rule start p.stream x.1 x.2.stream := by
  induction h with
  | refl => exact begin_recorded hstart hrest hkept
  | tail _ hround ih =>
    -- Nothing is missing at the end, so nothing was missing in any round before.
    have hadvance := (step_advances hparser _ _ hround).1 _ rfl
    obtain ⟨⟨calls, htold⟩, hreach, hrest, htokens⟩ := ih (hadvance.dropped_eq hkept)
    obtain ⟨hreach', hrest', htokens'⟩ := hadvance.tokens hkept hreach hrest htokens
    exact ⟨hadvance.told hkept htold, hreach', hrest', htokens'⟩

/-- **The end of a parse:** all rules have been left. -/
private theorem Finishes.derives {s₀ : TokenStream} {t : ParseTrace} (h : Finishes net w s t)
    (hkept : t.dropped = 0) (hw : Recorded net rule start s₀ w s) :
    t.Derives net rule start s₀ s := by
  obtain ⟨⟨calls, htold⟩, hreach, -, htokens⟩ := hw
  have hframes := htold.frames_eq
  cases h with
  | nothing hnone =>
    rw [hnone] at hframes
    exact absurd hframes (by simp)
  | @leave f frames hstop hsome hfollow =>
    rw [hsome] at hframes
    cases calls with
    | cons c calls =>
      rw [(List.cons.inj hframes).1] at hfollow
      cases hfollow
    | nil =>
      obtain ⟨rfl, -⟩ := List.cons.inj hframes
      have hevents := (ParseTrace.record_complete hkept).2
      obtain ⟨es, hes, hopen⟩ := htold.entered
      have hpath := htold.path
      refine ⟨⟨_, _, es, hopen.balanced, by rw [hevents, hes]; rfl⟩, hreach, ?_, w.state, hstop, ?_⟩
      · rw [ParseTrace.tokens, hevents, List.filterMap_append, ← htokens]
        exact List.append_nil _
      · have hdecisions : (w.trace.record [.exit rule s.index]).decisions = w.trace.decisions := by
          rw [ParseTrace.decisions_eq, hevents, List.filterMap_append]
          exact List.append_nil _
        have hsymbols : (w.trace.record [.exit rule s.index]).symbols = w.trace.symbols := by
          rw [ParseTrace.symbols, hevents, List.filterMap_append]
          exact List.append_nil _
        rw [hdecisions, hsymbols]
        obtain ⟨u, hu, hreads⟩ := hpath.reads
        obtain rfl : w.trace.symbols = u := hu.trans (List.append_nil u)
        exact ⟨hpath, hreads⟩

private theorem rounds_dropped (hparser : net.isLexer = false) {x y : Walk × Parser}
    (h : Relation.ReflTransGen (Run.Rounds (step setup net)) x y) (hkept : y.1.trace.dropped = 0) :
    x.1.trace.dropped = 0 := by
  induction h using Relation.ReflTransGen.head_induction_on with
  | refl => exact hkept
  | head hround _ ih => exact ((step_advances hparser _ _ hround).1 _ rfl).dropped_eq ih

/-- The loop of a parse that succeeds. -/
private theorem parse_loop (hnet : p.session.cache.net = net) {name : String} {t : ParseTrace}
    (h : (parse setup name).from? p = some (.ok t, p')) :
    ∃ i q, net.ruleIndex? name = some i ∧ p'.stream = q.stream ∧
      (Run.loop (step setup net) setup.fuel (begin setup net i p.stream.index)).from? p =
        some (.ok t, q) := by
  have hensures : (parse setup name).Ensures p fun r p' => ∀ t, r = .ok t →
      ∃ i q, net.ruleIndex? name = some i ∧ p'.stream = q.stream ∧
        (Run.loop (step setup net) setup.fuel (begin setup net i p.stream.index)).from? p =
          some (.ok t, q) := by
    unfold parse
    refine .get_bind ?_
    dsimp only
    rw [hnet]
    split
    · exact .throw nofun
    · next i hi =>
      refine .bind (Q := fun r q => ∀ r', r = .ok r' →
        (Run.loop (step setup net) setup.fuel (begin setup net i p.stream.index)).from? p =
          some (r', q)) (.outcome fun r q hloop r' heq => ?_) (fun r q hloop => ?_) fun _ _ _ => nofun
      · rw [← Except.ok.inj heq]
        exact hloop
      · cases r with
        | error e => exact .modify_bind (.throw nofun)
        | ok t =>
          refine .modify_bind (.pure fun t' heq => ⟨i, q, hi, rfl, ?_⟩)
          rw [← Except.ok.inj heq]
          exact hloop _ rfl
  exact hensures _ _ h t rfl

end Parser

/-- **A parse that succeeds is a derivation,** in any network that passes the check, whatever its
cache predicts and whatever the host answers, as long as no event was dropped. And in every round
before the last one, the trace so far tells under which calls the parse stands: the callers, which it
hands to its predictions outermost first, are the states that made these calls. -/
theorem Parser.parse_derives {net : Network} (hcheck : net.check = .ok ())
    (hparser : net.kind = .parser) {setup : ParseSetup} {name : String} {p p' : Parser}
    (hnet : p.session.cache.net = net) (hrest : p.stream.AtRest) {t : ParseTrace}
    (h : (parse setup name).from? p = some (.ok t, p')) (hkept : t.dropped = 0) :
    ∃ rule start, net.ruleIndex? name = some rule ∧ net.ruleStarts[rule]? = some start ∧
      t.Derives net rule start p.stream p'.stream ∧
      ∀ x, Relation.ReflTransGen (Run.Rounds (step setup net))
          (begin setup net rule p.stream.index, p) x →
        ∃ calls, x.1.Told net rule start p.stream.index calls ∧
          x.1.callers.reverse = calls.reverse.map Call.caller := by
  have hlexer : net.isLexer = false := by rw [Network.isLexer, hparser]; rfl
  obtain ⟨rule, q, hrule, hstream, hloop⟩ := parse_loop hnet h
  obtain ⟨start, hstart⟩ : ∃ start, net.ruleStarts[rule]? = some start := by
    refine ⟨_, Array.getElem?_eq_getElem ?_⟩
    rw [(Network.consistent_of_check hcheck).starts_size]
    exact (List.idxOf?_eq_some_iff.mp hrule).1
  -- A loop that succeeds has a last round, and all rounds before it advance.
  obtain ⟨last, hlast, hstep⟩ := Run.exists_last_round hloop
  obtain ⟨hfinishes, hsame⟩ := (step_advances hlexer _ _ hstep).2 t rfl
  have hkept' : last.1.trace.dropped = 0 := by
    cases hfinishes with
    | nothing => exact hkept
    | leave => exact (ParseTrace.record_complete hkept).1
  refine ⟨rule, start, hrule, hstart, ?_, fun x hx => ?_⟩
  · rw [hstream, hsame]
    exact hfinishes.derives hkept (rounds_recorded hlexer hstart hrest hlast hkept')
  · have hkept := rounds_dropped hlexer (Run.rounds_to_last hx hlast hstep) hkept'
    obtain ⟨calls, htold⟩ := (rounds_recorded hlexer hstart hrest hx hkept).told
    exact ⟨calls, htold, by rw [htold.callers_eq, List.map_reverse]⟩

theorem Parser.nested_derives : ∃ t p', (parse (setup {} .permissive 60) "text").from?
      ⟨.new (.new Grammar.nestedNet), .ofTypes [1, 2]⟩ = some (.ok t, p') ∧
    ∃ rule start, Grammar.nestedNet.ruleIndex? "text" = some rule ∧
      Grammar.nestedNet.ruleStarts[rule]? = some start ∧
      t.Derives Grammar.nestedNet rule start (.ofTypes [1, 2]) p'.stream := by
  obtain ⟨t, p', hparse, hkept⟩ : ∃ t p', (parse (setup {} .permissive 60) "text").from?
      ⟨.new (.new Grammar.nestedNet), .ofTypes [1, 2]⟩ = some (.ok t, p') ∧ t.dropped = 0 := by
    have hsome : (((parse (setup {} .permissive 60) "text").from?
        ⟨.new (.new Grammar.nestedNet), .ofTypes [1, 2]⟩).any
          fun x => x.1.toOption.any (·.dropped == 0)) = true := by decide +kernel
    obtain ⟨⟨r, p'⟩, hparse, hr⟩ := (Option.any_eq_true ..).mp hsome
    cases r with
    | error => cases hr
    | ok t => exact ⟨t, p', hparse, beq_iff_eq.mp hr⟩
  have hcheck : Grammar.nestedNet.check = .ok () := by decide +kernel
  have hparser : Grammar.nestedNet.kind = .parser := by decide +kernel
  have hnet : ∀ net, (Session.new (.new net)).cache.net = net := fun _ => rfl
  have hrest : (TokenStream.ofTypes [1, 2]).AtRest := TokenStream.ofTokens_atRest _ _ _
  obtain ⟨rule, start, hrule, hstart, hderives, -⟩ :=
    parse_derives (p := ⟨.new (.new Grammar.nestedNet), .ofTypes [1, 2]⟩) hcheck hparser (hnet _)
      hrest hparse hkept
  exact ⟨t, p', hparse, rule, start, hrule, hstart, hderives⟩

end AdaptiveLL
