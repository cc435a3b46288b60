import AdaptiveLL.Proofs.Lookups.Lookahead
import AdaptiveLL.Proofs.Lookups.Predictions
import AdaptiveLL.Proofs.Parsing.Moves
import Mathlib.Data.Nat.PSub

/-!
# Lookups of parses

A parse looks up the start of its rule, every state it comes to, and the transition in front of the
alternative that was chosen; an error lists what was expected, for which the callers are looked up.
A walk *in range* stands at a state, was called from states and returns to states, and every step
keeps it so.
-/

namespace AdaptiveLL

/-- A strict part of a parse. -/
abbrev StrictParsing := Run (Stop ParseError) Parser

/-- **A walk in range:** it stands at a state, its callers are states, and so are the states at
which they go on. -/
structure Walk.InRange (net : Network) (w : Walk) : Prop where
  state_lt : w.state < net.states.size
  follow_lt : ∀ f ∈ w.frames, ∀ q, f.follow = some q → q < net.states.size
  caller_lt : ∀ q ∈ w.callers, q < net.states.size

theorem Walk.InRange.push {net : Network} {w : Walk} (h : w.InRange net) (e : ParseEvent) :
    (w.push e).InRange net :=
  ⟨h.state_lt, h.follow_lt, h.caller_lt⟩

theorem Walk.InRange.moveTo {net : Network} {w : Walk} (h : w.InRange net) {q : StateId}
    (hq : q < net.states.size) : ({ w with state := q } : Walk).InRange net :=
  ⟨hq, h.follow_lt, h.caller_lt⟩

namespace Parser

open Run (Untouched)

/-! ## Strict parses -/

def strictPredict (setup : ParseSetup) (w : Walk) (decision : Nat) : StrictParsing Nat := do
  let p ← get
  Run.strictWithin Parser.session (fun p s => { p with session := settle s }) .prediction
    (Session.strictPredict setup.settings (setup.host.atLevel w.precedence) setup.fuel p.stream
      decision w.callers.reverse)

/-- Fails because of a token that is none of the expected ones, for which the state and the callers
are looked up. -/
def strictMismatch {α : Type} (net : Network) (p : Parser) (w : Walk) : StrictParsing α := do
  let expected ← Run.lookup (net.strictExpectedTokens w.state w.callers.reverse)
  throw (.failed (.mismatched p.stream.index (net.symbolName (p.stream.lookAhead 1))
    (expected.render net.symbolName)))

def strictChoose (setup : ParseSetup) (state : State) (w : Walk) : StrictParsing (Walk × Nat) := do
  match state.decision with
  | some decision =>
    if 1 < state.transitions.length then
      let alt ← strictPredict setup w decision
      pure (w.push (.choose decision alt (← get).stream.index), alt)
    else pure (w, 1)
  | none => pure (w, 1)

def strictConsume (net : Network) (w : Walk) (t : Transition) : StrictParsing Walk := do
  let p ← get
  if t.accepts (p.stream.lookAhead 1) Symbol.firstToken net.maxTokenType then
    Run.strictly (set { p with stream := p.stream.consume })
    pure (w.push (.consume (p.stream.lookAhead 1) p.stream.index))
  else strictMismatch net p w

def strictTake (setup : ParseSetup) (net : Network) (state : State) (w : Walk) (t : Transition) :
    StrictParsing Walk :=
  match t with
  | .atom .. | .range .. | .set .. | .notSet .. | .wildcard _ => strictConsume net w t
  | t => (take setup net state w t).strictly

/-- One state of a parse. The state has to be there, and the alternative must not be zero. -/
def strictStep (setup : ParseSetup) (net : Network) (w : Walk) :
    StrictParsing (Walk ⊕ ParseTrace) := do
  let state ← Run.lookup net.states[w.state]?
  if state.isRuleStop then (leave w).strictly
  else
    let (w, alt) ← strictChoose setup state w
    let i ← Run.lookup alt.ppred
    match state.transitions[i]? with
    | none => strictMismatch net (← get) w
    | some t =>
      let w ← strictTake setup net state w t
      pure (.inl { w with state := t.target })

/-- What is done at the end of a parse. -/
def endParse (rule : String) (start : Nat) : Except ParseError ParseTrace → Parsing ParseTrace
  | .ok trace => do
    modify fun p => note (parsedEvent rule p.stream start trace) p
    pure trace
  | .error e => do
    modify fun p => note (failedEvent rule p.stream e) p
    throw e

/-- **A strict parse.** The rule, if it is known, has to have a start. -/
def strictParse (setup : ParseSetup) (rule : String) : StrictParsing ParseTrace := do
  let p ← get
  let net := p.session.cache.net
  match net.ruleIndex? rule with
  | none => throw (.failed (.unknownRule rule))
  | some i =>
    let _ ← Run.lookup net.ruleStarts[i]?
    let last ← (Run.loop (strictStep setup net) setup.fuel
      (begin setup net i p.stream.index)).strictOutcome
    (endParse rule p.stream.index last).strictly

/-! ## In range -/

/-- The cache of a parser. -/
abbrev cache (p : Parser) : Cache := p.session.cache

/-- What parses keep: a cache in range, which may begin again. -/
abbrev scope (net : Network) : Scope Parser := Cache.lasting net Parser.cache

variable {net : Network} {setup : ParseSetup} {p : Parser} {w : Walk}

theorem strictPredict_safe (hnet : net.Consistent) (hindexed : net.Indexed)
    (hp : p.cache.InRange net) (w : Walk) (decision : Nat) :
    (scope net).Safe (strictPredict setup w decision) (predict setup w decision) p fun a _ =>
      ∃ entry, net.entries[decision]? = some entry ∧ (net.extentAt entry).HasAlt a := by
  have hpredict := Session.strictPredict_safe hnet hindexed hp setup.settings
    (setup.host.atLevel w.precedence) setup.fuel p.stream decision w.callers.reverse
  refine .looks (.within (predict_from? decision) (Run.Agrees.mono hpredict ?_))
  rintro r s ⟨hs, -, ha⟩
  refine ⟨hs, le_rfl, fun a hr => ?_⟩
  cases r with
  | error e => cases hr
  | ok b => exact Except.ok.inj hr ▸ ha b rfl

/-- **What was expected is found.** -/
theorem strictMismatch_safe {α : Type} {P : α → Nat → Prop} (hnet : net.Consistent)
    (hindexed : net.Indexed) (hp : p.cache.InRange net) (hw : w.InRange net) :
    (scope net).Safe (strictMismatch net p w) (throw (mismatch net p w)) p P := by
  have hexpected := Network.strictExpectedTokens_eq hnet hindexed hw.state_lt
    fun c hc => hw.caller_lt c (List.mem_reverse.mp hc)
  exact .lookup_bind hexpected (.throw hp)

/-- Leaving a rule goes on at a state. -/
private theorem leave_untouched (hw : w.InRange net) :
    Untouched Parser.cache (leave w) fun next => next.elim (Walk.InRange net) fun _ => True := by
  intro p
  unfold leave
  cases hframes : w.frames with
  | nil => exact .pure ⟨rfl, fun _ h => Except.ok.inj h ▸ trivial⟩
  | cons f frames =>
    have hfollow := hw.follow_lt
    rw [hframes] at hfollow
    refine .get_bind ?_
    cases hf : f.follow with
    | none => exact .pure ⟨rfl, fun _ h => Except.ok.inj h ▸ trivial⟩
    | some q =>
      refine .pure ⟨rfl, fun _ h => Except.ok.inj h ▸ ?_⟩
      exact ⟨hfollow f List.mem_cons_self q hf,
        fun f' hf' => hfollow f' (List.mem_cons_of_mem _ hf'),
        fun c hc => hw.caller_lt c (List.mem_of_mem_tail hc)⟩

/-- The alternative that is chosen is at least one. -/
private theorem strictChoose_safe (hnet : net.Consistent) (hindexed : net.Indexed)
    (hp : p.cache.InRange net) (hw : w.InRange net) (state : State) :
    (scope net).Safe (strictChoose setup state w) (choose setup state w) p
      fun r _ => r.1.InRange net ∧ 1 ≤ r.2 := by
  unfold strictChoose choose
  cases state.decision with
  | none => exact .pure hp ⟨hw, le_rfl⟩
  | some d =>
    dsimp only
    split
    · refine (strictPredict_safe hnet hindexed hp w d).bind fun alt p₁ hp₁ _ halt => ?_
      obtain ⟨-, -, hpos, -⟩ := halt
      exact .get_bind (.pure hp₁ ⟨hw.push _, hpos⟩)
    · exact .pure hp ⟨hw, le_rfl⟩

private theorem strictConsume_safe (hnet : net.Consistent) (hindexed : net.Indexed)
    (hp : p.cache.InRange net) (hw : w.InRange net) (t : Transition) :
    (scope net).Safe (strictConsume net w t) (consume net w t) p fun w' _ => w'.InRange net := by
  unfold strictConsume consume
  refine .get_bind ?_
  dsimp only
  split
  · have hset : (scope net).Safe (ε := ParseError) (Run.strictly (set { p with
        stream := p.stream.consume })) (set { p with stream := p.stream.consume }) p
        fun _ _ => True := .strictly (.of_eq rfl ⟨hp, le_rfl, fun _ _ => trivial⟩)
    exact hset.bind fun _ p₁ hp₁ _ _ => .pure hp₁ (hw.push _)
  · exact strictMismatch_safe hnet hindexed hp hw

/-- What consumes no token looks nothing up, and a call goes on at a state. -/
private theorem take_untouched (hw : w.InRange net) {t : Transition} (ht : t.isEpsilon = true)
    (hfollow : ∀ q, t.follow? = some q → q < net.states.size) (state : State) :
    Untouched Parser.cache (take setup net state w t) (Walk.InRange net) := by
  intro p
  have hpure : ∀ p' : Parser, p'.cache = p.cache → (pure w : Parsing Walk).Ensures p'
      fun r p₁ => p₁.cache = p.cache ∧ ∀ w', r = .ok w' → w'.InRange net :=
    fun p' hp' => .pure ⟨hp', fun _ h => Except.ok.inj h ▸ hw⟩
  cases t with
  | epsilon => exact hpure p rfl
  | rule target rule follow level =>
    change (enter setup w rule follow level).Ensures p _
    unfold enter
    split
    · exact .throw ⟨rfl, nofun⟩
    refine .get_bind (.pure ⟨rfl, fun _ h => Except.ok.inj h ▸ ⟨hw.state_lt, ?_, ?_⟩⟩)
    · refine List.forall_mem_cons.mpr ⟨fun q hq => ?_, hw.follow_lt⟩
      cases hq
      exact hfollow _ rfl
    · exact List.forall_mem_cons.mpr ⟨hw.state_lt, hw.caller_lt⟩
  | predicate target rule pred contextual =>
    refine .get_bind (.set_bind ?_)
    split
    · exact hpure _ rfl
    · exact .throw ⟨rfl, nofun⟩
  | precedence target level =>
    change (if w.precedence ≤ level then pure w else get >>= fun p =>
      throw (failed net p state.rule (.precedence level)) : Parsing Walk).Ensures p _
    split
    · exact hpure p rfl
    · exact .get_bind (.throw ⟨rfl, nofun⟩)
  | action => exact .modify_bind (hpure _ rfl)
  | atom | range | set | notSet | wildcard => cases ht

private theorem strictTake_safe (hnet : net.Consistent) (hindexed : net.Indexed)
    (hp : p.cache.InRange net) (hw : w.InRange net) {q : StateId} {t : Transition}
    (ht : t ∈ (net.state q).transitions) (state : State) :
    (scope net).Safe (strictTake setup net state w t) (take setup net state w t) p
      fun w' _ => w'.InRange net := by
  have hplain (hepsilon : t.isEpsilon = true) :
      (scope net).Safe (take setup net state w t).strictly (take setup net state w t) p
        fun w' _ => w'.InRange net := by
    refine Cache.lasting_safe ((take_untouched hw hepsilon (fun f hf => ?_) state).safe hp)
    cases t with
    | rule target rule follow level =>
      cases hf
      exact hnet.follow_lt q target rule _ level ht
    | _ => cases hf
  cases t with
  | atom | range | set | notSet | wildcard => exact strictConsume_safe hnet hindexed hp hw _
  | epsilon | rule | predicate | precedence | action => exact hplain rfl

/-- **A step of a parse finds all that it looks up,** and goes on in range. -/
theorem strictStep_safe (hnet : net.Consistent) (hindexed : net.Indexed)
    (hp : p.cache.InRange net) (hw : w.InRange net) :
    (scope net).Safe (strictStep setup net w) (step setup net w) p fun next _ =>
      next.elim (Walk.InRange net) fun _ => True := by
  refine .lookup_bind (Network.getElem?_states hw.state_lt) ?_
  unfold step
  dsimp only
  split
  · exact Cache.lasting_safe ((leave_untouched hw).safe hp)
  refine (strictChoose_safe hnet hindexed hp hw _).bind
    fun chosen p₁ hp₁ _ ⟨hw₁, hchosen⟩ => ?_
  obtain ⟨w₁, alt⟩ := chosen
  -- The alternative is not zero, so there is a number before it.
  have hbefore : alt.ppred = some (alt - 1) :=
    Nat.ppred_eq_some.mpr (Nat.sub_add_cancel hchosen)
  refine .lookup_bind hbefore ?_
  dsimp only
  cases ht : (net.state w.state).transitions[alt - 1]? with
  | none => exact .get_bind (strictMismatch_safe hnet hindexed hp₁ hw₁)
  | some t =>
    have hmem := List.mem_of_getElem? ht
    exact (strictTake_safe hnet hindexed hp₁ hw₁ hmem _).bind fun w₂ p₂ hp₂ _ hw₂ =>
      .pure hp₂ (hw₂.moveTo (hnet.target_lt _ t hmem))

/-! ## Whole parses -/

private theorem parse_eq (setup : ParseSetup) (rule : String) :
    parse setup rule = (get >>= fun p =>
      match p.session.cache.net.ruleIndex? rule with
      | none => throw (.unknownRule rule)
      | some i => (Run.loop (step setup p.session.cache.net) setup.fuel
          (begin setup p.session.cache.net i p.stream.index)).outcome >>=
            endParse rule p.stream.index) := by
  unfold parse
  refine bind_congr fun p => ?_
  dsimp only
  cases p.session.cache.net.ruleIndex? rule with
  | none => rfl
  | some i =>
    refine bind_congr fun last => ?_
    cases last <;> rfl

/-- The walk at the beginning of a rule. -/
private theorem begin_inRange (hindexed : net.Indexed) {i : Nat} {q : StateId}
    (hstart : net.ruleStarts[i]? = some q) (index : Nat) :
    (begin setup net i index).InRange net := by
  have hstate : (begin setup net i index).state = q := by simp [begin, hstart]
  refine ⟨hstate ▸ hindexed.start_lt i q hstart, fun f hf r hr => ?_, nofun⟩
  obtain rfl : f = ⟨i, none, 0⟩ := List.mem_singleton.mp hf
  cases hr

/-- **On a cache in range a parse finds all that it looks up,** and keeps the cache in range. -/
theorem strictParse_safe (hnet : net.Consistent) (hindexed : net.Indexed)
    (hp : p.cache.InRange net) (setup : ParseSetup) (rule : String) :
    (scope net).Safe (strictParse setup rule) (parse setup rule) p fun _ _ => True := by
  have hend : ∀ start last, Untouched Parser.cache (endParse rule start last) fun _ => True := by
    intro start last p
    cases last with
    | ok trace => exact .of_eq rfl ⟨rfl, fun _ _ => trivial⟩
    | error e => exact .of_eq rfl ⟨rfl, nofun⟩
  rw [parse_eq]
  refine .get_bind ?_
  obtain rfl : p.session.cache.net = net := hp.net_eq
  dsimp only
  cases hrule : p.session.cache.net.ruleIndex? rule with
  | none => exact Scope.Safe.throw (S := scope p.session.cache.net) hp
  | some i =>
    have hi : i < p.session.cache.net.ruleNames.length := by
      obtain ⟨hlt, -⟩ := List.idxOf?_eq_some_iff.mp hrule
      exact hlt
    have hstart : ∃ q, p.session.cache.net.ruleStarts[i]? = some q :=
      ⟨_, Array.getElem?_eq_getElem (hnet.starts_size.symm ▸ hi)⟩
    obtain ⟨q, hq⟩ := hstart
    refine .lookup_bind hq (Scope.Safe.bind (P := fun _ _ => True) ?_ fun last t ht _ _ => ?_)
    · refine (Scope.Safe.outcome (P := fun _ _ => True) (.loop (fun w _ => Walk.InRange _ w)
        (fun w t ht hw => strictStep_safe hnet hindexed ht hw) hp
        (begin_inRange hindexed hq _))).mono fun _ _ _ _ => trivial
    · exact Cache.lasting_safe ((hend _ last).safe ht)

end Parser

end AdaptiveLL
