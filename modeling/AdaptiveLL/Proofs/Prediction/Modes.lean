import AdaptiveLL.Proofs.Grammar.Compiled
import AdaptiveLL.Proofs.Prediction.Bare
import AdaptiveLL.Proofs.Prediction.Verdict
import AdaptiveLL.Proofs.Prediction.Local
import AdaptiveLL.Proofs.Prediction.Transparency

/-!
# The exact mode gives no other answer

In the exact mode a prediction with the call stack reads on until an ambiguity is a true one. The
plain mode *anticipates* it: it does the same, step by step, until it has an answer of its own, and
the exact mode never comes to another one. For where the plain mode stops, its alternative dominates
all threads that are left.
-/

namespace AdaptiveLL

open StackGraph (Sound)

/-! ## Anticipation -/

/-- **The second run anticipates the first one:** it does the same, or it gives an answer that ends
it, from which the first one does not differ if it gives one at all. -/
def Run.Anticipates {ε σ α : Type} (m m' : Run ε σ α) (ends : α → Prop) (s : σ) : Prop :=
  ∀ x, m.from? s = some x →
    m'.from? s = some x ∨
      ∃ a s', ends a ∧ m'.from? s = some (.ok a, s') ∧ ∀ b, x.1 = .ok b → b = a

namespace Run.Anticipates

variable {ε σ α β : Type} {m m' : Run ε σ α} {f f' : α → Run ε σ β} {ends : α → Prop}
  {ends' : β → Prop} {s : σ}

theorem of_eq (h : m = m') : Anticipates m m' ends s := fun _ hx => .inl (h ▸ hx)

/-- Two runs that begin alike. -/
theorem bind (h : ∀ a t, m.from? s = some (.ok a, t) → Anticipates (f a) (f' a) ends' t) :
    Anticipates (m >>= f) (m >>= f') ends' s := by
  intro x hx
  rw [from?_bind] at hx
  obtain ⟨⟨r, t⟩, hm, hrest⟩ := Option.bind_eq_some_iff.mp hx
  simp only [from?_bind, hm, Option.bind_some]
  cases r with
  | error e => exact .inl hrest
  | ok a => exact h a t hm x hrest

theorem map {g : α → β} (hends : ∀ a, ends a → ends' (g a)) (h : Anticipates m m' ends s) :
    Anticipates (g <$> m) (g <$> m') ends' s := by
  intro x hx
  rw [from?_map] at hx
  obtain ⟨⟨r, t⟩, hm, rfl⟩ := Option.map_eq_some_iff.mp hx
  simp only [from?_map]
  rcases h _ hm with heq | ⟨a, s', ha, hrun, hsame⟩
  · rw [heq]
    exact .inl rfl
  · rw [hrun]
    refine .inr ⟨g a, s', hends a ha, rfl, fun b hb => ?_⟩
    cases r with
    | error e => cases hb
    | ok c =>
      rw [← Except.ok.inj hb]
      exact congrArg g (hsame c rfl)

/-- **The rule of the loop:** the second loop goes on with the first one, or ends before it. -/
theorem loop {step step' : α → Run ε σ (α ⊕ β)} (I : α → σ → Prop)
    (hstep : ∀ a s, I a s → Anticipates (step a) (step' a) (fun next => next.isRight = true) s ∧
      ∀ a' t, (step a).from? s = some (.ok (.inl a'), t) → I a' t)
    {fuel : Nat} {a : α} (hI : I a s) :
    Anticipates (Run.loop step fuel a) (Run.loop step' fuel a) (fun _ => True) s := by
  induction fuel generalizing a s with
  | zero =>
    intro x hx
    cases hx
  | succ fuel ih =>
    intro x hx
    obtain ⟨hanticipates, hkeeps⟩ := hstep a s hI
    rw [from?_loop_succ] at hx
    obtain ⟨⟨r, t⟩, hm, hrest⟩ := Option.bind_eq_some_iff.mp hx
    rw [from?_loop_succ]
    -- Both rounds end alike, or the second one is over while the first may go on.
    rcases hanticipates _ hm with heq | ⟨next, s', hnext, hrun, hsame⟩
    · rw [heq]
      match r with
      | .error e => exact .inl hrest
      | .ok (.inr b) => exact .inl hrest
      | .ok (.inl a') => exact ih (hkeeps a' t hm) x hrest
    · rw [hrun]
      obtain ⟨b, rfl⟩ := Sum.isRight_iff.mp hnext
      refine .inr ⟨b, s', trivial, rfl, fun c hc => ?_⟩
      match r with
      | .error e =>
        obtain rfl := Option.some.inj hrest
        cases hc
      | .ok (.inr d) =>
        obtain rfl := Option.some.inj hrest
        obtain rfl := Except.ok.inj hc
        exact Sum.inr.inj (hsame _ rfl)
      | .ok (.inl a') => cases hsame _ rfl

end Run.Anticipates

namespace Request

open Run (Anticipates)

variable {r : Request} {R : Regime} {F : Set Thread} {asked₀ : List Callback} {words : Nat}
  {c : Cache} {T : Set Thread} {a : Nat}

/-! ## Behind a settled conflict -/

/-- The guards of bare configurations all hold. -/
private theorem partition_bare (r : Request) {cs : List Config} (hcs : ∀ c ∈ cs, c.Bare) :
    r.partition cs = pure (cs, []) := by
  induction cs with
  | nil => rfl
  | cons c cs ih =>
    unfold partition
    rw [ih fun d hd => hcs d (List.mem_cons_of_mem _ hd)]
    simp [(hcs c List.mem_cons_self).guard_eq, Guard.isAlways]

/-- **At a dead end no alternative is preferred to the one that dominates.** -/
private theorem finishedAlt_eq {s : ConfigSet} {g : StackGraph} (hg : g.Sound)
    (hs : Question.Stage true T s g) (hbare : s.Bare) (hdom : Dominates T a) {b : Nat}
    (h : r.finishedAlt? g s.toList = some b) : b = a := by
  have hfinished : ∀ c ∈ s.toList, r.finishedRule g c = true ↔
      r.net.isStop c.state = true ∧ (c.tag, c.state, []) ∈ T := by
    intro c hc
    have hthread : (c.tag, c.state, []) ∈ T ↔ g.HasStack c.stack [] := by
      rw [← hs.threads_eq]
      exact Set.ext_iff.mp (hs.tidy.stacksAt_eq hc) []
    rw [hthread, ← StackGraph.hasEmptyStack_iff hg, finishedRule, (hbare c hc).outer_eq]
    simp [Question.atRuleStop, Network.isStop]
  obtain ⟨hmem, hleast⟩ := List.min?_eq_some_iff.mp h
  obtain ⟨c, hc, rfl⟩ := List.mem_map.mp hmem
  obtain ⟨hc, hrule⟩ := List.mem_filter.mp hc
  obtain ⟨hstop, hthread⟩ := (hfinished c hc).mp hrule
  refine Nat.le_antisymm ?_ (hdom.least _ hthread)
  obtain ⟨tag, rfl, hown⟩ := hdom.stands _ hthread
  have hown' := hown
  rw [← hs.threads_eq] at hown'
  obtain ⟨d, hd, htag, hstate, -⟩ := hown'
  obtain rfl : tag = d.tag := htag
  have hstate : c.state = d.state := hstate
  refine hleast d.alt (List.mem_map.mpr ⟨d, List.mem_filter.mpr ⟨hd, ?_⟩, rfl⟩)
  rw [hfinished d hd, ← hstate]
  exact ⟨hstop, hown⟩

private theorem deadEnd_bare (hc : c.Faithful R) {s : ConfigSet}
    (hs : Question.Stage true T s c.graph) (hbare : s.Bare) (hdom : Dominates T a)
    (stream : TokenStream) :
    Acts R (r.deadEnd s stream) c fun res _ _ _ => ∀ b, res = .ok b → b = a := by
  unfold deadEnd
  by_cases hrecover : r.settings.recoverAtRuleEnd = true
  · rw [hrecover, partition_bare r hbare]
    simp only [Bool.not_true, Bool.false_eq_true, if_false, pure_bind]
    refine .get_bind fun s' hs' => ?_
    rw [hs']
    have hnone : r.finishedAlt? c.graph [] = none := rfl
    rw [hnone, Option.or_none]
    cases halt : r.finishedAlt? c.graph s.toList with
    | some alt =>
      exact .pure hc fun b hb => Except.ok.inj hb ▸ finishedAlt_eq hc.sound hs hbare hdom halt
    | none => exact .throw hc (.inr nofun)
  · rw [Bool.eq_false_of_not_eq_true hrecover]
    exact .throw hc (.inr nofun)

/-- What holds behind a conflict that was settled for an alternative. -/
private structure Settled (r : Request) (a : Nat) (p : FullPoint) (c : Cache) : Prop where
  point : ∃ T, Question.Stage true T p.configs c.graph ∧ Proper T ∧ Dominates T a
  bare : p.configs.Bare
  read_le : p.read ≤ r.settings.maxLookahead

/-- What is known of the end of a prediction behind a conflict that was settled. -/
private def SettledEnd (r : Request) (a : Nat) (c : Cache) : (ConfigSet × TokenStream) ⊕ FullEnd → Prop
  | .inl (s, _) => (∃ T, Question.Stage true T s c.graph ∧ Dominates T a) ∧ s.Bare
  | .inr e => e.prediction = a ∧ e.unique = (e.configs.commonAlt != noAlternative) ∧
      e.exact = (!e.unique && r.settings.mode == .exact)

private theorem fullStep_settled (hU : r.Under R F asked₀ words) (hc : c.Faithful R)
    {p : FullPoint} (hp : Settled r a p c) :
    Acts R (r.fullStep p) c fun res reports asked c' => reports = [] ∧ asked = [] ∧
      ∃ next, res = .ok next ∧
        match next with
        | .inl p' => Settled r a p' c' ∧ p'.read = p.read + 1
        | .inr e => SettledEnd r a c' e := by
  obtain ⟨⟨T, hs, hT, hdom⟩, hbare, -⟩ := hp
  unfold fullStep
  refine (checkLookahead_acts hc (p.read + 1)).bind ?_ fun e _ _ c' ⟨he, _⟩ => nomatch he
  rintro _ _ _ c₁ hc₁ _ ⟨_, rfl, rfl, rfl, hread⟩
  refine ((reach_acts hU hc₁ (v := p.stream.lookAhead 1) hs hT).anyhow.giving
    (Prediction.probe_gives (Question.reach_gives hbare _))).bind ?_
      fun e _ _ c' ⟨⟨_, he, _⟩, _⟩ => nomatch he
  rintro next _ _ c₂ hc₂ hfollows₂ ⟨⟨next', hnext, rfl, rfl, _, _, hreach⟩, hgives⟩
  obtain rfl := Except.ok.inj hnext
  cases next with
  | none =>
    refine .seq hc₂ .count (.pure hc₂ ⟨rfl, rfl, _, rfl, ⟨T, ?_, hdom⟩, hbare⟩)
    exact hs.grown hc₁.sound hfollows₂.grown
  | some s' =>
    obtain ⟨hne, hs'⟩ := hreach
    dsimp only
    cases hverdict : fullVerdict? r.settings.mode s' with
    | none =>
      exact .pure hc₂ ⟨rfl, rfl, _, rfl,
        ⟨⟨_, hs', hT.reachOf true _, hdom.reachOf _⟩, hgives _ rfl s' rfl, hread⟩, rfl⟩
    | some alt =>
      refine .pure hc₂ ⟨rfl, rfl, _, rfl, ?_, rfl, rfl⟩
      exact eq_of_dominates hc₂.sound hs' (hT.reachOf true _) hne (hdom.reachOf _) hverdict

/-- **Behind a conflict that was settled for an alternative** no other one is predicted. -/
private theorem settled_acts (hU : r.Under R F asked₀ words) (hc : c.Faithful R)
    {p : FullPoint} (hp : Settled r a p c) {fuel : Nat}
    (hfuel : r.settings.maxLookahead + 1 - p.read < fuel) :
    Acts R (Run.loop r.fullStep fuel p >>= r.finishFull) c
      fun res _ _ _ => ∀ b, res = .ok b → b = a := by
  refine Acts.bind (Q := fun res _ _ c' => ∃ e, res = .ok e ∧ SettledEnd r a c' e) ?_ ?_
    fun _ _ _ _ ⟨_, he, _⟩ => nomatch he
  · refine Acts.loop (Settled r a) (fun p => r.settings.maxLookahead + 1 - p.read) ?_ hc hp hfuel
    intro p c' hc' hp'
    refine (fullStep_settled hU hc' hp').mono ?_
    rintro _ _ _ c'' _ _ ⟨rfl, rfl, next, rfl, hnext⟩
    cases next with
    | inl p' =>
      have hread := hp'.read_le
      have hread' := hnext.2
      exact ⟨rfl, rfl, hnext.1, by omega⟩
    | inr e => exact ⟨e, rfl, hnext⟩
  · rintro e _ _ c₁ hc₁ _ ⟨_, he, hend⟩
    obtain rfl := Except.ok.inj he
    cases e with
    | inl dead =>
      obtain ⟨⟨T, hs, hdom⟩, hbare⟩ := hend
      exact deadEnd_bare hc₁ hs hbare hdom dead.2
    | inr e =>
      obtain ⟨rfl, hunique, hexact⟩ := hend
      refine (concludeFull_acts hc₁ hunique hexact).mono fun res _ _ c₂ _ _ hdeed b hb => ?_
      have hresult : res = .ok e.prediction := congrArg Deed.result hdeed
      exact Except.ok.inj (hb.symm.trans hresult)

/-! ## Two modes side by side -/

/-- The request in the plain mode. -/
def relaxed (r : Request) : Request := { r with settings := { r.settings with mode := .ll } }

/-- The end of a prediction with the call stack always succeeds. -/
private theorem exists_concludeFull (r : Request) (e : FullEnd) (s : Session) :
    ∃ s', (r.concludeFull e).from? s = some (.ok e.prediction, s') := by
  rw [concludeFull_eq]
  by_cases hunique : e.unique = true
  · by_cases hreport : r.settings.reportContextSensitivity = true
    · simp only [hunique, hreport, if_true]
      exact ⟨_, rfl⟩
    · simp only [hunique, hreport, if_true]
      exact ⟨_, rfl⟩
  · simp only [hunique]
    exact ⟨_, rfl⟩

private theorem partition_relaxed (r : Request) (cs : List Config) :
    r.relaxed.partition cs = r.partition cs := by
  induction cs with
  | nil => rfl
  | cons c cs ih =>
    unfold partition
    rw [ih]
    rfl

private theorem deadEnd_relaxed (r : Request) (s : ConfigSet) (stream : TokenStream) :
    r.relaxed.deadEnd s stream = r.deadEnd s stream := by
  unfold deadEnd
  rw [partition_relaxed]
  rfl

/-- The part of a symbol that follows the search for the next set. -/
private def afterReach (r : Request) (p : FullPoint) :
    Option ConfigSet → Prediction (FullPoint ⊕ ((ConfigSet × TokenStream) ⊕ FullEnd))
  | none =>
    Prediction.count r.toQuestion (·.recordLl (p.read + 1)) >>= fun _ =>
    pure (.inr (.inl (p.configs, p.stream)))
  | some configs =>
    match fullVerdict? r.settings.mode configs with
    | none => pure (.inl ⟨configs, p.stream.consume, p.read + 1⟩)
    | some prediction => pure (.inr (.inr
        { configs, stop := p.stream.index, read := p.read + 1, prediction
          unique := configs.commonAlt != noAlternative
          exact := !(configs.commonAlt != noAlternative) && r.settings.mode == .exact }))

private theorem fullStep_eq (r : Request) (p : FullPoint) :
    r.fullStep p = (r.checkLookahead (p.read + 1) >>= fun _ =>
      Prediction.probe r.toQuestion (r.reach (p.stream.lookAhead 1) true p.configs) >>=
        r.afterReach p) := by
  unfold fullStep
  refine bind_congr fun _ => bind_congr fun next => ?_
  cases next <;> rfl

variable {big : Nat}

/-- Less fuel is no way out: behind a conflict that was settled nothing else is predicted. -/
private theorem settled_give (hU : (r.fueled big).Under R F asked₀ words) (hbig : r.fuel ≤ big)
    {fuel : Nat} {p : FullPoint} {s s' : Session} {b : Nat} (hc : s.cache.Faithful R)
    (hp : Settled r a p s.cache)
    (hrun : (Run.loop r.fullStep fuel p >>= r.finishFull).from? s = some (.ok b, s')) : b = a := by
  have hmore : Run.Within (Run.loop r.fullStep fuel p >>= r.finishFull)
      (Run.loop (r.fueled big).fullStep (max fuel (r.settings.maxLookahead + 2)) p >>=
        (r.fueled big).finishFull) := by
    refine .bind (.loop (fullStep_within hbig) (le_max_left _ _) p) fun last => .of_eq ?_
    cases last with
    | inl dead => exact (deadEnd_fueled r big dead.1 dead.2).symm
    | inr e => rfl
  have hfuel : (r.fueled big).settings.maxLookahead + 1 - p.read <
      max fuel (r.settings.maxLookahead + 2) :=
    lt_of_le_of_lt (Nat.sub_le _ _) (lt_of_lt_of_le (Nat.lt_succ_self _) (le_max_right _ _))
  obtain ⟨-, -, -, hsame⟩ := (settled_acts hU hc ⟨hp.point, hp.bare, hp.read_le⟩ hfuel).apply rfl
    (hmore s _ hrun)
  exact hsame b rfl

/-- **With the call stack the plain mode anticipates the exact one.** -/
private theorem full_anticipates (hU : (r.fueled big).Under R F asked₀ words)
    (hbig : r.fuel ≤ big) (hexact : r.settings.mode = .exact) {fuel : Nat} {p : FullPoint}
    {s : Session} (hc : s.cache.Faithful R) (hs : Question.Stage true T p.configs s.cache.graph)
    (hT : Proper T) (hbare : p.configs.Bare) :
    Anticipates (Run.loop r.fullStep fuel p >>= r.finishFull)
      (Run.loop r.relaxed.fullStep fuel p >>= r.relaxed.finishFull) (fun _ => True) s := by
  induction fuel generalizing p s T with
  | zero =>
    intro x hx
    cases hx
  | succ fuel ih =>
    simp only [Run.loop, fullStep_eq, bind_assoc]
    refine .bind fun _ s₁ hrun₁ => .bind fun next s₂ hrun₂ => ?_
    obtain ⟨hc₁, -, -, -, -, -, hsame₁, hread⟩ :=
      (checkLookahead_acts (r := r.fueled big) hc (p.read + 1)).apply rfl hrun₁
    rw [← hsame₁] at hs
    have hrun₂' := Prediction.probe_within big (Question.reach_within hbig _ _ _) s₁ _ hrun₂
    obtain ⟨hc₂, -, -, next', hnext, -, -, -, -, hreach⟩ :=
      (reach_acts hU hc₁ (v := p.stream.lookAhead 1) hs hT).apply rfl hrun₂'
    obtain rfl := Except.ok.inj hnext
    have hbare' := Prediction.probe_gives (Question.reach_gives hbare _) s₁ _ s₂ hrun₂
    cases next with
    | none =>
      refine .of_eq ?_
      simp only [afterReach, bind_assoc, pure_bind]
      exact bind_congr fun _ => (deadEnd_relaxed r p.configs p.stream).symm
    | some configs =>
      obtain ⟨hne, hs'⟩ := hreach
      have hT' : Proper (r.net.reachOf true (p.stream.lookAhead 1) T) := hT.reachOf true _
      have hbare' := hbare' configs rfl
      cases hplain : fullVerdict? .ll configs with
      | none =>
        have hnone := fullVerdict_exact_eq_none hc₂.sound hs' hT' hne hplain
        simp only [afterReach, relaxed, hexact, hplain, hnone, pure_bind]
        exact ih hc₂ hs' hT' hbare'
      | some alt =>
        -- The plain mode has its answer; the exact one may go on, but is settled.
        have hdom := dominates_of_fullVerdict hc₂.sound hs' hplain
        intro x hx
        refine .inr ?_
        obtain ⟨s', hrun'⟩ := exists_concludeFull r.relaxed
          { configs, stop := p.stream.index, read := p.read + 1, prediction := alt
            unique := configs.commonAlt != noAlternative
            exact := !(configs.commonAlt != noAlternative) && r.relaxed.settings.mode == .exact } s₂
        refine ⟨alt, s', trivial, ?_, fun b hb => ?_⟩
        · simpa only [afterReach, relaxed, hplain, pure_bind, finishFull] using hrun'
        · obtain ⟨res, t⟩ := x
          obtain rfl : res = .ok b := hb
          cases hverdict : fullVerdict? r.settings.mode configs with
          | some alt' =>
            obtain rfl := eq_of_dominates hc₂.sound hs' hT' hne hdom hverdict
            simp only [afterReach, hverdict, pure_bind, finishFull] at hx
            obtain ⟨_, hconclude⟩ := exists_concludeFull r _ s₂
            rw [hconclude] at hx
            exact (Except.ok.inj (Prod.mk.inj (Option.some.inj hx)).1).symm
          | none =>
            simp only [afterReach, hverdict, pure_bind] at hx
            exact settled_give hU hbig hc₂ ⟨⟨_, hs', hT', hdom⟩, hbare', hread⟩ hx

/-- Where guards do not settle a conflict, the plain mode anticipates the exact one. -/
private theorem turn_anticipates (hU : (r.fueled big).Under R F asked₀ words)
    (hbig : r.fuel ≤ big) (hexact : r.settings.mode = .exact) {s : Session}
    (hc : s.cache.Faithful R) (row : Row) (stream : TokenStream) (passing : AltSet) :
    Anticipates (r.turn row stream passing) (r.relaxed.turn row stream passing)
      (fun _ => True) s := by
  unfold turn
  split
  · exact .of_eq rfl
  · refine .bind fun _ s₁ hrun₁ => .bind fun _ s₂ hrun₂ => .bind fun stack s₃ hrun₃ =>
      .bind fun start s₄ hrun₄ => ?_
    obtain ⟨-, -, -, -, -, -, -, hsame₁⟩ := (Prediction.Does.count s rfl).apply hrun₁
    obtain ⟨-, -, -, -, -, -, -, hsame₂⟩ := (Prediction.Does.deliver s₁ rfl).apply hrun₂
    have hc₂ : s₂.cache.Faithful R := by rwa [hsame₂, hsame₁]
    obtain ⟨hc₃, -, -, stack', hstack, -, -, -, hlt, hset⟩ :=
      (callers_acts hU hc₂).apply rfl hrun₃
    obtain rfl := Except.ok.inj hstack
    have hrun₄' := Prediction.probe_within big (Question.startSet_within hbig _ _) s₃ _ hrun₄
    obtain ⟨hc₄, -, -, start', hstart, -, -, -, ⟨T', hproper, hs⟩, -⟩ :=
      (startSet_acts hc₃ hU.opensFull hlt hset).apply rfl hrun₄'
    obtain rfl := Except.ok.inj hstart
    have hbare := Prediction.probe_gives (Question.startSet_gives stack) s₃ _ s₄ hrun₄
    rw [predictFull_eq, predictFull_eq]
    exact full_anticipates hU hbig hexact hc₄ hs hproper hbare

private theorem escalate_anticipates (hU : (r.fueled big).Under R F asked₀ words)
    (hbig : r.fuel ≤ big) (hexact : r.settings.mode = .exact) {s : Session}
    (hc : s.cache.Faithful R) (row : Row) (stream : TokenStream) :
    Anticipates (r.escalate row stream) (r.relaxed.escalate row stream) (fun _ => True) s := by
  rw [escalate_eq, escalate_eq]
  refine .bind fun votes s₁ hrun₁ => turn_anticipates hU hbig hexact ?_ row stream votes
  cases hchoices : row.choices with
  | none =>
    rw [hchoices] at hrun₁
    obtain ⟨-, rfl⟩ : votes = .empty ∧ s = s₁ := by simpa [eq_comm] using hrun₁
    exact hc
  | some choices =>
    rw [hchoices] at hrun₁
    exact ((passing_acts (r := r) hc choices (E := fun _ => True)).apply rfl hrun₁).1

private theorem targetRow_relaxed (hexact : r.settings.mode = .exact) (s : ConfigSet)
    (v : Symbol) : r.relaxed.targetRow s v = r.targetRow s v := by
  have hends : ∀ next : ConfigSet,
      next.endsPrediction .ll r.net = next.endsPrediction r.settings.mode r.net := by
    intro next
    rw [hexact]
    rfl
  unfold targetRow
  refine bind_congr fun next => ?_
  cases next with
  | none => rfl
  | some next =>
    dsimp only
    rw [← hends next]
    rfl

private theorem target_relaxed (hexact : r.settings.mode = .exact) (p : Place) (v : Symbol) :
    r.relaxed.target p v = r.target p v := by
  unfold target
  exact bind_congr fun t => by rw [targetRow_relaxed hexact]; rfl

private theorem next_relaxed (hexact : r.settings.mode = .exact) (p : Place) (v : Symbol) :
    r.relaxed.next p v = r.next p v := by
  unfold next
  rw [target_relaxed hexact]
  rfl

/-- **Along the table the plain mode anticipates the exact one.** -/
private theorem step_anticipates (hU : (r.fueled big).Under R F asked₀ words)
    (hbig : r.fuel ≤ big) (hexact : r.settings.mode = .exact) {p : Point} {s : Session}
    (hc : s.cache.Faithful R) (hp : (r.fueled big).Stands R s.cache p.place T) :
    Anticipates (r.step p) (r.relaxed.step p) (fun next => next.isRight = true) s := by
  rw [step_eq, step_eq, next_relaxed hexact]
  refine .bind fun _ s₁ hrun₁ => .bind fun next s₂ hrun₂ => ?_
  obtain ⟨hc₁, -, -, -, -, -, hsame₁, -⟩ :=
    (checkLookahead_acts (r := r.fueled big) hc (p.read + 1)).apply rfl hrun₁
  have hc₂ : s₂.cache.Faithful R :=
    ((next_acts hU hc hp).apply hsame₁ (next_within hbig _ _ s₁ _ hrun₂)).1
  cases next with
  | none =>
    refine .of_eq (bind_congr fun _ => bind_congr fun t => ?_)
    rw [deadEnd_relaxed]
  | some place =>
    refine .bind fun t s₃ hrun₃ => ?_
    obtain ⟨-, -, -, -, -, -, -, hsame₃⟩ := (Prediction.Does.table s₂ rfl).apply hrun₃
    have hturns : ((t.row place).needsContext && r.relaxed.settings.mode != .sll) =
        ((t.row place).needsContext && r.settings.mode != .sll) := by
      rw [hexact]
      rfl
    rw [hturns]
    split
    · refine .bind fun _ s₄ hrun₄ => .map (fun _ (_ : True) => rfl) ?_
      obtain ⟨-, -, -, -, -, -, -, hsame₄⟩ := (Prediction.Does.count s₃ rfl).apply hrun₄
      refine escalate_anticipates hU hbig hexact ?_ _ _
      rwa [hsame₄, hsame₃]
    · exact .of_eq rfl

/-- **An attempt in the plain mode anticipates one in the exact mode.** -/
theorem attempt_anticipates (hU : (r.fueled big).Under R F asked₀ words) (hbig : r.fuel ≤ big)
    (hexact : r.settings.mode = .exact) {s : Session} (hc : s.cache.Faithful R) :
    Anticipates r.attempt r.relaxed.attempt (fun _ => True) s := by
  have hrest : Anticipates (r.startPlace >>= fun place => Run.loop r.step r.fuel ⟨place, r.stream, 0⟩)
      (r.startPlace >>= fun place => Run.loop r.relaxed.step r.fuel ⟨place, r.stream, 0⟩)
        (fun _ => True) s := by
    refine .bind fun place s₁ hrun₁ => ?_
    obtain ⟨hc₁, -, -, place', hplace, -, -, -, hstands⟩ :=
      (startPlace_acts hU hc).apply rfl (startPlace_within hbig s _ hrun₁)
    obtain rfl := Except.ok.inj hplace
    refine .loop (fun p s => s.cache.Faithful R ∧ ∃ T, (r.fueled big).Stands R s.cache p.place T) ?_
      ⟨hc₁, _, hstands⟩
    rintro p s₂ ⟨hc₂, T, hp⟩
    refine ⟨step_anticipates hU hbig hexact hc₂ hp, fun p' t hrun => ?_⟩
    obtain ⟨hc₃, -, -, hgoes⟩ := (step_goes hU hc₂ hp).apply rfl (step_within hbig p s₂ _ hrun)
    exact ⟨hc₃, _, (hgoes p' rfl).2.2.1⟩
  unfold attempt
  refine .bind fun s' s₁ hrun₁ => ?_
  obtain ⟨rfl, rfl⟩ : s = s' ∧ s = s₁ := by simpa using hrun₁
  by_cases hunknown : s.cache.tables.size ≤ r.decision
  · have hunknown' : s.cache.tables.size ≤ r.relaxed.decision := hunknown
    simp only [if_pos hunknown, if_pos hunknown']
    exact .bind fun _ _ hthrow => nomatch hthrow
  · have hunknown' : ¬s.cache.tables.size ≤ r.relaxed.decision := hunknown
    simp only [if_neg hunknown, if_neg hunknown']
    exact hrest

end Request

namespace Session

variable {net : Network} {settings : PredictionSettings} {host : Oracle} {fuel : Nat}
  {stream : TokenStream} {decision : Nat} {callers : List StateId}

/-- With a new cache the plain mode predicts what the exact one predicts. -/
private theorem predict_relaxed (hnet : net.Tame) (hhost : host.Steady) {s s' t : Session} {maxNodes maxDepth : Nat}
    (hs : s.cache = .new net maxNodes maxDepth) (ht : t.cache = .new net maxNodes maxDepth) {k : Nat}
    (h : (predict { settings with mode := .exact } host fuel stream decision callers).from? s =
      some (.ok k, s')) :
    ∃ t', (predict { settings with mode := .ll } host fuel stream decision callers).from? t =
      some (.ok k, t') := by
  have hc : s.cache.Faithful (net.guardedRegime .exact (max maxNodes 1)) :=
    hs ▸ Cache.new_faithful (R := net.guardedRegime .exact _) hnet.parser rfl
  cases hd : net.decisions[decision]? with
  | none =>
    have hunknown : s.cache.tables.size ≤ decision := by
      rw [hc.size_eq]
      exact Array.getElem?_eq_none_iff.mp hd
    obtain ⟨-, -, -, -, hresult, -⟩ := (predict_unknown hunknown s rfl).apply h
    cases hresult
  | some entry =>
    obtain ⟨F, asked, hunder⟩ :=
      hnet.exists_under hd { settings with mode := .exact } host stream callers
    -- The exact attempt may have had little fuel; the comparison is made with enough of it.
    have hU : ((requestOn s.cache { settings with mode := .exact } host fuel stream decision
        callers).fueled (max fuel (net.ample (max maxNodes 1) { settings with mode := .exact }
          entry))).Under (net.guardedRegime .exact (max maxNodes 1)) F asked emptyReturn :=
      hunder _ s.cache hc _ settings.useCache (le_max_right _ _)
    obtain ⟨s₁, hattempt⟩ := attempt_of_predict hhost hs h
    obtain ⟨s₂, hplain⟩ : ∃ s₂, (requestOn s.cache { settings with mode := .ll } host fuel stream
        decision callers).attempt.from? (s.called decision) = some (.ok k, s₂) := by
      rcases Request.attempt_anticipates (s := s.called decision) hU (le_max_left _ _) rfl hc _
        hattempt with hsame | ⟨a, s₂, -, hrun, hsame⟩
      · exact ⟨s₁, hsame⟩
      · obtain rfl := hsame k rfl
        exact ⟨s₂, hrun⟩
    -- The sessions differ in their recorders and callbacks only, which no attempt reads.
    have halike : (s.called decision).Alike host (t.called decision) :=
      ⟨congrArg Cache.tables (hs.trans ht.symm), congrArg Cache.graph (hs.trans ht.symm),
        hhost.agrees _ _⟩
    obtain ⟨-, t', hrun, -⟩ := Request.attempt_local _ _ _ halike _ _ hplain
    exact predict_of_attempt ((hs.trans ht.symm) ▸ hrun) nofun

end Session

/-- The network of a parser's grammar without re-entry is one in which predictions end. -/
theorem Grammar.Built.tame {g : Grammar} {net : Network} {modeStarts : List StateId} {d : Draft}
    (h : g.Built net modeStarts d) (hparser : g.kind = .parser) (hno : net.NoReentry)
    (hword : net.states.size ≤ emptyReturn) : net.Tame where
  consistent := h.consistent
  parser := by
    rw [h.network_eq, Network.isLexer]
    simp [Grammar.network, hparser]
  word := hword
  noReentry := hno

namespace Session

/-- **Exact ambiguity detection never changes the answer.** In the network of a parser's grammar
without re-entry, whatever its guards, and for any host, settings, tokens, decision and call stack:
if a prediction in the exact mode on a new cache answers with an alternative, the prediction in the
plain mode on a new cache answers with the same one. -/
theorem exact_never_differs {g : Grammar} {net : Network} (hcompile : g.compile = .ok net)
    (hparser : g.kind = .parser) (hno : net.NoReentry) (hword : net.states.size ≤ emptyReturn)
    (settings : PredictionSettings) (host : Host) (fuel : Nat) (stream : TokenStream)
    (decision : Nat) (callers : List StateId) {s t : Session} {maxNodes maxDepth : Nat}
    (hs : s.cache = .new net maxNodes maxDepth) (ht : t.cache = .new net maxNodes maxDepth) {k : Nat}
    (h : (predict { settings with mode := .exact } host fuel stream decision callers).Yields s
      fun result _ => result = .ok k) :
    (predict { settings with mode := .ll } host fuel stream decision callers).Yields t
      fun result _ => result = .ok k := by
  obtain ⟨modeStarts, d, hbuilt⟩ := Grammar.exists_built hcompile
  obtain ⟨_, s', hrun, rfl⟩ := h
  obtain ⟨t', hrun'⟩ := predict_relaxed (hbuilt.tame hparser hno hword) (Oracle.steady_coe host) hs ht hrun
  exact .of_eq hrun' rfl

end Session

/-! ## An ambiguity that is not a true one at first -/

namespace Grammar

/-- Three ways to begin a list of items. After two items the plain mode has its answer; the exact
one reads on, since the third way has ended and the others may not have. -/
def doubled : Grammar where
  kind := .parser
  name := "doubled"
  tokenNames := ["<INVALID>", "ITEM", "END"]
  rules :=
    [⟨"list", .seq [.alt [.seq [.token 1, .optional (.token 1) true],
      .seq [.token 1, .optional (.token 1) true], .seq [.token 1, .token 1]],
      .alt [.seq [.token 1, .token 2], .token 2], .token Symbol.eof], none, 0⟩]

/-- The network of doubled items. -/
def doubledNet : Network := doubled.compile.toOption.getD default

private theorem compile_doubled : doubled.compile = .ok doubledNet := by
  have hok : doubled.compile.isOk = true := by decide +kernel
  unfold doubledNet
  cases h : doubled.compile with
  | ok net => rfl
  | error e => rw [h] at hok; cases hok

private theorem doubledNet_noReentry : doubledNet.NoReentry :=
  Network.noReentry_of_no_calls (by decide +kernel)

end Grammar

namespace Session

/-- What a prediction at the third decision answers with before two items and an end, and where the
last symbol lies that its reports speak of. -/
private def doubledAnswer (mode : PredictionMode) : Option (Nat × Option Nat) :=
  match (predict { mode } .permissive 200 (.ofTypes [1, 1, 2]) 2 []).from?
    (.new (.new Grammar.doubledNet)) with
  | some (.ok alt, s) => some (alt, (s.recorder.toList.map (·.stop)).max?)
  | _ => none

/-- The exact mode looks at one more token and gives the same answer. -/
example : doubledAnswer .exact = some (1, some 2) ∧ doubledAnswer .ll = some (1, some 1) := by
  decide +kernel

theorem doubled_agrees :
    (predict { mode := .exact } .permissive 200 (.ofTypes [1, 1, 2]) 2 []).Yields
        (.new (.new Grammar.doubledNet)) (fun result _ => result = .ok 1) ∧
      (predict { mode := .ll } .permissive 200 (.ofTypes [1, 1, 2]) 2 []).Yields
        (.new (.new Grammar.doubledNet)) fun result _ => result = .ok 1 := by
  have hanswer : (doubledAnswer .exact).map Prod.fst = some 1 := by decide +kernel
  have hnew : (Session.new (.new Grammar.doubledNet)).cache = .new Grammar.doubledNet := rfl
  have hexact : (predict { mode := .exact } .permissive 200 (.ofTypes [1, 1, 2]) 2 []).Yields
      (.new (.new Grammar.doubledNet)) fun result _ => result = .ok 1 := by
    unfold doubledAnswer at hanswer
    split at hanswer
    · next alt s hrun =>
      obtain rfl : alt = 1 := Option.some.inj hanswer
      exact .of_eq hrun rfl
    · cases hanswer
  exact ⟨hexact, exact_never_differs Grammar.compile_doubled rfl Grammar.doubledNet_noReentry
    (by decide +kernel) {} .permissive 200 (.ofTypes [1, 1, 2]) 2 [] hnew hnew hexact⟩

end Session

end AdaptiveLL
