import AdaptiveLL.Proofs.Prediction.Attempts
import AdaptiveLL.Proofs.Prediction.Determined

/-!
# Two predictions abreast

The same prediction, made on two faithful caches, goes the same way on both, however much of it is
read from the tables of the one and computed on the other. They come apart where one of them meets
the ceiling of the nodes, since what stacks were made before is another matter on each cache, and
where a symbol is beyond the ceilings of stacks and of sets at once. Rows with the same
configurations are one row of a table, although their configurations may have come out of the rule
of the decision in one case and not in the other; the closure after them meets its configurations in
another order then, and it is the order that decides which of the two ceilings is met first.
-/

namespace AdaptiveLL

/-- The ceilings of stacks, of `depth` frames, and of sets, one beside the other. -/
inductive PredictionError.Kindred (depth : Nat) : PredictionError → PredictionError → Prop where
  | longBesideMany :
    Kindred depth (.exceeded (.tooLong depth)) (.exceeded (.tooMany Limits.configsPerSet))
  | manyBesideLong :
    Kindred depth (.exceeded (.tooMany Limits.configsPerSet)) (.exceeded (.tooLong depth))

/-- **A symbol beyond both ceilings:** on its way from the threads `T` along the input, as long as
several alternatives are left that are not in conflict, a prediction comes to a symbol past which
some stack has more than `depth` frames and some set is crowded. -/
inductive Network.Torn (net : Network) (mode : PredictionMode) (depth : Nat) :
    Set Thread → TokenStream → Prop where
  | here {T : Set Thread} {stream : TokenStream}
    (hlong : net.Outgrows false (stream.lookAhead 1) T depth)
    (hmany : net.Crowds false (stream.lookAhead 1) T) : Torn net mode depth T stream
  | later {T : Set Thread} {stream : TokenStream}
    (hopen : ¬∃ a, Speaks (net.reachOf false (stream.lookAhead 1) T) a)
    (hagree : ¬Closes net mode (net.reachOf false (stream.lookAhead 1) T))
    (htorn : Torn net mode depth (net.reachOf false (stream.lookAhead 1) T) stream.consume) :
    Torn net mode depth T stream

/-- Two faithful caches whose stacks may have `depth` frames. -/
structure Cache.Level (R : Regime) (depth : Nat) (c c' : Cache) : Prop where
  left : c.Faithful R
  right : c'.Faithful R
  depth_eq : c.graph.maxDepth = depth
  depth_eq' : c'.graph.maxDepth = depth

/-- Two parts of predictions leave level caches behind. -/
theorem Cache.Level.follows {R : Regime} {depth : Nat} {c c' d d' : Cache} (hl : c.Level R depth c')
    (hd : d.Faithful R) (hd' : d'.Faithful R) (h : c.Follows d) (h' : c'.Follows d') :
    d.Level R depth d' :=
  ⟨hd, hd', h.grown.maxDepth_eq.trans hl.depth_eq, h'.grown.maxDepth_eq.trans hl.depth_eq'⟩

/-- **Two parts of predictions abreast:** on faithful caches both succeed, or both fail with the same
error, unless one of them finds the graph full; or else `K` holds, and they fail at the ceilings of
stacks and of sets, one beside the other. -/
def Abreast {α β : Type} (R : Regime) (depth : Nat) (K : Prop) (m : Prediction α) (m' : Prediction β)
    (c c' : Cache) (Q : α → Cache → β → Cache → Prop) : Prop :=
  ∀ s s' : Session, s.cache = c → s'.cache = c' →
    Run.Beside m m' s s' (fun a t b t' => t.cache.Level R depth t'.cache ∧ Q a t.cache b t'.cache)
      (·.isFullGraph = true) fun e e' => e = e' ∨ K ∧ e.Kindred depth e'

namespace Abreast

variable {α β γ δ : Type} {R : Regime} {depth : Nat} {K : Prop} {m : Prediction α}
  {m' : Prediction β} {f : α → Prediction γ} {f' : β → Prediction δ} {c c' : Cache}
  {Q Q' : α → Cache → β → Cache → Prop} {P : γ → Cache → δ → Cache → Prop}

theorem mono (h : Abreast R depth K m m' c c' Q)
    (himp : ∀ a d b d', d.Level R depth d' → Q a d b d' → Q' a d b d') :
    Abreast R depth K m m' c c' Q' := by
  intro s s' hs hs'
  exact (h s s' hs hs').mono (fun a t b t' ⟨hl, hQ⟩ => ⟨hl, himp a _ b _ hl hQ⟩) (fun _ => id)
    fun _ _ => id

theorem pure {a : α} {b : β} (hl : c.Level R depth c') (h : Q a c b c') :
    Abreast R depth K (pure a) (pure b) c c' Q := by
  rintro s s' rfl rfl
  exact .pure ⟨hl, h⟩

/-- Both fail with one error. -/
theorem throw (e : PredictionError) :
    Abreast R depth K (throw e : Prediction α) (throw e : Prediction β) c c' Q := by
  intro s s' _ _ r t r' t' hrun hrun'
  obtain ⟨rfl, rfl⟩ : .error e = r ∧ s = t := by simpa using hrun
  obtain ⟨rfl, rfl⟩ : .error e = r' ∧ s' = t' := by simpa using hrun'
  exact .inr (.inr (.inl rfl))

theorem bind (h : Abreast R depth K m m' c c' Q)
    (hf : ∀ a d b d', d.Level R depth d' → Q a d b d' → Abreast R depth K (f a) (f' b) d d' P) :
    Abreast R depth K (m >>= f) (m' >>= f') c c' P := by
  intro s s' hs hs'
  exact (h s s' hs hs').bind fun a t b t' ⟨hl, hQ⟩ => hf a _ b _ hl hQ t t' rfl rfl

theorem map {g : α → γ} {g' : β → δ}
    (h : Abreast R depth K m m' c c' fun a d b d' => P (g a) d (g' b) d') :
    Abreast R depth K (g <$> m) (g' <$> m') c c' P := by
  rw [← bind_pure_comp, ← bind_pure_comp]
  exact h.bind fun a d b d' hl hP => .pure hl hP

/-- First parts that cannot fail and leave the caches as they are. -/
private theorem after {a : α} {b : β} (h : m.Does c fun r _ _ d => r = .ok a ∧ d = c)
    (h' : m'.Does c' fun r _ _ d => r = .ok b ∧ d = c')
    (hf : Abreast R depth K (f a) (f' b) c c' P) :
    Abreast R depth K (m >>= f) (m' >>= f') c c' P := by
  intro s s' hs hs' r t r' t' hrun hrun'
  obtain ⟨_, t₁, hm, _, _, _, _, rfl, ht₁⟩ := h s hs
  obtain ⟨_, t₂, hm', _, _, _, _, rfl, ht₂⟩ := h' s' hs'
  rw [Run.from?_bind, hm] at hrun
  rw [Run.from?_bind, hm'] at hrun'
  exact hf t₁ t₂ ht₁ ht₂ r t r' t' hrun hrun'

theorem seq {a : α} {b : β}
    (h : m.Does c fun r reports asked d => r = .ok a ∧ reports = [] ∧ asked = [] ∧ d = c)
    (h' : m'.Does c' fun r reports asked d => r = .ok b ∧ reports = [] ∧ asked = [] ∧ d = c')
    (hf : Abreast R depth K (f a) (f' b) c c' P) : Abreast R depth K (m >>= f) (m' >>= f') c c' P :=
  after (h.mono fun _ _ _ _ h => ⟨h.1, h.2.2.2⟩) (h'.mono fun _ _ _ _ h => ⟨h.1, h.2.2.2⟩) hf

theorem deliver {f : PUnit → Prediction γ} {f' : PUnit → Prediction δ} {report report' : Report}
    (hf : Abreast R depth K (f ⟨⟩) (f' ⟨⟩) c c' P) :
    Abreast R depth K ((modify (·.deliver report) : Prediction PUnit) >>= f)
      ((modify (·.deliver report') : Prediction PUnit) >>= f') c c' P :=
  after (Prediction.Does.deliver.mono fun _ _ _ _ h => ⟨h.1, h.2.2.2⟩)
    (Prediction.Does.deliver.mono fun _ _ _ _ h => ⟨h.1, h.2.2.2⟩) hf

/-- Parts that give one result, without meeting a ceiling. -/
theorem same {m m' : Prediction α} (result : Except PredictionError α) (hl : c.Level R depth c')
    (h : Acts R m c (fun res _ _ _ => res = result) fun _ => False)
    (h' : Acts R m' c' (fun res _ _ _ => res = result) fun _ => False) :
    Abreast R depth K m m' c c' fun a _ b _ => a = b := by
  intro s s' hs hs' r t r' t' hrun hrun'
  obtain ⟨_, _, -, -, ht, hfollows, hr⟩ := (h s hs).apply hrun
  obtain ⟨_, _, -, -, ht', hfollows', hr'⟩ := (h' s' hs').apply hrun'
  obtain rfl : r = result := hr.resolve_left fun ⟨_, _, hfalse⟩ => hfalse
  obtain rfl : r' = r := hr'.resolve_left fun ⟨_, _, hfalse⟩ => hfalse
  cases r' with
  | error e => exact .inr (.inr (.inl rfl))
  | ok a => exact ⟨hl.follows ht ht' hfollows hfollows', rfl⟩

private theorem full_of_nodes {e : Exceeded} (h : e.resource = .arenaNodes) :
    (PredictionError.exceeded e).isFullGraph = true := by
  simp [PredictionError.isFullGraph, h]

/-- **Parts that succeed only if `C` holds,** and otherwise fail in ways that fit together. -/
theorem of_acts {C : Prop} {G : α → Cache → Prop} {G' : β → Cache → Prop} {E : Exceeded → Prop}
    (hl : c.Level R depth c')
    (h : Acts R m c (fun res _ _ d => ∃ a, res = .ok a ∧ C ∧ G a d) E)
    (h' : Acts R m' c' (fun res _ _ d => ∃ b, res = .ok b ∧ C ∧ G' b d) E)
    (hone : C → ∀ e, E e → e.resource = .arenaNodes)
    (hboth : ∀ e e', E e → E e' → e.resource = .arenaNodes ∨ e'.resource = .arenaNodes ∨ e = e' ∨
      K ∧ (PredictionError.exceeded e).Kindred depth (.exceeded e')) :
    Abreast R depth K m m' c c' fun a d b d' => c.Follows d ∧ c'.Follows d' ∧ G a d ∧ G' b d' := by
  intro s s' hs hs' r t r' t' hrun hrun'
  obtain ⟨_, _, -, -, ht, hfollows, hr⟩ := (h s hs).apply hrun
  obtain ⟨_, _, -, -, ht', hfollows', hr'⟩ := (h' s' hs').apply hrun'
  rcases hr with ⟨e, rfl, he⟩ | ⟨a, rfl, hC, ha⟩
  · rcases hr' with ⟨e', rfl, he'⟩ | ⟨b, rfl, hC', hb⟩
    · exact (hboth e e' he he').imp full_of_nodes
        (Or.imp full_of_nodes (Or.imp_left (congrArg _)))
    · exact full_of_nodes (hone hC' e he)
  · rcases hr' with ⟨e', rfl, he'⟩ | ⟨b, rfl, hC', hb⟩
    · exact full_of_nodes (hone hC e' he')
    · exact ⟨hl.follows ht ht' hfollows hfollows', hfollows, hfollows', ha, hb⟩

/-- **Probes that go on side by side.** -/
theorem probe {q q' : Question} {quiet : Bool} {p : Probe α} {p' : Probe β}
    {G : α → Cache → Prop} {G' : β → Cache → Prop} {E E' : Exceeded → Prop}
    {S : α → StackGraph → β → StackGraph → Prop} (hl : c.Level R depth c')
    (h : Acts R (Prediction.probe q p) c (fun res _ _ d => ∃ a, res = .ok a ∧ G a d) E)
    (h' : Acts R (Prediction.probe q' p') c' (fun res _ _ d => ∃ b, res = .ok b ∧ G' b d) E')
    (hbeside : ∀ past past',
      Probe.Beside quiet p p' { graph := c.graph, past } { graph := c'.graph, past := past' } S) :
    Abreast R depth K (Prediction.probe q p) (Prediction.probe q' p') c c' fun a d b d' =>
      c.Follows d ∧ c'.Follows d' ∧ G a d ∧ G' b d' ∧ S a d.graph b d'.graph := by
  intro s s' hs hs' r t r' t' hrun hrun'
  obtain ⟨_, _, -, -, ht, hfollows, hr⟩ := (h s hs).apply hrun
  obtain ⟨_, _, -, -, ht', hfollows', hr'⟩ := (h' s' hs').apply hrun'
  subst hs hs'
  rw [Prediction.from?_probe] at hrun hrun'
  obtain ⟨⟨x, u⟩, hp, hx⟩ := Option.map_eq_some_iff.mp hrun
  obtain ⟨⟨x', u'⟩, hp', hx'⟩ := Option.map_eq_some_iff.mp hrun'
  obtain ⟨rfl, rfl⟩ := Prod.mk.inj hx
  obtain ⟨rfl, rfl⟩ := Prod.mk.inj hx'
  have hends := hbeside _ _ x u x' u' hp hp'
  have hdepths := hl.depth_eq.trans hl.depth_eq'.symm
  match x, x' with
  | .ok a, .ok b =>
    obtain ⟨_, ha, hG⟩ := hr.resolve_left nofun
    obtain ⟨_, hb, hG'⟩ := hr'.resolve_left nofun
    obtain rfl := Except.ok.inj ha
    obtain rfl := Except.ok.inj hb
    refine ⟨hl.follows ht ht' hfollows hfollows', hfollows, hfollows', hG, hG', ?_⟩
    rw [(s.absorb_eq q u).1, (s'.absorb_eq q' u').1]
    exact hends.2.2.2
  | .ok _, .error e => exact full_of_nodes (hends hdepths)
  | .error e, .ok _ => exact full_of_nodes (hends hdepths)
  | .error e, .error e' =>
    exact hends.imp (fun h => full_of_nodes (h hdepths)) (Or.imp
      (fun h => full_of_nodes (h hdepths)) fun h => .inl (congrArg _ (h hdepths)))

/-- Two rounds of loops that are in step: both loops go on, or both are over. -/
def InStep (I : α → Cache → β → Cache → Prop) (P : γ → Cache → δ → Cache → Prop) :
    α ⊕ γ → Cache → β ⊕ δ → Cache → Prop
  | .inl a, d, .inl b, d' => I a d b d'
  | .inr x, d, .inr y, d' => P x d y d'
  | _, _, _, _ => False

/-- **The rule of the loop.** -/
theorem loop {step : α → Prediction (α ⊕ γ)} {step' : β → Prediction (β ⊕ δ)}
    (I : α → Cache → β → Cache → Prop)
    (hstep : ∀ a d b d', d.Level R depth d' → I a d b d' →
      Abreast R depth K (step a) (step' b) d d' (InStep I P))
    {fuel fuel' : Nat} {a : α} {b : β} (hl : c.Level R depth c') (hI : I a c b c') :
    Abreast R depth K (Run.loop step fuel a) (Run.loop step' fuel' b) c c' P := by
  rintro s s' rfl rfl
  refine Run.Beside.loop (fun a t b t' => t.cache.Level R depth t'.cache ∧ I a t.cache b t'.cache)
    ?_ ⟨hl, hI⟩
  rintro a t b t' ⟨hl, hI⟩
  refine (hstep a _ b _ hl hI t t' rfl rfl).mono ?_ (fun _ => id) fun _ _ => id
  rintro (a' | x) u (b' | y) u' ⟨hl', hnext⟩
  · exact ⟨hl', hnext⟩
  · exact hnext.elim
  · exact hnext.elim
  · exact ⟨hl', hnext⟩

end Abreast

namespace Request

variable {r : Request} {R : Regime} {F : Set Thread} {asked₀ : List Callback} {words depth : Nat}
  {K : Prop} {c c' : Cache} {T : Set Thread}

private theorem checkLookahead_abreast (hl : c.Level R depth c') (n : Nat) :
    Abreast R depth K (r.checkLookahead n) (r.checkLookahead n) c c'
      fun _ d _ d' => d = c ∧ d' = c' := by
  unfold checkLookahead
  split
  · exact .throw _
  · exact .pure hl ⟨rfl, rfl⟩

/-- At a dead end both fail alike. -/
private theorem deadEnd_abreast (hrecover : r.settings.recoverAtRuleEnd = false)
    (hl : c.Level R depth c') {full : Bool} {s s' : ConfigSet}
    (hs : Question.Stage full T s c.graph) (hs' : Question.Stage full T s' c'.graph)
    (stream : TokenStream) :
    Abreast R depth K (r.deadEnd s stream) (r.deadEnd s' stream) c c' fun a _ b _ => a = b := by
  have hsame : ∀ {d : Deed}, r.Ended s' stream d → d.result = .error (r.noViable stream.index s) :=
    fun {d} hd => by
      have hd₀ : r.Ended s stream { result := .error (r.noViable stream.index s) } := fun _ => rfl
      rw [← Ended.unique hrecover hl.left.sound hl.right.sound hs hs' hd₀ hd]
  refine .same (.error (r.noViable stream.index s)) hl ?_ ?_
  · exact (deadEnd_acts hl.left s stream).mono fun _ _ _ _ _ _ h => congrArg Deed.result (h hrecover)
  · exact (deadEnd_acts hl.right s' stream).mono fun _ _ _ _ _ _ h => hsame h

/-! ## With the call stack -/

/-- Two predictions with the call stack that stand at the same threads, in the same order. -/
private structure FullPoint.Abreast (p : FullPoint) (c : Cache) (p' : FullPoint) (c' : Cache) :
    Prop where
  stream_eq : p.stream = p'.stream
  read_eq : p.read = p'.read
  twins : p.configs.Twin true c.graph c'.graph p'.configs
  threads : ∃ T, Question.Stage true T p.configs c.graph ∧
    Question.Stage true T p'.configs c'.graph ∧ Proper T

/-- Two predictions with the call stack that have come to the same end. -/
private def FullAbreast (r : Request) : (ConfigSet × TokenStream) ⊕ FullEnd → Cache →
    (ConfigSet × TokenStream) ⊕ FullEnd → Cache → Prop
  | .inl (s, stream), c, .inl (s', stream'), c' => stream = stream' ∧
      ∃ T, Question.Stage true T s c.graph ∧ Question.Stage true T s' c'.graph
  | .inr e, _, .inr e', _ => e.prediction = e'.prediction ∧
      (e.unique = (e.configs.commonAlt != noAlternative) ∧
        e.exact = (!e.unique && r.settings.mode == .exact)) ∧
      (e'.unique = (e'.configs.commonAlt != noAlternative) ∧
        e'.exact = (!e'.unique && r.settings.mode == .exact))
  | _, _, _, _ => False

/-- **One symbol with the call stack,** followed on twins. -/
private theorem reach_abreast (hU : r.Under R F asked₀ words) (hhost : r.host.Steady)
    (hl : c.Level R depth c') {s s' : ConfigSet} (hs : Question.Stage true T s c.graph)
    (hs' : Question.Stage true T s' c'.graph) (htwins : s.Twin true c.graph c'.graph s')
    (hT : Proper T) (v : Symbol) :
    Abreast R depth K (Prediction.probe r.toQuestion (r.reach v true s))
      (Prediction.probe r.toQuestion (r.reach v true s')) c c' fun next d next' d' =>
        c.Follows d ∧ c'.Follows d' ∧
        match next, next' with
        | none, none => True
        | some t, some t' => t.Twin true d.graph d'.graph t' ∧
          Question.Stage true (r.net.reachOf true v T) t d.graph ∧
          Question.Stage true (r.net.reachOf true v T) t' d'.graph
        | _, _ => False := by
  have hside : ∀ {c₁ : Cache} {s₁ : ConfigSet}, c₁.Faithful R → Question.Stage true T s₁ c₁.graph →
      Acts R (Prediction.probe r.toQuestion (r.reach v true s₁)) c₁ (fun res _ _ d =>
        ∃ next, res = .ok next ∧ next.elim (r.net.reachOf true v T = ∅) fun t =>
          (r.net.reachOf true v T).Nonempty ∧
            Question.Stage true (r.net.reachOf true v T) t d.graph)
        (r.net.ReachMeets true v T c₁.graph.maxDepth) := by
    intro c₁ s₁ hc₁ hs₁
    refine (reach_acts hU hc₁ hs₁ hT).mono ?_
    rintro _ _ _ d _ _ ⟨next, rfl, -, -, -, -, hnext⟩
    cases next <;> exact ⟨_, rfl, hnext⟩
  refine (Abreast.probe hl (hside hl.left hs) (hside hl.right hs') fun _ _ =>
    Question.reach_beside hU.consistent hU.word (.refl true r.toQuestion) (fun _ => .inl hhost)
      hl.left.sound hl.right.sound htwins).mono ?_
  rintro (_ | t) d (_ | t') d' - ⟨hfollows, hfollows', hnext, hnext', hbeside⟩
  · exact ⟨hfollows, hfollows', trivial⟩
  · exact absurd hnext hnext'.1.ne_empty
  · exact absurd hnext' hnext.1.ne_empty
  · exact ⟨hfollows, hfollows', hbeside t t' rfl rfl, hnext.2, hnext'.2⟩

private theorem fullStep_abreast (hU : r.Under R F asked₀ words) (hhost : r.host.Steady)
    (hl : c.Level R depth c') {p p' : FullPoint} (hp : p.Abreast c p' c') :
    Abreast R depth K (r.fullStep p) (r.fullStep p') c c'
      (Abreast.InStep FullPoint.Abreast r.FullAbreast) := by
  obtain ⟨hstream, hread, htwins, T, hs, hs', hT⟩ := hp
  unfold fullStep
  rw [hstream, hread]
  refine (checkLookahead_abreast hl _).bind ?_
  rintro _ _ _ _ hl ⟨rfl, rfl⟩
  refine (reach_abreast hU hhost hl hs hs' htwins hT _).bind ?_
  rintro (_ | t) d (_ | t') d' hl' ⟨hfollows, hfollows', hnext⟩
  · refine .seq .count .count (.pure hl' ⟨rfl, T, ?_, ?_⟩)
    · exact hs.grown hl.left.sound hfollows.grown
    · exact hs'.grown hl.right.sound hfollows'.grown
  · exact hnext.elim
  · exact hnext.elim
  · obtain ⟨htwins', ht, ht'⟩ := hnext
    dsimp only
    rw [fullVerdict_eq hl'.left.sound hl'.right.sound ht ht']
    cases fullVerdict? r.settings.mode t' with
    | none => exact .pure hl' ⟨rfl, rfl, htwins', _, ht, ht', hT.reachOf true _⟩
    | some alt => exact .pure hl' ⟨rfl, ⟨rfl, rfl⟩, rfl, rfl⟩

private theorem finishFull_abreast (hrecover : r.settings.recoverAtRuleEnd = false)
    (hl : c.Level R depth c') {e e' : (ConfigSet × TokenStream) ⊕ FullEnd}
    (h : r.FullAbreast e c e' c') :
    Abreast R depth K (r.finishFull e) (r.finishFull e') c c' fun a _ b _ => a = b := by
  match e, e', h with
  | .inl (s, stream), .inl (s', _), ⟨rfl, T, hs, hs'⟩ =>
    exact deadEnd_abreast hrecover hl hs hs' stream
  | .inr e, .inr e', ⟨hsame, ⟨hunique, hexact⟩, hunique', hexact'⟩ =>
    refine .same (.ok e.prediction) hl ?_ ?_
    · exact (concludeFull_acts hl.left hunique hexact).mono fun _ _ _ _ _ _ h =>
        congrArg Deed.result h
    · exact (concludeFull_acts hl.right hunique' hexact').mono fun _ _ _ _ _ _ h =>
        hsame ▸ congrArg Deed.result h

/-- **Two predictions with the call stack,** from sets of twins. -/
private theorem predictFull_abreast (hU : r.Under R F asked₀ words) (hhost : r.host.Steady)
    (hrecover : r.settings.recoverAtRuleEnd = false) (hl : c.Level R depth c') {s s' : ConfigSet}
    (hs : Question.Stage true T s c.graph) (hs' : Question.Stage true T s' c'.graph)
    (htwins : s.Twin true c.graph c'.graph s') (hT : Proper T) :
    Abreast R depth K (r.predictFull s) (r.predictFull s') c c' fun a _ b _ => a = b := by
  rw [predictFull_eq, predictFull_eq]
  refine Abreast.bind (Q := r.FullAbreast) ?_
    fun e d e' d' hl' h => finishFull_abreast hrecover hl' h
  exact .loop FullPoint.Abreast (fun p d p' d' hl' hp => fullStep_abreast hU hhost hl' hp) hl
    ⟨rfl, rfl, htwins, T, hs, hs', hT⟩

/-! ## At conflicts -/

/-- The stacks of the callers and the sets with which a decision begins under them. -/
private theorem openFull_abreast (hU : r.Under R F asked₀ words) (hhost : r.host.Steady)
    (hl : c.Level R depth c') :
    Abreast R depth K
      (Prediction.grow r.toQuestion (StackGraph.ofCallers r.net r.callers) >>= fun stack =>
        Prediction.probe r.toQuestion (r.startSet true stack))
      (Prediction.grow r.toQuestion (StackGraph.ofCallers r.net r.callers) >>= fun stack =>
        Prediction.probe r.toQuestion (r.startSet true stack)) c c' fun s d s' d' =>
          Question.Stage true F s d.graph ∧ Question.Stage true F s' d'.graph ∧
            s.Twin true d.graph d'.graph s' := by
  have hcallers : ∀ {c₁ : Cache}, c₁.Faithful R → c₁.graph.maxDepth = depth →
      Acts R (Prediction.grow r.toQuestion (StackGraph.ofCallers r.net r.callers)) c₁
        (fun res _ _ d => ∃ stack, res = .ok stack ∧ (r.net.followsOf r.callers).length ≤ depth ∧
          (stack < d.graph.size ∧ d.graph.stackSet stack = {r.net.followsOf r.callers}))
        (Exceeded.Meets (· < (r.net.followsOf r.callers).length) False depth) := by
    intro c₁ hc₁ hdepth
    rw [← hdepth]
    refine (callers_acts hU hc₁).mono ?_
    rintro _ _ _ d _ _ ⟨stack, rfl, -, -, hshort, hlt, hset⟩
    exact ⟨stack, rfl, hshort, hlt, hset⟩
  -- Only nodes can run out in one cache and not in the other: the callers are as deep in both.
  refine (Abreast.of_acts hl (hcallers hl.left hl.depth_eq) (hcallers hl.right hl.depth_eq') ?_
    ?_).bind ?_
  · rintro hshort e (hnodes | ⟨hlong, -⟩ | ⟨hfalse, -⟩)
    · exact hnodes
    · exact absurd hlong (Nat.not_lt.mpr hshort)
    · exact hfalse.elim
  · rintro e e' (hnodes | ⟨-, rfl⟩ | ⟨hfalse, -⟩) (hnodes' | ⟨-, rfl⟩ | ⟨hfalse', -⟩)
    · exact .inl hnodes
    · exact .inl hnodes
    · exact .inl hnodes
    · exact .inr (.inl hnodes')
    · exact .inr (.inr (.inl rfl))
    · exact hfalse'.elim
    all_goals exact hfalse.elim
  rintro stack d stack' d' hl' ⟨-, -, ⟨hlt, hset⟩, hlt', hset'⟩
  have hfull : true = false → r.net.followsOf r.callers = [] := nofun
  -- The start sets are then twins, as the stacks of the callers mean the same in both graphs.
  have hstart : ∀ {c₁ : Cache} {id : StackId}, c₁.Faithful R → id < c₁.graph.size →
      c₁.graph.stackSet id = {r.net.followsOf r.callers} →
      Acts R (Prediction.probe r.toQuestion (r.startSet true id)) c₁
        (fun res _ _ e => ∃ s, res = .ok s ∧ Question.Stage true F s e.graph)
        (r.toQuestion.Balks true (r.net.followsOf r.callers) c₁.graph.maxDepth) := by
    intro c₁ id hc₁ hid hset
    refine (startSet_acts hc₁ hU.opensFull hid hset).mono ?_
    rintro _ _ _ e _ _ ⟨s, rfl, -, -, -, -, hsteady⟩
    exact ⟨s, rfl, (hsteady fun _ => .inl hhost).1⟩
  refine (Abreast.probe hl' (hstart hl'.left hlt hset) (hstart hl'.right hlt' hset') fun _ _ =>
    Question.startSet_beside hU.consistent hU.word (.refl true r.toQuestion) (fun _ => .inl hhost) hfull
      hl'.left.sound hl'.right.sound hlt hlt' hset hset').mono ?_
  rintro s e s' e' - ⟨-, -, hs, hs', htwins⟩
  exact ⟨hs, hs', htwins⟩

private theorem turn_abreast (hU : r.Under R F asked₀ words) (hhost : r.host.Steady)
    (hrecover : r.settings.recoverAtRuleEnd = false) (hl : c.Level R depth c') (row row' : Row)
    (stream : TokenStream) (votes : AltSet) :
    Abreast R depth K (r.turn row stream votes) (r.turn row' stream votes) c c' fun a _ b _ => a = b := by
  unfold turn
  split
  · exact .pure hl rfl
  · refine .seq .count .count (.deliver ?_)
    rw [← bind_assoc]
    refine (openFull_abreast hU hhost hl).bind ?_
    rintro s d s' d' hl' ⟨hs, hs', htwins⟩
    exact predictFull_abreast hU hhost hrecover hl' hs hs' htwins hU.properFull

private theorem escalate_abreast (hU : r.Under R F asked₀ words) (hhost : r.host.Steady)
    (hrecover : r.settings.recoverAtRuleEnd = false) (hl : c.Level R depth c') {row row' : Row}
    (hrows : Agree row row') (stream : TokenStream) :
    Abreast R depth K (r.escalate row stream) (r.escalate row' stream) c c' fun a _ b _ => a = b := by
  rw [escalate_eq, escalate_eq, hrows.choices_eq]
  refine Abreast.bind (Q := fun votes _ votes' _ => votes = votes') ?_ ?_
  · cases row'.choices with
    | none => exact .pure hl rfl
    | some choices =>
      refine .same (.ok (r.votes choices)) hl ?_ ?_
      · exact (passing_acts hl.left choices).mono fun _ _ _ _ _ _ h => (h.2.2.2 hhost).1
      · exact (passing_acts hl.right choices).mono fun _ _ _ _ _ _ h => (h.2.2.2 hhost).1
  · rintro votes d _ d' hl' rfl
    exact turn_abreast hU hhost hrecover hl' row row' stream votes

/-! ## Along the table -/

/-- **The place that a symbol leads to,** looked up or computed on either side. -/
private theorem next_abreast (hU : r.Under R F asked₀ words) (hl : c.Level R depth c')
    {p p' : Place} (hp : r.Stands R c p T) (hp' : r.Stands R c' p' T) {v : Symbol}
    (hK : r.net.Outgrows false v T depth → r.net.Crowds false v T → K) :
    Abreast R depth K (r.next p v) (r.next p' v) c c' fun next d next' d' =>
      c.Follows d ∧ c'.Follows d' ∧
      match next, next' with
      | none, none => True
      | some q, some q' => r.Comes d T v q ∧ r.Comes d' T v q'
      | _, _ => False := by
  have hside : ∀ {c₁ : Cache} {p₁ : Place}, c₁.Faithful R → r.Stands R c₁ p₁ T →
      c₁.graph.maxDepth = depth →
      Acts R (r.next p₁ v) c₁ (fun res _ _ d =>
        ∃ next, res = .ok next ∧ r.net.Withstands depth false v T ∧
          next.elim (r.net.reachOf false v T = ∅) fun q => r.Comes d T v q)
        (r.net.ReachMeets false v T depth) := by
    intro c₁ p₁ hc₁ hp₁ hdepth
    rw [← hdepth]
    refine (next_acts hU hc₁ hp₁).mono ?_
    rintro _ _ _ d _ hfollows ⟨next, rfl, -, -, hwithstands, hnext⟩
    rw [hfollows.grown.maxDepth_eq] at hwithstands
    cases next <;> exact ⟨_, rfl, hwithstands, hnext⟩
  -- The symbol is refused by what the threads come to, not by the cache: if one side has an answer,
  -- neither ceiling is passed, and the other can only want nodes.
  refine (Abreast.of_acts hl (hside hl.left hp hl.depth_eq) (hside hl.right hp' hl.depth_eq') ?_
    ?_).mono ?_
  · rintro hwithstands e (hnodes | ⟨hlong, -⟩ | ⟨hmany, -⟩)
    · exact hnodes
    · exact absurd hlong hwithstands.1
    · exact absurd hmany hwithstands.2
  -- Both sides fail. They may differ only where the threads pass both ceilings.
  · rintro e e' (hnodes | ⟨hlong, rfl⟩ | ⟨hmany, rfl⟩) (hnodes' | ⟨hlong', rfl⟩ | ⟨hmany', rfl⟩)
    · exact .inl hnodes
    · exact .inl hnodes
    · exact .inl hnodes
    · exact .inr (.inl hnodes')
    · exact .inr (.inr (.inl rfl))
    · exact .inr (.inr (.inr ⟨hK hlong hmany', .longBesideMany⟩))
    · exact .inr (.inl hnodes')
    · exact .inr (.inr (.inr ⟨hK hlong' hmany, .manyBesideLong⟩))
    · exact .inr (.inr (.inl rfl))
  -- There is a next place exactly if some thread is left.
  rintro (_ | q) d (_ | q') d' - ⟨hfollows, hfollows', hnext, hnext'⟩
  · exact ⟨hfollows, hfollows', trivial⟩
  · exact absurd hnext hnext'.nonempty.ne_empty
  · exact absurd hnext' hnext.nonempty.ne_empty
  · exact ⟨hfollows, hfollows', hnext, hnext'⟩

/-- Two predictions along their tables that stand at the same threads. A symbol beyond both ceilings
on the way from there would make `K` hold. -/
private structure Point.Abreast (r : Request) (R : Regime) (depth : Nat) (K : Prop) (p : Point)
    (c : Cache) (p' : Point) (c' : Cache) : Prop where
  stream_eq : p.stream = p'.stream
  read_eq : p.read = p'.read
  threads : ∃ T, r.Stands R c p.place T ∧ r.Stands R c' p'.place T ∧ Frank T ∧
    (r.net.Torn r.settings.mode depth T p.stream → K)

/-- The set at a place goes on to be of the same threads. -/
private theorem Stands.later {place : Place} (h : r.Stands R c place T) (hc : c.Faithful R)
    {d : Cache} (hfollows : c.Follows d) :
    Question.Stage false T ((d.table r.decision).row place).configs d.graph := by
  rw [(hfollows.tables r.decision).configs_eq h.shows.has]
  exact h.stage.grown hc.sound hfollows.grown

/-- Rows that look the same answer the same. -/
private theorem conclude_abreast (hhost : r.host.Steady) (hl : c.Level R depth c') {row row' : Row}
    (hrows : Agree row row') (stream : TokenStream) :
    Abreast R depth K (r.conclude row stream) (r.conclude row' stream) c c'
      (Abreast.InStep (Point.Abreast r R depth K) fun a _ b _ => a = b) := by
  have hanswer : Abreast R depth K (.inr <$> r.answer row stream) (.inr <$> r.answer row' stream) c c'
      (Abreast.InStep (Point.Abreast r R depth K) fun a _ b _ => a = b) := by
    refine .map (.same ((r.answerDeed row stream).result) hl ?_ ?_)
    · exact (answer_acts hl.left row stream).mono fun _ _ _ _ _ _ h => (h.2 (.inl hhost)).1
    · rw [hrows.answerDeed_eq]
      exact (answer_acts hl.right row' stream).mono fun _ _ _ _ _ _ h => (h.2 (.inl hhost)).1
  unfold conclude
  rw [← hrows.context_eq]
  split
  · unfold reportAmbiguity
    rw [bind_assoc, bind_assoc]
    exact .seq .count .count (.deliver hanswer)
  · rw [pure_bind, pure_bind]
    exact hanswer

/-- **One symbol of two predictions along their tables.** -/
private theorem step_abreast (hU : r.Under R F asked₀ words) (hhost : r.host.Steady)
    (hrecover : r.settings.recoverAtRuleEnd = false) (hl : c.Level R depth c') {p p' : Point}
    (hp : p.Abreast r R depth K c p' c') :
    Abreast R depth K (r.step p) (r.step p') c c'
      (Abreast.InStep (Point.Abreast r R depth K) fun a _ b _ => a = b) := by
  obtain ⟨hstream, hread, T, hstands, hstands', hT, hK⟩ := hp
  rw [step_eq, step_eq, ← hstream, hread]
  refine (checkLookahead_abreast hl _).bind ?_
  rintro _ _ _ _ hl ⟨rfl, rfl⟩
  -- Here is the one step at which the two errors may differ, so a torn symbol is noted here.
  refine (next_abreast hU hl hstands hstands' fun hlong hmany => hK (.here hlong hmany)).bind ?_
  rintro (_ | q) d (_ | q') d' hl' ⟨hfollows, hfollows', hnext⟩
  · refine .seq .count .count (.seq .table .table (.map ?_))
    exact deadEnd_abreast hrecover hl' (hstands.later hl.left hfollows)
      (hstands'.later hl.right hfollows') _
  · exact hnext.elim
  · exact hnext.elim
  · obtain ⟨hcomes, hcomes'⟩ := hnext
    -- The two rows describe the same threads, so they are accepting or in conflict together.
    have hrows := (hcomes.met hl'.left.sound).agree (hcomes'.met hl'.right.sound) hT
    refine .seq .table .table ?_
    rw [← hrows.context_eq, ← hrows.accepting_eq]
    split
    · exact .seq .count .count (.map (escalate_abreast hU hhost hrecover hl' hrows _))
    · split
      · exact .seq .count .count (conclude_abreast hhost hl' hrows _)
      · next haccepting =>
        -- A row that is not accepting has neither one alternative nor a conflict, so the loop goes
        -- on, and a symbol torn later on is torn from here as well.
        have hopen : ((d.table r.decision).row q).accepting = false :=
          Bool.eq_false_of_not_eq_true haccepting
        have hfresh := hcomes.shows.holds.accepting_iff.mp hopen
        obtain ⟨hmany, hagree⟩ := (hcomes.found.fresh_iff hcomes.shows.holds.proper).mp hfresh
        refine .pure hl' ⟨rfl, rfl, _, ⟨hstands.met.reach _, hcomes.shows, hfresh⟩,
          ⟨hstands'.met.reach _, hcomes'.shows, ?_⟩, hT.reachOf false _,
          fun htorn => hK (.later hmany hagree htorn)⟩
        exact hcomes'.shows.holds.accepting_iff.mp (hrows.accepting_eq ▸ hopen)

/-! ## From the beginning -/

/-- **The places where the decision begins.** -/
private theorem startPlace_abreast (hU : r.Under R F asked₀ words) (hl : c.Level R depth c') :
    Abreast R depth K r.startPlace r.startPlace c c' fun p d p' d' =>
      r.Stands R d p (R.start r.decision) ∧ r.Stands R d' p' (R.start r.decision) := by
  have hside : ∀ {c₁ : Cache}, c₁.Faithful R → c₁.graph.maxDepth = depth →
      Acts R r.startPlace c₁ (fun res _ _ d => ∃ p, res = .ok p ∧
          r.toQuestion.Opened false [] depth ∧ r.Stands R d p (R.start r.decision))
        (r.toQuestion.Balks false [] depth) := by
    intro c₁ hc₁ hdepth
    rw [← hdepth]
    refine (startPlace_acts hU hc₁).mono ?_
    rintro _ _ _ d _ _ ⟨p, rfl, -, -, hopened, hstands⟩
    exact ⟨p, rfl, hopened, hstands⟩
  refine (Abreast.of_acts hl (hside hl.left hl.depth_eq) (hside hl.right hl.depth_eq') ?_ ?_).mono ?_
  · exact fun hopened e he => he.nodes hU.consistent hU.word r.steady_inexact (fun _ => rfl) hopened
  · exact fun e e' he he' => (he.unique hU.consistent hU.word r.steady_inexact (fun _ => rfl) he').imp_right
      (Or.imp_right .inl)
  rintro p d p' d' - ⟨-, -, hstands, hstands'⟩
  exact ⟨hstands, hstands'⟩

/-- **Two attempts at one prediction,** on caches that differ in what they know, come to the same
answer, or fail with the same error, unless one of them finds the graph full, or a symbol is beyond
both the ceilings of stacks and of sets. -/
theorem attempt_abreast (hU : r.Under R F asked₀ words) (hhost : r.host.Steady)
    (hrecover : r.settings.recoverAtRuleEnd = false) (hfrank : Frank (R.start r.decision))
    (hl : c.Level R depth c') :
    Abreast R depth (r.net.Torn r.settings.mode depth (R.start r.decision) r.stream) r.attempt
      r.attempt c c' fun a _ b _ => a = b := by
  have hrest : Abreast R depth (r.net.Torn r.settings.mode depth (R.start r.decision) r.stream)
      (r.startPlace >>= fun place => Run.loop r.step r.fuel ⟨place, r.stream, 0⟩)
      (r.startPlace >>= fun place => Run.loop r.step r.fuel ⟨place, r.stream, 0⟩) c c'
      fun a _ b _ => a = b := by
    refine (startPlace_abreast hU hl).bind ?_
    rintro p d p' d' hl' ⟨hp, hp'⟩
    exact .loop (Point.Abreast r R depth _)
      (fun p d p' d' hl' hp => step_abreast hU hhost hrecover hl' hp) hl'
      ⟨rfl, rfl, _, hp, hp', hfrank, id⟩
  have hknown : ∀ {c₁ : Cache}, c₁.Faithful R → ¬c₁.tables.size ≤ r.decision := by
    intro c₁ hc₁
    rw [hc₁.size_eq, ← hU.net_eq]
    exact Nat.not_le.mpr (Array.getElem?_eq_some_iff.mp hU.entry_eq).1
  rintro s s' rfl rfl res t res' t' hrun hrun'
  unfold attempt at hrun hrun'
  rw [Run.from?_bind, Run.from?_get, Option.bind_some] at hrun hrun'
  simp only [if_neg (hknown hl.left)] at hrun
  simp only [if_neg (hknown hl.right)] at hrun'
  exact hrest s s' rfl rfl res t res' t' hrun hrun'

end Request

end AdaptiveLL
