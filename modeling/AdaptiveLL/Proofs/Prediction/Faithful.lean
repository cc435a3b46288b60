import AdaptiveLL.Proofs.Prediction.Deeds
import AdaptiveLL.Proofs.Prediction.Tables
import AdaptiveLL.Proofs.Prediction.Told

/-!
# Faithful caches

A cache is *faithful* if its graph of stacks is sound and its tables are sane. What a part of a
prediction does on a faithful cache is judged by `Acts`: it leaves a faithful cache behind, which
goes on from the first one, and does what is asked of it unless a ceiling was met, of which it
may be said which one.
-/

namespace AdaptiveLL

open StackGraph (Grows Grown Sound)

/-- **What all predictions on a cache agree on:** the network, the mode, the threads with which
decisions begin, and the room for stacks. -/
structure Regime where
  net : Network
  mode : PredictionMode
  start : Nat → Set Thread
  nodes : Nat

namespace Cache

/-- **A faithful cache.** -/
abbrev Faithful (R : Regime) (c : Cache) : Prop :=
  c.Honest R.net R.net.decisions
    (fun d entry g => Table.threadMeaning R.net R.mode entry (R.start d) g) R.nodes

variable {R : Regime} {c : Cache}

/-- The graph of stacks may grow. -/
theorem Faithful.setGraph (hc : c.Faithful R) {g : StackGraph} (hg : c.graph.Grown g) :
    ({ c with graph := g } : Cache).Faithful R ∧ c.Follows { c with graph := g } :=
  Honest.setGraph hc hg fun _ _ _ ht => Table.Sane.grown hc.sound hg ht

end Cache

/-- A ceiling was met. -/
def Spent {α : Type} (r : Except PredictionError α) : Prop := ∃ e, r = .error (.exceeded e)

/-- **What a part of a prediction does on a faithful cache,** unless a ceiling was met that
satisfies `E`. -/
def Acts {α : Type} (R : Regime) (m : Prediction α) (c : Cache)
    (Q : Except PredictionError α → List Report → List Callback → Cache → Prop)
    (E : Exceeded → Prop := fun _ => True) : Prop :=
  m.Does c fun r reports asked c' =>
    c'.Faithful R ∧ c.Follows c' ∧ ((∃ e, r = .error (.exceeded e) ∧ E e) ∨ Q r reports asked c')

namespace Acts

variable {α β : Type} {R : Regime} {m : Prediction α} {f : α → Prediction β} {c : Cache}
  {Q Q' : Except PredictionError α → List Report → List Callback → Cache → Prop}
  {P : Except PredictionError β → List Report → List Callback → Cache → Prop}
  {E E' : Exceeded → Prop}

theorem mono (h : Acts R m c Q E)
    (himp : ∀ r reports asked c', c'.Faithful R → c.Follows c' → Q r reports asked c' →
      Q' r reports asked c') : Acts R m c Q' E :=
  Prediction.Does.mono h fun r reports asked c' ⟨hfaithful, hfollows, hQ⟩ =>
    ⟨hfaithful, hfollows, hQ.imp_right (himp r reports asked c' hfaithful hfollows)⟩

/-- Less may be said of the ceilings. -/
theorem failing (h : Acts R m c Q E) (himp : ∀ e, E e → E' e) : Acts R m c Q E' :=
  Prediction.Does.mono h fun _ _ _ _ ⟨hfaithful, hfollows, hQ⟩ =>
    ⟨hfaithful, hfollows, hQ.imp_left fun ⟨e, he, hE⟩ => ⟨e, he, himp e hE⟩⟩

/-- Which ceiling was met need not be known. -/
theorem anyhow (h : Acts R m c Q E) : Acts R m c Q := h.failing fun _ _ => trivial

/-- What such a part is seen to end with. -/
theorem apply (h : Acts R m c Q E) {s s' : Session} (hs : s.cache = c) {a : α}
    (hrun : m.from? s = some (.ok a, s')) :
    s'.cache.Faithful R ∧ ∃ reports asked, Q (.ok a) reports asked s'.cache := by
  obtain ⟨reports, asked, -, -, hc', -, hQ⟩ := (h s hs).apply hrun
  exact ⟨hc', reports, asked, hQ.resolve_left nofun⟩

/-- What such a part gives besides. -/
theorem giving (h : Acts R m c Q E) {P : α → Prop} (hgives : Run.Gives m P) :
    Acts R m c (fun r reports asked c' => Q r reports asked c' ∧ ∀ a, r = .ok a → P a) E := by
  intro s hs
  obtain ⟨r, s', hrun, reports, asked, hrecorder, hcallbacks, hc', hfollows, hQ⟩ := h s hs
  refine ⟨r, s', hrun, reports, asked, hrecorder, hcallbacks, hc', hfollows, hQ.imp_right ?_⟩
  rintro hQ
  exact ⟨hQ, fun a ha => hgives s a s' (ha ▸ hrun)⟩

theorem pure {a : α} (hc : c.Faithful R) (h : Q (.ok a) [] [] c) : Acts R (pure a) c Q E :=
  Prediction.Does.pure ⟨hc, .refl hc.sound, .inr h⟩

theorem throw {e : PredictionError} (hc : c.Faithful R)
    (h : (∃ e', e = .exceeded e' ∧ E e') ∨ Q (.error e) [] [] c) :
    Acts R (throw e : Prediction α) c Q E := by
  refine Prediction.Does.throw ⟨hc, .refl hc.sound, h.imp_left ?_⟩
  rintro ⟨e', rfl, hE⟩
  exact ⟨e', rfl, hE⟩

theorem bind (h : Acts R m c Q E)
    (hok : ∀ a reports asked c', c'.Faithful R → c.Follows c' → Q (.ok a) reports asked c' →
      Acts R (f a) c' (fun r reports' asked' => P r (reports ++ reports') (asked ++ asked')) E)
    (herr : ∀ e reports asked c', Q (.error e) reports asked c' →
      P (.error e) reports asked c') : Acts R (m >>= f) c P E := by
  refine Prediction.Does.bind h ?_ ?_
  · rintro a reports asked c' ⟨hfaithful, hfollows, hQ⟩
    have hQ' : Q (.ok a) reports asked c' := hQ.resolve_left nofun
    refine Prediction.Does.mono (hok a reports asked c' hfaithful hfollows hQ') ?_
    rintro r reports' asked' c'' ⟨hfaithful', hfollows', hP⟩
    exact ⟨hfaithful', hfollows.trans hfollows', hP⟩
  · rintro e reports asked c' ⟨hfaithful, hfollows, hQ⟩
    refine ⟨hfaithful, hfollows, ?_⟩
    rcases hQ with ⟨e', he, hE⟩ | hQ
    · exact .inl ⟨e', by rw [Except.error.inj he], hE⟩
    · exact .inr (herr e reports asked c' hQ)

/-- A first part that cannot fail and only changes the cache. -/
theorem after {a : α} {c' : Cache} (h : m.Does c fun r reports asked c'' =>
      r = .ok a ∧ reports = [] ∧ asked = [] ∧ c'' = c')
    (hfollows : c.Follows c') (hf : Acts R (f a) c' P E) : Acts R (m >>= f) c P E :=
  Prediction.Does.after h (Prediction.Does.mono hf fun _ _ _ _ ⟨hfaithful, hfollows', hP⟩ =>
    ⟨hfaithful, hfollows.trans hfollows', hP⟩)

/-- A first part that cannot fail and leaves the cache as it is. -/
theorem seq (hc : c.Faithful R) {a : α} (h : m.Does c fun r reports asked c'' =>
      r = .ok a ∧ reports = [] ∧ asked = [] ∧ c'' = c) (hf : Acts R (f a) c P E) :
    Acts R (m >>= f) c P E :=
  after h (.refl hc.sound) hf

/-- A part that leaves the cache as it is. -/
theorem of_does (hc : c.Faithful R) (h : m.Does c Q)
    (hkeep : ∀ r reports asked c', Q r reports asked c' → c' = c) : Acts R m c Q E := by
  refine Prediction.Does.mono h fun r reports asked c' hQ => ?_
  obtain rfl := hkeep r reports asked c' hQ
  exact ⟨hc, .refl hc.sound, .inr hQ⟩

/-- A first part that delivers a report. -/
theorem deliver {f : PUnit → Prediction β} {report : Report} (hc : c.Faithful R)
    (hf : Acts R (f ⟨⟩) c (fun r reports asked => P r (report :: reports) asked) E) :
    Acts R ((modify (·.deliver report) : Prediction PUnit) >>= f) c P E := by
  refine (of_does hc .deliver fun _ _ _ _ h => h.2.2.2).bind ?_ fun _ _ _ _ h => nomatch h.1
  rintro _ reports asked c' _ _ ⟨_, rfl, rfl, rfl⟩
  exact hf

theorem get_bind {f : Session → Prediction β} (h : ∀ s, s.cache = c → Acts R (f s) c P E) :
    Acts R (get >>= f) c P E :=
  Prediction.Does.get_bind h

theorem map {g : α → β} (h : Acts R m c (fun r => P (r.map g)) E) : Acts R (g <$> m) c P E := by
  refine Prediction.Does.map (Prediction.Does.mono h ?_)
  rintro r reports asked c' ⟨hfaithful, hfollows, hP⟩
  refine ⟨hfaithful, hfollows, hP.imp_left ?_⟩
  rintro ⟨e, rfl, hE⟩
  exact ⟨e, rfl, hE⟩

/-- A quiet probe. -/
theorem probe (hc : c.Faithful R) {q : Question} {p : Probe α} {Q : α → StackGraph → Prop}
    {E : Nat → Exceeded → Prop} (h : ∀ past, Probe.Ends true p { graph := c.graph, past } Q E) :
    Acts R (Prediction.probe q p) c (fun r reports asked c' => ∃ a, r = .ok a ∧ reports = [] ∧
      asked = [] ∧ c'.tables = c.tables ∧ Q a c'.graph) (E c.graph.maxDepth) := by
  refine Prediction.Does.probe fun past => Run.Yields.mono (h past) ?_
  rintro r tr ⟨hext, hQ, hE⟩
  obtain ⟨hfaithful, hfollows⟩ := hc.setGraph hext.grown
  refine ⟨hfaithful, hfollows, ?_⟩
  cases r with
  | error e => exact .inl ⟨e, rfl, hE e rfl⟩
  | ok a => exact .inr ⟨a, rfl, rfl, hext.asked_eq rfl, rfl, hQ a rfl⟩

/-- **The rule of the loop.** -/
theorem loop {step : α → Prediction (α ⊕ β)} (I : α → Cache → Prop) (μ : α → Nat)
    (hstep : ∀ a c', c'.Faithful R → I a c' → Acts R (step a) c' (fun r reports asked c'' =>
      match r with
      | .ok (.inl a') => reports = [] ∧ asked = [] ∧ I a' c'' ∧ μ a' < μ a
      | .ok (.inr b) => P (.ok b) reports asked c''
      | .error e => P (.error e) reports asked c'') E)
    {fuel : Nat} {a : α} (hc : c.Faithful R) (hI : I a c) (hfuel : μ a < fuel) :
    Acts R (Run.loop step fuel a) c P E := by
  refine Prediction.Does.loop (fun a c' => c'.Faithful R ∧ c.Follows c' ∧ I a c') μ ?_
    ⟨hc, .refl hc.sound, hI⟩ hfuel
  rintro a c' ⟨hfaithful, hfollows, hI'⟩
  refine Prediction.Does.mono (hstep a c' hfaithful hI') ?_
  rintro (e | (a' | b)) reports asked c'' ⟨hfaithful', hfollows', hP⟩
  · refine ⟨hfaithful', hfollows.trans hfollows', hP.imp_left ?_⟩
    rintro ⟨e', he, hE⟩
    exact ⟨e', by rw [Except.error.inj he], hE⟩
  · obtain ⟨hreports, hasked, hI'', hlt⟩ := hP.resolve_left nofun
    exact ⟨hreports, hasked, ⟨hfaithful', hfollows.trans hfollows', hI''⟩, hlt⟩
  · exact ⟨hfaithful', hfollows.trans hfollows', .inr (hP.resolve_left nofun)⟩

end Acts

end AdaptiveLL
