import AdaptiveLL.Prediction.Session
import AdaptiveLL.Proofs.Probe

/-!
# What a prediction does

Seen from outside, a part of a prediction gives a result, delivers reports and makes callbacks, and
leaves a cache behind. `Prediction.Does m c Q` says that `m`, in any session with the cache `c`,
comes to an end and does all this as `Q` says. What is counted and journaled on the way is left out:
no prediction depends on it.
-/

namespace AdaptiveLL

namespace Session

@[simp] theorem note_cache (s : Session) (e : Event) : (s.note e).cache = s.cache := rfl

@[simp] theorem note_recorder (s : Session) (e : Event) : (s.note e).recorder = s.recorder := rfl

@[simp] theorem note_callbacks (s : Session) (e : Event) : (s.note e).callbacks = s.callbacks := rfl

@[simp] theorem count_cache (s : Session) (d : Nat) (f : DecisionStats → DecisionStats) :
    (s.count d f).cache = s.cache := rfl

@[simp] theorem count_recorder (s : Session) (d : Nat) (f : DecisionStats → DecisionStats) :
    (s.count d f).recorder = s.recorder := rfl

@[simp] theorem count_callbacks (s : Session) (d : Nat) (f : DecisionStats → DecisionStats) :
    (s.count d f).callbacks = s.callbacks := rfl

@[simp] theorem deliver_cache (s : Session) (r : Report) : (s.deliver r).cache = s.cache := by
  unfold deliver
  dsimp only
  split <;> rfl

@[simp] theorem deliver_recorder (s : Session) (r : Report) :
    (s.deliver r).recorder = s.recorder.record r := by
  unfold deliver
  dsimp only
  split <;> rfl

@[simp] theorem deliver_callbacks (s : Session) (r : Report) :
    (s.deliver r).callbacks = s.callbacks := by
  unfold deliver
  dsimp only
  split <;> rfl

/-- Taking over a trail changes the graph of stacks and adds the callbacks. -/
theorem absorb_eq (s : Session) (q : Question) (t : Trail) :
    (s.absorb q t).cache = { s.cache with graph := t.graph } ∧
      (s.absorb q t).recorder = s.recorder ∧
      (s.absorb q t).callbacks = s.callbacks ++ t.asked := by
  have hnotes : ∀ (l : List Nat) (s : Session),
      (l.foldl (fun s rule => s.note (recursionEvent q rule)) s).cache = s.cache ∧
        (l.foldl (fun s rule => s.note (recursionEvent q rule)) s).recorder = s.recorder ∧
        (l.foldl (fun s rule => s.note (recursionEvent q rule)) s).callbacks = s.callbacks := by
    intro l
    induction l with
    | nil => exact fun _ => ⟨rfl, rfl, rfl⟩
    | cons rule l ih => exact fun s => ih (s.note (recursionEvent q rule))
  exact hnotes _ _

end Session

namespace Prediction

variable {α β : Type}

/-- Following configurations is what the probe does with the session's graph of stacks. -/
theorem from?_probe (q : Question) (p : Probe α) (s : Session) :
    (Prediction.probe q p).from? s =
      (p.from? { graph := s.cache.graph, past := s.callbacks }).map fun x =>
        (x.1.mapError .exceeded, s.absorb q x.2) := by
  change (p.from? { graph := s.cache.graph, past := s.callbacks }).bind _ = _
  cases p.from? { graph := s.cache.graph, past := s.callbacks } <;> rfl

/-- Following configurations gives what the probe gives. -/
theorem probe_gives {q : Question} {p : Probe α} {P : α → Prop} (h : p.Gives P) :
    Run.Gives (Prediction.probe q p) P := by
  intro s a s' hrun
  rw [from?_probe] at hrun
  obtain ⟨⟨r, t⟩, hp, hend⟩ := Option.map_eq_some_iff.mp hrun
  cases r with
  | error e => cases hend
  | ok b =>
    obtain ⟨hb, -⟩ := Prod.mk.inj hend
    exact Except.ok.inj hb ▸ h _ b t hp

/-- **What a part of a prediction does** from a cache: its result, the reports it delivers, the
callbacks it makes, and the cache it leaves behind. -/
def Does (m : Prediction α) (c : Cache)
    (Q : Except PredictionError α → List Report → List Callback → Cache → Prop) : Prop :=
  ∀ s : Session, s.cache = c → m.Yields s fun r s' => ∃ reports asked,
    s'.recorder = reports.foldl Recorder.record s.recorder ∧
      s'.callbacks = s.callbacks ++ asked ∧ Q r reports asked s'.cache

namespace Does

variable {m : Prediction α} {f : α → Prediction β} {c : Cache}
  {Q Q' : Except PredictionError α → List Report → List Callback → Cache → Prop}
  {R : Except PredictionError β → List Report → List Callback → Cache → Prop}

/-- What changes the cache alone, if anything. -/
private theorem of_silent {r : Except PredictionError α} {c' : Cache} (hQ : Q r [] [] c')
    (h : ∀ s : Session, s.cache = c → ∃ s', m.from? s = some (r, s') ∧ s'.cache = c' ∧
      s'.recorder = s.recorder ∧ s'.callbacks = s.callbacks) : m.Does c Q := by
  intro s hs
  obtain ⟨s', hrun, hcache, hrecorder, hcallbacks⟩ := h s hs
  exact .of_eq hrun ⟨[], [], hrecorder, by rw [hcallbacks, List.append_nil], by rwa [hcache]⟩

theorem mono (h : m.Does c Q)
    (himp : ∀ r reports asked c', Q r reports asked c' → Q' r reports asked c') : m.Does c Q' := by
  intro s hs
  refine (h s hs).mono ?_
  rintro r s' ⟨reports, asked, hrecorder, hcallbacks, hQ⟩
  exact ⟨reports, asked, hrecorder, hcallbacks, himp _ _ _ _ hQ⟩

theorem pure {a : α} (h : Q (.ok a) [] [] c) : Does (pure a) c Q :=
  of_silent h fun s hs => ⟨s, rfl, hs, rfl, rfl⟩

theorem throw {e : PredictionError} (h : Q (.error e) [] [] c) :
    Does (throw e : Prediction α) c Q :=
  of_silent h fun s hs => ⟨s, rfl, hs, rfl, rfl⟩

/-- Two parts in a row: what the second one does is added to what the first one did. -/
theorem bind (h : m.Does c Q)
    (hok : ∀ a reports asked c', Q (.ok a) reports asked c' →
      (f a).Does c' fun r reports' asked' => R r (reports ++ reports') (asked ++ asked'))
    (herr : ∀ e reports asked c', Q (.error e) reports asked c' →
      R (.error e) reports asked c') : Does (m >>= f) c R := by
  intro s hs
  refine (h s hs).bind ?_ ?_
  · rintro a s₁ ⟨reports, asked, hrecorder, hcallbacks, hQ⟩
    refine (hok a reports asked _ hQ s₁ rfl).mono ?_
    rintro r s₂ ⟨reports', asked', hrecorder', hcallbacks', hR⟩
    refine ⟨reports ++ reports', asked ++ asked', ?_, ?_, hR⟩
    · rw [List.foldl_append, ← hrecorder, hrecorder']
    · rw [hcallbacks', hcallbacks, List.append_assoc]
  · rintro e s₁ ⟨reports, asked, hrecorder, hcallbacks, hQ⟩
    exact ⟨reports, asked, hrecorder, hcallbacks, herr e reports asked _ hQ⟩

/-- A first part that neither reports nor asks anything and cannot fail. -/
theorem after {a : α} {c' : Cache} (h : m.Does c fun r reports asked c'' =>
      r = .ok a ∧ reports = [] ∧ asked = [] ∧ c'' = c')
    (hf : (f a).Does c' R) : Does (m >>= f) c R := by
  refine h.bind ?_ ?_
  · rintro b reports asked c'' ⟨hb, rfl, rfl, rfl⟩
    obtain rfl := Except.ok.inj hb
    simpa using hf
  · rintro e reports asked c'' ⟨he, _⟩
    cases he

theorem map {g : α → β} (h : m.Does c fun r => R (r.map g)) : Does (g <$> m) c R := by
  intro s hs
  exact (h s hs).map

theorem outcome {Q : Except PredictionError (Except PredictionError α) → List Report →
    List Callback → Cache → Prop} (h : m.Does c fun r => Q (.ok r)) :
    Does (Run.outcome m) c Q := by
  intro s hs
  exact (h s hs).outcome

/-- Reading the session, of which only the cache counts. -/
theorem get_bind {f : Session → Prediction β} (h : ∀ s, s.cache = c → (f s).Does c R) :
    Does (get >>= f) c R := by
  intro s hs
  obtain ⟨r, s', hrun, hR⟩ := h s hs s hs
  exact ⟨r, s', by rw [Run.from?_bind, Run.from?_get]; exact hrun, hR⟩

/-! ## Small parts -/

theorem count {q : Question} {g : DecisionStats → DecisionStats} :
    (Prediction.count q g).Does c fun r reports asked c' =>
      r = .ok ⟨⟩ ∧ reports = [] ∧ asked = [] ∧ c' = c :=
  of_silent ⟨rfl, rfl, rfl, rfl⟩ fun s hs => ⟨s.count q.decision g, rfl, hs, rfl, rfl⟩

theorem note {e : Event} :
    (Prediction.note e).Does c fun r reports asked c' =>
      r = .ok ⟨⟩ ∧ reports = [] ∧ asked = [] ∧ c' = c :=
  of_silent ⟨rfl, rfl, rfl, rfl⟩ fun s hs => ⟨s.note e, rfl, hs, rfl, rfl⟩

theorem table {q : Question} :
    (Prediction.table q).Does c fun r reports asked c' =>
      r = .ok (c.table q.decision) ∧ reports = [] ∧ asked = [] ∧ c' = c :=
  of_silent ⟨rfl, rfl, rfl, rfl⟩ fun s hs => ⟨s, by rw [← hs]; rfl, hs, rfl, rfl⟩

theorem setTable {q : Question} {t : Table} :
    (Prediction.setTable q t).Does c fun r reports asked c' =>
      r = .ok ⟨⟩ ∧ reports = [] ∧ asked = [] ∧ c' = c.setTable q.decision t :=
  of_silent ⟨rfl, rfl, rfl, rfl⟩ fun s hs =>
    ⟨{ s with cache := s.cache.setTable q.decision t }, rfl, by rw [← hs], rfl, rfl⟩

theorem deliver {report : Report} :
    Does (modify (·.deliver report)) c fun r reports asked c' =>
      r = .ok ⟨⟩ ∧ reports = [report] ∧ asked = [] ∧ c' = c := by
  intro s hs
  exact .of_eq (r := .ok ⟨⟩) (t := s.deliver report) rfl
    ⟨[report], [], s.deliver_recorder report, by simp, rfl, rfl, rfl, by simpa using hs⟩

/-- Putting a guard to the host. What a host answers may depend on the session, unless its answers
never change. -/
theorem holds {q : Question} {g : Guard} :
    (Prediction.holds q g).Does c fun r reports asked c' =>
      (∃ b, r = .ok b) ∧ reports = [] ∧ c' = c ∧ (q.host.Steady →
        r = .ok (g.holds q.host.now q.start) ∧ asked = g.asked q.host.now q.start) := by
  intro s hs
  refine .of_eq (r := .ok (g.put q.host q.start s.callbacks).1) rfl
    ⟨[], (g.put q.host q.start s.callbacks).2, rfl, rfl, ⟨_, rfl⟩, rfl, hs, fun hhost => ?_⟩
  rw [Guard.put_of_steady hhost]
  exact ⟨rfl, rfl⟩

/-- Following configurations extends the graph of stacks. -/
theorem probe {q : Question} {p : Probe α}
    (h : ∀ past, p.Yields { graph := c.graph, past } fun r t =>
      Q (r.mapError .exceeded) [] t.asked { c with graph := t.graph }) :
    (Prediction.probe q p).Does c Q := by
  intro s hs
  obtain ⟨r, t, hrun, hQ⟩ := h s.callbacks
  obtain ⟨hcache, hrecorder, hcallbacks⟩ := s.absorb_eq q t
  refine .of_eq (r := r.mapError .exceeded) (t := s.absorb q t) ?_
    ⟨[], t.asked, hrecorder, hcallbacks, by rwa [hcache, hs]⟩
  rw [from?_probe, hs, hrun]
  rfl

/-- **The rule of the loop.** A round that does not end it is silent. -/
theorem loop {step : α → Prediction (α ⊕ β)} (I : α → Cache → Prop) (μ : α → Nat)
    (hstep : ∀ a c, I a c → (step a).Does c fun r reports asked c' =>
      match r with
      | .ok (.inl a') => reports = [] ∧ asked = [] ∧ I a' c' ∧ μ a' < μ a
      | .ok (.inr b) => R (.ok b) reports asked c'
      | .error e => R (.error e) reports asked c')
    {fuel : Nat} {a : α} (hI : I a c) (hfuel : μ a < fuel) : Does (Run.loop step fuel a) c R := by
  intro s hs
  refine Run.Yields.loop (fun a s' => I a s'.cache ∧ s'.recorder = s.recorder ∧
    s'.callbacks = s.callbacks) (fun a _ => μ a) ?_ ⟨by rwa [hs], rfl, rfl⟩ hfuel
  rintro a s₁ ⟨hI₁, hrecorder, hcallbacks⟩
  refine (hstep a s₁.cache hI₁ s₁ rfl).mono ?_
  rintro (e | (a' | b)) s₂ ⟨reports, asked, hrecorder', hcallbacks', hr⟩
  · exact ⟨reports, asked, by rw [hrecorder', hrecorder], by rw [hcallbacks', hcallbacks], hr⟩
  · obtain ⟨rfl, rfl, hI₂, hlt⟩ := hr
    refine ⟨⟨hI₂, by rw [hrecorder', hrecorder]; rfl, ?_⟩, hlt⟩
    rw [hcallbacks', hcallbacks, List.append_nil]
  · exact ⟨reports, asked, by rw [hrecorder', hrecorder], by rw [hcallbacks', hcallbacks], hr⟩

end Does

end Prediction

end AdaptiveLL
