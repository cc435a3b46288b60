import AdaptiveLL.Proofs.Run
import Mathlib.Logic.Relation

/-!
# What runs ensure

`Run.Ensures m s Q` says of the run `m` from the state `s` that its answer and its last state
satisfy `Q`, if it comes to an end. Unlike `Run.Yields` it asks for no end, so the rule of the loop
needs an invariant but no measure, and what is proved with these rules holds whatever the fuel is.
`Run.Untouched view m P` says that `m` leaves what `view` shows of the state as it is, and
`Run.FailsWith m P` speaks of failures alone. `Run.Alike m m' s Q` says that two runs come to the
same, and its rule of the loop tells how many rounds a loop can do without.
`Run.Rounds step` are the rounds of a loop, and a loop that succeeds has come through all of them.
-/

namespace AdaptiveLL

namespace Run

variable {ε σ τ α β : Type}

/-- **Where the run ends,** its answer and its last state satisfy `Q`. -/
def Ensures (m : Run ε σ α) (s : σ) (Q : Except ε α → σ → Prop) : Prop :=
  ∀ r s', m.from? s = some (r, s') → Q r s'

namespace Ensures

variable {m : Run ε σ α} {f : α → Run ε σ β} {s : σ} {Q Q' : Except ε α → σ → Prop}
  {R : Except ε β → σ → Prop}

theorem of_eq {r : Except ε α} {t : σ} (h : m.from? s = some (r, t)) (hQ : Q r t) :
    m.Ensures s Q := by
  intro r' t' hrun
  obtain ⟨rfl, rfl⟩ : r = r' ∧ t = t' := by simpa using h.symm.trans hrun
  exact hQ

theorem mono (h : m.Ensures s Q) (himp : ∀ r s', Q r s' → Q' r s') : m.Ensures s Q' :=
  fun r s' hrun => himp r s' (h r s' hrun)

theorem and (h : m.Ensures s Q) (h' : m.Ensures s Q') :
    m.Ensures s fun r s' => Q r s' ∧ Q' r s' :=
  fun r s' hrun => ⟨h r s' hrun, h' r s' hrun⟩

theorem pure {a : α} (h : Q (.ok a) s) : (pure a : Run ε σ α).Ensures s Q := of_eq rfl h

theorem throw {e : ε} (h : Q (.error e) s) : (throw e : Run ε σ α).Ensures s Q := of_eq rfl h

/-- Two parts in a row: the second one begins where the first one succeeded. -/
theorem bind (h : m.Ensures s Q) (hok : ∀ a s', Q (.ok a) s' → (f a).Ensures s' R)
    (herr : ∀ e s', Q (.error e) s' → R (.error e) s') : (m >>= f).Ensures s R := by
  intro r s' hrun
  rw [from?_bind] at hrun
  obtain ⟨⟨r₁, s₁⟩, hm, hrest⟩ := Option.bind_eq_some_iff.mp hrun
  cases r₁ with
  | error e =>
    obtain ⟨rfl, rfl⟩ : .error e = r ∧ s₁ = s' := by simpa using hrest
    exact herr e s₁ (h _ _ hm)
  | ok a => exact hok a s₁ (h _ _ hm) r s' hrest

theorem get_bind {f : σ → Run ε σ β} (h : (f s).Ensures s R) :
    (MonadState.get >>= f).Ensures s R := by
  intro r s' hrun
  rw [from?_bind] at hrun
  exact h r s' hrun

theorem set_bind {s₁ : σ} {f : PUnit → Run ε σ β} (h : (f ⟨⟩).Ensures s₁ R) :
    (MonadStateOf.set s₁ >>= f).Ensures s R := by
  intro r s' hrun
  rw [from?_bind] at hrun
  exact h r s' hrun

theorem modify_bind {g : σ → σ} {f : PUnit → Run ε σ β} (h : (f ⟨⟩).Ensures (g s) R) :
    (modifyThe σ g >>= f).Ensures s R := by
  intro r s' hrun
  rw [from?_bind] at hrun
  exact h r s' hrun

/-- The outcome of a run never fails. -/
theorem outcome {Q : Except ε (Except ε α) → σ → Prop}
    (h : m.Ensures s fun r s' => Q (.ok r) s') : m.outcome.Ensures s Q := by
  intro r s' hrun
  rw [from?_outcome] at hrun
  obtain ⟨⟨r₁, s₁⟩, hm, heq⟩ := Option.map_eq_some_iff.mp hrun
  obtain ⟨rfl, rfl⟩ : .ok r₁ = r ∧ s₁ = s' := by simpa using heq
  exact h _ _ hm

theorem zoom {get : τ → σ} {set : σ → τ → τ} {t : τ} {Q : Except ε α → τ → Prop}
    (h : m.Ensures (get t) fun r s' => Q r (set s' t)) : (m.zoom get set).Ensures t Q := by
  intro r t' hrun
  rw [from?_zoom] at hrun
  obtain ⟨⟨r₁, s₁⟩, hm, heq⟩ := Option.map_eq_some_iff.mp hrun
  obtain ⟨rfl, rfl⟩ : r₁ = r ∧ set s₁ t = t' := by simpa using heq
  exact h _ _ hm

/-- **The rule of the loop.** The invariant `I` holds before every round. -/
theorem loop {step : α → Run ε σ (α ⊕ β)} (I : α → σ → Prop)
    (hstep : ∀ a s, I a s → (step a).Ensures s fun r s' =>
      match r with
      | .ok (.inl a') => I a' s'
      | .ok (.inr b) => R (.ok b) s'
      | .error e => R (.error e) s')
    {fuel : Nat} {a : α} {s : σ} (hI : I a s) : (Run.loop step fuel a).Ensures s R := by
  induction fuel generalizing a s with
  | zero =>
    intro r s' hrun
    cases hrun
  | succ fuel ih =>
    rw [Run.loop]
    refine (hstep a s hI).bind (fun next s' hnext => ?_) fun e s' he => he
    cases next with
    | inl a' => exact ih hnext
    | inr b => exact .pure hnext

/-- A loop keeps what its rounds keep. -/
theorem loop_keeps {step : α → Run ε σ (α ⊕ β)} {I : σ → Prop}
    (hstep : ∀ a s, I s → (step a).Ensures s fun _ s' => I s') {fuel : Nat} {a : α} (h : I s) :
    (Run.loop step fuel a).Ensures s fun _ s' => I s' := by
  refine .loop (fun _ s' => I s') (fun a s hI => (hstep a s hI).mono fun r s' hI' => ?_) h
  rcases r with e | (a' | b) <;> exact hI'

end Ensures

/-! ## What runs leave as it is -/

/-- **A run that leaves a part of the state as it is.** What it answers satisfies `P`. -/
def Untouched (view : σ → τ) (m : Run ε σ α) (P : α → Prop) : Prop :=
  ∀ s, m.Ensures s fun r t => view t = view s ∧ ∀ a, r = .ok a → P a

namespace Untouched

variable {view : σ → τ} {m : Run ε σ α} {f : α → Run ε σ β} {P : α → Prop} {R : β → Prop}

theorem pure {a : α} (h : P a) : Untouched view (pure a : Run ε σ α) P :=
  fun _ => .pure ⟨rfl, fun _ hb => Except.ok.inj hb ▸ h⟩

theorem throw {e : ε} : Untouched view (throw e : Run ε σ α) P := fun _ => .throw ⟨rfl, nofun⟩

theorem mono {P' : α → Prop} (h : Untouched view m P) (himp : ∀ a, P a → P' a) :
    Untouched view m P' :=
  fun s => (h s).mono fun _ _ ⟨ht, ha⟩ => ⟨ht, fun a hr => himp a (ha a hr)⟩

theorem bind (h : Untouched view m P) (hf : ∀ a, P a → Untouched view (f a) R) :
    Untouched view (m >>= f) R := by
  intro s
  refine (h s).bind (fun a t ⟨ht, ha⟩ => ?_) fun e t ⟨ht, _⟩ => ⟨ht, nofun⟩
  exact (hf a (ha a rfl) t).mono fun _ _ ⟨hu, hb⟩ => ⟨hu.trans ht, hb⟩

theorem map {g : α → β} (h : Untouched view m fun a => R (g a)) : Untouched view (g <$> m) R := by
  rw [← bind_pure_comp]
  exact h.bind fun a ha => .pure ha

theorem get_bind {f : σ → Run ε σ β} (h : ∀ s, Untouched view (f s) R) :
    Untouched view (MonadState.get >>= f) R :=
  fun s => (h s s).get_bind

theorem modify {g : σ → σ} {P : PUnit → Prop} (hg : ∀ s, view (g s) = view s) (h : P ⟨⟩) :
    Untouched view (modifyThe σ g : Run ε σ PUnit) P :=
  fun s => .of_eq (Run.from?_modify g s) ⟨hg s, fun _ _ => h⟩

theorem foldlM {g : β → α → Run ε σ β} {l : List α}
    (hg : ∀ a ∈ l, ∀ b, R b → Untouched view (g b a) R) {b : β} (hb : R b) :
    Untouched view (l.foldlM g b) R := by
  induction l generalizing b with
  | nil => exact .pure hb
  | cons a l ih =>
    rw [List.foldlM_cons]
    exact (hg a List.mem_cons_self b hb).bind fun b' hb' =>
      ih (fun a' ha' => hg a' (List.mem_cons_of_mem _ ha')) hb'

/-- A loop leaves as it is what its rounds do. -/
theorem loop {step : α → Run ε σ (α ⊕ β)} (hstep : ∀ a, Untouched view (step a) fun _ => True)
    {fuel : Nat} {a : α} : Untouched view (Run.loop step fuel a) fun _ => True := by
  intro s
  refine .loop (fun _ t => view t = view s) (fun a t ht => ?_) rfl
  refine (hstep a t).mono ?_
  rintro (e | (a' | b)) u ⟨hu, -⟩
  · exact ⟨hu.trans ht, nofun⟩
  · exact hu.trans ht
  · exact ⟨hu.trans ht, fun _ _ => trivial⟩

end Untouched

/-- A first part that leaves what `view` shows as it is. -/
theorem Ensures.after {m : Run ε σ α} {f : α → Run ε σ β} {s : σ} {P : α → Prop}
    {R : Except ε β → σ → Prop} (view : σ → τ) (h : Untouched view m P)
    (hf : ∀ a t, view t = view s → (f a).Ensures t R)
    (herr : ∀ e t, view t = view s → R (.error e) t) : (m >>= f).Ensures s R :=
  (h s).bind (fun a t ⟨ht, _⟩ => hf a t ht) fun e t ⟨ht, _⟩ => herr e t ht

/-! ## What runs fail with -/

/-- **What a run fails with,** and the state in which it does, satisfy `P`. -/
def FailsWith (m : Run ε σ α) (P : ε → σ → Prop) : Prop :=
  ∀ s, m.Ensures s fun r s' => ∀ e, r = .error e → P e s'

namespace FailsWith

variable {m : Run ε σ α} {f : α → Run ε σ β} {P : ε → σ → Prop}

theorem pure {a : α} : FailsWith (pure a : Run ε σ α) P := fun _ => .pure nofun

theorem bind (h : FailsWith m P) (hf : ∀ a, FailsWith (f a) P) : FailsWith (m >>= f) P :=
  fun s => (h s).bind (fun a t _ => hf a t) fun _ _ he _ heq =>
    he _ (congrArg _ (Except.error.inj heq))

theorem get_bind {f : σ → Run ε σ β} (h : ∀ s, FailsWith (f s) P) :
    FailsWith (MonadState.get >>= f) P :=
  fun s => (h s s).get_bind

theorem modify {g : σ → σ} : FailsWith (modifyThe σ g : Run ε σ PUnit) P :=
  fun s => .of_eq (Run.from?_modify g s) nofun

theorem ite {c : Prop} [Decidable c] {m' : Run ε σ α} (h : FailsWith m P) (h' : FailsWith m' P) :
    FailsWith (if c then m else m') P := by
  split
  · exact h
  · exact h'

/-- What a part fails with is told by the part that it works on. -/
theorem zoom {get : τ → σ} {set : σ → τ → τ} {R : ε → τ → Prop} (h : FailsWith m P)
    (hR : ∀ e s t, P e s → R e (set s t)) : FailsWith (m.zoom get set) R :=
  fun t => .zoom ((h (get t)).mono fun _ _ he e heq => hR e _ t (he e heq))

theorem foldlM {g : β → α → Run ε σ β} (hg : ∀ b a, FailsWith (g b a) P) (l : List α) (b : β) :
    FailsWith (l.foldlM g b) P := by
  induction l generalizing b with
  | nil => exact .pure
  | cons a l ih =>
    rw [List.foldlM_cons]
    exact (hg b a).bind fun b' => ih b'

theorem loop {step : α → Run ε σ (α ⊕ β)} (hstep : ∀ a, FailsWith (step a) P) (fuel : Nat)
    (a : α) : FailsWith (Run.loop step fuel a) P := by
  intro s
  refine .loop (fun _ _ => True) (fun a t _ => (hstep a t).mono ?_) trivial
  rintro (e | (a' | b)) u he
  · exact fun _ heq => he _ (congrArg _ (Except.error.inj heq))
  · trivial
  · exact nofun

end FailsWith

/-! ## Runs that come to the same -/

/-- What a run yields it ensures. -/
theorem Yields.ensures {m : Run ε σ α} {s : σ} {Q : Except ε α → σ → Prop} (h : m.Yields s Q) :
    m.Ensures s Q :=
  fun _ _ hrun => h.apply hrun

/-- Two runs with the same first part come to the same if what follows does. -/
theorem from?_bind_congr {m : Run ε σ α} {f f' : α → Run ε σ β} {s : σ}
    (h : m.Ensures s fun r s' => ∀ a, r = .ok a → (f a).from? s' = (f' a).from? s') :
    (m >>= f).from? s = (m >>= f').from? s := by
  rw [from?_bind, from?_bind]
  cases hrun : m.from? s with
  | none => rfl
  | some x =>
    obtain ⟨r, s'⟩ := x
    cases r with
    | error e => rfl
    | ok a => exact h _ _ hrun a rfl

/-- **Rounds to spare do not matter.** If every round that is followed by another one lowers a
measure, loops whose rounds come to the same come to the same themselves, as soon as both may make
more rounds than the measure says. -/
theorem loop_congr {step step' : α → Run ε σ (α ⊕ β)} (I : α → σ → Prop) (μ : α → Nat)
    (hsame : ∀ a s, I a s → (step a).from? s = (step' a).from? s)
    (hstep : ∀ a s, I a s → (step a).Ensures s fun r s' =>
      ∀ a', r = .ok (.inl a') → I a' s' ∧ μ a' < μ a)
    {rounds rounds' : Nat} {a : α} {s : σ} (hI : I a s) (h : μ a < rounds) (h' : μ a < rounds') :
    (loop step rounds a).from? s = (loop step' rounds' a).from? s := by
  induction rounds generalizing rounds' a s with
  | zero => omega
  | succ rounds ih =>
    obtain ⟨rounds', rfl⟩ := Nat.exists_eq_succ_of_ne_zero (by omega : rounds' ≠ 0)
    rw [from?_loop_succ, from?_loop_succ, ← hsame a s hI]
    cases hrun : (step a).from? s with
    | none => rfl
    | some x =>
      obtain ⟨r, s'⟩ := x
      rcases r with e | (a' | b)
      · rfl
      · obtain ⟨hI', hlt⟩ := hstep a s hI _ _ hrun a' rfl
        exact ih hI' (by omega) (by omega)
      · rfl

/-- **Two runs come to the same,** and their answer and their last state satisfy `Q`. -/
def Alike (m m' : Run ε σ α) (s : σ) (Q : Except ε α → σ → Prop) : Prop :=
  m.from? s = m'.from? s ∧ m.Yields s Q

namespace Alike

variable {m m' : Run ε σ α} {f f' : α → Run ε σ β} {s : σ} {Q Q' : Except ε α → σ → Prop}
  {R : Except ε β → σ → Prop}

theorem refl (h : m.Yields s Q) : m.Alike m s Q := ⟨rfl, h⟩

theorem mono (h : m.Alike m' s Q) (himp : ∀ r s', Q r s' → Q' r s') : m.Alike m' s Q' :=
  ⟨h.1, h.2.mono himp⟩

theorem bind (h : m.Alike m' s Q) (hok : ∀ a s', Q (.ok a) s' → (f a).Alike (f' a) s' R)
    (herr : ∀ e s', Q (.error e) s' → R (.error e) s') : (m >>= f).Alike (m' >>= f') s R := by
  constructor
  · rw [from?_bind m' f', ← h.1, ← from?_bind m f']
    exact from?_bind_congr (h.2.ensures.mono fun r s' hQ a ha => (hok a s' (ha ▸ hQ)).1)
  · exact h.2.bind (fun a s' hQ => (hok a s' hQ).2) herr

theorem get_bind {f f' : σ → Run ε σ β} (h : (f s).Alike (f' s) s R) :
    (MonadState.get >>= f).Alike (MonadState.get >>= f') s R :=
  ⟨h.1, .get_bind h.2⟩

theorem modify_bind {g : σ → σ} {f f' : PUnit → Run ε σ β} (h : (f ⟨⟩).Alike (f' ⟨⟩) (g s) R) :
    (modifyThe σ g >>= f).Alike (modifyThe σ g >>= f') s R :=
  ⟨h.1, .modify_bind h.2⟩

theorem map {g : α → β} (h : m.Alike m' s fun r s' => R (r.map g) s') :
    (g <$> m).Alike (g <$> m') s R :=
  ⟨by rw [from?_map, from?_map, h.1], .map h.2⟩

theorem outcome {Q : Except ε (Except ε α) → σ → Prop}
    (h : m.Alike m' s fun r s' => Q (.ok r) s') : m.outcome.Alike m'.outcome s Q :=
  ⟨by rw [from?_outcome, from?_outcome, h.1], .outcome h.2⟩

/-- **The rule of the loop,** for loops that may both make more rounds than the measure says. -/
theorem loop {step step' : α → Run ε σ (α ⊕ β)} (I : α → σ → Prop) (μ : α → Nat)
    (hstep : ∀ a s, I a s → (step a).Alike (step' a) s fun r s' =>
      match r with
      | .ok (.inl a') => I a' s' ∧ μ a' < μ a
      | .ok (.inr b) => R (.ok b) s'
      | .error e => R (.error e) s')
    {rounds rounds' : Nat} {a : α} (hI : I a s) (h : μ a < rounds) (h' : μ a < rounds') :
    (Run.loop step rounds a).Alike (Run.loop step' rounds' a) s R := by
  refine ⟨loop_congr I μ (fun a s hI => (hstep a s hI).1) (fun a s hI => ?_) hI h h',
    .loop I (fun a _ => μ a) (fun a s hI => (hstep a s hI).2) hI h⟩
  refine (hstep a s hI).2.ensures.mono ?_
  rintro r s' hr a' rfl
  exact hr

end Alike

/-! ## Rounds -/

/-- **A round of a loop** that is followed by another one. -/
def Rounds (step : α → Run ε σ (α ⊕ β)) (x y : α × σ) : Prop :=
  (step x.1).from? x.2 = some (.ok (.inl y.1), y.2)

variable {step : α → Run ε σ (α ⊕ β)}

/-- A loop that succeeds has a last round. -/
theorem exists_last_round {fuel : Nat} {a : α} {s s' : σ} {b : β}
    (h : (loop step fuel a).from? s = some (.ok b, s')) :
    ∃ x, Relation.ReflTransGen (Rounds step) (a, s) x ∧
      (step x.1).from? x.2 = some (.ok (.inr b), s') := by
  induction fuel generalizing a s with
  | zero => cases h
  | succ fuel ih =>
    rw [from?_loop_succ] at h
    obtain ⟨⟨r, t⟩, hstep, h⟩ := Option.bind_eq_some_iff.mp h
    rcases r with e | (a' | b')
    · cases h
    · obtain ⟨x, hx, hlast⟩ := ih h
      have hround : Rounds step (a, s) (a', t) := hstep
      exact ⟨x, .head hround hx, hlast⟩
    · obtain ⟨rfl, rfl⟩ : b' = b ∧ t = s' := by simpa using h
      exact ⟨_, .refl, hstep⟩

/-- **Every round that a loop comes to comes before the last one.** -/
theorem rounds_to_last {x y z : α × σ} {b : β} {s : σ}
    (hy : Relation.ReflTransGen (Rounds step) x y) (hz : Relation.ReflTransGen (Rounds step) x z)
    (hlast : (step z.1).from? z.2 = some (.ok (.inr b), s)) :
    Relation.ReflTransGen (Rounds step) y z := by
  have hunique : Relator.RightUnique (Rounds step) := by
    rintro x y z hy hz
    obtain ⟨hr, hs⟩ := Prod.mk.inj (Option.some.inj (Eq.trans (Eq.symm hy) hz))
    exact Prod.ext (Sum.inl.inj (Except.ok.inj hr)) hs
  rcases Relation.ReflTransGen.total_of_right_unique hunique hy hz with h | h
  · exact h
  · -- Nothing follows the last round.
    rcases h.cases_head with rfl | ⟨u, hu, -⟩
    · exact .refl
    · cases hlast.symm.trans hu

end Run

end AdaptiveLL
