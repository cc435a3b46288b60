import AdaptiveLL.Proofs.Run
import Mathlib.Data.List.Forall2
import Mathlib.Data.Sum.Order

/-!
# Runs in step

`Run.InStep R m m'` compares two runs that work on different data: from each state they do the same
to it and come to answers that are related by `R`. The rules follow the way in which runs are put
together, so a proof that two runs are in step goes along their definition.

`Run.Respects K R m` compares one run with itself: from states that are related by `R` it comes to
one answer and to states that are related again, and no step changes what `K` compares. Its rules
are those of `Run.InStep`, but a run that reads its state must go on alike from related states.
-/

namespace AdaptiveLL

namespace Run

variable {ε σ τ α β γ δ : Type}

/-- **Two runs in step:** from each state both succeed with related answers, or both fail with one
error, and end in one state, or neither of them ends. -/
def InStep (R : α → β → Prop) (m : Run ε σ α) (m' : Run ε σ β) : Prop :=
  ∀ s, (m.from? s = none ∧ m'.from? s = none) ∨
    (∃ a b t, m.from? s = some (.ok a, t) ∧ m'.from? s = some (.ok b, t) ∧ R a b) ∨
      ∃ e t, m.from? s = some (.error e, t) ∧ m'.from? s = some (.error e, t)

namespace InStep

variable {R R' : α → β → Prop} {S : γ → δ → Prop} {m : Run ε σ α} {m' : Run ε σ β}
  {f : α → Run ε σ γ} {f' : β → Run ε σ δ}

theorem pure {a : α} {b : β} (h : R a b) : InStep R (pure a : Run ε σ α) (pure b) :=
  fun s => .inr (.inl ⟨a, b, s, rfl, rfl, h⟩)

theorem throw (e : ε) : InStep R (throw e : Run ε σ α) (throw e) :=
  fun s => .inr (.inr ⟨e, s, rfl, rfl⟩)

/-- A run is in step with itself. -/
theorem refl (m : Run ε σ α) : InStep Eq m m := by
  intro s
  cases hm : m.from? s with
  | none => exact .inl ⟨rfl, rfl⟩
  | some x =>
    obtain ⟨r, t⟩ := x
    cases r with
    | error e => exact .inr (.inr ⟨e, t, rfl, rfl⟩)
    | ok a => exact .inr (.inl ⟨a, a, t, rfl, rfl, rfl⟩)

/-- Runs that are in step with equal answers are one. -/
theorem eq {m m' : Run ε σ α} (h : InStep Eq m m') : m = m' := by
  funext s
  change m.from? s = m'.from? s
  rcases h s with ⟨hm, hm'⟩ | ⟨a, b, t, hm, hm', rfl⟩ | ⟨e, t, hm, hm'⟩
  all_goals rw [hm, hm']

theorem mono (h : InStep R m m') (himp : ∀ a b, R a b → R' a b) : InStep R' m m' := by
  intro s
  refine (h s).imp_right (Or.imp_left ?_)
  rintro ⟨a, b, t, hm, hm', hab⟩
  exact ⟨a, b, t, hm, hm', himp a b hab⟩

theorem bind (h : InStep R m m') (hf : ∀ a b, R a b → InStep S (f a) (f' b)) :
    InStep S (m >>= f) (m' >>= f') := by
  intro s
  rw [from?_bind, from?_bind]
  rcases h s with ⟨hm, hm'⟩ | ⟨a, b, t, hm, hm', hab⟩ | ⟨e, t, hm, hm'⟩
  · rw [hm, hm']
    exact .inl ⟨rfl, rfl⟩
  · rw [hm, hm']
    exact hf a b hab t
  · rw [hm, hm']
    exact .inr (.inr ⟨e, t, rfl, rfl⟩)

/-- One first part. -/
theorem after {m : Run ε σ τ} {f : τ → Run ε σ γ} {f' : τ → Run ε σ δ}
    (hf : ∀ a, InStep S (f a) (f' a)) : InStep S (m >>= f) (m >>= f') :=
  (refl m).bind fun a _ hab => hab ▸ hf a

theorem ite {c : Prop} [Decidable c] {n : Run ε σ α} {n' : Run ε σ β} (h : c → InStep R m m')
    (h' : ¬c → InStep R n n') : InStep R (if c then m else n) (if c then m' else n') := by
  split
  · next hc => exact h hc
  · next hc => exact h' hc

theorem zoom {get : τ → σ} {set : σ → τ → τ} (h : InStep R m m') :
    InStep R (m.zoom get set) (m'.zoom get set) := by
  intro t
  rw [from?_zoom, from?_zoom]
  rcases h (get t) with ⟨hm, hm'⟩ | ⟨a, b, s, hm, hm', hab⟩ | ⟨e, s, hm, hm'⟩
  · rw [hm, hm']
    exact .inl ⟨rfl, rfl⟩
  · rw [hm, hm']
    exact .inr (.inl ⟨a, b, set s t, rfl, rfl, hab⟩)
  · rw [hm, hm']
    exact .inr (.inr ⟨e, set s t, rfl, rfl⟩)

theorem foldlM {P : γ → δ → Prop} {g : α → γ → Run ε σ α} {g' : β → δ → Run ε σ β}
    (hg : ∀ a b x y, R a b → P x y → InStep R (g a x) (g' b y)) {l : List γ} {l' : List δ}
    (hl : List.Forall₂ P l l') {a : α} {b : β} (hab : R a b) :
    InStep R (l.foldlM g a) (l'.foldlM g' b) := by
  induction hl generalizing a b with
  | nil => exact .pure hab
  | cons hx _ ih =>
    rw [List.foldlM_cons, List.foldlM_cons]
    exact (hg _ _ _ _ hab hx).bind fun _ _ hab' => ih hab'

/-- A walk through one list. -/
theorem foldlM_same {g : α → γ → Run ε σ α} {g' : β → γ → Run ε σ β} {l : List γ}
    (hg : ∀ a b x, R a b → InStep R (g a x) (g' b x)) {a : α} {b : β} (hab : R a b) :
    InStep R (l.foldlM g a) (l.foldlM g' b) :=
  foldlM (P := Eq) (fun a b x _ hab hx => hx ▸ hg a b x hab) (List.forall₂_refl l) hab

theorem loop {step : α → Run ε σ (α ⊕ γ)} {step' : β → Run ε σ (β ⊕ δ)}
    (hstep : ∀ a b, R a b → InStep (Sum.LiftRel R S) (step a) (step' b)) (fuel : Nat) {a : α} {b : β}
    (hab : R a b) : InStep S (Run.loop step fuel a) (Run.loop step' fuel b) := by
  induction fuel generalizing a b with
  | zero => exact fun _ => .inl ⟨rfl, rfl⟩
  | succ fuel ih =>
    rw [Run.loop, Run.loop]
    refine (hstep a b hab).bind fun x y hxy => ?_
    cases hxy with
    | inl hab' => exact ih hab'
    | inr hcd => exact .pure hcd

end InStep

/-! ## One run from two states -/

/-- **A run that respects a relation:** from related states it comes to one answer and to related
states, and what `K` compares is kept. -/
def Respects (K R : σ → σ → Prop) (m : Run ε σ α) : Prop :=
  ∀ s s', R s s' → ∀ r t, m.from? s = some (r, t) → K s t ∧ ∃ t', m.from? s' = some (r, t') ∧ R t t'

namespace Respects

variable {K R : σ → σ → Prop} {m : Run ε σ α}

theorem map {g : α → β} (hm : Respects K R m) : Respects K R (g <$> m) := by
  intro s s' h r t hrun
  rw [from?_map] at hrun
  obtain ⟨⟨r₁, t₁⟩, hm₁, heq⟩ := Option.map_eq_some_iff.mp hrun
  obtain ⟨rfl, rfl⟩ := Prod.mk.inj heq
  obtain ⟨hkeeps, t₁', hm₁', hrel⟩ := hm s s' h r₁ t₁ hm₁
  exact ⟨hkeeps, t₁', by rw [from?_map, hm₁']; rfl, hrel⟩

theorem ite {c : Prop} [Decidable c] {m' : Run ε σ α} (h : Respects K R m) (h' : Respects K R m') :
    Respects K R (if c then m else m') := by
  split
  · exact h
  · exact h'

/-- Reading the state: what follows must be the same for related states. -/
theorem get_bind {f : σ → Run ε σ β} (heq : ∀ s s', R s s' → f s = f s')
    (hf : ∀ s, Respects K R (f s)) : Respects K R (get >>= f) := by
  intro s s' h r t hrun
  rw [from?_bind, from?_get] at hrun
  obtain ⟨hkeeps, t', hrun', hrel⟩ := hf s s s' h r t hrun
  refine ⟨hkeeps, t', ?_, hrel⟩
  rw [from?_bind, from?_get]
  change (f s').from? s' = _
  rwa [← heq s s' h]

/-- A step, given by where it leads from related states. -/
theorem of_step {g : σ → Except ε α × σ} (hm : ∀ s, m.from? s = some (g s))
    (h : ∀ s s', R s s' → K s (g s).2 ∧ (g s).1 = (g s').1 ∧ R (g s).2 (g s').2) :
    Respects K R m := by
  intro s s' hrel r t hrun
  obtain ⟨hkeeps, hanswer, hrel'⟩ := h s s' hrel
  obtain ⟨rfl, rfl⟩ := Prod.mk.inj (Option.some.inj ((hm s).symm.trans hrun))
  exact ⟨hkeeps, (g s').2, (hm s').trans (congrArg some (Prod.ext hanswer.symm rfl)), hrel'⟩

variable [IsPreorder σ K] {f : α → Run ε σ β}

theorem pure (a : α) : Respects K R (pure a : Run ε σ α) :=
  .of_step (fun _ => rfl) fun s _ h => ⟨refl_of K s, rfl, h⟩

theorem throw (e : ε) : Respects K R (throw e : Run ε σ α) :=
  .of_step (fun _ => rfl) fun s _ h => ⟨refl_of K s, rfl, h⟩

theorem bind (hm : Respects K R m) (hf : ∀ a, Respects K R (f a)) : Respects K R (m >>= f) := by
  intro s s' h r t hrun
  rw [from?_bind] at hrun
  obtain ⟨⟨r₁, t₁⟩, hm₁, hrest⟩ := Option.bind_eq_some_iff.mp hrun
  obtain ⟨hkeeps, t₁', hm₁', hrel⟩ := hm s s' h r₁ t₁ hm₁
  cases r₁ with
  | error e =>
    obtain ⟨rfl, rfl⟩ : .error e = r ∧ t₁ = t := by simpa using hrest
    exact ⟨hkeeps, t₁', from?_bind_of_error hm₁', hrel⟩
  | ok a =>
    obtain ⟨hkeeps', t', hrest', hrel'⟩ := hf a t₁ t₁' hrel r t hrest
    exact ⟨trans_of K hkeeps hkeeps', t', (from?_bind_of_ok hm₁').trans hrest', hrel'⟩

theorem foldlM {g : β → α → Run ε σ β} (h : ∀ b a, Respects K R (g b a)) (l : List α) (b : β) :
    Respects K R (l.foldlM g b) := by
  induction l generalizing b with
  | nil => exact .pure b
  | cons a l ih =>
    rw [List.foldlM_cons]
    exact (h b a).bind ih

theorem loop {step : α → Run ε σ (α ⊕ β)} (h : ∀ a, Respects K R (step a)) (fuel : Nat) (a : α) :
    Respects K R (Run.loop step fuel a) := by
  induction fuel generalizing a with
  | zero =>
    intro s s' _ r t hrun
    cases hrun
  | succ fuel ih =>
    rw [Run.loop]
    refine (h a).bind fun next => ?_
    cases next with
    | inl a' => exact ih a'
    | inr b => exact .pure b

end Respects

end Run

end AdaptiveLL
