import AdaptiveLL.Run

/-!
# How runs end

A run is judged by what it yields: `Run.Yields m s Q` says that the run `m` from the state `s` comes
to an end, within its fuel, and that its answer and its last state satisfy `Q`. The rules below
follow the way in which runs are put together. The rule of the loop asks for an invariant and for a
measure that every round lowers: a loop with more fuel than the measure ends.
-/

namespace AdaptiveLL

namespace Run

variable {ε σ τ α β : Type}

/-! ## Running a run -/

/-- Runs that end alike from every state are the same. -/
theorem eq_of_from? {m m' : Run ε σ α} (h : ∀ s, m.from? s = m'.from? s) : m = m' := funext h

@[simp] theorem from?_pure (a : α) (s : σ) : (pure a : Run ε σ α).from? s = some (.ok a, s) := rfl

@[simp] theorem from?_throw (e : ε) (s : σ) :
    (throw e : Run ε σ α).from? s = some (.error e, s) := rfl

@[simp] theorem from?_get (s : σ) : (get : Run ε σ σ).from? s = some (.ok s, s) := rfl

@[simp] theorem from?_set (s s' : σ) : (set s' : Run ε σ PUnit).from? s = some (.ok ⟨⟩, s') := rfl

@[simp] theorem from?_modify (f : σ → σ) (s : σ) :
    (modify f : Run ε σ PUnit).from? s = some (.ok ⟨⟩, f s) := rfl

@[simp] theorem from?_ofStep (f : σ → Except ε α × σ) (s : σ) :
    (ofStep f).from? s = some (f s) := rfl

@[simp] theorem from?_outcome (m : Run ε σ α) (s : σ) :
    m.outcome.from? s = (m.from? s).map fun (r, s) => (.ok r, s) := rfl

@[simp] theorem from?_zoom (get : τ → σ) (set : σ → τ → τ) (m : Run ε σ α) (t : τ) :
    (m.zoom get set).from? t = (m.from? (get t)).map fun (r, s) => (r, set s t) := rfl

/-- A run goes on from where its first part succeeded, and ends where that failed. -/
theorem from?_bind (m : Run ε σ α) (f : α → Run ε σ β) (s : σ) :
    (m >>= f).from? s = (m.from? s).bind fun (r, s) =>
      match r with
      | .ok a => (f a).from? s
      | .error e => some (.error e, s) := by
  change (ExceptT.run (m >>= f)).run s = _
  rw [ExceptT.run_bind, StateT.run_bind]
  unfold from?
  cases (ExceptT.run m).run s with
  | none => rfl
  | some p =>
    obtain ⟨r, s'⟩ := p
    cases r <;> rfl

theorem from?_bind_of_ok {m : Run ε σ α} {f : α → Run ε σ β} {s s' : σ} {a : α}
    (h : m.from? s = some (.ok a, s')) : (m >>= f).from? s = (f a).from? s' := by
  rw [from?_bind, h]
  rfl

theorem from?_bind_of_error {m : Run ε σ α} {f : α → Run ε σ β} {s s' : σ} {e : ε}
    (h : m.from? s = some (.error e, s')) : (m >>= f).from? s = some (.error e, s') := by
  rw [from?_bind, h]
  rfl

@[simp] theorem from?_map (f : α → β) (m : Run ε σ α) (s : σ) :
    (f <$> m).from? s = (m.from? s).map fun (r, s) => (r.map f, s) := by
  rw [← bind_pure_comp, from?_bind]
  cases m.from? s with
  | none => rfl
  | some p =>
    obtain ⟨r, s'⟩ := p
    cases r <;> rfl

theorem from?_loop_succ (step : α → Run ε σ (α ⊕ β)) (fuel : Nat) (a : α) (s : σ) :
    (loop step (fuel + 1) a).from? s = ((step a).from? s).bind fun (r, s) =>
      match r with
      | .ok (.inl a) => (loop step fuel a).from? s
      | .ok (.inr b) => some (.ok b, s)
      | .error e => some (.error e, s) := by
  rw [loop, from?_bind]
  cases (step a).from? s with
  | none => rfl
  | some p =>
    obtain ⟨r, s'⟩ := p
    cases r with
    | error e => rfl
    | ok r => cases r <;> rfl

/-- A loop goes on from its first round. -/
theorem from?_loop_of_round {step : α → Run ε σ (α ⊕ β)} {fuel : Nat} {a a' : α} {s s' : σ}
    (h : (step a).from? s = some (.ok (.inl a'), s')) :
    (loop step (fuel + 1) a).from? s = (loop step fuel a').from? s' := by
  rw [from?_loop_succ, h]
  rfl

/-- A loop fails where its first round fails. -/
theorem from?_loop_of_error {step : α → Run ε σ (α ⊕ β)} {fuel : Nat} {a : α} {s s' : σ} {e : ε}
    (h : (step a).from? s = some (.error e, s')) :
    (loop step (fuel + 1) a).from? s = some (.error e, s') := by
  rw [from?_loop_succ, h]
  rfl

/-- **A loop without end:** every round that comes to an end keeps the invariant and asks for another
one. -/
theorem loop_eq_none {step : α → Run ε σ (α ⊕ β)} (I : α → σ → Prop)
    (hstep : ∀ a s, I a s → ∀ r s', (step a).from? s = some (r, s') →
      ∃ a', r = .ok (.inl a') ∧ I a' s')
    (fuel : Nat) {a : α} {s : σ} (h : I a s) : (loop step fuel a).from? s = none := by
  induction fuel generalizing a s with
  | zero => rfl
  | succ fuel ih =>
    rw [from?_loop_succ]
    cases hrun : (step a).from? s with
    | none => rfl
    | some x =>
      obtain ⟨r, s'⟩ := x
      obtain ⟨a', rfl, hI⟩ := hstep a s h r s' hrun
      exact ih hI

/-! ## What a run yields -/

/-- **The run ends,** and its answer and its last state satisfy `Q`. -/
def Yields (m : Run ε σ α) (s : σ) (Q : Except ε α → σ → Prop) : Prop :=
  ∃ r s', m.from? s = some (r, s') ∧ Q r s'

namespace Yields

variable {m : Run ε σ α} {f : α → Run ε σ β} {s : σ} {Q Q' : Except ε α → σ → Prop}
  {R : Except ε β → σ → Prop}

theorem of_eq {r : Except ε α} {t : σ} (h : m.from? s = some (r, t)) (hQ : Q r t) :
    m.Yields s Q :=
  ⟨r, t, h, hQ⟩

theorem mono (h : m.Yields s Q) (himp : ∀ r s', Q r s' → Q' r s') : m.Yields s Q' := by
  obtain ⟨r, s', hrun, hQ⟩ := h
  exact ⟨r, s', hrun, himp r s' hQ⟩

/-- What a run yields is what it is seen to end with. -/
theorem apply (h : m.Yields s Q) {r : Except ε α} {s' : σ} (hrun : m.from? s = some (r, s')) :
    Q r s' := by
  obtain ⟨r₁, s₁, hrun₁, hQ⟩ := h
  obtain ⟨rfl, rfl⟩ : r₁ = r ∧ s₁ = s' := by simpa using hrun₁.symm.trans hrun
  exact hQ

theorem both (h : m.Yields s Q) (h' : m.Yields s Q') :
    m.Yields s fun r s' => Q r s' ∧ Q' r s' := by
  obtain ⟨r, s', hrun, hQ⟩ := h
  exact ⟨r, s', hrun, hQ, h'.apply hrun⟩

theorem pure {a : α} (h : Q (.ok a) s) : (pure a : Run ε σ α).Yields s Q :=
  ⟨_, _, rfl, h⟩

theorem throw {e : ε} (h : Q (.error e) s) : (throw e : Run ε σ α).Yields s Q :=
  ⟨_, _, rfl, h⟩

/-- Two parts in a row: the second one begins where the first one succeeded. -/
theorem bind (h : m.Yields s Q) (hok : ∀ a s', Q (.ok a) s' → (f a).Yields s' R)
    (herr : ∀ e s', Q (.error e) s' → R (.error e) s') : (m >>= f).Yields s R := by
  obtain ⟨r, s', hrun, hQ⟩ := h
  cases r with
  | error e => exact ⟨.error e, s', from?_bind_of_error hrun, herr e s' hQ⟩
  | ok a =>
    obtain ⟨r₂, s₂, hrun₂, hR⟩ := hok a s' hQ
    exact ⟨r₂, s₂, (from?_bind_of_ok hrun).trans hrun₂, hR⟩

theorem get_bind {f : σ → Run ε σ β} (h : (f s).Yields s R) :
    (MonadState.get >>= f).Yields s R := by
  obtain ⟨r, s', hrun, hR⟩ := h
  exact ⟨r, s', by rw [from?_bind]; exact hrun, hR⟩

theorem set_bind {s₁ : σ} {f : PUnit → Run ε σ β} (h : (f ⟨⟩).Yields s₁ R) :
    (MonadStateOf.set s₁ >>= f).Yields s R := by
  obtain ⟨r, s', hrun, hR⟩ := h
  exact ⟨r, s', by rw [from?_bind]; exact hrun, hR⟩

theorem modify_bind {g : σ → σ} {f : PUnit → Run ε σ β} (h : (f ⟨⟩).Yields (g s) R) :
    (modifyThe σ g >>= f).Yields s R := by
  obtain ⟨r, s', hrun, hR⟩ := h
  exact ⟨r, s', by rw [from?_bind]; exact hrun, hR⟩

theorem map {g : α → β} (h : m.Yields s fun r s' => R (r.map g) s') : (g <$> m).Yields s R := by
  obtain ⟨r, s', hrun, hR⟩ := h
  exact ⟨r.map g, s', by rw [from?_map, hrun]; rfl, hR⟩

theorem outcome {Q : Except ε (Except ε α) → σ → Prop} (h : m.Yields s fun r s' => Q (.ok r) s') :
    m.outcome.Yields s Q := by
  obtain ⟨r, s', hrun, hQ⟩ := h
  exact ⟨.ok r, s', by rw [from?_outcome, hrun]; rfl, hQ⟩

/-- **The rule of the loop.** The invariant `I` holds before every round, and every round that does
not end the loop lowers the measure. -/
theorem loop {step : α → Run ε σ (α ⊕ β)} (I : α → σ → Prop) (μ : α → σ → Nat)
    (hstep : ∀ a s, I a s → (step a).Yields s fun r s' =>
      match r with
      | .ok (.inl a') => I a' s' ∧ μ a' s' < μ a s
      | .ok (.inr b) => R (.ok b) s'
      | .error e => R (.error e) s')
    {fuel : Nat} {a : α} {s : σ} (hI : I a s) (hfuel : μ a s < fuel) :
    (Run.loop step fuel a).Yields s R := by
  induction fuel generalizing a s with
  | zero => omega
  | succ fuel ih =>
    obtain ⟨r, s', hrun, hr⟩ := hstep a s hI
    cases r with
    | error e => exact ⟨.error e, s', from?_loop_of_error hrun, hr⟩
    | ok r =>
      cases r with
      | inr b => exact ⟨.ok b, s', by rw [from?_loop_succ, hrun]; rfl, hr⟩
      | inl a' =>
        obtain ⟨hI', hlt⟩ := hr
        obtain ⟨r₂, s₂, hrun₂, hR⟩ := ih hI' (by omega)
        exact ⟨r₂, s₂, (from?_loop_of_round hrun).trans hrun₂, hR⟩

/-- **The rule of the loop with a count.** The invariant `I` speaks of the rounds that were made,
and there is a bound on how many can be. -/
theorem loop_counted {step : α → Run ε σ (α ⊕ β)} (I : Nat → α → σ → Prop) (bound : Nat)
    (hbound : ∀ n a s, I n a s → n ≤ bound)
    (hstep : ∀ n a s, I n a s → (step a).Yields s fun r s' =>
      match r with
      | .ok (.inl a') => I (n + 1) a' s'
      | .ok (.inr b) => R (.ok b) s'
      | .error e => R (.error e) s')
    {n fuel : Nat} {a : α} {s : σ} (hI : I n a s) (hfuel : bound < n + fuel) :
    (Run.loop step fuel a).Yields s R := by
  induction fuel generalizing n a s with
  | zero => exact absurd (hbound n a s hI) (Nat.not_le.mpr hfuel)
  | succ fuel ih =>
    obtain ⟨r, s', hrun, hr⟩ := hstep n a s hI
    match r with
    | .error e => exact ⟨.error e, s', from?_loop_of_error hrun, hr⟩
    | .ok (.inr b) => exact ⟨.ok b, s', by rw [from?_loop_succ, hrun]; rfl, hr⟩
    | .ok (.inl a') =>
      obtain ⟨r₂, s₂, hrun₂, hR⟩ := ih hr (by omega)
      exact ⟨r₂, s₂, (from?_loop_of_round hrun).trans hrun₂, hR⟩

end Yields

/-! ## What runs give -/

/-- **What a run gives,** where it gives anything. -/
def Gives (m : Run ε σ α) (Q : α → Prop) : Prop :=
  ∀ s a s', m.from? s = some (.ok a, s') → Q a

namespace Gives

variable {m : Run ε σ α} {f : α → Run ε σ β} {Q : α → Prop} {P : β → Prop}

theorem pure {a : α} (h : Q a) : Gives (pure a : Run ε σ α) Q := by
  intro s b s' hrun
  obtain ⟨rfl, rfl⟩ : a = b ∧ s = s' := by simpa using hrun
  exact h

theorem throw {e : ε} : Gives (throw e : Run ε σ α) Q := by
  intro s a s' hrun
  cases hrun

theorem bind (h : m.Gives Q) (hf : ∀ a, Q a → (f a).Gives P) : (m >>= f).Gives P := by
  intro s b s' hrun
  rw [from?_bind] at hrun
  obtain ⟨⟨r, t⟩, hm, hrest⟩ := Option.bind_eq_some_iff.mp hrun
  cases r with
  | error e => cases hrest
  | ok a => exact hf a (h s a t hm) t b s' hrest

/-- A first part of which nothing needs to be known. -/
theorem after (hf : ∀ a, (f a).Gives P) : (m >>= f).Gives P :=
  bind (Q := fun _ => True) (fun _ _ _ _ => trivial) fun a _ => hf a

theorem ite {c : Prop} [Decidable c] {m' : Run ε σ α} (h : m.Gives Q) (h' : m'.Gives Q) :
    Gives (if c then m else m') Q := by
  split
  · exact h
  · exact h'

theorem foldlM {g : β → α → Run ε σ β} {l : List α} (h : ∀ b, P b → ∀ a ∈ l, (g b a).Gives P)
    {b : β} (hb : P b) : Gives (l.foldlM g b) P := by
  induction l generalizing b with
  | nil => exact .pure hb
  | cons a l ih =>
    rw [List.foldlM_cons]
    refine bind (h b hb a List.mem_cons_self) fun b' hb' => ih (fun b hb a ha => ?_) hb'
    exact h b hb a (List.mem_cons_of_mem _ ha)

theorem loop {step : α → Run ε σ (α ⊕ β)}
    (h : ∀ a, Q a → (step a).Gives fun next => next.elim Q P) {fuel : Nat} {a : α} (ha : Q a) :
    (Run.loop step fuel a).Gives P := by
  induction fuel generalizing a with
  | zero =>
    intro s b s' hrun
    cases hrun
  | succ fuel ih =>
    rw [Run.loop]
    refine bind (h a ha) fun next hnext => ?_
    cases next with
    | inl a' => exact ih hnext
    | inr b => exact .pure hnext

end Gives

/-! ## Two runs side by side -/

/-- **Two runs side by side:** where both succeed, what they answer and where they end satisfy
`Q`, and where one of them fails beside the other, it fails with an error that satisfies `E`. Where
both fail with other errors, these satisfy `F`. -/
def Beside (m : Run ε σ α) (m' : Run ε σ β) (s s' : σ) (Q : α → σ → β → σ → Prop)
    (E : ε → Prop) (F : ε → ε → Prop := fun _ _ => True) : Prop :=
  ∀ r t r' t', m.from? s = some (r, t) → m'.from? s' = some (r', t') →
    match r, r' with
    | .ok a, .ok b => Q a t b t'
    | .ok _, .error e => E e
    | .error e, .ok _ => E e
    | .error e, .error e' => E e ∨ E e' ∨ F e e'

namespace Beside

variable {γ δ : Type} {m : Run ε σ α} {m' : Run ε σ β} {f : α → Run ε σ γ} {f' : β → Run ε σ δ}
  {s s' : σ} {Q Q' : α → σ → β → σ → Prop} {R : γ → σ → δ → σ → Prop} {E E' : ε → Prop}
  {F F' : ε → ε → Prop}

theorem pure {a : α} {b : β} (h : Q a s b s') :
    Beside (pure a : Run ε σ α) (pure b : Run ε σ β) s s' Q E F := by
  intro r t r' t' hrun hrun'
  obtain ⟨rfl, rfl⟩ : .ok a = r ∧ s = t := by simpa using hrun
  obtain ⟨rfl, rfl⟩ : .ok b = r' ∧ s' = t' := by simpa using hrun'
  exact h

theorem mono (h : Beside m m' s s' Q E F) (himp : ∀ a t b t', Q a t b t' → Q' a t b t')
    (hfails : ∀ e, E e → E' e) (hboth : ∀ e e', F e e' → F' e e') :
    Beside m m' s s' Q' E' F' := by
  intro r t r' t' hrun hrun'
  have hends := h r t r' t' hrun hrun'
  match r, r' with
  | .ok a, .ok b => exact himp a t b t' hends
  | .ok _, .error e => exact hfails e hends
  | .error e, .ok _ => exact hfails e hends
  | .error e, .error e' => exact hends.imp (hfails e) (Or.imp (hfails e') (hboth e e'))

/-- What two runs side by side are seen to answer. -/
theorem apply (h : Beside m m' s s' Q E F) {a : α} {b : β} {t t' : σ}
    (hrun : m.from? s = some (.ok a, t)) (hrun' : m'.from? s' = some (.ok b, t')) :
    Q a t b t' :=
  h _ t _ t' hrun hrun'

/-- How a run goes on from what its first part came to. -/
private theorem of_bind {r : Except ε γ} {t : σ} (h : (m >>= f).from? s = some (r, t)) :
    (∃ a u, m.from? s = some (.ok a, u) ∧ (f a).from? u = some (r, t)) ∨
      ∃ e, m.from? s = some (.error e, t) ∧ r = .error e := by
  rw [from?_bind] at h
  obtain ⟨⟨r₁, u⟩, hm, hrest⟩ := Option.bind_eq_some_iff.mp h
  cases r₁ with
  | error e =>
    obtain ⟨rfl, rfl⟩ : .error e = r ∧ u = t := by simpa using hrest
    exact .inr ⟨e, hm, rfl⟩
  | ok a => exact .inl ⟨a, u, hm, hrest⟩

theorem bind (h : Beside m m' s s' Q E F)
    (hf : ∀ a t b t', Q a t b t' → Beside (f a) (f' b) t t' R E F) :
    Beside (m >>= f) (m' >>= f') s s' R E F := by
  intro r t r' t' hrun hrun'
  rcases of_bind hrun with ⟨a, u, hm, hrest⟩ | ⟨e, hm, rfl⟩
  · rcases of_bind hrun' with ⟨b, u', hm', hrest'⟩ | ⟨e', hm', rfl⟩
    · exact hf a u b u' (h.apply hm hm') r t r' t' hrest hrest'
    · have hends : E e' := h _ _ _ _ hm hm'
      cases r with
      | ok _ => exact hends
      | error _ => exact .inr (.inl hends)
  · rcases of_bind hrun' with ⟨b, u', hm', hrest'⟩ | ⟨e', hm', rfl⟩
    · have hends : E e := h _ _ _ _ hm hm'
      cases r' with
      | ok _ => exact hends
      | error _ => exact .inl hends
    · exact h _ _ _ _ hm hm'

/-- **The rule of the loop:** both loops go on, or both end. Their fuel may differ. -/
theorem loop {step : α → Run ε σ (α ⊕ γ)} {step' : β → Run ε σ (β ⊕ δ)}
    (I : α → σ → β → σ → Prop)
    (hstep : ∀ a t b t', I a t b t' → Beside (step a) (step' b) t t' (fun r u r' u' =>
      match r, r' with
      | .inl a', .inl b' => I a' u b' u'
      | .inr c, .inr d => R c u d u'
      | _, _ => False) E F)
    {fuel fuel' : Nat} {a : α} {b : β} (hI : I a s b s') :
    Beside (Run.loop step fuel a) (Run.loop step' fuel' b) s s' R E F := by
  induction fuel generalizing fuel' a b s s' with
  | zero =>
    intro _ _ _ _ hrun
    cases hrun
  | succ fuel ih =>
    cases fuel' with
    | zero =>
      intro _ _ _ _ _ hrun'
      cases hrun'
    | succ fuel' =>
      rw [Run.loop, Run.loop]
      refine (hstep a s b s' hI).bind fun r u r' u' hr => ?_
      match r, r' with
      | .inl a', .inl b' => exact ih hr
      | .inr c, .inr d => exact .pure hr
      | .inl _, .inr _ => exact hr.elim
      | .inr _, .inl _ => exact hr.elim

end Beside

/-! ## More fuel -/

/-- **The second run gives whatever the first one gives.** It may give an answer where that is out of
fuel. -/
def Within (m m' : Run ε σ α) : Prop := ∀ s x, m.from? s = some x → m'.from? s = some x

namespace Within

variable {m m' : Run ε σ α} {f f' : α → Run ε σ β}

theorem refl (m : Run ε σ α) : m.Within m := fun _ _ => id

theorem of_eq (h : m = m') : m.Within m' := h ▸ .refl m

theorem bind (h : m.Within m') (hf : ∀ a, (f a).Within (f' a)) : (m >>= f).Within (m' >>= f') := by
  intro s x hx
  rw [from?_bind] at hx ⊢
  obtain ⟨⟨r, s'⟩, hm, hrest⟩ := Option.bind_eq_some_iff.mp hx
  rw [h s _ hm]
  cases r with
  | error e => exact hrest
  | ok a => exact hf a s' x hrest

theorem map {g : α → β} (h : m.Within m') : (g <$> m).Within (g <$> m') := by
  intro s x hx
  rw [from?_map] at hx ⊢
  obtain ⟨p, hm, rfl⟩ := Option.map_eq_some_iff.mp hx
  rw [h s p hm]
  rfl

theorem outcome (h : m.Within m') : m.outcome.Within m'.outcome := by
  intro s x hx
  rw [from?_outcome] at hx ⊢
  obtain ⟨p, hm, rfl⟩ := Option.map_eq_some_iff.mp hx
  rw [h s p hm]
  rfl

theorem ite {c : Prop} [Decidable c] {n n' : Run ε σ α} (h : m.Within m') (h' : n.Within n') :
    (if c then m else n).Within (if c then m' else n') := by
  split
  · exact h
  · exact h'

theorem foldlM {f f' : β → α → Run ε σ β} (h : ∀ b a, (f b a).Within (f' b a)) (l : List α)
    (b : β) : (l.foldlM f b).Within (l.foldlM f' b) := by
  induction l generalizing b with
  | nil => exact .refl _
  | cons a l ih =>
    rw [List.foldlM_cons, List.foldlM_cons]
    exact (h b a).bind ih

/-- A loop with more fuel gives whatever it gives with less. -/
theorem loop {step step' : α → Run ε σ (α ⊕ β)} (h : ∀ a, (step a).Within (step' a))
    {fuel fuel' : Nat} (hfuel : fuel ≤ fuel') (a : α) :
    (Run.loop step fuel a).Within (Run.loop step' fuel' a) := by
  induction fuel generalizing fuel' a with
  | zero =>
    intro s x hx
    cases hx
  | succ fuel ih =>
    obtain ⟨fuel', rfl⟩ := Nat.exists_eq_succ_of_ne_zero (by omega : fuel' ≠ 0)
    rw [Run.loop, Run.loop]
    refine (h a).bind fun next => ?_
    cases next with
    | inl a' => exact ih (by omega) a'
    | inr b => exact .refl _

end Within

end Run

end AdaptiveLL
