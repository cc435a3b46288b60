import AdaptiveLL.Proofs.Ensures

/-!
# Strict runs

Where a table has no entry under a number, a run goes on with a default. A *strict* run does not: it
stops as soon as a number leads beyond its table. So a strict run that ends as the plain one does
has found every entry that it looked up.

`Run.Agrees m' m s Q` says that the strict run `m'` goes as the plain run `m` does, and that what
they come to satisfies `Q`. `Scope.Safe` is the same with an invariant of the state, and with a size
that never shrinks: what is in range stays in range.
-/

namespace AdaptiveLL

/-- Why a strict run gives no answer: a number led beyond its table, or the run failed. -/
inductive Stop (ε : Type) where
  | beyond
  | failed (e : ε)
deriving DecidableEq, Inhabited

/-- The stop with its error seen from outside. -/
def Stop.map {ε ε' : Type} (f : ε → ε') : Stop ε → Stop ε'
  | beyond => beyond
  | failed e => failed (f e)

namespace Run

variable {ε σ τ α β γ : Type}

/-- **The entry of a table,** which has to be there. -/
def lookup (entry : Option α) : Run (Stop ε) σ α :=
  match entry with
  | some a => pure a
  | none => throw .beyond

/-- Looks several entries up, all of which have to be there. -/
def lookupAll : List (Option α) → Run (Stop ε) σ Unit
  | [] => pure ()
  | entry :: rest => do
    let _ ← lookup entry
    lookupAll rest

/-- A run that looks nothing up, as a strict one. -/
def strictly (m : Run ε σ α) : Run (Stop ε) σ α :=
  ExceptT.mk fun s => (m.from? s).map fun (r, s) => (r.mapError .failed, s)

/-- The outcome of a strict run: a failure is an answer, a number beyond its table is none. -/
def strictOutcome (m : Run (Stop ε) σ α) : Run (Stop ε) σ (Except ε α) :=
  ExceptT.mk fun s => (m.from? s).map fun (r, s) =>
    match r with
    | .ok a => (.ok (.ok a), s)
    | .error (.failed e) => (.ok (.error e), s)
    | .error .beyond => (.error .beyond, s)

/-- A strict run on a part of a larger state, with its error wrapped. -/
def strictWithin {ε' : Type} (get : τ → σ) (set : τ → σ → τ) (wrap : ε → ε')
    (m : Run (Stop ε) σ α) : Run (Stop ε') τ α :=
  ExceptT.mk fun t => (m.from? (get t)).map fun (r, s) => (r.mapError (Stop.map wrap), set t s)

@[simp] theorem from?_lookup_some (a : α) (s : σ) :
    (lookup (some a) : Run (Stop ε) σ α).from? s = some (.ok a, s) := rfl

@[simp] theorem from?_strictly (m : Run ε σ α) (s : σ) :
    m.strictly.from? s = (m.from? s).map fun (r, s) => (r.mapError .failed, s) := rfl

/-! ## Strict runs beside plain ones -/

/-- **The strict run ends as the plain one does,** and what they come to satisfies `Q`. -/
structure Agrees (m' : Run (Stop ε) σ α) (m : Run ε σ α) (s : σ) (Q : Except ε α → σ → Prop) :
    Prop where
  from?_eq : m'.from? s = m.strictly.from? s
  ensures : m.Ensures s Q

namespace Agrees

variable {m' : Run (Stop ε) σ α} {m : Run ε σ α} {f' : α → Run (Stop ε) σ β} {f : α → Run ε σ β}
  {s : σ} {Q Q' : Except ε α → σ → Prop} {R : Except ε β → σ → Prop}

theorem strictly (h : m.Ensures s Q) : Agrees m.strictly m s Q := ⟨rfl, h⟩

theorem pure {a : α} (h : Q (.ok a) s) : Agrees (pure a) (pure a) s Q := ⟨rfl, .pure h⟩

theorem throw {e : ε} (h : Q (.error e) s) : Agrees (throw (.failed e)) (throw e) s Q :=
  ⟨rfl, .throw h⟩

theorem mono (h : Agrees m' m s Q) (himp : ∀ r s', Q r s' → Q' r s') : Agrees m' m s Q' :=
  ⟨h.from?_eq, h.ensures.mono himp⟩

/-- Two parts in a row: the second one begins where the first one succeeded. -/
theorem bind (h : Agrees m' m s Q) (hok : ∀ a s', Q (.ok a) s' → Agrees (f' a) (f a) s' R)
    (herr : ∀ e s', Q (.error e) s' → R (.error e) s') : Agrees (m' >>= f') (m >>= f) s R := by
  refine ⟨?_, h.ensures.bind (fun a s' ha => (hok a s' ha).ensures) herr⟩
  rw [from?_bind, h.from?_eq, from?_strictly, from?_strictly, from?_bind]
  cases hm : m.from? s with
  | none => rfl
  | some p =>
    obtain ⟨r, s'⟩ := p
    cases r with
    | error e => rfl
    | ok a => exact (hok a s' (h.ensures _ _ hm)).from?_eq

theorem get_bind {f' : σ → Run (Stop ε) σ β} {f : σ → Run ε σ β} (h : Agrees (f' s) (f s) s R) :
    Agrees (MonadState.get >>= f') (MonadState.get >>= f) s R := by
  refine ⟨?_, h.ensures.get_bind⟩
  rw [from?_bind, from?_strictly, from?_bind]
  exact h.from?_eq

/-- The plain run alone reads the state. -/
theorem reads {f : σ → Run ε σ α} (h : Agrees m' (f s) s Q) :
    Agrees m' (MonadState.get >>= f) s Q := by
  refine ⟨?_, h.ensures.get_bind⟩
  rw [from?_strictly, from?_bind]
  exact h.from?_eq

/-- The strict run alone reads the state. -/
theorem looks {f' : σ → Run (Stop ε) σ α} (h : Agrees (f' s) m s Q) :
    Agrees (MonadState.get >>= f') m s Q := by
  refine ⟨?_, h.ensures⟩
  rw [from?_bind]
  exact h.from?_eq

/-- **An entry that is there is found.** -/
theorem lookup_bind {entry : Option γ} {f' : γ → Run (Stop ε) σ α} {c : γ} (hentry : entry = some c)
    (h : Agrees (f' c) m s Q) : Agrees (lookup entry >>= f') m s Q := by
  subst hentry
  refine ⟨?_, h.ensures⟩
  rw [from?_bind]
  exact h.from?_eq

theorem lookupAll_bind {entries : List (Option γ)} {f' : Unit → Run (Stop ε) σ α}
    (hentries : ∀ entry ∈ entries, entry.isSome = true) (h : Agrees (f' ()) m s Q) :
    Agrees (lookupAll entries >>= f') m s Q := by
  induction entries with
  | nil => exact ⟨h.from?_eq, h.ensures⟩
  | cons entry rest ih =>
    obtain ⟨c, hc⟩ := Option.isSome_iff_exists.mp (hentries entry List.mem_cons_self)
    rw [lookupAll, bind_assoc]
    exact .lookup_bind hc (ih fun entry' hmem => hentries entry' (List.mem_cons_of_mem _ hmem))

/-- A run on a part of the state. -/
theorem zoom {get : τ → σ} {set : σ → τ → τ} {t : τ} {Q : Except ε α → τ → Prop}
    (h : Agrees m' m (get t) fun r s' => Q r (set s' t)) :
    Agrees (m'.zoom get set) (m.zoom get set) t Q := by
  refine ⟨?_, h.ensures.zoom⟩
  rw [from?_zoom, from?_strictly, from?_zoom, h.from?_eq, from?_strictly, Option.map_map,
    Option.map_map]
  rfl

/-- A run on a part of a larger state, with its error wrapped. -/
theorem within {ε' : Type} {get : τ → σ} {set : τ → σ → τ} {wrap : ε → ε'} {t : τ}
    {plain : Run ε' τ α} {Q : Except ε' α → τ → Prop}
    (hplain : plain.from? t = (m.from? (get t)).map fun (r, s) => (r.mapError wrap, set t s))
    (h : Agrees m' m (get t) fun r s => Q (r.mapError wrap) (set t s)) :
    Agrees (strictWithin get set wrap m') plain t Q := by
  refine ⟨?_, fun r t' hrun => ?_⟩
  · change (m'.from? (get t)).map _ = _
    rw [h.from?_eq, from?_strictly, from?_strictly, hplain, Option.map_map, Option.map_map]
    congr 1
    funext ⟨r, s⟩
    cases r <;> rfl
  · rw [hplain] at hrun
    obtain ⟨⟨r₁, s⟩, hm, heq⟩ := Option.map_eq_some_iff.mp hrun
    obtain ⟨rfl, rfl⟩ := Prod.mk.inj heq
    exact h.ensures _ _ hm

theorem outcome {Q : Except ε (Except ε α) → σ → Prop}
    (h : Agrees m' m s fun r s' => Q (.ok r) s') : Agrees m'.strictOutcome m.outcome s Q := by
  refine ⟨?_, h.ensures.outcome⟩
  change (m'.from? s).map _ = _
  rw [h.from?_eq, from?_strictly, from?_strictly, from?_outcome]
  cases m.from? s with
  | none => rfl
  | some p =>
    obtain ⟨r, s'⟩ := p
    cases r <;> rfl

/-- **The rule of the loop.** The invariant `I` holds before every round. -/
theorem loop {step' : α → Run (Stop ε) σ (α ⊕ β)} {step : α → Run ε σ (α ⊕ β)} (I : α → σ → Prop)
    (hstep : ∀ a s, I a s → Agrees (step' a) (step a) s fun r s' =>
      match r with
      | .ok (.inl a') => I a' s'
      | .ok (.inr b) => R (.ok b) s'
      | .error e => R (.error e) s')
    {fuel : Nat} {a : α} {s : σ} (hI : I a s) :
    Agrees (Run.loop step' fuel a) (Run.loop step fuel a) s R := by
  induction fuel generalizing a s with
  | zero =>
    refine ⟨rfl, fun r s' hrun => ?_⟩
    cases hrun
  | succ fuel ih =>
    rw [Run.loop, Run.loop]
    refine (hstep a s hI).bind (fun next s' hnext => ?_) fun e s' he => he
    cases next with
    | inl a' => exact ih hnext
    | inr b => exact .pure hnext

end Agrees

end Run

/-! ## Invariants -/

/-- **What runs keep:** an invariant of the state, and a size that never shrinks. -/
structure Scope (σ : Type) where
  holds : σ → Prop
  size : σ → Nat

namespace Scope

variable {ε σ α β γ : Type} {S : Scope σ}

/-- **The strict run ends as the plain one does,** and keeps the invariant. Its answer and the size
it leaves satisfy `P`. -/
def Safe (S : Scope σ) (m' : Run (Stop ε) σ α) (m : Run ε σ α) (s : σ) (P : α → Nat → Prop) :
    Prop :=
  m'.Agrees m s fun r t => S.holds t ∧ S.size s ≤ S.size t ∧ ∀ a, r = .ok a → P a (S.size t)

namespace Safe

variable {m' : Run (Stop ε) σ α} {m : Run ε σ α} {f' : α → Run (Stop ε) σ β} {f : α → Run ε σ β}
  {s : σ} {P P' : α → Nat → Prop} {R : β → Nat → Prop}

theorem pure {a : α} (hs : S.holds s) (h : P a (S.size s)) :
    S.Safe (pure a : Run (Stop ε) σ α) (pure a) s P :=
  Run.Agrees.pure ⟨hs, Nat.le_refl _, fun _ ha => Except.ok.inj ha ▸ h⟩

theorem throw {e : ε} (hs : S.holds s) : S.Safe (throw (.failed e)) (throw e) s P :=
  Run.Agrees.throw ⟨hs, Nat.le_refl _, nofun⟩

/-- A run that looks nothing up. -/
theorem strictly (h : m.Ensures s fun r t => S.holds t ∧ S.size s ≤ S.size t ∧
    ∀ a, r = .ok a → P a (S.size t)) : S.Safe m.strictly m s P :=
  Run.Agrees.strictly h

theorem mono (h : S.Safe m' m s P) (himp : ∀ a k, S.size s ≤ k → P a k → P' a k) :
    S.Safe m' m s P' :=
  Run.Agrees.mono h fun _ _ ⟨hs, hle, ha⟩ => ⟨hs, hle, fun a hr => himp a _ hle (ha a hr)⟩

/-- Two parts in a row. -/
theorem bind (h : S.Safe m' m s P)
    (hf : ∀ a t, S.holds t → S.size s ≤ S.size t → P a (S.size t) → S.Safe (f' a) (f a) t R) :
    S.Safe (m' >>= f') (m >>= f) s R := by
  refine Run.Agrees.bind h (fun a t ⟨ht, hle, ha⟩ => ?_) fun e t ⟨ht, hle, _⟩ => ⟨ht, hle, nofun⟩
  exact Run.Agrees.mono (hf a t ht hle (ha a rfl)) fun _ _ ⟨hu, hle', hb⟩ =>
    ⟨hu, Nat.le_trans hle hle', hb⟩

/-- Two parts in a row that look nothing up. -/
theorem strictly_bind (h : S.Safe m' m s P)
    (hf : ∀ a t, S.holds t → S.size s ≤ S.size t → P a (S.size t) →
      S.Safe (f a).strictly (f a) t R) : S.Safe (m >>= f).strictly (m >>= f) s R :=
  .strictly (h.bind hf).ensures

theorem map {g : α → β} (h : S.Safe m' m s fun a => R (g a)) :
    S.Safe (g <$> m') (g <$> m) s R := by
  rw [← bind_pure_comp, ← bind_pure_comp]
  exact h.bind fun a t ht _ ha => .pure ht ha

theorem get_bind {f' : σ → Run (Stop ε) σ β} {f : σ → Run ε σ β} (h : S.Safe (f' s) (f s) s R) :
    S.Safe (MonadState.get >>= f') (MonadState.get >>= f) s R :=
  Run.Agrees.get_bind h

theorem reads {f : σ → Run ε σ α} (h : S.Safe m' (f s) s P) :
    S.Safe m' (MonadState.get >>= f) s P :=
  Run.Agrees.reads h

theorem looks {f' : σ → Run (Stop ε) σ α} (h : S.Safe (f' s) m s P) :
    S.Safe (MonadState.get >>= f') m s P :=
  Run.Agrees.looks h

theorem lookup_bind {entry : Option γ} {f' : γ → Run (Stop ε) σ α} {c : γ} (hentry : entry = some c)
    (h : S.Safe (f' c) m s P) : S.Safe (Run.lookup entry >>= f') m s P :=
  Run.Agrees.lookup_bind hentry h

theorem lookupAll_bind {entries : List (Option γ)} {f' : Unit → Run (Stop ε) σ α}
    (hentries : ∀ entry ∈ entries, entry.isSome = true) (h : S.Safe (f' ()) m s P) :
    S.Safe (Run.lookupAll entries >>= f') m s P :=
  Run.Agrees.lookupAll_bind hentries h

/-- A part that changes the state and nothing else. -/
theorem modify {g : σ → σ} {P : PUnit → Nat → Prop} (hs : S.holds (g s))
    (hle : S.size s ≤ S.size (g s)) (h : P ⟨⟩ (S.size (g s))) :
    S.Safe (ε := ε) (Run.strictly (modify g)) (modify g) s P :=
  Run.Agrees.strictly (.of_eq rfl ⟨hs, hle, fun _ _ => h⟩)

/-- **The rule of the fold.** -/
theorem foldlM {f' : β → α → Run (Stop ε) σ β} {f : β → α → Run ε σ β} (I : β → Nat → Prop)
    {l : List α} (hf : ∀ a ∈ l, ∀ b t, S.holds t → S.size s ≤ S.size t → I b (S.size t) →
      S.Safe (f' b a) (f b a) t I) {b : β} (hs : S.holds s) (hb : I b (S.size s)) :
    S.Safe (l.foldlM f' b) (l.foldlM f b) s I := by
  induction l generalizing b s with
  | nil => exact .pure hs hb
  | cons a l ih =>
    rw [List.foldlM_cons, List.foldlM_cons]
    refine (hf a List.mem_cons_self b s hs (Nat.le_refl _) hb).bind fun b' t ht hle hb' => ?_
    refine ih (fun a' ha' b u hu hle' => ?_) ht hb'
    exact hf a' (List.mem_cons_of_mem _ ha') b u hu (Nat.le_trans hle hle')

/-- **The rule of the loop.** -/
theorem loop {step' : α → Run (Stop ε) σ (α ⊕ β)} {step : α → Run ε σ (α ⊕ β)} (I : α → Nat → Prop)
    (hstep : ∀ a t, S.holds t → I a (S.size t) → S.Safe (step' a) (step a) t fun r k =>
      r.elim (I · k) (R · k))
    {fuel : Nat} {a : α} (hs : S.holds s) (ha : I a (S.size s)) :
    S.Safe (Run.loop step' fuel a) (Run.loop step fuel a) s R := by
  refine Run.Agrees.loop (fun a t => S.holds t ∧ S.size s ≤ S.size t ∧ I a (S.size t)) ?_
    ⟨hs, Nat.le_refl _, ha⟩
  rintro a t ⟨ht, hle, ha⟩
  refine Run.Agrees.mono (hstep a t ht ha) ?_
  rintro (e | (a' | b)) u ⟨hu, hle', hr⟩
  · exact ⟨hu, Nat.le_trans hle hle', nofun⟩
  · exact ⟨hu, Nat.le_trans hle hle', hr _ rfl⟩
  · exact ⟨hu, Nat.le_trans hle hle', fun b' hb' => Except.ok.inj hb' ▸ hr _ rfl⟩

theorem outcome (h : S.Safe m' m s P) :
    S.Safe m'.strictOutcome m.outcome s fun r k => ∀ a, r = .ok a → P a k :=
  Run.Agrees.outcome (Run.Agrees.mono h fun _ _ ⟨hs, hle, ha⟩ =>
    ⟨hs, hle, fun _ hr a hb => ha a ((Except.ok.inj hr).trans hb)⟩)

end Safe

end Scope

end AdaptiveLL
