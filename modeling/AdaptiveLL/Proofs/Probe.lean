import AdaptiveLL.Probe
import AdaptiveLL.Proofs.Guard
import AdaptiveLL.Proofs.Run
import AdaptiveLL.Proofs.Stacks.Growth

/-!
# How probes end

A probe leaves a larger graph of stacks behind. It is *quiet* if that is all: it has put nothing to
the host and cut nothing off. The rules below follow the way in which probes are put together.
-/

namespace AdaptiveLL

open StackGraph (Grows Grown Sound)

/-- The trail goes on from another one: the graph has grown, and in a quiet probe nothing else has
changed. -/
structure Trail.Extends (quiet : Bool) (t t' : Trail) : Prop where
  grown : t.graph.Grown t'.graph
  asked_eq : quiet = true → t'.asked = t.asked
  recursions_eq : quiet = true → t'.recursions = t.recursions

variable {quiet : Bool}

theorem Trail.Extends.refl {t : Trail} (ht : t.graph.Sound) : t.Extends quiet t :=
  ⟨.refl ht, fun _ => rfl, fun _ => rfl⟩

theorem Trail.Extends.trans {t₁ t₂ t₃ : Trail} (h : t₁.Extends quiet t₂)
    (h' : t₂.Extends quiet t₃) : t₁.Extends quiet t₃ where
  grown := h.grown.trans h'.grown
  asked_eq hq := (h'.asked_eq hq).trans (h.asked_eq hq)
  recursions_eq hq := (h'.recursions_eq hq).trans (h.recursions_eq hq)

theorem Trail.Extends.sound {t t' : Trail} (h : t.Extends quiet t') : t'.graph.Sound :=
  h.grown.sound

namespace Probe

variable {α β : Type}

/-- What a guard comes to that is put to a host whose answers never change. -/
theorem from?_holds {host : Oracle} (hhost : host.Steady) (position : Nat) (guard : Guard)
    (t : Trail) : (Probe.holds host position guard).from? t =
      some (.ok (guard.holds host.now position),
        { t with asked := t.asked ++ guard.asked host.now position }) := by
  change some (Except.ok (guard.put host position (t.past ++ t.asked)).1,
    { t with asked := t.asked ++ (guard.put host position (t.past ++ t.asked)).2 }) = _
  rw [Guard.put_of_steady hhost]

/-- **The probe ends.** If it succeeds its answer and the graph satisfy `Q`, and otherwise the
ceiling that was met satisfies `E`, given how long stacks may be. -/
def Ends (quiet : Bool) (m : Probe α) (t : Trail) (Q : α → StackGraph → Prop)
    (E : Nat → Exceeded → Prop := fun _ _ => True) : Prop :=
  m.Yields t fun r t' => t.Extends quiet t' ∧ (∀ a, r = .ok a → Q a t'.graph) ∧
    ∀ e, r = .error e → E t.graph.maxDepth e

namespace Ends

variable {m : Probe α} {f : α → Probe β} {t : Trail} {Q Q' : α → StackGraph → Prop}
  {R : β → StackGraph → Prop} {E E' : Nat → Exceeded → Prop}

theorem pure {a : α} (ht : t.graph.Sound) (h : Q a t.graph) : Ends quiet (pure a) t Q E :=
  Run.Yields.pure ⟨.refl ht, fun b hb => by rwa [← Except.ok.inj hb], nofun⟩

theorem mono (h : Ends quiet m t Q E) (himp : ∀ a g, t.graph.Grown g → Q a g → Q' a g) :
    Ends quiet m t Q' E :=
  Run.Yields.mono h fun _ _ ⟨hext, hQ, hE⟩ =>
    ⟨hext, fun a ha => himp a _ hext.grown (hQ a ha), hE⟩

/-- Less may be said of the ceilings. -/
theorem failing (h : Ends quiet m t Q E)
    (himp : ∀ e, E t.graph.maxDepth e → E' t.graph.maxDepth e) : Ends quiet m t Q E' :=
  Run.Yields.mono h fun _ _ ⟨hext, hQ, hE⟩ => ⟨hext, hQ, fun e he => himp e (hE e he)⟩

/-- Which ceiling is met need not be known. -/
theorem anyhow (h : Ends quiet m t Q E) : Ends quiet m t Q :=
  Run.Yields.mono h fun _ _ ⟨hext, hQ, _⟩ => ⟨hext, hQ, fun _ _ => trivial⟩

/-- Of a probe that is known to be quiet this need not be used. -/
theorem aloud (h : Ends true m t Q E) : Ends false m t Q E :=
  Run.Yields.mono h fun _ _ ⟨hext, hQ⟩ => ⟨⟨hext.grown, nofun, nofun⟩, hQ⟩

theorem bind (h : Ends quiet m t Q E)
    (hf : ∀ a t', t.Extends quiet t' → Q a t'.graph → Ends quiet (f a) t' R E) :
    Ends quiet (m >>= f) t R E := by
  refine Run.Yields.bind h (fun a t' ⟨hext, hQ, _⟩ => ?_) fun e t' ⟨hext, _, hE⟩ =>
    ⟨hext, nofun, fun e' he' => hE e' (by rw [← Except.error.inj he'])⟩
  have hdepth := hext.grown.maxDepth_eq
  exact Run.Yields.mono (hf a t' hext (hQ a rfl)) fun _ _ ⟨hext', hR, hE⟩ =>
    ⟨hext.trans hext', hR, fun e he => hdepth ▸ hE e he⟩

theorem bind_get {f : Trail → Probe β} (h : Ends quiet (f t) t R E) :
    Ends quiet (MonadState.get >>= f) t R E := by
  obtain ⟨r, t', hrun, hR⟩ := h
  exact ⟨r, t', by rw [Run.from?_bind, Run.from?_get]; exact hrun, hR⟩

theorem grow {m : Growing α} (h : Grows m t.graph Q (E t.graph.maxDepth)) :
    Ends quiet (Probe.grow m) t Q E := by
  cases hm : m.run t.graph with
  | ok a g =>
    obtain ⟨hgrown, hQ⟩ := h.apply hm
    refine .of_eq (r := .ok a) (t := { t with graph := g }) ?_
      ⟨⟨hgrown, fun _ => rfl, fun _ => rfl⟩, ?_, nofun⟩
    · rw [Probe.grow, Run.from?_ofStep, hm]
    · intro b hb
      rwa [← Except.ok.inj hb]
  | error e g =>
    obtain ⟨hgrown, hE⟩ := h.of_error hm
    refine .of_eq (r := .error e) (t := { t with graph := g }) ?_
      ⟨⟨hgrown, fun _ => rfl, fun _ => rfl⟩, nofun, ?_⟩
    · rw [Probe.grow, Run.from?_ofStep, hm]
    · intro e' he'
      rwa [← Except.error.inj he']

/-- A guard is put to the host. -/
theorem holds (ht : t.graph.Sound) (host : Oracle) (position : Nat) (guard : Guard) :
    Ends false (Probe.holds host position guard) t
      (fun b g => (host.Steady → b = guard.holds host.now position) ∧ g = t.graph) E := by
  refine .of_eq (r := .ok (guard.put host position (t.past ++ t.asked)).1) rfl
    ⟨⟨.refl ht, nofun, nofun⟩, fun b hb => ⟨fun hhost => ?_, rfl⟩, nofun⟩
  rw [← Except.ok.inj hb, Guard.put_of_steady hhost]

/-- **The rule of the fold.** The invariant speaks of what is still to be folded. -/
theorem foldlM {f : β → α → Probe β} (I : List α → β → StackGraph → Prop)
    (hf : ∀ a rest b t', t.Extends quiet t' → I (a :: rest) b t'.graph →
      Ends quiet (f b a) t' (I rest) E)
    {l : List α} {b : β} (ht : t.graph.Sound) (h : I l b t.graph) :
    Ends quiet (l.foldlM f b) t (I []) E := by
  induction l generalizing b t with
  | nil => exact .pure ht h
  | cons a l ih =>
    rw [List.foldlM_cons]
    refine (hf a l b t (.refl ht) h).bind fun b' t' hext hI => ?_
    exact ih (fun a' rest b'' t'' hext' => hf a' rest b'' t'' (hext.trans hext')) hext.sound hI

/-- What a probe is known to do in two ways, it does in both. -/
theorem both {loud : Bool} (h : Ends quiet m t Q E) (h' : Ends loud m t Q' E') :
    Ends quiet m t (fun a g => Q a g ∧ Q' a g) E :=
  (Run.Yields.both h h').mono fun _ _ ⟨⟨hext, hQ, hE⟩, _, hQ', _⟩ =>
    ⟨hext, fun a ha => ⟨hQ a ha, hQ' a ha⟩, hE⟩

/-- **The rule of the loop,** with an invariant and a measure. -/
theorem loop {step : α → Probe (α ⊕ β)} (I : α → StackGraph → Prop) (μ : α → Nat)
    (hstep : ∀ a t', t.Extends quiet t' → I a t'.graph → Ends quiet (step a) t' (fun r g =>
      match r with
      | .inl a' => I a' g ∧ μ a' < μ a
      | .inr b => R b g) E)
    {fuel : Nat} {a : α} (ht : t.graph.Sound) (hI : I a t.graph) (hfuel : μ a < fuel) :
    Ends quiet (Run.loop step fuel a) t R E := by
  refine Run.Yields.loop (fun a t' => t.Extends quiet t' ∧ I a t'.graph) (fun a _ => μ a) ?_
    ⟨.refl ht, hI⟩ hfuel
  rintro a t' ⟨hext, hI'⟩
  refine Run.Yields.mono (hstep a t' hext hI') ?_
  rintro (e | (a' | b)) t'' ⟨hext', hr, hE⟩
  · refine ⟨hext.trans hext', nofun, fun e' he' => ?_⟩
    rw [← Except.error.inj he', ← hext.grown.maxDepth_eq]
    exact hE e rfl
  · exact ⟨⟨hext.trans hext', (hr _ rfl).1⟩, (hr _ rfl).2⟩
  · refine ⟨hext.trans hext', fun b' hb' => ?_, nofun⟩
    rw [← Except.ok.inj hb']
    exact hr _ rfl

end Ends

/-- What a step on the graph gives. -/
theorem grow_gives {m : Growing α} {Q : α → Prop}
    (h : ∀ g a g', m.run g = .ok a g' → Q a) : (Probe.grow m).Gives Q := by
  intro s a s' hrun
  rw [Probe.grow, Run.from?_ofStep] at hrun
  cases hm : m.run s.graph with
  | error e g => simp [hm] at hrun
  | ok b g =>
    simp only [hm, Option.some.injEq, Prod.mk.injEq, Except.ok.injEq] at hrun
    exact hrun.1 ▸ h s.graph b g hm

/-- Steps on the graph in a row. -/
theorem grow_bind (m : Growing α) (f : α → Growing β) :
    Probe.grow (m >>= f) = (Probe.grow m >>= fun a => Probe.grow (f a)) := by
  refine Run.eq_of_from? fun t => ?_
  rw [Run.from?_bind, Probe.grow, Probe.grow, Run.from?_ofStep, Run.from?_ofStep]
  cases hm : m.run t.graph with
  | error e g => rw [StackGraph.run_bind_of_error hm]; rfl
  | ok a g => rw [StackGraph.run_bind_of_ok hm]; rfl

/-! ## Two probes side by side -/

/-- What only one of two probes side by side may meet, if stacks may grow as long in both: the
ceiling of the nodes. -/
def Apart (t t' : Trail) (e : Exceeded) : Prop :=
  t.graph.maxDepth = t'.graph.maxDepth → e.resource = .arenaNodes

/-- What both of two probes side by side may meet besides, if stacks may grow as long in both: the
same ceiling. -/
def Alike (t t' : Trail) (e e' : Exceeded) : Prop :=
  t.graph.maxDepth = t'.graph.maxDepth → e = e'

/-- **Two probes side by side:** where both succeed, they have made the same callbacks, none if they
are quiet, and what they answer satisfies `Q` with the graphs they leave. Ceilings other than that
of the nodes are met by both or by neither, and it is the same one that both meet. -/
def Beside (quiet : Bool) (m : Probe α) (m' : Probe β) (t t' : Trail)
    (Q : α → StackGraph → β → StackGraph → Prop) : Prop :=
  Run.Beside m m' t t' (fun a u b u' => t.graph.Grown u.graph ∧ t'.graph.Grown u'.graph ∧
    (∃ asked, u.asked = t.asked ++ asked ∧ u'.asked = t'.asked ++ asked ∧
      (quiet = true → asked = [])) ∧ Q a u.graph b u'.graph) (Apart t t') (Alike t t')

namespace Beside

variable {γ δ : Type} {m : Probe α} {m' : Probe β} {f : α → Probe γ} {f' : β → Probe δ}
  {t t' : Trail} {Q Q' : α → StackGraph → β → StackGraph → Prop}
  {R : γ → StackGraph → δ → StackGraph → Prop}

theorem pure {a : α} {b : β} (ht : t.graph.Sound) (ht' : t'.graph.Sound)
    (h : Q a t.graph b t'.graph) :
    Beside quiet (pure a : Probe α) (pure b : Probe β) t t' Q :=
  Run.Beside.pure ⟨.refl ht, .refl ht', ⟨[], by simp, by simp, fun _ => rfl⟩, h⟩

theorem mono (h : Beside quiet m m' t t' Q)
    (himp : ∀ a g b g', t.graph.Grown g → t'.graph.Grown g' → Q a g b g' → Q' a g b g') :
    Beside quiet m m' t t' Q' :=
  Run.Beside.mono h (fun a _ b _ ⟨hg, hg', hasked, hQ⟩ =>
    ⟨hg, hg', hasked, himp a _ b _ hg hg' hQ⟩) (fun _ => id) fun _ _ => id

/-- The graphs that both probes leave have the ceilings of those they began with. -/
private theorem apart_iff {u u' : Trail} (hg : t.graph.Grown u.graph) (hg' : t'.graph.Grown u'.graph)
    (e : Exceeded) : Apart u u' e ↔ Apart t t' e := by
  unfold Apart
  rw [hg.maxDepth_eq, hg'.maxDepth_eq]

private theorem alike_iff {u u' : Trail} (hg : t.graph.Grown u.graph) (hg' : t'.graph.Grown u'.graph)
    (e e' : Exceeded) : Alike u u' e e' ↔ Alike t t' e e' := by
  unfold Alike
  rw [hg.maxDepth_eq, hg'.maxDepth_eq]

theorem bind (h : Beside quiet m m' t t' Q)
    (hf : ∀ a u b u', t.graph.Grown u.graph → t'.graph.Grown u'.graph →
      Q a u.graph b u'.graph → Beside quiet (f a) (f' b) u u' R) :
    Beside quiet (m >>= f) (m' >>= f') t t' R := by
  refine Run.Beside.bind h ?_
  rintro a u b u' ⟨hg, hg', ⟨asked, hasked, hasked', hquiet⟩, hQ⟩
  refine Run.Beside.mono (hf a u b u' hg hg' hQ) ?_ (fun e => (apart_iff hg hg' e).mp)
    fun e e' => (alike_iff hg hg' e e').mp
  rintro c v d v' ⟨hh, hh', ⟨more, hmore, hmore', hquiet'⟩, hR⟩
  refine ⟨hg.trans hh, hg'.trans hh', ⟨asked ++ more, ?_, ?_, fun hq => ?_⟩, hR⟩
  · rw [hmore, hasked, List.append_assoc]
  · rw [hmore', hasked', List.append_assoc]
  · rw [hquiet hq, hquiet' hq, List.append_nil]

theorem bind_get {f : Trail → Probe γ} {f' : Trail → Probe δ}
    (h : Beside quiet (f t) (f' t') t t' R) :
    Beside quiet (MonadState.get >>= f) (MonadState.get >>= f') t t' R := by
  intro x u y u' hrun hrun'
  rw [Run.from?_bind, Run.from?_get] at hrun hrun'
  exact h x u y u' hrun hrun'

private theorem of_grow {m : Growing α} {P : α → StackGraph → Prop} {E : Exceeded → Prop}
    (h : Grows m t.graph P E) {r : Except Exceeded α} {u : Trail}
    (hrun : (Probe.grow m).from? t = some (r, u)) :
    t.graph.Grown u.graph ∧ u.asked = t.asked ∧ (∀ a, r = .ok a → P a u.graph) ∧
      ∀ e, r = .error e → E e := by
  obtain ⟨hext, hP, hE⟩ := Run.Yields.apply (Ends.grow h : Ends true _ t P fun _ => E) hrun
  exact ⟨hext.grown, hext.asked_eq rfl, hP, hE⟩

/-- Both graphs grow, and if one of them cannot the other one cannot either, for the same reason, but
for want of nodes. -/
theorem grow {m : Growing α} {m' : Growing β} {P : α → StackGraph → Prop}
    {P' : β → StackGraph → Prop} {E E' : Exceeded → Prop} (h : Grows m t.graph P E)
    (h' : Grows m' t'.graph P' E')
    (hE : ∀ a g e, t.graph.Grown g → P a g → E' e → Apart t t' e)
    (hE' : ∀ b g e, t'.graph.Grown g → P' b g → E e → Apart t t' e)
    (hboth : ∀ e e', E e → E' e' → Apart t t' e ∨ Apart t t' e' ∨ Alike t t' e e') :
    Beside quiet (Probe.grow m) (Probe.grow m') t t' fun a g b g' => P a g ∧ P' b g' := by
  intro r u r' u' hrun hrun'
  obtain ⟨hgrown, hasked, hP, herr⟩ := of_grow h hrun
  obtain ⟨hgrown', hasked', hP', herr'⟩ := of_grow h' hrun'
  match r, r' with
  | .ok a, .ok b =>
    exact ⟨hgrown, hgrown', ⟨[], by simp [hasked], by simp [hasked'], fun _ => rfl⟩, hP a rfl,
      hP' b rfl⟩
  | .ok a, .error e => exact hE a _ e hgrown (hP a rfl) (herr' e rfl)
  | .error e, .ok b => exact hE' b _ e hgrown' (hP' b rfl) (herr e rfl)
  | .error e, .error e' => exact hboth e e' (herr e rfl) (herr' e' rfl)

/-- The same guard is put to the same host, whose answers never change. -/
theorem holds {host : Oracle} (hhost : host.Steady) {position : Nat} {guard : Guard}
    (hquiet : quiet = false) (ht : t.graph.Sound) (ht' : t'.graph.Sound) :
    Beside quiet (Probe.holds host position guard) (Probe.holds host position guard) t t'
      fun a g b g' => a = b ∧ g = t.graph ∧ g' = t'.graph := by
  intro r u r' u' hrun hrun'
  rw [from?_holds hhost, Option.some_inj, Prod.mk.injEq] at hrun hrun'
  obtain ⟨rfl, rfl⟩ := hrun
  obtain ⟨rfl, rfl⟩ := hrun'
  exact ⟨.refl ht, .refl ht', ⟨guard.asked host.now position, rfl, rfl, by simp [hquiet]⟩, rfl, rfl,
    rfl⟩

/-- **The rule of the fold,** over two lists that agree member by member. -/
theorem foldlM {κ ι : Type} {f : α → κ → Probe α} {f' : β → ι → Probe β}
    (I : α → StackGraph → β → StackGraph → Prop) (P : κ → StackGraph → ι → StackGraph → Prop)
    (hP : ∀ x g y g' h h', t.graph.Grown g → t'.graph.Grown g' → g.Grown h → g'.Grown h' →
      P x g y g' → P x h y h')
    (hf : ∀ a x u b y u', t.graph.Grown u.graph → t'.graph.Grown u'.graph →
      P x u.graph y u'.graph → I a u.graph b u'.graph →
        Beside quiet (f a x) (f' b y) u u' I)
    {l : List κ} {l' : List ι} (hl : List.Forall₂ (fun x y => P x t.graph y t'.graph) l l')
    {a : α} {b : β} (ht : t.graph.Sound) (ht' : t'.graph.Sound) (hI : I a t.graph b t'.graph) :
    Beside quiet (l.foldlM f a) (l'.foldlM f' b) t t' I := by
  induction l generalizing l' a b t t' with
  | nil =>
    cases hl
    exact .pure ht ht' hI
  | cons x l ih =>
    obtain _ | ⟨hx, hrest⟩ := hl
    rw [List.foldlM_cons, List.foldlM_cons]
    refine (hf a x t b _ t' (.refl ht) (.refl ht') hx hI).bind fun a' u b' u' hg hg' hI' => ?_
    refine ih (fun x g y g' h h' hu hu' => hP x g y g' h h' (hg.trans hu) (hg'.trans hu'))
      (fun a x v b y v' hu hu' => hf a x v b y v' (hg.trans hu) (hg'.trans hu')) ?_ hg.sound
      hg'.sound hI'
    exact hrest.imp fun x y => hP x _ y _ _ _ (.refl ht) (.refl ht') hg hg'

/-- **The rule of the loop.** -/
theorem loop {step : α → Probe (α ⊕ γ)} {step' : β → Probe (β ⊕ δ)}
    (I : α → StackGraph → β → StackGraph → Prop)
    (hstep : ∀ a u b u', u.graph.Sound → u'.graph.Sound → I a u.graph b u'.graph →
      Beside quiet (step a) (step' b) u u' fun r g r' g' =>
        match r, r' with
        | .inl a', .inl b' => I a' g b' g'
        | .inr c, .inr d => R c g d g'
        | _, _ => False)
    {fuel fuel' : Nat} {a : α} {b : β} (ht : t.graph.Sound) (ht' : t'.graph.Sound)
    (hI : I a t.graph b t'.graph) :
    Beside quiet (Run.loop step fuel a) (Run.loop step' fuel' b) t t' R := by
  refine Run.Beside.loop (fun a u b u' => t.graph.Grown u.graph ∧ t'.graph.Grown u'.graph ∧
    (∃ asked, u.asked = t.asked ++ asked ∧ u'.asked = t'.asked ++ asked ∧
      (quiet = true → asked = [])) ∧ I a u.graph b u'.graph) ?_
    ⟨.refl ht, .refl ht', ⟨[], by simp, by simp, fun _ => rfl⟩, hI⟩
  rintro a u b u' ⟨hg, hg', ⟨asked, hasked, hasked', hquiet⟩, hI'⟩
  refine Run.Beside.mono (hstep a u b u' hg.sound hg'.sound hI') ?_
    (fun e => (apart_iff hg hg' e).mp) fun e e' => (alike_iff hg hg' e e').mp
  rintro r v r' v' ⟨hh, hh', ⟨more, hmore, hmore', hquiet'⟩, hr⟩
  have hall : ∃ asked, v.asked = t.asked ++ asked ∧ v'.asked = t'.asked ++ asked ∧
      (quiet = true → asked = []) := by
    refine ⟨asked ++ more, ?_, ?_, fun hq => ?_⟩
    · rw [hmore, hasked, List.append_assoc]
    · rw [hmore', hasked', List.append_assoc]
    · rw [hquiet hq, hquiet' hq, List.append_nil]
  match r, r' with
  | .inl _, .inl _ => exact ⟨hg.trans hh, hg'.trans hh', hall, hr⟩
  | .inr _, .inr _ => exact ⟨hg.trans hh, hg'.trans hh', hall, hr⟩
  | .inl _, .inr _ => exact hr.elim
  | .inr _, .inl _ => exact hr.elim

end Beside

end Probe

end AdaptiveLL
