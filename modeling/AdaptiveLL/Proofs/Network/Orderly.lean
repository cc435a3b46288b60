import AdaptiveLL.Proofs.Network.Machine

/-!
# Orderly networks

In an orderly network no transition but a call leaves its rule, and the end of a rule leads on to
every place where the rule is called. So a run that knows only a part of its stack can shadow one
that knows all of it: where the part is used up, it goes on at every place it may have been called
from.

A network is closed by a rule that nothing calls, if the end of the input is matched only before the
end of this rule.
-/

namespace AdaptiveLL

namespace Transition

/-- A symbol below zero is in no vocabulary. -/
theorem accepts_neg {t : Transition} {v lo hi lo' hi' : Symbol} (hv : v < 0) (h : 0 ≤ lo)
    (h' : 0 ≤ lo') : t.accepts v lo hi = t.accepts v lo' hi' := by
  have hlo : ¬lo ≤ v := fun hle => absurd (h.trans hle) (Int.not_le.mpr hv)
  have hlo' : ¬lo' ≤ v := fun hle => absurd (h'.trans hle) (Int.not_le.mpr hv)
  cases t <;> simp [accepts, hlo, hlo']

/-- The end of the input is in no vocabulary. -/
theorem accepts_eof {t : Transition} {lo hi lo' hi' : Symbol} (h : 0 ≤ lo) (h' : 0 ≤ lo') :
    t.accepts Symbol.eof lo hi = t.accepts Symbol.eof lo' hi' := accepts_neg (by decide) h h'

/-- A vocabulary may begin anywhere before a symbol of it. -/
theorem accepts_of_le {t : Transition} {v lo lo' hi : Symbol} (h : lo ≤ v) (h' : lo' ≤ v) :
    t.accepts v lo hi = t.accepts v lo' hi := by
  cases t <;> simp [accepts, h, h']

/-- What consumes a symbol is no call and no other step that consumes nothing. -/
theorem isEpsilon_of_accepts {t : Transition} {v lo hi : Symbol} (h : t.accepts v lo hi = true) :
    t.isEpsilon = false := by
  cases t <;> first | rfl | simp [accepts] at h

theorem isRule_of_isEpsilon {t : Transition} (h : t.isEpsilon = false) : t.isRule = false := by
  cases t <;> first | rfl | simp [isEpsilon] at h

end Transition

namespace Network

/-- No symbol of a vocabulary is below zero. -/
theorem firstSymbol_nonneg (net : Network) : 0 ≤ net.firstSymbol := by
  unfold firstSymbol
  split <;> decide

/-- **A network whose rules keep apart.** -/
structure Orderly (net : Network) : Prop where
  along : ∀ q, net.isStop q = false → ∀ t ∈ (net.state q).transitions, t.isRule = false →
    (net.state t.target).rule = (net.state q).rule
  call : ∀ q target rule follow level,
    .rule target rule follow level ∈ (net.state q).transitions →
      (net.state target).rule = rule ∧ (net.state follow).rule = (net.state q).rule
  alone : ∀ q target rule follow level,
    .rule target rule follow level ∈ (net.state q).transitions →
      (net.state q).transitions = [.rule target rule follow level] ∧ net.isStop q = false
  back : ∀ q target rule follow level,
    .rule target rule follow level ∈ (net.state q).transitions → ∀ s, net.isStop s = true →
      (net.state s).rule = rule → .epsilon follow ∈ (net.state s).transitions

/-- A call is the only transition of its state. -/
theorem Orderly.eq_singleton {net : Network} (hnet : net.Orderly) {q : StateId} {t : Transition}
    (ht : t ∈ (net.state q).transitions) (hrule : t.isRule = true) :
    (net.state q).transitions = [t] := by
  cases t with
  | rule => exact (hnet.alone _ _ _ _ _ ht).1
  | _ => cases hrule

/-- **The network is closed by the rule `top`,** which ends at `stop`. -/
structure Closed (net : Network) (top : Nat) (stop : StateId) : Prop where
  uncalled : ∀ q target follow level,
    .rule target top follow level ∉ (net.state q).transitions
  isStop : net.isStop stop = true
  ends : (net.state stop).transitions = []
  only : ∀ s, net.isStop s = true → (net.state s).rule = top → s = stop
  eof : ∀ q, ∀ t ∈ (net.state q).transitions, t.accepts Symbol.eof 0 1 = true →
    (net.state t.target).rule = top ∧ net.isStop t.target = false ∧
      (net.state t.target).transitions = [.epsilon stop]

/-- Every rule has one end. -/
def EndsOnce (net : Network) : Prop :=
  ∀ q q', net.isStop q = true → net.isStop q' = true → (net.state q).rule = (net.state q').rule →
    q = q'

/-! ## Stacks that calls have built -/

/-- **Every return state was put on the stack by a call** of the rule above it. The outermost rule
is `top`. -/
inductive Linked (net : Network) (top : Nat) : StateId → List StateId → Prop where
  | base {p : StateId} : (net.state p).rule = top → Linked net top p []
  | call {p r q target : StateId} {ρ : List StateId} {level : Int} :
      Linked net top r ρ →
      .rule target (net.state p).rule r level ∈ (net.state q).transitions →
      Linked net top p (r :: ρ)

namespace Linked

variable {net : Network} {top : Nat} {stop : StateId}

theorem congr {p p' : StateId} {ρ : List StateId} (h : net.Linked top p ρ)
    (hrule : (net.state p').rule = (net.state p).rule) : net.Linked top p' ρ := by
  cases h with
  | base htop => exact .base (hrule.trans htop)
  | call hbelow hcall => exact .call hbelow (hrule ▸ hcall)

/-- Under the outermost rule there is no call. -/
theorem eq_nil (hclosed : net.Closed top stop) {p : StateId} {ρ : List StateId}
    (h : net.Linked top p ρ) (htop : (net.state p).rule = top) : ρ = [] := by
  cases h with
  | base => rfl
  | call _ hcall =>
    rw [htop] at hcall
    exact absurd hcall (hclosed.uncalled _ _ _ _)

theorem hop (hnet : net.Orderly) {atEof : Bool} {c d : Stand} (h : net.Linked top c.1 c.2)
    (hhop : net.Hop true atEof c d) : net.Linked top d.1 d.2 := by
  rcases hhop.along_or_back with ⟨hq, t, ht, hon⟩ | ⟨_, heq⟩
  · rcases Transition.onward_eq hon with rfl | ⟨rule, follow, level, hrule, rfl⟩
    · refine h.congr (hnet.along _ hq t ht ?_)
      cases t <;> first | rfl | simp [Transition.onward] at hon
    · rw [hrule] at ht
      obtain ⟨htarget, hfollow⟩ := hnet.call _ _ _ _ _ ht
      exact .call (h.congr hfollow) (by rw [htarget]; exact ht)
  · rw [heq] at h
    cases h with
    | call hbelow _ => exact hbelow

theorem hops (hnet : net.Orderly) {atEof : Bool} {c d : Stand} (h : net.Linked top c.1 c.2)
    (hrun : Relation.ReflTransGen (net.Hop true atEof) c d) : net.Linked top d.1 d.2 := by
  induction hrun with
  | refl => exact h
  | tail _ hhop ih => exact ih.hop hnet hhop

theorem eat (hnet : net.Orderly) {q : StateId} {ρ : List StateId} {t : Transition} {v : Symbol}
    {lo hi : Symbol} (h : net.Linked top q ρ) (hq : net.isStop q = false)
    (ht : t ∈ (net.state q).transitions) (hacc : t.accepts v lo hi = true) :
    net.Linked top t.target ρ :=
  h.congr (hnet.along q hq t ht
    (Transition.isRule_of_isEpsilon (Transition.isEpsilon_of_accepts hacc)))

end Linked

/-! ## Shadows -/

/-- The stand `s` shadows the stand `c`: its stack is the upper part of that of `c`, and all of it
if stacks are exact. -/
def Shadows (full : Bool) (s c : Stand) : Prop :=
  s.1 = c.1 ∧ ∃ ρ, c.2 = s.2 ++ ρ ∧ (full = true → ρ = [])

variable {net : Network} {top : Nat} {full : Bool}

/-- With exact stacks nothing is left to shadow. -/
theorem Shadows.eq {s c : Stand} (h : Shadows true s c) : s = c := by
  obtain ⟨hp, ρ, hρ, hfull⟩ := h
  rw [hfull rfl, List.append_nil] at hρ
  exact Prod.ext hp hρ.symm

/-- A shadow follows every hop. -/
theorem Shadows.hop (hnet : net.Orderly) {atEof : Bool} {s c d : Stand} (hs : Shadows full s c)
    (hc : net.Linked top c.1 c.2) (hhop : net.Hop true atEof c d) :
    ∃ s', Shadows full s' d ∧ net.Hop full atEof s s' := by
  obtain ⟨p, σ⟩ := s
  obtain ⟨q, τ⟩ := c
  obtain ⟨hp, ρ, hρ, hfull⟩ := hs
  change p = q at hp
  change τ = σ ++ ρ at hρ
  subst hp hρ
  rcases hhop.along_or_back with ⟨hq, t, ht, hon⟩ | ⟨hstop, heq⟩
  · obtain ⟨σ', hd, hon'⟩ := Transition.onward_above hon
    refine ⟨(t.target, σ'), ⟨by rw [hd], ρ, by rw [hd], hfull⟩, ?_⟩
    exact .along (fun hs => by simp [show net.isStop p = false from hq] at hs) ht hon'
  · change σ ++ ρ = d.1 :: d.2 at heq
    cases σ with
    | cons r σ =>
      obtain ⟨rfl, hd⟩ := List.cons.inj heq
      exact ⟨(d.1, σ), ⟨rfl, ρ, hd.symm, hfull⟩, .back hstop⟩
    | nil =>
      -- The known part of the stack is used up: the follow links lead on.
      obtain rfl : ρ = d.1 :: d.2 := heq
      have hfalse : full = false := Bool.eq_false_of_not_eq_true fun h => nomatch hfull h
      cases hc with
      | call _ hcall =>
        refine ⟨(d.1, []), ⟨rfl, d.2, rfl, fun h => by simp [hfalse] at h⟩, ?_⟩
        exact .along (fun _ => ⟨hfalse, rfl⟩) (hnet.back _ _ _ _ _ hcall p hstop rfl) rfl

theorem Shadows.hops (hnet : net.Orderly) {atEof : Bool} {s c d : Stand} (hs : Shadows full s c)
    (hc : net.Linked top c.1 c.2) (hrun : Relation.ReflTransGen (net.Hop true atEof) c d) :
    ∃ s', Shadows full s' d ∧ Relation.ReflTransGen (net.Hop full atEof) s s' := by
  induction hrun with
  | refl => exact ⟨s, hs, .refl⟩
  | tail hrun hhop ih =>
    obtain ⟨s', hs', hrun'⟩ := ih
    obtain ⟨s'', hs'', hhop'⟩ := hs'.hop hnet (hc.hops hnet hrun) hhop
    exact ⟨s'', hs'', hrun'.tail hhop'⟩

end Network

end AdaptiveLL
