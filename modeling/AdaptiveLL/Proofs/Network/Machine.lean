import AdaptiveLL.Proofs.Network.Passing
import Mathlib.Data.List.Nodup
import Mathlib.Data.Fintype.Card
import Mathlib.Logic.Relation

/-!
# Runs of a network

A network is a machine with a stack. It *stands* at a state, under the states at which its active
calls go on, innermost first. Some steps consume nothing: those are *hops*. A run reads a word by
hops and by transitions that consume its symbols one after the other.

A rule re-enters itself if its start is reached again, under further calls, before a symbol is
consumed; matching the end of the input consumes nothing. In a network without re-entry the calls
that are made without consuming anything nest no deeper than there are rules.
-/

namespace AdaptiveLL

/-- A state and the states at which the active calls go on, innermost first. -/
abbrev Stand := StateId × List StateId

namespace Transition

/-- Where a transition leads without consuming a symbol. With `atEof` it may match the end of the
input. -/
def onward (atEof : Bool) (t : Transition) (σ : List StateId) : Option Stand :=
  match t with
  | .rule target _ follow _ => some (target, follow :: σ)
  | .epsilon target | .predicate target .. | .precedence target _ | .action target .. =>
    some (target, σ)
  | .atom .. | .range .. | .set .. =>
    if atEof && t.accepts Symbol.eof 0 1 then some (t.target, σ) else none
  | .notSet .. | .wildcard _ => none

theorem onward_append {atEof : Bool} {t : Transition} {σ : List StateId} {d : Stand}
    (h : t.onward atEof σ = some d) (ρ : List StateId) :
    t.onward atEof (σ ++ ρ) = some (d.1, d.2 ++ ρ) := by
  cases t <;> simp only [onward, Option.some.injEq, reduceCtorEq] at h ⊢
  case rule => simp [← h]
  case epsilon => simp [← h]
  case predicate => simp [← h]
  case precedence => simp [← h]
  case action => simp [← h]
  all_goals
    split at h
    · next hacc => simp [hacc, ← Option.some.inj h]
    · cases h

/-- A transition that consumes a symbol is no hop before the end of the input. -/
theorem onward_match {t : Transition} (heps : t.isEpsilon = false) (σ : List StateId) :
    t.onward false σ = none := by
  cases t <;> first | rfl | cases heps

/-- What consumes nothing anywhere consumes nothing at the end of the input. -/
theorem onward_true {t : Transition} {σ : List StateId} {d : Stand}
    (h : t.onward false σ = some d) : t.onward true σ = some d := by
  cases t <;> simp_all [onward]

/-- What consumes nothing under one stack consumes nothing under any, a call apart. -/
theorem onward_any {atEof : Bool} {t : Transition} {σ : List StateId} {p : StateId}
    (h : t.onward atEof σ = some (p, σ)) (ρ : List StateId) : t.onward atEof ρ = some (p, ρ) := by
  cases t <;> simp_all [onward]

/-- A transition other than a call keeps the stack. -/
theorem onward_eq {atEof : Bool} {t : Transition} {σ : List StateId} {d : Stand}
    (h : t.onward atEof σ = some d) :
    d = (t.target, σ) ∨ ∃ rule follow level, t = .rule t.target rule follow level ∧
      d = (t.target, follow :: σ) := by
  cases t <;> simp only [onward, Option.some.injEq, reduceCtorEq] at h
  case rule => exact .inr ⟨_, _, _, rfl, h.symm⟩
  case epsilon => exact .inl h.symm
  case predicate => exact .inl h.symm
  case precedence => exact .inl h.symm
  case action => exact .inl h.symm
  all_goals
    split at h
    · exact .inl (Option.some.inj h).symm
    · cases h

/-- What consumes nothing above some calls consumes nothing without them. -/
theorem onward_above {atEof : Bool} {t : Transition} {σ ρ : List StateId} {d : Stand}
    (h : t.onward atEof (σ ++ ρ) = some d) :
    ∃ σ', d = (t.target, σ' ++ ρ) ∧ t.onward atEof σ = some (t.target, σ') := by
  rcases onward_eq h with hd | ⟨rule, follow, level, hrule, hd⟩
  · refine ⟨σ, hd, ?_⟩
    rw [hd] at h
    cases t <;> simp_all [onward, target]
  · refine ⟨follow :: σ, hd, ?_⟩
    rw [hrule]
    rfl

end Transition

namespace Network

/-- Whether the state ends its rule. -/
def isStop (net : Network) (q : StateId) : Bool := (net.state q).isRuleStop

/-- **A step that consumes nothing.** At the end of a rule the machine goes on where the rule was
called. If the stack is not complete (`full` does not hold), an empty stack stands for an unknown
caller, and the transitions of the stop state lead on. -/
inductive Hop (net : Network) (full atEof : Bool) : Stand → Stand → Prop where
  | along {q : StateId} {σ : List StateId} {t : Transition} {d : Stand} :
      (net.isStop q = true → full = false ∧ σ = []) → t ∈ (net.state q).transitions →
      t.onward atEof σ = some d → Hop net full atEof (q, σ) d
  | back {q r : StateId} {σ : List StateId} :
      net.isStop q = true → Hop net full atEof (q, r :: σ) (r, σ)

/-- **The run reads a word** on its way from one stand to another. -/
inductive Reads (net : Network) : Stand → List Symbol → Stand → Prop where
  | refl (c : Stand) : Reads net c [] c
  | hop {c d e : Stand} {w : List Symbol} :
      net.Hop true false c d → Reads net d w e → Reads net c w e
  | eat {q : StateId} {σ : List StateId} {t : Transition} {v : Symbol} {w : List Symbol}
      {e : Stand} :
      net.isStop q = false → t ∈ (net.state q).transitions →
      t.accepts v net.firstSymbol net.lastSymbol = true →
      Reads net (t.target, σ) w e → Reads net (q, σ) (v :: w) e

/-- Many steps that consume nothing, the end of the input included. -/
abbrev Idle (net : Network) : Stand → Stand → Prop := Relation.ReflTransGen (net.Hop true true)

/-- **No rule can re-enter itself before a symbol is consumed.** -/
def NoReentry (net : Network) : Prop :=
  ∀ (rule : Nat) (start : StateId) (ρ : List StateId), net.ruleStarts[rule]? = some start →
    net.Idle (start, []) (start, ρ) → ρ = []

/-- No rule can re-enter itself in some manner of hopping: before a symbol is consumed, or also
before the end of the input is matched if `atEof` does not hold. -/
def NoReentryBy (net : Network) (atEof : Bool) : Prop :=
  ∀ (rule : Nat) (start : StateId) (ρ : List StateId), net.ruleStarts[rule]? = some start →
    Relation.ReflTransGen (net.Hop true atEof) (start, []) (start, ρ) → ρ = []

variable {net : Network}

/-! ## Hops -/

/-- What consumes nothing anywhere consumes nothing at the end of the input. -/
theorem Hop.atEnd {full : Bool} {c d : Stand} (h : net.Hop full false c d) :
    net.Hop full true c d := by
  cases h with
  | along hstop ht hon => exact .along hstop ht (Transition.onward_true hon)
  | back hstop => exact .back hstop

theorem Hop.atEnd_of {full atEof : Bool} {c d : Stand} (h : net.Hop full atEof c d) :
    net.Hop full true c d := by
  cases atEof with
  | true => exact h
  | false => exact h.atEnd

/-- Without re-entry there is none in any manner. -/
theorem NoReentry.noReentryBy (h : net.NoReentry) (atEof : Bool) : net.NoReentryBy atEof :=
  fun rule start ρ hstart hrun => h rule start ρ hstart (hrun.lift id fun _ _ hhop => hhop.atEnd_of)

/-- The two kinds of hops under a complete stack. -/
theorem Hop.along_or_back {atEof : Bool} {c d : Stand} (h : net.Hop true atEof c d) :
    (net.isStop c.1 = false ∧ ∃ t ∈ (net.state c.1).transitions, t.onward atEof c.2 = some d) ∨
      (net.isStop c.1 = true ∧ c.2 = d.1 :: d.2) := by
  cases h with
  | @along q _ t _ hstop ht hon =>
    refine .inl ⟨?_, t, ht, hon⟩
    by_contra hne
    simpa using (hstop (by simpa using hne)).1
  | back hstop => exact .inr ⟨hstop, rfl⟩

/-- Calls further out do not matter to a hop. -/
theorem Hop.append {atEof : Bool} {c d : Stand} (h : net.Hop true atEof c d)
    (ρ : List StateId) : net.Hop true atEof (c.1, c.2 ++ ρ) (d.1, d.2 ++ ρ) := by
  cases h with
  | along hstop ht hon =>
    refine .along (fun hs => ?_) ht (Transition.onward_append hon ρ)
    simpa using (hstop hs).1
  | back hstop => exact .back hstop

/-- Calls further out do not matter to hops. -/
theorem hops_append {atEof : Bool} {c d : Stand}
    (h : Relation.ReflTransGen (net.Hop true atEof) c d) (ρ : List StateId) :
    Relation.ReflTransGen (net.Hop true atEof) (c.1, c.2 ++ ρ) (d.1, d.2 ++ ρ) :=
  h.lift (fun c : Stand => (c.1, c.2 ++ ρ)) fun _ _ hhop => hhop.append ρ

/-! ## Reading -/

namespace Reads

theorem trans {c d e : Stand} {w w' : List Symbol} (h : net.Reads c w d)
    (h' : net.Reads d w' e) : net.Reads c (w ++ w') e := by
  induction h with
  | refl => exact h'
  | hop hhop _ ih => exact .hop hhop (ih h')
  | eat hstop ht hacc _ ih => exact .eat hstop ht hacc (ih h')

/-- Calls further out do not matter to a run. -/
theorem append {c d : Stand} {w : List Symbol} (h : net.Reads c w d) (ρ : List StateId) :
    net.Reads (c.1, c.2 ++ ρ) w (d.1, d.2 ++ ρ) := by
  induction h with
  | refl => exact .refl _
  | hop hhop _ ih => exact .hop (hhop.append ρ) ih
  | eat hstop ht hacc _ ih => exact .eat hstop ht hacc ih

theorem of_hops {c d : Stand} (h : Relation.ReflTransGen (net.Hop true false) c d) :
    net.Reads c [] d := by
  induction h using Relation.ReflTransGen.head_induction_on with
  | refl => exact .refl _
  | head hhop _ ih => exact .hop hhop ih

/-- A run that reads nothing consists of hops. -/
theorem hops {c d : Stand} (h : net.Reads c [] d) :
    Relation.ReflTransGen (net.Hop true false) c d := by
  generalize hw : ([] : List Symbol) = w at h
  induction h with
  | refl => exact .refl
  | hop hhop _ ih => exact .head hhop (ih hw)
  | eat => cases hw

/-- A run that reads something hops to where its first symbol is consumed. -/
theorem cons_iff {c e : Stand} {v : Symbol} {w : List Symbol} :
    net.Reads c (v :: w) e ↔ ∃ q σ t, Relation.ReflTransGen (net.Hop true false) c (q, σ) ∧
      net.isStop q = false ∧ t ∈ (net.state q).transitions ∧
      t.accepts v net.firstSymbol net.lastSymbol = true ∧ net.Reads (t.target, σ) w e := by
  constructor
  · intro h
    generalize hw : v :: w = u at h
    induction h with
    | refl => cases hw
    | hop hhop _ ih =>
      obtain ⟨q, σ, t, hhops, hrest⟩ := ih hw
      exact ⟨q, σ, t, .head hhop hhops, hrest⟩
    | @eat q σ t v' w' e hstop ht hacc hrest _ =>
      obtain ⟨rfl, rfl⟩ := List.cons.inj hw
      exact ⟨q, σ, t, .refl, hstop, ht, hacc, hrest⟩
  · rintro ⟨q, σ, t, hhops, hstop, ht, hacc, hrest⟩
    exact (of_hops hhops).trans (.eat hstop ht hacc hrest)

theorem append_iff {c e : Stand} {w w' : List Symbol} :
    net.Reads c (w ++ w') e ↔ ∃ d, net.Reads c w d ∧ net.Reads d w' e := by
  constructor
  · intro h
    induction w generalizing c with
    | nil => exact ⟨c, .refl c, h⟩
    | cons v w ih =>
      obtain ⟨q, σ, t, hhops, hstop, ht, hacc, hrest⟩ := cons_iff.mp h
      obtain ⟨d, hd, hd'⟩ := ih hrest
      exact ⟨d, cons_iff.mpr ⟨q, σ, t, hhops, hstop, ht, hacc, hd⟩, hd'⟩
  · rintro ⟨d, h, h'⟩
    exact h.trans h'

/-- **A run above some calls** either stays above them, or returns to the outermost of its own
calls and goes on below it. -/
theorem above_or_returns {q : StateId} {σ ρ : List StateId} {w : List Symbol} {e : Stand}
    (h : net.Reads (q, σ ++ ρ) w e) :
    (∃ τ, e.2 = τ ++ ρ ∧ net.Reads (q, σ) w (e.1, τ)) ∨
      ∃ s r ρ' u u', ρ = r :: ρ' ∧ w = u ++ u' ∧ net.isStop s = true ∧
        net.Reads (q, σ) u (s, []) ∧ net.Reads (r, ρ') u' e := by
  generalize hc : (q, σ ++ ρ) = c at h
  induction h generalizing q σ with
  | refl =>
    subst hc
    exact .inl ⟨σ, rfl, .refl _⟩
  | hop hhop hrest ih =>
    subst hc
    rcases hhop.along_or_back with ⟨hq, t, ht, hon⟩ | ⟨hstop, heq⟩
    · -- The step makes one more call or none, above the same calls.
      obtain ⟨σ', hd, hon'⟩ := Transition.onward_above hon
      have hhop' : net.Hop true false (q, σ) (t.target, σ') :=
        .along (fun hs => by simp [hq] at hs) ht hon'
      rcases ih hd.symm with ⟨τ, hτ, hrun⟩ | ⟨s, r, ρ', u, u', hρ, hw, hs, hrun, hrun'⟩
      · exact .inl ⟨τ, hτ, .hop hhop' hrun⟩
      · exact .inr ⟨s, r, ρ', u, u', hρ, hw, hs, .hop hhop' hrun, hrun'⟩
    · cases σ with
      | nil => exact .inr ⟨q, _, _, [], _, heq, rfl, hstop, .refl _, hrest⟩
      | cons r σ =>
        obtain ⟨hr, hτ⟩ := List.cons.inj heq
        have hhop' : net.Hop true false (q, r :: σ) (r, σ) := .back hstop
        rcases ih (q := r) (σ := σ) (by rw [hr]; exact Prod.ext rfl hτ) with
          ⟨τ, hτ, hrun⟩ | ⟨s, r', ρ', u, u', hρ, hw, hs, hrun, hrun'⟩
        · exact .inl ⟨τ, hτ, .hop hhop' hrun⟩
        · exact .inr ⟨s, r', ρ', u, u', hρ, hw, hs, .hop hhop' hrun, hrun'⟩
  | @eat q' σ' t v w e hstop ht hacc hrest ih =>
    obtain ⟨rfl, rfl⟩ := Prod.mk.inj hc
    rcases ih (q := t.target) (σ := σ) rfl with ⟨τ, hτ, hrun⟩ | ⟨s, r, ρ', u, u', h⟩
    · exact .inl ⟨τ, hτ, .eat hstop ht hacc hrun⟩
    · exact .inr ⟨s, r, ρ', v :: u, u', h.1, by rw [h.2.1]; rfl, h.2.2.1,
        .eat hstop ht hacc h.2.2.2.1, h.2.2.2.2⟩

end Reads

/-! ## Nesting -/

/-- **The calls above some point,** all made in hops, by the rules they call, innermost first. -/
inductive Nested (net : Network) (atEof : Bool) : Stand → List Nat → Prop where
  | base (c : Stand) : Nested net atEof c []
  | call {q q' target follow : StateId} {σ : List StateId} {rule : Nat} {level : Int}
      {rules : List Nat} :
      Nested net atEof (q', σ) rules → net.isStop q' = false →
      .rule target rule follow level ∈ (net.state q').transitions →
      Relation.ReflTransGen (net.Hop true atEof) (target, []) (q, []) →
      Nested net atEof (q, follow :: σ) (rule :: rules)

namespace Nested

variable {atEof : Bool}

theorem enter {q target follow : StateId} {σ : List StateId} {rule : Nat} {level : Int}
    {rules : List Nat} (h : net.Nested atEof (q, σ) rules) (hq : net.isStop q = false)
    (ht : .rule target rule follow level ∈ (net.state q).transitions) :
    net.Nested atEof (target, follow :: σ) (rule :: rules) :=
  .call h hq ht .refl

/-- A step within the innermost rule. -/
theorem move {q q' : StateId} {σ : List StateId} {rules : List Nat}
    (h : net.Nested atEof (q, σ) rules) (hrun : Relation.ReflTransGen (net.Hop true atEof) (q, []) (q', [])) :
    net.Nested atEof (q', σ) rules := by
  cases h with
  | base => exact .base _
  | call hbelow hq ht hinner => exact .call hbelow hq ht (hinner.trans hrun)

/-- The return from the innermost rule. -/
theorem back {q follow : StateId} {σ : List StateId} {rule : Nat} {rules : List Nat}
    (h : net.Nested atEof (q, follow :: σ) (rule :: rules)) (hq : net.isStop q = true) :
    net.Nested atEof (follow, σ) rules := by
  cases h with
  | @call _ q' target _ _ _ level _ hbelow hq' ht hinner =>
    refine hbelow.move ?_
    have hcall : net.Hop true atEof (q', []) (target, [follow]) :=
      .along (fun hs => by simp [hq'] at hs) ht rfl
    have hreturn : net.Hop true atEof (q, [follow]) (follow, []) := .back hq
    exact ((Relation.ReflTransGen.single hcall).trans (hops_append hinner [follow])).tail hreturn

/-- Every rule of the nest leads on from its start. -/
theorem exists_hops (hnet : net.Consistent) {c : Stand} {rules : List Nat}
    (h : net.Nested atEof c rules) {rule : Nat} (hrule : rule ∈ rules) :
    ∃ start ρ, net.ruleStarts[rule]? = some start ∧
      Relation.ReflTransGen (net.Hop true atEof) (start, []) (c.1, ρ) := by
  induction h with
  | base => cases hrule
  | @call q q' target follow σ rule' level rules _ hq' ht hinner ih =>
    rcases List.mem_cons.mp hrule with rfl | hmem
    · exact ⟨target, [], hnet.start_of_call _ _ _ _ _ ht, hinner⟩
    · obtain ⟨start, ρ, hstart, hrun⟩ := ih hmem
      have hcall : net.Hop true atEof (q', ρ) (target, follow :: ρ) :=
        .along (fun hs => by simp [hq'] at hs) ht rfl
      exact ⟨start, follow :: ρ, hstart, (hrun.tail hcall).trans (hops_append hinner _)⟩

/-- **Without re-entry no rule is nested in itself.** -/
theorem nodup (hnet : net.Consistent) (hno : net.NoReentryBy atEof) {c : Stand} {rules : List Nat}
    (h : net.Nested atEof c rules) : rules.Nodup := by
  induction h with
  | base => exact List.nodup_nil
  | @call q q' target follow σ rule level rules hbelow hq' ht hinner ih =>
    refine List.nodup_cons.mpr ⟨fun hmem => ?_, ih⟩
    obtain ⟨start, ρ, hstart, hrun⟩ := hbelow.exists_hops hnet hmem
    have htarget : target = start :=
      Option.some.inj ((hnet.start_of_call _ _ _ _ _ ht).symm.trans hstart)
    subst htarget
    have hcall : net.Hop true atEof (q', ρ) (target, follow :: ρ) :=
      .along (fun hs => by simp [hq'] at hs) ht rfl
    have hnil := hno rule target (follow :: ρ) hstart (hrun.tail hcall)
    cases hnil

theorem rule_lt (hnet : net.Consistent) {c : Stand} {rules : List Nat}
    (h : net.Nested atEof c rules) : ∀ rule ∈ rules, rule < net.ruleCount := by
  intro rule hrule
  obtain ⟨start, _, hstart, _⟩ := h.exists_hops hnet hrule
  obtain ⟨hlt, _⟩ := Array.getElem?_eq_some_iff.mp hstart
  exact hnet.starts_size ▸ hlt

/-- **Without re-entry calls nest no deeper than there are rules.** -/
theorem length_le (hnet : net.Consistent) (hno : net.NoReentryBy atEof) {c : Stand} {rules : List Nat}
    (h : net.Nested atEof c rules) : rules.length ≤ net.ruleCount := by
  have hsub : rules ⊆ List.range net.ruleCount := fun rule hrule =>
    List.mem_range.mpr (h.rule_lt hnet rule hrule)
  simpa using ((h.nodup hnet hno).subperm hsub).length_le

end Nested

/-! ## Heights and scripts -/

/-- **Heights rule out re-entry** if no hop leads up, calls lead down, and what follows a call is no
higher than the call. -/
theorem noReentry_of_height (height : StateId → Nat)
    (h : ∀ q, net.isStop q = false → ∀ t ∈ (net.state q).transitions, ∀ d ∈ t.onward true [],
      height d.1 + d.2.length ≤ height q ∧ ∀ r ∈ d.2, height r ≤ height q) : net.NoReentry := by
  -- Every suffix of the stack keeps below the height of the start.
  have hkept : ∀ {s : StateId} {c : Stand}, net.Idle (s, []) c →
      height c.1 + c.2.length ≤ height s ∧
        ∀ r ρ, (r :: ρ) <:+ c.2 → height r + ρ.length ≤ height s := by
    intro s c hrun
    induction hrun with
    | refl => exact ⟨Nat.le_refl _, fun r ρ hsuffix => by simp at hsuffix⟩
    | @tail b c _ hhop ih =>
      obtain ⟨hb, hreturns⟩ := ih
      rcases hhop.along_or_back with ⟨hstop, t, ht, hon⟩ | ⟨-, heq⟩
      · rcases Transition.onward_eq hon with rfl | ⟨rule, follow, level, hcall, rfl⟩
        · obtain ⟨hle, -⟩ := h _ hstop t ht _ (Transition.onward_any hon [])
          exact ⟨le_trans (Nat.add_le_add_right hle _) hb, hreturns⟩
        · rw [hcall] at ht
          obtain ⟨hle, hfollow⟩ := h _ hstop _ ht _ rfl
          have hlow := hfollow follow (List.mem_singleton_self _)
          simp only [List.length_cons, List.length_nil] at hle ⊢
          refine ⟨by omega, fun r ρ hsuffix => ?_⟩
          rcases List.suffix_cons_iff.mp hsuffix with heq | hsuffix
          · obtain ⟨rfl, rfl⟩ := List.cons.inj heq
            omega
          · exact hreturns r ρ hsuffix
      · rw [heq] at hb hreturns
        refine ⟨hreturns _ _ (List.suffix_refl _), fun r ρ hsuffix => ?_⟩
        exact hreturns r ρ (hsuffix.trans (List.suffix_cons _ _))
  intro rule start ρ _ hrun
  have := (hkept hrun).1
  exact List.length_eq_zero_iff.mp (by dsimp only at this; omega)

/-- Where no rule calls another one, none is entered again before a symbol is read. -/
theorem noReentry_of_no_calls (h : ∀ q < net.states.size, ∀ t ∈ (net.state q).transitions,
    ∀ d ∈ t.onward true [], d.2 = []) : net.NoReentry := by
  refine noReentry_of_height (fun _ => 0) fun q _ t ht d hd => ?_
  rcases net.state_cases q with ⟨hlt, -⟩ | ⟨-, hplain⟩
  · rw [h q hlt t ht d hd]
    exact ⟨Nat.le_refl _, nofun⟩
  · rw [hplain] at ht
    cases ht

/-- One step of a run that is told which way to take. At the end of a rule it returns. -/
def guided (net : Network) (c : Stand) (w : List Symbol) (n : Nat) :
    Option (Stand × List Symbol) :=
  if net.isStop c.1 then
    match c.2 with
    | r :: σ => some ((r, σ), w)
    | [] => none
  else
    match (net.state c.1).transitions[n]? with
    | none => none
    | some t =>
      match t.onward false c.2 with
      | some d => some (d, w)
      | none =>
        match w with
        | v :: w =>
          if t.accepts v net.firstSymbol net.lastSymbol then some ((t.target, c.2), w) else none
        | [] => none

/-- Where the run comes to that takes the ways in a script, and what is left of the word. -/
def scripted (net : Network) : List Nat → Stand → List Symbol → Option (Stand × List Symbol)
  | [], c, w => some (c, w)
  | n :: script, c, w => (net.guided c w n).bind fun (c, w) => net.scripted script c w

private theorem reads_of_guided {c d e : Stand} {w w' : List Symbol} {n : Nat}
    (h : net.guided c w n = some (d, w')) (hd : net.Reads d w' e) : net.Reads c w e := by
  obtain ⟨q, σ⟩ := c
  unfold guided at h
  split at h
  · next hstop =>
    split at h
    · next hσ =>
      obtain ⟨rfl, rfl⟩ := Prod.mk.inj (Option.some.inj h)
      obtain rfl : σ = _ := hσ
      exact .hop (.back hstop) hd
    · cases h
  · next hstop =>
    split at h
    · cases h
    · next t ht =>
      have hmem := List.mem_of_getElem? ht
      split at h
      · next hon =>
        obtain ⟨rfl, rfl⟩ := Prod.mk.inj (Option.some.inj h)
        exact .hop (.along (fun hs => absurd hs hstop) hmem hon) hd
      · split at h
        · split at h
          · next hacc =>
            obtain ⟨rfl, rfl⟩ := Prod.mk.inj (Option.some.inj h)
            exact .eat (Bool.eq_false_of_not_eq_true hstop) hmem hacc hd
          · cases h
        · cases h

/-- **What follows a script is a run.** -/
theorem reads_of_scripted (script : List Nat) {c d : Stand} {w : List Symbol}
    (h : net.scripted script c w = some (d, [])) : net.Reads c w d := by
  induction script generalizing c w with
  | nil =>
    obtain ⟨rfl, rfl⟩ := Prod.mk.inj (Option.some.inj h)
    exact .refl _
  | cons n script ih =>
    obtain ⟨⟨c', w'⟩, hguided, hrest⟩ := Option.bind_eq_some_iff.mp h
    exact reads_of_guided hguided (ih hrest)

end Network

end AdaptiveLL
