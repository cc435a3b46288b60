import AdaptiveLL.Network.Lookahead
import AdaptiveLL.Proofs.Network.Machine
import Mathlib.Data.Fintype.BigOperators
import Mathlib.Data.Fintype.Pi

/-!
# Look-ahead walks return

A walk calls a rule only if no call of it is pending, and leaves every pair of a state and a stack
alone that it has come to before. In a network whose rules are sections of their own, the rules with
a pending call are just those whose follow states stand on the stack above the one the walk began
with, so that there are finitely many pairs it can come to. `Network.walkBound` counts them, and a
walk with that much fuel returns.
-/

namespace AdaptiveLL

namespace Transition

theorem onward_epsilon {t : Transition} (heps : t.isEpsilon = true) (hrule : t.isRule = false)
    (atEof : Bool) (σ : List StateId) : t.onward atEof σ = some (t.target, σ) := by
  cases t <;> simp_all [onward, isEpsilon, isRule, target]

end Transition

namespace Network

variable {net : Network}

/-- **The rules are sections of the network.** Ways that are no calls stay within their rule, the end
of a rule apart, and a call goes on in the rule that made it. Nothing leads to the start of a mode,
which is part of no rule. -/
structure Sectioned (net : Network) : Prop where
  inner : ∀ q, ∀ t ∈ (net.state q).transitions, (net.state t.target).kind ≠ .tokensStart
  along : ∀ q, (net.state q).kind ≠ .tokensStart → net.isStop q = false →
    ∀ t ∈ (net.state q).transitions, t.isRule = false →
      (net.state t.target).rule = (net.state q).rule
  call : ∀ q target rule follow level,
    .rule target rule follow level ∈ (net.state q).transitions →
      (net.state target).rule = rule ∧ (net.state follow).rule = (net.state q).rule ∧
        (net.state follow).kind ≠ .tokensStart

/-! ## Pending calls -/

/-- Taking out the rule called last leaves those called before it. -/
theorem filter_last {rule : Nat} {rules : List Nat} (hnew : rule ∉ rules) :
    (rule :: rules).filter (· != rule) = rules := by
  rw [List.filter_cons_of_neg (by simp), List.filter_eq_self]
  intro other hmem
  exact bne_iff_ne.mpr fun heq => hnew (heq ▸ hmem)

/-- **The calls of some rules are pending,** innermost first, above a part of the stack with which
the walk began. The state belongs to the rule called last. -/
inductive Pending (net : Network) (initial : List StateId) : Stand → List Nat → Prop where
  | base {q : StateId} {σ : List StateId} : σ <:+ initial → Pending net initial (q, σ) []
  | call {q follow : StateId} {σ : List StateId} {rules : List Nat} :
      Pending net initial (follow, σ) rules → (net.state q).kind ≠ .tokensStart →
      follow < net.states.size → (net.state q).rule < net.ruleCount →
      (net.state q).rule ∉ rules →
      Pending net initial (q, follow :: σ) ((net.state q).rule :: rules)

namespace Pending

variable {initial : List StateId} {q : StateId} {σ : List StateId} {rules : List Nat}

/-- A step within the rule called last. -/
theorem move (h : net.Pending initial (q, σ) rules) {q' : StateId}
    (hrule : (net.state q).kind ≠ .tokensStart → (net.state q').rule = (net.state q).rule)
    (hkind : (net.state q').kind ≠ .tokensStart) : net.Pending initial (q', σ) rules := by
  cases h with
  | base hσ => exact .base hσ
  | call hbelow hinner hfollow hlt hnew =>
    rw [← hrule hinner] at hlt hnew ⊢
    exact .call hbelow hkind hfollow hlt hnew

theorem along (hnet : net.Sectioned) (h : net.Pending initial (q, σ) rules)
    (hq : net.isStop q = false) {t : Transition} (ht : t ∈ (net.state q).transitions)
    (hrule : t.isRule = false) : net.Pending initial (t.target, σ) rules :=
  h.move (fun hkind => hnet.along q hkind hq t ht hrule) (hnet.inner q t ht)

/-- A rule without a pending call is called. -/
theorem enter (hnet : net.Consistent) (hsec : net.Sectioned)
    (h : net.Pending initial (q, σ) rules) {target follow : StateId} {rule : Nat} {level : Int}
    (ht : .rule target rule follow level ∈ (net.state q).transitions) (hnew : rule ∉ rules) :
    net.Pending initial (target, follow :: σ) (rule :: rules) := by
  obtain ⟨hcallee, hfollow, hkind⟩ := hsec.call _ _ _ _ _ ht
  obtain ⟨hlt, -⟩ := Array.getElem?_eq_some_iff.mp (hnet.start_of_call _ _ _ _ _ ht)
  rw [hnet.starts_size] at hlt
  rw [← hcallee] at hnew hlt ⊢
  exact .call (h.move (fun _ => hfollow) hkind) (hsec.inner _ _ ht) (hnet.follow_lt _ _ _ _ _ ht) hlt
    hnew

/-- The rule that ends is no longer pending, and no other one. -/
theorem back {r : StateId} (h : net.Pending initial (q, r :: σ) rules) :
    net.Pending initial (r, σ) (rules.filter (· != (net.state q).rule)) := by
  cases h with
  | base hσ => exact .base ((List.suffix_cons r σ).trans hσ)
  | call hbelow _ _ _ hnew => rwa [filter_last hnew]

theorem nodup (h : net.Pending initial (q, σ) rules) : rules.Nodup := by
  generalize hc : (q, σ) = c at h
  induction h generalizing q σ with
  | base => exact List.nodup_nil
  | call _ _ _ _ hnew ih => exact List.nodup_cons.mpr ⟨hnew, ih rfl⟩

theorem rule_lt (h : net.Pending initial (q, σ) rules) : ∀ rule ∈ rules, rule < net.ruleCount := by
  generalize hc : (q, σ) = c at h
  induction h generalizing q σ with
  | base => exact nofun
  | call _ _ _ hlt _ ih => exact List.forall_mem_cons.mpr ⟨hlt, ih rfl⟩

theorem length_le (h : net.Pending initial (q, σ) rules) : rules.length ≤ net.ruleCount := by
  have hsub : rules ⊆ List.range net.ruleCount := fun rule hrule =>
    List.mem_range.mpr (h.rule_lt rule hrule)
  simpa using (h.nodup.subperm hsub).length_le

/-- Above a part of the initial stack there is a follow state for every pending call. -/
theorem exists_above (h : net.Pending initial (q, σ) rules) : ∃ above ρ, σ = above ++ ρ ∧
    above.length = rules.length ∧ (∀ s ∈ above, s < net.states.size) ∧ ρ <:+ initial := by
  generalize hc : (q, σ) = c at h
  induction h generalizing q σ with
  | base hσ =>
    obtain ⟨rfl, rfl⟩ := Prod.mk.inj hc
    exact ⟨[], σ, rfl, rfl, nofun, hσ⟩
  | @call q' follow σ' rules' _ _ hfollow _ _ ih =>
    obtain ⟨rfl, rfl⟩ := Prod.mk.inj hc
    obtain ⟨above, ρ, rfl, hlength, hlt, hρ⟩ := ih rfl
    exact ⟨follow :: above, ρ, rfl, congrArg (· + 1) hlength,
      List.forall_mem_cons.mpr ⟨hfollow, hlt⟩, hρ⟩

end Pending

/-! ## The stands of a walk -/

/-- The stack with some return states, of which a number that belongs to no state is none, above the
initial stack less its first frames. -/
def decodeStand (net : Network) (initial : List StateId)
    (code : Fin (net.states.size + 1) × (Fin net.ruleCount → Fin (net.states.size + 1)) ×
      Fin (initial.length + 1)) : Stand :=
  (code.1, ((List.ofFn code.2.1).map Fin.val).filter (· < net.states.size) ++
    initial.drop code.2.2)

/-- Every stand that a walk can come to, and more. -/
def stands (net : Network) (initial : List StateId) : Finset Stand :=
  Finset.univ.image (net.decodeStand initial)

theorem card_stands_lt (net : Network) (initial : List StateId) :
    (net.stands initial).card < net.walkBound initial.length := by
  have hle : (net.stands initial).card ≤ _ := Finset.card_image_le
  rw [Finset.card_univ, Fintype.card_prod, Fintype.card_prod, Fintype.card_fun, Fintype.card_fin,
    Fintype.card_fin, Fintype.card_fin] at hle
  exact Nat.lt_succ_of_le hle

/-- **A walk with pending calls stands where it can be counted.** -/
theorem Pending.mem_stands {initial : List StateId} {q : StateId} {σ : List StateId}
    {rules : List Nat} (h : net.Pending initial (q, σ) rules) (hq : q < net.states.size) :
    (q, σ) ∈ net.stands initial := by
  obtain ⟨above, ρ, rfl, hlength, hlt, hρ⟩ := h.exists_above
  have hle : above.length ≤ net.ruleCount := hlength ▸ h.length_le
  -- The return states come first in the code; what follows them is no state.
  have hbound : ∀ i : Fin net.ruleCount,
      (above[i.val]?).getD net.states.size < net.states.size + 1 := by
    intro i
    cases hget : above[i.val]? with
    | none => exact Nat.lt_succ_self _
    | some s => exact Nat.lt_succ_of_lt (hlt s (List.mem_of_getElem? hget))
  have hcode : (List.ofFn fun i : Fin net.ruleCount =>
      (above[i.val]?).getD net.states.size) =
        above ++ List.replicate (net.ruleCount - above.length) net.states.size := by
    refine List.ext_getElem (by simp; omega) fun i hi _ => ?_
    rw [List.getElem_ofFn]
    by_cases hin : i < above.length
    · simp [hin]
    · simp [hin, List.getElem_append_right (Nat.le_of_not_lt hin)]
  obtain ⟨first, hfirst⟩ := hρ
  refine Finset.mem_image.mpr ⟨⟨⟨q, Nat.lt_succ_of_lt hq⟩, fun i => ⟨_, hbound i⟩,
    ⟨first.length, ?_⟩⟩, Finset.mem_univ _, ?_⟩
  · rw [← hfirst, List.length_append]
    omega
  · have hdrop : initial.drop first.length = ρ := by rw [← hfirst, List.drop_left]
    have habove : above.filter (· < net.states.size) = above :=
      List.filter_eq_self.mpr fun s hs => decide_eq_true (hlt s hs)
    simp only [decodeStand, List.map_ofFn, Function.comp_def, hdrop, hcode, List.filter_append,
      habove, List.filter_replicate]
    simp

/-! ## The walk -/

/-- A walk goes on along a transition, in the manner of `go`. -/
def walkAlong (net : Network) (go : StateId → List StateId → List Nat → Look → Option Look)
    (stack : List StateId) (called : List Nat) (look : Look) (t : Transition) : Option Look :=
  match t with
  | .rule target rule follow _ =>
    if called.contains rule then some look else go target (follow :: stack) (rule :: called) look
  | t =>
    if t.isEpsilon then go t.target stack called look
    else some { look with symbols := look.symbols.union (net.consumed t) }

theorem walkAll_cons (below : Symbol) (fuel : Nat) (t : Transition) (rest : List Transition)
    (stack : List StateId) (called : List Nat) (look : Look) :
    net.walkAll below fuel (t :: rest) stack called look =
      (net.walkAlong (net.walk below fuel) stack called look t).bind fun look =>
        net.walkAll below fuel rest stack called look := by
  cases t with
  | rule => rw [walkAll]; rfl
  | _ =>
    rw [walkAll]
    · rfl
    all_goals
      intros
      contradiction

section

variable {go : StateId → List StateId → List Nat → Look → Option Look} {stack : List StateId}
  {called : List Nat} {look : Look} {t : Transition}

theorem walkAlong_call (target : StateId) (rule : Nat) (follow : StateId) (level : Int) :
    net.walkAlong go stack called look (.rule target rule follow level) =
      if called.contains rule then some look
      else go target (follow :: stack) (rule :: called) look := rfl

theorem walkAlong_epsilon (heps : t.isEpsilon = true) (hrule : t.isRule = false) :
    net.walkAlong go stack called look t = go t.target stack called look := by
  cases t <;> simp_all [Transition.isEpsilon, Transition.isRule, Transition.target, walkAlong]

theorem walkAlong_match (heps : t.isEpsilon = false) :
    net.walkAlong go stack called look t =
      some { look with symbols := look.symbols.union (net.consumed t) } := by
  cases t <;> first | rfl | cases heps

end

section

variable {below : Symbol} {initial : List StateId}

/-- The stands that a walk has still to come to. -/
def unseen (net : Network) (initial : List StateId) (look : Look) : Finset Stand :=
  net.stands initial \ look.seen.toFinset

theorem card_unseen_le {look look' : Look} (h : look.seen ⊆ look'.seen) :
    (net.unseen initial look').card ≤ (net.unseen initial look).card := by
  refine Finset.card_le_card (Finset.sdiff_subset_sdiff (Finset.Subset.refl _) fun c hc => ?_)
  exact List.mem_toFinset.mpr (h (List.mem_toFinset.mp hc))

theorem card_unseen_lt {look look' : Look} {c : Stand} (hc : c ∈ net.stands initial)
    (hnot : c ∉ look.seen) (h : look'.seen = c :: look.seen) :
    (net.unseen initial look').card < (net.unseen initial look).card := by
  refine Finset.card_lt_card ⟨?_, fun hsub => ?_⟩
  · intro d hd
    obtain ⟨hd, hseen⟩ := Finset.mem_sdiff.mp hd
    refine Finset.mem_sdiff.mpr ⟨hd, fun hmem => hseen ?_⟩
    rw [h, List.mem_toFinset]
    exact List.mem_cons_of_mem _ (List.mem_toFinset.mp hmem)
  · have hin : c ∈ net.unseen initial look :=
      Finset.mem_sdiff.mpr ⟨hc, fun hmem => hnot (List.mem_toFinset.mp hmem)⟩
    refine (Finset.mem_sdiff.mp (hsub hin)).2 ?_
    rw [h, List.mem_toFinset]
    exact List.mem_cons_self ..

/-- What a walk is asked for at some amount of fuel. -/
private def Returns (net : Network) (below : Symbol) (initial : List StateId) (fuel : Nat) : Prop :=
  ∀ {q : StateId} {σ : List StateId} {called : List Nat} {look : Look},
    net.Pending initial (q, σ) called → (net.unseen initial look).card < fuel →
      ∃ look', net.walk below fuel q σ called look = some look' ∧ look.seen ⊆ look'.seen

private theorem walkAlong_returns (hnet : net.Consistent) (hsec : net.Sectioned) {fuel : Nat}
    (hwalk : net.Returns below initial fuel) {q : StateId} {σ : List StateId} {called : List Nat}
    (h : net.Pending initial (q, σ) called) (hq : net.isStop q = false) {t : Transition}
    (ht : t ∈ (net.state q).transitions) {look : Look}
    (hfuel : (net.unseen initial look).card < fuel) :
    ∃ look', net.walkAlong (net.walk below fuel) σ called look t = some look' ∧
      look.seen ⊆ look'.seen := by
  cases heps : t.isEpsilon with
  | false => exact ⟨_, walkAlong_match heps, List.Subset.refl _⟩
  | true =>
    cases hrule : t.isRule with
    | false =>
      rw [walkAlong_epsilon heps hrule]
      exact hwalk (h.along hsec hq ht hrule) hfuel
    | true =>
      cases t with
      | rule target rule follow level =>
        rw [walkAlong_call]
        split
        · exact ⟨look, rfl, List.Subset.refl _⟩
        · next hnew => exact hwalk (h.enter hnet hsec ht (by simpa using hnew)) hfuel
      | _ => cases hrule

private theorem walkAll_returns (hnet : net.Consistent) (hsec : net.Sectioned) {fuel : Nat}
    (hwalk : net.Returns below initial fuel) {q : StateId} {σ : List StateId} {called : List Nat}
    (h : net.Pending initial (q, σ) called) (hq : net.isStop q = false) {ts : List Transition}
    (hts : ∀ t ∈ ts, t ∈ (net.state q).transitions) {look : Look}
    (hfuel : (net.unseen initial look).card < fuel) :
    ∃ look', net.walkAll below fuel ts σ called look = some look' ∧ look.seen ⊆ look'.seen := by
  induction ts generalizing look with
  | nil => exact ⟨look, by rw [walkAll], List.Subset.refl _⟩
  | cons t ts ih =>
    obtain ⟨ht, hts⟩ := List.forall_mem_cons.mp hts
    obtain ⟨mid, hmid, hsub⟩ := walkAlong_returns hnet hsec hwalk h hq ht hfuel
    obtain ⟨look', hlook', hsub'⟩ := ih hts (Nat.lt_of_le_of_lt (card_unseen_le hsub) hfuel)
    refine ⟨look', ?_, List.Subset.trans hsub hsub'⟩
    rw [walkAll_cons, hmid]
    exact hlook'

/-- **A walk returns** if it has more fuel than there are stands it has not come to. -/
theorem walk_returns (hnet : net.Consistent) (hsec : net.Sectioned) (fuel : Nat) :
    net.Returns below initial fuel := by
  induction fuel with
  | zero => exact fun _ hfuel => absurd hfuel (Nat.not_lt_zero _)
  | succ fuel ih =>
    intro q σ called look h hfuel
    rw [walk]
    split
    · exact ⟨look, rfl, List.Subset.refl _⟩
    · next hnot =>
      rw [List.contains_eq_mem, decide_eq_true_eq] at hnot
      have hsub : look.seen ⊆ (q, σ) :: look.seen := List.subset_cons_self _ _
      rcases Nat.lt_or_ge q net.states.size with hq | hq
      · -- The stand counts as seen from now on.
        have hless : (net.unseen initial { look with seen := (q, σ) :: look.seen }).card < fuel :=
          Nat.lt_of_lt_of_le (card_unseen_lt (h.mem_stands hq) hnot rfl) (Nat.le_of_lt_succ hfuel)
        dsimp only
        split
        · next hstop =>
          cases σ with
          | nil => exact ⟨_, rfl, hsub⟩
          | cons r σ =>
            obtain ⟨look', hlook', hsub'⟩ := ih h.back hless
            exact ⟨look', hlook', List.Subset.trans hsub hsub'⟩
        · next hstop =>
          obtain ⟨look', hlook', hsub'⟩ := walkAll_returns hnet hsec ih h
            (Bool.eq_false_of_not_eq_true hstop) (fun t ht => ht) hless
          exact ⟨look', hlook', List.Subset.trans hsub hsub'⟩
      · -- There is no such state, and no way on from it.
        have hplain : net.state q = default := by
          rcases net.state_cases q with ⟨hlt, -⟩ | ⟨-, hplain⟩
          · exact absurd hq (Nat.not_le.mpr hlt)
          · exact hplain
        rw [hplain]
        exact ⟨_, by rw [if_neg (by decide)]; exact walkAll.eq_1 .., hsub⟩

end

/-- **The look-ahead never runs out of fuel.** -/
theorem exists_walk (hnet : net.Consistent) (hsec : net.Sectioned) (below : Symbol) (q : StateId)
    (stack : List StateId) :
    ∃ look, net.walk below (net.walkBound stack.length) q stack [] {} = some look := by
  obtain ⟨look, hlook, -⟩ := walk_returns hnet hsec (net.walkBound stack.length)
    (.base (List.suffix_refl stack))
    (Nat.lt_of_le_of_lt (Finset.card_le_card Finset.sdiff_subset) (net.card_stands_lt stack))
  exact ⟨look, hlook⟩

end Network

end AdaptiveLL
