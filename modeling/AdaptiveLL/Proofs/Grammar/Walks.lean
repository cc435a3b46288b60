import AdaptiveLL.Proofs.Grammar.Lookahead

/-!
# Walks end on every grammar

Left recursion, loops over what can be empty, and rules that call each other without consuming
anything make a look-ahead walk come back to a state under ever other stacks. It ends all the same,
on the network of every grammar, and its stack stays small: above what it began with there is one
frame for each rule at most, since a rule is not called while a call of it is pending.

What a walk comes to, it comes to with pending calls. This is an invariant of the walk, so it goes
for every stand that the walk notes.
-/

namespace AdaptiveLL

namespace Network

variable {net : Network} {below : Symbol}

/-! ## More fuel -/

/-- Walking on along transitions with more fuel. -/
private theorem walkAll_mono {fuel fuel' : Nat}
    (hwalk : ∀ {q : StateId} {σ : List StateId} {called : List Nat} {look look' : Look},
      net.walk below fuel q σ called look = some look' →
        net.walk below fuel' q σ called look = some look')
    {ts : List Transition} {σ : List StateId} {called : List Nat} {look look' : Look}
    (hrun : net.walkAll below fuel ts σ called look = some look') :
    net.walkAll below fuel' ts σ called look = some look' := by
  induction ts generalizing look with
  | nil => rwa [walkAll] at hrun ⊢
  | cons t ts ih =>
    rw [walkAll_cons] at hrun ⊢
    obtain ⟨mid, hmid, hrest⟩ := Option.bind_eq_some_iff.mp hrun
    have hmid' : net.walkAlong (net.walk below fuel') σ called look t = some mid := by
      cases heps : t.isEpsilon with
      | false =>
        rw [walkAlong_match heps] at hmid ⊢
        exact hmid
      | true =>
        cases hrule : t.isRule with
        | false =>
          rw [walkAlong_epsilon heps hrule] at hmid ⊢
          exact hwalk hmid
        | true =>
          cases t with
          | rule target rule follow level =>
            rw [walkAlong_call] at hmid ⊢
            split at hmid
            · next hpending => rwa [if_pos hpending]
            · next hnew =>
              rw [if_neg hnew]
              exact hwalk hmid
          | _ => cases hrule
    rw [hmid']
    exact ih hrest

/-- **More fuel makes no difference** to a walk that returns. -/
theorem walk_mono {fuel fuel' : Nat} (hle : fuel ≤ fuel') {q : StateId} {σ : List StateId}
    {called : List Nat} {look look' : Look}
    (hrun : net.walk below fuel q σ called look = some look') :
    net.walk below fuel' q σ called look = some look' := by
  induction fuel generalizing fuel' q σ called look look' with
  | zero =>
    rw [walk] at hrun
    cases hrun
  | succ fuel ih =>
    obtain ⟨fuel', rfl⟩ := Nat.exists_eq_succ_of_ne_zero (by omega : fuel' ≠ 0)
    have hwalk : ∀ {q : StateId} {σ : List StateId} {called : List Nat} {look look' : Look},
        net.walk below fuel q σ called look = some look' →
          net.walk below fuel' q σ called look = some look' := ih (Nat.le_of_succ_le_succ hle)
    rw [walk] at hrun ⊢
    split at hrun
    · next hseen => rwa [if_pos hseen]
    · next hseen =>
      rw [if_neg hseen]
      dsimp only at hrun ⊢
      split at hrun
      · next hstop =>
        rw [if_pos hstop]
        cases σ with
        | nil => exact hrun
        | cons r σ => exact hwalk hrun
      · next hstop =>
        rw [if_neg hstop]
        exact walkAll_mono hwalk hrun

/-! ## The stands that a walk comes to -/

section

variable {initial : List StateId}

/-- **There are no more frames** than those the walk began with and one for each rule. -/
theorem Pending.frames_le {c : Stand} {rules : List Nat} (h : net.Pending initial c rules) :
    c.2.length ≤ initial.length + net.ruleCount := by
  obtain ⟨q, σ⟩ := c
  obtain ⟨above, ρ, rfl, hlength, -, hρ⟩ := h.exists_above
  have hrules := h.length_le
  have hbelow := hρ.length_le
  rw [List.length_append]
  omega

/-- Every stand that is noted on the way from one finding to the next has pending calls. -/
private def Notes (net : Network) (initial : List StateId) (look look' : Look) : Prop :=
  ∀ c ∈ look'.seen, c ∈ look.seen ∨ ∃ rules, net.Pending initial c rules

private theorem Notes.refl (look : Look) : net.Notes initial look look := fun _ hc => .inl hc

private theorem Notes.trans {look look' look'' : Look} (h : net.Notes initial look look')
    (h' : net.Notes initial look' look'') : net.Notes initial look look'' :=
  fun c hc => (h' c hc).elim (h c) .inr

/-- What is asked of a walk with some amount of fuel. -/
private def WalkNotes (net : Network) (below : Symbol) (initial : List StateId) (fuel : Nat) : Prop :=
  ∀ {q : StateId} {σ : List StateId} {called : List Nat} {look look' : Look},
    net.Pending initial (q, σ) called → net.walk below fuel q σ called look = some look' →
      net.Notes initial look look'

private theorem walkAlong_notes (hnet : net.Consistent) (hsec : net.Sectioned) {fuel : Nat}
    (hwalk : net.WalkNotes below initial fuel) {q : StateId} {σ : List StateId} {called : List Nat}
    (h : net.Pending initial (q, σ) called) (hq : net.isStop q = false) {t : Transition}
    (ht : t ∈ (net.state q).transitions) {look look' : Look}
    (hrun : net.walkAlong (net.walk below fuel) σ called look t = some look') :
    net.Notes initial look look' := by
  cases heps : t.isEpsilon with
  | false =>
    rw [walkAlong_match heps] at hrun
    obtain rfl := Option.some.inj hrun
    exact fun c hc => .inl hc
  | true =>
    cases hrule : t.isRule with
    | false =>
      rw [walkAlong_epsilon heps hrule] at hrun
      exact hwalk (h.along hsec hq ht hrule) hrun
    | true =>
      cases t with
      | rule target rule follow level =>
        rw [walkAlong_call] at hrun
        split at hrun
        · obtain rfl := Option.some.inj hrun
          exact .refl look
        · next hnew => exact hwalk (h.enter hnet hsec ht (by simpa using hnew)) hrun
      | _ => cases hrule

private theorem walkAll_notes (hnet : net.Consistent) (hsec : net.Sectioned) {fuel : Nat}
    (hwalk : net.WalkNotes below initial fuel) {q : StateId} {σ : List StateId} {called : List Nat}
    (h : net.Pending initial (q, σ) called) (hq : net.isStop q = false) {ts : List Transition}
    (hts : ∀ t ∈ ts, t ∈ (net.state q).transitions) {look look' : Look}
    (hrun : net.walkAll below fuel ts σ called look = some look') :
    net.Notes initial look look' := by
  induction ts generalizing look with
  | nil =>
    rw [walkAll] at hrun
    obtain rfl := Option.some.inj hrun
    exact .refl look
  | cons t ts ih =>
    obtain ⟨ht, hts⟩ := List.forall_mem_cons.mp hts
    rw [walkAll_cons] at hrun
    obtain ⟨mid, hmid, hrest⟩ := Option.bind_eq_some_iff.mp hrun
    exact (walkAlong_notes hnet hsec hwalk h hq ht hmid).trans (ih hts hrest)

/-- **A walk comes to its stands with pending calls.** -/
theorem walk_pending (hnet : net.Consistent) (hsec : net.Sectioned) (fuel : Nat)
    {q : StateId} {σ : List StateId} {called : List Nat} {look look' : Look}
    (h : net.Pending initial (q, σ) called)
    (hrun : net.walk below fuel q σ called look = some look') :
    ∀ c ∈ look'.seen, c ∈ look.seen ∨ ∃ rules, net.Pending initial c rules := by
  induction fuel generalizing q σ called look look' with
  | zero =>
    rw [walk] at hrun
    cases hrun
  | succ fuel ih =>
    have hwalk : net.WalkNotes below initial fuel := ih
    rw [walk] at hrun
    split at hrun
    · obtain rfl := Option.some.inj hrun
      show net.Notes initial look look
      exact .refl look
    · dsimp only at hrun
      -- The stand itself is noted before the walk goes on.
      have hvisit : net.Notes initial look { look with seen := (q, σ) :: look.seen } :=
        List.forall_mem_cons.mpr ⟨.inr ⟨called, h⟩, fun c hc => .inl hc⟩
      split at hrun
      · cases σ with
        | nil =>
          obtain rfl := Option.some.inj hrun
          exact hvisit
        | cons r σ => exact hvisit.trans (hwalk h.back hrun)
      · next hstop =>
        exact hvisit.trans (walkAll_notes hnet hsec hwalk h (Bool.eq_false_of_not_eq_true hstop)
          (fun t ht => ht) hrun)

end

end Network

/-! ## Every grammar -/

namespace Grammar

/-- **The look-ahead walk ends on every grammar,** from every state and with every stack of follow
states. With as much fuel as `walkBound` says, or more, it returns, and always the same; and under no
state that it came to were there more frames than the stack had at the beginning and the grammar has
rules. -/
theorem walk_ends {g : Grammar} {net : Network} (h : g.compile = .ok net) (below : Symbol)
    (q : StateId) (stack : List StateId) :
    ∃ look, (∀ fuel, net.walkBound stack.length ≤ fuel →
        net.walk below fuel q stack [] {} = some look) ∧
      ∀ c ∈ look.seen, c.2.length ≤ stack.length + net.ruleCount := by
  obtain ⟨modeStarts, d, hbuilt⟩ := exists_built h
  have hnet := hbuilt.consistent
  have hsec := hbuilt.sectioned
  obtain ⟨look, hrun⟩ := Network.exists_walk hnet hsec below q stack
  refine ⟨look, fun fuel hfuel => Network.walk_mono hfuel hrun, fun c hc => ?_⟩
  have hpending := Network.walk_pending hnet hsec _ (.base (List.suffix_refl stack)) hrun c hc
  obtain ⟨rules, hrules⟩ := hpending.resolve_left List.not_mem_nil
  exact hrules.frames_le

/-- A grammar with left recursion, a loop over what can be empty, and two rules that call each other
before anything is consumed:

    sum : sum '+' | term* ;
    term : group? ;
    group : term sum | ; -/
def tangle : Grammar where
  kind := .parser
  name := "tangle"
  tokenNames := ["<INVALID>", "PLUS"]
  rules :=
    [⟨"sum", .alt [.seq [.ruleRef "sum" 0, .token 1], .star (.ruleRef "term" 0) true], none, 0⟩,
      ⟨"term", .optional (.ruleRef "group" 0) true, none, 0⟩,
      ⟨"group", .alt [.seq [.ruleRef "term" 0, .ruleRef "sum" 0], .epsilon], none, 0⟩]

/-- The network of the tangle. -/
def tangleNet : Network := tangle.compile.toOption.getD default

theorem compile_tangle : tangle.compile = .ok tangleNet := by
  have hok : tangle.compile.isOk = true := by decide +kernel
  unfold tangleNet
  cases h : tangle.compile with
  | ok net => rfl
  | error e => rw [h] at hok; cases hok

/-- The walk from the beginning of a sum within two others returns. Two frames were there, and at
most one is added for each of the three rules. -/
theorem tangle_walk_ends :
    ∃ look, tangleNet.walk Symbol.ruleEnd (tangleNet.walkBound [9, 28].length) 0 [9, 28] [] {} =
        some look ∧
      ∀ c ∈ look.seen, c.2.length ≤ 2 + 3 := by
  obtain ⟨look, hrun, hframes⟩ := walk_ends compile_tangle Symbol.ruleEnd 0 [9, 28]
  have hrules : tangleNet.ruleCount = 3 := by decide +kernel
  rw [hrules] at hframes
  exact ⟨look, hrun _ (Nat.le_refl _), hframes⟩

end Grammar

end AdaptiveLL
