import AdaptiveLL.Proofs.Lookups.Stacks
import AdaptiveLL.Proofs.Network.Walks

/-!
# Lookups of look-ahead walks

A walk looks up every state it comes to, and for every call and every return the rule in the table
of pending calls. From a state of the network, under follow states that are states, it finds all of
them.

The strict walks below answer `none` where a number leads beyond its table, and otherwise what the
plain walk answers.
-/

namespace AdaptiveLL

namespace Network

/-! ## Strict walks -/

section

variable (net : Network)
  (go : StateId → List StateId → List Nat → Look → Option (Option Look))
  (stack : List StateId) (called : List Nat)

/-- Goes on along a transition. The rule of a call has to be there. -/
def strictAlong (look : Look) (t : Transition) : Option (Option Look) :=
  match t with
  | .rule target rule follow _ => do
    let _ ← net.ruleNames[rule]?
    if called.contains rule then some (some look)
    else go target (follow :: stack) (rule :: called) look
  | t =>
    if t.isEpsilon then go t.target stack called look
    else some (some { look with symbols := look.symbols.union (net.consumed t) })

def strictWalkAll (look : Look) : List Transition → Option (Option Look)
  | [] => some (some look)
  | t :: rest => do
    match ← strictAlong net go stack called look t with
    | none => some none
    | some look => strictWalkAll look rest

end

/-- Walks on from a state. The state has to be there, and so has the rule that returns. -/
def strictWalk (net : Network) (below : Symbol) :
    Nat → StateId → List StateId → List Nat → Look → Option (Option Look)
  | 0, _, _, _, _ => some none
  | fuel + 1, s, stack, called, look =>
    if look.seen.contains (s, stack) then some (some look)
    else do
      let look := { look with seen := (s, stack) :: look.seen }
      let state ← net.states[s]?
      if state.isRuleStop then
        match stack with
        | [] => some (some { look with symbols := look.symbols.insert below })
        | s :: stack => do
          let _ ← net.ruleNames[state.rule]?
          strictWalk net below fuel s stack (called.filter (· != state.rule)) look
      else net.strictWalkAll (strictWalk net below fuel) stack called look state.transitions

def strictLook (net : Network) (below : Symbol) (s : StateId) (stack : List StateId) :
    Option SymbolSet := do
  let last ← net.strictWalk below (net.walkBound stack.length) s stack [] {}
  pure ((last.map Look.symbols).getD .empty)

def strictNextTokens (net : Network) (s : StateId) : Option SymbolSet :=
  net.strictLook Symbol.ruleEnd s []

/-- Where the first call made at a state goes on. The state has to be there. -/
def strictFollowOf? (net : Network) (invoking : StateId) : Option (Option StateId) := do
  let state ← net.states[invoking]?
  pure (state.transitions.findSome? Transition.follow?)

def strictExpectedAfter (net : Network) :
    (expected following : SymbolSet) → List StateId → Option SymbolSet
  | expected, following, callers =>
    if !following.contains Symbol.ruleEnd then some expected
    else match callers with
      | [] => some (expected.insert Symbol.eof)
      | caller :: rest => do
        match ← net.strictFollowOf? caller with
        | none => some (expected.insert Symbol.eof)
        | some follow =>
          let following ← net.strictNextTokens follow
          strictExpectedAfter net ((expected.union following).erase Symbol.ruleEnd) following rest

def strictExpectedTokens (net : Network) (s : StateId) (callers : List StateId) :
    Option SymbolSet := do
  let following ← net.strictNextTokens s
  if following.contains Symbol.ruleEnd then
    net.strictExpectedAfter (following.erase Symbol.ruleEnd) following callers.reverse
  else some following

def strictNextTokensInContext (net : Network) (s : StateId) (callers : List StateId) :
    Option SymbolSet := do
  let follows ← callers.mapM net.strictFollowOf?
  net.strictLook Symbol.eof s (follows.filterMap id).reverse

/-! ## In range -/

variable {net : Network}

/-- The rule of a call has a name. -/
private theorem exists_ruleName_of_call (hnet : net.Consistent) {q target follow : StateId}
    {rule : Nat} {level : Int}
    (h : .rule target rule follow level ∈ (net.state q).transitions) :
    ∃ name, net.ruleNames[rule]? = some name := by
  obtain ⟨hlt, -⟩ := Array.getElem?_eq_some_iff.mp (hnet.start_of_call q target rule follow level h)
  rw [hnet.starts_size] at hlt
  exact ⟨_, List.getElem?_eq_getElem hlt⟩

/-- The rule of a rule's end has a name. -/
private theorem exists_ruleName_of_stop (hindexed : net.Indexed) {q : StateId}
    (hq : q < net.states.size) (hstop : (net.state q).isRuleStop = true) :
    ∃ name, net.ruleNames[(net.state q).rule]? = some name := by
  have hlt : (net.state q).rule < net.ruleNames.length := hindexed.rule_lt q hq fun hkind => by
    simp [State.isRuleStop, hkind] at hstop
  exact ⟨_, List.getElem?_eq_getElem hlt⟩

private theorem strictAlong_eq (hnet : net.Consistent)
    {go' : StateId → List StateId → List Nat → Look → Option (Option Look)}
    {go : StateId → List StateId → List Nat → Look → Option Look}
    (hgo : ∀ q stack called look, q < net.states.size → (∀ s ∈ stack, s < net.states.size) →
      go' q stack called look = some (go q stack called look))
    {q : StateId} {t : Transition} (ht : t ∈ (net.state q).transitions) {stack : List StateId}
    (hstack : ∀ s ∈ stack, s < net.states.size) (called : List Nat) (look : Look) :
    net.strictAlong go' stack called look t = some (net.walkAlong go stack called look t) := by
  have htarget := hnet.target_lt q t ht
  cases t with
  | rule target rule follow level =>
    obtain ⟨name, hname⟩ := exists_ruleName_of_call hnet ht
    have hfollow := hnet.follow_lt q target rule follow level ht
    simp only [strictAlong, walkAlong, hname, Option.bind_eq_bind, Option.bind_some]
    split
    · rfl
    · exact hgo _ _ _ _ htarget (List.forall_mem_cons.mpr ⟨hfollow, hstack⟩)
  | epsilon | predicate | action | precedence => exact hgo _ _ _ _ htarget hstack
  | atom | range | set | notSet | wildcard => rfl

private theorem strictWalkAll_eq (hnet : net.Consistent) {below : Symbol} {fuel : Nat}
    (hwalk : ∀ q stack called look, q < net.states.size → (∀ s ∈ stack, s < net.states.size) →
      net.strictWalk below fuel q stack called look =
        some (net.walk below fuel q stack called look))
    {q : StateId} {ts : List Transition} (hts : ∀ t ∈ ts, t ∈ (net.state q).transitions)
    {stack : List StateId} (hstack : ∀ s ∈ stack, s < net.states.size) (called : List Nat)
    (look : Look) :
    net.strictWalkAll (net.strictWalk below fuel) stack called look ts =
      some (net.walkAll below fuel ts stack called look) := by
  induction ts generalizing look with
  | nil => simp [strictWalkAll, walkAll]
  | cons t ts ih =>
    rw [strictWalkAll, walkAll_cons,
      strictAlong_eq hnet hwalk (hts t List.mem_cons_self) hstack called look]
    cases net.walkAlong (net.walk below fuel) stack called look t with
    | none => rfl
    | some look => exact ih (fun t' ht' => hts t' (List.mem_cons_of_mem _ ht')) look

/-- **A walk finds all that it looks up.** -/
private theorem strictWalk_eq (hnet : net.Consistent) (hindexed : net.Indexed) {below : Symbol}
    {fuel : Nat} {q : StateId} (hq : q < net.states.size) {stack : List StateId}
    (hstack : ∀ s ∈ stack, s < net.states.size) (called : List Nat) (look : Look) :
    net.strictWalk below fuel q stack called look =
      some (net.walk below fuel q stack called look) := by
  -- At the end of a rule the walk goes on at the top of the stack, all of which are states.
  induction fuel generalizing q stack called look with
  | zero => simp [strictWalk, walk]
  | succ fuel ih =>
    rw [strictWalk, walk]
    split
    · rfl
    simp only [getElem?_states hq, Option.bind_eq_bind, Option.bind_some]
    split
    · next hstop =>
      cases stack with
      | nil => rfl
      | cons s stack =>
        obtain ⟨name, hname⟩ := exists_ruleName_of_stop hindexed hq hstop
        obtain ⟨hs, hstack⟩ := List.forall_mem_cons.mp hstack
        simp only [hname, Option.bind_some]
        exact ih hs hstack _ _
    · exact strictWalkAll_eq hnet (fun q stack called look hq hstack => ih hq hstack called look)
        (fun t ht => ht) hstack called _

theorem strictLook_eq (hnet : net.Consistent) (hindexed : net.Indexed) {q : StateId}
    (hq : q < net.states.size) {stack : List StateId} (hstack : ∀ s ∈ stack, s < net.states.size)
    (below : Symbol) : net.strictLook below q stack = some (net.look below q stack) := by
  rw [strictLook, strictWalk_eq hnet hindexed hq hstack]
  rfl

/-- **The symbols that can come next at a state are found.** -/
theorem strictNextTokens_eq (hnet : net.Consistent) (hindexed : net.Indexed) {q : StateId}
    (hq : q < net.states.size) : net.strictNextTokens q = some (net.nextTokens q) :=
  strictLook_eq hnet hindexed hq (by simp) _

theorem strictFollowOf_eq {q : StateId} (hq : q < net.states.size) :
    net.strictFollowOf? q = some (net.followOf? q) := by
  simp [strictFollowOf?, followOf?, getElem?_states hq]

/-- The state at which a call goes on is one. -/
theorem followOf_lt (hnet : net.Consistent) {q follow : StateId}
    (h : net.followOf? q = some follow) : follow < net.states.size := by
  obtain ⟨t, ht, hfollow⟩ := List.exists_of_findSome?_eq_some h
  cases t with
  | rule target rule follow level =>
    cases hfollow
    exact hnet.follow_lt q target rule _ level ht
  | _ => cases hfollow

private theorem strictExpectedAfter_eq (hnet : net.Consistent) (hindexed : net.Indexed)
    {callers : List StateId} (hcallers : ∀ q ∈ callers, q < net.states.size)
    (expected following : SymbolSet) :
    net.strictExpectedAfter expected following callers =
      some (net.expectedAfter expected following callers) := by
  induction callers generalizing expected following with
  | nil =>
    rw [strictExpectedAfter, expectedAfter]
    split <;> rfl
  | cons q callers ih =>
    obtain ⟨hq, hcallers⟩ := List.forall_mem_cons.mp hcallers
    rw [strictExpectedAfter, expectedAfter]
    split
    · rfl
    simp only [strictFollowOf_eq hq, Option.bind_eq_bind, Option.bind_some]
    cases hfollow : net.followOf? q with
    | none => rfl
    | some follow =>
      simp only [strictNextTokens_eq hnet hindexed (followOf_lt hnet hfollow), Option.bind_some]
      exact ih hcallers _ _

/-- **The symbols that can come next under callers that are states are found.** -/
theorem strictExpectedTokens_eq (hnet : net.Consistent) (hindexed : net.Indexed) {q : StateId}
    (hq : q < net.states.size) {callers : List StateId}
    (hcallers : ∀ c ∈ callers, c < net.states.size) :
    net.strictExpectedTokens q callers = some (net.expectedTokens q callers) := by
  simp only [strictExpectedTokens, expectedTokens, strictNextTokens_eq hnet hindexed hq,
    Option.bind_eq_bind, Option.bind_some]
  split
  · exact strictExpectedAfter_eq hnet hindexed (fun c hc => hcallers c (List.mem_reverse.mp hc)) _ _
  · rfl

theorem strictNextTokensInContext_eq (hnet : net.Consistent) (hindexed : net.Indexed) {q : StateId}
    (hq : q < net.states.size) {callers : List StateId}
    (hcallers : ∀ c ∈ callers, c < net.states.size) :
    net.strictNextTokensInContext q callers = some (net.nextTokensInContext q callers) := by
  have hfollows : callers.mapM net.strictFollowOf? = some (callers.map net.followOf?) := by
    induction callers with
    | nil => rfl
    | cons c callers ih =>
      obtain ⟨hc, hcallers⟩ := List.forall_mem_cons.mp hcallers
      simp [List.mapM_cons, strictFollowOf_eq hc, ih hcallers]
  have hstack : ∀ s ∈ (callers.filterMap net.followOf?).reverse, s < net.states.size := by
    intro s hs
    obtain ⟨c, -, hfollow⟩ := List.mem_filterMap.mp (List.mem_reverse.mp hs)
    exact followOf_lt hnet hfollow
  simp only [strictNextTokensInContext, hfollows, Option.bind_eq_bind, Option.bind_some,
    List.filterMap_map]
  exact strictLook_eq hnet hindexed hq hstack _

end Network

end AdaptiveLL
