import AdaptiveLL.Network.Basic

/-!
# Look-ahead

Which symbols can come next at a state? The walk below follows the transitions that consume
nothing, keeps the states at which called rules go on as a stack, and collects the symbols of the
transitions that consume one. `Network.nextTokens` starts with an empty stack and marks with
`Symbol.ruleEnd` that the end of the state's own rule can be reached. `Network.expectedTokens`
goes on from there through the callers.

A rule is not called again while a call of it is pending, and no pair of a state and a stack is
visited twice, so the walk ends: `walkBound` counts the pairs there are.
-/

namespace AdaptiveLL

/-- What a look-ahead walk has seen and found. -/
structure Look where
  /-- The states visited, each with its stack. -/
  seen : List (StateId × List StateId) := []
  symbols : SymbolSet := .empty
deriving Inhabited

namespace Network

/-- The symbols a match transition consumes. -/
def consumed (net : Network) (t : Transition) : SymbolSet :=
  match t with
  | .wildcard _ => .ofRange net.firstSymbol net.lastSymbol
  | .notSet _ s => s.complement net.firstSymbol net.lastSymbol
  | t => t.label?.getD .empty

mutual

/-- Walks on from a state. `below` is the symbol that stands for whatever comes after an empty
stack; `called` holds the rules with a pending call. -/
def walk (net : Network) (below : Symbol) :
    Nat → StateId → List StateId → List Nat → Look → Option Look
  | 0, _, _, _, _ => none
  | fuel + 1, s, stack, called, look =>
    if look.seen.contains (s, stack) then some look
    else
      -- A state counts again under another stack, since the walk goes on elsewhere after it.
      let look := { look with seen := (s, stack) :: look.seen }
      let state := net.state s
      if state.isRuleStop then
        match stack with
        | [] => some { look with symbols := look.symbols.insert below }
        -- The rule may be called again once it has returned.
        | s :: stack => walk net below fuel s stack (called.filter (· != state.rule)) look
      else walkAll net below fuel state.transitions stack called look

/-- Walks on along each transition. -/
def walkAll (net : Network) (below : Symbol) :
    Nat → List Transition → List StateId → List Nat → Look → Option Look
  | _, [], _, _, look => some look
  | fuel, t :: rest, stack, called, look =>
    let next :=
      match t with
      | .rule target rule follow _ =>
        -- A pending call of the same rule would only lead round in circles.
        if called.contains rule then some look
        else walk net below fuel target (follow :: stack) (rule :: called) look
      | t =>
        if t.isEpsilon then walk net below fuel t.target stack called look
        else some { look with symbols := look.symbols.union (net.consumed t) }
    next.bind fun look => walkAll net below fuel rest stack called look

end

/-- The number of pairs of a state and a stack that a walk can visit, from a stack of `frames`
states. -/
def walkBound (net : Network) (frames : Nat) : Nat :=
  let n := net.states.size + 1
  n * (Nat.pow n net.ruleCount * (frames + 1)) + 1

/-- The symbols that can come next at a state with a stack of follow states, innermost first. -/
def look (net : Network) (below : Symbol) (s : StateId) (stack : List StateId) : SymbolSet :=
  ((net.walk below (net.walkBound stack.length) s stack [] {}).map Look.symbols).getD .empty

/-- **The symbols that can come next within the rule of the state;** `Symbol.ruleEnd` if its end
can be reached. -/
def nextTokens (net : Network) (s : StateId) : SymbolSet := net.look Symbol.ruleEnd s []

/-- Where the first call made at a state goes on. -/
def followOf? (net : Network) (invoking : StateId) : Option StateId :=
  (net.state invoking).transitions.findSome? Transition.follow?

/-- Adds to the expected symbols what can come after the callers, innermost first, as long as the
end of a rule can be reached. -/
def expectedAfter (net : Network) : (expected following : SymbolSet) → List StateId → SymbolSet
  | expected, following, callers =>
    if !following.contains Symbol.ruleEnd then expected
    else match callers with
      | [] => expected.insert Symbol.eof
      | caller :: rest =>
        match net.followOf? caller with
        | none => expected.insert Symbol.eof
        | some follow =>
          let following := net.nextTokens follow
          expectedAfter net ((expected.union following).erase Symbol.ruleEnd) following rest

/-- **The symbols that can come next, given the states that called the active rules,** outermost
first; `Symbol.eof` if the outermost rule can end. -/
def expectedTokens (net : Network) (s : StateId) (callers : List StateId) : SymbolSet :=
  let following := net.nextTokens s
  if following.contains Symbol.ruleEnd then
    net.expectedAfter (following.erase Symbol.ruleEnd) following callers.reverse
  else following

/-- The symbols that can come next when the active rules were called from exactly these states,
outermost first. -/
def nextTokensInContext (net : Network) (s : StateId) (callers : List StateId) : SymbolSet :=
  net.look Symbol.eof s (callers.filterMap net.followOf?).reverse

end Network

end AdaptiveLL
