import AdaptiveLL.Parsing.Trace
import AdaptiveLL.Proofs.Network.Machine

/-!
# Replays

The alternatives that a parse has chosen and the symbols it has matched determine the way it went
through the network. A *replay* goes that way again without a prediction: at a state with a decision
and several ways on it takes the alternative that was recorded, everywhere else the first transition,
and at the end of a rule it goes on where the rule was called. The way of a replay is a run of the
network that reads the symbols.
-/

namespace AdaptiveLL

/-- The decision that is to be taken at a state: there is none where there is only one way on. -/
def State.choice? (s : State) : Option Nat := if 1 < s.transitions.length then s.decision else none

/-- A call of a rule: the state that made it, and where the caller goes on. -/
structure Call where
  caller : StateId
  rule : Nat
  follow : StateId
  level : Int
deriving DecidableEq

/-- Where a replay stands, and what is left of its records. -/
structure Replay where
  state : StateId
  /-- The calls that are active, the innermost first. -/
  calls : List Call
  /-- The alternatives that are still to be chosen, each with its decision. -/
  decisions : List (Nat × Nat)
  /-- The symbols that are still to be matched. -/
  symbols : List Symbol
deriving DecidableEq

namespace Replay

/-- The alternative to be taken at a state, and the records that are left after that. Where there is
a decision to be taken, it has to be the one that was recorded next. -/
def chosen? (state : State) (decisions : List (Nat × Nat)) : Option (Nat × List (Nat × Nat)) :=
  match state.choice?, decisions with
  | none, _ => some (1, decisions)
  | some d, (d', alt) :: rest => if d' = d then some (alt, rest) else none
  | some _, [] => none

/-- The replay after a transition that consumes the next symbol. -/
def consume? (net : Network) (x : Replay) (t : Transition) : Option Replay :=
  match x.symbols with
  | [] => none
  | v :: symbols =>
    if t.accepts v net.firstSymbol net.lastSymbol then some { x with state := t.target, symbols }
    else none

/-- The replay after a transition. -/
def along? (net : Network) (x : Replay) (t : Transition) : Option Replay :=
  match t with
  | .rule target rule follow level =>
    some { x with state := target, calls := ⟨x.state, rule, follow, level⟩ :: x.calls }
  | .atom .. | .range .. | .set .. | .notSet .. | .wildcard _ => x.consume? net t
  | .epsilon target | .predicate target .. | .precedence target _ | .action target .. =>
    some { x with state := target }

/-- **The next place of a replay.** -/
def next? (net : Network) (x : Replay) : Option Replay :=
  if net.isStop x.state then
    match x.calls with
    | [] => none
    | c :: calls => some { x with state := c.follow, calls }
  else do
    let (alt, decisions) ← chosen? (net.state x.state) x.decisions
    let t ← (net.state x.state).transitions[alt - 1]?
    along? net { x with decisions } t

/-- One step of a replay. -/
def Steps (net : Network) (x y : Replay) : Prop := x.next? net = some y

/-- **The way of a replay.** -/
abbrev Path (net : Network) : Replay → Replay → Prop := Relation.ReflTransGen (Steps net)

/-- Where a replay stands in the network. -/
def stand (x : Replay) : Stand := (x.state, x.calls.map Call.follow)

/-- The replay with more records behind those it has. -/
def extend (x : Replay) (decisions : List (Nat × Nat)) (symbols : List Symbol) : Replay :=
  { x with decisions := x.decisions ++ decisions, symbols := x.symbols ++ symbols }

variable {net : Network} {x y : Replay}

/-! ## Steps -/

/-- **What a step of a replay does:** it goes back to a caller, or along a transition. -/
theorem steps_iff : Steps net x y ↔
    (net.isStop x.state = true ∧ ∃ c calls, x.calls = c :: calls ∧
      y = { x with state := c.follow, calls }) ∨
    (net.isStop x.state = false ∧ ∃ alt rest t,
      chosen? (net.state x.state) x.decisions = some (alt, rest) ∧
        (net.state x.state).transitions[alt - 1]? = some t ∧
          along? net { x with decisions := rest } t = some y) := by
  unfold Steps next?
  cases hstop : net.isStop x.state with
  | true =>
    cases x.calls with
    | nil => simp
    | cons c calls => simp [eq_comm]
  | false => simp [Option.bind_eq_some_iff]

theorem consume?_eq_some {t : Transition} :
    x.consume? net t = some y ↔ ∃ v symbols, x.symbols = v :: symbols ∧
      t.accepts v net.firstSymbol net.lastSymbol = true ∧
        y = { x with state := t.target, symbols } := by
  unfold consume?
  cases x.symbols with
  | nil => simp
  | cons v symbols =>
    constructor
    · intro h
      obtain ⟨hacc, heq⟩ := Option.ite_none_right_eq_some.mp h
      exact ⟨v, symbols, rfl, hacc, (Option.some.inj heq).symm⟩
    · rintro ⟨v', symbols', heq, hacc, rfl⟩
      obtain ⟨rfl, rfl⟩ := List.cons.inj heq
      exact if_pos hacc

/-! ## More records -/

private theorem chosen?_append {state : State} {ds rest : List (Nat × Nat)} {alt : Nat}
    (h : chosen? state ds = some (alt, rest)) (more : List (Nat × Nat)) :
    chosen? state (ds ++ more) = some (alt, rest ++ more) := by
  unfold chosen? at h ⊢
  cases hchoice : state.choice? with
  | none =>
    rw [hchoice] at h
    obtain ⟨rfl, rfl⟩ := Prod.mk.inj (Option.some.inj h)
    rfl
  | some d =>
    rw [hchoice] at h
    cases ds with
    | nil => cases h
    | cons first ds =>
      obtain ⟨hd, heq⟩ := Option.ite_none_right_eq_some.mp h
      obtain ⟨rfl, rfl⟩ := Prod.mk.inj (Option.some.inj heq)
      exact if_pos hd

private theorem along?_extend {t : Transition} (h : x.along? net t = some y)
    (ds : List (Nat × Nat)) (vs : List Symbol) :
    (x.extend ds vs).along? net t = some (y.extend ds vs) := by
  have hconsume : x.consume? net t = some y →
      (x.extend ds vs).consume? net t = some (y.extend ds vs) := by
    intro h
    obtain ⟨v, symbols, hx, hacc, rfl⟩ := consume?_eq_some.mp h
    exact consume?_eq_some.mpr ⟨v, symbols ++ vs, by simp only [extend, hx, List.cons_append],
      hacc, rfl⟩
  cases t with
  | epsilon | rule | predicate | precedence | action =>
    obtain rfl := Option.some.inj h
    rfl
  | _ => exact hconsume h

/-- **A step does not depend on the records behind those it uses.** -/
theorem Steps.extend (h : Steps net x y) (ds : List (Nat × Nat)) (vs : List Symbol) :
    Steps net (x.extend ds vs) (y.extend ds vs) := by
  rcases steps_iff.mp h with ⟨hstop, c, calls, hcalls, rfl⟩ |
    ⟨hstop, alt, rest, t, hchosen, ht, halong⟩
  · exact steps_iff.mpr (.inl ⟨hstop, c, calls, hcalls, rfl⟩)
  · exact steps_iff.mpr (.inr ⟨hstop, alt, rest ++ ds, t, chosen?_append hchosen ds, ht,
      along?_extend halong ds vs⟩)

theorem Path.extend (h : Path net x y) (ds : List (Nat × Nat)) (vs : List Symbol) :
    Path net (x.extend ds vs) (y.extend ds vs) := by
  induction h with
  | refl => exact .refl
  | tail _ hstep ih => exact ih.tail (hstep.extend ds vs)

/-! ## Runs -/

/-- A step of a replay is a hop of the network, or consumes the next symbol. -/
theorem Steps.reads (h : Steps net x y) : ∃ u, x.symbols = u ++ y.symbols ∧
    ∀ w e, net.Reads y.stand w e → net.Reads x.stand (u ++ w) e := by
  rcases steps_iff.mp h with ⟨hstop, c, calls, hcalls, rfl⟩ |
    ⟨hstop, alt, rest, t, -, ht, halong⟩
  · refine ⟨[], rfl, fun w e hreads => .hop ?_ hreads⟩
    unfold stand
    rw [hcalls]
    exact .back hstop
  · have hmem := List.mem_of_getElem? ht
    -- A transition that consumes nothing is a hop, and any other reads the next symbol.
    have hhop : ∀ d, t.onward false (x.calls.map Call.follow) = some d →
        net.Hop true false x.stand d := fun d hon => .along (by simp [hstop]) hmem hon
    have heat : ({ x with decisions := rest } : Replay).consume? net t = some y →
        ∃ u, x.symbols = u ++ y.symbols ∧
          ∀ w e, net.Reads y.stand w e → net.Reads x.stand (u ++ w) e := by
      intro heq
      obtain ⟨v, symbols, hsymbols, hacc, rfl⟩ := consume?_eq_some.mp heq
      exact ⟨[v], hsymbols, fun w e hreads => .eat hstop hmem hacc hreads⟩
    cases t with
    | epsilon | rule | predicate | precedence | action =>
      obtain rfl := Option.some.inj halong
      exact ⟨[], rfl, fun w e hreads => .hop (hhop _ rfl) hreads⟩
    | _ => exact heat halong

/-- **The way of a replay is a run of the network,** which reads the symbols that are used up. -/
theorem Path.reads (h : Path net x y) :
    ∃ u, x.symbols = u ++ y.symbols ∧ net.Reads x.stand u y.stand := by
  induction h using Relation.ReflTransGen.head_induction_on with
  | refl => exact ⟨[], rfl, .refl _⟩
  | head hstep _ ih =>
    obtain ⟨u, hu, hreads⟩ := ih
    obtain ⟨v, hv, hstep⟩ := hstep.reads
    exact ⟨v ++ u, by rw [hv, hu, List.append_assoc], hstep _ _ hreads⟩

end Replay

end AdaptiveLL
