/-!
# Runs

A run is a computation with a state that may fail. Its loops spend fuel, since not every loop over
a network that was read from a file can be shown to end; running out of fuel is kept apart from
failure. A failed run keeps the state it had reached, a run that is out of fuel has none.
-/

namespace AdaptiveLL

/-- **A run** with states in `σ` and failures in `ε`. The answer `none` is "out of fuel". -/
abbrev Run (ε σ α : Type) := ExceptT ε (StateT σ Option) α

namespace Run

variable {ε σ τ α β : Type}

/-- Runs from a state. -/
def from? (m : Run ε σ α) (s : σ) : Option (Except ε α × σ) := (ExceptT.run m).run s

/-- The run that is out of fuel. -/
def outOfFuel : Run ε σ α := ExceptT.mk fun _ => none

/-- The run that ends at once, in a state and with an answer that depend on the state. -/
def ofStep (f : σ → Except ε α × σ) : Run ε σ α := ExceptT.mk fun s => some (f s)

/-- The outcome of a run: a failure is an answer like any other. -/
def outcome (m : Run ε σ α) : Run ε σ (Except ε α) :=
  ExceptT.mk fun s => (m.from? s).map fun (r, s) => (.ok r, s)

/-- The run on a part of a larger state. -/
def zoom (get : τ → σ) (set : σ → τ → τ) (m : Run ε σ α) : Run ε τ α :=
  ExceptT.mk fun t => (m.from? (get t)).map fun (r, s) => (r, set s t)

/-- **Repeats a step until it gives an answer,** with one unit of fuel for each step. -/
def loop (step : α → Run ε σ (α ⊕ β)) : Nat → α → Run ε σ β
  | 0, _ => outOfFuel
  | fuel + 1, a => do
    match ← step a with
    | .inl a => loop step fuel a
    | .inr b => pure b

end Run

end AdaptiveLL
