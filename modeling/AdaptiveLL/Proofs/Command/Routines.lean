import AdaptiveLL.Command.Rehearsal
import AdaptiveLL.Lexing.Lexer

/-!
# Running a routine

A routine may put the input elsewhere for one command and has to bring it back for another, and it
notes on the way whether it is away. Whatever the commands are and wherever one of them fails, the
commands run in order, each position-dependent one where it belongs, and the input ends where it
was.

Nothing is assumed about the lexer that is acted on but what its switches promise: they leave the
input where it is, and putting the input somewhere puts it there.
-/

namespace AdaptiveLL

/-! ## Where commands belong -/

namespace Command

/-- The command inside all pins. -/
def core : Command → Command
  | pinned _ command => command.core
  | command => command

/-- Where the input has to stand for a command: at the offset of its outermost pin from `start`,
or at `stop`. -/
def place (start stop : Nat) : Command → Nat
  | pinned offset _ => start + offset
  | _ => stop

@[simp] theorem place_pinned (start stop offset : Nat) (command : Command) :
    (pinned offset command).place start stop = start + offset := rfl

/-- Pins are no concern of the switches. -/
theorem run_core {σ : Type} (c : Control σ) (command : Command) :
    command.core.run c = command.run c := by
  induction command with
  | pinned offset command ih => exact ih
  | _ => rfl

end Command

namespace Control

variable {σ : Type} {c : Control σ} {size : σ → Nat}

/-! ## What switches promise -/

/-- The state that thrown switches leave behind, whether they were refused or not. -/
def leave {α : Type} (m : EStateM LexError σ α) (s : σ) : σ :=
  match m.run s with
  | .ok _ s' => s'
  | .error _ s' => s'

/-- The input stays where it is, and none of it goes away. -/
def Keeps (c : Control σ) (size : σ → Nat) (f : σ → σ) : Prop :=
  ∀ s, c.position (f s) = c.position s ∧ size s ≤ size (f s)

/-- **Steady switches:** none of them moves the input, and inside the input, which is `size` long,
`seek` goes exactly where it is told. -/
structure Steady (c : Control σ) (size : σ → Nat) : Prop where
  setType : ∀ type, c.Keeps size (c.setType type)
  setChannel : ∀ channel, c.Keeps size (c.setChannel channel)
  setMode : ∀ mode, c.Keeps size (leave (c.setMode mode))
  pushMode : ∀ mode, c.Keeps size (leave (c.pushMode mode))
  popMode : c.Keeps size (leave c.popMode)
  skip : c.Keeps size c.skip
  more : c.Keeps size c.more
  custom : ∀ rule action, c.Keeps size (c.custom rule action)
  seek : ∀ s i, i ≤ size s → c.position (c.seek i s) = i ∧ size s ≤ size (c.seek i s)

/-- No command moves the input. -/
theorem Steady.keeps_run (h : c.Steady size) (command : Command) :
    c.Keeps size (leave (command.run c)) := by
  induction command with
  | setChannel channel => exact h.setChannel channel
  | custom rule action => exact h.custom rule action
  | setMode mode => exact h.setMode mode
  | more => exact h.more
  | pushMode mode => exact h.pushMode mode
  | skip => exact h.skip
  | setType type => exact h.setType type
  | pinned offset command ih => exact ih
  | popMode =>
    intro s
    -- The command forgets which mode was taken from the stack.
    have hleave : leave (Command.popMode.run c) s = leave c.popMode s := by
      unfold leave Command.run
      rw [EStateM.run_bind]
      cases c.popMode.run s <;> rfl
    rw [hleave]
    exact h.popMode s

end Control

/-- The stand-in has an input of any length. -/
theorem Rehearsal.control_steady (n : Nat) : control.Steady fun _ => n where
  setType _ _ := ⟨rfl, Nat.le_refl _⟩
  setChannel _ _ := ⟨rfl, Nat.le_refl _⟩
  setMode mode s := by
    refine ⟨?_, Nat.le_refl _⟩
    by_cases hmode : mode < s.modeCount
    · simp [Control.leave, control, check, note, hmode, EStateM.run_bind]
    · simp [Control.leave, control, check, note, hmode]
  pushMode mode s := by
    refine ⟨?_, Nat.le_refl _⟩
    by_cases hmode : mode < s.modeCount
    · simp [Control.leave, control, check, note, hmode]
    · simp [Control.leave, control, check, note, hmode]
  popMode s := by
    refine ⟨?_, Nat.le_refl _⟩
    cases hlast : s.modes.getLast? with
    | none =>
      simp only [Control.leave, control, note, EStateM.run_bind, EStateM.run_modify,
        EStateM.run_get, hlast]
      rfl
    | some mode =>
      simp only [Control.leave, control, note, EStateM.run_bind, EStateM.run_modify,
        EStateM.run_get, hlast]
      rfl
  skip _ := ⟨rfl, Nat.le_refl _⟩
  more _ := ⟨rfl, Nat.le_refl _⟩
  custom _ _ _ := ⟨rfl, Nat.le_refl _⟩
  seek _ _ _ := ⟨rfl, Nat.le_refl _⟩

/-- The switches of a lexer do not move its input. -/
theorem Lexer.control_steady : control.Steady fun l => l.stream.chars.size where
  setType _ _ := ⟨rfl, Nat.le_refl _⟩
  setChannel _ _ := ⟨rfl, Nat.le_refl _⟩
  setMode mode l := by
    by_cases hmode : l.hasMode mode
    · simp [Control.leave, control, setMode, EStateM.run, hmode, stream]
    · simp [Control.leave, control, setMode, EStateM.run, hmode]
  pushMode mode l := by
    by_cases hmode : l.hasMode mode
    · by_cases hdepth : Limits.modeStack ≤ l.modeStack.length
      · simp [Control.leave, control, pushMode, EStateM.run, hmode, hdepth]
      · simp [Control.leave, control, pushMode, EStateM.run, hmode, hdepth, stream]
    · simp [Control.leave, control, pushMode, EStateM.run, hmode]
  popMode l := by
    cases hmodes : l.modeStack with
    | nil => simp [Control.leave, control, popMode, EStateM.run, hmodes]
    | cons mode rest => simp [Control.leave, control, popMode, EStateM.run, hmodes, stream]
  skip _ := ⟨rfl, Nat.le_refl _⟩
  more _ := ⟨rfl, Nat.le_refl _⟩
  custom _ _ _ := ⟨rfl, Nat.le_refl _⟩
  seek l i hi := ⟨Nat.min_eq_left hi, Nat.le_refl _⟩

namespace Control

variable {σ : Type} {c : Control σ}

/-! ## Tours -/

/-- The input may have been put elsewhere, once. -/
inductive Sought (c : Control σ) : σ → σ → Prop where
  | still (s : σ) : Sought c s s
  | seek (s : σ) (i : Nat) : Sought c s (c.seek i s)

/-- **A tour of the commands** of a token from `start` to `stop`, from a state to another and with
the failure that ended it, if one did. Apart from seeks the commands are run and nothing else, each
one once, in order and up to the first that fails; and those whose effect depends on the position
of the input find it at their place. -/
inductive Tour (c : Control σ) (start stop : Nat) :
    List Command → σ → Option LexError → σ → Prop where
  | done (s : σ) : Tour c start stop [] s none s
  | next {command : Command} {rest : List Command} {s s₁ s₂ s' : σ} {fault : Option LexError}
      (sought : c.Sought s s₁)
      (placed : command.isPositionDependent → c.position s₁ = command.place start stop)
      (runs : (command.core.run c).run s₁ = .ok () s₂)
      (tour : Tour c start stop rest s₂ fault s') :
      Tour c start stop (command :: rest) s fault s'
  | fails {command : Command} {rest : List Command} {s s₁ s' : σ} {e : LexError}
      (sought : c.Sought s s₁)
      (placed : command.isPositionDependent → c.position s₁ = command.place start stop)
      (fails : (command.core.run c).run s₁ = .error e s') :
      Tour c start stop (command :: rest) s (some e) s'

/-- The outcome of switches that were all thrown, or that a failure ended. -/
def outcome (fault : Option LexError) (s : σ) : EStateM.Result LexError σ Unit :=
  match fault with
  | none => .ok () s
  | some e => .error e s

end Control

/-! ## Routines -/

namespace Routine

variable {σ : Type} {c : Control σ} {size : σ → Nat} {start stop : Nat}

/-- Where the first of two ways does not fail, the second is not tried. -/
private theorem tryCatch_ok {α : Type} {m : EStateM LexError σ α}
    {recover : LexError → EStateM LexError σ α} {a : α} {s s' : σ} (h : m.run s = .ok a s') :
    (tryCatch m recover).run s = .ok a s' := by
  change EStateM.tryCatch m recover s = _
  unfold EStateM.tryCatch
  rw [show m s = .ok a s' from h]

/-- Where the first of two ways fails, the second is tried from where it ended. -/
private theorem tryCatch_error {α : Type} {m : EStateM LexError σ α}
    {recover : LexError → EStateM LexError σ α} {e : LexError} {s s' : σ}
    (h : m.run s = .error e s') : (tryCatch m recover).run s = (recover e).run s' := by
  change EStateM.tryCatch m recover s = _
  unfold EStateM.tryCatch
  rw [show m s = .error e s' from h]
  rfl

/-- Where a routine has got to: the end of the token is inside the input, and the input is there
unless it is said to be `away`. -/
private structure Underway (c : Control σ) (size : σ → Nat) (stop : Nat) (away : Bool) (s : σ) :
    Prop where
  inside : stop ≤ size s
  back : away = false → c.position s = stop

/-- What leaves the input alone leaves a routine where it has got to. -/
private theorem Underway.keeps {f : σ → σ} {away : Bool} {s : σ} (h : Underway c size stop away s)
    (hf : c.Keeps size f) : Underway c size stop away (f s) :=
  ⟨Nat.le_trans h.inside (hf s).2, fun haway => (hf s).1.trans (h.back haway)⟩

/-- Putting the input to a place inside of it. -/
private theorem Underway.seek {i : Nat} {away : Bool} {s : σ} (h : Underway c size stop away s)
    (hc : c.Steady size) (hi : i ≤ size s) :
    Underway c size stop (i != stop) (c.seek i s) := by
  obtain ⟨hposition, hsize⟩ := hc.seek s i hi
  refine ⟨Nat.le_trans h.inside hsize, fun haway => ?_⟩
  rw [hposition]
  simpa using haway

/-- **One command is approached** by at most one seek, after which it finds the input at its
place. -/
private theorem approach_returns (hc : c.Steady size) {away : Bool} {s : σ}
    (h : Underway c size stop away s) (command : Command)
    (hplace : command.isPositionDependent → command.place start stop ≤ size s) :
    ∃ away' s₁, (approach c start stop away command).run s = .ok away' s₁ ∧
      c.Sought s s₁ ∧ Underway c size stop away' s₁ ∧ size s ≤ size s₁ ∧
      (command.isPositionDependent → c.position s₁ = command.place start stop) := by
  cases command with
  | pinned offset command =>
    have hi : start + offset ≤ size s := hplace rfl
    exact ⟨_, _, rfl, .seek s _, h.seek hc hi, (hc.seek s _ hi).2, fun _ => (hc.seek s _ hi).1⟩
  | custom rule action =>
    have hback : Underway c size stop false (c.seek stop s) := by
      simpa using h.seek hc h.inside
    exact ⟨_, _, rfl, .seek s _, hback, (hc.seek s _ h.inside).2,
      fun _ => (hc.seek s _ h.inside).1⟩
  | _ => exact ⟨_, _, rfl, .still s, h, Nat.le_refl _, nofun⟩

/-- **The commands make a tour,** after which the routine knows whether it is away from the end of
the token; where a command failed, it goes back. -/
private theorem runAll_tour (hc : c.Steady size) (commands : List Command) {away : Bool} {s : σ}
    (h : Underway c size stop away s)
    (hplace : ∀ command ∈ commands,
      command.isPositionDependent → command.place start stop ≤ size s) :
    ∃ fault s', c.Tour start stop commands s fault s' ∧ stop ≤ size s' ∧
      match fault with
      | none => ∃ away', (runAll c start stop away commands).run s = .ok away' s' ∧
          Underway c size stop away' s'
      | some e => (runAll c start stop away commands).run s = .error e (c.seek stop s') := by
  induction commands generalizing away s with
  | nil => exact ⟨none, s, .done s, h.inside, away, rfl, h⟩
  | cons command rest ih =>
    obtain ⟨away₁, s₁, hrun, hsought, h₁, hsize₁, hplaced⟩ :=
      approach_returns hc h command (hplace command List.mem_cons_self)
    -- Whether it fails or not, a command leaves the place alone and takes nothing from the input.
    have hkeeps := hc.keeps_run command
    cases hcommand : (command.run c).run s₁ with
    | error e s₂ =>
      have hleave : Control.leave (command.run c) s₁ = s₂ := by simp [Control.leave, hcommand]
      have h₂ : Underway c size stop away₁ s₂ := hleave ▸ h₁.keeps hkeeps
      refine ⟨some e, s₂, .fails hsought hplaced (by rwa [Command.run_core]), h₂.inside, ?_⟩
      unfold runAll
      rw [EStateM.run_bind, hrun]
      simp only
      rw [EStateM.run_bind, tryCatch_error hcommand]
      rfl
    | ok a s₂ =>
      have hleave : Control.leave (command.run c) s₁ = s₂ := by simp [Control.leave, hcommand]
      have h₂ : Underway c size stop away₁ s₂ := hleave ▸ h₁.keeps hkeeps
      have hsize₂ : size s ≤ size s₂ := Nat.le_trans hsize₁ (hleave ▸ (hkeeps s₁).2)
      obtain ⟨fault, s', htour, hinside, hends⟩ :=
        ih h₂ fun command' hmem hdep =>
          Nat.le_trans (hplace command' (List.mem_cons_of_mem _ hmem) hdep) hsize₂
      -- What is left of the routine runs from where this command has left off.
      have hrest : (runAll c start stop away (command :: rest)).run s =
          (runAll c start stop away₁ rest).run s₂ := by
        rw [runAll, EStateM.run_bind, hrun]
        simp only
        rw [EStateM.run_bind, tryCatch_ok hcommand]
      refine ⟨fault, s', .next hsought hplaced (by rwa [Command.run_core]) htour, hinside, ?_⟩
      rwa [hrest]

/-- **Running a routine leaves the input where it was,** whatever the commands are and whether one
of them fails: they make a tour, and after it the input is put back if need be. Pins have to lie
inside the input. -/
theorem run_tour (hc : c.Steady size) (r : Routine) (start : Nat) (s : σ)
    (hstop : c.position s ≤ size s)
    (hpins : ∀ offset command, .pinned offset command ∈ r.commands → start + offset ≤ size s) :
    ∃ fault s₁ s', c.Tour start (c.position s) r.commands s fault s₁ ∧ c.Sought s₁ s' ∧
      c.position s' = c.position s ∧ (r.run c start).run s = Control.outcome fault s' := by
  have hplace : ∀ command ∈ r.commands,
      command.isPositionDependent → command.place start (c.position s) ≤ size s := by
    intro command hmem _
    cases command with
    | pinned offset command => exact hpins offset command hmem
    | _ => exact hstop
  have hunderway : Underway c size (c.position s) false s := ⟨hstop, fun _ => rfl⟩
  obtain ⟨fault, s₁, htour, hinside, hends⟩ := runAll_tour hc r.commands hunderway hplace
  have hseek := (hc.seek s₁ _ hinside).1
  -- The place is put back only after all commands, and only if the last of them ran elsewhere.
  have hget : (r.run c start).run s =
      ((runAll c start (c.position s) false r.commands) >>= fun away =>
        if away then modify (c.seek (c.position s)) else pure () :
          EStateM LexError σ Unit).run s := rfl
  cases fault with
  | some e =>
    refine ⟨some e, s₁, _, htour, .seek s₁ _, hseek, ?_⟩
    rw [hget, EStateM.run_bind, hends]
    rfl
  | none =>
    obtain ⟨away, hrun, h⟩ := hends
    cases away with
    | true =>
      refine ⟨none, s₁, _, htour, .seek s₁ _, hseek, ?_⟩
      rw [hget, EStateM.run_bind, hrun]
      rfl
    | false =>
      refine ⟨none, s₁, _, htour, .still s₁, h.back rfl, ?_⟩
      rw [hget, EStateM.run_bind, hrun]
      rfl

/-- Of these commands one is pinned twice, and one fails before the last. The switches of a lexer are
as steady as those of the stand-in that runs them. -/
theorem run_tour_interrupted :
    let r : Routine := ⟨[.pinned 1 (.custom 2 0), .skip, .custom 2 1,
      .pinned 3 (.pinned 9 (.custom 3 0)), .popMode, .more]⟩
    let s : Rehearsal := { position := 14 }
    (Lexer.control.Steady fun l => l.stream.chars.size) ∧
      Rehearsal.control.Steady (fun _ => 20) ∧ Rehearsal.control.position s ≤ 20 ∧
      (∀ offset command, .pinned offset command ∈ r.commands → 10 + offset ≤ 20) ∧
      ∃ fault s₁ s', Rehearsal.control.Tour 10 14 r.commands s fault s₁ ∧
        Rehearsal.control.Sought s₁ s' ∧ Rehearsal.control.position s' = 14 ∧
        (r.run Rehearsal.control 10).run s = Control.outcome fault s' := by
  intro r s
  have hstop : Rehearsal.control.position s ≤ 20 := by decide
  have hpins : ∀ offset command, .pinned offset command ∈ r.commands → 10 + offset ≤ 20 := by
    intro offset command hmem
    obtain ⟨rfl, -⟩ | ⟨rfl, -⟩ : offset = 1 ∧ command = .custom 2 0 ∨
        offset = 3 ∧ command = .pinned 9 (.custom 3 0) := by simpa [r] using hmem
    · decide
    · decide
  have hsteady := Rehearsal.control_steady 20
  exact ⟨Lexer.control_steady, hsteady, hstop, hpins, run_tour hsteady r 10 s hstop hpins⟩

end Routine

end AdaptiveLL
