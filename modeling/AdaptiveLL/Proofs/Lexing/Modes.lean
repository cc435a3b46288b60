import AdaptiveLL.Proofs.Lexing.Calls
import AdaptiveLL.Proofs.Lookups.Safety

/-!
# Modes

Token rules go to other modes, remember modes and return to them, by commands that may be refused
half way through a routine. Whatever is done to a lexer, and however it fails, its mode and the
modes it remembers are modes of its network, and there are never more of them than may be. So the
lexer never asks its scanner for a mode that is not there.
-/

namespace AdaptiveLL

open Run (FailsWith)

/-! ## What a match fails with -/

namespace Scan

variable {c : Scan}

/-- An error that is not about a mode. -/
private def Unmoded : LexError → Scanner → Prop := fun e _ => ∀ mode, e ≠ .unknownMode mode

private theorem probe_unmoded {α : Type} (m : Probe α) : FailsWith (probe m) Unmoded := by
  intro s r s' hrun e he mode
  rw [from?_probe] at hrun
  obtain ⟨⟨x, t⟩, -, heq⟩ := Option.map_eq_some_iff.mp hrun
  obtain ⟨rfl, -⟩ := Prod.mk.inj heq
  cases x with
  | error x =>
    obtain rfl := Except.error.inj he
    exact nofun
  | ok a => cases he

private theorem table_unmoded : FailsWith c.table Unmoded := .get_bind fun _ => .pure

private theorem setTable_unmoded (t : Table) : FailsWith (c.setTable t) Unmoded := .modify

private theorem install_unmoded (configs : ConfigSet) : FailsWith (c.install configs) Unmoded := by
  have hnotes : ∀ event : Option Event,
      FailsWith (event.forM fun e => modify (·.note e)) Unmoded := by
    rintro (_ | event)
    · exact .pure
    · exact .modify
  unfold install
  refine .ite .pure (table_unmoded.bind fun t => ?_)
  exact (setTable_unmoded _).bind fun _ => (hnotes _).bind fun _ => .pure

private theorem startPlace_unmoded : FailsWith c.startPlace Unmoded := by
  unfold startPlace
  refine table_unmoded.bind fun t => ?_
  split
  · exact .pure
  · refine .get_bind fun s => (probe_unmoded _).bind fun configs => ?_
    refine (install_unmoded _).bind fun place => .ite .pure ?_
    exact table_unmoded.bind fun t => (setTable_unmoded _).bind fun _ => .pure

private theorem target_unmoded (p : Place) (v : Symbol) : FailsWith (c.target p v) Unmoded := by
  unfold target
  refine .get_bind fun s => table_unmoded.bind fun t => (probe_unmoded _).bind fun configs => ?_
  have hkept : ∀ (m : Scanning (Option Place)) (f : Table → Table), FailsWith m Unmoded →
      FailsWith (do let t ← c.table; c.setTable (f t); m) Unmoded := fun m f hm =>
    table_unmoded.bind fun _ => (setTable_unmoded _).bind fun _ => hm
  refine .ite (.ite (hkept _ (fun t => (t.linkDead p v).2) .pure) .pure) ?_
  refine (install_unmoded _).bind fun place => ?_
  exact .ite (hkept _ (fun t => (t.link p v place).2) .pure) .pure

private theorem next_unmoded (p : Place) (v : Symbol) : FailsWith (c.next p v) Unmoded := by
  unfold next
  refine table_unmoded.bind fun t => ?_
  split
  · exact .pure
  · exact .pure
  · exact target_unmoded p v

private theorem step_unmoded (p : Point) : FailsWith (c.step p) Unmoded := by
  have hlength : FailsWith c.checkLength Unmoded :=
    .get_bind fun s => .ite (fun _ => .throw fun e he mode => Except.error.inj he ▸ nofun) .pure
  unfold step
  refine .get_bind fun s => (next_unmoded _ _).bind fun place => ?_
  split
  · exact .pure
  · next place =>
    have hrest : FailsWith (do
        let row := (← c.table).row place
        let accepted := remember (← get) row p.accepted
        if row.accepting ∧ s.stream.lookAhead 1 = Symbol.eof then
          pure (.inr (accepted, s.stream.lookAhead 1))
        else pure (.inl ⟨place, accepted⟩) : Scanning (Point ⊕ (Option Accepted × Symbol)))
        Unmoded :=
      table_unmoded.bind fun t => .get_bind fun s' => .ite .pure .pure
    exact .ite (hlength.bind fun _ => FailsWith.modify.bind fun _ => hrest) hrest

private theorem conclude_unmoded (accepted : Option Accepted) (v : Symbol) :
    FailsWith (c.conclude accepted v) Unmoded := by
  unfold conclude
  split
  · exact FailsWith.modify.bind fun _ => .pure
  · refine .get_bind fun s => .ite .pure fun _ => .throw fun e he mode => ?_
    exact Except.error.inj he ▸ nofun

/-- **A match never finds fault with its mode.** -/
private theorem run_unmoded : FailsWith c.run Unmoded :=
  startPlace_unmoded.bind fun _ => .get_bind fun _ => table_unmoded.bind fun _ =>
    (FailsWith.loop step_unmoded _ _).bind fun last => conclude_unmoded last.1 last.2

end Scan

/-- **A mode with a table is known.** -/
theorem Scanner.matchToken_knows {s : Scanner} {mode : Nat} (hmode : mode < s.cache.tables.size)
    (settings : LexerSettings) (host : Oracle) (fuel : Nat) :
    (matchToken settings host fuel mode).Ensures s fun r _ =>
      ∀ unknown, r ≠ .error (.unknownMode unknown) := by
  unfold matchToken
  refine .get_bind ?_
  rw [if_neg (Nat.not_le.mpr hmode)]
  have hrun : ∀ c : Scan, c.run.outcome.Ensures s fun r _ =>
      ∃ x, r = .ok x ∧ ∀ unknown, x ≠ .error (.unknownMode unknown) := fun c =>
    .outcome ((Scan.run_unmoded s).mono fun r _ hr =>
      ⟨r, rfl, fun unknown heq => hr _ heq unknown rfl⟩)
  refine (hrun _).bind ?_ ?_
  · rintro x s' ⟨_, hr, hx⟩
    obtain rfl := Except.ok.inj hr
    cases x with
    | error e =>
      refine .modify_bind (.throw fun unknown heq => hx unknown ?_)
      exact congrArg _ (Except.error.inj heq)
    | ok m => exact .pure nofun
  · rintro e s' ⟨_, hr, -⟩
    cases hr

namespace Lexer

/-! ## Switches -/

section Switches

variable {l l' : Lexer} {mode : Nat}

theorem setMode_ok (h : (setMode mode).run l = .ok () l') :
    l.hasMode mode = true ∧ l' = { l with mode := mode } := by
  unfold EStateM.run setMode at h
  split at h
  · next hmode =>
    cases h
    exact ⟨hmode, rfl⟩
  · cases h

theorem pushMode_ok (h : (pushMode mode).run l = .ok () l') :
    l.hasMode mode = true ∧ l.modeStack.length < Limits.modeStack ∧
      l' = { l with mode := mode, modeStack := l.mode :: l.modeStack } := by
  unfold EStateM.run pushMode at h
  split at h
  · cases h
  · next hmode =>
    split at h
    · cases h
    · next hdepth =>
      cases h
      exact ⟨by simpa using hmode, Nat.lt_of_not_le hdepth, rfl⟩

theorem popMode_ok (h : popMode.run l = .ok mode l') :
    ∃ rest, l.modeStack = mode :: rest ∧ l' = { l with mode := mode, modeStack := rest } := by
  unfold EStateM.run popMode at h
  split at h
  · cases h
  · next m rest hstack =>
    cases h
    exact ⟨rest, hstack, rfl⟩

/-- **A mode that was remembered is returned to.** -/
theorem run_popMode {rest : List Nat} (h : l.modeStack = mode :: rest) :
    popMode.run l = .ok mode { l with mode := mode, modeStack := rest } := by
  unfold EStateM.run popMode
  rw [h]

/-- A mode is popped by a command that forgets which one it was. -/
theorem run_pop_command : (Command.popMode.run control).run l = match popMode.run l with
    | .ok _ l' => .ok () l'
    | .error e l' => .error e l' := by
  change (popMode >>= fun _ => pure PUnit.unit : EStateM LexError Lexer Unit).run l = _
  rw [EStateM.run_bind]
  cases popMode.run l <;> rfl

/-- **A command that is refused leaves the lexer as it is.** -/
theorem command_refused (c : Command) {e : LexError} (h : (c.run control).run l = .error e l') :
    l' = l := by
  induction c with
  | setChannel channel => cases h
  | custom rule action => cases h
  | more => cases h
  | skip => cases h
  | setType type => cases h
  | setMode mode =>
    change (setMode mode).run l = _ at h
    unfold EStateM.run setMode at h
    split at h <;> cases h
    rfl
  | pushMode mode =>
    change (pushMode mode).run l = _ at h
    unfold EStateM.run pushMode at h
    split at h
    · cases h
      rfl
    · split at h <;> cases h
      rfl
  | popMode =>
    rw [run_pop_command] at h
    unfold EStateM.run popMode at h
    cases hstack : l.modeStack with
    | nil =>
      rw [hstack] at h
      cases h
      rfl
    | cons mode rest =>
      rw [hstack] at h
      cases h
  | pinned offset command ih => exact ih h

end Switches

/-! ## Lexers among modes -/

/-- **A lexer among the modes of a network:** the one that it is in and those that it remembers are
modes of the network, it does not remember too many, and its cache is in range. -/
structure Moded (net : Network) (l : Lexer) : Prop where
  cache : l.scanner.cache.InRange net
  mode_lt : l.mode < net.modeStarts.length
  stacked_lt : ∀ mode ∈ l.modeStack, mode < net.modeStarts.length
  length_le : l.modeStack.length ≤ Limits.modeStack

section Moded

variable {net : Network} {setup : LexSetup} {l l' : Lexer}

namespace Moded

/-- What does not concern the cache and the modes. -/
theorem keep (h : l.Moded net) (hcache : l'.scanner.cache = l.scanner.cache)
    (hmode : l'.mode = l.mode) (hstack : l'.modeStack = l.modeStack) : l'.Moded net :=
  ⟨hcache ▸ h.cache, hmode ▸ h.mode_lt, hstack ▸ h.stacked_lt, hstack ▸ h.length_le⟩

theorem hasMode_iff (h : l.Moded net) (mode : Nat) :
    l.hasMode mode = true ↔ mode < net.modeStarts.length := by
  rw [hasMode, h.cache.net_eq, decide_eq_true_iff]

/-- A mode of the network has a table. -/
theorem lt_tables (h : l.Moded net) (hlexer : net.isLexer = true) :
    l.mode < l.scanner.cache.tables.size := by
  have hentry : net.entries[l.mode]? = some (net.modeStarts.get ⟨l.mode, h.mode_lt⟩) := by
    rw [Network.entries, if_pos hlexer, List.getElem?_eq_getElem h.mode_lt, List.get_eq_getElem]
  exact h.cache.lt_size hentry

theorem new {cache : Cache} (hcache : cache.InRange net) (hmodes : net.modeStarts ≠ [])
    (stream : CharStream) : (Lexer.new cache stream).Moded net :=
  ⟨hcache, List.length_pos_iff.mpr hmodes, nofun, Nat.zero_le _⟩

theorem reset (h : l.Moded net) : l.reset.Moded net :=
  ⟨h.cache, Nat.lt_of_le_of_lt (Nat.zero_le _) h.mode_lt, nofun, Nat.zero_le _⟩

theorem recover (h : l.Moded net) : l.recover.Moded net :=
  h.keep l.scanner.cache_advance rfl rfl

theorem emit (h : l.Moded net) (t : Token) : (l.emit setup t).Moded net := by
  unfold Lexer.emit
  dsimp only
  split <;> exact h.keep rfl rfl rfl

end Moded

/-- **A command keeps the modes valid,** whether it is refused or not. -/
theorem command_moded (h : l.Moded net) (c : Command) :
    (operate (c.run control)).Ensures l fun _ l' => l'.Moded net := by
  refine operate_ensures (fun _ l' hrun => ?_) fun _ l' hrun => command_refused c hrun ▸ h
  induction c with
  | setChannel channel => cases hrun; exact h.keep rfl rfl rfl
  | custom rule action => cases hrun; exact h.keep rfl rfl rfl
  | more => cases hrun; exact h.keep rfl rfl rfl
  | skip => cases hrun; exact h.keep rfl rfl rfl
  | setType type => cases hrun; exact h.keep rfl rfl rfl
  | setMode mode =>
    obtain ⟨hmode, rfl⟩ := setMode_ok hrun
    exact ⟨h.cache, (h.hasMode_iff mode).mp hmode, h.stacked_lt, h.length_le⟩
  | pushMode mode =>
    obtain ⟨hmode, hdepth, rfl⟩ := pushMode_ok hrun
    have hstacked : ∀ mode ∈ l.mode :: l.modeStack, mode < net.modeStarts.length :=
      List.forall_mem_cons.mpr ⟨h.mode_lt, h.stacked_lt⟩
    exact ⟨h.cache, (h.hasMode_iff mode).mp hmode, hstacked, hdepth⟩
  | popMode =>
    rw [run_pop_command] at hrun
    cases hpop : popMode.run l with
    | error e l₁ =>
      rw [hpop] at hrun
      cases hrun
    | ok mode l₁ =>
      rw [hpop] at hrun
      cases hrun
      obtain ⟨rest, hstack, rfl⟩ := popMode_ok hpop
      have hstacked := List.forall_mem_cons.mp (hstack ▸ h.stacked_lt)
      have hlength := hstack ▸ h.length_le
      exact ⟨h.cache, hstacked.1, hstacked.2, (Nat.le_succ _).trans hlength⟩
  | pinned offset command ih => exact ih hrun

/-- **A routine keeps the modes valid,** however far it gets. -/
theorem routine_moded (h : l.Moded net) (r : Routine) (start : Nat) :
    (operate (r.run control start)).Ensures l fun _ l' => l'.Moded net := by
  -- Moving the cursor leaves the modes alone.
  have hseek : ∀ {l : Lexer} (i : Nat), l.Moded net → (l.seek i).Moded net :=
    fun _ h => h.keep rfl rfl rfl
  have happroach : ∀ {l : Lexer} (stop : Nat) (away : Bool) (c : Command), l.Moded net →
      (operate (Routine.approach control start stop away c)).Ensures l fun _ l' =>
        l'.Moded net := by
    intro l stop away c h
    cases c with
    | pinned offset command => exact .of_eq rfl (hseek (start + offset) h)
    | custom rule action => exact .of_eq rfl (hseek stop h)
    | _ => exact .of_eq rfl h
  -- By induction on the commands that are left. A command that fails has the cursor put back before
  -- its error is passed on.
  have hall : ∀ (stop : Nat) (commands : List Command) {l : Lexer} (away : Bool), l.Moded net →
      (operate (Routine.runAll control start stop away commands)).Ensures l fun _ l' =>
        l'.Moded net := by
    intro stop commands
    induction commands with
    | nil => exact fun away h => .of_eq rfl h
    | cons command rest ih =>
      intro l away h
      unfold Routine.runAll
      rw [operate_bind]
      refine (happroach stop away command h).bind (fun away₁ l₁ h₁ => ?_) fun _ _ => id
      rw [operate_bind]
      refine Run.Ensures.bind (Q := fun _ l' => l'.Moded net) ?_ (fun _ l₂ h₂ => ih away₁ h₂)
        fun _ _ => id
      exact operate_tryCatch (command_moded h₁ command) (fun _ _ => id) fun _ l₂ h₂ =>
        .of_eq rfl (hseek stop h₂)
  unfold Routine.run
  rw [operate_bind]
  refine .get_bind ?_
  rw [operate_bind]
  refine (hall _ _ _ h).bind (fun away l' h' => ?_) fun _ _ => id
  cases away with
  | false => exact .of_eq rfl h'
  | true => exact .of_eq rfl (hseek l.stream.index h')

/-! ## Tokens -/

theorem settle_moded (h : l.Moded net) (type : Int) :
    (settle setup type).Ensures l fun _ l' => l'.Moded net := by
  unfold settle
  split
  · exact .modify_bind (.pure (h.keep rfl rfl rfl))
  split
  · exact .pure h
  split
  · exact .get_bind (.pure h)
  · exact .get_bind (.modify_bind (.pure (h.emit _)))

section Matches

variable (hnet : net.Consistent) (hindexed : net.Indexed)
include hnet hindexed

theorem matchOnce_moded (h : l.Moded net) :
    (matchOnce setup).Ensures l fun _ l' => l'.Moded net := by
  unfold matchOnce
  refine .modify_bind (.get_bind ?_)
  have hmatch : (Run.zoom Lexer.scanner (fun s l => { l with scanner := s })
      (Scanner.matchToken setup.settings setup.host setup.fuel l.mode)).Ensures
      { l with type := none } fun _ l' => l'.Moded net := by
    have hsafe := Scanner.strictMatchToken_safe hnet hindexed h.cache setup.settings setup.host
      setup.fuel l.mode
    exact .zoom (hsafe.ensures.mono fun _ _ hs =>
      ⟨hs.1, h.mode_lt, h.stacked_lt, h.length_le⟩)
  refine hmatch.bind (fun m l₁ h₁ => ?_) fun _ _ => id
  have hroutine : Run.Ensures (m.routine.forM fun r => operate (r.run control m.start)) l₁
      fun _ l' => l'.Moded net := by
    cases m.routine with
    | none => exact .pure h₁
    | some r => exact routine_moded h₁ r m.start
  exact hroutine.bind (fun _ l₂ h₂ => .get_bind (.pure h₂)) fun _ _ => id

theorem nextStep_moded (h : l.Moded net) (fresh : Bool) :
    (nextStep setup fresh).Ensures l fun _ l' => l'.Moded net := by
  refine nextStep_ensures (h.keep rfl rfl rfl) ?_
  have hbegun : (if fresh then l.begin else l).Moded net := by
    split
    · exact h.keep rfl rfl rfl
    · exact h
  exact (matchOnce_moded hnet hindexed hbegun).bind (fun type l₁ h₁ => settle_moded h₁ type)
    fun _ _ => id

theorem nextToken_moded (h : l.Moded net) :
    (nextToken setup).Ensures l fun _ l' => l'.Moded net :=
  .loop_keeps (fun fresh _ h' => nextStep_moded hnet hindexed h' fresh) h

theorem allStep_moded (h : l.Moded net) (tokens : List Token) :
    (allStep setup tokens).Ensures l fun _ l' => l'.Moded net :=
  (nextToken_moded hnet hindexed h).bind (fun _ _ h₁ => .pure h₁) fun _ _ => id

theorem tokenizeStep_moded (h : l.Moded net) (found : Harvest) :
    (tokenizeStep setup found).Ensures l fun _ l' => l'.Moded net := by
  have hnext : (nextToken setup).outcome.Ensures l fun _ l' => l'.Moded net :=
    .outcome (nextToken_moded hnet hindexed h)
  refine hnext.bind (fun r l₁ h₁ => ?_) fun _ _ => id
  cases r with
  | ok t => exact .pure h₁
  | error e =>
    refine .modify_bind (.modify_bind ?_)
    have h₂ : ∀ metrics event, (note { l₁ with metrics } event).Moded net := fun _ _ =>
      h₁.keep rfl rfl rfl
    dsimp only
    split
    · exact .modify_bind (.pure (h₂ _ _).recover)
    · exact .pure (h₂ _ _)

theorem allTokens_moded (h : l.Moded net) : (allTokens setup).Ensures l fun _ l' => l'.Moded net :=
  (Run.Ensures.loop_keeps (fun tokens _ h' => allStep_moded hnet hindexed h' tokens) h).bind
    (fun _ _ h₁ => .modify_bind (.pure (h₁.keep rfl rfl rfl))) fun _ _ => id

theorem tokenize_moded (h : l.Moded net) : (tokenize setup).Ensures l fun _ l' => l'.Moded net :=
  (Run.Ensures.loop_keeps (fun found _ h' => tokenizeStep_moded hnet hindexed h' found) h).bind
    (fun _ _ h₁ => .modify_bind (.pure (h₁.keep rfl rfl rfl))) fun _ _ => id

end Matches

end Moded

end Lexer

/-! ## What is done to lexers -/

/-- **Something done to a lexer:** a call, or a command or a seek that is given to its switches from
outside. The rounds of its loops count as well, so that a lexer is also met in the midst of a call
that goes on or never ends. -/
inductive LexDeed where
  | call (call : LexCall)
  | command (c : Command)
  | seek (index : Nat)
  | next (setup : LexSetup) (fresh : Bool)
  | all (setup : LexSetup) (tokens : List Token)
  | tokenize (setup : LexSetup) (found : Lexer.Harvest)

namespace LexDeed

/-- Does it, without an answer. -/
def make : LexDeed → Lexing Unit
  | call c => do let _ ← c.make
  | command c => Lexer.operate (c.run Lexer.control)
  | seek index => modify (Lexer.seek index)
  | next setup fresh => do let _ ← Lexer.nextStep setup fresh
  | all setup tokens => do let _ ← Lexer.allStep setup tokens
  | tokenize setup found => do let _ ← Lexer.tokenizeStep setup found

end LexDeed

section Driven

variable {net : Network} {l : Lexer} (hnet : net.Consistent) (hindexed : net.Indexed)
include hnet hindexed

theorem LexCall.make_moded (c : LexCall) (h : l.Moded net) :
    c.make.Ensures l fun _ l' => l'.Moded net := by
  cases c with
  | nextToken setup =>
    exact (Lexer.nextToken_moded hnet hindexed h).bind (fun _ _ h' => .pure h') fun _ _ => id
  | recover => exact .modify_bind (.pure h.recover)
  | allTokens setup => exact Lexer.allTokens_moded hnet hindexed h
  | tokenize setup =>
    exact (Lexer.tokenize_moded hnet hindexed h).bind (fun _ _ h' => .pure h') fun _ _ => id
  | reset => exact .modify_bind (.pure h.reset)

theorem LexDeed.make_moded (d : LexDeed) (h : l.Moded net) :
    d.make.Ensures l fun _ l' => l'.Moded net := by
  cases d with
  | call c => exact (c.make_moded hnet hindexed h).bind (fun _ _ h' => .pure h') fun _ _ => id
  | command c => exact Lexer.command_moded h c
  | seek index => exact .of_eq rfl (h.keep rfl rfl rfl)
  | next setup fresh =>
    exact (Lexer.nextStep_moded hnet hindexed h fresh).bind (fun _ _ h' => .pure h') fun _ _ => id
  | all setup tokens =>
    exact (Lexer.allStep_moded hnet hindexed h tokens).bind (fun _ _ h' => .pure h') fun _ _ => id
  | tokenize setup found =>
    exact (Lexer.tokenizeStep_moded hnet hindexed h found).bind (fun _ _ h' => .pure h')
      fun _ _ => id

end Driven

/-- **A driven lexer:** one that began on a cache which may have been in use before, after any deeds,
whether they succeeded or failed. Others may use its cache in between. -/
inductive Lexer.Driven (net : Network) : Lexer → Prop where
  | new {cache : Cache} (hcache : cache.Lived net) (stream : CharStream) :
      Driven net (.new cache stream)
  | deed {l l' : Lexer} (d : LexDeed) {r : Except LexError Unit} :
      Driven net l → d.make.from? l = some (r, l') → Driven net l'
  | shared {l : Lexer} {cache : Cache} :
      Driven net l → cache.Lived net → Driven net { l with scanner := { l.scanner with cache } }

/-- **A driven lexer is among the modes of its network.** -/
theorem Lexer.Driven.moded {net : Network} (hcheck : net.check = .ok ())
    (hlexer : net.isLexer = true) {l : Lexer} (hl : l.Driven net) : l.Moded net := by
  have hnet := Network.consistent_of_check hcheck
  have hindexed := Network.indexed_of_check hcheck
  induction hl with
  | new hcache stream =>
    exact .new (hcache.inRange hnet hindexed) (Network.modes_of_check hcheck hlexer) stream
  | deed d _ hrun ih => exact d.make_moded hnet hindexed ih _ _ hrun
  | shared _ hcache ih =>
    exact ⟨hcache.inRange hnet hindexed, ih.mode_lt, ih.stacked_lt, ih.length_le⟩

/-! ## Balanced commands -/

/-- **Commands that remember and return to modes in turn,** every mode that is remembered being
returned to. -/
inductive Command.Balanced : List Command → Prop where
  | nil : Balanced []
  | wrap (mode : Nat) {inner rest : List Command} :
      Balanced inner → Balanced rest → Balanced (.pushMode mode :: inner ++ .popMode :: rest)

namespace Lexer

/-- Runs one command after the other. -/
def runCommands (commands : List Command) : EStateM LexError Lexer Unit :=
  commands.forM (·.run control)

private theorem runCommands_append (cs ds : List Command) :
    runCommands (cs ++ ds) = runCommands cs >>= fun _ => runCommands ds :=
  List.forM_append

private theorem run_bind_ok {α β : Type} {m : EStateM LexError Lexer α}
    {f : α → EStateM LexError Lexer β} {l l' : Lexer} {b : β} (h : (m >>= f).run l = .ok b l') :
    ∃ a l₁, m.run l = .ok a l₁ ∧ (f a).run l₁ = .ok b l' := by
  rw [EStateM.run_bind] at h
  cases hm : m.run l with
  | ok a l₁ => exact ⟨a, l₁, rfl, by simpa [hm] using h⟩
  | error e l₁ => simp [hm] at h

/-- **Balanced commands leave the lexer as it is.** -/
theorem runCommands_balanced {commands : List Command} (hb : Command.Balanced commands)
    {l l' : Lexer} (hrun : (runCommands commands).run l = .ok () l') : l' = l := by
  induction hb generalizing l l' with
  | nil => cases hrun; rfl
  | @wrap mode inner rest _ _ ihinner ihrest =>
    rw [List.cons_append] at hrun
    obtain ⟨⟨⟩, l₁, hpush, hrun⟩ := run_bind_ok (m := (Command.pushMode mode).run control) hrun
    obtain ⟨-, -, rfl⟩ := pushMode_ok hpush
    change (runCommands (inner ++ .popMode :: rest)).run _ = _ at hrun
    rw [runCommands_append] at hrun
    obtain ⟨⟨⟩, l₂, hinner, hrun⟩ := run_bind_ok hrun
    obtain rfl := ihinner hinner
    obtain ⟨⟨⟩, l₃, hpop, hrest⟩ := run_bind_ok (m := Command.popMode.run control) hrun
    -- What is popped is what was pushed.
    rw [run_pop_command, run_popMode rfl] at hpop
    cases hpop
    exact ihrest hrest

/-! ## Valid modes -/

/-- **The modes of a lexer are valid.** -/
structure ModesValid (net : Network) (l : Lexer) : Prop where
  mode_lt : l.mode < net.modeStarts.length
  stacked_lt : ∀ mode ∈ l.modeStack, mode < net.modeStarts.length
  length_le : l.modeStack.length ≤ Limits.modeStack
  /-- The next match, whenever the lexer asks for it, is one in a mode that is there. -/
  known : ∀ settings host fuel r s,
    (Scanner.matchToken settings host fuel l.mode).from? l.scanner = some (r, s) →
      ∀ mode, r ≠ .error (.unknownMode mode)
  /-- A command that is refused changes nothing. -/
  refused : ∀ (c : Command) e l', (c.run control).run l = .error e l' →
    l'.mode = l.mode ∧ l'.modeStack = l.modeStack
  /-- A mode that was remembered is returned to, whatever is remembered and returned to between. -/
  restored : ∀ mode l₁ commands l₂, (pushMode mode).run l = .ok () l₁ →
    Command.Balanced commands → (runCommands commands).run l₁ = .ok () l₂ →
      ∃ l₃, popMode.run l₂ = .ok l.mode l₃ ∧ l₃.mode = l.mode ∧ l₃.modeStack = l.modeStack

/-- **The modes of a lexer are always valid.** Let anything be done to a lexer of a network that
passes the check, and let any of it fail. Then its mode and the modes it remembers are modes of the
network, it does not remember more of them than may be, and it asks its scanner for no mode that is
not there. A command that is refused leaves mode and stack alone, and a mode that was pushed is
popped by the command that belongs to it. -/
theorem modes_valid {net : Network} (hcheck : net.check = .ok ()) (hlexer : net.isLexer = true)
    {l : Lexer} (hl : l.Driven net) : l.ModesValid net := by
  have h := hl.moded hcheck hlexer
  refine ⟨h.mode_lt, h.stacked_lt, h.length_le, ?known, ?refused, ?restored⟩
  case known =>
    intro settings host fuel r s hrun
    exact Scanner.matchToken_knows (h.lt_tables hlexer) settings host fuel r s hrun
  case refused =>
    intro c e l' hrun
    obtain rfl := command_refused c hrun
    exact ⟨rfl, rfl⟩
  case restored =>
    intro mode l₁ commands l₂ hpush hb hrun
    obtain rfl := runCommands_balanced hb hrun
    obtain ⟨-, -, rfl⟩ := pushMode_ok hpush
    exact ⟨_, run_popMode rfl, rfl, rfl⟩

end Lexer

/-- A lexer grammar for parentheses, with a mode that every opening one enters and every closing one
leaves, and with a closing one that was never opened:

    open : '(' -> pushMode(INSIDE) ;
    stray : ')' -> popMode ;
    mode INSIDE ;
    deeper : '(' -> pushMode(INSIDE) ;
    close : ')' -> popMode ; -/
def Grammar.nests : Grammar where
  kind := .lexer
  name := "nests"
  modes := ["OUTSIDE", "INSIDE"]
  rules :=
    [⟨"open", .seq [.literal "(", .command (.pushMode 1)], some 1, 0⟩,
      ⟨"stray", .seq [.literal ")", .command .popMode], some 2, 0⟩,
      ⟨"deeper", .seq [.literal "(", .command (.pushMode 1)], some 3, 1⟩,
      ⟨"close", .seq [.literal ")", .command .popMode], some 4, 1⟩]

/-- The network of nested parentheses. -/
def Grammar.nestsNet : Network := nests.compile.toOption.getD default

namespace Lexer

private def setup : LexSetup := ⟨{}, .permissive, 50⟩

/-- A lexer whose first call ends at the stray parenthesis, and which two more take into the second
one that opens after it. -/
private def nested : Option Lexer := do
  let (_, l) ← (LexDeed.call (.tokenize setup)).make.from?
    (.new (.new Grammar.nestsNet) (.ofText "())(("))
  let (_, l) ← (LexDeed.call (.nextToken setup)).make.from? l
  let (_, l) ← (LexDeed.call (.nextToken setup)).make.from? l
  pure l

theorem nested_modes_valid : ∃ l, nested = some l ∧ l.Driven Grammar.nestsNet ∧ l.mode = 1 ∧
    l.modeStack = [1, 0] ∧ l.metrics.errors = 1 ∧ l.ModesValid Grammar.nestsNet := by
  have hends : nested.map (fun l => (l.mode, l.modeStack, l.metrics.errors)) =
      some (1, [1, 0], 1) := by decide +kernel
  obtain ⟨l, hl, heq⟩ := Option.map_eq_some_iff.mp hends
  obtain ⟨hmode, hstack, herrors⟩ : l.mode = 1 ∧ l.modeStack = [1, 0] ∧ l.metrics.errors = 1 := by
    simpa using heq
  have hdriven : l.Driven Grammar.nestsNet := by
    unfold nested at hl
    obtain ⟨⟨r₁, l₁⟩, h₁, hl⟩ := Option.bind_eq_some_iff.mp hl
    obtain ⟨⟨r₂, l₂⟩, h₂, hl⟩ := Option.bind_eq_some_iff.mp hl
    obtain ⟨⟨r₃, l₃⟩, h₃, hl⟩ := Option.bind_eq_some_iff.mp hl
    obtain rfl := Option.some.inj hl
    exact (((Driven.new (.new _ _) _).deed _ h₁).deed _ h₂).deed _ h₃
  have hcheck : Grammar.nestsNet.check = .ok () := by decide +kernel
  exact ⟨l, hl, hdriven, hmode, hstack, herrors,
    modes_valid hcheck (by decide +kernel) hdriven⟩

end Lexer

end AdaptiveLL
