import AdaptiveLL.Grammar.Compile
import AdaptiveLL.Proofs.Lexing.Places

/-!
# Calls on a lexer

A program drives a lexer by calls: it asks for the next token or for all of them, passes over a
character after an error, or begins again. Whatever the calls and whatever came of each of them, the
lexer is left with the line and column of its cursor, and every token bears those of its first
character.
-/

namespace AdaptiveLL

namespace Lexer

/-! ## Commands -/

/-- Apart from the input, which may have been put elsewhere, a lexer is where it was. -/
structure Strays (l l' : Lexer) : Prop where
  stream_eq : l'.stream = l.stream.seek l'.stream.index
  line_eq : l'.scanner.line = l.scanner.line
  column_eq : l'.scanner.column = l.scanner.column
  start_eq : l'.start = l.start

namespace Strays

variable {l l' l'' : Lexer}

theorem refl (l : Lexer) : l.Strays l := ⟨(CharStream.seek_index _).symm, rfl, rfl, rfl⟩

/-- What leaves the input alone. -/
theorem still (hstream : l'.stream = l.stream) (hline : l'.scanner.line = l.scanner.line)
    (hcolumn : l'.scanner.column = l.scanner.column) (hstart : l'.start = l.start) :
    l.Strays l' :=
  ⟨by rw [hstream, CharStream.seek_index], hline, hcolumn, hstart⟩

theorem trans (h : l.Strays l') (h' : l'.Strays l'') : l.Strays l'' := by
  refine ⟨?_, h'.line_eq.trans h.line_eq, h'.column_eq.trans h.column_eq,
    h'.start_eq.trans h.start_eq⟩
  rw [h'.stream_eq, h.stream_eq]
  simp [CharStream.seek]

theorem seek (l : Lexer) (i : Nat) : l.Strays (l.seek i) := by
  refine ⟨?_, rfl, rfl, rfl⟩
  simp [Lexer.seek, Lexer.stream, CharStream.seek]

/-- Where the input is back, the cursor is where it was. -/
theorem stays (h : l.Strays l') (hindex : l'.stream.index = l.stream.index) :
    l.scanner.Stays l'.scanner := by
  refine ⟨?_, h.line_eq, h.column_eq⟩
  have hstream := h.stream_eq
  rw [hindex, CharStream.seek_index] at hstream
  exact hstream

end Strays

@[simp] theorem seek_stream_index (l : Lexer) (i : Nat) :
    (l.seek i).stream.index = min i l.stream.chars.size := rfl

section Operate

variable {α β : Type}

theorem from?_operate (m : EStateM LexError Lexer α) (l : Lexer) :
    (operate m).from? l = some (match m.run l with
      | .ok a l => (.ok a, l)
      | .error e l => (.error e, l)) := rfl

/-- What comes of switches that were thrown. -/
theorem operate_ensures {m : EStateM LexError Lexer α} {l : Lexer}
    {Q : Except LexError α → Lexer → Prop} (hok : ∀ a l', m.run l = .ok a l' → Q (.ok a) l')
    (herr : ∀ e l', m.run l = .error e l' → Q (.error e) l') : (operate m).Ensures l Q := by
  intro r l' hrun
  rw [from?_operate] at hrun
  cases hm : m.run l with
  | ok a l₁ =>
    obtain ⟨rfl, rfl⟩ : .ok a = r ∧ l₁ = l' := by simpa [hm] using hrun
    exact hok a l₁ hm
  | error e l₁ =>
    obtain ⟨rfl, rfl⟩ : .error e = r ∧ l₁ = l' := by simpa [hm] using hrun
    exact herr e l₁ hm

/-- Switches thrown one after the other. -/
theorem operate_bind (m : EStateM LexError Lexer α) (f : α → EStateM LexError Lexer β) :
    operate (m >>= f) = operate m >>= fun a => operate (f a) := by
  refine congrArg ExceptT.mk (funext fun l => ?_)
  change (operate (m >>= f)).from? l = (operate m >>= fun a => operate (f a)).from? l
  rw [Run.from?_bind, from?_operate, from?_operate]
  rw [EStateM.run_bind]
  cases m.run l <;> rfl

/-- Where the second of two ways is tried after the first one failed. -/
theorem operate_tryCatch {m : EStateM LexError Lexer α}
    {recover : LexError → EStateM LexError Lexer α} {l : Lexer}
    {Q R : Except LexError α → Lexer → Prop} (h : (operate m).Ensures l Q)
    (hok : ∀ a l', Q (.ok a) l' → R (.ok a) l')
    (herr : ∀ e l', Q (.error e) l' → (operate (recover e)).Ensures l' R) :
    (operate (tryCatch m recover)).Ensures l R := by
  have hrun : (operate (tryCatch m recover)).from? l = match m.run l with
      | .ok a l' => some (.ok a, l')
      | .error e l' => (operate (recover e)).from? l' := by
    rw [from?_operate]
    have htry : (tryCatch m recover).run l = match m.run l with
        | .ok a l' => .ok a l'
        | .error e l' => (recover e).run l' := by
      change EStateM.tryCatch m recover l = _
      unfold EStateM.tryCatch EStateM.run
      cases m l <;> rfl
    rw [htry]
    cases m.run l <;> rfl
  intro r l' hr
  rw [hrun] at hr
  cases hm : m.run l with
  | ok a l₁ =>
    obtain ⟨rfl, rfl⟩ : .ok a = r ∧ l₁ = l' := by simpa [hm] using hr
    exact hok a l₁ (h _ _ (by rw [from?_operate, hm]))
  | error e l₁ =>
    rw [hm] at hr
    exact herr e l₁ (h _ _ (by rw [from?_operate, hm])) r l' hr

end Operate

/-- What the modes of a lexer are does not concern its cursor. -/
private theorem strays_modes (l : Lexer) (mode : Nat) (modes : List Nat) :
    l.Strays { l with mode := mode, modeStack := modes } :=
  .still rfl rfl rfl rfl

/-- The lexer that switches leave behind. -/
private def left {α : Type} : EStateM.Result LexError Lexer α → Lexer
  | .ok _ l => l
  | .error _ l => l

/-- What leaves the input alone and the cursor where it is. -/
private theorem operate_still {α : Type} {m : EStateM LexError Lexer α} {l : Lexer}
    (h : l.Strays (left (m.run l)) ∧ (left (m.run l)).stream = l.stream) :
    (operate m).Ensures l fun _ l' => l.Strays l' ∧ l'.stream = l.stream := by
  refine operate_ensures (fun a l' hm => ?_) fun e l' hm => ?_
  · rwa [hm] at h
  · rwa [hm] at h

private theorem setMode_still (mode : Nat) (l : Lexer) :
    (operate (setMode mode)).Ensures l fun _ l' => l.Strays l' ∧ l'.stream = l.stream := by
  apply operate_still
  unfold EStateM.run setMode
  split
  · exact ⟨strays_modes l _ _, rfl⟩
  · exact ⟨.refl l, rfl⟩

private theorem pushMode_still (mode : Nat) (l : Lexer) :
    (operate (pushMode mode)).Ensures l fun _ l' => l.Strays l' ∧ l'.stream = l.stream := by
  apply operate_still
  unfold EStateM.run pushMode
  split
  · exact ⟨.refl l, rfl⟩
  · split
    · exact ⟨.refl l, rfl⟩
    · exact ⟨strays_modes l _ _, rfl⟩

private theorem popMode_still (l : Lexer) :
    (operate popMode).Ensures l fun _ l' => l.Strays l' ∧ l'.stream = l.stream := by
  apply operate_still
  unfold EStateM.run popMode
  split
  · exact ⟨.refl l, rfl⟩
  · exact ⟨strays_modes l _ _, rfl⟩

/-- No command moves the input. -/
theorem command_still (c : Command) (l : Lexer) :
    (operate (c.run control)).Ensures l fun _ l' => l.Strays l' ∧ l'.stream = l.stream := by
  induction c with
  | setChannel channel => exact .of_eq rfl ⟨.still rfl rfl rfl rfl, rfl⟩
  | custom rule action => exact .of_eq rfl ⟨.still rfl rfl rfl rfl, rfl⟩
  | more => exact .of_eq rfl ⟨.still rfl rfl rfl rfl, rfl⟩
  | skip => exact .of_eq rfl ⟨.still rfl rfl rfl rfl, rfl⟩
  | setType type => exact .of_eq rfl ⟨.still rfl rfl rfl rfl, rfl⟩
  | setMode mode => exact setMode_still mode l
  | pushMode mode => exact pushMode_still mode l
  | popMode =>
    change (operate (popMode >>= fun _ => pure PUnit.unit)).Ensures l _
    rw [operate_bind]
    exact (popMode_still l).bind (fun _ _ h => .pure h) fun _ _ => id
  | pinned offset command ih => exact ih

/-! ## Routines -/

/-- Where a routine has got to: the input is at its place `stop` again, unless it is said to be
`away`. -/
private structure Underway (l₀ : Lexer) (away : Bool) (l : Lexer) : Prop where
  strays : l₀.Strays l
  back : away = false → l.stream.index = l₀.stream.index

/-- The input put back to where it was. -/
private theorem Underway.seek {l₀ l : Lexer} (h : l₀.Strays l) :
    Underway l₀ false (l.seek l₀.stream.index) := by
  refine ⟨h.trans (.seek l _), fun _ => ?_⟩
  rw [seek_stream_index, h.stream_eq]
  exact Nat.min_eq_left l₀.stream.inside

/-- A command that finds the input at its place leaves it there. -/
private theorem Underway.still {l₀ l l' : Lexer} {away : Bool} (h : Underway l₀ away l)
    (hstill : l.Strays l' ∧ l'.stream = l.stream) : Underway l₀ away l' := by
  refine ⟨h.strays.trans hstill.1, fun haway => ?_⟩
  rw [hstill.2]
  exact h.back haway

private theorem approach_underway {l₀ l : Lexer} {away : Bool} (h : Underway l₀ away l)
    (start : Nat) (c : Command) :
    (operate (Routine.approach control start l₀.stream.index away c)).Ensures l fun r l' =>
      ∃ away', r = .ok away' ∧ Underway l₀ away' l' := by
  cases c with
  | pinned offset command =>
    have hrun : (operate (Routine.approach control start l₀.stream.index away
        (.pinned offset command))).from? l =
        some (.ok (start + offset != l₀.stream.index), l.seek (start + offset)) := rfl
    refine .of_eq hrun ⟨_, rfl, h.strays.trans (.seek l _), fun haway => ?_⟩
    have hplace : start + offset = l₀.stream.index := by simpa using haway
    rw [hplace]
    exact (Underway.seek h.strays).back rfl
  | custom rule action =>
    have hrun : (operate (Routine.approach control start l₀.stream.index away
        (.custom rule action))).from? l = some (.ok false, l.seek l₀.stream.index) := rfl
    exact .of_eq hrun ⟨_, rfl, .seek h.strays⟩
  | _ => exact .of_eq rfl ⟨_, rfl, h⟩

/-- **However far a routine gets,** it knows whether it left the input at its place, and where a
command fails the input is put back. -/
private theorem runAll_underway {l₀ : Lexer} (start : Nat) (commands : List Command) {l : Lexer}
    {away : Bool} (h : Underway l₀ away l) :
    (operate (Routine.runAll control start l₀.stream.index away commands)).Ensures l fun r l' =>
      match r with
      | .ok away' => Underway l₀ away' l'
      | .error _ => Underway l₀ false l' := by
  induction commands generalizing l away with
  | nil => exact .of_eq rfl h
  | cons command rest ih =>
    unfold Routine.runAll
    rw [operate_bind]
    refine (approach_underway h start command).bind ?_ ?_
    · rintro away₁ l₁ ⟨_, hr, h₁⟩
      obtain rfl := Except.ok.inj hr
      rw [operate_bind]
      -- A command that fails is followed by a seek, so the input is back before the error goes on.
      refine Run.Ensures.bind (Q := fun r l' => match r with
        | .ok _ => Underway l₀ away₁ l'
        | .error _ => Underway l₀ false l') ?_ (fun _ l₂ h₂ => ih h₂) fun _ _ => id
      refine operate_tryCatch (command_still command l₁) (fun _ l₂ h₂ => h₁.still h₂) ?_
      intro e l₂ h₂
      have hrun : (operate (do modify (control.seek l₀.stream.index); throw e :
          EStateM LexError Lexer Unit)).from? l₂ =
          some (.error e, l₂.seek l₀.stream.index) := rfl
      exact .of_eq hrun (.seek (h₁.strays.trans h₂.1))
    · rintro e l₁ ⟨away₁, hr, -⟩
      cases hr

/-- **A routine leaves the cursor where it is,** whether a command failed or not. -/
theorem routine_stays (r : Routine) (start : Nat) (l : Lexer) :
    (operate (r.run control start)).Ensures l fun _ l' =>
      l.scanner.Stays l'.scanner ∧ l'.start = l.start := by
  have hends : ∀ {l'}, Underway l false l' → l.scanner.Stays l'.scanner ∧ l'.start = l.start :=
    fun h => ⟨h.strays.stays (h.back rfl), h.strays.start_eq⟩
  unfold Routine.run
  rw [operate_bind]
  refine .get_bind ?_
  rw [operate_bind]
  refine (runAll_underway start r.commands ⟨.refl l, fun _ => rfl⟩).bind (fun away l' h => ?_)
    fun e l' h => hends h
  cases away with
  | false => exact .of_eq rfl (hends h)
  | true =>
    have hrun : (operate (modify (control.seek l.stream.index))).from? l' =
        some (.ok ⟨⟩, l'.seek l.stream.index) := rfl
    exact .of_eq hrun (hends (.seek h.strays))

/-! ## Tokens -/

end Lexer

/-- Where the token begins. -/
def Token.place (t : Token) : Position := ⟨t.start, t.line, t.column⟩

namespace Lexer

/-- **The lexer keeps track:** its cursor and the beginning of its token are at positions of the
text. -/
structure Tracks (l : Lexer) (text : CharStream) : Prop where
  scanner : l.scanner.Tracks text
  start : text.Has l.start

variable {setup : LexSetup} {l l' : Lexer} {text : CharStream}

namespace Tracks

theorem new (cache : Cache) (text name : String) :
    (Lexer.new cache (.ofText text name)).Tracks (.ofText text name) :=
  ⟨.of_at (.here _) (.start _), .start _⟩

theorem of_stays (h : l.Tracks text) (hstays : l.scanner.Stays l'.scanner)
    (hstart : l'.start = l.start) : l'.Tracks text :=
  ⟨h.scanner.stays hstays, hstart ▸ h.start⟩

/-- A token begins at the cursor. -/
theorem begin (h : l.Tracks text) : l.begin.Tracks text := ⟨h.scanner, h.scanner.has⟩

theorem note (h : l.Tracks text) (e : Event) : (l.note e).Tracks text :=
  h.of_stays ⟨rfl, rfl, rfl⟩ rfl

theorem emit (h : l.Tracks text) (t : Token) : (l.emit setup t).Tracks text := by
  have h' : Tracks { l with emitted := l.emitted + 1, metrics := l.metrics.record t } text :=
    ⟨h.scanner, h.start⟩
  unfold Lexer.emit
  dsimp only
  split
  · exact h'.note _
  · exact h'

theorem recover (h : l.Tracks text) : l.recover.Tracks text := ⟨h.scanner.advance, h.start⟩

theorem reset (h : l.Tracks text) : l.reset.Tracks text := by
  have hcursor : (l.scanner.moveTo ⟨0, 1, 0⟩).Tracks text := h.scanner.moveTo (.start text)
  exact ⟨hcursor.stays ⟨rfl, rfl, rfl⟩, h.start⟩

/-- The token that ends the input begins at the cursor. -/
theorem has_eofToken (h : l.Tracks text) : text.Has l.eofToken.place := h.scanner.has

end Tracks

/-- **One match of a token, with its commands.** -/
theorem matchOnce_tracks (h : l.Tracks text) :
    (matchOnce setup).Ensures l fun _ l' => l'.Tracks text := by
  unfold matchOnce
  refine .modify_bind (.get_bind ?_)
  have hmatch : (Run.zoom Lexer.scanner (fun s l => { l with scanner := s })
      (Scanner.matchToken setup.settings setup.host setup.fuel l.mode)).Ensures
      { l with type := none } fun _ l' => l'.Tracks text :=
    .zoom (Run.Ensures.mono (Scanner.matchToken_tracks h.scanner _ _ _ _)
      fun _ _ hs => ⟨hs, h.start⟩)
  refine hmatch.bind (fun m l₁ h₁ => ?_) fun _ _ => id
  have hroutine : Run.Ensures (m.routine.forM fun r => operate (r.run control m.start)) l₁
      fun _ l' => l'.Tracks text := by
    cases m.routine with
    | none => exact .pure h₁
    | some r =>
      exact (routine_stays r m.start l₁).mono fun _ _ hstays => h₁.of_stays hstays.1 hstays.2
  exact hroutine.bind (fun _ l₂ h₂ => .get_bind (.pure h₂)) fun _ _ => id

/-- What is made of a match of a type: it is dropped, kept as the beginning of a token, or emitted. -/
def settle (setup : LexSetup) (type : Int) : Lexing (Bool ⊕ Token) :=
  if type = Token.skipped then
    (modify fun l => { l with metrics := { l.metrics with skipped := l.metrics.skipped + 1 } } :
      Lexing PUnit) >>= fun _ => pure (.inl true)
  else if type = Token.continued then pure (.inl false)
  else if type = Symbol.eof then get >>= fun l => pure (.inr l.eofToken)
  else get >>= fun l =>
    (modify (emit setup (l.token type)) : Lexing PUnit) >>= fun _ => pure (.inr (l.token type))

/-- **The rule of a match on the way to a token:** either the input has ended, or a match is made,
by a lexer that begins a token first if there is none yet. -/
theorem nextStep_ensures {fresh : Bool} {Q : Except LexError (Bool ⊕ Token) → Lexer → Prop}
    (hend : Q (.ok (.inr l.eofToken)) { l with ended := true })
    (hmatch : (matchOnce setup >>= settle setup).Ensures (if fresh then l.begin else l) Q) :
    (nextStep setup fresh).Ensures l Q := by
  unfold nextStep
  refine .get_bind ?_
  split
  · exact .set_bind (.pure hend)
  · cases fresh with
    | true => exact .modify_bind hmatch
    | false => exact hmatch

theorem settle_tracks (h : l.Tracks text) (type : Int) :
    (settle setup type).Ensures l fun r l' => l'.Tracks text ∧
      ∀ t, r = .ok (.inr t) → text.Has t.place := by
  unfold settle
  split
  · exact .modify_bind (.pure ⟨h.of_stays ⟨rfl, rfl, rfl⟩ rfl, nofun⟩)
  split
  · exact .pure ⟨h, nofun⟩
  split
  · refine .get_bind (.pure ⟨h, fun t ht => ?_⟩)
    obtain rfl := Sum.inr.inj (Except.ok.inj ht)
    exact h.has_eofToken
  · refine .get_bind (.modify_bind (.pure ⟨h.emit _, fun t ht => ?_⟩))
    obtain rfl := Sum.inr.inj (Except.ok.inj ht)
    exact h.start

/-- **One match on the way to a token:** if it completes the token, that begins at a position of the
text. -/
theorem nextStep_tracks (h : l.Tracks text) (fresh : Bool) :
    (nextStep setup fresh).Ensures l fun r l' => l'.Tracks text ∧
      ∀ t, r = .ok (.inr t) → text.Has t.place := by
  refine nextStep_ensures ⟨h.of_stays ⟨rfl, rfl, rfl⟩ rfl, fun t ht => ?_⟩ ?_
  · obtain rfl := Sum.inr.inj (Except.ok.inj ht)
    exact h.has_eofToken
  · have hbegun : (if fresh then l.begin else l).Tracks text := by
      split
      · exact h.begin
      · exact h
    exact (matchOnce_tracks hbegun).bind (fun type l₁ h₁ => settle_tracks h₁ type)
      fun _ _ h₁ => ⟨h₁, nofun⟩

/-- **The next token begins at a position of the text,** and no error makes the lexer lose track. -/
theorem nextToken_tracks (h : l.Tracks text) :
    (nextToken setup).Ensures l fun r l' => l'.Tracks text ∧ ∀ t, r = .ok t → text.Has t.place := by
  refine .loop (fun _ l' => l'.Tracks text) (fun fresh l' h' => ?_) h
  refine (nextStep_tracks h' fresh).mono fun r l'' ⟨h'', ht⟩ => ?_
  match r with
  | .ok (.inl fresh') => exact h''
  | .ok (.inr t) =>
    refine ⟨h'', fun t' ht' => ?_⟩
    obtain rfl := Except.ok.inj ht'
    exact ht t rfl
  | .error e => exact ⟨h'', nofun⟩

/-! ## Whole texts -/

theorem allTokens_tracks (h : l.Tracks text) :
    (allTokens setup).Ensures l fun r l' => l'.Tracks text ∧
      ∀ tokens, r = .ok tokens → ∀ t ∈ tokens, text.Has t.place := by
  have hloop : (Run.loop (allStep setup) setup.fuel []).Ensures l fun r l' => l'.Tracks text ∧
      ∀ tokens, r = .ok tokens → ∀ t ∈ tokens, text.Has t.place := by
    refine .loop (fun tokens l' => l'.Tracks text ∧ ∀ t ∈ tokens, text.Has t.place)
      (fun tokens l' ⟨h', htokens⟩ => ?_) ⟨h, nofun⟩
    refine (nextToken_tracks h').bind (fun t l₁ ⟨h₁, ht⟩ => .pure ?_) fun e l₁ ⟨h₁, _⟩ =>
      ⟨h₁, nofun⟩
    have hmore : ∀ t' ∈ t :: tokens, text.Has t'.place :=
      List.forall_mem_cons.mpr ⟨ht t rfl, htokens⟩
    cases t.isEof with
    | false => exact ⟨h₁, hmore⟩
    | true =>
      refine ⟨h₁, fun all hall => ?_⟩
      obtain rfl := Except.ok.inj hall
      exact fun t' ht' => hmore t' (List.mem_reverse.mp ht')
  refine hloop.bind (fun tokens l₁ ⟨h₁, htokens⟩ => .modify_bind (.pure ⟨h₁.note _, ?_⟩))
    fun e l₁ ⟨h₁, _⟩ => ⟨h₁, nofun⟩
  intro tokens' heq
  obtain rfl := Except.ok.inj heq
  exact htokens _ rfl

theorem tokenize_tracks (h : l.Tracks text) :
    (tokenize setup).Ensures l fun r l' => l'.Tracks text ∧
      ∀ found, r = .ok found → ∀ t ∈ found.1, text.Has t.place := by
  have hloop : (Run.loop (tokenizeStep setup) setup.fuel {}).Ensures l fun r l' =>
      l'.Tracks text ∧ ∀ found, r = .ok found → ∀ t ∈ found.tokens, text.Has t.place := by
    refine .loop (fun found l' => l'.Tracks text ∧ ∀ t ∈ found.tokens, text.Has t.place)
      (fun found l' ⟨h', hfound⟩ => ?_) ⟨h, nofun⟩
    have hnext : (nextToken setup).outcome.Ensures l' fun r l'' => l''.Tracks text ∧
        ∀ t, r = .ok (.ok t) → text.Has t.place :=
      .outcome ((nextToken_tracks h').mono fun r l'' ⟨h'', ht⟩ =>
        ⟨h'', fun t heq => ht t (Except.ok.inj heq)⟩)
    refine hnext.bind (fun r l₁ ⟨h₁, ht⟩ => ?_) fun e l₁ ⟨h₁, _⟩ => ⟨h₁, nofun⟩
    cases r with
    | ok t =>
      have hmore : ∀ t' ∈ t :: found.tokens, text.Has t'.place :=
        List.forall_mem_cons.mpr ⟨ht t rfl, hfound⟩
      refine .pure ?_
      cases t.isEof with
      | false => exact ⟨h₁, hmore⟩
      | true =>
        refine ⟨h₁, fun all hall => ?_⟩
        obtain rfl := Except.ok.inj hall
        exact hmore
    | error e =>
      refine .modify_bind (.modify_bind ?_)
      have h₂ : Tracks { l₁ with metrics := { l₁.metrics with errors := l₁.metrics.errors + 1 } }
          text := ⟨h₁.scanner, h₁.start⟩
      dsimp only
      split
      · exact .modify_bind (.pure ⟨(h₂.note _).recover, hfound⟩)
      · refine .pure ⟨h₂.note _, fun all hall => ?_⟩
        obtain rfl := Except.ok.inj hall
        exact hfound
  refine hloop.bind (fun found l₁ ⟨h₁, hfound⟩ => .modify_bind (.pure ⟨h₁.note _, ?_⟩))
    fun e l₁ ⟨h₁, _⟩ => ⟨h₁, nofun⟩
  intro all heq t ht
  obtain rfl := Except.ok.inj heq
  exact hfound _ rfl t (List.mem_reverse.mp ht)

end Lexer

/-! ## Calls -/

/-- **A call on a lexer.** What the settings are, what the host answers and how much fuel there is
may change from call to call. -/
inductive LexCall where
  | nextToken (setup : LexSetup)
  | recover
  | allTokens (setup : LexSetup)
  | tokenize (setup : LexSetup)
  | reset

namespace LexCall

/-- Makes the call; the answer are the tokens that it hands out. -/
def make : LexCall → Lexing (List Token)
  | nextToken setup => do pure [← Lexer.nextToken setup]
  | recover => do
    modify Lexer.recover
    pure []
  | allTokens setup => Lexer.allTokens setup
  | tokenize setup => do pure (← Lexer.tokenize setup).1
  | reset => do
    modify Lexer.reset
    pure []

/-- Makes one call after the other, whether they fail or not; the answer are all tokens that were
handed out. -/
def makeAll : List LexCall → Lexing (List Token)
  | [] => pure []
  | call :: calls => do
    let tokens := (← call.make.outcome).toOption.getD []
    pure (tokens ++ (← makeAll calls))

variable {l : Lexer} {text : CharStream}

theorem make_tracks (call : LexCall) (h : l.Tracks text) :
    call.make.Ensures l fun r l' => l'.Tracks text ∧
      ∀ tokens, r = .ok tokens → ∀ t ∈ tokens, text.Has t.place := by
  cases call with
  | nextToken setup =>
    refine (Lexer.nextToken_tracks h).bind (fun t l' ⟨h', ht⟩ => .pure ⟨h', fun tokens heq => ?_⟩)
      fun e l' ⟨h', _⟩ => ⟨h', nofun⟩
    obtain rfl := Except.ok.inj heq
    exact List.forall_mem_singleton.mpr (ht t rfl)
  | recover =>
    refine .modify_bind (.pure ⟨h.recover, fun tokens heq => ?_⟩)
    obtain rfl := Except.ok.inj heq
    exact nofun
  | allTokens setup => exact Lexer.allTokens_tracks h
  | tokenize setup =>
    refine (Lexer.tokenize_tracks h).bind
      (fun found l' ⟨h', hfound⟩ => .pure ⟨h', fun tokens heq => ?_⟩)
      fun e l' ⟨h', _⟩ => ⟨h', nofun⟩
    obtain rfl := Except.ok.inj heq
    exact hfound found rfl
  | reset =>
    refine .modify_bind (.pure ⟨h.reset, fun tokens heq => ?_⟩)
    obtain rfl := Except.ok.inj heq
    exact nofun

theorem makeAll_tracks (calls : List LexCall) (h : l.Tracks text) :
    (makeAll calls).Ensures l fun r l' => l'.Tracks text ∧
      ∀ tokens, r = .ok tokens → ∀ t ∈ tokens, text.Has t.place := by
  induction calls generalizing l with
  | nil =>
    refine .pure ⟨h, fun tokens heq => ?_⟩
    obtain rfl := Except.ok.inj heq
    exact nofun
  | cons call calls ih =>
    have hcall : call.make.outcome.Ensures l fun r l' => l'.Tracks text ∧
        ∀ tokens, r = .ok (.ok tokens) → ∀ t ∈ tokens, text.Has t.place :=
      .outcome ((make_tracks call h).mono fun r l' ⟨h', ht⟩ =>
        ⟨h', fun tokens heq => ht tokens (Except.ok.inj heq)⟩)
    refine hcall.bind (fun r l₁ ⟨h₁, hr⟩ => ?_) fun e l₁ ⟨h₁, _⟩ => ⟨h₁, nofun⟩
    refine (ih h₁).bind (fun rest l₂ ⟨h₂, hrest⟩ => .pure ⟨h₂, fun tokens heq => ?_⟩)
      fun e l₂ ⟨h₂, _⟩ => ⟨h₂, nofun⟩
    obtain rfl := Except.ok.inj heq
    intro t ht
    rcases List.mem_append.mp ht with ht | ht
    · cases r with
      | ok tokens => exact hr tokens rfl t ht
      | error e => cases ht
    · exact hrest rest rfl t ht

end LexCall

/-- **Line and column always match the cursor.** Let any calls be made on a lexer that began at the
start of a text, on whatever cache, with whatever commands in its rules, and let errors of every
kind come of them. Then the line of the lexer is one more than the number of line breaks before its
cursor, its column is the number of characters after the last of these, and every token that was
handed out bears the line and the column of its first character. -/
theorem Lexer.position_matches (cache : Cache) (text name : String) (calls : List LexCall)
    {tokens : List Token} {l : Lexer}
    (hrun : (LexCall.makeAll calls).from? (.new cache (.ofText text name)) =
      some (.ok tokens, l)) :
    l.scanner.position = .after (text.toList.take l.stream.index) ∧
      ∀ t ∈ tokens, t.place = .after (text.toList.take t.start) := by
  obtain ⟨htracks, htokens⟩ := LexCall.makeAll_tracks calls (.new cache text name) _ _ hrun
  exact ⟨htracks.scanner.has, htokens tokens rfl⟩

/-- A lexer grammar with an action inside a token, line breaks that are dropped, and a command that
fails where no mode was pushed:

    word : 'a' {act} 'b' ;
    line : '\n' -> skip ;
    leave : 'x' -> popMode ; -/
def Grammar.lines : Grammar where
  kind := .lexer
  name := "lines"
  rules :=
    [⟨"word", .seq [.literal "a", .action 0, .literal "b"], some 1, 0⟩,
      ⟨"line", .seq [.literal "\n", .command .skip], some 2, 0⟩,
      ⟨"leave", .seq [.literal "x", .command .popMode], some 3, 0⟩]

namespace LexCall

private def setup : LexSetup := ⟨{}, .permissive, 50⟩

/-- Calls that meet a character no rule recognizes, pass over it, go on to the command that fails,
begin again, and end there once more. -/
private def visit : List LexCall :=
  [nextToken setup, nextToken setup, recover, nextToken setup, nextToken setup, reset,
    tokenize setup]

private def visited : Option (Except LexError (List Token) × Lexer) :=
  (makeAll visit).from?
    (.new (.new (Grammar.lines.compile.toOption.getD default)) (.ofText "ab\n?\nabx"))

/-- Whether the calls hand out two words twice, and end behind the last character. -/
private def arrives : Bool :=
  match visited with
  | some (.ok tokens, l) => l.scanner.position == ⟨8, 3, 3⟩ &&
      tokens.map Token.place == [⟨0, 1, 0⟩, ⟨5, 3, 0⟩, ⟨0, 1, 0⟩, ⟨5, 3, 0⟩]
  | _ => false

theorem lines_position : ∃ tokens l, visited = some (.ok tokens, l) ∧
    tokens.map Token.place = [⟨0, 1, 0⟩, ⟨5, 3, 0⟩, ⟨0, 1, 0⟩, ⟨5, 3, 0⟩] ∧
    l.scanner.position = .after ("ab\n?\nabx".toList.take l.stream.index) ∧
    ∀ t ∈ tokens, t.place = .after ("ab\n?\nabx".toList.take t.start) := by
  have harrives : arrives = true := by decide +kernel
  unfold arrives at harrives
  split at harrives
  · next tokens l hrun =>
    simp only [Bool.and_eq_true, beq_iff_eq] at harrives
    exact ⟨tokens, l, hrun, harrives.2, Lexer.position_matches _ _ _ visit hrun⟩
  · cases harrives

end LexCall

end AdaptiveLL
