import AdaptiveLL.Proofs.Lexing.Calls

/-!
# Lengths

The ceiling on the length of a token is met by one match at a time: no match reads more characters
than it allows. A token that is put together from several matches, each of them but the last kept as
its beginning, may be longer, by as many times the ceiling as it has matches.
-/

namespace AdaptiveLL

/-! ## Matches -/

namespace Scan

variable {c : Scan} {s : Scanner} {limit : Nat}

/-- The cursor advances by one character at most. -/
theorem index_advance_le (s : Scanner) : s.advance.stream.index ≤ s.stream.index + 1 := by
  have hconsume : s.stream.consume.index ≤ s.stream.index + 1 := Nat.min_le_left _ _
  unfold Scanner.advance
  dsimp only
  split
  · exact Nat.le_succ _
  · split <;> exact hconsume

/-- **A match that is not too long:** neither is what it has read, nor the token it remembers. -/
private structure Short (limit index : Nat) (accepted : Option Accepted) : Prop where
  index_le : index ≤ limit
  accepted_le : ∀ a ∈ accepted, a.position.index ≤ limit

private theorem Short.remember {accepted : Option Accepted}
    (h : Short limit s.stream.index accepted) (row : Row) :
    Short limit s.stream.index (remember s row accepted) := by
  refine ⟨h.index_le, fun a ha => ?_⟩
  unfold Scan.remember at ha
  split at ha
  · obtain rfl := Option.some.inj ha
    exact h.index_le
  · exact h.accepted_le a ha

/-- What is read after the length was checked is not too long. -/
private theorem checkLength_short : c.checkLength.Ensures s fun r s' => s' = s ∧
    (r = .ok () → s.stream.index + 1 ≤ c.start.index + c.settings.maxTokenLength) := by
  unfold checkLength
  refine .get_bind ?_
  dsimp only
  split
  · exact .throw ⟨rfl, nofun⟩
  · next hlength => exact .pure ⟨rfl, fun _ => by omega⟩

/-- **One character of a match.** -/
private theorem step_short (hlimit : limit = c.start.index + c.settings.maxTokenLength)
    {point : Point} (h : Short limit s.stream.index point.accepted) :
    (c.step point).Ensures s fun r s' =>
      match r with
      | .ok (.inl point') => Short limit s'.stream.index point'.accepted
      | .ok (.inr (accepted, _)) => Short limit s'.stream.index accepted
      | .error _ => True := by
  unfold step
  refine .get_bind ?_
  refine (c.next_rests _ _ s).bind (fun next s₁ hstays => ?_) fun _ _ _ => trivial
  have h₁ : Short limit s₁.stream.index point.accepted := hstays.stream_eq ▸ h
  cases next with
  | none => exact .pure h₁
  | some place =>
    -- What is remembered at a row ends where the cursor is.
    have hrow : ∀ {s₂ : Scanner}, Short limit s₂.stream.index point.accepted → (do
        let row := (← c.table).row place
        let accepted := remember (← get) row point.accepted
        if row.accepting ∧ s.stream.lookAhead 1 = Symbol.eof then
          pure (.inr (accepted, s.stream.lookAhead 1))
        else pure (.inl ⟨place, accepted⟩) :
          Scanning (Point ⊕ (Option Accepted × Symbol))).Ensures s₂ fun r s' =>
        match r with
        | .ok (.inl point') => Short limit s'.stream.index point'.accepted
        | .ok (.inr (accepted, _)) => Short limit s'.stream.index accepted
        | .error _ => True := by
      intro s₂ h₂
      refine (c.table_rests s₂).bind (fun t s₃ hstays₃ => .get_bind ?_) fun _ _ _ => trivial
      have h₃ : Short limit s₃.stream.index point.accepted := hstays₃.stream_eq ▸ h₂
      dsimp only
      split
      · exact .pure (h₃.remember _)
      · exact .pure (h₃.remember _)
    dsimp only
    split
    · refine checkLength_short.bind (fun _ s₂ ⟨hs₂, hlength⟩ => .modify_bind ?_)
        fun _ _ _ => trivial
      subst hs₂
      refine hrow ⟨?_, h₁.accepted_le⟩
      exact (index_advance_le s₂).trans (hlimit ▸ hlength rfl)
    · exact hrow h₁

private theorem conclude_short {accepted : Option Accepted}
    (h : Short limit s.stream.index accepted) (v : Symbol) :
    (c.conclude accepted v).Ensures s fun r s' => ∀ m, r = .ok m → s'.stream.index ≤ limit := by
  cases accepted with
  | some a =>
    refine .modify_bind (.pure fun _ _ => ?_)
    exact (Nat.min_le_left _ _).trans (h.accepted_le a rfl)
  | none =>
    refine .get_bind ?_
    dsimp only
    split
    · exact .pure fun _ _ => h.index_le
    · exact .throw nofun

private theorem run_short (hs : s.stream.index = c.start.index) :
    c.run.Ensures s fun r s' =>
      ∀ m, r = .ok m → s'.stream.index ≤ c.start.index + c.settings.maxTokenLength := by
  unfold run
  refine (c.startPlace_rests s).bind (fun place s₁ hstays₁ => ?_) fun _ _ _ => nofun
  refine .get_bind ((c.table_rests s₁).bind (fun t s₂ hstays₂ => ?_) fun _ _ _ => nofun)
  have h₁ : Short (c.start.index + c.settings.maxTokenLength) s₁.stream.index none :=
    ⟨by rw [hstays₁.stream_eq, hs]; exact Nat.le_add_right _ _, nofun⟩
  have hloop : (Run.loop c.step c.fuel ⟨place, remember s₁ (t.row place) none⟩).Ensures s₂
      fun r s' => ∀ last, r = .ok last →
        Short (c.start.index + c.settings.maxTokenLength) s'.stream.index last.1 := by
    refine .loop (fun point s' => Short _ s'.stream.index point.accepted) (fun point s' h' => ?_)
      (hstays₂.stream_eq ▸ h₁.remember _)
    refine (step_short rfl h').mono fun r s'' hr => ?_
    match r with
    | .ok (.inl point') => exact hr
    | .ok (.inr (accepted, v)) =>
      intro last heq
      obtain rfl := Except.ok.inj heq
      exact hr
    | .error e => exact nofun
  exact hloop.bind (fun last s₃ h₃ => conclude_short (h₃ last rfl) last.2) fun _ _ _ => nofun

end Scan

/-- **No match reads more characters than the ceiling on the length of a token allows.** -/
theorem Scanner.matchToken_length (s : Scanner) (settings : LexerSettings) (host : Oracle)
    (fuel mode : Nat) :
    (matchToken settings host fuel mode).Ensures s fun r s' =>
      ∀ m, r = .ok m → s'.stream.index ≤ s.stream.index + settings.maxTokenLength := by
  unfold matchToken
  refine .get_bind ?_
  split
  · exact .throw nofun
  · have hrun : ∀ c : Scan, c.start = s.position → c.run.outcome.Ensures s fun r s' =>
        ∀ m, r = .ok (.ok m) → s'.stream.index ≤ s.stream.index + c.settings.maxTokenLength := by
      intro c hc
      have hstart : c.start.index = s.stream.index := congrArg Position.index hc
      rw [← hstart]
      exact .outcome ((Scan.run_short hstart.symm).mono fun _ _ hr m heq =>
        hr m (Except.ok.inj heq))
    refine (hrun _ rfl).bind (fun r s₁ h₁ => ?_) fun _ _ _ => nofun
    cases r with
    | ok m => exact .pure fun _ _ => h₁ m rfl
    | error e => exact .modify_bind (.throw nofun)

/-! ## Tokens -/

namespace Lexer

variable {setup : LexSetup} {l l' : Lexer}

/-- **One match, with its commands,** moves the cursor by no more than the ceiling. -/
theorem matchOnce_length : (matchOnce setup).Ensures l fun r l' => ∀ type, r = .ok type →
    l'.start = l.start ∧ l'.stream.index ≤ l.stream.index + setup.settings.maxTokenLength := by
  unfold matchOnce
  refine .modify_bind (.get_bind ?_)
  have hmatch : (Run.zoom Lexer.scanner (fun s l => { l with scanner := s })
      (Scanner.matchToken setup.settings setup.host setup.fuel l.mode)).Ensures
      { l with type := none } fun r l' => ∀ m, r = .ok m →
        l'.start = l.start ∧ l'.stream.index ≤ l.stream.index + setup.settings.maxTokenLength :=
    .zoom ((Scanner.matchToken_length l.scanner _ _ _ _).mono fun _ _ hr m heq =>
      ⟨rfl, hr m heq⟩)
  refine hmatch.bind (fun m l₁ h₁ => ?_) fun _ _ _ => nofun
  obtain ⟨hstart, hindex⟩ := h₁ m rfl
  have hroutine : Run.Ensures (m.routine.forM fun r => operate (r.run control m.start)) l₁
      fun _ l₂ => l₁.scanner.Stays l₂.scanner ∧ l₂.start = l₁.start := by
    cases m.routine with
    | none => exact .pure ⟨.refl _, rfl⟩
    | some r => exact routine_stays r m.start l₁
  refine hroutine.bind (fun _ l₂ ⟨hstays, hstart₂⟩ => .get_bind (.pure fun _ _ => ?_))
    fun _ _ _ => nofun
  have hstream : l₂.stream = l₁.stream := hstays.stream_eq
  exact ⟨hstart₂.trans hstart, hstream ▸ hindex⟩

/-- Where the token being built begins, or will begin if there is none yet. -/
def begun (fresh : Bool) (l : Lexer) : Nat := if fresh then l.stream.index else l.start.index

/-- What is kept or emitted ends where the cursor is. -/
private theorem settle_length {limit : Nat} (h : l.stream.index ≤ l.start.index + limit)
    (type : Int) :
    (settle setup type).Ensures l fun r l' =>
      (r = .ok (.inl false) → l'.stream.index ≤ l'.start.index + limit) ∧
      ∀ t, r = .ok (.inr t) → t.stop ≤ t.start + limit := by
  unfold settle
  split
  · exact .modify_bind (.pure ⟨nofun, nofun⟩)
  split
  · exact .pure ⟨fun _ => h, nofun⟩
  split
  · refine .get_bind (.pure ⟨nofun, fun t ht => ?_⟩)
    obtain rfl := Sum.inr.inj (Except.ok.inj ht)
    exact Nat.le_add_right l.stream.index limit
  · refine .get_bind (.modify_bind (.pure ⟨nofun, fun t ht => ?_⟩))
    obtain rfl := Sum.inr.inj (Except.ok.inj ht)
    exact h

/-- **One match more makes a token longer by no more than the ceiling.** -/
theorem nextStep_length {fresh : Bool} {n : Nat}
    (h : l.stream.index ≤ l.begun fresh + n * setup.settings.maxTokenLength) :
    (nextStep setup fresh).Ensures l fun r l' =>
      (r = .ok (.inl false) →
        l'.stream.index ≤ l'.start.index + (n + 1) * setup.settings.maxTokenLength) ∧
      ∀ t, r = .ok (.inr t) → t.stop ≤ t.start + (n + 1) * setup.settings.maxTokenLength := by
  refine nextStep_ensures ⟨nofun, fun t ht => ?_⟩ ?_
  · -- The token that ends the input has no length.
    obtain rfl := Sum.inr.inj (Except.ok.inj ht)
    exact Nat.le_add_right l.stream.index _
  · obtain ⟨hstream, hstart⟩ : (if fresh then l.begin else l).stream = l.stream ∧
        (if fresh then l.begin else l).start.index = l.begun fresh := by
      cases fresh <;> exact ⟨rfl, rfl⟩
    refine matchOnce_length.bind (fun type l₁ h₁ => settle_length ?_ type) fun _ _ _ => ⟨nofun, nofun⟩
    obtain ⟨hsame, hindex⟩ := h₁ type rfl
    rw [hsame, hstart, Nat.succ_mul]
    rw [hstream] at hindex
    omega

/-- **A token in the making:** the lexer after `n` matches in a row that were kept as its beginning,
the first of them made by the lexer `l`. -/
inductive Kept (setup : LexSetup) (l : Lexer) : Nat → Lexer → Prop where
  | none : Kept setup l 0 l
  | more {n : Nat} {l₁ l₂ : Lexer} : Kept setup l n l₁ →
      (nextStep setup (n == 0)).from? l₁ = some (.ok (.inl false), l₂) → Kept setup l (n + 1) l₂

theorem Kept.index_le {n : Nat} (h : Kept setup l n l') :
    l'.stream.index ≤ l'.begun (n == 0) + n * setup.settings.maxTokenLength := by
  induction h with
  | none => exact Nat.le_add_right _ _
  | more _ hstep ih => exact (nextStep_length ih _ _ hstep).1 rfl

/-- Between any two matches on the way to a token, one that was kept is in the making, or none is. -/
private theorem exists_kept {x : Bool × Lexer}
    (h : Relation.ReflTransGen (Run.Rounds (nextStep setup)) (true, l) x) :
    ∃ l₁ n, Kept setup l₁ n x.2 ∧ x.1 = (n == 0) := by
  induction h with
  | refl => exact ⟨l, 0, .none, rfl⟩
  | @tail y z _ hround ih =>
    obtain ⟨fresh, l₂⟩ := z
    cases fresh with
    | true => exact ⟨l₂, 0, .none, rfl⟩
    | false =>
      obtain ⟨l₁, n, hkept, hfresh⟩ := ih
      exact ⟨l₁, n + 1, hkept.more (hfresh ▸ hround), rfl⟩

/-- **A token is no longer than its matches together may be.** Where its first match completes it,
that is the ceiling on the length of a token. -/
theorem nextToken_length {t : Token} (h : (nextToken setup).from? l = some (.ok t, l')) :
    ∃ l₁ n l₂, Kept setup l₁ n l₂ ∧
      (nextStep setup (n == 0)).from? l₂ = some (.ok (.inr t), l') ∧
      t.stop ≤ t.start + (n + 1) * setup.settings.maxTokenLength := by
  obtain ⟨⟨fresh, l₂⟩, hrounds, hlast⟩ := Run.exists_last_round h
  obtain ⟨l₁, n, hkept, hfresh⟩ := exists_kept hrounds
  subst hfresh
  exact ⟨l₁, n, l₂, hkept, hlast, (nextStep_length hkept.index_le _ _ hlast).2 t rfl⟩

end Lexer

/-- A lexer grammar whose only token is put together from two matches:

    open : 'ab' -> more ;
    close : 'cd' ; -/
def Grammar.halves : Grammar where
  kind := .lexer
  name := "halves"
  rules :=
    [⟨"open", .seq [.literal "ab", .command .more], some 1, 0⟩, ⟨"close", .literal "cd", some 2, 0⟩]

/-- Settings under which a token may have two characters. -/
private def two : LexSetup := ⟨{ maxTokenLength := 2 }, .permissive, 50⟩

/-- Two matches of two characters each make a token of four, though a token may have two. -/
theorem Grammar.halves_nextToken_length : ∃ t l', (Lexer.nextToken two).from?
      (.new (.new (halves.compile.toOption.getD default)) (.ofText "abcd")) = some (.ok t, l') ∧
    (t.start, t.stop) = (0, 4) ∧ ∃ l₁ n l₂, Lexer.Kept two l₁ n l₂ ∧
      (Lexer.nextStep two (n == 0)).from? l₂ = some (.ok (.inr t), l') ∧
      t.stop ≤ t.start + (n + 1) * 2 := by
  have hends : ((Lexer.nextToken two).from?
      (.new (.new (halves.compile.toOption.getD default)) (.ofText "abcd"))).map
        (fun x => x.1.toOption.map fun t => (t.start, t.stop)) = some (some (0, 4)) := by
    decide +kernel
  obtain ⟨⟨r, l'⟩, hrun, hr⟩ := Option.map_eq_some_iff.mp hends
  cases r with
  | error e => cases hr
  | ok t => exact ⟨t, l', hrun, Option.some.inj hr, Lexer.nextToken_length hrun⟩

end AdaptiveLL
