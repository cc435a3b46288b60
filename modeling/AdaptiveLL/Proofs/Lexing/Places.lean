import AdaptiveLL.Lexing.Lexer
import AdaptiveLL.Proofs.Ensures
import AdaptiveLL.Proofs.Lexing.Matches

/-!
# Line and column

A scanner moves its cursor in the text and counts lines and columns beside it. The two agree: the
line and the column are those of the character at the cursor. The cursor advances over one character
at a time, goes back only to positions it has been at, and rests while threads are followed.
-/

namespace AdaptiveLL

/-! ## Positions of a text -/

/-- **The position after some characters:** their number, one line more than there are line breaks,
and the number of characters after the last of these. -/
def Position.after (cs : List Char) : Position where
  index := cs.length
  line := cs.count '\n' + 1
  column := (cs.reverse.takeWhile (· ≠ '\n')).length

/-- A character more leads from a position to the one past it. -/
theorem Position.after_concat (cs : List Char) (c : Char) :
    Position.after (cs ++ [c]) = (Position.after cs).past c.toNat := by
  have hneof : ((c.toNat : Nat) : Int) ≠ Symbol.eof := fun h => by
    have : (c.toNat : Int) = -1 := h
    omega
  have hbreak : ((c.toNat : Nat) : Int) = 10 ↔ c = '\n' := by
    constructor
    · intro h
      exact Char.toNat_inj.mp (Int.ofNat.inj h)
    · rintro rfl
      rfl
  unfold Position.past
  rw [if_neg hneof]
  by_cases hc : c = '\n'
  · rw [if_pos (hbreak.mpr hc)]
    subst hc
    simp [Position.after]
  · rw [if_neg fun h => hc (hbreak.mp h)]
    simp [Position.after, hc]

/-- The position is one of the text: its line and column are those of the character at its index. -/
def CharStream.Has (text : CharStream) (p : Position) : Prop :=
  p = .after (text.chars.toList.take p.index)

namespace CharStream.Has

variable {text : CharStream} {p : Position}

theorem start (text : CharStream) : text.Has ⟨0, 1, 0⟩ := rfl

theorem index_le (h : text.Has p) : p.index ≤ text.size := by
  have hlength := congrArg Position.index h
  simp only [Position.after, List.length_take, Array.length_toList] at hlength
  exact hlength ▸ Nat.min_le_right _ _

/-- The symbol at a position leads to a position. -/
theorem past (h : text.Has p) : text.Has (p.past (text.symbolAt p.index)) := by
  by_cases heof : text.symbolAt p.index = Symbol.eof
  · rw [Position.past, if_pos heof]
    exact h
  have hlt : p.index < text.chars.toList.length := CharStream.lt_size_of_symbolAt heof
  have hsymbol : text.symbolAt p.index = (text.chars.toList[p.index].toNat : Int) := by
    rw [CharStream.symbolAt, Array.getElem?_eq_getElem hlt]
    rfl
  have hpast : p.past (text.symbolAt p.index) =
      .after (text.chars.toList.take p.index ++ [text.chars.toList[p.index]]) := by
    rw [Position.after_concat, ← hsymbol]
    exact congrArg (Position.past · _) h
  rw [CharStream.Has, Position.index_past p heof, List.take_succ_eq_append_getElem hlt]
  exact hpast

end CharStream.Has

/-- **The scanner keeps track:** its cursor is at a position of the text. -/
structure Scanner.Tracks (s : Scanner) (text : CharStream) : Prop where
  cursor : s.At text s.position
  has : text.Has s.position

namespace Scanner.Tracks

variable {s s' : Scanner} {text : CharStream}

theorem of_at {p : Position} (hat : s.At text p) (hp : text.Has p) : s.Tracks text := by
  obtain rfl := hat.position_eq
  exact ⟨hat, hp⟩

theorem stays (h : s.Tracks text) (hstays : s.Stays s') : s'.Tracks text :=
  of_at (h.cursor.stays hstays) h.has

theorem moveTo (h : s.Tracks text) {p : Position} (hp : text.Has p) : (s.moveTo p).Tracks text :=
  of_at (h.cursor.moveTo hp.index_le) hp

theorem advance (h : s.Tracks text) : s.advance.Tracks text :=
  of_at h.cursor.advance h.has.past

end Scanner.Tracks

/-! ## Where the cursor rests -/

namespace Scan

variable {α β : Type} {c : Scan} {text : CharStream} {s : Scanner}

/-- A part of a match during which the cursor rests. -/
def Rests (m : Scanning α) : Prop := ∀ s : Scanner, m.Ensures s fun _ s' => s.Stays s'

namespace Rests

variable {m : Scanning α} {f : α → Scanning β}

theorem pure (a : α) : Rests (pure a) := fun s => .pure (.refl s)

theorem throw (e : LexError) : Rests (throw e : Scanning α) := fun s => .throw (.refl s)

theorem get : Rests (get : Scanning Scanner) := fun s => .of_eq rfl (.refl s)

theorem modify {g : Scanner → Scanner} (h : ∀ s : Scanner, s.Stays (g s)) :
    Rests (modify g : Scanning PUnit) :=
  fun s => .of_eq rfl (h s)

theorem bind (h : Rests m) (hf : ∀ a, Rests (f a)) : Rests (m >>= f) := fun s =>
  (h s).bind (fun a s' hstays => (hf a s').mono fun _ _ => hstays.trans) fun _ _ => id

theorem ite {p : Prop} [Decidable p] {m' : Scanning α} (h : Rests m) (h' : Rests m') :
    Rests (if p then m else m') := by
  split
  · exact h
  · exact h'

end Rests

theorem probe_rests (m : Probe α) : Rests (probe m) := by
  intro s r s' hrun
  rw [from?_probe] at hrun
  obtain ⟨x, -, heq⟩ := Option.map_eq_some_iff.mp hrun
  obtain ⟨-, rfl⟩ := Prod.mk.inj heq
  exact ⟨rfl, rfl, rfl⟩

theorem table_rests (c : Scan) : Rests c.table := .bind .get fun _ => .pure _

theorem setTable_rests (c : Scan) (t : Table) : Rests (c.setTable t) :=
  .modify fun _ => ⟨rfl, rfl, rfl⟩

theorem install_rests (c : Scan) (configs : ConfigSet) : Rests (c.install configs) := by
  unfold install
  apply Rests.ite
  · exact .pure _
  · refine .bind c.table_rests fun t => ?_
    generalize t.install (c.rowOf configs) = res
    obtain ⟨place, event, t'⟩ := res
    refine .bind (c.setTable_rests t') fun _ => ?_
    cases event with
    | none => exact .pure _
    | some e => exact .bind (.modify fun _ => ⟨rfl, rfl, rfl⟩) fun _ => .pure _

theorem startPlace_rests (c : Scan) : Rests c.startPlace := by
  unfold startPlace
  refine .bind c.table_rests fun t => ?_
  split
  · exact .pure _
  · refine .bind .get fun s => .bind (probe_rests _) fun configs => ?_
    refine .bind (c.install_rests _) fun place => .ite (.pure _) ?_
    exact .bind c.table_rests fun t => .bind (c.setTable_rests _) fun _ => .pure _

theorem target_rests (c : Scan) (p : Place) (v : Symbol) : Rests (c.target p v) := by
  unfold target
  refine .bind .get fun s => .bind c.table_rests fun t => .bind (probe_rests _) fun configs => ?_
  apply Rests.ite
  · apply Rests.ite
    · exact .bind c.table_rests fun t => .bind (c.setTable_rests _) fun _ => .pure _
    · exact .pure _
  · refine .bind (c.install_rests _) fun place => ?_
    apply Rests.ite
    · exact .bind c.table_rests fun t => .bind (c.setTable_rests _) fun _ => .pure _
    · exact .pure _

theorem next_rests (c : Scan) (p : Place) (v : Symbol) : Rests (c.next p v) := by
  unfold next
  refine .bind c.table_rests fun t => ?_
  split
  · exact .pure _
  · exact .pure _
  · exact c.target_rests p v

theorem checkLength_rests (c : Scan) : Rests c.checkLength :=
  .bind .get fun _ => .ite (.throw _) (.pure _)

/-! ## Matches -/

/-- The tokens remembered on the way of a match end at positions of the text. -/
def Marked (text : CharStream) (accepted : Option Accepted) : Prop :=
  ∀ a ∈ accepted, text.Has a.position

private theorem marked_none : Marked text none := by
  intro a ha
  cases ha

theorem marked_remember (h : s.Tracks text) {row : Row} {before : Option Accepted}
    (hbefore : Marked text before) : Marked text (remember s row before) := by
  unfold remember
  split
  · intro a ha
    obtain rfl := Option.some.inj ha
    exact h.has
  · exact hbefore

/-- **One character of a match:** the cursor stays behind the characters passed. -/
theorem step_tracks {point : Point} (h : s.Tracks text) (haccepted : Marked text point.accepted) :
    (c.step point).Ensures s fun r s' => s'.Tracks text ∧
      match r with
      | .ok (.inl point') => Marked text point'.accepted
      | .ok (.inr (accepted, _)) => Marked text accepted
      | .error _ => True := by
  unfold step
  refine .get_bind ?_
  refine (c.next_rests _ _ s).bind (fun next s₁ hstays => ?_) fun e s₁ hstays =>
    ⟨h.stays hstays, trivial⟩
  have h₁ := h.stays hstays
  cases next with
  | none => exact .pure ⟨h₁, haccepted⟩
  | some place =>
    -- What follows the character is the same wherever the cursor is behind it.
    have hrow : ∀ {s₂ : Scanner}, s₂.Tracks text → ((do
        let row := (← c.table).row place
        let accepted := remember (← get) row point.accepted
        if row.accepting ∧ s.stream.lookAhead 1 = Symbol.eof then
          pure (.inr (accepted, s.stream.lookAhead 1))
        else pure (.inl ⟨place, accepted⟩) :
          Scanning (Point ⊕ (Option Accepted × Symbol)))).Ensures s₂ fun r s' => s'.Tracks text ∧
        match r with
        | .ok (.inl point') => Marked text point'.accepted
        | .ok (.inr (accepted, _)) => Marked text accepted
        | .error _ => True := by
      intro s₂ h₂
      refine (c.table_rests s₂).bind (fun t s₃ hstays₃ => .get_bind ?_) fun e s₃ hstays₃ =>
        ⟨h₂.stays hstays₃, trivial⟩
      have h₃ := h₂.stays hstays₃
      dsimp only
      split
      · exact .pure ⟨h₃, marked_remember h₃ haccepted⟩
      · exact .pure ⟨h₃, marked_remember h₃ haccepted⟩
    dsimp only
    split
    · refine (c.checkLength_rests s₁).bind (fun _ s₂ hstays₂ => .modify_bind ?_) fun e s₂ hstays₂ =>
        ⟨h₁.stays hstays₂, trivial⟩
      exact hrow (h₁.stays hstays₂).advance
    · exact hrow h₁

theorem conclude_tracks {accepted : Option Accepted} (h : s.Tracks text)
    (haccepted : Marked text accepted) (v : Symbol) :
    (c.conclude accepted v).Ensures s fun _ s' => s'.Tracks text := by
  cases accepted with
  | some a => exact .modify_bind (.pure (h.moveTo (haccepted a rfl)))
  | none =>
    refine .get_bind ?_
    dsimp only
    split
    · exact .pure h
    · exact .throw h

theorem run_tracks (h : s.Tracks text) : c.run.Ensures s fun _ s' => s'.Tracks text := by
  unfold run
  refine (c.startPlace_rests s).bind (fun place s₁ hstays₁ => ?_) fun e s₁ hstays₁ =>
    h.stays hstays₁
  have h₁ := h.stays hstays₁
  refine .get_bind ((c.table_rests s₁).bind (fun t s₂ hstays₂ => ?_) fun e s₂ hstays₂ =>
    h₁.stays hstays₂)
  have h₂ := h₁.stays hstays₂
  have hloop : (Run.loop c.step c.fuel ⟨place, remember s₁ (t.row place) none⟩).Ensures s₂
      fun r s' => s'.Tracks text ∧ ∀ accepted v, r = .ok (accepted, v) → Marked text accepted := by
    refine .loop (fun point s' => s'.Tracks text ∧ Marked text point.accepted)
      (fun point s' ⟨h', hpoint⟩ => ?_) ⟨h₂, marked_remember h₁ marked_none⟩
    refine (step_tracks h' hpoint).mono fun r s'' ⟨h'', hr⟩ => ?_
    match r with
    | .ok (.inl point') => exact ⟨h'', hr⟩
    | .ok (.inr (accepted, v)) =>
      refine ⟨h'', fun accepted' v' heq => ?_⟩
      obtain ⟨rfl, rfl⟩ := Prod.mk.inj (Except.ok.inj heq)
      exact hr
    | .error e => exact ⟨h'', nofun⟩
  refine hloop.bind ?_ fun e s₃ ⟨h₃, _⟩ => h₃
  rintro ⟨accepted, v⟩ s₃ ⟨h₃, haccepted⟩
  exact conclude_tracks h₃ (haccepted accepted v rfl) v

end Scan

/-- **Every match leaves the cursor at a position of the text,** behind the token or, after an
error, where no rule could go on. -/
theorem Scanner.matchToken_tracks {s : Scanner} {text : CharStream} (h : s.Tracks text)
    (settings : LexerSettings) (host : Oracle) (fuel mode : Nat) :
    (matchToken settings host fuel mode).Ensures s fun _ s' => s'.Tracks text := by
  unfold matchToken
  refine .get_bind ?_
  split
  · exact .throw h
  · refine (Run.Ensures.outcome (Q := fun _ s' => s'.Tracks text) (Scan.run_tracks h)).bind
      (fun r s₁ h₁ => ?_) fun e s₁ h₁ => h₁
    cases r with
    | ok m => exact .pure h₁
    | error e => exact .modify_bind (.throw (h₁.stays ⟨rfl, rfl, rfl⟩))

end AdaptiveLL
