import AdaptiveLL.Lexing.Scan
import AdaptiveLL.Proofs.Lexing.Scanning
import AdaptiveLL.Proofs.Run

/-!
# Matches

A match goes from strands to strands, a symbol at a time, and remembers the last position at which a
token was complete. `Network.Steps` is one step on this way and `Network.Finds` the whole of it: no
cache, no stack and no command occurs there. On any cache that tells the truth a scanner goes this way,
unless a ceiling stops it, and a way that has an end is gone to the end.
-/

namespace AdaptiveLL

/-! ## The fuel of matches

More fuel changes no match that ends: fuel only decides whether a loop gives up.
-/

namespace Vantage

/-- The vantage with other fuel. -/
def fueled (v : Vantage) (fuel : Nat) : Vantage := { v with fuel := fuel }

variable {v : Vantage} {fuel : Nat}

private theorem followAll_fueled (v : Vantage) (fuel : Nat) (c : Config) (ts : List Transition) :
    (v.fueled fuel).followAll c ts = v.followAll c ts := by
  induction ts with
  | nil => rfl
  | cons t ts ih =>
    unfold followAll
    rw [ih]
    rfl

private theorem chaseStep_fueled (v : Vantage) (fuel : Nat) (s : Chase) :
    (v.fueled fuel).chaseStep s = v.chaseStep s := by
  unfold chaseStep expand
  simp only [followAll_fueled]
  rfl

private theorem closure_within (h : v.fuel ≤ fuel) (s : ConfigSet) (finished : Bool) (c : Config) :
    (v.closure s finished c).Within ((v.fueled fuel).closure s finished c) :=
  .loop (fun s => .of_eq (chaseStep_fueled v fuel s).symm) h _

theorem startSet_within (h : v.fuel ≤ fuel) (entry : StateId) :
    (v.startSet entry).Within ((v.fueled fuel).startSet entry) :=
  .foldlM (fun s _ => .bind (closure_within h s false _) fun _ => .refl _) _ _

private theorem consumeAll_within (h : v.fuel ≤ fuel) (symbol : Symbol) (routine : Option Routine)
    (finished : Bool) (c : Config) (s : ConfigSet) (ts : List Transition) :
    (v.consumeAll symbol routine finished c s ts).Within
      ((v.fueled fuel).consumeAll symbol routine finished c s ts) := by
  induction ts generalizing s with
  | nil => exact .refl _
  | cons t ts ih =>
    unfold consumeAll
    exact .ite (.bind (closure_within h s finished _) fun r => .ite (.refl _) (ih r.1)) (ih s)

theorem reachFrom_within (h : v.fuel ≤ fuel) (symbol : Symbol) (length done : Nat) (s : ConfigSet)
    (cs : List Config) :
    (v.reachFrom symbol length done s cs).Within
      ((v.fueled fuel).reachFrom symbol length done s cs) := by
  induction cs generalizing done s with
  | nil => exact .refl _
  | cons c cs ih =>
    unfold reachFrom
    exact .ite (ih done s) (.bind (consumeAll_within h symbol _ _ c s _) fun r => ih _ r.1)

end Vantage

namespace Scan

/-- The scan with other fuel. -/
def fueled (c : Scan) (fuel : Nat) : Scan := { c with fuel := fuel }

variable {c : Scan} {fuel : Nat}

private theorem fueled_settings : (c.fueled fuel).settings = c.settings := rfl

/-- Following threads is what the probe does with the scanner's graph of stacks. -/
theorem from?_probe {α : Type} (p : Probe α) (s : Scanner) :
    (probe p).from? s = (p.from? { graph := s.cache.graph, past := s.callbacks }).map fun x =>
      (x.1.mapError .exceeded, s.absorb x.2) := by
  change (p.from? { graph := s.cache.graph, past := s.callbacks }).bind _ = _
  cases p.from? { graph := s.cache.graph, past := s.callbacks } <;> rfl

private theorem probe_within {α : Type} {p p' : Probe α} (h : p.Within p') :
    (probe p).Within (probe p') := by
  intro s x hx
  rw [from?_probe] at hx ⊢
  obtain ⟨y, hy, rfl⟩ := Option.map_eq_some_iff.mp hx
  rw [h _ y hy]
  rfl

private theorem startPlace_within (h : c.fuel ≤ fuel) :
    c.startPlace.Within (c.fueled fuel).startPlace := by
  unfold startPlace
  refine .bind (.refl _) fun t => ?_
  rw [fueled_settings]
  cases (if c.settings.useCache then t.startRow else none) with
  | some n => exact .refl _
  | none =>
    refine .bind (.refl _) fun s => .bind (probe_within ?_) fun configs => .of_eq rfl
    exact Vantage.startSet_within (v := c.vantage s.stream.index false) h t.start

private theorem target_within (h : c.fuel ≤ fuel) (p : Place) (v : Symbol) :
    (c.target p v).Within ((c.fueled fuel).target p v) := by
  unfold target
  refine .bind (.refl _) fun s => .bind (.of_eq rfl) fun t => .bind (probe_within ?_)
    fun configs => .of_eq rfl
  exact Vantage.reachFrom_within (v := c.vantage (s.stream.index + 1) (v == Symbol.eof)) h v _ _ _ _

private theorem next_within (h : c.fuel ≤ fuel) (p : Place) (v : Symbol) :
    (c.next p v).Within ((c.fueled fuel).next p v) := by
  unfold next
  refine .bind (.of_eq rfl) fun t => ?_
  rw [fueled_settings]
  cases (if c.settings.useCache then t.cell? p v else none) with
  | some cell => cases cell <;> exact .refl _
  | none => exact target_within h p v

private theorem step_within (h : c.fuel ≤ fuel) (p : Point) :
    (c.step p).Within ((c.fueled fuel).step p) := by
  unfold step
  exact .bind (.refl _) fun s => .bind (next_within h _ _) fun next => .of_eq rfl

/-- **More fuel changes no match that ends.** -/
theorem run_within (h : c.fuel ≤ fuel) : c.run.Within (c.fueled fuel).run := by
  unfold run
  refine .bind (startPlace_within h) fun place => .bind (.refl _) fun s => .bind (.of_eq rfl)
    fun t => .bind (.loop (step_within h) h _) fun last => .of_eq rfl

end Scan

/-- **More fuel changes no match that ends.** -/
theorem Scanner.matchToken_within (settings : LexerSettings) (host : Oracle) {fuel fuel' : Nat}
    (h : fuel ≤ fuel') (mode : Nat) :
    (matchToken settings host fuel mode).Within (matchToken settings host fuel' mode) := by
  unfold matchToken
  refine .bind (.refl _) fun s => ?_
  dsimp only
  have hrun : Run.Within
      ({ net := s.cache.net, host, settings, mode, start := s.position, fuel } : Scan).run
      ({ net := s.cache.net, host, settings, mode, start := s.position, fuel := fuel' } : Scan).run :=
    Scan.run_within (c := { net := s.cache.net, host, settings, mode, start := s.position, fuel }) h
  refine .ite (.bind (.refl _) fun _ => .bind (.outcome hrun) fun last => ?_)
    (.bind (.outcome hrun) fun last => ?_)
  all_goals cases last <;> exact .refl _

/-! ## The way of a match -/

/-- A complete token: where it ends, and its type. -/
structure Completed where
  position : Position
  type : Int

/-- The position after a symbol. A line break begins a new line, and the end of the input is not
consumed. -/
def Position.past (p : Position) (v : Symbol) : Position :=
  if v = Symbol.eof then p
  else if v = 10 then ⟨p.index + 1, p.line + 1, 0⟩
  else ⟨p.index + 1, p.line, p.column + 1⟩

theorem Position.index_past (p : Position) {v : Symbol} (hv : v ≠ Symbol.eof) :
    (p.past v).index = p.index + 1 := by
  unfold past
  rw [if_neg hv]
  split <;> rfl

/-- Where a match stands: its strands, each at its first place, its position, and the last complete
token. -/
structure Standing where
  strands : List Strand
  position : Position
  completed : Option Completed

/-- How a match came to an end: where no strand could go on, and the last complete token. -/
structure Halt where
  position : Position
  completed : Option Completed

/-- Transitions that do not consume the symbol catch nothing. -/
theorem Vantage.Consumes.found_eq_nil {v : Vantage} {symbol : Symbol} {t : Strand} {finished : Bool}
    {steps : List Transition} {k : Catch}
    (hsteps : ∀ step ∈ steps, step.accepts symbol Symbol.firstChar Symbol.lastChar = false)
    (h : v.Consumes symbol t finished steps k) : k.found = [] := by
  induction h with
  | nil => rfl
  | skip _ _ ih => exact ih fun step hstep => hsteps step (List.mem_cons_of_mem _ hstep)
  | last hacc => cases (hsteps _ List.mem_cons_self).symm.trans hacc
  | next hacc => cases (hsteps _ List.mem_cons_self).symm.trans hacc

namespace Network

/-- The strands at a position. If they have completed a token, it is the last one. -/
def standing (net : Network) (fs : List Strand) (p : Position) (before : Option Completed) :
    Standing :=
  ⟨fs, p, ((net.answer? fs).map (Completed.mk p)).or before⟩

/-- **One step of a match.** It ends where no strand can go on, and with a token that the end of the
input completes. -/
inductive Steps (net : Network) (host : Host) (text : CharStream) :
    Standing → Standing ⊕ Halt → Prop where
  | stop {x : Standing}
      (hafter : net.After host (x.position.index + 1) (text.symbolAt x.position.index) x.strands []) :
      Steps net host text x (.inr ⟨x.position, x.completed⟩)
  | last {x : Standing} {fs : List Strand} {type : Int}
      (hafter : net.After host (x.position.index + 1) (text.symbolAt x.position.index) x.strands fs)
      (hanswer : net.answer? fs = some type) (heof : text.symbolAt x.position.index = Symbol.eof) :
      Steps net host text x (.inr ⟨x.position, some ⟨x.position, type⟩⟩)
  | on {x : Standing} {fs : List Strand}
      (hafter : net.After host (x.position.index + 1) (text.symbolAt x.position.index) x.strands fs)
      (hne : fs ≠ [])
      (hon : text.symbolAt x.position.index = Symbol.eof → net.answer? fs = none) :
      Steps net host text x
        (.inl (net.standing fs (x.position.past (text.symbolAt x.position.index)) x.completed))

/-- **A match that ends,** step by step. -/
inductive Scans (net : Network) (host : Host) (text : CharStream) : Standing → Halt → Prop where
  | halt {x : Standing} {y : Halt} (hstep : net.Steps host text x (.inr y)) :
      Scans net host text x y
  | step {x x' : Standing} {y : Halt} (hstep : net.Steps host text x (.inl x'))
      (hrest : Scans net host text x' y) : Scans net host text x y

/-- **The match from a position ends so.** -/
def Finds (net : Network) (host : Host) (text : CharStream) (entry : StateId) (start : Position)
    (y : Halt) : Prop :=
  ∃ fs, net.Begins host start.index entry fs ∧
    net.Scans host text (net.standing fs start none) y

/-- **The end of the input leads nowhere:** nothing consumes it. -/
def StopsAtEof (net : Network) : Prop :=
  ∀ q, ∀ t ∈ (net.state q).transitions,
    t.accepts Symbol.eof Symbol.firstChar Symbol.lastChar = false

variable {net : Network} {host : Host} {text : CharStream} {entry : StateId} {start : Position}
  {x : Standing} {y y' : Halt}

theorem StopsAtEof.after (h : net.StopsAtEof) {position : Nat} {fs fs' : List Strand}
    (hafter : net.After host position Symbol.eof fs fs') : fs' = [] := by
  obtain ⟨found, guarded, done, hreaches, rfl⟩ := hafter
  have hfound : found = [] := by
    generalize hv : net.outlook host position (Symbol.eof == Symbol.eof) = v at hreaches
    induction hreaches with
    | nil => rfl
    | drop _ _ _ ih => exact ih
    | take _ _ hconsumes ih =>
      rw [ih, hconsumes.found_eq_nil (hv ▸ h _)]
      rfl
  rw [hfound]
  rfl

/-- A symbol that is consumed nowhere leads to no strands. -/
private theorem exists_reaches {v : Vantage} {symbol : Symbol}
    (hdeaf : ∀ q, ∀ step ∈ (v.net.state q).transitions,
      step.accepts symbol Symbol.firstChar Symbol.lastChar = false) (fs : List Strand) :
    ∃ guarded done, v.Reaches symbol fs [] guarded done := by
  have hconsumes : ∀ (t : Strand) (finished : Bool) (steps : List Transition),
      (∀ step ∈ steps, step.accepts symbol Symbol.firstChar Symbol.lastChar = false) →
        v.Consumes symbol t finished steps ⟨[], false, false⟩ := by
    intro t finished steps hsteps
    induction steps with
    | nil => exact .nil
    | cons step steps ih =>
      obtain ⟨hstep, hsteps⟩ := List.forall_mem_cons.mp hsteps
      exact .skip hstep (ih hsteps)
  induction fs using List.reverseRecOn with
  | nil => exact ⟨_, _, .nil⟩
  | append_singleton fs t ih =>
    obtain ⟨guarded, done, hreaches⟩ := ih
    by_cases hdrop : t.alt = done ∧ t.nonGreedy = true
    · exact ⟨_, _, .drop hreaches hdrop.1 hdrop.2⟩
    · exact ⟨_, _, .take hreaches hdrop (hconsumes t _ _ (hdeaf t.state))⟩

theorem StopsAtEof.exists_after (h : net.StopsAtEof) (host : Host) (position : Nat)
    (fs : List Strand) : net.After host position Symbol.eof fs [] := by
  obtain ⟨guarded, done, hreaches⟩ :=
    exists_reaches (v := net.outlook host position (Symbol.eof == Symbol.eof)) h fs
  exact ⟨[], guarded, done, hreaches, rfl⟩

theorem Steps.unique {z z' : Standing ⊕ Halt} (h : net.Steps host text x z)
    (h' : net.Steps host text x z') : z = z' := by
  cases h with
  | stop hafter =>
    cases h' with
    | stop => rfl
    | last hafter' hanswer =>
      obtain rfl := hafter.unique hafter'
      cases hanswer
    | on hafter' hne => exact absurd (hafter.unique hafter').symm hne
  | last hafter hanswer heof =>
    cases h' with
    | stop hafter' =>
      obtain rfl := hafter.unique hafter'
      cases hanswer
    | last hafter' hanswer' =>
      obtain rfl := hafter.unique hafter'
      obtain rfl := Option.some.inj (hanswer.symm.trans hanswer')
      rfl
    | on hafter' _ hon =>
      obtain rfl := hafter.unique hafter'
      cases hanswer.symm.trans (hon heof)
  | on hafter hne hon =>
    cases h' with
    | stop hafter' => exact absurd (hafter.unique hafter') hne
    | last hafter' hanswer' heof =>
      obtain rfl := hafter.unique hafter'
      cases hanswer'.symm.trans (hon heof)
    | on hafter' =>
      obtain rfl := hafter.unique hafter'
      rfl

theorem Scans.unique (h : net.Scans host text x y) (h' : net.Scans host text x y') : y = y' := by
  induction h with
  | halt hstep =>
    cases h' with
    | halt hstep' => exact Sum.inr.inj (hstep.unique hstep')
    | step hstep' => cases hstep.unique hstep'
  | step hstep _ ih =>
    cases h' with
    | halt hstep' => cases hstep.unique hstep'
    | step hstep' hrest =>
      obtain rfl := Sum.inl.inj (hstep.unique hstep')
      exact ih hrest

/-- **How a match ends is determined** by the text, the position and the mode. -/
theorem Finds.unique (h : net.Finds host text entry start y)
    (h' : net.Finds host text entry start y') : y = y' := by
  obtain ⟨fs, hbegins, hscans⟩ := h
  obtain ⟨fs', hbegins', hscans'⟩ := h'
  obtain rfl := hbegins.unique hbegins'
  exact hscans.unique hscans'

end Network

/-- A match without the commands to be run. -/
def TokenMatch.silent (m : TokenMatch) : TokenMatch := { m with routine := none }

/-- **What a match comes to,** and where the cursor is then. Without a complete token, the end of the
input is recognized if there is nothing else, and any other character is an error. -/
def Halt.verdict (text : CharStream) (start : Position) (y : Halt) :
    Except LexError TokenMatch × Position :=
  match y.completed with
  | some m => (.ok ⟨m.type, start.index, m.position.index, none⟩, m.position)
  | none =>
    (if text.symbolAt y.position.index = Symbol.eof ∧ y.position.index = start.index then
      .ok ⟨Symbol.eof, start.index, start.index, none⟩
    else
      .error (.noViableAlternative start.index y.position.index start.line start.column
        (text.text start.index (y.position.index + 1))), y.position)

/-! ## Cursors -/

/-- The cursor of the scanner is at a position of the text. -/
structure Scanner.At (s : Scanner) (text : CharStream) (p : Position) : Prop where
  stream_eq : s.stream = text.seek p.index
  position_eq : s.position = p

namespace CharStream

/-- Only inside the text are there characters. -/
theorem lt_size_of_symbolAt {text : CharStream} {i : Nat} (h : text.symbolAt i ≠ Symbol.eof) :
    i < text.size := by
  by_contra hi
  refine h ?_
  unfold symbolAt
  rw [Array.getElem?_eq_none (Nat.not_lt.mp hi)]
  rfl

/-- The end of the input is behind the last character. -/
theorem symbolAt_eq_eof_iff {text : CharStream} {p : Nat} :
    text.symbolAt p = Symbol.eof ↔ text.size ≤ p := by
  constructor
  · exact fun heof => Nat.le_of_not_lt fun hlt => by
      unfold symbolAt at heof
      rw [Array.getElem?_eq_getElem hlt] at heof
      simp [Symbol.eof] at heof
  · exact fun hle => by_contra fun hne => absurd (lt_size_of_symbolAt hne) (Nat.not_lt.mpr hle)

theorem seek_index (text : CharStream) : text.seek text.index = text := by
  obtain ⟨chars, name, index, inside⟩ := text
  simp [seek, Nat.min_eq_left inside]

end CharStream

namespace Scanner.At

variable {s s' : Scanner} {text : CharStream} {p : Position}

theorem here (s : Scanner) : s.At s.stream s.position := ⟨(CharStream.seek_index _).symm, rfl⟩

theorem index_eq (h : s.At text p) : s.stream.index = p.index := congrArg Position.index h.position_eq

theorem index_le (h : s.At text p) : p.index ≤ text.size := by
  rw [← h.index_eq, h.stream_eq]
  exact Nat.min_le_right _ _

theorem stays (h : s.At text p) (hstays : s.Stays s') : s'.At text p :=
  ⟨hstays.stream_eq.trans h.stream_eq, hstays.position_eq.trans h.position_eq⟩

theorem lookAhead_eq (h : s.At text p) : s.stream.lookAhead 1 = text.symbolAt p.index := by
  change s.stream.symbolAt (s.stream.index + 0) = _
  rw [h.index_eq, h.stream_eq]
  rfl

theorem moveTo (h : s.At text p) {q : Position} (hq : q.index ≤ text.size) :
    (s.moveTo q).At text q := by
  refine ⟨?_, ?_⟩
  · change s.stream.seek q.index = _
    rw [h.stream_eq]
    rfl
  · obtain ⟨index, line, column⟩ := q
    have hindex : min index s.stream.chars.size = index := by
      rw [h.stream_eq]
      exact Nat.min_eq_left hq
    simp [Scanner.position, Scanner.moveTo, CharStream.seek, hindex]

theorem advance (h : s.At text p) : s.advance.At text (p.past (text.symbolAt p.index)) := by
  unfold Scanner.advance Position.past
  dsimp only
  rw [h.lookAhead_eq]
  split
  · exact h
  · next hv =>
    have hlt := CharStream.lt_size_of_symbolAt hv
    have hstream : s.stream.consume = text.seek (p.index + 1) := by
      rw [CharStream.consume, h.index_eq, h.stream_eq]
      rfl
    have hindex : s.stream.consume.index = p.index + 1 := by
      rw [hstream]
      exact Nat.min_eq_left hlt
    obtain rfl := h.position_eq
    split
    · exact ⟨hstream, congrArg (Position.mk · (s.line + 1) 0) hindex⟩
    · exact ⟨hstream, congrArg (Position.mk · s.line (s.column + 1)) hindex⟩

end Scanner.At

theorem Scanner.cache_advance (s : Scanner) : s.advance.cache = s.cache := by
  unfold advance
  dsimp only
  split
  · rfl
  · split <;> rfl

/-! ## Steps of a scanner -/

/-- The token that was remembered. -/
def Scan.Accepted.completed (a : Scan.Accepted) : Completed := ⟨a.position, a.type⟩

namespace Scan

variable {net : Network} {nodes : Nat} {text : CharStream} {entry : StateId} {c : Scan} {s : Scanner}
  {point : Point} {x : Standing} {y : Halt}

/-- **The scanner stands where the match stands.** -/
structure Stands (net : Network) (nodes : Nat) (text : CharStream) (mode : Nat) (x : Standing)
    (point : Point) (s : Scanner) : Prop where
  lexes : s.cache.Lexes net nodes
  cursor : s.At text x.position
  shows : s.cache.Shows net mode point.place x.strands
  completed_eq : point.accepted.map Accepted.completed = x.completed
  inside : ∀ m ∈ x.completed, m.position.index ≤ text.size

/-- **The scanner stopped where the match came to an end.** -/
structure Stops (text : CharStream) (y : Halt) (accepted : Option Accepted) (v : Symbol)
    (s : Scanner) : Prop where
  cursor : s.At text y.position
  completed_eq : accepted.map Accepted.completed = y.completed
  symbol_eq : v = text.symbolAt y.position.index
  inside : ∀ m ∈ y.completed, m.position.index ≤ text.size

/-- What is remembered after coming to a row. -/
private theorem completed_remember {row : Row} {fs : List Strand} {g : StackGraph}
    (h : row.Tells net fs g) (before : Option Accepted) :
    (remember s row before).map Accepted.completed =
      ((net.answer? fs).map (Completed.mk s.position)).or (before.map Accepted.completed) := by
  rw [← h.answer_eq]
  unfold remember
  cases row.accepting <;> rfl

/-- Coming to a row, a scanner stands where the match stands. -/
theorem Stands.of_shows {mode : Nat} {fs : List Strand} {p : Position} {place : Place}
    {before : Option Accepted} {completed : Option Completed} (hc : s.cache.Lexes net nodes)
    (hcursor : s.At text p) (hshows : s.cache.Shows net mode place fs)
    (hbefore : before.map Accepted.completed = completed)
    (hinside : ∀ m ∈ completed, m.position.index ≤ text.size) :
    Stands net nodes text mode (net.standing fs p completed)
      ⟨place, remember s ((s.cache.table mode).row place) before⟩ s := by
  refine ⟨hc, hcursor, hshows, ?_, ?_⟩
  · rw [Network.standing, ← hbefore, ← hcursor.position_eq]
    exact completed_remember hshows.tells before
  · intro m hm
    rcases Option.or_eq_some_iff.mp hm with hanswer | ⟨-, hold⟩
    · obtain ⟨type, -, rfl⟩ := Option.map_eq_some_iff.mp hanswer
      exact hcursor.index_le
    · exact hinside m hold

/-- A character that makes the token too long ends the match with the ceiling. -/
private theorem checkLength_bind {β : Type} {f : Unit → Scanning β}
    {Q : Except LexError β → Scanner → Prop} (hceiling : ∀ e, Q (.error (.exceeded e)) s)
    (h : (f ⟨⟩).Yields s Q) : (c.checkLength >>= f).Yields s Q := by
  unfold checkLength
  rw [bind_assoc]
  refine .get_bind ?_
  dsimp only
  split
  · exact .of_eq rfl (hceiling _)
  · rw [pure_bind]
    exact h

/-- **One character of a match:** the scanner takes the step that the match takes. -/
theorem step_yields (hF : c.Fits net nodes entry) (h : Stands net nodes text c.mode x point s) :
    (c.step point).Yields s fun r s' => s'.cache.Lexes net nodes ∧
      match r with
      | .ok (.inl point') =>
        ∃ x', net.Steps c.host.now text x (.inl x') ∧ Stands net nodes text c.mode x' point' s'
      | .ok (.inr (accepted, v)) =>
        ∃ y, net.Steps c.host.now text x (.inr y) ∧ Stops text y accepted v s'
      | .error e => ∃ e', e = .exceeded e' := by
  unfold step
  refine .get_bind ?_
  rw [h.cursor.lookAhead_eq]
  have hnext := next_acts hF h.lexes h.shows (text.symbolAt x.position.index)
  rw [h.cursor.index_eq] at hnext
  refine Run.Yields.bind hnext ?_ ?_
  · rintro next s₁ ⟨hc₁, hfollows, hstays, hleads⟩
    obtain ⟨_, hok, fs, hafter, hplace⟩ := hleads.resolve_left nofun
    obtain rfl := Except.ok.inj hok
    have hcursor := h.cursor.stays hstays
    -- No strand is left and the match stops, or it goes on with those that are.
    cases next with
    | none =>
      obtain rfl : fs = [] := hplace
      exact .pure ⟨hc₁, _, .stop hafter, hcursor, h.completed_eq, rfl, h.inside⟩
    | some place =>
      obtain ⟨hne, hshows⟩ := hplace
      dsimp only
      split
      · next hv =>
        refine checkLength_bind (fun e => ⟨hc₁, e, rfl⟩) ?_
        refine .modify_bind (table_bind_yields (.get_bind ?_))
        rw [Scanner.cache_advance, if_neg fun hand => hv hand.2]
        -- Moving the cursor touches neither the cache nor what was accepted.
        have hcache : s₁.advance.cache = s₁.cache := s₁.cache_advance
        have hstands := Stands.of_shows (hcache.symm ▸ hc₁) hcursor.advance (hcache.symm ▸ hshows)
          h.completed_eq h.inside
        rw [hcache] at hstands
        exact .pure ⟨hcache.symm ▸ hc₁, _, .on hafter hne fun heof => absurd heof hv, hstands⟩
      · next hv =>
        have hv : text.symbolAt x.position.index = Symbol.eof := not_not.mp hv
        -- At the end of the input the cursor stays where it is.
        have hpast : x.position.past (text.symbolAt x.position.index) = x.position := if_pos hv
        refine table_bind_yields (.get_bind ?_)
        have hanswer := hshows.tells.answer_eq
        split
        · next haccepting =>
          rw [if_pos haccepting.1] at hanswer
          refine .pure ⟨hc₁, _, .last hafter hanswer.symm hv, hcursor, ?_, rfl, ?_⟩
          · rw [remember, if_pos haccepting.1, ← hcursor.position_eq]
            rfl
          · intro m hm
            obtain rfl := Option.some.inj hm
            exact hcursor.index_le
        · next haccepting =>
          rw [if_neg fun hacc => haccepting ⟨hacc, hv⟩] at hanswer
          refine .pure ⟨hc₁, _, .on hafter hne fun _ => hanswer.symm, ?_⟩
          rw [hpast]
          exact .of_shows hc₁ hcursor hshows h.completed_eq h.inside
  · rintro e s₁ ⟨hc₁, -, -, ⟨e', he⟩ | ⟨_, hok, _⟩⟩
    · exact ⟨hc₁, e', Except.error.inj he⟩
    · cases hok

/-- **A scanner that comes to an end** went the way of the match. -/
private theorem loop_scans (hF : c.Fits net nodes entry) {fuel : Nat} {s' : Scanner}
    {r : Except LexError (Option Accepted × Symbol)}
    (h : Stands net nodes text c.mode x point s)
    (hrun : (Run.loop c.step fuel point).from? s = some (r, s')) :
    s'.cache.Lexes net nodes ∧
      match r with
      | .ok (accepted, v) =>
        ∃ y, net.Scans c.host.now text x y ∧ Stops text y accepted v s'
      | .error e => ∃ e', e = .exceeded e' := by
  induction fuel generalizing x point s with
  | zero => cases hrun
  | succ fuel ih =>
    rw [Run.from?_loop_succ] at hrun
    obtain ⟨⟨r₁, s₁⟩, hstep, hrest⟩ := Option.bind_eq_some_iff.mp hrun
    obtain ⟨hc₁, hends⟩ := (step_yields hF h).apply hstep
    match r₁ with
    | .error e =>
      obtain ⟨rfl, rfl⟩ : .error e = r ∧ s₁ = s' := by simpa using hrest
      exact ⟨hc₁, hends⟩
    | .ok (.inr (accepted, v)) =>
      obtain ⟨rfl, rfl⟩ : .ok (accepted, v) = r ∧ s₁ = s' := by simpa using hrest
      obtain ⟨y, hsteps, hstops⟩ := hends
      exact ⟨hc₁, y, .halt hsteps, hstops⟩
    | .ok (.inl point₁) =>
      obtain ⟨x₁, hsteps, hstands⟩ := hends
      obtain ⟨hc', hends'⟩ := ih hstands hrest
      refine ⟨hc', ?_⟩
      match r with
      | .error _ => exact hends'
      | .ok (accepted, v) =>
        obtain ⟨y, hscans, hstops⟩ := hends'
        exact ⟨y, .step hsteps hscans, hstops⟩

/-- **A match that has an end** is made in so many rounds. -/
private theorem exists_rounds {host : Host} (hscans : net.Scans host text x y) :
    ∃ rounds, ∀ (nodes : Nat) (entry : StateId) (c : Scan) (point : Point) (s : Scanner),
      c.host.now = host → c.Fits net nodes entry → Stands net nodes text c.mode x point s →
      ∀ fuel, rounds ≤ fuel → (Run.loop c.step fuel point).Yields s fun _ _ => True := by
  induction hscans with
  | @halt x y hsteps =>
    refine ⟨1, fun nodes entry c point s hhost hF h fuel hfuel => ?_⟩
    obtain ⟨fuel, rfl⟩ := Nat.exists_eq_add_of_le' hfuel
    obtain ⟨r, s', hstep, -, hends⟩ := step_yields hF h
    match r with
    | .error e => exact ⟨.error e, s', by rw [Run.from?_loop_succ, hstep]; rfl, trivial⟩
    | .ok (.inr answer) => exact ⟨.ok answer, s', by rw [Run.from?_loop_succ, hstep]; rfl, trivial⟩
    | .ok (.inl _) =>
      obtain ⟨x', hsteps', -⟩ := hends
      cases hsteps.unique (hhost ▸ hsteps')
  | @step x x' y hsteps hrest ih =>
    obtain ⟨rounds, ih⟩ := ih
    refine ⟨rounds + 1, fun nodes entry c point s hhost hF h fuel hfuel => ?_⟩
    obtain ⟨fuel, rfl⟩ := Nat.exists_eq_add_of_le' (Nat.one_le_of_lt hfuel)
    obtain ⟨r, s', hstep, -, hends⟩ := step_yields hF h
    match r with
    | .error e => exact ⟨.error e, s', by rw [Run.from?_loop_succ, hstep]; rfl, trivial⟩
    | .ok (.inr answer) => exact ⟨.ok answer, s', by rw [Run.from?_loop_succ, hstep]; rfl, trivial⟩
    | .ok (.inl point') =>
      obtain ⟨x₁, hsteps', hstands⟩ := hends
      obtain rfl := Sum.inl.inj (hsteps.unique (hhost ▸ hsteps'))
      obtain ⟨r₂, s₂, hloop, -⟩ := ih nodes entry c point' s' hhost hF hstands fuel (by omega)
      exact ⟨r₂, s₂, by rw [Run.from?_loop_succ, hstep]; exact hloop, trivial⟩

/-- Where the end of the input leads nowhere, no more rounds are made than there are characters. -/
private theorem loop_returns (hF : c.Fits net nodes entry) (hstops : net.StopsAtEof)
    (h : Stands net nodes text c.mode x point s) {fuel : Nat} (hfuel : text.size < fuel) :
    (Run.loop c.step fuel point).Yields s fun _ _ => True := by
  refine .loop (fun point s => ∃ x, Stands net nodes text c.mode x point s)
    (fun _ s => text.size - s.stream.index) ?_ ⟨x, h⟩ (by omega)
  rintro point s ⟨x, h⟩
  refine (step_yields hF h).mono ?_
  rintro r s' ⟨-, hends⟩
  match r with
  | .error _ => trivial
  | .ok (.inr _) => trivial
  | .ok (.inl point') =>
    obtain ⟨x', hsteps, hstands⟩ := hends
    refine ⟨⟨x', hstands⟩, ?_⟩
    cases hsteps with
    | on hafter hne =>
      have hv : text.symbolAt x.position.index ≠ Symbol.eof := by
        intro hv
        rw [hv] at hafter
        exact hne (hstops.after hafter)
      have hpast := x.position.index_past hv
      have hlt := CharStream.lt_size_of_symbolAt hv
      have hindex' : s'.stream.index = x.position.index + 1 := hstands.cursor.index_eq.trans hpast
      rw [h.cursor.index_eq, hindex']
      omega

/-- **Returning to the last complete token** gives the verdict. -/
private theorem conclude_yields {accepted : Option Accepted} {v : Symbol}
    (h : Stops text y accepted v s) :
    (c.conclude accepted v).Yields s fun r s' => s'.cache = s.cache ∧
      (r.map TokenMatch.silent, s'.position) = y.verdict text c.start := by
  unfold conclude Halt.verdict
  rw [← h.completed_eq]
  cases accepted with
  | some a =>
    have hinside : a.position.index ≤ text.size :=
      h.inside _ (by rw [← h.completed_eq]; rfl)
    exact .modify_bind (.pure ⟨rfl, congrArg _ (h.cursor.moveTo hinside).position_eq⟩)
  | none =>
    refine .get_bind ?_
    dsimp only [Option.map_none]
    rw [h.cursor.index_eq, h.symbol_eq, h.cursor.stream_eq]
    split
    · exact .pure ⟨rfl, congrArg _ h.cursor.position_eq⟩
    · exact .throw ⟨rfl, congrArg _ h.cursor.position_eq⟩

private theorem conclude_ends (accepted : Option Accepted) (v : Symbol) :
    (c.conclude accepted v).Yields s fun _ _ => True := by
  unfold conclude
  cases accepted with
  | some a => exact .modify_bind (.pure trivial)
  | none =>
    refine .get_bind ?_
    dsimp only
    split
    · exact .pure trivial
    · exact .throw trivial

/-- **The beginning of a match:** a ceiling is met, or the scanner stands where the match begins. -/
private theorem run_cases (hF : c.Fits net nodes entry) (hc : s.cache.Lexes net nodes)
    (hstart : c.start = s.position) :
    (∃ e s', c.run.from? s = some (.error (.exceeded e), s') ∧ s'.cache.Lexes net nodes) ∨
      ∃ fs point s₁, net.Begins c.host.now c.start.index entry fs ∧
        Stands net nodes s.stream c.mode (net.standing fs c.start none) point s₁ ∧
        c.run.from? s =
          (Run.loop c.step c.fuel point >>= fun last => c.conclude last.1 last.2).from? s₁ := by
  obtain ⟨r, s₁, hplace, hc₁, -, hstays, hends⟩ := startPlace_acts hF hc
  unfold run
  rw [Run.from?_bind, hplace]
  rcases hends with ⟨e, rfl⟩ | ⟨place, rfl, fs, hbegins, hshows⟩
  · exact .inl ⟨e, s₁, rfl, hc₁⟩
  · have hcursor := (Scanner.At.here s).stays hstays
    refine .inr ⟨fs, _, s₁, hstart ▸ hbegins, ?_, rfl⟩
    exact .of_shows hc₁ (hstart ▸ hcursor) hshows rfl nofun

/-- **A match that comes to an end** gives the verdict, unless a ceiling was met. -/
private theorem run_finds (hF : c.Fits net nodes entry) (hc : s.cache.Lexes net nodes)
    (hstart : c.start = s.position) {r : Except LexError TokenMatch} {s' : Scanner}
    (hrun : c.run.from? s = some (r, s')) :
    s'.cache.Lexes net nodes ∧ ((∃ e, r = .error (.exceeded e)) ∨
      ∃ y, net.Finds c.host.now s.stream entry c.start y ∧
        (r.map TokenMatch.silent, s'.position) = y.verdict s.stream c.start) := by
  rcases run_cases hF hc hstart with ⟨e, s₁, hrun', hc₁⟩ | ⟨fs, point, s₁, hbegins, hstands, heq⟩
  · obtain ⟨rfl, rfl⟩ : .error (.exceeded e) = r ∧ s₁ = s' := by simpa using hrun'.symm.trans hrun
    exact ⟨hc₁, .inl ⟨e, rfl⟩⟩
  · rw [heq, Run.from?_bind] at hrun
    obtain ⟨⟨r₂, s₂⟩, hloop, hrest⟩ := Option.bind_eq_some_iff.mp hrun
    obtain ⟨hc₂, hends⟩ := loop_scans hF hstands hloop
    match r₂ with
    | .error _ =>
      obtain ⟨e, rfl⟩ := hends
      obtain ⟨rfl, rfl⟩ : .error (.exceeded e) = r ∧ s₂ = s' := by simpa using hrest
      exact ⟨hc₂, .inl ⟨e, rfl⟩⟩
    | .ok (accepted, v) =>
      obtain ⟨y, hscans, hstops⟩ := hends
      obtain ⟨hcache, hverdict⟩ := (conclude_yields hstops).apply hrest
      exact ⟨hcache ▸ hc₂, .inr ⟨y, ⟨fs, hbegins, hscans⟩, hverdict⟩⟩

end Scan

namespace Scanner

variable {net : Network} {nodes : Nat} {s : Scanner} {settings : LexerSettings} {host : Host}
  {mode : Nat} {entry : StateId}

/-- The match that is made from a scanner. -/
def scan (s : Scanner) (settings : LexerSettings) (host : Oracle) (fuel mode : Nat) : Scan :=
  { net := s.cache.net, host, settings, mode, start := s.position, fuel }

/-- A match in a mode that there is. The event of a failure is all that is added. -/
theorem matchToken_from {host : Oracle} (hmode : mode < s.cache.tables.size) (fuel : Nat) :
    (matchToken settings host fuel mode).from? s =
      ((s.scan settings host fuel mode).run.from? s).map fun (r, s') =>
        match r with
        | .ok m => (.ok m, s')
        | .error e => (.error e, s'.note ((s.scan settings host fuel mode).failureEvent e)) := by
  unfold matchToken
  rw [Run.from?_bind, Run.from?_get]
  dsimp only [Option.bind_some]
  rw [if_neg (Nat.not_le.mpr hmode), Run.from?_bind, Run.from?_outcome]
  unfold scan
  cases Run.from? (Scan.run _) s with
  | none => rfl
  | some x =>
    obtain ⟨r, s'⟩ := x
    cases r <;> rfl

/-- A mode that there is none of is refused, and the scanner left as it is. -/
theorem matchToken_unknown {host : Oracle} (hmode : s.cache.tables.size ≤ mode) (fuel : Nat) :
    (matchToken settings host fuel mode).from? s = some (.error (.unknownMode mode), s) := by
  unfold matchToken
  rw [Run.from?_bind, Run.from?_get]
  dsimp only [Option.bind_some]
  rw [if_pos hmode]
  rfl

/-- **What becomes of a match** on a cache that tells the truth: a ceiling is met, there is no such
mode, or the match comes to its verdict. -/
inductive Ends (net : Network) (host : Host) (mode : Nat) (s : Scanner) :
    Except LexError TokenMatch → Position → Prop where
  | exceeded {e : Exceeded} {p : Position} : Ends net host mode s (.error (.exceeded e)) p
  | unknown (hmode : net.modeStarts[mode]? = none) :
      Ends net host mode s (.error (.unknownMode mode)) s.position
  | found {entry : StateId} {y : Halt} {r : Except LexError TokenMatch} {p : Position}
      (hentry : net.modeStarts[mode]? = some entry)
      (hfinds : net.Finds host s.stream entry s.position y)
      (hverdict : (r.map TokenMatch.silent, p) = y.verdict s.stream s.position) :
      Ends net host mode s r p

/-- A mode is one of the tables of the cache, or there is no such mode. -/
theorem mode_cases (hc : s.cache.Lexes net nodes) (mode : Nat) :
    (net.modeStarts[mode]? = none ∧ s.cache.tables.size ≤ mode) ∨
      ∃ entry, net.modeStarts[mode]? = some entry ∧ mode < s.cache.tables.size := by
  have hsize : s.cache.tables.size = net.modeStarts.length := hc.size_eq
  rw [hsize]
  cases hentry : net.modeStarts[mode]? with
  | none => exact .inl ⟨rfl, List.getElem?_eq_none_iff.mp hentry⟩
  | some entry => exact .inr ⟨entry, rfl, (List.getElem?_eq_some_iff.mp hentry).1⟩

variable (hnet : net.Consistent) (hword : net.states.size ≤ emptyReturn)

include hnet hword in
/-- A match can be made with enough fuel. -/
theorem fits_scan (hc : s.cache.Lexes net nodes) {fuel : Nat}
    (hfuel : chaseBound net nodes ≤ fuel) (hentry : net.modeStarts[mode]? = some entry) :
    (s.scan settings host fuel mode).Fits net nodes entry :=
  ⟨hc.net_eq, hnet, hword, hfuel, by rw [← hentry]; exact List.getElem?_toArray,
    Oracle.steady_coe host⟩

include hnet hword in
/-- **A match that comes to an end,** with whatever fuel, leaves a cache behind that tells the truth,
and it comes to its verdict unless a ceiling was met. -/
theorem matchToken_ends (hc : s.cache.Lexes net nodes) {fuel : Nat}
    {r : Except LexError TokenMatch} {s' : Scanner}
    (hrun : (matchToken settings host fuel mode).from? s = some (r, s')) :
    s'.cache.Lexes net nodes ∧ Ends net host mode s r s'.position := by
  -- More fuel makes no difference to a match that ends.
  have hrun := matchToken_within settings host (Nat.le_max_left fuel (chaseBound net nodes)) mode s _
    hrun
  rcases mode_cases hc mode with ⟨hnone, hmode⟩ | ⟨entry, hentry, hmode⟩
  · obtain ⟨rfl, rfl⟩ : .error (.unknownMode mode) = r ∧ s = s' := by
      simpa using (matchToken_unknown hmode _).symm.trans hrun
    exact ⟨hc, .unknown hnone⟩
  · rw [matchToken_from hmode] at hrun
    obtain ⟨⟨r₁, s₁⟩, hscan, hlast⟩ := Option.map_eq_some_iff.mp hrun
    have hF : (s.scan settings host (max fuel (chaseBound net nodes)) mode).Fits net nodes entry :=
      fits_scan hnet hword hc (Nat.le_max_right _ _) hentry
    obtain ⟨hc₁, hends⟩ := Scan.run_finds hF hc rfl hscan
    have hr : r = r₁ := by
      cases r₁ <;> exact (congrArg Prod.fst hlast).symm
    have hs : s'.cache = s₁.cache ∧ s'.position = s₁.position := by
      obtain rfl := congrArg Prod.snd hlast
      cases r₁ <;> exact ⟨rfl, rfl⟩
    subst hr
    rw [hs.1, hs.2]
    rcases hends with ⟨e, rfl⟩ | ⟨y, hfinds, hverdict⟩
    · exact ⟨hc₁, .exceeded⟩
    · exact ⟨hc₁, .found hentry hfinds hverdict⟩

include hnet hword in
/-- A match comes to an end if its loop does. -/
private theorem matchToken_of_loop (hentry : net.modeStarts[mode]? = some entry)
    (hc : s.cache.Lexes net nodes) {fuel : Nat} (hfuel : chaseBound net nodes ≤ fuel)
    (hloop : ∀ fs point s₁, net.Begins host s.position.index entry fs →
      Scan.Stands net nodes s.stream mode (net.standing fs s.position none) point s₁ →
        (Run.loop (s.scan settings host fuel mode).step fuel point).Yields s₁ fun _ _ => True) :
    (matchToken settings host fuel mode).Yields s fun r s' =>
      s'.cache.Lexes net nodes ∧ Ends net host mode s r s'.position := by
  have hF : (s.scan settings host fuel mode).Fits net nodes entry :=
    fits_scan hnet hword hc hfuel hentry
  have hmode : mode < s.cache.tables.size := by
    rw [hc.size_eq]
    exact (List.getElem?_eq_some_iff.mp hentry).1
  have hends : (s.scan settings host fuel mode).run.Yields s fun _ _ => True := by
    rcases Scan.run_cases hF hc rfl with ⟨e, s₁, hrun, -⟩ | ⟨fs, point, s₁, hbegins, hstands, heq⟩
    · exact ⟨_, _, hrun, trivial⟩
    · obtain ⟨r, s₂, hlast, -⟩ := Run.Yields.bind (hloop fs point s₁ hbegins hstands)
        (R := fun _ _ => True)
        (f := fun last => (s.scan settings host fuel mode).conclude last.1 last.2)
        (fun last s₂ _ => Scan.conclude_ends _ _) fun _ _ _ => trivial
      exact ⟨r, s₂, heq.trans hlast, trivial⟩
  obtain ⟨r, s', hrun, -⟩ := hends
  have hmatch : (matchToken settings host fuel mode).from? s = _ := matchToken_from hmode fuel
  rw [hrun, Option.map_some] at hmatch
  exact ⟨_, _, hmatch, matchToken_ends hnet hword hc hmatch⟩

include hnet hword in
/-- **A match that has an end** comes to it on every cache that tells the truth, with enough fuel. -/
theorem exists_enough (hentry : net.modeStarts[mode]? = some entry) {y : Halt}
    (hfinds : net.Finds host s.stream entry s.position y) (hc : s.cache.Lexes net nodes) :
    ∃ enough, ∀ fuel, enough ≤ fuel → ∀ settings,
      (matchToken settings host fuel mode).Yields s fun r s' =>
        s'.cache.Lexes net nodes ∧ Ends net host mode s r s'.position := by
  obtain ⟨fs, hbegins, hscans⟩ := hfinds
  obtain ⟨rounds, hrounds⟩ := Scan.exists_rounds hscans
  refine ⟨rounds + chaseBound net nodes, fun fuel hfuel settings => ?_⟩
  have hF : (s.scan settings host fuel mode).Fits net nodes entry :=
    fits_scan hnet hword hc (by omega) hentry
  refine matchToken_of_loop hnet hword hentry hc (by omega) fun fs' point s₁ hbegins' hstands => ?_
  obtain rfl := hbegins'.unique hbegins
  exact hrounds nodes entry _ point s₁ rfl hF hstands fuel (by omega)

include hnet hword in
/-- **Every match has an end** in a network where the end of the input leads nowhere: it consumes a
character in every step. -/
theorem matchToken_returns (hstops : net.StopsAtEof) (hc : s.cache.Lexes net nodes) {fuel : Nat}
    (hfuel : chaseBound net nodes + s.stream.size < fuel) :
    (matchToken settings host fuel mode).Yields s fun r s' =>
      s'.cache.Lexes net nodes ∧ Ends net host mode s r s'.position := by
  rcases mode_cases hc mode with ⟨hnone, hmode⟩ | ⟨entry, hentry, hmode⟩
  · exact ⟨_, _, matchToken_unknown hmode fuel, hc, .unknown hnone⟩
  · have hF : (s.scan settings host fuel mode).Fits net nodes entry :=
      fits_scan hnet hword hc (by omega) hentry
    refine matchToken_of_loop hnet hword hentry hc (by omega) fun fs point s₁ _ hstands => ?_
    exact Scan.loop_returns hF hstops hstands (by omega)

end Scanner

end AdaptiveLL
