import AdaptiveLL.Proofs.Lexing.Matches
import AdaptiveLL.Proofs.Lookups.Caches
import AdaptiveLL.Proofs.Lookups.Chases

/-!
# Lookups of matches

A match looks up the table of its mode, the state at which the mode begins, the states of the
threads that make up a row, and what its closures look up. On a cache in range it finds all of this,
and the cache stays in range.
-/

namespace AdaptiveLL

/-- A strict part of a match. -/
abbrev StrictScanning := Run (Stop LexError) Scanner

/-- What matches keep. -/
abbrev Scanner.scope (net : Network) : Scope Scanner := Cache.scope net Scanner.cache

namespace Scan

open Run (Untouched)

variable {α : Type}

/-! ## Strict matches -/

def strictProbe (m : StrictProbe α) : StrictScanning α :=
  Cache.strictProbe Scanner.cache Scanner.callbacks Scanner.absorb .exceeded m

/-- The table of the mode, which has to be there. -/
def strictTable (c : Scan) : StrictScanning Table := do
  Run.lookup ((← get).cache.table? c.mode)

/-- Puts the row of a set into the table. The states of all threads have to be there. -/
def strictInstall (c : Scan) (s : ConfigSet) : StrictScanning Place := do
  Run.lookupAll (s.statesOf c.net)
  (c.install s).strictly

/-- What is done with the place at which the mode begins. -/
def keepStart (c : Scan) (configs : ConfigSet) (place : Place) : Scanning Place := do
  if configs.hasGuards || !c.settings.useCache then pure place
  else
    let (place, t) := (← c.table).setStart place
    c.setTable t
    pure place

def strictStartPlace (c : Scan) : StrictScanning Place := do
  let t ← c.strictTable
  match if c.settings.useCache then t.startRow else none with
  | some n => pure (.row n)
  | none =>
    let position := (← get).stream.index
    let configs ← strictProbe ((c.vantage position false).strictStartSet t.start)
    let place ← c.strictInstall { configs with hasGuards := false }
    (c.keepStart configs place).strictly

/-- What is done where no thread can go on. -/
def keepDead (c : Scan) (p : Place) (v : Symbol) (configs : ConfigSet) :
    Scanning (Option Place) := do
  if !configs.hasGuards && c.settings.useCache then c.setTable ((← c.table).linkDead p v).2
  pure none

/-- What is done with the place that a character leads to. -/
def keepPlace (c : Scan) (p : Place) (v : Symbol) (configs : ConfigSet) (place : Place) :
    Scanning (Option Place) := do
  if !configs.hasGuards && c.settings.useCache then c.setTable ((← c.table).link p v place).2
  pure (some place)

def strictTarget (c : Scan) (p : Place) (v : Symbol) : StrictScanning (Option Place) := do
  let index := (← get).stream.index
  let t ← c.strictTable
  let configs ← strictProbe ((c.vantage (index + 1) (v == Symbol.eof)).strictReachFrom v
    (index - c.start.index) noAlternative ConfigSet.forLexer (t.row p).configs.toList)
  if configs.isEmpty then (c.keepDead p v configs).strictly
  else
    let place ← c.strictInstall { configs with hasGuards := false }
    (c.keepPlace p v configs place).strictly

def strictNext (c : Scan) (p : Place) (v : Symbol) : StrictScanning (Option Place) := do
  let t ← c.strictTable
  match if c.settings.useCache then t.cell? p v else none with
  | some (.row n) => pure (some (.row n))
  | some .dead => pure none
  | none => c.strictTarget p v

/-- Consumes a character. The end of the input is matched, but not consumed. -/
def consume (c : Scan) (v : Symbol) : Scanning Unit := do
  if v ≠ Symbol.eof then
    c.checkLength
    modify Scanner.advance

def strictStep (c : Scan) (p : Point) : StrictScanning (Point ⊕ (Option Accepted × Symbol)) := do
  let v := (← get).stream.lookAhead 1
  match ← c.strictNext p.place v with
  | none => pure (.inr (p.accepted, v))
  | some place =>
    (c.consume v).strictly
    let row := (← c.strictTable).row place
    let accepted := remember (← get) row p.accepted
    if row.accepting ∧ v = Symbol.eof then pure (.inr (accepted, v))
    else pure (.inl ⟨place, accepted⟩)

def strictRun (c : Scan) : StrictScanning TokenMatch := do
  let place ← c.strictStartPlace
  let accepted := remember (← get) ((← c.strictTable).row place) none
  let (accepted, v) ← Run.loop c.strictStep c.fuel ⟨place, accepted⟩
  (c.conclude accepted v).strictly

/-- What is done at the end of a match. -/
def endMatch (c : Scan) : Except LexError TokenMatch → Scanning TokenMatch
  | .ok m => pure m
  | .error e => do
    modify (·.note (c.failureEvent e))
    throw e

end Scan

/-- **A strict match.** Only the number of the mode may be wrong. -/
def Scanner.strictMatchToken (settings : LexerSettings) (host : Oracle) (fuel : Nat) (mode : Nat) :
    StrictScanning TokenMatch := do
  let s ← get
  if s.cache.tables.size ≤ mode then throw (.failed (.unknownMode mode))
  else
    let last ← (s.scan settings host fuel mode).strictRun.strictOutcome
    ((s.scan settings host fuel mode).endMatch last).strictly

namespace Scan

/-! ## In range -/

/-- **A match that fits its network:** `entry` is the state at which its mode begins. -/
structure Sound (c : Scan) (entry : StateId) : Prop where
  consistent : c.net.Consistent
  entry_lt : entry < c.net.states.size
  entry_eq : c.net.entries[c.mode]? = some entry

/-- What the match keeps. -/
abbrev scope (c : Scan) : Scope Scanner := Scanner.scope c.net

variable {c : Scan} {s : Scanner} {entry : StateId}

open Run (Untouched)

theorem strictProbe_safe {m' : StrictProbe α} {m : Probe α} {P : α → Nat → Prop}
    (hs : s.cache.InRange c.net)
    (h : (Trail.scope c.net.states.size).Safe m' m
      { graph := s.cache.graph, past := s.callbacks } P) :
    c.scope.Safe (strictProbe m') (probe m) s P :=
  Cache.strictProbe_safe (from?_probe m s) (fun _ => rfl) hs h

/-- **The table of a mode is found.** -/
theorem strictTable_safe (hc : c.Sound entry) (hs : s.cache.InRange c.net) :
    c.scope.Safe c.strictTable c.table s fun t k =>
      t.start = entry ∧ t.InRange (c.net.extentAt entry) k := by
  refine .get_bind ?_
  rw [hs.table?_eq hc.entry_eq]
  exact .pure hs ⟨hs.start_eq hc.entry_eq, hs.table hc.entry_eq⟩

private theorem setTable_safe (hc : c.Sound entry) (hs : s.cache.InRange c.net) {t : Table}
    (hstart : t.start = entry) (ht : t.InRange (c.net.extentAt entry) s.cache.graph.size) :
    c.scope.Safe (c.setTable t).strictly (c.setTable t) s fun _ _ => True :=
  .modify (hs.setTable hc.entry_eq hstart ht) le_rfl trivial

/-- The row of a set in range. -/
private theorem rowOf_inRange {x : Extent} {size : Nat} {configs : ConfigSet}
    (h : configs.InRange x size) : (c.rowOf configs).InRange x size := by
  unfold rowOf
  split
  · next d hd =>
    have halt := (h.configs d (List.mem_of_find?_eq_some hd)).hasAlt
    exact ⟨h, fun _ _ => halt, nofun⟩
  · exact Row.open_inRange h

/-- **A set in range is put into the table.** -/
theorem strictInstall_safe (hc : c.Sound entry) (hs : s.cache.InRange c.net) {configs : ConfigSet}
    (h : configs.InRange (c.net.extentAt entry) s.cache.graph.size) :
    c.scope.Safe (c.strictInstall configs) (c.install configs) s fun place k =>
      place.InRange (c.net.extentAt entry) k := by
  have hrow := rowOf_inRange (c := c) h
  refine .lookupAll_bind (h.statesOf rfl) ?_
  unfold install
  dsimp only
  split
  · exact .pure hs fun r hr => by cases hr; exact hrow
  refine (strictTable_safe hc hs).strictly_bind fun t s₁ hs₁ hle₁ ⟨hstart, ht⟩ => ?_
  obtain ⟨hplace, htable, hsame⟩ := ht.install (hrow.mono hle₁)
  refine (setTable_safe hc hs₁ (hsame.trans hstart) htable).strictly_bind fun _ s₂ hs₂ hle₂ _ => ?_
  have hnotes : Untouched (ε := LexError) Scanner.cache ((t.install (c.rowOf configs)).2.1.forM
      fun e => modify (·.note e)) fun _ => True := by
    cases (t.install (c.rowOf configs)).2.1 with
    | none => exact .pure trivial
    | some event => exact .modify (fun _ => rfl) trivial
  exact (hnotes.safe hs₂).strictly_bind fun _ s₃ hs₃ hle₃ _ =>
    .pure hs₃ (hplace.mono (hle₂.trans hle₃))

private theorem keepStart_safe (hc : c.Sound entry) (hs : s.cache.InRange c.net)
    (configs : ConfigSet) {place : Place}
    (hplace : place.InRange (c.net.extentAt entry) s.cache.graph.size) :
    c.scope.Safe (c.keepStart configs place).strictly (c.keepStart configs place) s fun place k =>
      place.InRange (c.net.extentAt entry) k := by
  unfold keepStart
  split
  · exact .pure hs hplace
  refine (strictTable_safe hc hs).strictly_bind fun t s₁ hs₁ hle₁ ⟨hstart, ht⟩ => ?_
  obtain ⟨hplace', ht'⟩ := ht.setStart (hplace.mono hle₁)
  exact (setTable_safe hc hs₁ ((t.setStart_start place).trans hstart) ht').strictly_bind
    fun _ s₂ hs₂ hle₂ _ => .pure hs₂ (hplace'.mono hle₂)

/-- Whether guards were met does not matter. -/
private theorem withoutGuards_inRange {x : Extent} {size : Nat} {configs : ConfigSet}
    (h : configs.InRange x size) :
    ({ configs with hasGuards := false } : ConfigSet).InRange x size :=
  ⟨h.configs, h.conflicting⟩

/-- **The place where a mode begins is in range.** -/
theorem strictStartPlace_safe (hc : c.Sound entry) (hs : s.cache.InRange c.net) :
    c.scope.Safe c.strictStartPlace c.startPlace s fun place k =>
      place.InRange (c.net.extentAt entry) k := by
  refine (strictTable_safe hc hs).bind fun t s₁ hs₁ _ ⟨hstart, _⟩ => ?_
  subst hstart
  cases (if c.settings.useCache then t.startRow else none) with
  | some n => exact .pure hs₁ (Place.row_inRange n)
  | none =>
    refine .get_bind ?_
    have hset := Vantage.strictStartSet_safe (v := c.vantage s₁.stream.index false)
      (t := { graph := s₁.cache.graph, past := s₁.callbacks }) hc.consistent hc.entry_lt hs₁.graph
    refine (strictProbe_safe hs₁ hset).bind fun configs s₂ hs₂ _ hconfigs => ?_
    refine (strictInstall_safe hc hs₂ (withoutGuards_inRange hconfigs)).bind
      fun place s₃ hs₃ _ hplace => ?_
    exact keepStart_safe hc hs₃ configs hplace

/-- Writing into the table keeps it in range. -/
private theorem keep_safe (hc : c.Sound entry) (hs : s.cache.InRange c.net) (keeps : Bool)
    {next : Option Place} {g : Table → Table} (hstart : ∀ t, (g t).start = t.start)
    (hg : ∀ t k, t.InRange (c.net.extentAt entry) k → (g t).InRange (c.net.extentAt entry) k)
    (hnext : ∀ place, next = some place →
      place.InRange (c.net.extentAt entry) s.cache.graph.size) :
    c.scope.Safe (Run.strictly (if keeps then c.table >>= fun t => c.setTable (g t) >>= fun _ =>
        pure next else pure next))
      (if keeps then c.table >>= fun t => c.setTable (g t) >>= fun _ => pure next else pure next) s
      fun next k => ∀ place, next = some place → place.InRange (c.net.extentAt entry) k := by
  split
  · refine (strictTable_safe hc hs).strictly_bind fun t s₁ hs₁ hle₁ ⟨ht, htable⟩ => ?_
    exact (setTable_safe hc hs₁ ((hstart t).trans ht) (hg t _ htable)).strictly_bind
      fun _ s₂ hs₂ hle₂ _ => .pure hs₂ fun place hplace =>
        (hnext place hplace).mono (hle₁.trans hle₂)
  · exact .pure hs hnext

/-- **The place that a character leads to is in range.** -/
theorem strictTarget_safe (hc : c.Sound entry) (hs : s.cache.InRange c.net) {p : Place}
    (hp : p.InRange (c.net.extentAt entry) s.cache.graph.size) (v : Symbol) :
    c.scope.Safe (c.strictTarget p v) (c.target p v) s fun next k =>
      ∀ place, next = some place → place.InRange (c.net.extentAt entry) k := by
  unfold strictTarget target
  refine .get_bind ((strictTable_safe hc hs).bind fun t s₁ hs₁ hle₁ ⟨_, ht⟩ => ?_)
  have hconfigs := (ht.row (hp.mono hle₁)).configs.configs
  have hreach := Vantage.strictReachFrom_safe
    (v := c.vantage (s.stream.index + 1) (v == Symbol.eof)) (x := c.net.extentAt entry)
    (t := { graph := s₁.cache.graph, past := s₁.callbacks }) hc.consistent rfl hs₁.graph
    ConfigSet.forLexer_inRange hconfigs v (s.stream.index - c.start.index) noAlternative
  refine (strictProbe_safe hs₁ hreach).bind fun configs s₂ hs₂ hle₂ hconfigs' => ?_
  dsimp only
  -- A dead end is written into the table as well as a place.
  split
  · exact keep_safe hc hs₂ _ (g := fun t => (t.linkDead p v).2)
      (fun t => (t.write_spec p v .dead).1.start_eq) (fun t k ht => ht.write p v .dead)
      fun _ h => nomatch h
  · refine (strictInstall_safe hc hs₂ (withoutGuards_inRange hconfigs')).bind
      fun place s₃ hs₃ hle₃ hplace => ?_
    refine keep_safe hc hs₃ _ (g := fun t => (t.link p v place).2)
      (fun t => t.link_start p v place) (fun t k ht => ht.link p v place) fun place' h => ?_
    exact Option.some.inj h ▸ hplace

theorem strictNext_safe (hc : c.Sound entry) (hs : s.cache.InRange c.net) {p : Place}
    (hp : p.InRange (c.net.extentAt entry) s.cache.graph.size) (v : Symbol) :
    c.scope.Safe (c.strictNext p v) (c.next p v) s fun next k =>
      ∀ place, next = some place → place.InRange (c.net.extentAt entry) k := by
  refine (strictTable_safe hc hs).bind fun t s₁ hs₁ hle₁ _ => ?_
  rcases (if c.settings.useCache then t.cell? p v else none) with _ | n | _
  · exact strictTarget_safe hc hs₁ (hp.mono hle₁) v
  · exact .pure hs₁ fun place h => Option.some.inj h ▸ Place.row_inRange n
  · exact .pure hs₁ fun _ h => nomatch h

/-! ## Whole matches -/

private theorem consume_untouched (v : Symbol) :
    Untouched Scanner.cache (c.consume v) fun _ => True := by
  have hadvance : ∀ s : Scanner, s.advance.cache = s.cache := by
    intro s
    unfold Scanner.advance
    dsimp only
    split
    · rfl
    · split <;> rfl
  have hlength : Untouched Scanner.cache c.checkLength fun _ => True := by
    intro s
    unfold checkLength
    refine .get_bind ?_
    dsimp only
    split
    · exact .throw ⟨rfl, nofun⟩
    · exact .pure ⟨rfl, fun _ _ => trivial⟩
  unfold consume
  split
  · exact hlength.bind fun _ _ => .modify hadvance trivial
  · exact .pure trivial

private theorem step_eq (c : Scan) (p : Point) :
    c.step p = (get >>= fun s => c.next p.place (s.stream.lookAhead 1) >>= fun next =>
      match next with
      | none => pure (.inr (p.accepted, s.stream.lookAhead 1))
      | some place => c.consume (s.stream.lookAhead 1) >>= fun _ => c.table >>= fun t =>
        get >>= fun s' =>
        if (t.row place).accepting ∧ s.stream.lookAhead 1 = Symbol.eof then
          pure (.inr (remember s' (t.row place) p.accepted, s.stream.lookAhead 1))
        else pure (.inl ⟨place, remember s' (t.row place) p.accepted⟩)) := by
  unfold step consume
  refine bind_congr fun s => bind_congr fun next => ?_
  cases next with
  | none => rfl
  | some place =>
    dsimp only
    split <;> simp

/-- **A step of a match finds all that it looks up.** -/
theorem strictStep_safe (hc : c.Sound entry) (hs : s.cache.InRange c.net) {p : Point}
    (hp : p.place.InRange (c.net.extentAt entry) s.cache.graph.size) :
    c.scope.Safe (c.strictStep p) (c.step p) s fun next k =>
      next.elim (fun p => p.place.InRange (c.net.extentAt entry) k) fun _ => True := by
  rw [step_eq]
  refine .get_bind ((strictNext_safe hc hs hp _).bind fun next s₁ hs₁ _ hnext => ?_)
  cases next with
  | none => exact .pure hs₁ trivial
  | some place =>
    have hplace := hnext place rfl
    refine ((consume_untouched _).safe hs₁).bind fun _ s₂ hs₂ hle₂ _ => ?_
    refine (strictTable_safe hc hs₂).bind fun t s₃ hs₃ hle₃ _ => .get_bind ?_
    dsimp only
    split
    · exact .pure hs₃ trivial
    · exact .pure hs₃ (hplace.mono (hle₂.trans hle₃))

private theorem conclude_untouched (accepted : Option Accepted) (v : Symbol) :
    Untouched Scanner.cache (c.conclude accepted v) fun _ => True := by
  intro s
  cases accepted with
  | some a => exact .of_eq rfl ⟨rfl, fun _ _ => trivial⟩
  | none =>
    unfold conclude
    refine .get_bind ?_
    dsimp only
    split
    · exact .pure ⟨rfl, fun _ _ => trivial⟩
    · exact .throw ⟨rfl, nofun⟩

private theorem endMatch_untouched (last : Except LexError TokenMatch) :
    Untouched Scanner.cache (c.endMatch last) fun _ => True := by
  intro s
  cases last with
  | ok m => exact .pure ⟨rfl, fun _ _ => trivial⟩
  | error e => exact .of_eq rfl ⟨rfl, nofun⟩

theorem strictRun_safe (hc : c.Sound entry) (hs : s.cache.InRange c.net) :
    c.scope.Safe c.strictRun c.run s fun _ _ => True := by
  refine (strictStartPlace_safe hc hs).bind fun place s₁ hs₁ _ hplace =>
    .get_bind ((strictTable_safe hc hs₁).bind fun t s₂ hs₂ hle₂ _ => ?_)
  refine Scope.Safe.bind (P := fun _ _ => True) ?_ fun last s₃ hs₃ _ _ => ?_
  · exact .loop (fun (p : Point) k => p.place.InRange (c.net.extentAt entry) k)
      (fun p u hu hp => strictStep_safe hc hu hp) hs₂ (hplace.mono hle₂)
  · exact (conclude_untouched _ _).safe hs₃

end Scan

namespace Scanner

private theorem matchToken_eq (settings : LexerSettings) (host : Oracle) (fuel mode : Nat) :
    matchToken settings host fuel mode = (get >>= fun s =>
      if s.cache.tables.size ≤ mode then throw (.unknownMode mode)
      else (s.scan settings host fuel mode).run.outcome >>=
        (s.scan settings host fuel mode).endMatch) := by
  unfold matchToken
  refine bind_congr fun s => ?_
  dsimp only
  split
  · rfl
  · refine bind_congr fun last => ?_
    cases last <;> rfl

/-- **On a cache in range a match finds all that it looks up,** and keeps the cache in range. -/
theorem strictMatchToken_safe {net : Network} {s : Scanner} (hnet : net.Consistent)
    (hindexed : net.Indexed) (hs : s.cache.InRange net) (settings : LexerSettings) (host : Oracle)
    (fuel mode : Nat) :
    (scope net).Safe (strictMatchToken settings host fuel mode)
      (matchToken settings host fuel mode) s fun _ _ => True := by
  rw [matchToken_eq]
  refine .get_bind ?_
  split
  · exact .throw hs
  · next hmode =>
    obtain rfl : s.cache.net = net := hs.net_eq
    have hentry := hs.entry_eq (Nat.lt_of_not_le hmode)
    have hsound : (s.scan settings host fuel mode).Sound (s.cache.table mode).start :=
      ⟨hnet, hindexed.entry_lt hentry, hentry⟩
    refine (Scope.Safe.outcome (Scan.strictRun_safe hsound hs)).bind fun last t ht _ _ => ?_
    exact (Scan.endMatch_untouched last).safe ht

end Scanner

end AdaptiveLL
