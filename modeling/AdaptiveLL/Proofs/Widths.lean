import AdaptiveLL.Grammar.Compile
import AdaptiveLL.Proofs.Cache.Calls
import AdaptiveLL.Proofs.Parsing.Moves
import AdaptiveLL.Proofs.Prediction.Sessions
import AdaptiveLL.Proofs.SymbolSet.Words

/-!
# The widths of tables

The slots of a table are counted from its first symbol, in numbers of 32 bits. `Table.width?` counts
the cells of a row in this way, and here the slot of a symbol and the symbol of a slot are worked
out so as well. Where a number does not fit there is no result.

A table with a width loses nothing: every symbol of its range has a slot, every slot leads back to
its symbol, and a cell that was written is read for one symbol and no other. The tables of a parser
have a width unless the greatest token type is one of the last two numbers of 32 bits. A network may
have such a type, but it cannot be used: a prediction *overflows* where it lays out its first row,
so none is ever answered, and a parse overflows with its first prediction.
-/

namespace AdaptiveLL

open Numeral

namespace Table

/-! ## Slots -/

/-- `slot?` in words. -/
def slotInWords? (t : Table) (v : Symbol) : Option (Option Nat) :=
  if v < t.firstSymbol ∨ t.lastSymbol < v then some none
  else (int32? (v - t.firstSymbol)).map fun distance => some distance.toNat

/-- `symbolAt` in words: the slot is cut down to 32 bits before it is added. -/
def symbolInWords? (t : Table) (slot : Nat) : Option Symbol :=
  int32? (t.firstSymbol + Int.bmod slot 4294967296)

variable {t t' : Table} {v : Symbol} {slot : Nat}

/-- The symbols of the range are those that have a slot. -/
theorem isSome_slot?_iff : (t.slot? v).isSome = true ↔ t.firstSymbol ≤ v ∧ v ≤ t.lastSymbol := by
  unfold slot?
  split_ifs with hout
  · simp only [Option.isSome_none, Bool.false_eq_true, false_iff]
    lia
  · simp only [Option.isSome_some, true_iff]
    lia

/-- **The slots are the numbers below the width,** and each one leads back to its symbol. -/
theorem slot?_eq_some_iff : t.slot? v = some slot ↔ slot < t.width ∧ t.symbolAt slot = v := by
  unfold slot? width symbolAt
  split_ifs with hout
  · simp only [false_iff]
    lia
  · rw [Option.some.injEq]
    lia

theorem Evolves.width_eq (h : t.Evolves t') : t'.width = t.width := by
  rw [width, width, h.first_eq, h.last_eq]

theorem isSome_width?_iff : t.width?.isSome = true ↔
    fitsInt32 (t.lastSymbol - t.firstSymbol) = true ∧
      fitsInt32 (t.lastSymbol - t.firstSymbol + 1) = true := by
  unfold width?
  by_cases hspan : fitsInt32 (t.lastSymbol - t.firstSymbol) = true
  · by_cases hcount : fitsInt32 (t.lastSymbol - t.firstSymbol + 1) = true
    · simp [int32?_eq hspan, int32?_eq hcount, hspan, hcount]
    · simp [int32?, hspan, hcount]
  · simp [int32?, hspan]

/-- **A table that can be laid out:** its range ends with numbers of 32 bits, and it has a width. -/
structure InWords (t : Table) : Prop where
  first : fitsInt32 t.firstSymbol = true
  last : fitsInt32 t.lastSymbol = true
  width : t.width?.isSome = true

namespace InWords

theorem width?_eq (h : t.InWords) : t.width? = some t.width := by
  obtain ⟨hspan, hcount⟩ := isSome_width?_iff.mp h.width
  unfold width?
  rw [int32?_eq hspan]
  simp only [Option.bind_eq_bind, Option.bind_some, int32?_eq hcount]
  rfl

theorem slotInWords?_eq (h : t.InWords) (v : Symbol) : t.slotInWords? v = some (t.slot? v) := by
  obtain ⟨hspan, -⟩ := isSome_width?_iff.mp h.width
  unfold slotInWords? slot?
  split_ifs with hout
  · rfl
  · have hfits : fitsInt32 (v - t.firstSymbol) = true :=
      SymbolSet.fits_between (by decide : fitsInt32 0 = true) hspan (by lia) (by lia)
    rw [int32?_eq hfits]
    rfl

theorem symbolInWords?_eq (h : t.InWords) (hslot : slot < t.width) :
    t.symbolInWords? slot = some (t.symbolAt slot) := by
  obtain ⟨hspan, hcount⟩ := isSome_width?_iff.mp h.width
  have hlt : (slot : Int) < t.lastSymbol - t.firstSymbol + 1 := by
    unfold Table.width at hslot
    omega
  have hword : Int.bmod slot 4294967296 = slot := by
    rw [fitsInt32_iff] at hspan
    exact Int.bmod_eq_of_le (by omega) (by omega)
  unfold symbolInWords? symbolAt
  rw [hword]
  exact int32?_eq (SymbolSet.fits_between h.first h.last (by omega) (by omega))

/-- **No slot is lost in words:** going to a slot and back again is the same with and without
them. -/
theorem slotInWords?_eq_some_iff (h : t.InWords) :
    t.slotInWords? v = some (some slot) ↔ slot < t.width ∧ t.symbolInWords? slot = some v := by
  rw [h.slotInWords?_eq, Option.some.injEq, slot?_eq_some_iff]
  refine and_congr_right fun hslot => ?_
  rw [h.symbolInWords?_eq hslot, Option.some.injEq]

end InWords

/-- **Which decisions can be laid out:** those of a network that leaves the last two numbers of 32
bits unused. A range that is empty, or ends far below zero, does no harm. -/
theorem isSome_width?_ofDecision {net : Network} {decision : Nat} {start : StateId} :
    (ofDecision net decision start).width?.isSome = true ↔
      -2147483649 ≤ net.maxTokenType ∧ net.maxTokenType ≤ 2147483645 := by
  rw [isSome_width?_iff]
  simp only [ofDecision, Symbol.eof, fitsInt32_iff]
  omega

theorem width?_ofDecision_eq_none {net : Network} {decision : Nat} {start : StateId}
    (hlarge : 2147483645 < net.maxTokenType) :
    (ofDecision net decision start).width? = none := by
  rw [← Option.not_isSome_iff_eq_none, isSome_width?_ofDecision]
  omega

end Table

/-! ## Cells -/

namespace Row

/-- Cells are written in the slots below a width only. -/
def Within (width : Nat) (r : Row) : Prop := ∀ slot c, r.cell? slot = some c → slot < width

theorem within_bare (width : Nat) (r : Row) : r.bare.Within width := fun _ _ h => nomatch h

theorem Within.write {width slot : Nat} {r : Row} (h : r.Within width) (hslot : slot < width)
    (c : Cell) : (r.write slot c).Within width := by
  intro slot' d hcell
  rcases cell?_write hcell with hcell | ⟨rfl, -⟩
  · exact h slot' d hcell
  · exact hslot

end Row

namespace Holding

/-- All rows that the program holds are as wide as the table. -/
def Within (h : Holding) : Prop := ∀ p ∈ h.places, (h.table.row p).Within h.table.width

variable {h : Holding}

/-- A call that is answered with a place and changes no row that is held. -/
private theorem Within.answer (hw : h.Within) {p : Place} {t : Table}
    (hold : ∀ q ∈ h.places, t.row q = h.table.row q) (hp : (t.row p).Within h.table.width)
    (hwidth : t.width = h.table.width) : (h.answer p t).Within := by
  intro q hq
  change (t.row q).Within t.width
  rw [hwidth]
  rcases List.mem_append.mp hq with hq | hq
  · rw [hold q hq]
    exact hw q hq
  · rw [List.mem_singleton.mp hq]
    exact hp

private theorem Within.install (hw : h.Within) (hs : h.Sound) {r : Row}
    (hr : r.Within h.table.width) :
    (h.answer (h.table.install r).1 (h.table.install r).2.2).Within := by
  rcases h.table.install_cases r with ⟨n, hn, heq, -⟩ | ⟨event, reported, heq⟩ | heq <;> rw [heq]
  · exact hw.answer (fun _ _ => rfl) (hw _ (hs.held n hn)) rfl
  · refine hw.answer (fun q _ => ?_) hr rfl
    cases q <;> rfl
  · refine hw.answer (fun q hq => ?_) ?_ rfl
    · cases q with
      | row n => exact Table.row_push_old (hs.hosts _ hq)
      | loose r' => rfl
    · rw [Table.row_push_new]
      exact hr

/-- Writing stays within the width, since a symbol has a slot there or none. -/
private theorem Within.write (hw : h.Within) (hs : h.Sound) {i : Nat} {p : Place}
    (hp : h.places[i]? = some p) (v : Symbol) (c : Cell) :
    (h.written i (h.table.write p v c)).Within := by
  have hmem : p ∈ h.places := List.mem_of_getElem? hp
  have hwidth : (h.table.write p v c).2.width = h.table.width :=
    (h.table.write_spec p v c).1.width_eq
  have hheld : ∀ q ∈ h.places, ((h.table.write p v c).2.row q).Within h.table.width := by
    intro q hq
    cases q with
    | loose r => exact hw _ hq
    | row n =>
      rcases h.table.row_write p v c (hs.hosts _ hq) with heq | ⟨slot, hslot, heq⟩ <;> rw [heq]
      · exact hw _ hq
      · exact (hw _ hq).write (Table.slot?_eq_some_iff.mp hslot).1 c
  intro q hq
  change ((h.table.write p v c).2.row q).Within (h.table.write p v c).2.width
  rw [hwidth]
  rcases List.mem_or_eq_of_mem_set hq with hq | rfl
  · exact hheld q hq
  · rcases h.table.place_write p v c with heq | ⟨r, slot, rfl, hslot, heq⟩ <;> rw [heq]
    · exact hheld p hmem
    · exact Row.Within.write (hw _ hmem) (Table.slot?_eq_some_iff.mp hslot).1 c

/-- **One call stays within the width.** -/
theorem Within.perform (hw : h.Within) (hs : h.Sound) (c : TableCall) : (h.perform c).Within := by
  cases c with
  | draft r => exact hw.answer (fun _ _ => rfl) (r.within_bare _) rfl
  | install i =>
    simp only [Holding.perform]
    split
    · next r hp => exact hw.install hs (hw _ (List.mem_of_getElem? hp))
    · exact hw
  | setStart i =>
    simp only [Holding.perform]
    split
    · next n hp =>
      unfold Table.setStart
      cases hstart : h.table.startRow with
      | some m =>
        exact hw.answer (fun _ _ => rfl) (hw _ (hs.held m (hs.canonical.startRow_lt m hstart))) rfl
      | none =>
        refine hw.answer (fun q _ => ?_) (hw _ (List.mem_of_getElem? hp)) rfl
        cases q <;> rfl
    · exact hw
  | link i v j =>
    simp only [Holding.perform]
    split
    · next p target hp htarget =>
      -- Linking to a row writes a cell; linking to a loose place only changes what is held.
      cases target with
      | row n => exact hw.write hs hp v _
      | loose r =>
        intro q hq
        rcases List.mem_or_eq_of_mem_set hq with hq | rfl
        · exact hw q hq
        · exact hw _ (List.mem_of_getElem? hp)
    · exact hw
  | linkDead i v =>
    simp only [Holding.perform]
    split
    · next p hp => exact hw.write hs hp v _
    · exact hw

/-- **So do calls one after the other.** -/
theorem Within.performAll (hw : h.Within) (hs : h.Sound) (cs : List TableCall) :
    (h.performAll cs).Within := by
  induction cs generalizing h with
  | nil => exact hw
  | cons c cs ih => exact ih (hw.perform hs c) (hs.perform c).1

/-- **The cells are in words** what they are without bounds, for symbols from the end of the input up
to a last one. -/
structure Addressed (h : Holding) (last : Symbol) : Prop where
  width?_eq : h.table.width? = some h.table.width
  slotInWords?_eq : ∀ v, h.table.slotInWords? v = some (h.table.slot? v)
  /-- These symbols have a slot. -/
  isSome_slot?_iff : ∀ v, (h.table.slot? v).isSome = true ↔ Symbol.eof ≤ v ∧ v ≤ last
  /-- The slots are the numbers below the width, and each one leads back to its symbol. -/
  slotInWords?_iff : ∀ v slot, h.table.slotInWords? v = some (some slot) ↔
    slot < h.table.width ∧ h.table.symbolInWords? slot = some v
  /-- A cell that is written belongs to a symbol, which reads it. -/
  cell?_eq : ∀ p ∈ h.places, ∀ slot c, (h.table.row p).cell? slot = some c →
    ∃ v, h.table.symbolInWords? slot = some v ∧ h.table.cell? p v = some c
  /-- What is first written for a symbol is read for it, and for no other symbol. -/
  cell?_write : ∀ p ∈ h.places, ∀ v, Symbol.eof ≤ v → v ≤ last → ∀ c u,
    (h.table.write p v c).2.cell? (h.table.write p v c).1 u =
      if u = v then some ((h.table.cell? p v).getD c) else h.table.cell? p u

/-- Whatever calls have been made on the table of a decision, it has a width just if no token type is
one of the last two numbers of 32 bits, and then its cells are what they should be. -/
theorem performAll_inWords {net : Network} (hfits : fitsInt32 net.maxTokenType = true)
    (decision : Nat) (start : StateId) (cs : List TableCall) :
    let h := (⟨.ofDecision net decision start, []⟩ : Holding).performAll cs
    (h.table.width?.isSome = true ↔ net.maxTokenType ≤ 2147483645) ∧
      (net.maxTokenType ≤ 2147483645 → h.Addressed net.maxTokenType) := by
  intro h
  set t := h.table
  have hsound : (⟨.ofDecision net decision start, []⟩ : Holding).Sound :=
    sound_empty decision start Symbol.eof net.maxTokenType Limits.statesPerDecision
  obtain ⟨hs, hcont⟩ := hsound.performAll cs
  have hw : h.Within := Within.performAll (fun p hp => absurd hp List.not_mem_nil) hsound cs
  have hfirst : t.firstSymbol = Symbol.eof := hcont.table.first_eq
  have hlast : t.lastSymbol = net.maxTokenType := hcont.table.last_eq
  have hwidth : t.width?.isSome = true ↔ net.maxTokenType ≤ 2147483645 := by
    have hdecision : t.width?.isSome = (Table.ofDecision net decision start).width?.isSome := by
      rw [Table.width?, Table.width?, hfirst, hlast]
      rfl
    rw [hdecision, Table.isSome_width?_ofDecision]
    exact and_iff_right_of_imp fun _ => (fitsInt32_iff.mp hfits).1.trans' (by decide)
  refine ⟨hwidth, fun hle => ?_⟩
  have hwords : t.InWords := ⟨hfirst ▸ by decide, hlast ▸ hfits, hwidth.mpr hle⟩
  refine ⟨hwords.width?_eq, hwords.slotInWords?_eq, fun v => ?_,
    fun v slot => hwords.slotInWords?_eq_some_iff, fun p hp slot c hcell => ?_,
    fun p hp v hlo hhi c u => ?_⟩
  · rw [Table.isSome_slot?_iff, hfirst, hlast]
  · have hlt : slot < t.width := hw p hp slot c hcell
    refine ⟨t.symbolAt slot, hwords.symbolInWords?_eq hlt, ?_⟩
    rw [Table.cell?, Table.slot?_eq_some_iff.mpr ⟨hlt, rfl⟩]
    exact hcell
  · exact hs.canonical.cell?_write (hs.hosts p hp) (hfirst ▸ hlo) (hlast ▸ hhi) c u

end Holding

/-! ## Runs that may not look ahead -/

namespace Run

variable {ε σ α β : Type} {far : ε → Bool}

/-- **The second run is the first one blinded:** it does the same, or it fails because it would have
to look too far. -/
def Blinded (far : ε → Bool) (m m' : Run ε σ α) : Prop :=
  ∀ s, m'.from? s = m.from? s ∨ ∃ e t, m'.from? s = some (.error e, t) ∧ far e = true

namespace Blinded

variable {m m' : Run ε σ α} {f f' : α → Run ε σ β}

theorem refl (m : Run ε σ α) : Blinded far m m := fun _ => .inl rfl

theorem ite {c : Prop} [Decidable c] {n n' : Run ε σ α} (h : Blinded far m m')
    (h' : Blinded far n n') : Blinded far (if c then m else n) (if c then m' else n') := by
  split
  · exact h
  · exact h'

theorem bind (h : Blinded far m m') (hf : ∀ a, Blinded far (f a) (f' a)) :
    Blinded far (m >>= f) (m' >>= f') := by
  intro s
  rw [from?_bind, from?_bind]
  rcases h s with heq | ⟨e, t, heq, hfar⟩ <;> rw [heq]
  · match m.from? s with
    | none => exact .inl rfl
    | some (.error e, t) => exact .inl rfl
    | some (.ok a, t) => exact hf a t
  · exact .inr ⟨e, t, rfl, hfar⟩

/-- Where outcomes are looked at, the failure has to be handed on. -/
theorem outcome_bind {f f' : Except ε α → Run ε σ β} (h : Blinded far m m')
    (hf : ∀ r, Blinded far (f r) (f' r))
    (hfar : ∀ e, far e = true → ∀ s, ∃ t, (f' (.error e)).from? s = some (.error e, t)) :
    Blinded far (m.outcome >>= f) (m'.outcome >>= f') := by
  intro s
  simp only [from?_bind, from?_outcome]
  rcases h s with heq | ⟨e, t, heq, hlookahead⟩ <;> rw [heq]
  · match m.from? s with
    | none => exact .inl rfl
    | some (r, t) => exact hf r t
  · obtain ⟨u, hu⟩ := hfar e hlookahead t
    exact .inr ⟨e, u, hu, hlookahead⟩

theorem loop {step step' : α → Run ε σ (α ⊕ β)} (h : ∀ a, Blinded far (step a) (step' a))
    (fuel : Nat) (a : α) : Blinded far (Run.loop step fuel a) (Run.loop step' fuel a) := by
  induction fuel generalizing a with
  | zero => exact .refl _
  | succ fuel ih =>
    refine .bind (h a) fun next => ?_
    cases next with
    | inl a' => exact ih a'
    | inr b => exact .refl _

end Blinded

end Run

open Run (Blinded)

/-! ## Predictions -/

theorem PredictionError.isFullGraph_of_isLookahead {e : PredictionError}
    (h : e.isLookahead = true) : e.isFullGraph = false := by
  cases e with
  | exceeded e =>
    have hresource : e.resource = .lookahead := by simpa [isLookahead] using h
    simp [isFullGraph, hresource]
  | _ => rfl

namespace Request

variable (r : Request)

/-- The request with blind settings. -/
def blind : Request := { r with settings := r.settings.blind }

private theorem step_blind (p : Point) (s : Session) : (r.blind.step p).from? s =
    some (.error (.exceeded ⟨.lookahead, 0, p.read + 1⟩), s) := by
  have hcheck : r.blind.checkLookahead (p.read + 1) =
      throw (.exceeded ⟨.lookahead, 0, p.read + 1⟩) := if_pos (Nat.succ_pos _)
  rw [step_eq, Run.from?_bind, hcheck]
  rfl

/-- **A blind attempt finds out where the decision starts,** as any other one does. -/
theorem attempt_blinded : Blinded PredictionError.isLookahead r.attempt r.blind.attempt := by
  -- Where the decision starts does not depend on how far a prediction may look.
  have hrest : Blinded PredictionError.isLookahead
      (r.startPlace >>= fun place => Run.loop r.step r.fuel ⟨place, r.stream, 0⟩)
      (r.blind.startPlace >>= fun place => Run.loop r.blind.step r.fuel ⟨place, r.stream, 0⟩) :=
    .bind (.refl r.startPlace) fun place =>
      .loop (fun p s => .inr ⟨_, s, r.step_blind p s, rfl⟩) r.fuel _
  exact .bind (.refl get) fun s => .ite (.bind (.refl _) fun _ => hrest) hrest

/-- It has no answer. -/
theorem attempt_blind_fails : r.blind.attempt.outcome.Gives fun first => first.isOk = false := by
  have hloop : ∀ place, (Run.loop r.blind.step r.fuel ⟨place, r.stream, 0⟩).Gives fun _ => False :=
    fun place => .loop (Q := fun _ => True) (fun p _ s next t hrun => by
      rw [r.step_blind p s] at hrun
      cases hrun) trivial
  have hfails : r.blind.attempt.Gives fun _ => False :=
    .after fun s => .ite (.after fun _ => .after hloop) (.after hloop)
  intro s first t hrun
  rw [Run.from?_outcome] at hrun
  obtain ⟨⟨a, u⟩, hattempt, heq⟩ := Option.map_eq_some_iff.mp hrun
  obtain ⟨rfl, rfl⟩ : a = first ∧ u = t := by simpa using heq
  cases a with
  | ok alt => exact (hfails s alt u hattempt).elim
  | error e => rfl

end Request

namespace Session

variable {settings : PredictionSettings} {host : Oracle} {fuel : Nat} {stream : TokenStream}
  {decision : Nat} {callers : List StateId} {s s' : Session}

/-- A prediction that looked too far is not made again. -/
private theorem again_of_isLookahead (r : Request) (seen : Nat) {e : PredictionError}
    (h : e.isLookahead = true) : again r seen (.error e) = pure (.error e) := by
  have hfull := PredictionError.isFullGraph_of_isLookahead h
  exact if_neg (by simp [hfull])

theorem predict_blinded (settings : PredictionSettings) (host : Oracle) (fuel : Nat)
    (stream : TokenStream) (decision : Nat) (callers : List StateId) :
    Blinded PredictionError.isLookahead (predict settings host fuel stream decision callers)
      (predict settings.blind host fuel stream decision callers) := by
  rw [predict_eq, predict_eq]
  refine .bind (.refl _) fun _ => .bind (.refl get) fun s => .bind (.refl get) fun s' => ?_
  change Blinded _ _ ((s.request settings host fuel stream decision callers).blind.attempt.outcome
    >>= fun first => again (s.request settings host fuel stream decision callers).blind
      s'.cache.generation first >>= close decision stream)
  generalize s.request settings host fuel stream decision callers = r
  refine .outcome_bind r.attempt_blinded (fun first => ?_) fun e he t => ?_
  · cases first with
    | ok alt => exact .refl _
    | error e =>
      unfold again
      dsimp only
      split
      · -- The graph was full before a symbol was read: both begin again.
        simp only [bind_assoc]
        refine .bind (.refl _) fun _ => .outcome_bind r.attempt_blinded (fun _ => .refl _) ?_
        exact fun _ _ _ => ⟨_, rfl⟩
      · exact .refl _
  · rw [again_of_isLookahead _ _ he]
    exact ⟨_, rfl⟩

/-- A blind prediction has no answer. -/
theorem predict_blind_fails :
    (predict settings.blind host fuel stream decision callers).Gives fun _ => False := by
  have hclose : ∀ result : Except PredictionError Nat, result.isOk = false →
      (close decision stream result).Gives fun _ => False := by
    intro result hresult
    cases result with
    | ok alt => cases hresult
    | error e => exact .after fun _ => .after fun _ => .throw
  rw [predict_eq]
  refine .after fun _ => .after fun s => .after fun s' => ?_
  have hattempt := (s.request settings host fuel stream decision callers).attempt_blind_fails
  refine .bind hattempt fun first hfirst => .bind (Q := fun result => result.isOk = false) ?_ hclose
  cases first with
  | ok alt => cases hfirst
  | error e => exact .ite (.after fun _ => hattempt) (.pure rfl)

/-- **Without a width a prediction overflows or has no answer.** If it does not overflow, it is over
before a row has to be laid out, so a blind prediction does the same. -/
theorem overflows_or_fails (hwidth : (s.cache.table decision).width? = none) :
    s.overflows settings host fuel stream decision callers = true ∨
      (predict settings host fuel stream decision callers).from? s =
          (predict settings.blind host fuel stream decision callers).from? s ∧
        ∀ alt t, (predict settings host fuel stream decision callers).from? s ≠
          some (.ok alt, t) := by
  unfold overflows
  rw [hwidth]
  rcases predict_blinded settings host fuel stream decision callers s with
    heq | ⟨e, t, heq, hlookahead⟩
  · refine .inr ⟨heq.symm, fun alt t hok => ?_⟩
    exact predict_blind_fails s alt t (heq.trans hok)
  · rw [heq]
    exact .inl hlookahead

/-- No prediction is answered without an overflow if the greatest token type is one of the last two
numbers of 32 bits. -/
theorem overflows_of_answer {net : Network} {maxNodes maxDepth : Nat} {entry : StateId}
    (hs : s.cache = .new net maxNodes maxDepth) (hparser : net.isLexer = false)
    (hd : net.decisions[decision]? = some entry) (hlarge : 2147483645 < net.maxTokenType)
    {alt : Nat} (h : (predict settings host fuel stream decision callers).from? s =
      some (.ok alt, s')) :
    s.overflows settings host fuel stream decision callers = true := by
  refine (overflows_or_fails ?_).resolve_right fun ⟨_, hno⟩ => hno alt s' h
  rw [hs, Cache.table_new net hparser maxNodes maxDepth decision hd]
  exact Table.width?_ofDecision_eq_none hlarge

end Session

/-! ## Parses -/

namespace Parser

variable {p : Parser}

theorem predict_blinded (setup : ParseSetup) (w : Walk) (d : Nat) :
    Blinded ParseError.isLookahead (predict setup w d) (predict setup.blind w d) := by
  intro p
  rw [predict_from?, predict_from?]
  rcases Session.predict_blinded setup.settings (setup.host.atLevel w.precedence) setup.fuel
    p.stream d w.callers.reverse p.session with heq | ⟨e, s, heq, hlookahead⟩
  · exact .inl (congrArg (Option.map _) heq)
  · exact .inr ⟨.prediction e, _, congrArg (Option.map _) heq, hlookahead⟩

theorem step_blinded (setup : ParseSetup) (net : Network) (w : Walk) :
    Blinded ParseError.isLookahead (step setup net w) (step setup.blind net w) := by
  unfold step
  refine .ite (.refl _) (.bind ?_ fun chosen => .refl _)
  unfold choose
  cases (net.state w.state).decision with
  | none => exact .refl _
  | some d => exact .ite (.bind (predict_blinded setup w d) fun _ => .refl _) (.refl _)

theorem parse_blinded (setup : ParseSetup) (rule : String) :
    Blinded ParseError.isLookahead (parse setup rule) (parse setup.blind rule) := by
  unfold parse
  refine .bind (.refl _) fun p => ?_
  dsimp only
  cases p.session.cache.net.ruleIndex? rule with
  | none => exact .refl _
  | some i =>
    exact .outcome_bind (.loop (step_blinded setup _) _ _) (fun _ => .refl _)
      fun e _ p => ⟨_, rfl⟩

/-- Without a width a parse overflows, or no prediction of it lays out a row, and then a blind parse
does the same. -/
theorem overflows_or_blind {setup : ParseSetup} {rule : String}
    (hwidth : ∃ t ∈ p.session.cache.tables, t.width? = none) :
    p.overflows setup rule = true ∨
      (parse setup rule).from? p = (parse setup.blind rule).from? p := by
  have hany : p.session.cache.tables.any (·.width?.isNone) = true := by
    obtain ⟨t, ht, hnone⟩ := hwidth
    exact Array.any_eq_true'.mpr ⟨t, ht, by simp [hnone]⟩
  unfold overflows
  rw [hany]
  rcases parse_blinded setup rule p with heq | ⟨e, t, heq, hlookahead⟩
  · exact .inr heq.symm
  · rw [heq]
    exact .inl hlookahead

end Parser

/-! ## Networks -/

/-- **How far words reach.** In a network for parsers, the cells of every decision are in words what
they are without bounds, whatever calls have been made on its table, unless the greatest token type
is one of the last two numbers of 32 bits. If it is, no prediction is answered without an overflow,
and no parse goes on from its first one. -/
theorem Network.cells_in_words {net : Network} (hparser : net.isLexer = false)
    (hfits : fitsInt32 net.maxTokenType = true) :
    (∀ decision start cs,
      let h := (⟨.ofDecision net decision start, []⟩ : Holding).performAll cs
      (h.table.width?.isSome = true ↔ net.maxTokenType ≤ 2147483645) ∧
        (net.maxTokenType ≤ 2147483645 → h.Addressed net.maxTokenType)) ∧
    (2147483645 < net.maxTokenType → ∀ maxNodes maxDepth,
      (∀ (s s' : Session) settings host fuel stream decision callers alt,
        s.cache = .new net maxNodes maxDepth → decision < net.decisions.size →
        (Session.predict settings host fuel stream decision callers).from? s = some (.ok alt, s') →
          s.overflows settings host fuel stream decision callers = true) ∧
      ∀ (p : Parser) setup rule, p.session.cache = .new net maxNodes maxDepth →
        0 < net.decisions.size → p.overflows setup rule = true ∨
          (Parser.parse setup rule).from? p = (Parser.parse setup.blind rule).from? p) := by
  refine ⟨Holding.performAll_inWords hfits, fun hlarge maxNodes maxDepth => ⟨?_, ?_⟩⟩
  · intro s s' settings host fuel stream decision callers alt hs hd hrun
    exact Session.overflows_of_answer hs hparser (Array.getElem?_eq_getElem hd) hlarge hrun
  · intro p setup rule hp hd
    refine Parser.overflows_or_blind ⟨.ofDecision net 0 net.decisions[0], ?_, ?_⟩
    · rw [hp]
      simp only [Cache.new, Cache.freshTables, hparser]
      exact Array.mem_mapIdx.mpr ⟨0, hd, rfl⟩
    · exact Table.width?_ofDecision_eq_none hlarge

/-- A grammar for one of two tokens, of which the second one has any type:

    s : A | <type> ; -/
private def Grammar.eitherType (type : Int) : Grammar where
  kind := .parser
  name := "either"
  tokenNames := ["<INVALID>", "A"]
  rules := [⟨"s", .alt [.token 1, .token type], none, 0⟩]

private def Grammar.eitherNet (type : Int) : Network :=
  (eitherType type).compile.toOption.getD default

/-- The greatest token type that has cells, and the greatest one there is: with that the first
prediction overflows, whatever it answers without bounds. -/
theorem Network.eitherNet_cells_in_words :
    (∀ cs, ((⟨.ofDecision (Grammar.eitherNet 2147483645) 0 2, []⟩ : Holding).performAll
      cs).Addressed 2147483645) ∧
    (Grammar.eitherNet 2147483647).check.isOk = true ∧
    (Session.new (.new (Grammar.eitherNet 2147483647))).overflows {} .permissive 100
      (.ofTypes [1]) 0 [] = true := by
  have hmax : (Grammar.eitherNet 2147483645).maxTokenType = 2147483645 := by decide +kernel
  have hparser : (Grammar.eitherNet 2147483645).isLexer = false := by decide +kernel
  obtain ⟨hcells, -⟩ := cells_in_words hparser (by rw [hmax]; decide)
  have hlast : (Grammar.eitherNet 2147483647).maxTokenType = 2147483647 := by decide +kernel
  have hparser' : (Grammar.eitherNet 2147483647).isLexer = false := by decide +kernel
  obtain ⟨-, hoverflows⟩ := cells_in_words hparser' (by rw [hlast]; decide)
  have hlarge : 2147483645 < (Grammar.eitherNet 2147483647).maxTokenType := by rw [hlast]; decide
  refine ⟨fun cs => ?_, by decide +kernel, ?_⟩
  · have haddressed := (hcells 0 2 cs).2 hmax.le
    rwa [hmax] at haddressed
  have hanswer : ((Session.predict {} .permissive 100 (.ofTypes [1]) 0 []).from?
      (.new (.new (Grammar.eitherNet 2147483647)))).map (fun x => x.1.toOption) =
        some (some 1) := by
    decide +kernel
  obtain ⟨⟨r, s'⟩, hrun, hr⟩ := Option.map_eq_some_iff.mp hanswer
  cases r with
  | error e => cases hr
  | ok alt =>
    exact (hoverflows hlarge Limits.arenaNodes Limits.contextDepth).1 _ s' _ _ _ _ _ _ alt rfl
      (by decide +kernel) hrun

end AdaptiveLL
