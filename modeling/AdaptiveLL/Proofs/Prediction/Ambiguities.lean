import AdaptiveLL.Proofs.Lookups.Safety

/-!
# Reported ambiguities

A prediction with the call stack that stops at a conflict has several alternatives left and takes
the least of them. It reports just this. Unless the mode is `sll`, no other ambiguity is reported
and none before a failure, so there is at most one, and the least of its alternatives is the answer.

In the mode `sll` a conflict is reported before the guards are put to the host. The answer may then
be another alternative, and there may be none.
-/

namespace AdaptiveLL

open Run (Untouched)

/-! ## Verdicts on conflicts -/

/-- A set with two members has at least that size. -/
theorem AltSet.two_le_size {s : AltSet} {a b : Nat} (ha : a ∈ s) (hb : b ∈ s) (hne : a ≠ b) :
    2 ≤ s.size := by
  rw [AltSet.mem_def] at ha hb
  unfold AltSet.size
  match hl : s.toList with
  | [] => simp [hl] at ha
  | [c] =>
    rw [hl, List.mem_singleton] at ha hb
    exact absurd (ha.trans hb.symm) hne
  | _ :: _ :: _ => simp

namespace ConfigSet

variable {s : ConfigSet} {x : Extent} {size : Nat}

/-- **What all subsets settle for** is the least alternative of the set. -/
theorem min?_alts (h : Subsets.settled s.subsets ≠ noAlternative) :
    s.alts.min? = some (Subsets.settled s.subsets) := by
  obtain ⟨⟨A, hA, hmin⟩, hall⟩ := (Subsets.settled_eq_iff h).mp rfl
  refine AltSet.min?_eq_some_iff.mpr ⟨?_, fun b hb => ?_⟩
  · obtain ⟨-, hmem⟩ := mem_subset_alts hA
    exact mem_alts_iff.mpr (hmem _ (AltSet.min?_eq_some_iff.mp hmin).1)
  · obtain ⟨c, hc, rfl⟩ := mem_alts_iff.mp hb
    obtain ⟨B, hB, hcB⟩ := exists_subset hc
    cases hminB : B.min? with
    | none => exact absurd hcB (AltSet.min?_eq_none_iff.mp hminB c.alt)
    | some m =>
      rw [← hall B hB m hminB]
      exact (AltSet.min?_eq_some_iff.mp hminB).2 c.alt hcB

/-- Where no alternative is common to all threads, there are several. -/
theorem Alive.two_le_alts (hs : s.Alive x size) (hcommon : s.commonAlt = noAlternative) :
    2 ≤ s.alts.size := by
  have hpos : ∀ c ∈ s.toList, c.alt ≠ noAlternative := fun c hc =>
    Nat.ne_of_gt (hs.inRange.configs c hc).hasAlt.1
  obtain ⟨c, hc⟩ := hs.nonempty
  -- Otherwise all threads speak for one alternative, which would be the common one.
  by_contra hsmall
  have hsame : ∀ d ∈ s.toList, ∀ d' ∈ s.toList, d.alt = d'.alt := by
    intro d hd d' hd'
    by_contra hne
    exact hsmall (AltSet.two_le_size (mem_alts_iff.mpr ⟨d, hd, rfl⟩)
      (mem_alts_iff.mpr ⟨d', hd', rfl⟩) hne)
  unfold ConfigSet.commonAlt at hcommon
  cases hl : s.toList with
  | nil => simp [hl] at hc
  | cons d rest =>
    rw [hl] at hpos hsame hcommon
    have hall : rest.all (·.alt == d.alt) = true := by
      rw [List.all_eq_true]
      intro d' hd'
      exact beq_iff_eq.mpr (hsame d' (List.mem_cons_of_mem _ hd') d List.mem_cons_self)
    dsimp only at hcommon
    rw [if_pos hall] at hcommon
    exact hpos d List.mem_cons_self hcommon

/-- **A conflict is settled for its least alternative.** -/
theorem Alive.min?_alts_of_fullVerdict (hs : s.Alive x size) {mode : PredictionMode} {a : Nat}
    (hcommon : s.commonAlt = noAlternative) (h : Request.fullVerdict? mode s = some a) :
    s.alts.min? = some a := by
  unfold Request.fullVerdict? at h
  dsimp only at h
  rw [if_neg (not_not_intro hcommon)] at h
  split at h
  · split at h
    · next hequal =>
      rw [Bool.and_eq_true] at hequal
      exact Option.some.inj h ▸ min?_alts (hs.settled_of_allEqual hequal.2)
    · cases h
  · split at h
    · next hsettled => exact Option.some.inj h ▸ min?_alts hsettled
    · cases h

end ConfigSet

/-! ## Truthful reports -/

/-- The ambiguities among reports. -/
def ambiguities (reports : List Report) : List Report :=
  reports.filter (·.kind == .ambiguity)

/-- **Truthful reports about a prediction:** at most one ambiguity, of several alternatives, the
least of which is the answer. -/
structure Truthful (answer : Except PredictionError Nat) (reports : List Report) : Prop where
  once : (ambiguities reports).length ≤ 1
  answered : ∀ rep ∈ ambiguities reports, answer = .ok rep.prediction
  least : ∀ rep ∈ ambiguities reports, rep.alts.min? = some rep.prediction
  several : ∀ rep ∈ ambiguities reports, 2 ≤ rep.alts.size

namespace Truthful

variable {answer : Except PredictionError Nat} {reports : List Report} {rep : Report}

/-- Without an ambiguity there is nothing to be true. -/
theorem of_none (h : ambiguities reports = []) : Truthful answer reports := by
  constructor <;> simp [h]

/-- Only the ambiguities matter. -/
theorem of_ambiguities_eq {reports' : List Report} (h : Truthful answer reports)
    (hsame : ambiguities reports' = ambiguities reports) : Truthful answer reports' := by
  obtain ⟨honce, hanswered, hleast, hseveral⟩ := h
  rw [← hsame] at honce hanswered hleast hseveral
  exact ⟨honce, hanswered, hleast, hseveral⟩

theorem cons (hkind : rep.kind ≠ .ambiguity) (h : Truthful answer reports) :
    Truthful answer (rep :: reports) := by
  apply h.of_ambiguities_eq
  simp [ambiguities, hkind]

/-- Before a failure no ambiguity was reported. -/
theorem none_of_error {e : PredictionError} (h : Truthful (.error e) reports) :
    ambiguities reports = [] := by
  apply List.eq_nil_iff_forall_not_mem.mpr
  intro rep hrep
  cases h.answered rep hrep

theorem append {e : PredictionError} {reports' : List Report} (h : Truthful (.error e) reports)
    (h' : Truthful answer reports') : Truthful answer (reports ++ reports') := by
  have hnone := h.none_of_error
  apply h'.of_ambiguities_eq
  unfold ambiguities at hnone ⊢
  rw [List.filter_append, hnone, List.nil_append]

end Truthful

/-! ## Deliveries -/

namespace Prediction

variable {α β : Type}

/-- **What a part of a prediction delivers, where it ends:** its answer and its reports satisfy
`Q`. -/
def Delivers (m : Prediction α) (s : Session)
    (Q : Except PredictionError α → List Report → Prop) : Prop :=
  m.Ensures s fun r t => ∃ reports, t.recorder = reports.foldl Recorder.record s.recorder ∧
    Q r reports

namespace Delivers

variable {m : Prediction α} {f : α → Prediction β} {s : Session}
  {Q Q' : Except PredictionError α → List Report → Prop}
  {R : Except PredictionError β → List Report → Prop}
  {I : Except PredictionError α → Session → Prop}

theorem pure {a : α} (h : Q (.ok a) []) : Delivers (pure a) s Q :=
  Run.Ensures.pure ⟨[], rfl, h⟩

theorem throw {e : PredictionError} (h : Q (.error e) []) :
    Delivers (throw e : Prediction α) s Q :=
  Run.Ensures.throw ⟨[], rfl, h⟩

/-- A part that reports nothing. -/
theorem silent {P : α → Prop} (h : Untouched Session.recorder m P) (hQ : ∀ r, Q r []) :
    Delivers m s Q :=
  (h s).mono fun r _ ⟨ht, _⟩ => ⟨[], ht, hQ r⟩

theorem mono (h : Delivers m s Q) (himp : ∀ r reports, Q r reports → Q' r reports) :
    Delivers m s Q' :=
  Run.Ensures.mono h fun r _ ⟨reports, ht, hr⟩ => ⟨reports, ht, himp r reports hr⟩

/-- Two parts in a row: the reports of the second one come after those of the first one. What else
the first one ensures is known when the second one begins. -/
theorem bind (h : Delivers m s Q) (hI : m.Ensures s I)
    (hok : ∀ a t reports, Q (.ok a) reports → I (.ok a) t →
      Delivers (f a) t fun r reports' => R r (reports ++ reports'))
    (herr : ∀ e reports, Q (.error e) reports → R (.error e) reports) :
    Delivers (m >>= f) s R := by
  refine (Run.Ensures.and h hI).bind ?_ ?_
  · rintro a t ⟨⟨reports, ht, hQ⟩, ha⟩
    refine Run.Ensures.mono (hok a t reports hQ ha) ?_
    rintro r u ⟨reports', hu, hR⟩
    refine ⟨reports ++ reports', ?_, hR⟩
    rw [List.foldl_append, ← ht, hu]
  · rintro e t ⟨⟨reports, ht, hQ⟩, -⟩
    exact ⟨reports, ht, herr e reports hQ⟩

/-- A first part that reports nothing. -/
theorem after {P : α → Prop} (hm : Untouched Session.recorder m P) (hI : m.Ensures s I)
    (hok : ∀ a t, I (.ok a) t → Delivers (f a) t R) (herr : ∀ e, R (.error e) []) :
    Delivers (m >>= f) s R := by
  refine bind (Q := fun _ reports => reports = []) (silent hm fun _ => rfl) hI ?_ ?_
  · rintro a t _ rfl ha
    exact hok a t ha
  · rintro e _ rfl
    exact herr e

/-- A first part that reports nothing, of which nothing else matters. -/
theorem skip {P : α → Prop} (hm : Untouched Session.recorder m P)
    (hok : ∀ a t, Delivers (f a) t R) (herr : ∀ e, R (.error e) []) : Delivers (m >>= f) s R :=
  after (I := fun _ _ => True) hm (fun _ _ _ => trivial) (fun a t _ => hok a t) herr

/-- The delivery of a report. -/
theorem deliver_bind {rep : Report} {f : PUnit → Prediction β}
    (h : Delivers (f ⟨⟩) (s.deliver rep) fun r reports => R r (rep :: reports)) :
    Delivers (modifyThe Session (·.deliver rep) >>= f) s R := by
  refine Run.Ensures.modify_bind (Run.Ensures.mono h ?_)
  rintro r t ⟨reports, ht, hR⟩
  exact ⟨rep :: reports, by rw [ht, s.deliver_recorder, List.foldl_cons], hR⟩

/-- A change of the session that reports nothing. -/
theorem modify_bind {g : Session → Session} {f : PUnit → Prediction β}
    (hg : (g s).recorder = s.recorder) (h : Delivers (f ⟨⟩) (g s) R) :
    Delivers (modifyThe Session g >>= f) s R := by
  refine Run.Ensures.modify_bind (Run.Ensures.mono h ?_)
  rintro r t ⟨reports, ht, hR⟩
  exact ⟨reports, hg ▸ ht, hR⟩

theorem get_bind {f : Session → Prediction β} (h : Delivers (f s) s R) :
    Delivers (get >>= f) s R :=
  Run.Ensures.get_bind h

theorem map {g : α → β} (h : Delivers m s fun r => R (r.map g)) : Delivers (g <$> m) s R := by
  rw [← bind_pure_comp]
  refine bind h (I := fun _ _ => True) (fun _ _ _ => trivial) (fun a t reports ha _ => ?_)
    fun e reports he => he
  apply pure
  rw [List.append_nil]
  exact ha

theorem outcome {Q : Except PredictionError (Except PredictionError α) → List Report → Prop}
    (h : Delivers m s fun r => Q (.ok r)) : Delivers m.outcome s Q :=
  Run.Ensures.outcome h

/-- What a round of a loop delivers: nothing, if the loop goes on. -/
def Round (R : Except PredictionError β → List Report → Prop) :
    Except PredictionError (α ⊕ β) → List Report → Prop
  | .ok (.inl _), reports => reports = []
  | .ok (.inr b), reports => R (.ok b) reports
  | .error e, reports => R (.error e) reports

/-- **The rule of the loop.** The invariant `I` holds before every round. -/
theorem loop {step : α → Prediction (α ⊕ β)} (I : α → Session → Prop)
    (hkeep : ∀ a t, I a t → (step a).Ensures t fun r u => ∀ a', r = .ok (.inl a') → I a' u)
    (hstep : ∀ a t, I a t → Delivers (step a) t (Round R))
    {fuel : Nat} {a : α} (hI : I a s) : Delivers (Run.loop step fuel a) s R := by
  refine Run.Ensures.loop (fun a t => I a t ∧ t.recorder = s.recorder) ?_ ⟨hI, rfl⟩
  rintro a t ⟨hIt, ht⟩
  refine (Run.Ensures.and (hkeep a t hIt) (hstep a t hIt)).mono ?_
  rintro (e | (a' | b)) u ⟨hkept, reports, hu, hr⟩
  · exact ⟨reports, ht ▸ hu, hr⟩
  · obtain rfl : reports = [] := hr
    exact ⟨hkept a' rfl, hu.trans ht⟩
  · exact ⟨reports, ht ▸ hu, hr⟩

end Delivers

/-! ## Silent parts -/

variable {q : Question} {τ : Type} {view : Session → τ} [Session.Aside view]

theorem setTable_silent (t : Table) :
    Untouched view (Prediction.setTable q t) fun _ => True :=
  .modify (fun s => Session.Aside.cache s _) trivial

theorem install_silent (row : Row) :
    Untouched view (Prediction.install q row) fun _ => True := by
  rw [Request.install_eq]
  exact table_untouched.bind fun t _ => (setTable_silent _).bind fun _ _ =>
    (notes_untouched _).bind fun _ _ => .pure trivial

end Prediction

namespace Request

open Prediction

variable {r : Request} {s : Session} {stream : TokenStream}

section Aside

variable {τ : Type} {view : Session → τ} [Session.Aside view]

theorem target_silent (p : Place) (v : Symbol) :
    Untouched view (r.target p v) fun _ => True := by
  rw [target_eq]
  refine table_untouched.bind fun t _ => (targetRow_untouched _ v).bind fun row _ => ?_
  cases row with
  | none =>
    unfold keepRow
    dsimp only
    split
    · exact (setTable_silent _).bind fun _ _ => .pure trivial
    · exact .pure trivial
  | some row =>
    unfold keepRow
    dsimp only
    split
    · exact .pure trivial
    · exact (install_silent row).bind fun place _ => table_untouched.bind fun t _ =>
        (setTable_silent _).bind fun _ _ => .pure trivial

theorem startPlace_silent : Untouched view r.startPlace fun _ => True := by
  rw [startPlace_eq]
  refine table_untouched.bind fun t _ => ?_
  cases (if r.settings.useCache then t.startRow else none) with
  | some n => exact .pure trivial
  | none =>
    refine (probe_untouched _).bind fun configs _ => ?_
    unfold keepStart
    split
    · exact .pure trivial
    · exact (install_silent _).bind fun place _ => table_untouched.bind fun t _ =>
        (setTable_silent _).bind fun _ _ => .pure trivial

end Aside

theorem next_silent (p : Place) (v : Symbol) :
    Untouched Session.recorder (r.next p v) fun _ => True := by
  rw [next_eq]
  refine table_untouched.bind fun t _ => ?_
  cases (if r.settings.useCache then t.cell? p v else none) with
  | some c =>
    refine (count_untouched _).bind fun _ _ => ?_
    cases c with
    | row n => exact .pure trivial
    | dead => exact .pure trivial
  | none =>
    exact (count_untouched _).bind fun _ _ => (logMiss_untouched p v).bind fun _ _ =>
      target_silent p v

/-! ## With the call stack -/

/-- **What is reported at the end of a prediction with the call stack is true.** -/
theorem concludeFull_truthful {mode : PredictionMode} {x : Extent} {size : Nat} {e : FullEnd}
    (he : e.InRange mode x size) : (r.concludeFull e).Delivers s Truthful := by
  rw [concludeFull_eq]
  refine .skip (count_untouched _) (fun _ _ => ?_) fun _ => .of_none rfl
  split
  · split
    · refine .skip (count_untouched _) (fun _ _ => ?_) fun _ => .of_none rfl
      exact .deliver_bind (.pure (.of_none rfl))
    · exact .pure (.of_none rfl)
  · next hunique =>
    have hcommon : e.configs.commonAlt = noAlternative := by
      rw [he.unique_eq] at hunique
      simpa using hunique
    have hleast := he.alive.min?_alts_of_fullVerdict hcommon he.verdict
    have hseveral := he.alive.two_le_alts hcommon
    unfold reportAmbiguity
    rw [bind_assoc]
    refine .skip (count_untouched _) (fun _ _ => ?_) fun _ => .of_none rfl
    refine .deliver_bind (.pure ?_)
    constructor <;> simp [ambiguities, report, hleast, hseveral]

theorem predictFull_truthful (hr : r.Sound) (hs : s.cache.InRange r.net) {start : ConfigSet}
    (hstart : start.InRange r.extent s.cache.graph.size) :
    (r.predictFull start).Delivers s Truthful := by
  rw [predictFull_eq]
  refine .after (.loop fullStep_untouched) (strictFullLoop_safe hr hs hstart).ensures
    (fun last t ⟨_, _, hlast⟩ => ?_) fun _ => .of_none rfl
  cases last with
  | inl dead => exact .silent (deadEnd_untouched _) fun _ => .of_none rfl
  | inr e => exact concludeFull_truthful (hlast _ rfl)

/-- **What is reported after a conflict is true.** -/
theorem escalate_truthful (hr : r.Sound) (hs : s.cache.InRange r.net) {row : Row}
    (hrow : row.InRange r.extent s.cache.graph.size) :
    (r.escalate row stream).Delivers s Truthful := by
  have hpasses : Untouched Session.cache (r.passingOf row) fun A => ∀ a ∈ A, r.extent.HasAlt a :=
    passingOf_untouched hrow.choices
  rw [escalate_eq]
  refine .after (passingOf_untouched hrow.choices) (hpasses.safe hs).ensures (fun passing t ⟨ht, _⟩ => ?_)
    fun _ => .of_none rfl
  -- Begun again with the call stack: the report of the attempt names no alternative, and all that
  -- could be untrue is reported by the loop over the input.
  have hfull : Delivers (Prediction.count r.toQuestion (fun c =>
        { c with fallbacks := c.fallbacks + 1 }) >>= fun _ =>
      (modify (·.deliver (r.report .fullContext stream.index
        (row.configs.conflicting.getD row.configs.alts) false noAlternative)) :
          Prediction PUnit) >>= fun _ =>
      Prediction.grow r.toQuestion (StackGraph.ofCallers r.net r.callers) >>= fun stack =>
      Prediction.probe r.toQuestion (r.startSet true stack) >>= r.predictFull) t Truthful := by
    refine .after (count_untouched _) ((count_untouched _).safe ht).ensures
      (fun _ t₁ ⟨ht₁, _⟩ => .deliver_bind ?_) fun _ => .of_none rfl
    have ht₂ : ∀ rep, (t₁.deliver rep).cache.InRange r.net := by
      intro rep
      rw [t₁.deliver_cache]
      exact ht₁
    refine .after (grow_untouched _) (strictGrow_safe (ht₂ _) (StackGraph.strictOfCallers_safe
      hr.consistent (ht₂ _).graph r.callers)).ensures (fun stack t₃ ⟨ht₃, _, hstack⟩ => ?_)
      fun _ => .of_none rfl
    refine .after (probe_untouched _) (strictProbe_safe ht₃ (Question.strictStartSet_safe
      hr.consistent hr.entry_lt ht₃.graph true (hstack _ rfl))).ensures
      (fun start t₄ ⟨ht₄, _, hstart⟩ => ?_) fun _ => .of_none rfl
    exact (predictFull_truthful hr ht₄ (hstart _ rfl)).mono fun _ _ h => h.cons nofun
  unfold turn
  -- A single alternative whose guard passes is answered without a report.
  rcases passing.toList with _ | ⟨a, _ | ⟨b, l⟩⟩
  · exact hfull
  · exact .pure (.of_none rfl)
  · exact hfull

/-! ## Along the table -/

/-- **What a step along the table reports is true,** unless conflicts are settled without the call
stack. A step that goes on reports nothing. -/
theorem step_truthful (hr : r.Sound) (hs : s.cache.InRange r.net) {p : Point}
    (hp : p.place.InRange r.extent s.cache.graph.size) (hmode : r.settings.mode ≠ .sll) :
    (r.step p).Delivers s (Delivers.Round Truthful) := by
  have hround : ∀ {m : Prediction Nat} {t : Session}, m.Delivers t Truthful →
      Delivers (.inr <$> m : Prediction (Point ⊕ Nat)) t (Delivers.Round Truthful) := by
    intro m t hm
    refine .map (hm.mono fun a reports ha => ?_)
    cases a <;> exact ha
  rw [step_eq]
  refine .after (checkLookahead_untouched _) ((checkLookahead_untouched _).safe hs).ensures
    (fun _ s₁ ⟨hs₁, hle₁, _⟩ => ?_) fun _ => .of_none rfl
  refine .after (next_silent _ _) (strictNext_safe hr hs₁ (hp.mono hle₁) _).ensures
    (fun next s₂ ⟨hs₂, _, hnext⟩ => ?_) fun _ => .of_none rfl
  cases next with
  | none =>
    refine .skip (count_untouched _) (fun _ _ => ?_) fun _ => .of_none rfl
    refine .skip table_untouched (fun t _ => ?_) fun _ => .of_none rfl
    exact hround (.silent (deadEnd_untouched _) fun _ => .of_none rfl)
  | some place =>
    refine .after table_untouched (strictTable_safe hs₂ hr.entry_eq).ensures
      (fun t s₃ ⟨hs₃, hle₃, ht⟩ => ?_) fun _ => .of_none rfl
    have hrow := (ht t rfl).2.row ((hnext _ rfl place rfl).mono hle₃)
    -- A conflict is left to the callers, so a row that answers here is not in conflict.
    split
    · refine .after (count_untouched _) ((count_untouched _).safe hs₃).ensures
        (fun _ s₄ ⟨hs₄, hle₄, _⟩ => ?_) fun _ => .of_none rfl
      exact hround (escalate_truthful hr hs₄ (hrow.mono hle₄))
    next hsettled =>
    split
    · next haccepting =>
      refine .skip (count_untouched _) (fun _ _ => ?_) fun _ => .of_none rfl
      have hcontext : (t.row place).needsContext = false := by
        simpa [hmode] using hsettled
      unfold conclude
      simp only [hcontext, Bool.false_and, Bool.false_eq_true, if_false, pure_bind]
      exact hround (.silent (answer_untouched (hrow.prediction haccepting) hrow.choices) fun _ =>
        .of_none rfl)
    · exact .pure rfl

/-- **What an attempt reports is true.** -/
theorem attempt_truthful (hr : ∀ entry, r.net.entries[r.decision]? = some entry → r.Sound)
    (hs : s.cache.InRange r.net) (hmode : r.settings.mode ≠ .sll) :
    r.attempt.Delivers s Truthful := by
  rw [attempt_eq]
  refine .get_bind ?_
  split
  · exact .throw (.of_none rfl)
  · next hd =>
    have hr := hr _ (hs.entry_eq (Nat.lt_of_not_le hd))
    refine .after startPlace_silent (strictStartPlace_safe hr hs).ensures
      (fun place t ⟨ht, _, hplace⟩ => ?_) fun _ => .of_none rfl
    refine .loop (fun p u => u.cache.InRange r.net ∧
      p.place.InRange r.extent u.cache.graph.size) ?_ ?_ ⟨ht, hplace _ rfl⟩
    · rintro p u ⟨hu, hp⟩
      exact (strictStep_safe hr hu hp).ensures.mono fun _ w ⟨hw, _, hnext⟩ p' hp' =>
        ⟨hw, hnext _ hp'⟩
    · rintro p u ⟨hu, hp⟩
      exact step_truthful hr hu hp hmode

end Request

/-! ## Whole predictions -/

namespace Session

open Prediction

variable {net : Network} {s : Session} {decision : Nat} {settings : PredictionSettings}

/-- The outcome of a prediction, about which the reports are true. -/
def TruthfulOutcome (outcome : Except PredictionError (Except PredictionError Nat))
    (reports : List Report) : Prop :=
  ∃ result, outcome = .ok result ∧ Truthful result reports

private theorem outcome_truthful {r : Request}
    (hr : ∀ entry, r.net.entries[r.decision]? = some entry → r.Sound)
    (hs : s.cache.InRange r.net) (hmode : r.settings.mode ≠ .sll) :
    Delivers r.attempt.outcome s TruthfulOutcome :=
  .outcome ((Request.attempt_truthful hr hs hmode).mono fun result _ h => ⟨result, rfl, h⟩)

/-- A second attempt adds its reports to those of the first one, which has failed. -/
private theorem again_truthful {r : Request}
    (hr : ∀ entry, r.net.entries[r.decision]? = some entry → r.Sound)
    (hs : s.cache.InRange r.net) (hmode : r.settings.mode ≠ .sll) (seen : Nat)
    {first : Except PredictionError Nat} {reports : List Report} (hfirst : Truthful first reports) :
    (again r seen first).Delivers s fun outcome reports' =>
      TruthfulOutcome outcome (reports ++ reports') := by
  have hsame : Delivers (pure first) s fun outcome reports' =>
      TruthfulOutcome outcome (reports ++ reports') := by
    apply Delivers.pure
    rw [List.append_nil]
    exact ⟨first, rfl, hfirst⟩
  unfold again
  cases first with
  | ok a => exact hsame
  | error e =>
    dsimp only
    split
    · have hrenew : (s.renew seen).recorder = s.recorder := by
        unfold renew
        split <;> rfl
      apply Delivers.modify_bind hrenew
      refine (outcome_truthful hr (renew_inRange hs seen) hmode).mono ?_
      rintro _ reports' ⟨result, rfl, hresult⟩
      exact ⟨result, rfl, hfirst.append hresult⟩
    · exact hsame

private theorem close_truthful {stream : TokenStream} {result : Except PredictionError Nat}
    {reports : List Report} (h : Truthful result reports) :
    (close decision stream result).Delivers s fun answer reports' =>
      Truthful answer (reports ++ reports') := by
  unfold close
  cases result with
  | ok a =>
    apply Delivers.pure
    rwa [List.append_nil]
  | error e =>
    refine .modify_bind rfl (.modify_bind rfl (.throw ?_))
    rwa [List.append_nil]

/-- **The ambiguity that a prediction reports is that of its answer,** unless conflicts are settled
without the call stack. -/
theorem predict_truthful (hcheck : net.check = .ok ()) (hs : s.cache.Lived net)
    (hmode : settings.mode ≠ .sll) (host : Oracle) (fuel : Nat) (stream : TokenStream)
    (decision : Nat) (callers : List StateId) :
    (predict settings host fuel stream decision callers).Delivers s Truthful := by
  have hnet := Network.consistent_of_check hcheck
  have hindexed := Network.indexed_of_check hcheck
  have hs := hs.inRange hnet hindexed
  obtain rfl : s.cache.net = net := hs.net_eq
  rw [predict_eq]
  refine .modify_bind rfl (.get_bind (.get_bind ?_))
  generalize hs₁ : s.count decision _ = s₁
  have hcache : s₁.cache = s.cache := by rw [← hs₁, count_cache]
  rw [← hcache] at hnet hindexed hs
  have hr := request_sound hnet hindexed hs settings host fuel stream decision callers
  refine .bind (outcome_truthful (r := s₁.request settings host fuel stream decision callers) hr hs
    hmode) (outcome_safe (r := s₁.request settings host fuel stream decision callers) hr hs).ensures
    ?_ ?_
  · rintro first s₂ reports ⟨_, hfirst, htrue⟩ ⟨hs₂, -⟩
    obtain rfl := Except.ok.inj hfirst
    refine .bind (again_truthful hr hs₂ hmode _ htrue) (I := fun _ _ => True)
      (fun _ _ _ => trivial) ?_ ?_
    · rintro result s₃ reports' ⟨_, hresult, htrue'⟩ -
      obtain rfl := Except.ok.inj hresult
      simpa only [List.append_assoc] using close_truthful htrue'
    · rintro e reports' ⟨_, he, _⟩
      cases he
  · rintro e reports ⟨_, he, _⟩
    cases he

/-- Three ways to an item are reported, and the answer is the first one. -/
theorem items_predict_truthful : ∃ r s' reports,
    (predict {} .permissive 100 (.ofTypes [1]) 0 []).from? (.new (.new Grammar.itemsNet)) =
        some (r, s') ∧ r.toOption = some 1 ∧
      s'.recorder = reports.foldl Recorder.record (new (.new Grammar.itemsNet)).recorder ∧
      Truthful r reports ∧ (ambiguities s'.recorder.toList).map (·.alts.toList) = [[1, 2, 3]] := by
  have hends : ((predict {} .permissive 100 (.ofTypes [1]) 0 []).from?
      (.new (.new Grammar.itemsNet))).map (fun p =>
        (p.1.toOption, (ambiguities p.2.recorder.toList).map (·.alts.toList))) =
          some (some 1, [[1, 2, 3]]) := by
    decide +kernel
  obtain ⟨⟨r, s'⟩, hrun, heq⟩ := Option.map_eq_some_iff.mp hends
  obtain ⟨hanswer, halts⟩ := Prod.mk.inj heq
  have hlived : (new (.new Grammar.itemsNet)).cache.Lived Grammar.itemsNet :=
    .new _ _
  have hdelivers : (predict {} .permissive 100 (.ofTypes [1]) 0 []).Delivers
      (new (.new Grammar.itemsNet)) Truthful :=
    predict_truthful Grammar.itemsNet_check hlived (by decide) _ _ _ _ _
  obtain ⟨reports, hreports, htruthful⟩ := hdelivers r s' hrun
  exact ⟨r, s', reports, hrun, hanswer, hreports, htruthful, halts⟩

/-- In the mode `sll` the report names no alternative, where the guards leave the second one. -/
example : ((predict { mode := .sll } (⟨fun _ _ _ => false, fun _ => true⟩ : Host) 100 (.ofTypes [1])
    0 []).from? (.new (.new Grammar.itemsNet))).map (fun (r, s) =>
      (r.toOption, (ambiguities s.recorder.toList).map Report.prediction)) =
        some (some 2, [noAlternative]) := by
  decide +kernel

end Session

end AdaptiveLL
