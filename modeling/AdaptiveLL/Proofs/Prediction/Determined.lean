import AdaptiveLL.Proofs.Guard
import AdaptiveLL.Proofs.Prediction.Told

/-!
# Threads determine predictions

What a prediction is told to do from some threads on is one thing: the sets and rows it meets may
differ in the order of their configurations and in the numbers of their stacks, but not in anything
that is answered, reported or asked.
-/

namespace AdaptiveLL

/-- The guards of the threads are no disjunctions, as those that a path collects. -/
def Frank (T : Set Thread) : Prop := ∀ t ∈ T, t.1.2.Simple

theorem Frank.reachOf {net : Network} {T : Set Thread} (hT : Frank T) (full : Bool) (v : Symbol) :
    Frank (net.reachOf full v T) := by
  intro u hu
  obtain ⟨d, hd⟩ := Network.tag_of_mem_reachOf hu
  exact hT (u.1, d) hd

/-! ## Sets -/

namespace ConfigSet

variable {g g' : StackGraph} {s s' : ConfigSet}

/-- What is shown of a set: its size and its alternatives. -/
theorem Tidy.summary_eq (hg : g.Sound) (hg' : g'.Sound) (hs : s.Tidy g) (hs' : s'.Tidy g')
    (h : s.threads g = s'.threads g') (hfull : s.fullContext = s'.fullContext) :
    s.summary = s'.summary := by
  have hsize : s.size = s'.size := by
    simpa [toList, size] using (hs.places_perm hg hg' hs' h).length_eq
  have halts : s.alts = s'.alts := AltSet.ext_mem fun a => by
    rw [hs.mem_alts_iff hg, hs'.mem_alts_iff hg', h]
  unfold summary
  rw [hsize, halts, hfull]

theorem Tidy.commonAlt_eq (hg : g.Sound) (hg' : g'.Sound) (hs : s.Tidy g) (hs' : s'.Tidy g')
    (h : s.threads g = s'.threads g') : s.commonAlt = s'.commonAlt := by
  by_cases hone : s.commonAlt = noAlternative
  · by_cases hone' : s'.commonAlt = noAlternative
    · rw [hone, hone']
    · exact ((hs.commonAlt_eq_iff hg hone').mpr (h ▸ (hs'.commonAlt_eq_iff hg' hone').mp rfl))
  · exact ((hs'.commonAlt_eq_iff hg' hone).mpr (h ▸ (hs.commonAlt_eq_iff hg hone).mp rfl)).symm

/-- The guards of an alternative, joined. -/
private theorem guardOf_eq {a : Nat} (hsimple : ∀ c ∈ s.toList, c.guard.Simple) :
    s.guardOf a = if (s.toList.filter (·.alt == a)) = [] then .always
      else Guard.anyOf ((s.toList.filter (·.alt == a)).map Config.guard) := by
  unfold guardOf
  cases hfound : s.toList.filter (·.alt == a) with
  | nil => rfl
  | cons c cs =>
    rw [if_neg (by simp), List.map_cons]
    refine Guard.foldl_or fun x hx => ?_
    rw [← List.map_cons (f := Config.guard), ← hfound] at hx
    obtain ⟨d, hd, rfl⟩ := List.mem_map.mp hx
    exact hsimple d (List.mem_filter.mp hd).1

theorem Tidy.simple (hg : g.Sound) (hs : s.Tidy g) (hT : Frank (s.threads g)) :
    ∀ c ∈ s.toList, c.guard.Simple := by
  intro c hc
  obtain ⟨σ, hσ⟩ := hs.exists_stack hg hc
  exact hT _ (mem_threads_of_mem hc hσ)

/-- **The condition of an alternative** is told by the threads. -/
theorem Tidy.guardOf_eq (hg : g.Sound) (hg' : g'.Sound) (hs : s.Tidy g) (hs' : s'.Tidy g')
    (h : s.threads g = s'.threads g') (hT : Frank (s.threads g)) (a : Nat) :
    s.guardOf a = s'.guardOf a := by
  have hsame : ∀ x, x ∈ (s.toList.filter (·.alt == a)).map Config.guard ↔
      x ∈ (s'.toList.filter (·.alt == a)).map Config.guard := by
    intro x
    have hplaces := fun p => (hs.places_perm hg hg' hs' h).mem_iff (a := p)
    simp only [List.mem_map, List.mem_filter, beq_iff_eq, Config.place, Config.tag] at hplaces ⊢
    constructor
    · rintro ⟨c, ⟨hc, rfl⟩, rfl⟩
      obtain ⟨d, hd, heq⟩ := (hplaces _).mp ⟨c, hc, rfl⟩
      simp only [Prod.mk.injEq] at heq
      exact ⟨d, ⟨hd, heq.2.1⟩, heq.2.2⟩
    · rintro ⟨c, ⟨hc, rfl⟩, rfl⟩
      obtain ⟨d, hd, heq⟩ := (hplaces _).mpr ⟨c, hc, rfl⟩
      simp only [Prod.mk.injEq] at heq
      exact ⟨d, ⟨hd, heq.2.1⟩, heq.2.2⟩
  have hnil : s.toList.filter (·.alt == a) = [] ↔ s'.toList.filter (·.alt == a) = [] := by
    rw [← List.map_eq_nil_iff (f := Config.guard), ← List.map_eq_nil_iff (f := Config.guard),
      List.eq_nil_iff_forall_not_mem, List.eq_nil_iff_forall_not_mem]
    simp only [hsame]
  rw [ConfigSet.guardOf_eq (hs.simple hg hT), ConfigSet.guardOf_eq (hs'.simple hg' (h ▸ hT)),
    Guard.anyOf_congr hsame]
  simp only [hnil]

end ConfigSet

/-! ## Rows -/

namespace Row

variable {g g' : StackGraph} {s s' : ConfigSet}

/-- The answer of a row comes from its set's findings and guards. -/
theorem telling_congr {s s' : ConfigSet} (hunique : s.uniqueAlt = s'.uniqueAlt)
    (hconflict : s.conflicting = s'.conflicting) (hguards : s.hasGuards = s'.hasGuards)
    (hguardOf : ∀ a, s.guardOf a = s'.guardOf a) (count : Nat) :
    { telling s count with configs := s' } = telling s' count := by
  have hchoices : ∀ alts, choicesFor s alts count = choicesFor s' alts count := by
    intro alts
    unfold choicesFor
    simp only [hguardOf]
  unfold telling
  dsimp only
  rw [hunique, hconflict]
  split
  · dsimp only
    rw [hguards]
    split
    · unfold withChoices
      dsimp only
      rw [hchoices, hunique, hconflict]
      split <;> rfl
    · rfl
  · split
    · dsimp only
      rw [hguards]
      split
      · unfold withChoices
        dsimp only
        rw [hchoices, hunique, hconflict]
        split <;> rfl
      · rfl
    · rfl

/-- **Rows that hold the same threads** say the same about them, if the same was found out. -/
theorem Holds.agree {count : Nat} {T : Set Thread} {r r' : Row} (hg : g.Sound) (hg' : g'.Sound)
    (h : r.Holds count T g) (h' : r'.Holds count T g') (hT : Frank T)
    (hunique : r.configs.uniqueAlt = r'.configs.uniqueAlt)
    (hconflict : r.configs.conflicting = r'.configs.conflicting) :
    { r with configs := r'.configs, cells := [] } = { r' with cells := [] } := by
  have hthreads : r.configs.threads g = r'.configs.threads g' := h.threads_eq.trans h'.threads_eq.symm
  have hguards : r.configs.hasGuards = r'.configs.hasGuards := by
    rw [Bool.eq_iff_iff, h.tidy.hasGuards_iff hg, h'.tidy.hasGuards_iff hg', hthreads]
  have htell := telling_congr hunique hconflict hguards
    (h.tidy.guardOf_eq hg hg' h'.tidy hthreads (h.threads_eq.symm ▸ hT)) count
  rw [← h.telling, ← h'.telling] at htell
  exact htell

end Row

namespace Request

variable {r : Request} {T F : Set Thread} {v : Symbol} {stream : TokenStream} {d d' : Deed}
  {asked : List Callback}

/-- What is seen of a row. -/
structure Agree (row row' : Row) : Prop where
  accepting_eq : row.accepting = row'.accepting
  prediction_eq : row.prediction = row'.prediction
  context_eq : row.needsContext = row'.needsContext
  choices_eq : row.choices = row'.choices
  conflicting_eq : row.configs.conflicting = row'.configs.conflicting
  summary_eq : row.configs.summary = row'.configs.summary

/-- Rows met for the same threads look the same. -/
theorem Met.agree {row row' : Row} {g g' : StackGraph} (h : r.Met T v row g)
    (h' : r.Met T v row' g') (hT : Frank T) : Agree row row' := by
  obtain ⟨hunique, hconflict⟩ := h.found.eq h'.found
  have hrows := h.holds.agree h.sound h'.sound h'.holds (hT.reachOf false v) hunique hconflict
  rw [Row.mk.injEq] at hrows
  obtain ⟨-, haccepting, hprediction, -, -, hcontext, hchoices, -⟩ := hrows
  refine ⟨haccepting, hprediction, hcontext, hchoices, hconflict, ?_⟩
  exact h.holds.tidy.summary_eq h.sound h'.sound h'.holds.tidy
    (h.holds.threads_eq.trans h'.holds.threads_eq.symm)
    (h.holds.full_eq.trans h'.holds.full_eq.symm)

private theorem noViable_congr {s s' : ConfigSet} (h : s.summary = s'.summary) (offending : Nat) :
    r.noViable offending s = r.noViable offending s' := by
  unfold noViable
  rw [h]

theorem Agree.answerDeed_eq {row row' : Row} (h : Agree row row') :
    r.answerDeed row stream = r.answerDeed row' stream := by
  unfold answerDeed
  rw [h.choices_eq, h.prediction_eq, h.context_eq, h.conflicting_eq,
    noViable_congr h.summary_eq]

theorem Agree.settledBy_eq {row row' : Row} (h : Agree row row') :
    r.settledBy row = r.settledBy row' := by
  unfold settledBy
  rw [h.choices_eq]

private theorem Agree.fallback_eq {row row' : Row} (h : Agree row row') (stop : Nat) :
    r.fallback row stop = r.fallback row' stop := by
  have halts : row.configs.alts = row'.configs.alts := congrArg ConfigSummary.alts h.summary_eq
  unfold fallback
  rw [h.conflicting_eq, halts]

theorem Agree.turnsAt_iff {row row' : Row} (h : Agree row row') :
    r.TurnsAt row ↔ r.TurnsAt row' := by
  unfold TurnsAt
  rw [h.context_eq]

/-- At a dead end there is one error. -/
theorem Ended.unique {s s' : ConfigSet} {g g' : StackGraph} {full : Bool}
    (hrecover : r.settings.recoverAtRuleEnd = false) (hg : g.Sound) (hg' : g'.Sound)
    (hs : Question.Stage full T s g) (hs' : Question.Stage full T s' g') (h : r.Ended s stream d)
    (h' : r.Ended s' stream d') : d = d' := by
  rw [h hrecover, h' hrecover, noViable_congr (hs.tidy.summary_eq hg hg' hs'.tidy
    (hs.threads_eq.trans hs'.threads_eq.symm) (hs.full_eq.trans hs'.full_eq.symm))]

/-! ## With the call stack -/

theorem fullVerdict_eq {mode : PredictionMode} {s s' : ConfigSet} {g g' : StackGraph}
    (hg : g.Sound) (hg' : g'.Sound) (hs : Question.Stage true T s g)
    (hs' : Question.Stage true T s' g') : fullVerdict? mode s = fullVerdict? mode s' := by
  have hthreads := hs.threads_eq.trans hs'.threads_eq.symm
  have hsubsets : ∀ A, A ∈ s.subsets ↔ A ∈ s'.subsets := fun A => by
    rw [hs.tidy.mem_subsets_iff hg, hs'.tidy.mem_subsets_iff hg', hthreads]
  unfold fullVerdict?
  dsimp only
  rw [hs.tidy.commonAlt_eq hg hg' hs'.tidy hthreads, Subsets.settled_congr hsubsets,
    Subsets.allConflict_congr hsubsets, Subsets.allEqual_congr hsubsets]

private theorem stopDeed_eq {s s' : ConfigSet} {g g' : StackGraph} (hg : g.Sound) (hg' : g'.Sound)
    (hs : Question.Stage true T s g) (hs' : Question.Stage true T s' g') (stop alt : Nat) :
    r.stopDeed s stop alt = r.stopDeed s' stop alt := by
  have hthreads := hs.threads_eq.trans hs'.threads_eq.symm
  have halts : s.alts = s'.alts := congrArg ConfigSummary.alts (hs.tidy.summary_eq hg hg' hs'.tidy
    hthreads (hs.full_eq.trans hs'.full_eq.symm))
  unfold stopDeed
  rw [hs.tidy.commonAlt_eq hg hg' hs'.tidy hthreads, halts]

/-- **A prediction with the call stack does one thing.** -/
theorem FullTold.unique (hrecover : r.settings.recoverAtRuleEnd = false)
    (h : r.FullTold T stream d) (h' : r.FullTold T stream d') : d = d' := by
  induction h with
  | dead hg hs hempty hend =>
    cases h' with
    | dead hg' hs' _ hend' => exact hend.unique hrecover hg hg' hs hs' hend'
    | stop _ _ hne => exact absurd hempty hne.ne_empty
    | next _ _ hne => exact absurd hempty hne.ne_empty
  | stop hg hs hne hverdict =>
    cases h' with
    | dead _ _ hempty => exact absurd hempty hne.ne_empty
    | stop hg' hs' _ hverdict' =>
      rw [fullVerdict_eq hg hg' hs hs', hverdict'] at hverdict
      rw [stopDeed_eq hg hg' hs hs', Option.some.inj hverdict]
    | next hg' hs' _ hverdict' =>
      rw [fullVerdict_eq hg hg' hs hs', hverdict'] at hverdict
      cases hverdict
  | next hg hs hne hverdict _ ih =>
    cases h' with
    | dead _ _ hempty => exact absurd hempty hne.ne_empty
    | stop hg' hs' _ hverdict' =>
      rw [fullVerdict_eq hg hg' hs hs', hverdict'] at hverdict
      cases hverdict
    | next _ _ _ _ hrest => exact ih hrest

/-! ## Along the table -/

/-- **A prediction does one thing.** -/
theorem Told.unique (hrecover : r.settings.recoverAtRuleEnd = false) (hT : Frank T)
    (h : r.Told F asked T stream d) (h' : r.Told F asked T stream d') : d = d' := by
  induction h with
  | dead hg hs hempty hend =>
    cases h' with
    | dead hg' hs' _ hend' => exact hend.unique hrecover hg hg' hs hs' hend'
    | answer hmet => exact absurd hempty hmet.nonempty.ne_empty
    | guarded hmet => exact absurd hempty hmet.nonempty.ne_empty
    | full hmet => exact absurd hempty hmet.nonempty.ne_empty
    | next hmet => exact absurd hempty hmet.nonempty.ne_empty
  | answer hmet hturn haccepting =>
    cases h' with
    | dead _ _ hempty => exact absurd hempty hmet.nonempty.ne_empty
    | answer hmet' => exact (hmet.agree hmet' hT).answerDeed_eq
    | guarded hmet' hturn' => exact absurd ((hmet.agree hmet' hT).turnsAt_iff.mpr hturn') hturn
    | full hmet' hturn' => exact absurd ((hmet.agree hmet' hT).turnsAt_iff.mpr hturn') hturn
    | next hmet' _ haccepting' =>
      rw [(hmet.agree hmet' hT).accepting_eq, haccepting'] at haccepting
      cases haccepting
  | guarded hmet hturn hsettled =>
    cases h' with
    | dead _ _ hempty => exact absurd hempty hmet.nonempty.ne_empty
    | answer hmet' hturn' => exact absurd ((hmet.agree hmet' hT).turnsAt_iff.mp hturn) hturn'
    | guarded hmet' _ hsettled' =>
      have hagree := hmet.agree hmet' hT
      rw [hagree.settledBy_eq, hsettled'] at hsettled
      rw [hagree.choices_eq, Option.some.inj hsettled]
    | full hmet' _ hsettled' =>
      rw [(hmet.agree hmet' hT).settledBy_eq, hsettled'] at hsettled
      cases hsettled
    | next hmet' hturn' => exact absurd ((hmet.agree hmet' hT).turnsAt_iff.mp hturn) hturn'
  | full hmet hturn hsettled hfull =>
    cases h' with
    | dead _ _ hempty => exact absurd hempty hmet.nonempty.ne_empty
    | answer hmet' hturn' => exact absurd ((hmet.agree hmet' hT).turnsAt_iff.mp hturn) hturn'
    | guarded hmet' _ hsettled' =>
      rw [(hmet.agree hmet' hT).settledBy_eq, hsettled'] at hsettled
      cases hsettled
    | full hmet' _ _ hfull' =>
      have hagree := hmet.agree hmet' hT
      rw [hfull.unique hrecover hfull', hagree.fallback_eq, hagree.choices_eq]
    | next hmet' hturn' => exact absurd ((hmet.agree hmet' hT).turnsAt_iff.mp hturn) hturn'
  | next hmet hturn haccepting _ ih =>
    cases h' with
    | dead _ _ hempty => exact absurd hempty hmet.nonempty.ne_empty
    | answer hmet' _ haccepting' =>
      rw [(hmet.agree hmet' hT).accepting_eq, haccepting'] at haccepting
      cases haccepting
    | guarded hmet' hturn' => exact absurd ((hmet.agree hmet' hT).turnsAt_iff.mpr hturn') hturn
    | full hmet' hturn' => exact absurd ((hmet.agree hmet' hT).turnsAt_iff.mpr hturn') hturn
    | next _ _ _ hrest => exact ih (hT.reachOf false _) hrest

end Request

end AdaptiveLL
