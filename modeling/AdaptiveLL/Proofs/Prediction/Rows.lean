import AdaptiveLL.Prediction.Choices
import AdaptiveLL.Proofs.Prediction.Reach

/-!
# What rows tell

A row is made of a configuration set and of what was found out about it: the only alternative it
speaks for, or the alternatives in conflict. `Found` says what there is to find, as a function of
the threads of the set, and `Row.telling` what the row says then. A row *holds* some threads if it
says no more than that about a set with these threads. Where no guards count, a row that answers
says the only alternative left.
-/

namespace AdaptiveLL

open StackGraph (Grows Grown Sound)

/-! ## Findings -/

/-- The threads without their guards; of those that fall together the shorter ones are kept. -/
def bareOf (T : Set Thread) : Set Thread :=
  trim true {t | ∃ guard, ((t.1.1, guard), t.2) ∈ T ∧ t.1.2 = .always}

open Classical in
/-- The threads whose conflicts count: without recourse to the call stack the guards do not. -/
noncomputable def weighedOf (mode : PredictionMode) (T : Set Thread) : Set Thread :=
  if mode = .sll ∧ ∃ t ∈ T, t.1.2.isAlways = false then bareOf T else T

/-- **A prediction without the call stack stops at the threads:** all have finished their rule, or
their alternatives are in conflict. -/
def Closes (net : Network) (mode : PredictionMode) (T : Set Thread) : Prop :=
  (∀ t ∈ T, net.isStop t.2.1 = true) ∨ Stuck (weighedOf mode T)

/-- **What was found out** about a set with the threads `T`. -/
structure Found (net : Network) (mode : PredictionMode) (T : Set Thread) (s : ConfigSet) :
    Prop where
  unique : ∀ a, Speaks T a → s.uniqueAlt = a ∧ s.conflicting = none
  several : (¬∃ a, Speaks T a) → s.uniqueAlt = noAlternative
  conflict : (¬∃ a, Speaks T a) → Closes net mode T →
    ∃ A, s.conflicting = some A ∧ ∀ a, a ∈ A ↔ ∃ t ∈ T, t.1.1 = a
  opens : (¬∃ a, Speaks T a) → ¬Closes net mode T → s.conflicting = none

/-- Nothing was found out yet. -/
def ConfigSet.Fresh (s : ConfigSet) : Prop := s.uniqueAlt = noAlternative ∧ s.conflicting = none

/-- What there is to find does not depend on the set. -/
theorem Found.eq {net : Network} {mode : PredictionMode} {T : Set Thread} {s s' : ConfigSet}
    (h : Found net mode T s) (h' : Found net mode T s') :
    s.uniqueAlt = s'.uniqueAlt ∧ s.conflicting = s'.conflicting := by
  by_cases hone : ∃ a, Speaks T a
  · obtain ⟨a, ha⟩ := hone
    obtain ⟨h₁, h₂⟩ := h.unique a ha
    obtain ⟨h₁', h₂'⟩ := h'.unique a ha
    exact ⟨h₁.trans h₁'.symm, h₂.trans h₂'.symm⟩
  · refine ⟨(h.several hone).trans (h'.several hone).symm, ?_⟩
    by_cases hends : Closes net mode T
    · obtain ⟨A, hA, hmem⟩ := h.conflict hone hends
      obtain ⟨B, hB, hmem'⟩ := h'.conflict hone hends
      rw [hA, hB, AltSet.ext_mem fun a => (hmem a).trans (hmem' a).symm]
    · rw [h.opens hone hends, h'.opens hone hends]

theorem Found.congr {net : Network} {mode : PredictionMode} {T : Set Thread} {s s' : ConfigSet}
    (h : Found net mode T s) (hunique : s'.uniqueAlt = s.uniqueAlt)
    (hconflict : s'.conflicting = s.conflicting) : Found net mode T s' := by
  refine ⟨fun a ha => ?_, fun hone => ?_, fun hone hends => ?_, fun hone hends => ?_⟩
  · rw [hunique, hconflict]
    exact h.unique a ha
  · rw [hunique]
    exact h.several hone
  · rw [hconflict]
    exact h.conflict hone hends
  · rw [hconflict]
    exact h.opens hone hends

/-- The prediction goes on exactly from sets about which there is nothing to find. -/
theorem Found.fresh_iff {net : Network} {mode : PredictionMode} {T : Set Thread} {s : ConfigSet}
    (hT : Proper T) (h : Found net mode T s) :
    s.Fresh ↔ (¬∃ a, Speaks T a) ∧ ¬Closes net mode T := by
  constructor
  · rintro ⟨hunique, hconflict⟩
    have hone : ¬∃ a, Speaks T a := by
      rintro ⟨a, ha⟩
      obtain ⟨t, ht⟩ := ha.1
      refine hT t ht ?_
      rw [ha.2 t ht, ← (h.unique a ha).1, hunique]
    refine ⟨hone, fun hends => ?_⟩
    obtain ⟨A, hA, _⟩ := h.conflict hone hends
    rw [hconflict] at hA
    cases hA
  · rintro ⟨hone, hends⟩
    exact ⟨h.several hone, h.opens hone hends⟩

/-! ## Stopping -/

/-- Threads have no more places without their guards. -/
private theorem crowded_of_bare {room : Nat} {T : Set Thread}
    (h : Crowded room {t | ∃ guard, ((t.1.1, guard), t.2) ∈ T ∧ t.1.2 = .always}) :
    Crowded room T := by
  have hsub : placesOf {t : Thread | ∃ guard, ((t.1.1, guard), t.2) ∈ T ∧ t.1.2 = .always} ⊆
      (fun p : StateId × Tag => (p.1, p.2.1, Guard.always)) '' placesOf T := by
    rintro _ ⟨⟨⟨a, _⟩, p, σ⟩, ⟨guard, ht, rfl⟩, rfl⟩
    exact ⟨(p, a, guard), ⟨_, ht, rfl⟩, rfl⟩
  exact lt_of_lt_of_le h ((Set.encard_le_encard hsub).trans (Set.encard_image_le _ _))

/-- Only nodes can be wanting: a set does not get larger without its guards. -/
private theorem withoutGuards_grows {g : StackGraph} (hg : g.Sound) {s : ConfigSet}
    {T : Set Thread} (hs : Question.Stage false T s g) :
    Grows s.withoutGuards g (fun s' g' => s'.Tidy g' ∧ s'.threads g' = bareOf T)
      (·.resource = .arenaNodes) := by
  have hfull : s.fullContext = false := hs.full_eq
  have hmap : s.withoutGuards = (s.toList.map fun c => { c with guard := .always }).foldlM
      ConfigSet.insert (ConfigSet.forParser false) := by
    rw [List.foldlM_map, ConfigSet.withoutGuards, hfull]
  have hbare : {t | ∃ c ∈ s.toList.map fun c => { c with guard := Guard.always },
      t ∈ c.threads g} = {t | ∃ guard, ((t.1.1, guard), t.2) ∈ T ∧ t.1.2 = .always} := by
    rw [← hs.threads_eq]
    ext ⟨⟨a, guard⟩, p, σ⟩
    constructor
    · rintro ⟨c', hc', htag, hp, hσ⟩
      obtain ⟨c, hc, rfl⟩ := List.mem_map.mp hc'
      obtain ⟨ha, hguard⟩ := Prod.mk.inj htag
      exact ⟨c.guard, ⟨c, hc, Prod.ext ha rfl, hp, hσ⟩, hguard⟩
    · rintro ⟨guard', ⟨c, hc, htag, hp, hσ⟩, hguard⟩
      exact ⟨_, List.mem_map_of_mem hc, Prod.ext (Prod.mk.inj htag).1 hguard, hp, hσ⟩
  -- Configurations that differed in their guards fall together, so the new set is no larger, and
  -- the ceiling of sets is not met.
  rw [hmap]
  refine ((ConfigSet.insertAll_grows hg (ConfigSet.tidy_forParser _ _) ?_).failing ?_).mono
    fun s' g' hgrown ⟨htidy, hcont, hthreads⟩ => ⟨htidy, ?_⟩
  · intro c' hc'
    obtain ⟨c, hc, rfl⟩ := List.mem_map.mp hc'
    have hheld := hs.tidy.held c hc
    rw [hfull] at hheld
    exact hheld.congr rfl rfl rfl
  · rintro e (hnodes | ⟨hcrowded, -⟩)
    · exact hnodes
    · rw [ConfigSet.threads_forParser, Set.empty_union, hbare] at hcrowded
      exact absurd (crowded_of_bare hcrowded) (hs.not_crowded hg)
  · have hfull' : s'.fullContext = false := hcont.fullContext_eq
    rw [ConfigSet.threads_forParser, Set.empty_union, hbare] at hthreads
    have htrim := htidy.threads_eq_trim hgrown.sound (T := {t : Thread | ∃ guard,
      ((t.1.1, guard), t.2) ∈ T ∧ t.1.2 = .always}) (by rw [hfull']; exact hthreads)
    rwa [hfull'] at htrim

/-- **Whether a prediction stops is told by the threads.** -/
theorem endsPrediction_grows {net : Network} {mode : PredictionMode} {g : StackGraph}
    (hg : g.Sound) {s : ConfigSet} {T : Set Thread} (hs : Question.Stage false T s g) :
    Grows (s.endsPrediction mode net) g (fun ends _ => ends = true ↔ Closes net mode T)
      (·.resource = .arenaNodes) := by
  have hall := hs.tidy.allAtRuleStop_iff hg net
  rw [hs.threads_eq] at hall
  have hguards := hs.tidy.hasGuards_iff hg
  rw [hs.threads_eq] at hguards
  unfold ConfigSet.endsPrediction
  by_cases hstop : s.allAtRuleStop net = true
  · rw [if_pos hstop]
    exact .pure hg ⟨fun _ => .inl (hall.mp hstop), fun _ => rfl⟩
  rw [if_neg hstop]
  have hcloses : Closes net mode T ↔ Stuck (weighedOf mode T) :=
    or_iff_right fun h => hstop (hall.mpr h)
  rw [hcloses]
  -- Only the fast mode sets guards aside, and only where there are some.
  by_cases hbare : mode = .sll ∧ s.hasGuards = true
  · rw [if_pos hbare]
    rw [hguards] at hbare
    have hweighed : weighedOf mode T = bareOf T := if_pos hbare
    rw [hweighed]
    refine (withoutGuards_grows hg hs).bind fun s' g' hgrown ⟨htidy, hthreads⟩ => ?_
    refine .pure hgrown.sound ?_
    rw [htidy.isStuck_iff hgrown.sound, hthreads]
  · rw [if_neg hbare]
    rw [hguards] at hbare
    have hweighed : weighedOf mode T = T := if_neg hbare
    rw [hweighed]
    refine .pure hg ?_
    rw [hs.tidy.isStuck_iff hg, hs.threads_eq]

/-! ## Rows -/

namespace Row

/-- **What a row says** about a set of which something was found out. -/
def telling (s : ConfigSet) (count : Nat) : Row :=
  let r : Row :=
    if s.uniqueAlt ≠ noAlternative then
      { configs := s, accepting := true, prediction := s.uniqueAlt }
    else match s.conflicting with
      | some alts =>
        { configs := s, accepting := true, needsContext := true, prediction := alts.least }
      | none => { configs := s }
  if r.accepting && r.configs.hasGuards then r.withChoices count else r

theorem telling_fresh {s : ConfigSet} (hs : s.Fresh) (count : Nat) :
    telling s count = { configs := s } := by
  simp [telling, hs.1, hs.2]

/-- A set with what there is to find. -/
def found (s : ConfigSet) (ends : Bool) : ConfigSet :=
  if s.commonAlt ≠ noAlternative then { s with uniqueAlt := s.commonAlt }
  else if ends then { s with conflicting := some (Subsets.alts s.subsets) }
  else s

/-- What is found out about a set leaves its configurations as they are. -/
theorem found_marks (s : ConfigSet) (ends : Bool) :
    ∃ u c, found s ends = { s with uniqueAlt := u, conflicting := c } := by
  unfold found
  split
  · exact ⟨_, _, rfl⟩
  · split
    · exact ⟨_, _, rfl⟩
    · exact ⟨_, _, rfl⟩

/-- Classifying a set finds out what there is to find. -/
theorem classify_eq {s : ConfigSet} (hs : s.Fresh) (ends : Bool) (count : Nat) :
    classify s ends count = telling (found s ends) count := by
  unfold classify telling found settled conflicting
  by_cases hcommon : s.commonAlt = noAlternative
  · cases ends <;> simp [hcommon, hs.1, hs.2]
  · simp [hcommon]

/-- The row says no more than was found out about a set with the threads `T`. -/
structure Holds (count : Nat) (T : Set Thread) (r : Row) (g : StackGraph) : Prop where
  tidy : r.configs.Tidy g
  full_eq : r.configs.fullContext = false
  room : r.configs.maxSize = Limits.configsPerSet
  threads_eq : r.configs.threads g = T
  proper : Proper T
  telling : { r with cells := [] } = Row.telling r.configs count

theorem Holds.grown {count : Nat} {T : Set Thread} {r : Row} {g g' : StackGraph} (hg : g.Sound)
    (h : g.Grown g') (hr : r.Holds count T g) : r.Holds count T g' where
  tidy := hr.tidy.grown hg h
  full_eq := hr.full_eq
  room := hr.room
  threads_eq := (hr.tidy.threads_eq hg h).trans hr.threads_eq
  proper := hr.proper
  telling := hr.telling

/-- The cells of a row do not matter. -/
theorem Holds.cells {count : Nat} {T : Set Thread} {r : Row} {g : StackGraph}
    (hr : r.Holds count T g) (cells : List (Nat × Cell)) :
    ({ r with cells := cells } : Row).Holds count T g :=
  ⟨hr.tidy, hr.full_eq, hr.room, hr.threads_eq, hr.proper, hr.telling⟩

theorem Holds.stage {count : Nat} {T : Set Thread} {r : Row} {g : StackGraph}
    (hr : r.Holds count T g) (hfresh : r.configs.Fresh) : Question.Stage false T r.configs g :=
  ⟨hr.tidy, ⟨hr.full_eq, hfresh.1, hfresh.2, hr.room⟩, hr.threads_eq⟩

private theorem telling_form (s : ConfigSet) (count : Nat) :
    (telling s count).configs = s ∧ (telling s count).cells = [] := by
  unfold telling withChoices
  by_cases hunique : s.uniqueAlt = noAlternative
  · cases hconflict : s.conflicting with
    | none => simp [hunique]
    | some A =>
      simp only [hunique, ne_eq, not_true_eq_false, if_false, Bool.true_and]
      split
      · split <;> exact ⟨rfl, rfl⟩
      · exact ⟨rfl, rfl⟩
  · simp only [hunique, ne_eq, not_false_eq_true, if_true, Bool.true_and]
    split
    · split <;> exact ⟨rfl, rfl⟩
    · exact ⟨rfl, rfl⟩

theorem telling_configs (s : ConfigSet) (count : Nat) : (telling s count).configs = s :=
  (telling_form s count).1

theorem telling_cells (s : ConfigSet) (count : Nat) :
    { telling s count with cells := [] } = telling s count := by
  have hcells := (telling_form s count).2
  cases h : telling s count
  rw [h] at hcells
  simp only at hcells
  rw [hcells]

/-- A row answers exactly if something was found out. -/
theorem telling_accepting (s : ConfigSet) (count : Nat) :
    (telling s count).accepting = false ↔ s.Fresh := by
  constructor
  · intro h
    by_contra hfresh
    unfold telling withChoices at h
    by_cases hunique : s.uniqueAlt = noAlternative
    · cases hconflict : s.conflicting with
      | none => exact hfresh ⟨hunique, hconflict⟩
      | some A =>
        simp only [hunique, hconflict, ne_eq, not_true_eq_false, if_false, Bool.true_and] at h
        split at h
        · split at h <;> cases h
        · cases h
    · simp only [hunique, ne_eq, not_false_eq_true, if_true, Bool.true_and] at h
      split at h
      · split at h <;> cases h
      · cases h
  · intro hfresh
    rw [telling_fresh hfresh]

theorem Holds.accepting_iff {count : Nat} {T : Set Thread} {r : Row} {g : StackGraph}
    (hr : r.Holds count T g) : r.accepting = false ↔ r.configs.Fresh := by
  have haccepting := congrArg Row.accepting hr.telling
  change r.accepting = _ at haccepting
  rw [haccepting, telling_accepting]

/-- The row of a set at which nothing is to be found out yet. -/
theorem holds_open {count : Nat} {T : Set Thread} {s : ConfigSet} {g : StackGraph}
    (hs : Question.Stage false T s g) (hT : Proper T) :
    ({ configs := s } : Row).Holds count T g :=
  ⟨hs.tidy, hs.full_eq, hs.continues.maxSize_eq, hs.threads_eq, hT,
    (telling_fresh ⟨hs.continues.uniqueAlt_eq, hs.continues.conflicting_eq⟩ count).symm⟩

/-- **The row of a set holds its threads,** and what there is to find was found out. -/
theorem holds_classify {net : Network} {mode : PredictionMode} (count : Nat) {T : Set Thread}
    {s : ConfigSet} {g : StackGraph} {ends : Bool} (hg : g.Sound)
    (hs : Question.Stage false T s g) (hT : Proper T)
    (hends : (¬∃ a, Speaks T a) → (ends = true ↔ Closes net mode T)) :
    (classify s ends count).Holds count T g ∧
      Found net mode T (classify s ends count).configs := by
  have hfresh : s.Fresh := ⟨hs.continues.uniqueAlt_eq, hs.continues.conflicting_eq⟩
  have hconfigs : (classify s ends count).configs = found s ends := by
    rw [classify_eq hfresh, telling_configs]
  have hspeaks : ∀ a, a ≠ noAlternative → (s.commonAlt = a ↔ Speaks T a) := by
    intro a ha
    rw [hs.tidy.commonAlt_eq_iff hg ha, hs.threads_eq]
  have hproper : ∀ a, Speaks T a → a ≠ noAlternative := by
    rintro a ⟨⟨t, ht⟩, hall⟩
    rw [← hall t ht]
    exact hT t ht
  refine ⟨?_, ?_⟩
  -- Marking a set with what was found changes none of its configurations.
  · obtain ⟨u, c, hform⟩ := found_marks s ends
    refine ⟨?_, ?_, ?_, ?_, hT, ?_⟩
    · rw [hconfigs, hform]
      exact ⟨hs.tidy.unordered, hs.tidy.distinct, hs.tidy.held, hs.tidy.guards_iff, hs.tidy.room⟩
    · rw [hconfigs, hform]
      exact hs.full_eq
    · rw [hconfigs, hform]
      exact hs.continues.maxSize_eq
    · rw [hconfigs, hform]
      exact hs.threads_eq
    · rw [classify_eq hfresh]
      exact (telling_cells _ _).trans (by rw [telling_configs])
  · rw [hconfigs]
    -- One alternative is left, none is yet, there is a conflict, or there is none yet.
    refine ⟨fun a ha => ?_, fun hone => ?_, fun hone hcloses => ?_, fun hone hcloses => ?_⟩
    · have hcommon := (hspeaks a (hproper a ha)).mpr ha
      unfold found
      rw [if_pos (by rw [hcommon]; exact hproper a ha)]
      exact ⟨hcommon, hfresh.2⟩
    all_goals
      have hcommon : s.commonAlt = noAlternative := by
        by_contra hne
        exact hone ⟨_, (hspeaks _ hne).mp rfl⟩
      unfold found
      rw [if_neg (by simp [hcommon])]
    · split
      · exact hfresh.1
      · exact hfresh.1
    · rw [if_pos ((hends hone).mpr hcloses)]
      refine ⟨_, rfl, fun a => ?_⟩
      rw [hs.tidy.mem_alts_subsets_iff hg, hs.threads_eq]
    · have hfalse : ¬ ends = true := fun h => hcloses ((hends hone).mp h)
      rw [if_neg hfalse]
      exact hfresh.2

end Row

/-! ## Rows without guards -/

namespace Row

variable {T : Set Thread} {r : Row} {g : StackGraph} {count : Nat}

private theorem telling_of_guardless {s : ConfigSet} (h : s.hasGuards = false) :
    (telling s count).choices = none ∧ ((telling s count).accepting = true →
      (telling s count).needsContext = false →
        s.uniqueAlt ≠ noAlternative ∧ (telling s count).prediction = s.uniqueAlt) := by
  unfold telling
  by_cases hunique : s.uniqueAlt = noAlternative
  · cases hconflict : s.conflicting with
    | none => simp [hunique, h]
    | some A => simp [hunique, h]
  · simp [hunique, h]

private theorem Holds.hasGuards_eq (hg : g.Sound) (hr : r.Holds count T g) (hT : Guardless T) :
    r.configs.hasGuards = false := by
  rw [← Bool.not_eq_true, hr.tidy.hasGuards_iff hg, hr.threads_eq]
  rintro ⟨t, ht, hguard⟩
  rw [hT t ht] at hguard
  cases hguard

/-- Without guards a row leaves no choices. -/
theorem Holds.choices_eq (hg : g.Sound) (hr : r.Holds count T g) (hT : Guardless T) :
    r.choices = none :=
  (congrArg Row.choices hr.telling).trans (telling_of_guardless (hr.hasGuards_eq hg hT)).1

/-- **A row that answers without the call stack** says the only alternative left. -/
theorem Holds.speaks {net : Network} {mode : PredictionMode} (hg : g.Sound)
    (hr : r.Holds count T g) (hT : Guardless T) (hfound : Found net mode T r.configs)
    (haccepting : r.accepting = true) (hcontext : r.needsContext = false) :
    Speaks T r.prediction := by
  obtain ⟨hunique, hprediction⟩ := (telling_of_guardless (hr.hasGuards_eq hg hT)).2
    ((congrArg Row.accepting hr.telling).symm.trans haccepting)
    ((congrArg Row.needsContext hr.telling).symm.trans hcontext)
  have hpred : r.prediction = r.configs.uniqueAlt :=
    (congrArg Row.prediction hr.telling).trans hprediction
  by_cases hone : ∃ a, Speaks T a
  · obtain ⟨a, ha⟩ := hone
    rwa [hpred, (hfound.unique a ha).1]
  · exact absurd (hfound.several hone) hunique

end Row

end AdaptiveLL
