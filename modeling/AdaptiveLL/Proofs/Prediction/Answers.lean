import AdaptiveLL.Proofs.Guard
import AdaptiveLL.Proofs.Lookups.Rows
import AdaptiveLL.Proofs.Prediction.Marks
import AdaptiveLL.Proofs.Prediction.Told

/-!
# What a row answers

A row is made of a set of configurations, each of them with an alternative and a guard. A *fair* row
answers by them: it takes the least alternative that has a configuration whose guard holds, and
fails if there is none. Whether the row keeps its alternatives with their guards, or has a single
answer because no guard counts, makes no difference to that.
-/

namespace AdaptiveLL

namespace ConfigSet

/-! ## Alternatives under guards -/

/-- **The alternative passes:** the guard of some configuration that speaks for it holds. -/
def Passes (s : ConfigSet) (host : Host) (position a : Nat) : Prop :=
  ∃ c ∈ s.toList, c.alt = a ∧ c.guard.holds host position = true

/-- The alternatives of a set, each with the condition under which it was reached. -/
def choices (s : ConfigSet) : List Choice := s.alts.toList.map fun a => ⟨s.guardOf a, a⟩

variable {s s' : ConfigSet} {host : Host} {position a : Nat}

theorem Passes.mem_alts (h : s.Passes host position a) : a ∈ s.alts := by
  obtain ⟨c, hc, halt, -⟩ := h
  exact mem_alts_iff.mpr ⟨c, hc, halt⟩

/-- **The condition of an alternative holds exactly if the alternative passes.** -/
theorem holds_guardOf (hhost : host.Graded) (ha : a ∈ s.alts) :
    (s.guardOf a).holds host position = true ↔ s.Passes host position a := by
  have hmem : ∀ g, g ∈ (s.toList.filter (·.alt == a)).map Config.guard ↔
      ∃ c ∈ s.toList, c.alt = a ∧ c.guard = g := by
    intro g
    simp [and_assoc]
  have hpasses : s.Passes host position a ↔
      ∃ g ∈ (s.toList.filter (·.alt == a)).map Config.guard, g.holds host position = true := by
    simp only [hmem]
    constructor
    · intro ⟨c, hc, halt, hholds⟩
      exact ⟨c.guard, ⟨c, hc, halt, rfl⟩, hholds⟩
    · intro ⟨g, ⟨c, hc, halt, hg⟩, hholds⟩
      exact ⟨c, hc, halt, hg ▸ hholds⟩
  rw [hpasses]
  unfold guardOf
  cases hl : (s.toList.filter (·.alt == a)).map Config.guard with
  | nil =>
    obtain ⟨c, hc, halt⟩ := mem_alts_iff.mp ha
    have hin := (hmem c.guard).mpr ⟨c, hc, halt, rfl⟩
    rw [hl] at hin
    cases hin
  | cons g rest => rw [Guard.holds_foldl_or hhost, Guard.anyHolds_iff]

/-- Where no configuration is guarded, no alternative is. -/
theorem guardOf_unguarded (h : ∀ c ∈ s.toList, c.guard = .always) (a : Nat) :
    s.guardOf a = .always := by
  have hmem : ∀ g ∈ (s.toList.filter (·.alt == a)).map Config.guard, g = .always := by
    intro g hg
    obtain ⟨c, hc, rfl⟩ := List.mem_map.mp hg
    exact h c (List.mem_of_mem_filter hc)
  unfold guardOf
  cases hl : (s.toList.filter (·.alt == a)).map Config.guard with
  | nil => rfl
  | cons g rest =>
    rw [hl] at hmem
    have hjoined : ∀ l : List Guard, l.foldl Guard.or .always = .always := by
      intro l
      induction l with
      | nil => rfl
      | cons b l ih => exact ih
    rw [hmem g List.mem_cons_self]
    exact hjoined rest

/-- Sets with the same configurations let the same alternatives pass. -/
theorem Passes.of_sameConfigs (h : s.sameConfigs s' = true) (hs : s.Passes host position a) :
    s'.Passes host position a := by
  obtain ⟨c, hc, halt, hholds⟩ := hs
  have hlists : s.toList.map Config.identity = s'.toList.map Config.identity := by
    simpa [sameConfigs] using h
  have hc' : c.identity ∈ s'.toList.map Config.identity := hlists ▸ List.mem_map_of_mem hc
  obtain ⟨d, hd, hid⟩ := List.mem_map.mp hc'
  have halt' : d.identity.alt = c.identity.alt := by rw [hid]
  have hguard : d.identity.guard = c.identity.guard := by rw [hid]
  exact ⟨d, hd, Eq.trans halt' halt, (congrArg (·.holds host position) hguard).trans hholds⟩

/-- Sets with the same configurations are described alike. -/
theorem summary_of_sameConfigs (h : s.sameConfigs s' = true)
    (hfull : s.fullContext = s'.fullContext) : s.summary = s'.summary := by
  have hlists : s.toList.map Config.identity = s'.toList.map Config.identity := by
    simpa [sameConfigs] using h
  have hsize : s.size = s'.size := by
    simpa [size, toList] using congrArg List.length hlists
  have halts : s.toList.map Config.alt = s'.toList.map Config.alt := by
    have hmapped := congrArg (List.map Config.alt) hlists
    rwa [List.map_map, List.map_map] at hmapped
  rw [summary, summary, hsize, alts, alts, halts, hfull]

end ConfigSet

/-! ## Fair rows -/

namespace Row

/-- **A fair row** answers by its set: under the guards of all its alternatives, or, if none of them
is guarded, with the least one. -/
structure Fair (r : Row) : Prop where
  choices : ∀ cs, r.choices = some cs → cs = r.configs.choices
  prediction : r.accepting = true → r.choices = none →
    r.configs.alts.min? = some r.prediction ∧ ∀ a ∈ r.configs.alts, r.configs.guardOf a = .always

variable {r r' : Row} {s : ConfigSet} {x : Extent} {size count : Nat}

theorem fair_open (s : ConfigSet) : ({ configs := s } : Row).Fair := ⟨nofun, nofun⟩

/-- Being fair has nothing to do with cells. -/
theorem essential_fair : Essential Fair where
  default := fair_open default
  of_bare := by
    intro r r' hr hbare
    have hb : r.bare.Fair := ⟨hr.choices, hr.prediction⟩
    rw [← hbare] at hb
    exact ⟨hb.choices, hb.prediction⟩

/-- The alternatives of a set in range under their guards. -/
private theorem choicesFor_alts (h : ∀ a ∈ s.alts, 1 ≤ a ∧ a ≤ count) :
    choicesFor s s.alts count =
      if s.choices.any fun c => !c.guard.isAlways then some s.choices else none := by
  have hall : (s.alts.toList.filter fun a => 0 < a ∧ a ≤ count) = s.alts.toList :=
    List.filter_eq_self.mpr fun a ha => by simpa [Nat.succ_le_iff] using h a ha
  unfold choicesFor
  rw [hall]
  rfl

/-- A row with all alternatives of its set gets their guards. -/
private theorem withChoices_fair (hr : r.choices = none)
    (halts : r.configs.conflicting.getD (.ofList [r.configs.uniqueAlt]) = r.configs.alts)
    (hrange : r.configs.alts.InRange x) : (r.withChoices x.alts).Fair := by
  unfold withChoices
  dsimp only
  rw [halts, choicesFor_alts hrange.hasAlt]
  by_cases hany : (r.configs.choices.any fun c => !c.guard.isAlways) = true
  · rw [if_pos hany]
    exact ⟨fun cs hcs => (Option.some.inj hcs).symm, nofun⟩
  · rw [if_neg hany]
    refine ⟨fun cs h => ?_, fun _ _ => ⟨hrange.min?_eq, fun a ha => ?_⟩⟩
    · rw [hr] at h
      cases h
    · by_contra hguard
      refine hany (List.any_eq_true.mpr ⟨⟨r.configs.guardOf a, a⟩, List.mem_map_of_mem ha, ?_⟩)
      simpa [← Bool.not_eq_true, Guard.isAlways_iff] using hguard

/-- A row of a set without guards answers with the least alternative. -/
private theorem unguarded_fair (hr : r.choices = none)
    (hmin : r.configs.alts.min? = some r.prediction)
    (hguards : ∀ c ∈ r.configs.toList, c.guard = .always) : r.Fair := by
  refine ⟨fun cs h => ?_, fun _ _ => ⟨hmin, fun a _ => ConfigSet.guardOf_unguarded hguards a⟩⟩
  rw [hr] at h
  cases h

/-- **The row of a marked set is fair,** if all its alternatives are alternatives of the decision. -/
theorem classify_fair (hs : s.Marked) (halive : s.Alive x size) (ends : Bool) :
    (classify s ends x.alts).Fair := by
  have hrange : s.alts.InRange x := halive.alts
  have hguards : s.hasGuards = false → ∀ c ∈ s.toList, c.guard = .always := by
    intro hflag c hc
    by_contra hguard
    have hsome : s.hasGuards = true := hs.guards_iff.mpr ⟨c, hc, by
      simpa [← Bool.not_eq_true, Guard.isAlways_iff] using hguard⟩
    rw [hflag] at hsome
    cases hsome
  unfold classify
  dsimp only
  -- One alternative, a conflict, or neither; under guards the choices are kept with the row.
  by_cases hcommon : s.commonAlt ≠ noAlternative
  · rw [if_pos hcommon]
    have hone : ConfigSet.alts { s with uniqueAlt := s.commonAlt } = .ofList [s.commonAlt] :=
      ConfigSet.alts_of_commonAlt hcommon
    cases hflag : s.hasGuards with
    | true =>
      rw [if_pos (by simp [settled, hflag])]
      refine withChoices_fair rfl ?_ hrange
      rw [settled, hone]
      simp [hs.fresh.2]
    | false =>
      rw [if_neg (by simp [settled, hflag])]
      refine unguarded_fair rfl ?_ (hguards hflag)
      rw [settled, hone]
      rfl
  rw [if_neg hcommon]
  cases ends with
  | false => exact fair_open s
  | true =>
    have hall : Subsets.alts s.subsets = s.alts := ConfigSet.alts_subsets s
    rw [if_pos rfl]
    cases hflag : s.hasGuards with
    | true =>
      rw [if_pos (by simp [conflicting, hflag])]
      exact withChoices_fair rfl hall hrange
    | false =>
      rw [if_neg (by simp [conflicting, hflag])]
      refine unguarded_fair rfl ?_ (hguards hflag)
      change s.alts.min? = some (Subsets.alts s.subsets).least
      rw [hall]
      exact hrange.min?_eq

/-- **A row of a set:** it is fair, and its configurations are those of the set. -/
structure Represents (r : Row) (s : ConfigSet) : Prop where
  fair : r.Fair
  configs : r.configs.sameConfigs s = true
  context : r.configs.fullContext = s.fullContext

/-- A fair row with the same set, too, is a row of the set. -/
theorem Represents.of_same {r' : Row} (h : r.Represents s) (hfair : r'.Fair)
    (hsame : r'.configs = r.configs ∨ r'.configs.same r.configs = true) : r'.Represents s := by
  rcases hsame with heq | hsame
  · exact ⟨hfair, heq ▸ h.configs, heq ▸ h.context⟩
  · have hconfigs := h.configs
    simp only [ConfigSet.same, ConfigSet.sameConfigs, Bool.and_eq_true, beq_iff_eq]
      at hsame hconfigs
    refine ⟨hfair, ?_, hsame.1.1.1.1.1.trans h.context⟩
    simp only [ConfigSet.sameConfigs, beq_iff_eq]
    exact hsame.2.trans hconfigs

/-- The row that is made of a set is a row of the set. -/
theorem classify_represents (hs : s.Marked) (halive : s.Alive x size) (ends : Bool) :
    (classify s ends x.alts).Represents s := by
  have hconfigs : (classify s ends x.alts).configs = found s ends := by
    rw [classify_eq hs.fresh, telling_configs]
  obtain ⟨unique, conflict, hfound⟩ := found_marks s ends
  refine ⟨classify_fair hs halive ends, ?_, ?_⟩
  · simp [hconfigs, hfound, ConfigSet.sameConfigs, ConfigSet.toList]
  · rw [hconfigs, hfound]

end Row

/-! ## Answers of fair rows -/

namespace Request

variable {r : Request} {row : Row} {s s' : ConfigSet} {stream : TokenStream}
  {result : Except PredictionError Nat} {A : AltSet} {a : Nat}

/-- **An answer by the guards of a set:** the least alternative that passes, or a failure exactly if
none does. -/
structure AnswersBy (r : Request) (s : ConfigSet) (stream : TokenStream)
    (result : Except PredictionError Nat) : Prop where
  least : ∀ a, result = .ok a ↔ IsLeast {a | s.Passes r.host.now r.start a} a
  noViable : result = .error (r.noViable stream.index s) ↔ ∀ a, ¬s.Passes r.host.now r.start a

/-- The least of the alternatives that pass is such an answer. -/
private theorem answersBy_least (hA : ∀ a, a ∈ A ↔ s.Passes r.host.now r.start a) :
    r.AnswersBy s stream
      (match A.min? with
      | some a => .ok a
      | none => .error (r.noViable stream.index s)) := by
  have hleast : ∀ a, A.min? = some a ↔ IsLeast {a | s.Passes r.host.now r.start a} a := by
    intro a
    rw [AltSet.min?_eq_some_iff]
    simp only [hA]
    rfl
  have hnone : A.min? = none ↔ ∀ a, ¬s.Passes r.host.now r.start a := by
    simp only [AltSet.min?_eq_none_iff, hA]
  constructor
  case least =>
    intro a
    rw [← hleast]
    cases A.min? <;> simp
  case noViable =>
    rw [← hnone]
    cases A.min? <;> simp

theorem mem_votes {choices : List Choice} :
    a ∈ r.votes choices ↔ ∃ c ∈ choices, c.guard.holds r.host.now r.start = true ∧ c.alt = a := by
  have hvotes : r.votes choices = .ofList ((choices.filter fun c =>
      c.guard.isAlways || c.guard.holds r.host.now r.start).map Choice.alt) := by
    unfold votes AltSet.ofList
    rw [List.foldl_map]
  -- A guard that is no condition holds.
  have hpass : ∀ g : Guard, (g.isAlways || g.holds r.host.now r.start) = g.holds r.host.now r.start := by
    intro g
    cases g <;> simp [Guard.isAlways, Guard.holds]
  simp only [hvotes, hpass, AltSet.mem_ofList, List.mem_map, List.mem_filter, and_assoc]

/-- The choices of a set vote for the alternatives that pass. -/
private theorem mem_votes_choices (hhost : r.host.now.Graded) :
    a ∈ r.votes s.choices ↔ s.Passes r.host.now r.start a := by
  rw [mem_votes]
  constructor
  · intro ⟨c, hc, hholds, halt⟩
    obtain ⟨b, hb, rfl⟩ := List.mem_map.mp hc
    obtain rfl : b = a := halt
    exact (ConfigSet.holds_guardOf hhost hb).mp hholds
  · intro h
    have hmem := h.mem_alts
    exact ⟨⟨s.guardOf a, a⟩, List.mem_map_of_mem hmem,
      (ConfigSet.holds_guardOf hhost hmem).mpr h, rfl⟩

/-- **A fair row answers by the guards of its set,** to a host with a threshold. -/
theorem answer_fair (hhost : r.host.Graded) (hrow : row.Fair) (haccepting : row.accepting = true)
    (stream : TokenStream) (t : Session) :
    (r.answer row stream).Yields t fun result _ => r.AnswersBy row.configs stream result := by
  refine (r.answer_does row stream t.cache t rfl).mono ?_
  intro result t' hdone
  obtain ⟨_, _, -, -, -, -, hsteady⟩ := hdone
  obtain ⟨rfl, -⟩ := hsteady hhost.steady
  unfold answerDeed
  dsimp only
  cases hchoices : row.choices with
  | none =>
    obtain ⟨hmin, hguards⟩ := hrow.prediction haccepting hchoices
    have hpasses : ∀ a, a ∈ row.configs.alts ↔ row.configs.Passes r.host.now r.start a := by
      intro a
      constructor
      · intro ha
        apply (ConfigSet.holds_guardOf hhost.now ha).mp
        rw [hguards a ha]
        rfl
      · exact ConfigSet.Passes.mem_alts
    have hanswer : r.AnswersBy row.configs stream _ := answersBy_least hpasses
    rwa [hmin] at hanswer
  | some choices =>
    obtain rfl := hrow.choices choices hchoices
    exact answersBy_least fun a => mem_votes_choices hhost.now

/-- Sets with the same configurations are answered alike. -/
theorem AnswersBy.of_sameConfigs (h : s.sameConfigs s' = true)
    (hfull : s.fullContext = s'.fullContext) (hanswer : r.AnswersBy s stream result) :
    r.AnswersBy s' stream result := by
  have hback : s'.sameConfigs s = true := by
    simp only [ConfigSet.sameConfigs, beq_iff_eq] at h ⊢
    exact h.symm
  have hpasses : ∀ a, s.Passes r.host.now r.start a ↔ s'.Passes r.host.now r.start a := fun a =>
    ⟨ConfigSet.Passes.of_sameConfigs h, ConfigSet.Passes.of_sameConfigs hback⟩
  have hsummary : s.summary = s'.summary := ConfigSet.summary_of_sameConfigs h hfull
  have hviable : r.noViable stream.index s = r.noViable stream.index s' := by
    rw [Request.noViable, Request.noViable, hsummary]
  obtain ⟨hleast, hnone⟩ := hanswer
  simp only [hpasses] at hleast hnone
  exact ⟨hleast, hviable ▸ hnone⟩

/-- **A row of a set answers by the guards of the set.** -/
theorem answer_represents (hhost : r.host.Graded) (hrow : row.Represents s)
    (haccepting : row.accepting = true) (stream : TokenStream) (t : Session) :
    (r.answer row stream).Yields t fun result _ => r.AnswersBy s stream result :=
  (answer_fair hhost hrow.fair haccepting stream t).mono fun _ _ hanswer =>
    hanswer.of_sameConfigs hrow.configs hrow.context

end Request

end AdaptiveLL
