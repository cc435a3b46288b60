import AdaptiveLL.Prediction.Predict
import AdaptiveLL.Proofs.Cache.Evolution
import AdaptiveLL.Proofs.Config.Observed
import AdaptiveLL.Proofs.Lookups.Closure

/-!
# Rows in range

What a set of configurations says about its decision is an alternative of one of them. So a row that
is made of a set in range, some thread of which is left, has only alternatives of the decision for
answers; a table whose rows are in range stays so, whatever is written into it.
-/

namespace AdaptiveLL

variable {x : Extent} {size size' : Nat}

/-! ## Answers of a set -/

namespace ConfigSet

variable {s : ConfigSet}

/-- A common alternative is that of a configuration. -/
theorem exists_commonAlt (h : s.commonAlt ≠ noAlternative) :
    ∃ c ∈ s.toList, c.alt = s.commonAlt := by
  unfold commonAlt at h ⊢
  cases hl : s.toList with
  | nil => simp [hl] at h
  | cons c rest =>
    rw [hl] at h
    dsimp only at h ⊢
    split at h
    · next hall => exact ⟨c, List.mem_cons_self, by rw [if_pos hall]⟩
    · exact absurd rfl h

/-- The members of a subset are alternatives of configurations, and there is one. -/
theorem mem_subset_alts {A : AltSet} (hA : A ∈ s.subsets) :
    (∃ a, a ∈ A) ∧ ∀ a ∈ A, ∃ c ∈ s.toList, c.alt = a := by
  obtain ⟨⟨k, A'⟩, hmem, rfl⟩ := List.mem_map.mp hA
  obtain ⟨⟨c, hc, hk⟩, hA'⟩ := mem_groupAlts_iff.mp hmem
  refine ⟨⟨c.alt, (hA' c.alt).mpr ⟨c, hc, hk, rfl⟩⟩, fun a ha => ?_⟩
  obtain ⟨d, hd, -, halt⟩ := (hA' a).mp ha
  exact ⟨d, hd, halt⟩

/-- Every configuration has a subset. -/
theorem exists_subset {c : Config} (hc : c ∈ s.toList) : ∃ A ∈ s.subsets, c.alt ∈ A := by
  obtain ⟨A, hA, ha⟩ : ∃ A, ((c.state, c.stack), A) ∈ s.groupAlts
      (fun a b => (compare a.1 b.1).then (compare a.2 b.2)) (fun c => (c.state, c.stack)) ∧
        c.alt ∈ A := exists_mem_groupAlts hc
  exact ⟨A, List.mem_map_of_mem hA, ha⟩

/-- The alternatives of the subsets are those of the set. -/
theorem alts_subsets (s : ConfigSet) : Subsets.alts s.subsets = s.alts := by
  apply AltSet.ext_mem
  intro a
  rw [Subsets.mem_alts_iff, mem_alts_iff]
  constructor
  · intro ⟨A, hA, ha⟩
    exact (mem_subset_alts hA).2 a ha
  · intro ⟨c, hc, halt⟩
    exact halt ▸ exists_subset hc

/-- Where an alternative is common, it is the only one. -/
theorem alts_of_commonAlt (h : s.commonAlt ≠ noAlternative) :
    s.alts = .ofList [s.commonAlt] := by
  have hall : ∀ c ∈ s.toList, c.alt = s.commonAlt := by
    unfold commonAlt at h ⊢
    intro c hc
    cases hl : s.toList with
    | nil => simp [hl] at hc
    | cons d rest =>
      rw [hl] at h hc
      dsimp only at h ⊢
      split at h
      · next heq =>
        rw [if_pos heq]
        rcases List.mem_cons.mp hc with rfl | hc
        · rfl
        · exact beq_iff_eq.mp (List.all_eq_true.mp heq c hc)
      · exact absurd rfl h
  obtain ⟨d, hd, hdalt⟩ := exists_commonAlt h
  apply AltSet.ext_mem
  intro a
  rw [mem_alts_iff, AltSet.mem_ofList, List.mem_singleton]
  constructor
  · intro ⟨c, hc, halt⟩
    exact halt.symm.trans (hall c hc)
  · intro ha
    exact ⟨d, hd, hdalt.trans ha.symm⟩

namespace Alive

theorem commonAlt (hs : s.Alive x size) (h : s.commonAlt ≠ noAlternative) :
    x.HasAlt s.commonAlt := by
  obtain ⟨c, hc, halt⟩ := exists_commonAlt h
  exact halt ▸ (hs.inRange.configs c hc).hasAlt

/-- The members of a subset are alternatives of the decision. -/
theorem subset (hs : s.Alive x size) {A : AltSet} (hA : A ∈ s.subsets) : A.InRange x := by
  obtain ⟨hne, hmem⟩ := mem_subset_alts hA
  refine ⟨hne, fun a ha => ?_⟩
  obtain ⟨c, hc, rfl⟩ := hmem a ha
  exact (hs.inRange.configs c hc).hasAlt

theorem alts (hs : s.Alive x size) : s.alts.InRange x := by
  obtain ⟨c, hc⟩ := hs.nonempty
  refine ⟨⟨c.alt, mem_alts_iff.mpr ⟨c, hc, rfl⟩⟩, fun a ha => ?_⟩
  obtain ⟨d, hd, rfl⟩ := mem_alts_iff.mp ha
  exact (hs.inRange.configs d hd).hasAlt

/-- The alternatives in conflict. -/
theorem subsets (hs : s.Alive x size) : (Subsets.alts s.subsets).InRange x := by
  rw [alts_subsets]
  exact hs.alts

theorem settled (hs : s.Alive x size) (h : Subsets.settled s.subsets ≠ noAlternative) :
    x.HasAlt (Subsets.settled s.subsets) := by
  obtain ⟨⟨A, hA, hmin⟩, -⟩ := (Subsets.settled_eq_iff h).mp rfl
  exact (hs.subset hA).hasAlt _ (AltSet.min?_eq_some_iff.mp hmin).1

/-- Equal subsets settle for an alternative. -/
theorem settled_of_allEqual (hs : s.Alive x size) (h : Subsets.allEqual s.subsets = true) :
    Subsets.settled s.subsets ≠ noAlternative := by
  obtain ⟨c, hc⟩ := hs.nonempty
  obtain ⟨A, hA, -⟩ := exists_subset hc
  cases hmin : A.min? with
  | none =>
    obtain ⟨a, ha⟩ := (hs.subset hA).nonempty
    exact absurd ha (AltSet.min?_eq_none_iff.mp hmin a)
  | some a =>
    have hpos := ((hs.subset hA).hasAlt a (AltSet.min?_eq_some_iff.mp hmin).1).1
    have hne : a ≠ noAlternative := Nat.ne_of_gt hpos
    have hall : ∀ B ∈ s.subsets, ∀ b, B.min? = some b → b = a := by
      intro B hB b hb
      rw [Subsets.allEqual_iff.mp h B hB A hA, hmin] at hb
      exact (Option.some.inj hb).symm
    rw [(Subsets.settled_eq_iff hne).mpr ⟨⟨A, hA, hmin⟩, hall⟩]
    exact hne

/-- **A prediction with the call stack stops for an alternative of the decision.** -/
theorem fullVerdict (hs : s.Alive x size) {mode : PredictionMode} {a : Nat}
    (h : Request.fullVerdict? mode s = some a) : x.HasAlt a := by
  unfold Request.fullVerdict? at h
  dsimp only at h
  split at h
  · next hcommon => exact Option.some.inj h ▸ hs.commonAlt hcommon
  split at h
  · split at h
    · next hequal =>
      rw [Bool.and_eq_true] at hequal
      exact Option.some.inj h ▸ hs.settled (hs.settled_of_allEqual hequal.2)
    · cases h
  · split at h
    · next hsettled => exact Option.some.inj h ▸ hs.settled hsettled
    · cases h

end Alive

end ConfigSet

/-! ## Rows -/

namespace Row

/-- **A row in range:** its configurations are, and its answers are alternatives of the decision. -/
structure InRange (x : Extent) (size : Nat) (r : Row) : Prop where
  configs : r.configs.InRange x size
  prediction : r.accepting = true → r.choices = none → x.HasAlt r.prediction
  choices : ∀ cs, r.choices = some cs → ∀ c ∈ cs, x.HasAlt c.alt

theorem InRange.mono {r : Row} (h : r.InRange x size) (hle : size ≤ size') : r.InRange x size' :=
  ⟨h.configs.mono hle, h.prediction, h.choices⟩

/-- The cells of a row do not matter. -/
theorem InRange.of_bare {r r' : Row} (h : r.InRange x size) (hbare : r'.bare = r.bare) :
    r'.InRange x size := by
  have hb : r.bare.InRange x size := ⟨h.configs, h.prediction, h.choices⟩
  rw [← hbare] at hb
  exact ⟨hb.configs, hb.prediction, hb.choices⟩

/-- A row that answers nothing. -/
theorem open_inRange {s : ConfigSet} (hs : s.InRange x size) :
    ({ configs := s } : Row).InRange x size :=
  ⟨hs, nofun, nofun⟩

theorem default_inRange : (default : Row).InRange x size := ⟨⟨nofun, nofun⟩, nofun, nofun⟩

theorem choicesFor_hasAlt {s : ConfigSet} {alts : AltSet} {cs : List Choice}
    (h : choicesFor s alts x.alts = some cs) : ∀ c ∈ cs, x.HasAlt c.alt := by
  unfold choicesFor at h
  dsimp only at h
  split at h
  · obtain rfl := Option.some.inj h
    intro c hc
    obtain ⟨a, ha, rfl⟩ := List.mem_map.mp hc
    simpa [Extent.HasAlt, Nat.succ_le_iff] using (List.mem_filter.mp ha).2
  · cases h

private theorem withChoices_inRange {r : Row} (hconfigs : r.configs.InRange x size)
    (halts : (r.configs.conflicting.getD (.ofList [r.configs.uniqueAlt])).InRange x)
    (hr : r.choices = none) : (r.withChoices x.alts).InRange x size := by
  unfold withChoices
  dsimp only
  split
  · next cs hcs =>
    have hchoices : ∀ cs', some cs = some cs' → ∀ c ∈ cs', x.HasAlt c.alt := by
      rintro _ ⟨⟩
      exact choicesFor_hasAlt hcs
    exact ⟨hconfigs, nofun, hchoices⟩
  · exact ⟨hconfigs, fun _ _ => halts.least, fun cs h => by rw [hr] at h; cases h⟩

/-- **The row of a set in range,** some thread of which is left. -/
theorem classify_inRange {s : ConfigSet} (hs : s.Alive x size) (ends : Bool) :
    (classify s ends x.alts).InRange x size := by
  have hrange := hs.inRange
  unfold classify
  dsimp only
  by_cases hcommon : s.commonAlt ≠ noAlternative
  · rw [if_pos hcommon]
    have halt := hs.commonAlt hcommon
    have hconfigs : ({ s with uniqueAlt := s.commonAlt } : ConfigSet).InRange x size :=
      ⟨hrange.configs, hrange.conflicting⟩
    split
    · refine withChoices_inRange hconfigs ?_ rfl
      change (s.conflicting.getD (.ofList [s.commonAlt])).InRange x
      cases hconflict : s.conflicting with
      | some A => exact hrange.conflicting A hconflict
      | none => exact ⟨⟨s.commonAlt, by simp⟩, by simpa using halt⟩
    · exact ⟨hconfigs, fun _ _ => halt, nofun⟩
  rw [if_neg hcommon]
  -- Without a common alternative the row answers only where the prediction stops.
  cases ends with
  | false => exact open_inRange hrange
  | true =>
    have hconfigs : ({ s with conflicting := some (Subsets.alts s.subsets) } : ConfigSet).InRange
        x size := ⟨hrange.configs, fun A hA => Option.some.inj hA ▸ hs.subsets⟩
    rw [if_pos rfl]
    split
    · exact withChoices_inRange hconfigs hs.subsets rfl
    · exact ⟨hconfigs, fun _ _ => hs.subsets.least, nofun⟩

end Row

/-! ## Tables -/

theorem Row.essential_inRange : Row.Essential (Row.InRange x size) :=
  ⟨Row.default_inRange, Row.InRange.of_bare⟩

namespace Place

/-- A place in range: a loose row is. -/
def InRange (x : Extent) (size : Nat) (p : Place) : Prop := p.All (Row.InRange x size)

theorem InRange.mono {p : Place} (h : p.InRange x size) (hle : size ≤ size') : p.InRange x size' :=
  fun r hr => (h r hr).mono hle

theorem row_inRange (n : Nat) : (Place.row n).InRange x size := Place.all_row _ n

end Place

namespace Table

/-- A table in range: its rows are. -/
def InRange (x : Extent) (size : Nat) (t : Table) : Prop := t.All (Row.InRange x size)

variable {t : Table} {p : Place}

theorem InRange.mono (h : t.InRange x size) (hle : size ≤ size') : t.InRange x size' :=
  fun n => (h n).mono hle

theorem InRange.row (h : t.InRange x size) (hp : p.InRange x size) : (t.row p).InRange x size :=
  All.row h hp

theorem InRange.write (h : t.InRange x size) (p : Place) (v : Symbol) (c : Cell) :
    (t.write p v c).2.InRange x size :=
  All.write Row.essential_inRange h p v c

theorem InRange.link (h : t.InRange x size) (p : Place) (v : Symbol) (target : Place) :
    (t.link p v target).2.InRange x size :=
  All.link Row.essential_inRange h p v target

/-- **A row in range is put into a table in range.** -/
theorem InRange.install (h : t.InRange x size) {r : Row} (hr : r.InRange x size) :
    (t.install r).1.InRange x size ∧ (t.install r).2.2.InRange x size ∧
      (t.install r).2.2.start = t.start := by
  obtain ⟨hplace, htable⟩ := All.install Row.essential_inRange h hr
  exact ⟨hplace, htable, t.install_start r⟩

theorem InRange.setStart (h : t.InRange x size) (hp : p.InRange x size) :
    (t.setStart p).1.InRange x size ∧ (t.setStart p).2.InRange x size :=
  All.setStart h hp

end Table

end AdaptiveLL
