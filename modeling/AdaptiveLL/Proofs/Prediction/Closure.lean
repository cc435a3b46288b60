import AdaptiveLL.Proofs.Prediction.Termination
import AdaptiveLL.Proofs.Prediction.Visits

/-!
# Closures

The closures of some configurations, taken together, end and collect what `closureOf` says, unless
guards count on the way.
-/

namespace AdaptiveLL

open StackGraph (Grows Grown Sound)

namespace Question

variable {q : Question} {m : Manner} {words : Nat} {tags : Finset Tag} {collecting : Bool}
  {nodes : Nat}

/-- What the closures of configurations with the threads `T` have left. -/
private structure Swept (net : Network) (m : Manner) (words : Nat) (tags : Finset Tag)
    (collecting : Bool) (nodes : Nat) (T : Set Thread) (acc : ConfigSet × List VisitKey)
    (g : StackGraph) : Prop where
  sweeping : ∃ P, Sweeping net m T P ∅ ∅ { work := [], configs := acc.1, seen := acc.2 } g
  bounded : Bounded words tags collecting m.full nodes
    { work := [], configs := acc.1, seen := acc.2 } g

/-- A configuration from which a closure can begin. -/
structure Begins (net : Network) (m : Manner) (words : Nat) (tags : Finset Tag) (collect : Bool)
    (g : StackGraph) (c : Config) : Prop where
  within : c.Within words tags m.full g
  plain : Visit.Plain net collect

private theorem sweeping_start {net : Network} {T P : Set Thread}
    {acc : ConfigSet × List VisitKey} {g : StackGraph} {c : Config} {collect : Bool}
    (hc : c.Held g (!m.full)) (hplain : Visit.Plain net collect)
    (hs : Sweeping net m T P ∅ ∅ { work := [], configs := acc.1, seen := acc.2 } g) :
    Sweeping net m (T ∪ c.threads g) P ∅ ∅
      { work := [{ config := c, collect }], configs := acc.1, seen := acc.2 } g := by
  have hnone : ({ work := [], configs := acc.1, seen := acc.2 } : Sweep).ahead g = ∅ := by
    ext t
    simp [Sweep.ahead]
  have hone : ({ work := [{ config := c, collect }], configs := acc.1, seen := acc.2 } :
      Sweep).ahead g = c.threads g := by
    ext t
    simp [Sweep.ahead]
  have hmono : net.reached m T ⊆ net.reached m (T ∪ c.threads g) :=
    Network.reached_mono Set.subset_union_left
  have hcovered := hs.covered
  have hsound := hs.sound
  rw [hnone, Set.union_empty] at hcovered hsound
  refine ⟨hs.tidy, hs.continues, ?_, ?_, ?_, ?_, ?_, hs.short, hs.collected⟩
  · intro v hv
    obtain rfl := List.mem_singleton.mp hv
    exact ⟨hc, rfl, hplain, fun _ σ _ => ⟨[], rfl, .base _⟩⟩
  · intro k hk
    have hseen := hs.seen k hk
    rw [hnone, Set.union_empty] at hseen
    exact ⟨hseen.1, hseen.2.trans Set.subset_union_left⟩
  · rw [hone]
    exact Set.union_subset_union_left _ hcovered
  · intro t ht u htag hhop
    have hu := hs.followed t ht u htag hhop
    rw [hnone, Set.union_empty, Set.union_empty] at hu
    exact .inl (.inl hu)
  · rw [hone, Set.union_empty]
    rw [Set.union_empty] at hsound
    refine Set.union_subset (hsound.trans hmono) ?_
    exact Set.subset_union_right.trans (Network.subset_reached _)

/-- **The rule of a closure:** what every visit keeps holds when the closure ends. -/
theorem closure_rule {quiet : Bool} {I : Sweep → StackGraph → Prop}
    {E : Nat → Exceeded → Prop}
    (hnet : q.net.Consistent) (hword : q.net.states.size ≤ emptyReturn)
    (hwords : emptyReturn ≤ words) (hstock : Stocked q.net tags collecting) {collect : Bool}
    (hcollect : collect = true → collecting = true) {acc : ConfigSet × List VisitKey} {c : Config}
    {tr : Trail} (hg : tr.graph.Sound) (hfuel : sweepBound words tags.card nodes < q.fuel)
    (hc : c.Within words tags m.full tr.graph)
    (hbound : Bounded words tags collecting m.full nodes
      { work := [], configs := acc.1, seen := acc.2 } tr.graph)
    (hstart : I { work := [{ config := c, collect }], configs := acc.1, seen := acc.2 } tr.graph)
    (hperform : ∀ {v rest s tr'}, tr'.graph.Sound → s.work = v :: rest → I s tr'.graph →
      Bounded words tags collecting m.full nodes s tr'.graph →
        Probe.Ends quiet (q.perform m v { s with work := rest }) tr' I E) :
    Probe.Ends quiet (q.closure m collect acc c) tr (fun acc' g => ∃ s, s.work = [] ∧
      acc' = (s.configs, s.seen) ∧ I s g ∧ Bounded words tags collecting m.full nodes s g) E := by
  have hbound' : Bounded words tags collecting m.full nodes
      { work := [{ config := c, collect }], configs := acc.1, seen := acc.2 } tr.graph :=
    hbound.push hc hcollect
  unfold closure
  refine Probe.Ends.loop (fun s g => I s g ∧ Bounded words tags collecting m.full nodes s g)
    (Sweep.weight words tags nodes) ?_ hg ⟨hstart, hbound'⟩ ?_
  · rintro s tr' hext ⟨hs', hb'⟩
    unfold sweepStep
    cases hwork : s.work with
    | nil => exact .pure hext.sound ⟨s, hwork, rfl, hs', hb'⟩
    | cons v rest =>
      refine ((hperform hext.sound hwork hs' hb').both
        (perform_bounded hnet hword hwords hstock hext.sound hwork hb')).bind
        fun s' tr'' hext' ⟨hs'', hbound'', hlt⟩ => ?_
      exact .pure hext'.sound ⟨⟨hs'', hbound''⟩, hlt⟩
  · refine Nat.lt_of_le_of_lt ?_ hfuel
    have hvisit := hbound.visit_weight_le (v := { config := c, collect }) hg hc
    unfold Sweep.weight sweepBound
    rw [Nat.add_mul, Nat.one_mul, Nat.add_comm]
    refine Nat.add_le_add (Nat.mul_le_mul_right _ ?_) (by simpa using hvisit)
    exact (Nat.sub_le _ _).trans (card_visitKeys_le words tags nodes)

/-- A finished sweep is bounded by what bounds its set and its visits. -/
theorem bounded_done {s : Sweep} {g : StackGraph}
    (hs : Bounded words tags collecting m.full nodes s g) :
    Bounded words tags collecting m.full nodes
      { work := [], configs := s.configs, seen := s.seen } g :=
  ⟨hs.nodes_eq, hs.tidy, hs.continues, hs.nodup, hs.seen, nofun, nofun, hs.tagged⟩

private theorem closure_ends (hnet : q.net.Consistent) (hword : q.net.states.size ≤ emptyReturn)
    (hno : q.net.NoReentryBy m.atEof) (hwords : emptyReturn ≤ words)
    (hstock : Stocked q.net tags collecting) {collect : Bool}
    (hcollect : collect = true → collecting = true) {T : Set Thread}
    {acc : ConfigSet × List VisitKey} {c : Config} {tr : Trail} (hg : tr.graph.Sound)
    (hfuel : sweepBound words tags.card nodes < q.fuel)
    (hc : Begins q.net m words tags collect tr.graph c)
    (hs : Swept q.net m words tags collecting nodes T acc tr.graph) :
    Probe.Ends true (q.closure m collect acc c) tr
      (Swept q.net m words tags collecting nodes (T ∪ c.threads tr.graph))
      (q.net.ClosingMeets m (T ∪ c.threads tr.graph)) := by
  obtain ⟨⟨P, hsweep⟩, hbound⟩ := hs
  refine (closure_rule
    (I := fun s g => ∃ P, Sweeping q.net m (T ∪ c.threads tr.graph) P ∅ ∅ s g) hnet hword hwords
    hstock hcollect hg hfuel hc.within hbound
    ⟨P, sweeping_start hc.within.held hc.plain hsweep⟩ ?_).mono ?_
  · rintro v rest s tr' hg' hwork ⟨P', hs'⟩ _
    exact (perform_ends hnet hword hno hg' hwork hs').mono fun _ _ _ hs'' => ⟨_, hs''⟩
  · rintro _ g' _ ⟨s, hwork, rfl, ⟨P', hs'⟩, hb'⟩
    refine ⟨⟨P', ?_⟩, bounded_done hb'⟩
    have hahead : ({ work := [], configs := s.configs, seen := s.seen } : Sweep).ahead g' =
        s.ahead g' := by
      ext t
      simp [Sweep.ahead, hwork]
    refine ⟨hs'.tidy, hs'.continues, fun _ hv => absurd hv List.not_mem_nil, ?_, ?_, ?_,
      ?_, hs'.short, hs'.collected⟩
    · rw [hahead]
      exact hs'.seen
    · rw [hahead]
      exact hs'.covered
    · rw [hahead]
      exact hs'.followed
    · rw [hahead]
      exact hs'.sound

/-- What the closures of some configurations begin with is bounded. -/
theorem bounded_nil {g : StackGraph} (words : Nat) (tags : Finset Tag) (collecting : Bool) :
    Bounded words tags collecting m.full g.maxNodes
      { work := [], configs := ConfigSet.forParser m.full, seen := [] } g :=
  ⟨rfl, ConfigSet.tidy_forParser _ _, .refl _, List.nodup_nil, nofun, nofun, nofun, fun t ht => by
    rw [ConfigSet.threads_forParser] at ht
    cases ht⟩

/-- **The closures of some configurations end,** guards and re-entry or not, in a set of a
prediction, and no tag is collected outside the stock. -/
theorem closures_bounded (hnet : q.net.Consistent) (hword : q.net.states.size ≤ emptyReturn)
    (hwords : emptyReturn ≤ words) {collect : Bool} (hstock : Stocked q.net tags collect)
    {cs : List Config} {tr : Trail} (hg : tr.graph.Sound)
    (hfuel : sweepBound words tags.card tr.graph.maxNodes < q.fuel)
    (hcs : ∀ c ∈ cs, c.Within words tags m.full tr.graph) :
    Probe.Ends false (cs.foldlM (q.closure m collect) (ConfigSet.forParser m.full, [])) tr
      (fun acc g' => acc.1.Tidy g' ∧ (ConfigSet.forParser m.full).Continues acc.1 ∧
        ∀ t ∈ acc.1.threads g', t.1 ∈ tags) Exceeded.Ordinary := by
  refine (Probe.Ends.foldlM (fun rest acc g => tr.graph.Grown g ∧ (∀ c ∈ rest, c ∈ cs) ∧
      Bounded words tags collect m.full tr.graph.maxNodes
        { work := [], configs := acc.1, seen := acc.2 } g) ?_ hg
    ⟨.refl hg, fun _ => id, bounded_nil words tags collect⟩).mono
    fun acc g' _ ⟨_, _, hbound⟩ => ⟨hbound.tidy, hbound.continues, hbound.tagged⟩
  rintro c rest acc tr' _ ⟨hgrown, hrest, hbound⟩
  refine (closure_rule (I := fun _ _ => True) hnet hword hwords hstock id
    hgrown.sound hfuel ((hcs c (hrest c List.mem_cons_self)).grown hg hgrown) hbound trivial ?_).mono
    ?_
  · intro v rest' s tr'' hg'' hwork _ hb
    exact (perform_bounded hnet hword hwords hstock hg'' hwork hb).mono fun _ _ _ _ => trivial
  · rintro _ g' hgrown' ⟨s, -, rfl, -, hb⟩
    exact ⟨hgrown.trans hgrown', fun c' hc' => hrest c' (List.mem_cons_of_mem _ hc'),
      bounded_done hb⟩

/-- **The closures of some configurations collect the closure of their threads,** unless it meets a
ceiling. -/
theorem closures_ends (hnet : q.net.Consistent) (hword : q.net.states.size ≤ emptyReturn)
    (hno : q.net.NoReentryBy m.atEof) (hwords : emptyReturn ≤ words) {collect : Bool}
    (hplain : Visit.Plain q.net collect) (tags : Finset Tag) (cs : List Config) {tr : Trail}
    (hg : tr.graph.Sound)
    (hfuel : sweepBound words tags.card tr.graph.maxNodes < q.fuel)
    (hcs : ∀ c ∈ cs, c.Held tr.graph (!m.full) ∧ c.state < words ∧ c.tag ∈ tags) :
    Probe.Ends true (cs.foldlM (q.closure m collect) (ConfigSet.forParser m.full, [])) tr
      (fun acc g' => acc.1.Tidy g' ∧ (ConfigSet.forParser m.full).Continues acc.1 ∧
        acc.1.threads g' = trim (!m.full)
          (q.net.closureOf m {t | ∃ c ∈ cs, t ∈ c.threads tr.graph}) ∧
        (∀ t ∈ q.net.reached m {t | ∃ c ∈ cs, t ∈ c.threads tr.graph},
          t.2.2.length ≤ tr.graph.maxDepth) ∧
        ¬Crowded Limits.configsPerSet (q.net.closureOf m {t | ∃ c ∈ cs, t ∈ c.threads tr.graph}))
      (q.net.ClosingMeets m {t | ∃ c ∈ cs, t ∈ c.threads tr.graph}) := by
  have hstock : Stocked q.net tags collect := by
    intro hcollect tag _ p t ht a ha
    rw [hplain hcollect p t ht] at ha
    cases ha
  have hnil : Swept q.net m words tags collect tr.graph.maxNodes ∅
      (ConfigSet.forParser m.full, []) tr.graph := by
    have hempty : (ConfigSet.forParser m.full).threads tr.graph = ∅ :=
      ConfigSet.threads_forParser _ _
    refine ⟨⟨∅, ⟨ConfigSet.tidy_forParser _ _, .refl _, nofun, nofun, Set.empty_subset _, nofun,
      ?_, nofun, ?_⟩⟩, bounded_nil words tags collect⟩
    · rintro t ((ht | ht) | ht)
      · cases ht
      · obtain ⟨v, hv, _⟩ := ht
        cases hv
      · cases ht
    · rw [hempty, Set.union_empty]
      congr 1
      ext t
      simp
  refine (Probe.Ends.foldlM (fun rest acc g => tr.graph.Grown g ∧
      (∀ c ∈ rest, c ∈ cs) ∧ ∃ T, Swept q.net m words tags collect tr.graph.maxNodes T acc g ∧
        ∀ t, t ∈ T ∨ (∃ c ∈ rest, t ∈ c.threads tr.graph) ↔ ∃ c ∈ cs, t ∈ c.threads tr.graph)
    ?_ hg ⟨.refl hg, fun _ => id, ∅, hnil, by simp⟩).mono ?_
  · rintro c rest acc tr' _ ⟨hgrown, hrest, T, hswept, hT⟩
    obtain ⟨hheld, hstate, htag⟩ := hcs c (hrest c List.mem_cons_self)
    refine ((closure_ends hnet hword hno hwords hstock id hgrown.sound hfuel
      ⟨⟨hheld.grown hg hgrown, hstate, htag⟩, hplain⟩ hswept).failing fun e he => he.mono ?_).mono
      fun acc' g' hgrown' hswept' => ⟨hgrown.trans hgrown',
        fun c' hc' => hrest c' (List.mem_cons_of_mem _ hc'), _, hswept', ?_⟩
    · rintro t (ht | ht)
      · exact (hT t).mp (.inl ht)
      · rw [hheld.threads_eq hg hgrown] at ht
        exact (hT t).mp (.inr ⟨c, List.mem_cons_self, ht⟩)
    intro t
    rw [← hT t, hheld.threads_eq hg hgrown]
    simp only [Set.mem_union, List.mem_cons, exists_eq_or_imp]
    tauto
  · rintro acc g' _ ⟨hgrown, _, T, ⟨⟨P, hsweep⟩, _⟩, hT⟩
    have hTeq : T = {t | ∃ c ∈ cs, t ∈ c.threads tr.graph} := by
      ext t
      simpa using hT t
    have hfull : acc.1.fullContext = m.full := hsweep.continues.fullContext_eq
    have hwithstands := hsweep.withstands hgrown.sound rfl
    rw [hTeq, hgrown.maxDepth_eq] at hwithstands
    refine ⟨hsweep.tidy, hsweep.continues, ?_, hwithstands⟩
    rw [← hTeq, ← hfull]
    refine hsweep.tidy.threads_eq_trim hgrown.sound ?_
    rw [hfull]
    exact hsweep.closure rfl

end Question

end AdaptiveLL
