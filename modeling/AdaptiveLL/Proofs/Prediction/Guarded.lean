import AdaptiveLL.Proofs.Guard
import AdaptiveLL.Proofs.Prediction.Closure
import AdaptiveLL.Proofs.Prediction.Determined
import AdaptiveLL.Proofs.Prediction.Fuel
import AdaptiveLL.Proofs.Prediction.Opening
import AdaptiveLL.Proofs.Prediction.Sound
import AdaptiveLL.Proofs.Prediction.Twins

/-!
# How decisions begin under guards

The guards that count at the beginning of a decision are those of the network, joined on the way, so
the tags of its threads come from a finite stock and its closures end. With which threads it begins
depends on the order in which paths are followed, and is told by the network alone all the same: two
beginnings of one decision are twins.
-/

namespace AdaptiveLL

namespace Network

/-- The guards of the transitions. -/
def tests (net : Network) : Finset Guard :=
  ((net.states.toList.flatMap State.transitions).filterMap Transition.guard?).toFinset

variable {net : Network}

theorem mem_tests {q : StateId} {t : Transition} {a : Guard} (ht : t ∈ (net.state q).transitions)
    (ha : t.guard? = some a) : a ∈ net.tests := by
  rcases net.state_cases q with ⟨hlt, heq⟩ | ⟨-, hplain⟩
  · rw [heq] at ht
    simp only [tests, List.mem_toFinset, List.mem_filterMap, List.mem_flatMap]
    exact ⟨t, ⟨_, Array.getElem_mem_toList hlt, ht⟩, ha⟩
  · rw [hplain] at ht
    cases ht

theorem isTest_of_mem_tests {a : Guard} (ha : a ∈ net.tests) : a.IsTest := by
  simp only [tests, List.mem_toFinset, List.mem_filterMap] at ha
  obtain ⟨t, -, ht⟩ := ha
  cases t <;> simp only [Transition.guard?, Option.some.injEq, reduceCtorEq] at ht <;>
    exact ht ▸ trivial

/-- The tags that threads of a decision can have. -/
noncomputable def tags (net : Network) (entry : StateId) : Finset Tag :=
  (Finset.range (net.state entry).transitions.length).image (· + 1) ×ˢ Guard.stock net.tests

theorem mem_tags_iff {entry : StateId} {tag : Tag} :
    tag ∈ net.tags entry ↔ (∃ i < (net.state entry).transitions.length, i + 1 = tag.1) ∧
      Guard.Made net.tests tag.2 := by
  simp only [tags, Finset.mem_product, Finset.mem_image, Finset.mem_range, Guard.mem_stock_iff]

/-- The guards met on the way lead to no other tags. -/
theorem tags_stocked (entry : StateId) (collecting : Bool) :
    Stocked net (net.tags entry) collecting := by
  intro _ tag htag q t ht a ha
  obtain ⟨halt, hmade⟩ := mem_tags_iff.mp htag
  exact mem_tags_iff.mpr ⟨halt, hmade.and (fun _ => isTest_of_mem_tests) (mem_tests ht ha)⟩

end Network

namespace Question

variable {q q' : Question} {full : Bool} {σ : List StateId} {T T' : Set Thread}
  {asked asked' : List Callback} {nodes : Nat}

/-- **The decision has begun** with the threads `T` under the stack `σ` once, and the callbacks
`asked` were made on the way. -/
def Begun (q : Question) (full : Bool) (σ : List StateId) (T : Set Thread)
    (asked : List Callback) : Prop :=
  ∃ (tr : Trail) (stack : StackId) (s : ConfigSet) (tr' : Trail),
    tr.graph.Sound ∧ stack < tr.graph.size ∧ tr.graph.stackSet stack = {σ} ∧
      (q.startSet full stack).from? tr = some (.ok s, tr') ∧ s.threads tr'.graph = T ∧
        tr'.asked = tr.asked ++ asked

/-- **A decision always begins with the same threads,** and makes the same callbacks; none if the
stacks are not exact. -/
theorem Begun.unique (hnet : q.net.Consistent) (hword : q.net.states.size ≤ emptyReturn)
    (halike : q.Alike full q') (hhost : q.Steady full) (hσ : full = false → σ = [])
    (h : q.Begun full σ T asked) (h' : q'.Begun full σ T' asked') :
    T = T' ∧ asked = asked' ∧ (full = false → asked = []) := by
  obtain ⟨tr, stack, s, u, hg, hlt, hset, hrun, rfl, hasked⟩ := h
  obtain ⟨tr', stack', s', u', hg', hlt', hset', hrun', rfl, hasked'⟩ := h'
  obtain ⟨hu, hu', ⟨x, hx, hx', hquiet⟩, htwin⟩ := Run.Beside.apply
    (startSet_beside hnet hword halike hhost hσ hg hg' hlt hlt' hset hset') hrun hrun'
  have heq : asked = x := List.append_cancel_left (hasked.symm.trans hx)
  have heq' : asked' = x := List.append_cancel_left (hasked'.symm.trans hx')
  exact ⟨htwin.threads_eq hu.sound hu'.sound, heq.trans heq'.symm,
    fun hfull => heq.trans (hquiet (by simp [hfull]))⟩

/-- Closures can begin with the configurations of the alternatives. -/
private theorem starts_within (hnet : q.net.Consistent) (hword : q.net.states.size ≤ emptyReturn)
    {g : StackGraph} {stack : StackId} (hlt : stack < g.size)
    (hopen : (!full) = true → g.Open stack) :
    ∀ c ∈ q.starts stack, c.Within emptyReturn (q.net.tags q.entry) full g := by
  intro c hc
  obtain ⟨i, t, hti, rfl⟩ := mem_starts.mp hc
  refine ⟨⟨hlt, hopen, rfl, rfl⟩, ?_, ?_⟩
  · exact Nat.lt_of_lt_of_le (hnet.target_lt q.entry t (List.mem_of_getElem? hti)) hword
  · exact Network.mem_tags_iff.mpr ⟨⟨i, (List.getElem?_eq_some_iff.mp hti).1, rfl⟩, .inl rfl⟩

/-- **The beginning of a decision comes to an end** with a set that predictions can go on from, whether
or not rules re-enter themselves. It has no tags but those of the decision. -/
theorem startSet_stays (hnet : q.net.Consistent) (hword : q.net.states.size ≤ emptyReturn)
    {tr : Trail} {stack : StackId} (hg : tr.graph.Sound) (hlt : stack < tr.graph.size)
    (hopen : (!full) = true → tr.graph.Open stack)
    (hfuel : sweepBound emptyReturn (q.net.tags q.entry).card tr.graph.maxNodes < q.fuel) :
    Probe.Ends false (q.startSet full stack) tr (fun s g =>
      Stage full (s.threads g) s g ∧ ∀ t ∈ s.threads g, t.1 ∈ q.net.tags q.entry)
      Exceeded.Ordinary := by
  unfold startSet
  exact (closures_bounded (m := { full }) hnet hword le_rfl (q.net.tags_stocked q.entry true) hg
    hfuel (starts_within hnet hword hlt hopen)).bind fun acc tr' hext ⟨htidy, hcont, htags⟩ =>
      .pure hext.sound ⟨⟨htidy, hcont, rfl⟩, htags⟩

/-- **Under exact stacks a decision begins with nothing but what its alternatives lead to.** -/
theorem startSet_confined (hnet : q.net.Consistent) (hword : q.net.states.size ≤ emptyReturn)
    {tr : Trail} {stack : StackId} (hg : tr.graph.Sound) (hlt : stack < tr.graph.size)
    (hset : tr.graph.stackSet stack = {σ})
    (hfuel : sweepBound emptyReturn (q.net.tags q.entry).card tr.graph.maxNodes < q.fuel) :
    Probe.Ends false (q.startSet true stack) tr fun s g =>
      s.threads g ⊆ q.net.closureOf { full := true } (q.net.startsOf q.entry σ) := by
  have hconfined := closures_confined (m := { full := true }) rfl hnet hword
    (q.net.tags_stocked q.entry true) hg hfuel (starts_within hnet hword hlt nofun)
  rw [starts_threads hset] at hconfined
  exact hconfined.bind fun acc tr' hext hsub => .pure hext.sound hsub

/-- **Under a known stack** a decision begins with a set that predictions can go on from, and with no
tags but its own. -/
private theorem startSet_ends (hnet : q.net.Consistent) (hword : q.net.states.size ≤ emptyReturn)
    (hσ : full = false → σ = []) {tr : Trail} {stack : StackId} (hg : tr.graph.Sound)
    (hlt : stack < tr.graph.size) (hset : tr.graph.stackSet stack = {σ})
    (hfuel : sweepBound emptyReturn (q.net.tags q.entry).card tr.graph.maxNodes < q.fuel) :
    Probe.Ends false (q.startSet full stack) tr (fun s g =>
      Stage full (s.threads g) s g ∧ ∀ t ∈ s.threads g, t.1 ∈ q.net.tags q.entry)
      Exceeded.Ordinary := by
  have hopen : (!full) = true → tr.graph.Open stack := by
    intro hw
    rw [hσ (by simpa using hw), ← hg.stackSet_empty] at hset
    rw [hg.eq_of_stackSet_eq hlt hg.empty_lt hset]
    exact .empty
  exact startSet_stays hnet hword hg hlt hopen hfuel

/-- The tags of a decision name its alternatives. -/
theorem proper_of_tags (hT : ∀ t ∈ T, t.1 ∈ q.net.tags q.entry) : Proper T := by
  intro t ht
  obtain ⟨⟨i, -, hi⟩, -⟩ := Network.mem_tags_iff.mp (hT t ht)
  rw [← hi]
  exact Nat.succ_ne_zero i

/-- The threads with which a decision has begun have tags of the decision. -/
theorem Begun.tags (hnet : q.net.Consistent) (hword : q.net.states.size ≤ emptyReturn)
    (hσ : full = false → σ = []) (h : q.Begun full σ T asked) :
    ∀ t ∈ T, t.1 ∈ q.net.tags q.entry := by
  obtain ⟨tr, stack, s, tr', hg, hlt, hset, hrun, rfl, -⟩ := h
  -- With more fuel the decision would have begun the same way.
  let fuel := max q.fuel
    (sweepBound emptyReturn (q.net.tags q.entry).card tr.graph.maxNodes + 1)
  have hmore : ((q.fueled fuel).startSet full stack).from? tr = some (.ok s, tr') :=
    startSet_within (le_max_left _ _) full stack _ _ hrun
  have hends := startSet_ends (q := q.fueled fuel) hnet hword hσ hg hlt hset
    (lt_of_lt_of_le (Nat.lt_succ_self _) (le_max_right _ _))
  exact ((hends.apply hmore).2.1 s rfl).2

theorem Begun.proper (hnet : q.net.Consistent) (hword : q.net.states.size ≤ emptyReturn)
    (hσ : full = false → σ = []) (h : q.Begun full σ T asked) : Proper T :=
  proper_of_tags (h.tags hnet hword hσ)

theorem Begun.frank (hnet : q.net.Consistent) (hword : q.net.states.size ≤ emptyReturn)
    (hσ : full = false → σ = []) (h : q.Begun full σ T asked) : Frank T := by
  intro t ht
  obtain ⟨-, hmade⟩ := Network.mem_tags_iff.mp (h.tags hnet hword hσ t ht)
  exact hmade.simple fun _ => Network.isTest_of_mem_tests

/-- **The threads with which a decision begins** under a stack. -/
def beginning (q : Question) (full : Bool) (σ : List StateId) : Set Thread :=
  {t | ∃ q' T asked, q.Alike full q' ∧ q'.Begun full σ T asked ∧ t ∈ T}

theorem beginning_congr (h : q.Alike full q') : q.beginning full σ = q'.beginning full σ := by
  ext t
  constructor
  · rintro ⟨q'', T, asked, halike, hbegun, ht⟩
    exact ⟨q'', T, asked, h.symm.trans halike, hbegun, ht⟩
  · rintro ⟨q'', T, asked, halike, hbegun, ht⟩
    exact ⟨q'', T, asked, h.trans halike, hbegun, ht⟩

theorem Begun.eq_beginning (hnet : q.net.Consistent) (hword : q.net.states.size ≤ emptyReturn)
    (hhost : q.Steady full) (hσ : full = false → σ = []) (h : q.Begun full σ T asked) :
    T = q.beginning full σ := by
  ext t
  constructor
  · exact fun ht => ⟨q, T, asked, .refl full q, h, ht⟩
  · rintro ⟨q', T', asked', halike, hbegun, ht⟩
    rwa [(h.unique hnet hword halike hhost hσ hbegun).1]

theorem beginning_proper (hnet : q.net.Consistent) (hword : q.net.states.size ≤ emptyReturn)
    (hσ : full = false → σ = []) : Proper (q.beginning full σ) := by
  rintro t ⟨q', T, asked, halike, hbegun, ht⟩
  rw [halike.net_eq] at hnet hword
  exact hbegun.proper hnet hword hσ t ht

theorem beginning_frank (hnet : q.net.Consistent) (hword : q.net.states.size ≤ emptyReturn)
    (hσ : full = false → σ = []) : Frank (q.beginning full σ) := by
  rintro t ⟨q', T, asked, halike, hbegun, ht⟩
  rw [halike.net_eq] at hnet hword
  exact hbegun.frank hnet hword hσ t ht

/-- Every beginning of a decision is as those there are. -/
private theorem opens_of_begun (hnet : q.net.Consistent) (hword : q.net.states.size ≤ emptyReturn)
    (hσ : full = false → σ = [])
    (hfuel : sweepBound emptyReturn (q.net.tags q.entry).card nodes < q.fuel)
    (hall : q.Steady full → ∀ T asked', q.Begun full σ T asked' → asked' = asked) :
    q.Opens full σ nodes (q.beginning full σ) asked := by
  intro tr stack hg hnodes hlt hset
  obtain ⟨r, tr', hrun, hext, hstage, hmeets⟩ :=
    startSet_ends hnet hword hσ hg hlt hset (hnodes.symm ▸ hfuel)
  refine .of_eq hrun ⟨hext.grown, ?_, hmeets⟩
  rintro s rfl
  obtain ⟨hs, htags⟩ := hstage s rfl
  refine ⟨⟨_, proper_of_tags htags, hs⟩, fun hhost => ?_⟩
  -- The run is its own twin.
  obtain ⟨-, -, ⟨x, hx, -, -⟩, htwin⟩ := Run.Beside.apply
    (startSet_beside hnet hword (.refl full q) hhost hσ hg hg hlt hlt hset hset) hrun hrun
  have hbegun : q.Begun full σ (s.threads tr'.graph) x :=
    ⟨tr, stack, s, tr', hg, hlt, hset, hrun, rfl, hx⟩
  refine ⟨⟨htwin.tidy, htwin.continues, hbegun.eq_beginning hnet hword hhost hσ⟩, ?_⟩
  rw [hx, hall hhost _ _ hbegun]

/-- **A decision opens with the threads with which it begins,** and with the same callbacks whatever
the graph. -/
theorem exists_opens (full : Bool) (σ : List StateId) (hnet : q.net.Consistent)
    (hword : q.net.states.size ≤ emptyReturn) (hσ : full = false → σ = []) :
    ∃ asked, (full = false → asked = []) ∧ ∀ q', q.Alike full q' → ∀ nodes,
      sweepBound emptyReturn (q.net.tags q.entry).card nodes < q'.fuel →
        q'.Opens full σ nodes (q.beginning full σ) asked := by
  obtain ⟨asked, hnone, hall⟩ : ∃ asked, (full = false → asked = []) ∧
      ∀ q' T asked', q.Alike full q' → q.Steady full → q'.Begun full σ T asked' →
        asked' = asked := by
    by_cases h : q.Steady full ∧ ∃ q' T asked, q.Alike full q' ∧ q'.Begun full σ T asked
    · obtain ⟨hhost, q₀, T₀, asked₀, halike₀, hbegun₀⟩ := h
      have hnet₀ := halike₀.net_eq ▸ hnet
      have hword₀ := halike₀.net_eq ▸ hword
      have hhost₀ := hhost.congr halike₀
      refine ⟨asked₀, (hbegun₀.unique hnet₀ hword₀ (.refl full q₀) hhost₀ hσ hbegun₀).2.2, ?_⟩
      intro q' T asked' halike _ hbegun
      exact (hbegun₀.unique hnet₀ hword₀ (halike₀.symm.trans halike) hhost₀ hσ hbegun).2.1.symm
    · exact ⟨[], fun _ => rfl, fun q' T asked' halike hhost hbegun =>
        absurd ⟨hhost, q', T, asked', halike, hbegun⟩ h⟩
  refine ⟨asked, hnone, fun q' halike nodes hfuel => ?_⟩
  rw [beginning_congr halike]
  refine opens_of_begun (halike.net_eq ▸ hnet) (halike.net_eq ▸ hword) hσ ?_
    fun hhost T asked' hbegun => hall q' T asked' halike (hhost.congr halike.symm) hbegun
  rwa [← halike.net_eq, ← halike.entry_eq]

end Question

end AdaptiveLL
