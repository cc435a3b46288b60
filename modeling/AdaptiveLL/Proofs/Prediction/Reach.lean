import AdaptiveLL.Proofs.Config.Observed
import AdaptiveLL.Proofs.Prediction.Parts
import AdaptiveLL.Proofs.Prediction.Sound

/-!
# What a symbol leads to

`reachOf` says which threads remain after a symbol, as a function of the threads before it: those
that consume the symbol move on and are closed, and those that have finished their rule may wait.
`Question.reach` computes it. So a prediction depends on the threads of its sets alone.
-/

namespace AdaptiveLL

open StackGraph (Grows Grown Sound)

/-- The threads speak for alternatives. -/
def Proper (T : Set Thread) : Prop := ∀ t ∈ T, t.1.1 ≠ noAlternative

namespace Network

/-- The threads that consume a symbol, after it. -/
def movedOn (net : Network) (v : Symbol) (T : Set Thread) : Set Thread :=
  {u | ∃ q t, (u.1, q, u.2.2) ∈ T ∧ net.isStop q = false ∧ t ∈ (net.state q).transitions ∧
    t.accepts v 0 net.maxTokenType = true ∧ u.2.1 = t.target}

/-- The threads at the end of a rule. -/
def stopped (net : Network) (T : Set Thread) : Set Thread := {t ∈ T | net.isStop t.2.1 = true}

/-- The threads that wait while others consume a symbol. -/
def waitingOf (net : Network) (full : Bool) (v : Symbol) (T : Set Thread) : Set Thread :=
  {t ∈ net.stopped T | full = true ∨ v = Symbol.eof}

open Classical in
/-- The threads after a symbol, those that wait apart. A single alternative needs no closure. -/
noncomputable def advanceOf (net : Network) (full : Bool) (v : Symbol) (T : Set Thread) :
    Set Thread :=
  let moved := trim (!full) (net.movedOn v T)
  let next :=
    if net.waitingOf full v T = ∅ ∧ v ≠ Symbol.eof ∧ ∃ a, Speaks moved a then moved
    else trim (!full) (net.closureOf { full, atEof := v == Symbol.eof } moved)
  if v = Symbol.eof then net.stopped next else next

open Classical in
/-- **The threads after a symbol.** -/
noncomputable def reachOf (net : Network) (full : Bool) (v : Symbol) (T : Set Thread) :
    Set Thread :=
  let next := net.advanceOf full v T
  if full = true ∧ (net.stopped next).Nonempty then next
  else trim (!full) (next ∪ net.waitingOf full v T)

/-- What has consumed a symbol is closed, unless a single alternative is left. -/
def ClosesAfter (net : Network) (full : Bool) (v : Symbol) (T : Set Thread) : Prop :=
  ¬(net.waitingOf full v T = ∅ ∧ v ≠ Symbol.eof ∧ ∃ a, Speaks (trim (!full) (net.movedOn v T)) a)

/-- A stack grows longer than `depth` on the way past a symbol. -/
def Outgrows (net : Network) (full : Bool) (v : Symbol) (T : Set Thread) (depth : Nat) : Prop :=
  net.ClosesAfter full v T ∧ ∃ t ∈ net.reached { full, atEof := v == Symbol.eof }
    (trim (!full) (net.movedOn v T)), depth < t.2.2.length

/-- A set is crowded on the way past a symbol. -/
def Crowds (net : Network) (full : Bool) (v : Symbol) (T : Set Thread) : Prop :=
  Crowded Limits.configsPerSet (net.movedOn v T) ∨
    (net.ClosesAfter full v T ∧ Crowded Limits.configsPerSet
      (net.closureOf { full, atEof := v == Symbol.eof } (trim (!full) (net.movedOn v T)))) ∨
    Crowded Limits.configsPerSet (net.reachOf full v T)

/-- **The ceilings that are met on the way past a symbol.** -/
def ReachMeets (net : Network) (full : Bool) (v : Symbol) (T : Set Thread) :
    Nat → Exceeded → Prop :=
  Exceeded.Meets (net.Outgrows full v T) (net.Crowds full v T)

/-- **The way past a symbol meets no ceiling** but that of the nodes, where stacks may have `depth`
frames. -/
def Withstands (net : Network) (depth : Nat) (full : Bool) (v : Symbol) (T : Set Thread) : Prop :=
  ¬net.Outgrows full v T depth ∧ ¬net.Crowds full v T

/-- **What a symbol leaves** of the threads `T`, even where guards count and rules re-enter
themselves: not all that `reachOf` says perhaps, but nothing else. -/
structure Leaves (net : Network) (full : Bool) (v : Symbol) (T T' : Set Thread) : Prop where
  nonempty : T'.Nonempty
  stopped : v = Symbol.eof → ∀ t ∈ T', net.isStop t.2.1 = true
  within : full = true → Proper T →
    T' ⊆ net.advanceOf true v T ∪ net.waitingOf true v T

end Network

/-! ## Tags -/

namespace Network

variable {net : Network} {T : Set Thread}

theorem tag_of_mem_advanceOf {full : Bool} {v : Symbol} {u : Thread}
    (hu : u ∈ net.advanceOf full v T) : ∃ d, (u.1, d) ∈ T := by
  have hmoved : ∀ t ∈ trim (!full) (net.movedOn v T), ∃ d, (t.1, d) ∈ T := by
    rintro t ⟨⟨q, _, ht, _⟩, _⟩
    exact ⟨_, ht⟩
  have hclosed : ∀ t ∈ trim (!full) (net.closureOf { full, atEof := v == Symbol.eof }
      (trim (!full) (net.movedOn v T))), ∃ d, (t.1, d) ∈ T := by
    rintro t ⟨⟨⟨c, hc, _⟩, _⟩, _⟩
    exact hmoved (t.1, c) hc
  unfold advanceOf at hu
  dsimp only at hu
  split at hu <;> split at hu
  · exact hmoved u hu.1
  · exact hclosed u hu.1
  · exact hmoved u hu
  · exact hclosed u hu

/-- A thread keeps its tag. -/
theorem tag_of_mem_reachOf {full : Bool} {v : Symbol} {u : Thread}
    (hu : u ∈ net.reachOf full v T) : ∃ d, (u.1, d) ∈ T := by
  unfold reachOf at hu
  dsimp only at hu
  split at hu
  · exact tag_of_mem_advanceOf hu
  · rcases trim_subset _ _ hu with hu | hu
    · exact tag_of_mem_advanceOf hu
    · exact ⟨u.2, hu.1.1⟩

end Network

/-- The threads are under no condition. -/
def Guardless (T : Set Thread) : Prop := ∀ t ∈ T, t.1.2 = .always

theorem Proper.reachOf {net : Network} {T : Set Thread} (hT : Proper T) (full : Bool)
    (v : Symbol) : Proper (net.reachOf full v T) := by
  intro u hu
  obtain ⟨d, hd⟩ := Network.tag_of_mem_reachOf hu
  exact hT (u.1, d) hd

/-- What a symbol leaves of threads that speak for alternatives speaks for alternatives. -/
theorem Network.Leaves.proper {net : Network} {v : Symbol} {T T' : Set Thread}
    (h : net.Leaves true v T T') (hT : Proper T) : Proper T' := by
  intro u hu
  rcases h.within rfl hT hu with hu | hu
  · obtain ⟨d, hd⟩ := Network.tag_of_mem_advanceOf hu
    exact hT (u.1, d) hd
  · exact hT u hu.1.1

theorem Guardless.reachOf {net : Network} {T : Set Thread} (hT : Guardless T) (full : Bool)
    (v : Symbol) : Guardless (net.reachOf full v T) := by
  intro u hu
  obtain ⟨d, hd⟩ := Network.tag_of_mem_reachOf hu
  exact hT (u.1, d) hd

/-- Threads at the end of their rules stay trimmed. -/
theorem trim_stopped {net : Network} {wild : Bool} {T : Set Thread} (h : trim wild T = T) :
    trim wild (net.stopped T) = net.stopped T := by
  refine Set.Subset.antisymm (trim_subset _ _) fun t ht => ⟨ht, fun σ hσ hbegins => ?_⟩
  have htrim : t ∈ trim wild T := h.symm ▸ ht.1
  exact htrim.2 σ hσ.1 hbegins

namespace Question

variable {q : Question} {words : Nat}

/-- A set that a prediction goes on from. -/
structure Stage (full : Bool) (T : Set Thread) (s : ConfigSet) (g : StackGraph) : Prop where
  tidy : s.Tidy g
  continues : (ConfigSet.forParser full).Continues s
  threads_eq : s.threads g = T

theorem Stage.grown {full : Bool} {T : Set Thread} {s : ConfigSet} {g g' : StackGraph}
    (hg : g.Sound) (h : g.Grown g') (hs : Stage full T s g) : Stage full T s g' where
  tidy := hs.tidy.grown hg h
  continues := hs.continues
  threads_eq := (hs.tidy.threads_eq hg h).trans hs.threads_eq

theorem Stage.full_eq {full : Bool} {T : Set Thread} {s : ConfigSet} {g : StackGraph}
    (hs : Stage full T s g) : s.fullContext = full := hs.continues.fullContext_eq

theorem Stage.trim_eq {full : Bool} {T : Set Thread} {s : ConfigSet} {g : StackGraph}
    (hg : g.Sound) (hs : Stage full T s g) : trim (!full) T = T := by
  have h := hs.tidy.trim_threads hg
  rwa [hs.full_eq, hs.threads_eq] at h

/-- **A prediction goes on from no crowded set.** -/
theorem Stage.not_crowded {full : Bool} {T : Set Thread} {s : ConfigSet} {g : StackGraph}
    (hg : g.Sound) (hs : Stage full T s g) : ¬Crowded Limits.configsPerSet T := by
  have hroom : s.maxSize = Limits.configsPerSet := hs.continues.maxSize_eq
  rw [← hs.threads_eq, ← hroom]
  exact hs.tidy.not_crowded hg

/-- The stage that comes of adding configurations to a set, unless there is no room for them. -/
private theorem insertAll_stage {full : Bool} {s₀ : ConfigSet} {cs : List Config}
    {g : StackGraph} (hg : g.Sound) (htidy : s₀.Tidy g)
    (hcont : (ConfigSet.forParser full).Continues s₀) (hcs : ∀ c ∈ cs, c.Held g (!full))
    {T : Set Thread} (hT : s₀.threads g ∪ {t | ∃ c ∈ cs, t ∈ c.threads g} = T) :
    Grows (cs.foldlM ConfigSet.insert s₀) g (Stage full (trim (!full) T))
      (Exceeded.Meets (fun _ => False) (Crowded Limits.configsPerSet T) g.maxDepth) := by
  have hfull : s₀.fullContext = full := hcont.fullContext_eq
  have hroom : s₀.maxSize = Limits.configsPerSet := hcont.maxSize_eq
  have hinsert := ConfigSet.insertAll_grows hg htidy (by rwa [hfull])
  rw [hT, hroom] at hinsert
  refine (hinsert.failing fun e he => he.imp_right .inr).mono
    fun s' g' hgrown ⟨htidy', hcont', hthreads⟩ => ⟨htidy', hcont.trans hcont', ?_⟩
  have hfull' : s'.fullContext = full := (hcont.trans hcont').fullContext_eq
  rw [hfull] at hthreads
  have htrim := htidy'.threads_eq_trim hgrown.sound (T := T) (by rw [hfull', hthreads])
  rwa [hfull'] at htrim

/-- Consuming a symbol. -/
private theorem consume_ends {full : Bool} {s : ConfigSet} {tr : Trail} {v : Symbol}
    (hg : tr.graph.Sound) (htidy : s.Tidy tr.graph) (hfull : s.fullContext = full) :
    Probe.Ends true (q.consume v full s) tr
      (Stage full (trim (!full) (q.net.movedOn v (s.threads tr.graph))))
      (Exceeded.Meets (fun _ => False)
        (Crowded Limits.configsPerSet (q.net.movedOn v (s.threads tr.graph)))) := by
  rw [consume_eq]
  refine .grow (insertAll_stage hg (ConfigSet.tidy_forParser _ _) (.refl _) ?_ ?_)
  · intro c' hc'
    obtain ⟨c, hc, hc'⟩ := List.mem_flatMap.mp hc'
    obtain ⟨t, _, rfl⟩ := List.mem_map.mp hc'
    have hheld := htidy.held c (List.mem_filter.mp hc).1
    rw [hfull] at hheld
    exact hheld.congr rfl rfl rfl
  · rw [ConfigSet.threads_forParser, Set.empty_union]
    ext ⟨tag, p, σ⟩
    constructor
    · rintro ⟨c', hc', htag, hp, hσ⟩
      obtain ⟨c, hc, hc'⟩ := List.mem_flatMap.mp hc'
      obtain ⟨t, ht, rfl⟩ := List.mem_map.mp hc'
      obtain ⟨hc, hstop⟩ := List.mem_filter.mp hc
      obtain ⟨ht, hacc⟩ := List.mem_filter.mp ht
      refine ⟨c.state, t, ⟨c, hc, htag, rfl, hσ⟩, ?_, ht, hacc, hp⟩
      exact Bool.eq_false_of_not_eq_true' hstop
    · rintro ⟨p', t, ⟨c, hc, htag, hp', hσ⟩, hstop, ht, hacc, hp⟩
      obtain rfl : p' = c.state := hp'
      refine ⟨c.moveTo t.target, List.mem_flatMap.mpr ⟨c, List.mem_filter.mpr ⟨hc, ?_⟩,
        List.mem_map.mpr ⟨t, List.mem_filter.mpr ⟨ht, hacc⟩, rfl⟩⟩, htag, hp, hσ⟩
      have hstop' : q.atRuleStop c = false := hstop
      rw [hstop']
      rfl

/-- A set has no more tags than there is room for configurations. -/
private theorem Stage.card_tags_le {full : Bool} {T : Set Thread} {s : ConfigSet} {g : StackGraph}
    (hs : Stage full T s g) :
    (s.toList.map Config.tag).toFinset.card ≤ Limits.configsPerSet := by
  have hlen : s.toList.length ≤ Limits.configsPerSet := by
    have hroom := hs.tidy.room
    rw [hs.continues.maxSize_eq] at hroom
    exact hroom
  exact (List.toFinset_card_le _).trans (by rwa [List.length_map])

/-- Closures can begin with the configurations of a set. -/
private theorem Stage.begins {full : Bool} {T : Set Thread} {s : ConfigSet} {g : StackGraph}
    (hs : Stage full T s g) (hg : g.Sound) (hstates : ∀ t ∈ T, t.2.1 < words) {c : Config}
    (hc : c ∈ s.toList) : c.Within words (s.toList.map Config.tag).toFinset full g := by
  have hheld := hs.tidy.held c hc
  rw [hs.full_eq] at hheld
  refine ⟨hheld, ?_, List.mem_toFinset.mpr (List.mem_map_of_mem hc)⟩
  obtain ⟨σ, hσ⟩ := hs.tidy.exists_stack hg hc
  refine hstates (c.tag, c.state, σ) ?_
  rw [← hs.threads_eq]
  exact ConfigSet.mem_threads_of_mem hc hσ

/-- Closing the threads of a set. -/
private theorem closeAll_ends (hnet : q.net.Consistent) (hword : q.net.states.size ≤ emptyReturn)
    (hno : q.net.NoReentry) (hwords : emptyReturn ≤ words) {m : Manner} {T : Set Thread}
    {s : ConfigSet} {tr : Trail} (hg : tr.graph.Sound)
    (hfuel : sweepBound words Limits.configsPerSet tr.graph.maxNodes < q.fuel)
    (hs : Stage m.full T s tr.graph) (hstates : ∀ t ∈ T, t.2.1 < words) :
    Probe.Ends true (q.closeAll m s) tr
      (fun s' g' => Stage m.full (trim (!m.full) (q.net.closureOf m T)) s' g' ∧
        (∀ t ∈ q.net.reached m T, t.2.2.length ≤ tr.graph.maxDepth) ∧
        ¬Crowded Limits.configsPerSet (q.net.closureOf m T))
      (q.net.ClosingMeets m T) := by
  have hT : {t | ∃ c ∈ s.toList, t ∈ c.threads tr.graph} = T := hs.threads_eq
  unfold closeAll
  have hplain : Visit.Plain q.net false := nofun
  refine (closures_ends hnet hword (hno.noReentryBy _) hwords hplain (s.toList.map Config.tag).toFinset s.toList hg
    ((sweepBound_mono hs.card_tags_le).trans_lt hfuel) fun c hc => ?_).failing ?_ |>.bind
    fun acc t' hext ⟨htidy, hcont, hthreads, hshort, hroom⟩ => .pure hext.sound ?_
  · have hwithin := hs.begins hg hstates hc
    exact ⟨hwithin.held, hwithin.state_lt, hwithin.tag_mem⟩
  · rw [hT]
    exact fun e he => he
  · rw [hT] at hthreads hshort hroom
    exact ⟨⟨htidy, hcont, hthreads⟩, hshort, hroom⟩

/-- Closing the threads of a set comes to an end, whether or not rules re-enter themselves, and under
exact stacks nothing is made up. -/
private theorem closeAll_stays (hnet : q.net.Consistent) (hword : q.net.states.size ≤ emptyReturn)
    {m : Manner} {T : Set Thread} {s : ConfigSet} {tr : Trail} (hg : tr.graph.Sound)
    (hfuel : sweepBound emptyReturn Limits.configsPerSet tr.graph.maxNodes < q.fuel)
    (hs : Stage m.full T s tr.graph) (hstates : ∀ t ∈ T, t.2.1 < emptyReturn) :
    Probe.Ends false (q.closeAll m s) tr (fun s' g' => ∃ T', Stage m.full T' s' g' ∧
      (m.full = true → T' ⊆ q.net.closureOf m T)) Exceeded.Ordinary := by
  have hstock : Stocked q.net (s.toList.map Config.tag).toFinset false := nofun
  have hfuel' := (sweepBound_mono hs.card_tags_le).trans_lt hfuel
  have hcs := fun c hc => hs.begins hg hstates (c := c) hc
  have hT : {t | ∃ c ∈ s.toList, t ∈ c.threads tr.graph} = T := hs.threads_eq
  have hbounded := closures_bounded hnet hword le_rfl hstock hg hfuel' hcs
  unfold closeAll
  by_cases hm : m.full = true
  · refine (hbounded.both (closures_confined hm hnet hword hstock hg hfuel' hcs)).bind
      fun acc t' hext ⟨⟨htidy, hcont, _⟩, hsub⟩ => .pure hext.sound ⟨_, ⟨htidy, hcont, rfl⟩, ?_⟩
    rw [hT] at hsub
    exact fun _ => hsub
  · exact hbounded.bind fun acc t' hext ⟨htidy, hcont, _⟩ =>
      .pure hext.sound ⟨_, ⟨htidy, hcont, rfl⟩, fun h => absurd h hm⟩

/-- Keeping what has finished its rule. -/
private theorem finished_ends {full : Bool} {T : Set Thread} {s : ConfigSet} {tr : Trail}
    (hg : tr.graph.Sound) (hs : Stage full T s tr.graph) :
    Probe.Ends true (q.finished s) tr (Stage full (q.net.stopped T))
      (Exceeded.Meets (fun _ => False) False) := by
  have htrim : trim (!full) (q.net.stopped T) = q.net.stopped T := trim_stopped (hs.trim_eq hg)
  unfold finished
  by_cases hall : s.allAtRuleStop q.net = true
  · rw [if_pos hall]
    have hstop := (hs.tidy.allAtRuleStop_iff hg q.net).mp hall
    rw [hs.threads_eq] at hstop
    have hsame : q.net.stopped T = T :=
      Set.Subset.antisymm (fun _ ht => ht.1) fun t ht => ⟨ht, hstop t ht⟩
    rw [hsame]
    exact .pure hg hs
  · rw [if_neg hall, hs.full_eq, ← htrim]
    refine (Probe.Ends.grow (insertAll_stage hg (ConfigSet.tidy_forParser _ _) (.refl _)
      ?_ ?_)).failing fun e he => he.mono id ?_
    · intro c hc
      have hheld := hs.tidy.held c (List.mem_filter.mp hc).1
      rwa [hs.full_eq] at hheld
    · rw [ConfigSet.threads_forParser, Set.empty_union, ← hs.threads_eq]
      ext ⟨tag, p, σ⟩
      constructor
      · rintro ⟨c, hc, htag, hp, hσ⟩
        obtain ⟨hc, hstop⟩ := List.mem_filter.mp hc
        exact ⟨⟨c, hc, htag, hp, hσ⟩, by rw [show p = c.state from hp]; exact hstop⟩
      · rintro ⟨⟨c, hc, htag, hp, hσ⟩, hstop⟩
        obtain rfl : p = c.state := hp
        exact ⟨c, List.mem_filter.mpr ⟨hc, hstop⟩, htag, rfl, hσ⟩
    · exact fun hcrowded => hs.not_crowded hg (hcrowded.mono fun _ ht => ht.1)

/-- The configurations that wait are those of the threads that wait. -/
private theorem mem_waiting_threads {full : Bool} {s : ConfigSet} {g : StackGraph} {v : Symbol} :
    {t | ∃ c ∈ q.waiting v full s, t ∈ c.threads g} = q.net.waitingOf full v (s.threads g) := by
  unfold waiting
  ext ⟨tag, p, σ⟩
  by_cases hwait : (full || v == Symbol.eof) = true
  · have hwait' : full = true ∨ v = Symbol.eof := by simpa using hwait
    rw [if_pos hwait]
    constructor
    · rintro ⟨c, hc, htag, hp, hσ⟩
      obtain ⟨hc, hstop⟩ := List.mem_filter.mp hc
      exact ⟨⟨⟨c, hc, htag, hp, hσ⟩, by rw [show p = c.state from hp]; exact hstop⟩, hwait'⟩
    · rintro ⟨⟨⟨c, hc, htag, hp, hσ⟩, hstop⟩, _⟩
      obtain rfl : p = c.state := hp
      exact ⟨c, List.mem_filter.mpr ⟨hc, hstop⟩, htag, rfl, hσ⟩
  · rw [if_neg hwait]
    constructor
    · rintro ⟨c, hc, _⟩
      cases hc
    · rintro ⟨_, hwait'⟩
      exact absurd (by simpa using hwait') hwait

private theorem mem_of_mem_waiting {full : Bool} {s : ConfigSet} {v : Symbol} {c : Config}
    (hc : c ∈ q.waiting v full s) : c ∈ s.toList := by
  unfold waiting at hc
  split at hc
  · exact (List.mem_filter.mp hc).1
  · cases hc

open Classical in
/-- Adding what waits. -/
private theorem addWaiting_ends {full : Bool} {N : Set Thread} {s next : ConfigSet} {tr : Trail}
    {v : Symbol} (hg : tr.graph.Sound) (htidy : s.Tidy tr.graph) (hfull : s.fullContext = full)
    (hnext : Stage full N next tr.graph) :
    Probe.Ends true (q.addWaiting full (q.waiting v full s) next) tr
      (Stage full (if full = true ∧ (q.net.stopped N).Nonempty then N
        else trim (!full) (N ∪ q.net.waitingOf full v (s.threads tr.graph))))
      (Exceeded.Meets (fun _ => False) (Crowded Limits.configsPerSet
        (if full = true ∧ (q.net.stopped N).Nonempty then N
        else trim (!full) (N ∪ q.net.waitingOf full v (s.threads tr.graph))))) := by
  have hstopped : next.someAtRuleStop q.net = true ↔ (q.net.stopped N).Nonempty := by
    rw [hnext.tidy.someAtRuleStop_iff hg, hnext.threads_eq]
    rfl
  unfold addWaiting
  by_cases hdone : (full && next.someAtRuleStop q.net) = true
  · have hdone' : full = true ∧ (q.net.stopped N).Nonempty := by
      rwa [Bool.and_eq_true, hstopped] at hdone
    rw [if_pos hdone, if_pos hdone']
    exact .pure hg hnext
  · have hdone' : ¬ (full = true ∧ (q.net.stopped N).Nonempty) := by
      rwa [Bool.and_eq_true, hstopped] at hdone
    rw [if_neg hdone, if_neg hdone', crowded_trim]
    refine .grow (insertAll_stage hg hnext.tidy hnext.continues ?_ ?_)
    · intro c hc
      have hheld := htidy.held c (mem_of_mem_waiting hc)
      rwa [hfull] at hheld
    · rw [hnext.threads_eq, mem_waiting_threads]

private theorem isSettled_iff {full : Bool} {T : Set Thread} {s : ConfigSet} {g : StackGraph}
    (hg : g.Sound) (hs : Stage full T s g) (hT : Proper T) :
    (s.size == 1 || s.commonAlt != noAlternative) = true ↔ ∃ a, Speaks T a := by
  rw [← hs.threads_eq]
  constructor
  · intro h
    by_cases hcommon : s.commonAlt = noAlternative
    · have hsize : s.size = 1 := by simpa [hcommon] using h
      obtain ⟨c, hc⟩ := List.length_eq_one_iff (l := s.toList).mp hsize
      have hmem : c ∈ s.toList := by simp [hc]
      obtain ⟨σ, hσ⟩ := hs.tidy.exists_stack hg hmem
      refine ⟨c.alt, ⟨_, ConfigSet.mem_threads_of_mem hmem hσ⟩, ?_⟩
      rw [hs.tidy.forall_thread_iff hg (p := fun tag _ => tag.1 = c.alt)]
      intro d hd
      rw [hc, List.mem_singleton] at hd
      rw [hd]
      rfl
    · exact ⟨_, (hs.tidy.commonAlt_eq_iff hg hcommon).mp rfl⟩
  · rintro ⟨a, ha⟩
    have hne : a ≠ noAlternative := by
      obtain ⟨t, ht⟩ := ha.1
      rw [← ha.2 t ht]
      exact hT t (hs.threads_eq ▸ ht)
    have hcommon := (hs.tidy.commonAlt_eq_iff hg hne).mpr ha
    simp [hcommon, hne]

/-- A set is left unclosed if nothing waits, the input goes on and one alternative alone is left. -/
private theorem unclosed_iff {full : Bool} {T : Set Thread} {s moved : ConfigSet}
    {g g' : StackGraph} {v : Symbol} (hg : g.Sound) (hg' : g'.Sound) (hs : s.Tidy g)
    (hT : Proper (s.threads g)) (hmoved : Stage full T moved g')
    (hmovedT : T = trim (!full) (q.net.movedOn v (s.threads g))) :
    ((q.waiting v full s).isEmpty && !(v == Symbol.eof) &&
      (moved.size == 1 || moved.commonAlt != noAlternative)) = true ↔
      q.net.waitingOf full v (s.threads g) = ∅ ∧ v ≠ Symbol.eof ∧ ∃ a, Speaks T a := by
  have hwaiting : (q.waiting v full s).isEmpty = true ↔
      q.net.waitingOf full v (s.threads g) = ∅ := by
    rw [← mem_waiting_threads, List.isEmpty_iff, Set.eq_empty_iff_forall_notMem]
    constructor
    · rintro hnil t ⟨c, hc, _⟩
      rw [hnil] at hc
      cases hc
    · intro hnone
      by_contra hne
      obtain ⟨c, hc⟩ := List.exists_mem_of_ne_nil _ hne
      obtain ⟨σ, hσ⟩ := hs.exists_stack hg (mem_of_mem_waiting hc)
      exact hnone (c.tag, c.state, σ) ⟨c, hc, rfl, rfl, hσ⟩
  have hproper : Proper T := by
    rw [hmovedT]
    rintro ⟨tag, p, σ⟩ ⟨⟨p', _, ht, _⟩, _⟩
    exact hT (tag, p', σ) ht
  rw [Bool.and_eq_true, Bool.and_eq_true, hwaiting, isSettled_iff hg' hmoved hproper]
  simp [and_assoc]

/-- **One step of a prediction depends on the threads alone,** and so does which ceilings it meets
other than that of the nodes. -/
theorem reach_ends (hnet : q.net.Consistent) (hword : q.net.states.size ≤ emptyReturn)
    (hno : q.net.NoReentry) (hwords : emptyReturn ≤ words) {full : Bool} {T : Set Thread}
    {s : ConfigSet} {v : Symbol} {tr : Trail} (hg : tr.graph.Sound)
    (hfuel : sweepBound words Limits.configsPerSet tr.graph.maxNodes < q.fuel)
    (hs : Stage full T s tr.graph) (hT : Proper T) :
    Probe.Ends true (q.reach v full s) tr
      (fun next g' => q.net.Withstands tr.graph.maxDepth full v T ∧
        match next with
        | none => q.net.reachOf full v T = ∅
        | some s' =>
          (q.net.reachOf full v T).Nonempty ∧ Stage full (q.net.reachOf full v T) s' g')
      (q.net.ReachMeets full v T) := by
  have hconsume := consume_ends (q := q) (v := v) hg hs.tidy hs.full_eq
  rw [hs.threads_eq] at hconsume
  rw [reach_eq]
  refine (hconsume.failing fun e he => he.mono False.elim .inl).bind
    fun moved tr₁ hext₁ hmoved => ?_
  have hroom₁ : ¬Crowded Limits.configsPerSet (q.net.movedOn v T) :=
    (crowded_trim _ _).not.mp (hmoved.not_crowded hext₁.sound)
  have hcond : ((q.waiting v full s).isEmpty && !(v == Symbol.eof) &&
      (moved.size == 1 || moved.commonAlt != noAlternative)) = true ↔
      q.net.waitingOf full v T = ∅ ∧ v ≠ Symbol.eof ∧
        ∃ a, Speaks (trim (!full) (q.net.movedOn v T)) a := by
    have hunclosed := unclosed_iff (q := q) hg hext₁.sound hs.tidy (hs.threads_eq.symm ▸ hT) hmoved
      (by rw [hs.threads_eq])
    rwa [hs.threads_eq] at hunclosed
  classical
  have hclose : Probe.Ends true
      (if (q.waiting v full s).isEmpty && !(v == Symbol.eof) &&
          (moved.size == 1 || moved.commonAlt != noAlternative) then pure moved
        else q.closeAll { full, atEof := v == Symbol.eof } moved) tr₁
      (fun next g' => Stage full (if q.net.waitingOf full v T = ∅ ∧ v ≠ Symbol.eof ∧
          ∃ a, Speaks (trim (!full) (q.net.movedOn v T)) a then trim (!full) (q.net.movedOn v T)
        else trim (!full) (q.net.closureOf { full, atEof := v == Symbol.eof }
          (trim (!full) (q.net.movedOn v T)))) next g' ∧
        ¬q.net.Outgrows full v T tr₁.graph.maxDepth ∧
        ¬(q.net.ClosesAfter full v T ∧ Crowded Limits.configsPerSet
          (q.net.closureOf { full, atEof := v == Symbol.eof } (trim (!full) (q.net.movedOn v T)))))
      (q.net.ReachMeets full v T) := by
    by_cases hsettled : q.net.waitingOf full v T = ∅ ∧ v ≠ Symbol.eof ∧
        ∃ a, Speaks (trim (!full) (q.net.movedOn v T)) a
    · rw [if_pos hsettled, if_pos (hcond.mpr hsettled)]
      exact .pure hext₁.sound ⟨hmoved, fun h => h.1 hsettled, fun h => h.1 hsettled⟩
    · rw [if_neg hsettled, if_neg fun h => hsettled (hcond.mp h)]
      refine ((closeAll_ends (m := { full, atEof := v == Symbol.eof }) hnet hword hno hwords
        hext₁.sound (hext₁.grown.maxNodes_eq ▸ hfuel) hmoved ?_).failing fun e he =>
          Exceeded.Meets.mono he (fun h => ⟨hsettled, h⟩) fun h => .inr (.inl ⟨hsettled, h⟩)).mono
        fun _ _ _ ⟨hnext, hshort, hroom⟩ => ⟨hnext, ?_, fun h => hroom h.2⟩
      · rintro t ht
        obtain ⟨p, t', _, _, ht', _, hp⟩ := trim_subset _ _ ht
        rw [hp]
        exact Nat.lt_of_lt_of_le (hnet.target_lt p t' ht') (hword.trans hwords)
      · rintro ⟨-, t, ht, hlong⟩
        exact absurd (hshort t ht) (Nat.not_le.mpr hlong)
  refine hclose.bind fun next tr₂ hext₂ ⟨hnext, hshort, hroom₂⟩ => ?_
  have hfinish : Probe.Ends true (if v == Symbol.eof then q.finished next else pure next) tr₂
      (Stage full (q.net.advanceOf full v T)) (q.net.ReachMeets full v T) := by
    unfold Network.advanceOf
    dsimp only
    by_cases heof : v = Symbol.eof
    · have hbeq : (v == Symbol.eof) = true := by simpa using heof
      rw [if_pos hbeq, if_pos heof]
      exact (finished_ends hext₂.sound hnext).failing fun e he => he.mono False.elim False.elim
    · have hbeq : ¬ (v == Symbol.eof) = true := by simpa using heof
      rw [if_neg hbeq, if_neg heof]
      exact .pure hext₂.sound hnext
  refine hfinish.bind fun next₂ tr₃ hext₃ hnext₂ => ?_
  have hs₃ : Stage full T s tr₃.graph :=
    hs.grown hg ((hext₁.grown.trans hext₂.grown).trans hext₃.grown)
  have hadd := addWaiting_ends (q := q) (v := v) hext₃.sound hs₃.tidy hs₃.full_eq hnext₂
  have hreachOf : q.net.reachOf full v T =
      if full = true ∧ (q.net.stopped (q.net.advanceOf full v T)).Nonempty
      then q.net.advanceOf full v T
      else trim (!full) (q.net.advanceOf full v T ∪ q.net.waitingOf full v T) := by
    unfold Network.reachOf
    congr
  rw [hs₃.threads_eq, ← hreachOf] at hadd
  refine (hadd.failing fun e he => he.mono False.elim fun h => .inr (.inr h)).bind
    fun next₃ tr₄ hext₄ hreach => .pure hext₄.sound ⟨⟨?_, ?_⟩, ?_⟩
  · rwa [hext₁.grown.maxDepth_eq] at hshort
  · rintro (hcrowded | hcrowded | hcrowded)
    · exact hroom₁ hcrowded
    · exact hroom₂ hcrowded
    · exact hreach.not_crowded hext₄.sound hcrowded
  by_cases hempty : next₃.isEmpty = true
  · rw [if_pos hempty]
    rw [hreach.tidy.isEmpty_iff hext₄.sound, hreach.threads_eq] at hempty
    exact hempty
  · rw [if_neg hempty]
    rw [hreach.tidy.isEmpty_iff hext₄.sound, hreach.threads_eq] at hempty
    exact ⟨Set.nonempty_iff_ne_empty.mpr hempty, hreach⟩

/-- **One step of a prediction comes to an end** with a set that predictions can go on from, whether
or not rules re-enter themselves, and leaves nothing that its threads do not lead to. -/
theorem reach_stays (hnet : q.net.Consistent) (hword : q.net.states.size ≤ emptyReturn)
    {full : Bool} {s : ConfigSet} {v : Symbol} {tr : Trail} (hg : tr.graph.Sound)
    (hfuel : sweepBound emptyReturn Limits.configsPerSet tr.graph.maxNodes < q.fuel)
    (htidy : s.Tidy tr.graph) (hfull : s.fullContext = full) :
    Probe.Ends false (q.reach v full s) tr (fun next g' => ∀ s', next = some s' →
      ∃ T, Stage full T s' g' ∧ q.net.Leaves full v (s.threads tr.graph) T)
      Exceeded.Ordinary := by
  rw [reach_eq]
  refine ((consume_ends hg htidy hfull).aloud.failing fun _ => .ordinary).bind fun moved tr₁ hext₁ hmoved => ?_
  classical
  have hclose : Probe.Ends false
      (if (q.waiting v full s).isEmpty && !(v == Symbol.eof) &&
          (moved.size == 1 || moved.commonAlt != noAlternative) then pure moved
        else q.closeAll { full, atEof := v == Symbol.eof } moved) tr₁
      (fun s' g' => ∃ N, Stage full N s' g' ∧ (full = true → Proper (s.threads tr.graph) →
        (if v = Symbol.eof then q.net.stopped N else N) ⊆
          q.net.advanceOf true v (s.threads tr.graph))) Exceeded.Ordinary := by
    split
    · next hunclosed =>
      refine .pure hext₁.sound ⟨_, hmoved, ?_⟩
      rintro rfl hT
      have hsettled := (unclosed_iff (q := q) hg hext₁.sound htidy hT hmoved rfl).mp hunclosed
      unfold Network.advanceOf
      dsimp only
      rw [if_pos hsettled, if_neg hsettled.2.1]
    · next hclosed =>
      refine (closeAll_stays (m := { full, atEof := v == Symbol.eof }) hnet hword hext₁.sound
        (hext₁.grown.maxNodes_eq ▸ hfuel) hmoved ?_).mono
          fun s' g' _ ⟨N, hnext, hN⟩ => ⟨N, hnext, ?_⟩
      · rintro t ht
        obtain ⟨p, t', _, _, ht', _, hp⟩ := trim_subset _ _ ht
        rw [hp]
        exact Nat.lt_of_lt_of_le (hnet.target_lt p t' ht') hword
      · rintro rfl hT
        have hsettled := (unclosed_iff (q := q) hg hext₁.sound htidy hT hmoved rfl).not.mp hclosed
        unfold Network.advanceOf
        dsimp only
        rw [if_neg hsettled, Bool.not_true, trim_false]
        split
        · exact fun t ht => ⟨hN rfl ht.1, ht.2⟩
        · exact hN rfl
  refine hclose.bind fun next tr₂ hext₂ ⟨N, hnext, hN⟩ => ?_
  have hfinish : Probe.Ends false (if v == Symbol.eof then q.finished next else pure next) tr₂
      (Stage full (if v = Symbol.eof then q.net.stopped N else N)) Exceeded.Ordinary := by
    by_cases heof : v = Symbol.eof
    · rw [if_pos (beq_iff_eq.mpr heof), if_pos heof]
      exact (finished_ends hext₂.sound hnext).aloud.failing fun _ => .ordinary
    · rw [if_neg (fun h => heof (beq_iff_eq.mp h)), if_neg heof]
      exact .pure hext₂.sound hnext
  refine hfinish.bind fun next₂ tr₃ hext₃ hnext₂ => ?_
  have hgrown₃ := (hext₁.grown.trans hext₂.grown).trans hext₃.grown
  have hadd := addWaiting_ends (q := q) (v := v) hext₃.sound (htidy.grown hg hgrown₃) hfull hnext₂
  rw [htidy.threads_eq hg hgrown₃] at hadd
  generalize hM : (if v = Symbol.eof then q.net.stopped N else N) = M at hadd hN
  refine (hadd.aloud.failing fun _ => .ordinary).bind fun next₃ tr₄ hext₄ hnext₃ => .pure hext₄.sound fun s' hs' => ?_
  -- What is left has moved on, or it waits.
  have hleft : ∀ t ∈ (if full = true ∧ (q.net.stopped M).Nonempty then M
      else trim (!full) (M ∪ q.net.waitingOf full v (s.threads tr.graph))),
      t ∈ M ∨ t ∈ q.net.waitingOf full v (s.threads tr.graph) := by
    intro t ht
    split at ht
    · exact .inl ht
    · exact trim_subset _ _ ht
  split at hs'
  · cases hs'
  · next hempty =>
    rw [hnext₃.tidy.isEmpty_iff hext₄.sound, hnext₃.threads_eq] at hempty
    refine Option.some.inj hs' ▸ ⟨_, hnext₃, Set.nonempty_iff_ne_empty.mpr hempty, ?_, ?_⟩
    · rintro rfl t ht
      rcases hleft t ht with ht | ht
      · rw [← hM, if_pos rfl] at ht
        exact ht.2
      · exact ht.1.2
    · rintro rfl hT t ht
      exact (hleft t ht).imp (fun h => hN rfl hT h) id

end Question

end AdaptiveLL
