import AdaptiveLL.Proofs.Prediction.Sweep

/-!
# Following visits

Every step of a sweep keeps its invariant: entering the configuration that a transition leads to,
returning to a caller, and so following a whole visit.
-/

namespace AdaptiveLL

open StackGraph (Begins Grows Grown Sound)

namespace Sweeping

variable {net : Network} {m : Manner} {T P due owed : Set Thread} {s : Sweep} {g : StackGraph}

/-- Marks on the collected set do not matter. -/
theorem dips (hs : Sweeping net m T P due owed s g) :
    Sweeping net m T P due owed { s with configs := { s.configs with dipsOut := true } } g :=
  ⟨⟨hs.tidy.unordered, hs.tidy.distinct, hs.tidy.held, hs.tidy.guards_iff, hs.tidy.room⟩,
    ⟨hs.continues.fullContext_eq, hs.continues.uniqueAlt_eq, hs.continues.conflicting_eq,
      hs.continues.maxSize_eq⟩,
    hs.ready, hs.seen, hs.covered, hs.followed, hs.sound, hs.short, hs.collected⟩

/-- Takes the next visit off the work list: where its threads lead is due, and those that rest are
owed. -/
theorem pop {v : Visit} {rest : List Visit} (hg : g.Sound) (hwork : s.work = v :: rest)
    (hs : Sweeping net m T P ∅ ∅ s g)
    (hdue : ∀ u, u ∈ due ↔ ∃ t ∈ v.config.threads g, t.1 = u.1 ∧
      net.Hop m.full m.atEof t.2 u.2)
    (howed : ∀ t, t ∈ owed ↔ t ∈ v.config.threads g ∧ net.Rests m.full t.2) :
    Sweeping net m T (P ∪ v.config.threads g) due owed { s with work := rest } g := by
  have hahead : s.ahead g =
      v.config.threads g ∪ ({ s with work := rest } : Sweep).ahead g := by
    ext t
    simp [Sweep.ahead, hwork]
  have hreached : ∀ t ∈ v.config.threads g, t ∈ net.reached m T := fun t ht =>
    hs.sound (.inl (.inr (by rw [hahead]; exact .inl ht)))
  refine ⟨hs.tidy, hs.continues, fun u hu => hs.ready u (by simp [hwork, hu]), ?_, ?_, ?_, ?_, ?_,
    ?_⟩
  · intro k hk
    refine ⟨(hs.seen k hk).1, (hs.seen k hk).2.trans ?_⟩
    rw [hahead, Set.union_assoc]
  · have hcovered := hs.covered
    rwa [hahead, ← Set.union_assoc] at hcovered
  · rintro t (ht | ht) u htag hhop
    · have hu := hs.followed t ht u htag hhop
      rw [hahead] at hu
      simp only [Set.mem_union, Set.mem_empty_iff_false, or_false] at hu ⊢
      tauto
    · exact .inr ((hdue u).mpr ⟨t, ht, htag, hhop⟩)
  · rintro t ((ht | ht) | ht)
    · rcases ht with ht | ht
      · exact hs.sound (.inl (.inl ht))
      · exact hreached t ht
    · exact hs.sound (.inl (.inr (by rw [hahead]; exact .inr ht)))
    · obtain ⟨u, hu, htag, hhop⟩ := (hdue t).mp ht
      exact Network.reached_hop (hreached u hu) htag hhop
  · rintro t (ht | ⟨-, -, hγ⟩)
    · exact hs.short t ht
    · exact hγ.length_le hg
  · have howed' : owed = {t ∈ v.config.threads g | net.Rests m.full t.2} := Set.ext howed
    have hcoll := hs.collected
    rw [Set.union_empty] at hcoll
    rw [spread_union, hcoll, ← spread_union, howed']
    congr 1
    ext t
    simp only [Set.mem_union, Set.mem_ofPred_eq]
    tauto

end Sweeping

namespace Question

variable {q : Question} {m : Manner} {T P due owed : Set Thread}

/-! ## Entering -/

/-- The rules nested where a transition leads, without leaving the rule of the visit. -/
private theorem nests_of_follows {net : Network} {g : StackGraph} {v : Visit} {t : Transition}
    {next : Config} (hv : v.Nests net m.atEof g) (hstop : net.isStop v.config.state = false)
    (ht : t ∈ (net.state v.config.state).transitions)
    (hthreads : next.threads g = onwardThreads m.atEof v.config.tag
      (g.stackSet v.config.stack) t) (collect : Bool) :
    Visit.Nests net m.atEof g
      { config := next, depth := if t.isRule = true ∧ 0 ≤ v.depth then v.depth + 1 else v.depth,
        collect } := by
  intro hdepth σ' hσ'
  have hmem : (next.tag, next.state, σ') ∈ next.threads g := ⟨rfl, rfl, hσ'⟩
  rw [hthreads] at hmem
  obtain ⟨_, σ, hσ, hon⟩ := hmem
  change t.onward m.atEof σ = some (next.state, σ') at hon
  have hpos : 0 ≤ v.depth := by
    by_contra hneg
    rw [if_neg (fun h => hneg h.2)] at hdepth
    exact hneg hdepth
  obtain ⟨rules, hlen, hnested⟩ := hv hpos σ hσ
  rcases Transition.onward_eq hon with heq | ⟨rule, follow, level, hrule, heq⟩
  · obtain ⟨hstate, rfl⟩ := Prod.mk.inj heq
    have hcall : t.isRule = false := by
      cases t <;> first | rfl | simp [Transition.onward] at hon
    refine ⟨rules, by simp [hcall, hlen], ?_⟩
    exact hnested.move (.single (.along (fun h => by simp [hstop] at h) ht
      (Transition.onward_any hon [])))
  · obtain ⟨hstate, rfl⟩ := Prod.mk.inj heq
    refine ⟨rule :: rules, by rw [hrule]; simp [Transition.isRule, hpos, hlen], ?_⟩
    change net.Nested m.atEof (next.state, follow :: σ) _
    rw [hstate]
    exact hnested.enter hstop (hrule ▸ ht)

/-- A thread that leaves for an unknown caller has no nested rules. -/
private theorem nests_of_leaves {net : Network} {g : StackGraph} (hg : g.Sound) {v : Visit}
    (hv : v.Nests net m.atEof g) (hstack : v.config.stack = StackId.empty) (next : Config)
    (collect : Bool) :
    Visit.Nests net m.atEof g { config := next, depth := v.depth - 1, collect } := by
  intro hdepth
  have hnil : g.HasStack v.config.stack [] := by
    have hmem : ([] : List Nat) ∈ g.stackSet StackId.empty := by rw [hg.stackSet_empty]; rfl
    rwa [← hstack] at hmem
  change 0 ≤ v.depth - 1 at hdepth
  obtain ⟨rules, hlen, hnested⟩ := hv (by omega) [] hnil
  cases hnested with
  | base =>
    simp only [List.length_nil, Int.natCast_zero] at hlen
    omega

/-- **Entering a configuration** puts its threads on the work list, unless they have been seen. -/
theorem enter_ends (hnet : q.net.Consistent) (hno : q.net.NoReentryBy m.atEof) {v : Visit}
    {t : Transition} {next : Config} {collect : Bool} {s : Sweep} {tr : Trail}
    (hg : tr.graph.Sound) (hv : v.Ready q.net m tr.graph)
    (hleaves : q.net.isStop v.config.state = true → v.config.stack = StackId.empty)
    (ht : t ∈ (q.net.state v.config.state).transitions) (hplain : Visit.Plain q.net collect)
    (hheld : next.Held tr.graph (!m.full))
    (hthreads : next.threads tr.graph = onwardThreads m.atEof v.config.tag
      (tr.graph.stackSet v.config.stack) t)
    (hs : Sweeping q.net m T P (next.threads tr.graph ∪ due) owed s tr.graph) :
    Probe.Ends true (q.enter v (q.net.state v.config.state) t collect next s) tr
      (Sweeping q.net m T P due owed) (q.net.ClosingMeets m T) := by
  unfold enter
  have hlift : ∀ n : Nat, ({ next with outer := n } : Config).threads tr.graph =
      next.threads tr.graph := fun _ => rfl
  have hheld' : ∀ n : Nat, ({ next with outer := n } : Config).Held tr.graph (!m.full) := fun _ =>
    hheld.congr rfl rfl rfl
  generalize hn : (if (q.net.state v.config.state).isRuleStop = true then
    { next with outer := next.outer + 1 } else next) = n
  have hform : ∃ k, n = { next with outer := k } := by
    rw [← hn]
    split
    · exact ⟨_, rfl⟩
    · exact ⟨next.outer, rfl⟩
  obtain ⟨k, rfl⟩ := hform
  by_cases hseen : s.seen.contains (({ next with outer := k } : Config).identity,
      decide (0 < k), collect) = true
  · simp only [hseen, if_true]
    refine .pure hg (hs.skip ?_)
    rw [List.contains_iff_mem] at hseen
    exact (hs.seen _ hseen).2
  simp only [if_neg hseen]
  -- Whatever its depth, the visit is put on the work list and noted.
  have hpush : ∀ depth : Int, (Visit.Nests q.net m.atEof tr.graph
        { config := { next with outer := k }, depth, collect }) → ∀ s' : Sweep, s'.work = s.work →
      Sweeping q.net m T P (next.threads tr.graph ∪ due) owed s' tr.graph →
      Sweeping q.net m T P due owed
        { s'.push { config := { next with outer := k }, depth, collect } with
          seen := (({ next with outer := k } : Config).identity, decide (0 < k), collect) ::
            s'.seen } tr.graph := by
    intro depth hnests s' _ hs'
    have hready : Visit.Ready q.net m tr.graph
        { config := { next with outer := k }, depth, collect } := ⟨hheld' k, rfl, hplain, hnests⟩
    exact (hs'.push hready).note (v := { config := { next with outer := k }, depth, collect })
      List.mem_cons_self rfl (hheld' 0)
  by_cases hstop : (q.net.state v.config.state).isRuleStop = true
  · rw [if_pos hstop]
    exact .pure hg (hpush _ (nests_of_leaves hg hv.nests (hleaves hstop) _ _)
      { s with configs := { s.configs with dipsOut := true } } rfl hs.dips)
  rw [if_neg hstop]
  have hnests := nests_of_follows hv.nests (Bool.eq_false_of_not_eq_true hstop) ht hthreads collect
  by_cases hcall : t.isRule = true ∧ 0 ≤ v.depth
  · have hcall' : (t.isRule && decide (0 ≤ v.depth)) = true := by simpa using hcall
    rw [if_pos hcall']
    rw [if_pos hcall] at hnests
    -- Calls do not nest deeper than there are rules, so nothing is cut off.
    have hdeep : ¬ (q.net.ruleCount : Int) < v.depth + 1 := by
      obtain ⟨σ, hσ⟩ := hg.exists_stack hheld.stack_lt
      obtain ⟨rules, hlen, hnested⟩ := hnests (Int.add_nonneg hcall.2 (by decide)) σ hσ
      have hle := hnested.length_le hnet hno
      change (rules.length : Int) = v.depth + 1 at hlen
      omega
    rw [if_neg hdeep]
    exact .pure hg (hpush _ hnests s rfl hs)
  · have hcall' : (t.isRule && decide (0 ≤ v.depth)) ≠ true := by simpa using hcall
    rw [if_neg hcall']
    rw [if_neg hcall] at hnests
    exact .pure hg (hpush _ hnests s rfl hs)

/-- Follows one transition: the threads it leads to are no longer due. -/
private theorem expand_ends (hnet : q.net.Consistent)
    (hword : q.net.states.size ≤ emptyReturn) (hno : q.net.NoReentryBy m.atEof) {v : Visit} {t : Transition}
    {s : Sweep} {tr : Trail} (hg : tr.graph.Sound) (hv : v.Ready q.net m tr.graph)
    (hleaves : q.net.isStop v.config.state = true → v.config.stack = StackId.empty)
    (ht : t ∈ (q.net.state v.config.state).transitions)
    (hs : Sweeping q.net m T P (onwardThreads m.atEof v.config.tag
      (tr.graph.stackSet v.config.stack) t ∪ due) owed s tr.graph) :
    Probe.Ends true (q.expand m v (q.net.state v.config.state) s t) tr
      (Sweeping q.net m T P due owed) (q.net.ClosingMeets m T) := by
  have hplain : Visit.Plain q.net (v.collect && !t.isAction) := fun h =>
    hv.plain (by simpa using (Bool.and_eq_true_iff.mp h).1)
  -- The threads that the transition leads to are due, so they are among those that are reached.
  have hmeets : ∀ e, Exceeded.Meets (fun depth => ∃ u ∈ onwardThreads m.atEof v.config.tag
      (tr.graph.stackSet v.config.stack) t, depth < u.2.2.length) False tr.graph.maxDepth e →
      q.net.ClosingMeets m T tr.graph.maxDepth e := fun e he =>
    he.mono (fun ⟨u, hu, hlong⟩ => ⟨u, hs.sound (.inr (.inl hu)), hlong⟩) False.elim
  refine ((follow_ends hnet hword hplain ht hg hv.held).failing hmeets).bind
    fun next tr' hext hfollows => ?_
  have hs' := hs.grown hg hext.grown
  cases next with
  | none =>
    refine .pure hext.sound (hs'.skip ?_)
    rintro u ⟨_, σ, _, hon⟩
    rw [hfollows σ] at hon
    cases hon
  | some n =>
    obtain ⟨hheld, htag, hstate, hthreads⟩ := hfollows
    rw [← hthreads] at hs'
    rw [← hext.grown.stackSet_eq hg hv.held.stack_lt] at hthreads
    exact enter_ends hnet hno hext.sound (hv.grown hg hext.grown) hleaves ht hplain hheld
      hthreads hs'

/-- Follows every transition of a visit. -/
private theorem expandAll_ends (hnet : q.net.Consistent)
    (hword : q.net.states.size ≤ emptyReturn) (hno : q.net.NoReentryBy m.atEof) {v : Visit} {s : Sweep}
    {tr : Trail} (hg : tr.graph.Sound) (hv : v.Ready q.net m tr.graph)
    (hleaves : q.net.isStop v.config.state = true →
      v.config.stack = StackId.empty ∧ m.full = false)
    (hs : Sweeping q.net m T P
      {u | ∃ t ∈ v.config.threads tr.graph, t.1 = u.1 ∧ q.net.Hop m.full m.atEof t.2 u.2}
      {t ∈ v.config.threads tr.graph | q.net.Rests m.full t.2} s tr.graph) :
    Probe.Ends true (q.expandAll m v (q.net.state v.config.state) s) tr
      (Sweeping q.net m T P ∅ ∅) (q.net.ClosingMeets m T) := by
  have hempty : q.net.isStop v.config.state = true → ∀ σ,
      tr.graph.HasStack v.config.stack σ → σ = [] := by
    intro hstop σ hσ
    have hmem : σ ∈ tr.graph.stackSet StackId.empty := (hleaves hstop).1 ▸ hσ
    rwa [hg.stackSet_empty] at hmem
  -- Either all threads of the visit rest or none does.
  have howed : {t ∈ v.config.threads tr.graph | q.net.Rests m.full t.2} =
      if (q.net.state v.config.state).onlyEpsilon then ∅ else v.config.threads tr.graph := by
    ext ⟨tag, p, σ⟩
    by_cases heps : (q.net.state v.config.state).onlyEpsilon = true
    · simp only [heps, if_true, Set.mem_ofPred_eq, Set.mem_empty_iff_false, iff_false]
      rintro ⟨⟨_, hp, hσ⟩, hrests⟩
      change p = v.config.state at hp
      subst hp
      unfold Network.Rests at hrests
      split at hrests
      · next hstop => simp [heps, (hleaves hstop).2] at hrests
      · simp [heps] at hrests
    · simp only [if_neg heps, Set.mem_ofPred_eq, and_iff_left_iff_imp]
      rintro ⟨_, hp, hσ⟩
      change p = v.config.state at hp
      subst hp
      unfold Network.Rests
      split
      · next hstop => exact ⟨hempty hstop σ hσ, .inr (Bool.eq_false_of_not_eq_true heps)⟩
      · exact Bool.eq_false_of_not_eq_true heps
  have hdue : {u | ∃ t ∈ v.config.threads tr.graph, t.1 = u.1 ∧
        q.net.Hop m.full m.atEof t.2 u.2} =
      {u | ∃ t ∈ (q.net.state v.config.state).transitions.reverse,
        u ∈ onwardThreads m.atEof v.config.tag (tr.graph.stackSet v.config.stack) t} := by
    ext ⟨tag, d⟩
    constructor
    · rintro ⟨⟨tag', p, σ⟩, ⟨htag, hp, hσ⟩, heq, hhop⟩
      change p = v.config.state at hp
      subst hp
      change tag' = tag at heq
      subst heq
      cases hhop with
      | along _ ht hon => exact ⟨_, List.mem_reverse.mpr ht, htag, σ, hσ, hon⟩
      | back hstop =>
        have hnil := hempty hstop _ hσ
        cases hnil
    · rintro ⟨t, ht, htag, σ, hσ, hon⟩
      refine ⟨(v.config.tag, v.config.state, σ), ⟨rfl, rfl, hσ⟩, htag.symm, ?_⟩
      exact .along (fun hstop => ⟨(hleaves hstop).2, hempty hstop σ hσ⟩) (List.mem_reverse.mp ht)
        hon
  rw [hdue, howed] at hs
  rw [expandAll_eq]
  have hcollect : Probe.Ends true
      (if (q.net.state v.config.state).onlyEpsilon = true then pure s else s.collect v.config) tr
      (Sweeping q.net m T P
        {u | ∃ t ∈ (q.net.state v.config.state).transitions.reverse,
          u ∈ onwardThreads m.atEof v.config.tag (tr.graph.stackSet v.config.stack) t} ∅)
      (q.net.ClosingMeets m T) := by
    by_cases heps : (q.net.state v.config.state).onlyEpsilon = true
    · rw [if_pos heps] at hs ⊢
      exact .pure hg hs
    · rw [if_neg heps] at hs ⊢
      rw [← Set.union_empty (v.config.threads tr.graph)] at hs
      exact hs.collect hg hv.held
  refine Probe.Ends.bind hcollect fun s₁ tr₁ hext₁ hs₁ => ?_
  have hv₁ := hv.grown hg hext₁.grown
  rw [← hext₁.grown.stackSet_eq hg hv.held.stack_lt] at hs₁
  refine (Probe.Ends.foldlM (fun ts s g => (∀ t ∈ ts, t ∈ (q.net.state v.config.state).transitions)
      ∧ v.Ready q.net m g ∧ g.stackSet v.config.stack = tr₁.graph.stackSet v.config.stack ∧
      Sweeping q.net m T P {u | ∃ t ∈ ts, u ∈ onwardThreads m.atEof v.config.tag
        (tr₁.graph.stackSet v.config.stack) t} ∅ s g) ?_ hext₁.sound
    ⟨fun t ht => List.mem_reverse.mp ht, hv₁, rfl, hs₁⟩).mono ?_
  · rintro t ts s₂ tr₂ hext₂ ⟨hts, hv₂, hstacks, hs₂⟩
    have hsplit : {u | ∃ t' ∈ t :: ts, u ∈ onwardThreads m.atEof v.config.tag
          (tr₁.graph.stackSet v.config.stack) t'} =
        onwardThreads m.atEof v.config.tag (tr₂.graph.stackSet v.config.stack) t ∪
          {u | ∃ t' ∈ ts, u ∈ onwardThreads m.atEof v.config.tag
            (tr₁.graph.stackSet v.config.stack) t'} := by
      ext u
      simp [hstacks]
    rw [hsplit] at hs₂
    refine (expand_ends hnet hword hno hext₂.sound hv₂ (fun h => (hleaves h).1)
      (hts t List.mem_cons_self) hs₂).mono fun s₃ g₃ hgrown hs₃ => ⟨?_, ?_, ?_, hs₃⟩
    · exact fun t' ht' => hts t' (List.mem_cons_of_mem _ ht')
    · exact hv₂.grown hext₂.sound hgrown
    · rw [hgrown.stackSet_eq hext₂.sound hv₂.held.stack_lt, hstacks]
  · rintro s₂ g₂ _ ⟨_, _, _, hs₂⟩
    simpa using hs₂

/-! ## Returning -/

/-- Where the threads under a frame go on after the end of their rule. -/
private def returnThreads (g : StackGraph) (tag : Tag) (f : Frame) : Set Thread :=
  {u | f.isBottom = false ∧ u.1 = tag ∧ u.2.1 = f.ret ∧ g.HasStack f.parent u.2.2}

/-- The thread that has come to the end of its stack. -/
private def endThreads (tag : Tag) (p : StateId) (f : Frame) : Set Thread :=
  {u | f.isBottom = true ∧ u = (tag, p, [])}

/-- Returns through one frame: the threads under it are no longer due. -/
private theorem leave_ends {v : Visit} {f : Frame} {s : Sweep} {tr : Trail}
    (hg : tr.graph.Sound) (hv : v.Ready q.net m tr.graph)
    (hstop : q.net.isStop v.config.state = true) (hne : v.config.stack ≠ StackId.empty)
    (hf : f ∈ tr.graph.frames v.config.stack)
    (hs : Sweeping q.net m T P (returnThreads tr.graph v.config.tag f ∪ due)
      (endThreads v.config.tag v.config.state f ∪ owed) s tr.graph) :
    Probe.Ends true (leave m v s f) tr (Sweeping q.net m T P due owed)
      (q.net.ClosingMeets m T) := by
  unfold leave
  cases hbot : f.isBottom with
  | true =>
    have hfull : m.full = true := by
      by_contra hwild
      have hopen := hv.held.isOpen (by simpa using hwild)
      simp [hopen.not_isBottom hne f hf] at hbot
    simp only [if_true, hfull]
    have hdue : returnThreads tr.graph v.config.tag f ∪ due = due := by
      ext u
      simp [returnThreads, hbot]
    have howed : endThreads v.config.tag v.config.state f =
        ({ v.config with stack := StackId.empty } : Config).threads tr.graph := by
      ext ⟨tag, p, σ⟩
      have hstack : tr.graph.HasStack StackId.empty σ ↔ σ = [] := by
        change σ ∈ tr.graph.stackSet StackId.empty ↔ _
        rw [hg.stackSet_empty]
        rfl
      simp [endThreads, hbot, Config.threads, Config.tag, hstack]
    rw [hdue, howed] at hs
    exact hs.collect hg (hv.held.toBottom hg)
  | false =>
    simp only [Bool.false_eq_true, if_false]
    have howed : endThreads v.config.tag v.config.state f ∪ owed = owed := by
      ext u
      simp [endThreads, hbot]
    have hdue : returnThreads tr.graph v.config.tag f =
        (v.config.moveUnder f.ret f.parent).threads tr.graph := by
      ext u
      simp only [returnThreads, hbot, true_and, Config.threads, Config.moveUnder]
      rfl
    rw [hdue, howed] at hs
    have hparent : f.parent < tr.graph.size :=
      (hg.parent_lt _ f hf hbot).trans hv.held.stack_lt
    have hready : Visit.Ready q.net m tr.graph
        { config := v.config.moveUnder f.ret f.parent, depth := v.depth - 1,
          collect := v.collect } := by
      refine ⟨⟨hparent, fun hw => (hv.held.isOpen hw).parent hne f hf, hv.held.routine_eq,
        hv.held.greedy⟩, rfl, hv.plain, ?_⟩
      intro hdepth σ hσ
      change 0 ≤ v.depth - 1 at hdepth
      obtain ⟨rules, hlen, hnested⟩ := hv.nests (by omega) (f.ret :: σ) (.frame hf hbot hσ)
      cases rules with
      | nil =>
        simp only [List.length_nil, Int.natCast_zero] at hlen
        omega
      | cons rule rules =>
        refine ⟨rules, ?_, hnested.back hstop⟩
        simp only [List.length_cons, Int.natCast_add, Int.natCast_one] at hlen
        change (rules.length : Int) = v.depth - 1
        omega
    exact .pure hg (hs.push hready)

/-- Returns through every frame of a visit at the end of its rule. -/
private theorem leaveAll_ends {v : Visit} {s : Sweep} {tr : Trail} (hg : tr.graph.Sound)
    (hv : v.Ready q.net m tr.graph) (hstop : q.net.isStop v.config.state = true)
    (hne : v.config.stack ≠ StackId.empty)
    (hs : Sweeping q.net m T P
      {u | ∃ t ∈ v.config.threads tr.graph, t.1 = u.1 ∧ q.net.Hop m.full m.atEof t.2 u.2}
      {t ∈ v.config.threads tr.graph | q.net.Rests m.full t.2} s tr.graph) :
    Probe.Ends true ((tr.graph.frames v.config.stack).reverse.foldlM (leave m v) s) tr
      (Sweeping q.net m T P ∅ ∅) (q.net.ClosingMeets m T) := by
  have hfull : tr.graph.HasStack v.config.stack [] → m.full = true := by
    intro hnil
    obtain ⟨f, hf, hbot⟩ := StackGraph.hasStack_nil_iff.mp hnil
    by_contra hwild
    have hopen := hv.held.isOpen (by simpa using hwild)
    simp [hopen.not_isBottom hne f hf] at hbot
  have hdue : {u | ∃ t ∈ v.config.threads tr.graph, t.1 = u.1 ∧
        q.net.Hop m.full m.atEof t.2 u.2} =
      {u | ∃ f ∈ (tr.graph.frames v.config.stack).reverse,
        u ∈ returnThreads tr.graph v.config.tag f} := by
    ext ⟨tag, p', σ'⟩
    constructor
    · rintro ⟨⟨tag', p, σ⟩, ⟨htag, hp, hσ⟩, heq, hhop⟩
      change p = v.config.state at hp
      subst hp
      change tag' = tag at heq
      subst heq
      cases hhop with
      | along hempty _ _ =>
        obtain ⟨hwild, rfl⟩ := hempty hstop
        simp [hfull hσ] at hwild
      | back _ =>
        obtain ⟨f, hf, hbot, hret, hσ'⟩ := StackGraph.hasStack_cons_iff.mp hσ
        exact ⟨f, List.mem_reverse.mpr hf, hbot, htag, hret.symm, hσ'⟩
    · rintro ⟨f, hf, hbot, htag, hret, hσ⟩
      change p' = f.ret at hret
      subst hret
      exact ⟨(tag, v.config.state, f.ret :: σ'),
        ⟨htag, rfl, .frame (List.mem_reverse.mp hf) hbot hσ⟩, rfl, .back hstop⟩
  have howed : {t ∈ v.config.threads tr.graph | q.net.Rests m.full t.2} =
      {u | ∃ f ∈ (tr.graph.frames v.config.stack).reverse,
        u ∈ endThreads v.config.tag v.config.state f} := by
    ext ⟨tag, p, σ⟩
    constructor
    · rintro ⟨⟨htag, hp, hσ⟩, hrests⟩
      change p = v.config.state at hp
      subst hp
      unfold Network.Rests at hrests
      rw [if_pos hstop] at hrests
      obtain ⟨rfl, _⟩ : σ = [] ∧ _ := hrests
      obtain ⟨f, hf, hbot⟩ := StackGraph.hasStack_nil_iff.mp hσ
      exact ⟨f, List.mem_reverse.mpr hf, hbot, by rw [← show tag = v.config.tag from htag]⟩
    · rintro ⟨f, hf, hbot, heq⟩
      obtain ⟨rfl, rfl, rfl⟩ : tag = v.config.tag ∧ p = v.config.state ∧ σ = [] := by
        simpa using heq
      have hnil : tr.graph.HasStack v.config.stack [] := .bottom (List.mem_reverse.mp hf) hbot
      refine ⟨⟨rfl, rfl, hnil⟩, ?_⟩
      unfold Network.Rests
      rw [if_pos hstop]
      exact ⟨rfl, .inl (hfull hnil)⟩
  rw [hdue, howed] at hs
  refine (Probe.Ends.foldlM (fun fs s g => tr.graph.Grown g ∧ (∀ f ∈ fs, f ∈
      tr.graph.frames v.config.stack) ∧ Sweeping q.net m T P
      {u | ∃ f ∈ fs, u ∈ returnThreads tr.graph v.config.tag f}
      {u | ∃ f ∈ fs, u ∈ endThreads v.config.tag v.config.state f} s g) ?_ hg
    ⟨.refl hg, fun f hf => List.mem_reverse.mp hf, hs⟩).mono ?_
  · rintro f fs s₁ tr₁ _ ⟨hgrown, hfs, hs₁⟩
    have hf := hfs f List.mem_cons_self
    have hthreads : returnThreads tr₁.graph v.config.tag f =
        returnThreads tr.graph v.config.tag f := by
      ext u
      refine and_congr_right fun hbot => and_congr_right fun _ => and_congr_right fun _ => ?_
      exact hgrown.hasStack_iff hg ((hg.parent_lt _ f hf hbot).trans hv.held.stack_lt)
    have hsplit : ∀ A : Frame → Set Thread, {u | ∃ f' ∈ f :: fs, u ∈ A f'} =
        A f ∪ {u | ∃ f' ∈ fs, u ∈ A f'} := by
      intro A
      ext u
      simp
    rw [hsplit, hsplit, ← hthreads] at hs₁
    refine (leave_ends hgrown.sound (hv.grown hg hgrown) hstop hne
      (by rw [hgrown.keeps _ hv.held.stack_lt]; exact hf) hs₁).mono fun s₂ g₂ hgrown₂ hs₂ =>
      ⟨hgrown.trans hgrown₂, fun f' hf' => hfs f' (List.mem_cons_of_mem _ hf'), hs₂⟩
  · rintro s₁ g₁ _ ⟨_, _, hs₁⟩
    simpa using hs₁

/-! ## One visit -/

/-- **Following a visit** keeps the invariant: its threads have been followed. -/
theorem perform_ends (hnet : q.net.Consistent) (hword : q.net.states.size ≤ emptyReturn)
    (hno : q.net.NoReentryBy m.atEof) {v : Visit} {rest : List Visit} {s : Sweep} {tr : Trail}
    (hg : tr.graph.Sound) (hwork : s.work = v :: rest)
    (hs : Sweeping q.net m T P ∅ ∅ s tr.graph) :
    Probe.Ends true (q.perform m v { s with work := rest }) tr
      (Sweeping q.net m T (P ∪ v.config.threads tr.graph) ∅ ∅) (q.net.ClosingMeets m T) := by
  have hv : v.Ready q.net m tr.graph := hs.ready v (by simp [hwork])
  have hpop : Sweeping q.net m T (P ∪ v.config.threads tr.graph)
      {u | ∃ t ∈ v.config.threads tr.graph, t.1 = u.1 ∧ q.net.Hop m.full m.atEof t.2 u.2}
      {t ∈ v.config.threads tr.graph | q.net.Rests m.full t.2} { s with work := rest } tr.graph :=
    hs.pop hg hwork (fun u => Iff.rfl) fun t => Iff.rfl
  unfold perform
  by_cases hstop : q.net.isStop v.config.state = true
  · have hcond : (v.checkStop && (q.net.state v.config.state).isRuleStop) = true := by
      rw [hv.checkStop]
      exact hstop
    simp only [if_pos hcond]
    by_cases hne : v.config.stack ≠ StackId.empty
    · rw [if_pos hne]
      exact .bind_get (leaveAll_ends hg hv hstop hne hpop)
    · rw [if_neg hne]
      rw [not_not] at hne
      cases hfull : m.full with
      | false =>
        simp only [Bool.false_eq_true, if_false]
        exact expandAll_ends hnet hword hno hg hv (fun _ => ⟨hne, hfull⟩) hpop
      | true =>
        simp only [if_true]
        have hempty : ∀ σ, tr.graph.HasStack v.config.stack σ → σ = [] := by
          intro σ hσ
          have hmem : σ ∈ tr.graph.stackSet StackId.empty := hne ▸ hσ
          rwa [hg.stackSet_empty] at hmem
        have hdue : {u | ∃ t ∈ v.config.threads tr.graph, t.1 = u.1 ∧
            q.net.Hop m.full m.atEof t.2 u.2} = (∅ : Set Thread) := by
          refine Set.eq_empty_iff_forall_notMem.mpr ?_
          rintro ⟨tag, d⟩ ⟨⟨tag', p, σ⟩, ⟨_, hp, hσ⟩, _, hhop⟩
          obtain rfl := hempty σ hσ
          change p = v.config.state at hp
          subst hp
          cases hhop with
          | along hleaves _ _ => simp [hfull] at hleaves; simp [hleaves] at hstop
        have howed : {t ∈ v.config.threads tr.graph | q.net.Rests m.full t.2} =
            v.config.threads tr.graph ∪ ∅ := by
          rw [Set.union_empty]
          ext ⟨tag, p, σ⟩
          simp only [Set.mem_ofPred_eq, and_iff_left_iff_imp]
          rintro ⟨_, hp, hσ⟩
          change p = v.config.state at hp
          subst hp
          unfold Network.Rests
          rw [if_pos hstop]
          exact ⟨hempty σ hσ, .inl hfull⟩
        rw [hdue, howed] at hpop
        exact hpop.collect hg hv.held
  · have hcond : ¬ (v.checkStop && (q.net.state v.config.state).isRuleStop) = true := by
      rw [hv.checkStop]
      exact hstop
    simp only [if_neg hcond]
    exact expandAll_ends hnet hword hno hg hv (fun h => absurd h hstop) hpop

end Question

end AdaptiveLL
