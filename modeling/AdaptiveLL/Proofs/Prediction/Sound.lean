import AdaptiveLL.Proofs.Prediction.Closure

/-!
# Closures make nothing up

Under exact stacks a closure collects no thread that hops do not lead to, whatever the guards of the
network and even where rules re-enter themselves. A guard that does not hold and a call that is cut
off lose threads, but neither adds any.
-/

namespace AdaptiveLL

open StackGraph (Grown Sound)

namespace Question

variable {q : Question} {m : Manner} {T : Set Thread} {s : Sweep} {g g' : StackGraph} {tr : Trail}

/-- **Nothing changes the answers that count:** where the stacks are exact, the host is steady, or
there is no guard to put to it. Elsewhere it is not asked. -/
def Steady (q : Question) (full : Bool) : Prop := full = true → q.host.Steady ∨ q.net.Unguarded

theorem steady_inexact (q : Question) : q.Steady false := fun h => nomatch h

/-! ## The invariant -/

/-- A visit under exact stacks to nothing but threads that `T` leads to. -/
structure Goes (net : Network) (m : Manner) (T : Set Thread) (g : StackGraph) (v : Visit) :
    Prop where
  held : v.config.Held g false
  checkStop : v.checkStop = true
  reached : v.config.threads g ⊆ net.reached m T

/-- **The invariant of a sweep under exact stacks** that began with the threads `T`: nothing lies
ahead that they do not lead to, and nothing else was collected. -/
structure Confined (net : Network) (m : Manner) (T : Set Thread) (s : Sweep) (g : StackGraph) :
    Prop where
  tidy : s.configs.Tidy g
  full_eq : s.configs.fullContext = true
  goes : ∀ v ∈ s.work, Goes net m T g v
  collected : s.configs.threads g ⊆ net.closureOf m T

theorem Goes.grown {net : Network} {v : Visit} (hg : g.Sound) (h : g.Grown g')
    (hv : Goes net m T g v) : Goes net m T g' v where
  held := hv.held.grown hg h
  checkStop := hv.checkStop
  reached := hv.held.threads_eq hg h ▸ hv.reached

namespace Confined

variable {net : Network}

theorem grown (hg : g.Sound) (h : g.Grown g') (hs : Confined net m T s g) :
    Confined net m T s g' where
  tidy := hs.tidy.grown hg h
  full_eq := hs.full_eq
  goes v hv := (hs.goes v hv).grown hg h
  collected := hs.tidy.threads_eq hg h ▸ hs.collected

theorem push {v : Visit} (hs : Confined net m T s g) (hv : Goes net m T g v) :
    Confined net m T (s.push v) g where
  tidy := hs.tidy
  full_eq := hs.full_eq
  goes u hu := (List.mem_cons.mp hu).elim (fun h => h ▸ hv) (hs.goes u)
  collected := hs.collected

theorem collect {c : Config} (hg : tr.graph.Sound) (hs : Confined net m T s tr.graph)
    (hc : c.Held tr.graph false) (hcT : c.threads tr.graph ⊆ net.closureOf m T) :
    Probe.Ends false (s.collect c) tr (Confined net m T) := by
  have hinsert := ConfigSet.insert_grows hg hs.tidy (by rw [hs.full_eq]; exact hc)
  refine (Probe.Ends.grow hinsert.anyhow).bind
    fun configs t' hext ⟨htidy, hcont, hthreads⟩ => .pure hext.sound ?_
  rw [hs.full_eq, Bool.not_true, spread_false, spread_false] at hthreads
  refine ⟨htidy, hcont.fullContext_eq.trans hs.full_eq,
    fun v hv => (hs.goes v hv).grown hg hext.grown, ?_⟩
  rw [hthreads]
  exact Set.union_subset hs.collected hcT

end Confined

/-! ## One transition -/

/-- **A transition leads onward or nowhere** under exact stacks: guards are put to the host at
once. -/
private theorem follow_leads (hm : m.full = true) (hnet : q.net.Consistent)
    (hword : q.net.states.size ≤ emptyReturn) {collect inside : Bool} {c : Config} {p : StateId}
    {t : Transition} (ht : t ∈ (q.net.state p).transitions) (hg : tr.graph.Sound)
    (hc : c.Held tr.graph false) :
    Probe.Ends false (q.follow m collect inside c t) tr
      fun next g' => ∀ n, next = some n → Follows m tr.graph c t (some n) g' := by
  have hcollect : Visit.Plain q.net false := nofun
  -- Where guards do not count, the transition is followed at once.
  have hplain : Probe.Ends false (q.follow m false inside c t) tr
      fun next g' => ∀ n, next = some n → Follows m tr.graph c t (some n) g' :=
    (follow_ends hnet hword hcollect ht hg (by rw [hm]; exact hc)).aloud.anyhow.mono
      fun next g' _ h n hn => hn ▸ h
  have hguarded : ∀ (evaluate : Bool) (target : StateId) (guard : Guard),
      Follows m tr.graph c t (some (c.moveTo target)) tr.graph →
      Probe.Ends false (q.guarded m.full evaluate c target guard) tr
        fun next g' => ∀ n, next = some n → Follows m tr.graph c t (some n) g' := by
    intro evaluate target guard hmoves
    unfold guarded
    rw [hm]
    split
    · exact .pure hg fun n hn => hn ▸ hmoves
    refine (Probe.Ends.holds hg q.host q.start guard).bind fun passes t' hext ⟨_, hgraph⟩ => ?_
    cases passes with
    | false => exact .pure hext.sound nofun
    | true => exact .pure hext.sound fun n hn => hn ▸ hgraph ▸ hmoves
  cases t with
  | predicate target rule pred contextual =>
    exact hguarded _ _ _ ((Run.Yields.apply hplain rfl).2.1 _ rfl _ rfl)
  | precedence target level =>
    exact hguarded _ _ _ ((Run.Yields.apply hplain rfl).2.1 _ rfl _ rfl)
  | _ => exact hplain

/-- Entering a configuration puts it on the work list or leaves it. -/
private theorem enter_confined {v : Visit} {state : State} {t : Transition} {collect : Bool}
    {next : Config} (hg : tr.graph.Sound) (hstop : state.isRuleStop = false)
    (hheld : next.Held tr.graph false) (hreached : next.threads tr.graph ⊆ q.net.reached m T)
    (hs : Confined q.net m T s tr.graph) :
    Probe.Ends false (q.enter v state t collect next s) tr (Confined q.net m T) := by
  -- The invariant does not speak of the keys that were seen.
  have hnoted : ∀ key, Confined q.net m T { s with seen := key :: s.seen } tr.graph :=
    fun _ => ⟨hs.tidy, hs.full_eq, hs.goes, hs.collected⟩
  have hpush : ∀ (key : VisitKey) (depth : Int), Confined q.net m T
      (({ s with seen := key :: s.seen } : Sweep).push { config := next, depth, collect })
        tr.graph := fun key _ => (hnoted key).push ⟨hheld, rfl, hreached⟩
  unfold enter
  simp only [hstop, Bool.false_eq_true, if_false]
  split
  · exact .pure hg hs
  · split
    · split
      · split
        · exact .pure hg (hnoted _)
        · -- The call is cut off, and the left recursion is told.
          refine Probe.Ends.bind (Q := fun _ g => g = tr.graph) ?_ fun _ t' hext hgraph => ?_
          · exact .of_eq rfl ⟨⟨.refl hg, nofun, nofun⟩, fun _ _ => rfl, nofun⟩
          · refine .pure hext.sound ?_
            rw [hgraph]
            exact ⟨hs.tidy, hs.full_eq, hs.goes, hs.collected⟩
      · exact .pure hg (hpush _ _)
    · exact .pure hg (hpush _ _)

private theorem expand_confined (hm : m.full = true) (hnet : q.net.Consistent)
    (hword : q.net.states.size ≤ emptyReturn) {v : Visit} {t : Transition} (hg : tr.graph.Sound)
    (hv : Goes q.net m T tr.graph v) (hstop : q.net.isStop v.config.state = false)
    (ht : t ∈ (q.net.state v.config.state).transitions) (hs : Confined q.net m T s tr.graph) :
    Probe.Ends false (q.expand m v (q.net.state v.config.state) s t) tr (Confined q.net m T) := by
  refine (follow_leads hm hnet hword ht hg hv.held).bind fun next t' hext hnext => ?_
  have hs' := hs.grown hg hext.grown
  cases next with
  | none => exact .pure hext.sound hs'
  | some n =>
    obtain ⟨hheld, -, -, hthreads⟩ := hnext n rfl
    rw [hm] at hheld
    refine enter_confined hext.sound hstop hheld ?_ hs'
    rw [hthreads]
    rintro u ⟨htag, σ, hσ, hon⟩
    refine Network.reached_hop (hv.reached (show (v.config.tag, v.config.state, σ) ∈ _ from
      ⟨rfl, rfl, hσ⟩)) htag.symm (.along (fun hs => ?_) ht hon)
    rw [hstop] at hs
    cases hs

/-- Following the transitions of a visit that is not at the end of its rule. -/
private theorem expandAll_confined (hm : m.full = true) (hnet : q.net.Consistent)
    (hword : q.net.states.size ≤ emptyReturn) {v : Visit} (hg : tr.graph.Sound)
    (hv : Goes q.net m T tr.graph v) (hstop : q.net.isStop v.config.state = false)
    (hs : Confined q.net m T s tr.graph) :
    Probe.Ends false (q.expandAll m v (q.net.state v.config.state) s) tr (Confined q.net m T) := by
  rw [expandAll_eq]
  have hcollected : Probe.Ends false
      (if (q.net.state v.config.state).onlyEpsilon = true then pure s else s.collect v.config) tr
      (Confined q.net m T) := by
    split
    · exact .pure hg hs
    · next heps =>
      refine hs.collect hg hv.held fun t ht => ⟨hv.reached ht, ?_⟩
      unfold Network.Rests
      rw [show t.2.1 = v.config.state from ht.2.1, hstop]
      exact Bool.eq_false_of_not_eq_true heps
  refine hcollected.bind fun s₁ tr₁ hext₁ hs₁ => ?_
  refine (Probe.Ends.foldlM (fun ts s' g' => (∀ t ∈ ts, t ∈ (q.net.state v.config.state).transitions)
      ∧ Goes q.net m T g' v ∧ Confined q.net m T s' g') ?_ hext₁.sound
    ⟨fun t ht => List.mem_reverse.mp ht, hv.grown hg hext₁.grown, hs₁⟩).mono
    fun s' g' _ ⟨_, _, hs'⟩ => hs'
  rintro t ts s₂ tr₂ hext₂ ⟨hts, hv₂, hs₂⟩
  exact (expand_confined hm hnet hword hext₂.sound hv₂ hstop (hts t List.mem_cons_self) hs₂).mono
    fun s' g' hgrown hs' => ⟨fun t' ht' => hts t' (List.mem_cons_of_mem _ ht'),
      hv₂.grown hext₂.sound hgrown, hs'⟩

/-! ## Returning -/

/-- A thread with no call left rests at the end of its rule. -/
private theorem mem_closureOf_nil {net : Network} (hm : m.full = true) {tag : Tag} {p : StateId}
    (hstop : net.isStop p = true) (h : (tag, p, []) ∈ net.reached m T) :
    (tag, p, []) ∈ net.closureOf m T := by
  refine ⟨h, ?_⟩
  unfold Network.Rests
  rw [if_pos hstop]
  exact ⟨rfl, .inl hm⟩

private theorem leave_confined (hm : m.full = true) {v : Visit} {f : Frame} (hg : tr.graph.Sound)
    (hv : Goes q.net m T tr.graph v) (hstop : q.net.isStop v.config.state = true)
    (hf : f ∈ tr.graph.frames v.config.stack) (hs : Confined q.net m T s tr.graph) :
    Probe.Ends false (leave m v s f) tr (Confined q.net m T) := by
  unfold leave
  cases hbot : f.isBottom with
  | true =>
    simp only [if_true, hm]
    refine hs.collect hg (hv.held.toBottom hg) ?_
    rintro ⟨tag, p, σ⟩ ⟨htag, hp, hσ⟩
    have hnil : σ ∈ tr.graph.stackSet StackId.empty := hσ
    rw [hg.stackSet_empty] at hnil
    obtain rfl : σ = [] := hnil
    obtain rfl : p = v.config.state := hp
    exact mem_closureOf_nil hm hstop (hv.reached ⟨htag, rfl, .bottom hf hbot⟩)
  | false =>
    simp only [Bool.false_eq_true, if_false]
    have hparent : f.parent < tr.graph.size :=
      (hg.parent_lt _ f hf hbot).trans hv.held.stack_lt
    refine .pure hg (hs.push ⟨⟨hparent, nofun, hv.held.routine_eq, hv.held.greedy⟩, rfl, ?_⟩)
    rintro ⟨tag, p, σ⟩ ⟨htag, hp, hσ⟩
    obtain rfl : p = f.ret := hp
    refine Network.reached_hop (hv.reached (show (tag, v.config.state, f.ret :: σ) ∈ _ from
      ⟨htag, rfl, .frame hf hbot hσ⟩)) rfl ?_
    exact .back hstop

/-! ## Visits and closures -/

/-- **Following a visit under exact stacks makes nothing up.** -/
theorem perform_confined (hm : m.full = true) (hnet : q.net.Consistent)
    (hword : q.net.states.size ≤ emptyReturn) {v : Visit} {rest : List Visit} (hg : tr.graph.Sound)
    (hwork : s.work = v :: rest) (hs : Confined q.net m T s tr.graph) :
    Probe.Ends false (q.perform m v { s with work := rest }) tr (Confined q.net m T) := by
  have hv : Goes q.net m T tr.graph v := hs.goes v (by simp [hwork])
  have hpop : Confined q.net m T { s with work := rest } tr.graph :=
    ⟨hs.tidy, hs.full_eq, fun u hu => hs.goes u (by simp [hwork, hu]), hs.collected⟩
  unfold perform
  simp only [hv.checkStop, Bool.true_and]
  split
  · next hstop =>
    split
    -- The loop over the frames keeps what is known of them while the graph grows.
    · refine .bind_get ((Probe.Ends.foldlM (fun fs s' g' => tr.graph.Grown g' ∧
          (∀ f ∈ fs, f ∈ tr.graph.frames v.config.stack) ∧ Confined q.net m T s' g') ?_ hg
        ⟨.refl hg, fun f hf => List.mem_reverse.mp hf, hpop⟩).mono fun s' g' _ ⟨_, _, hs'⟩ => hs')
      rintro f fs s₁ tr₁ _ ⟨hgrown, hfs, hs₁⟩
      refine (leave_confined hm hgrown.sound (hv.grown hg hgrown) hstop ?_ hs₁).mono
        fun s₂ g₂ hgrown₂ hs₂ => ⟨hgrown.trans hgrown₂,
          fun f' hf' => hfs f' (List.mem_cons_of_mem _ hf'), hs₂⟩
      rw [hgrown.keeps _ hv.held.stack_lt]
      exact hfs f List.mem_cons_self
    · next hempty =>
      -- Under the empty stack the call has come to its end, and the stand at the stop is collected.
      refine hpop.collect hg hv.held ?_
      rintro ⟨tag, p, σ⟩ ⟨htag, hp, hσ⟩
      have hnil : σ ∈ tr.graph.stackSet StackId.empty := not_not.mp hempty ▸ hσ
      rw [hg.stackSet_empty] at hnil
      obtain rfl : σ = [] := hnil
      obtain rfl : p = v.config.state := hp
      exact mem_closureOf_nil hm hstop (hv.reached ⟨htag, rfl, hσ⟩)
  · next hstop =>
    exact expandAll_confined hm hnet hword hg hv (Bool.eq_false_of_not_eq_true hstop) hpop

/-- **The closures of some configurations under exact stacks collect nothing** that these do not
lead to. -/
theorem closures_confined (hm : m.full = true) (hnet : q.net.Consistent)
    (hword : q.net.states.size ≤ emptyReturn) {collect : Bool} {tags : Finset Tag}
    (hstock : Stocked q.net tags collect) {cs : List Config} (hg : tr.graph.Sound)
    (hfuel : sweepBound emptyReturn tags.card tr.graph.maxNodes < q.fuel)
    (hcs : ∀ c ∈ cs, c.Within emptyReturn tags m.full tr.graph) :
    Probe.Ends false (cs.foldlM (q.closure m collect) (ConfigSet.forParser m.full, [])) tr
      fun acc g' => acc.1.threads g' ⊆
        q.net.closureOf m {t | ∃ c ∈ cs, t ∈ c.threads tr.graph} := by
  let T : Set Thread := {t | ∃ c ∈ cs, t ∈ c.threads tr.graph}
  have hnil : Confined q.net m T { work := [], configs := ConfigSet.forParser m.full, seen := [] }
      tr.graph := by
    refine ⟨ConfigSet.tidy_forParser _ _, hm, nofun, fun t ht => ?_⟩
    rw [ConfigSet.threads_forParser] at ht
    cases ht
  refine (Probe.Ends.foldlM (fun rest acc g => tr.graph.Grown g ∧ (∀ c ∈ rest, c ∈ cs) ∧
      Bounded emptyReturn tags collect m.full tr.graph.maxNodes
        { work := [], configs := acc.1, seen := acc.2 } g ∧
      Confined q.net m T { work := [], configs := acc.1, seen := acc.2 } g) ?_ hg
    ⟨.refl hg, fun _ => id, bounded_nil emptyReturn tags collect, hnil⟩).mono
    fun acc g' _ ⟨_, _, _, hs⟩ => hs.collected
  rintro c rest acc tr' _ ⟨hgrown, hrest, hbound, hs⟩
  have hc := hcs c (hrest c List.mem_cons_self)
  have hheld : c.Held tr.graph false := by
    have hheld := hc.held
    rwa [hm] at hheld
  have hgoes : Goes q.net m T tr.graph { config := c, collect } :=
    ⟨hheld, rfl, fun t ht => Network.subset_reached T ⟨c, hrest c List.mem_cons_self, ht⟩⟩
  refine (closure_rule (I := fun s g => Confined q.net m T s g) hnet hword le_rfl hstock id
    hgrown.sound hfuel (hc.grown hg hgrown) hbound (hs.push (hgoes.grown hg hgrown)) ?_).mono ?_
  · exact fun hg' hwork hs' _ => perform_confined hm hnet hword hg' hwork hs'
  · rintro _ g' hgrown' ⟨s', -, rfl, hs', hb⟩
    exact ⟨hgrown.trans hgrown', fun c' hc' => hrest c' (List.mem_cons_of_mem _ hc'),
      bounded_done hb, hs'.tidy, hs'.full_eq, nofun, hs'.collected⟩

end Question

end AdaptiveLL
