import AdaptiveLL.Proofs.Config.Insertion
import AdaptiveLL.Proofs.Prediction.Parts
import AdaptiveLL.Proofs.Probe

/-!
# Configurations under exact stacks

Where stacks are exact, guards are put to the host at once and no thread leaves for an unknown
caller. So the configurations of such a prediction are *bare*: they carry no guard, and they count
no outer context.
-/

namespace AdaptiveLL

/-- A configuration with no guard that counts no outer context. -/
structure Config.Bare (c : Config) : Prop where
  guard_eq : c.guard = .always
  outer_eq : c.outer = 0

theorem Config.Bare.moveTo {c : Config} (h : c.Bare) (q : StateId) : (c.moveTo q).Bare := ⟨h.1, h.2⟩

theorem Config.Bare.moveUnder {c : Config} (h : c.Bare) (q : StateId) (stack : StackId) :
    (c.moveUnder q stack).Bare := ⟨h.1, h.2⟩

namespace ConfigSet

/-- A set of bare configurations. -/
def Bare (s : ConfigSet) : Prop := ∀ c ∈ s.toList, c.Bare

theorem bare_forParser (full : Bool) : (forParser full).Bare := nofun

/-- What is in a set after adding a configuration. -/
private theorem mem_of_insert {s s' : ConfigSet} {c d : Config} {g g' : StackGraph}
    (h : (s.insert c).run g = .ok s' g') (hd : d ∈ s'.toList) :
    d ∈ s.toList ∨ d = c ∨ ∃ old ∈ s.toList, ∃ id, d = absorb old c id := by
  rw [insert_run] at h
  split at h
  · next i _ =>
    split at h
    · obtain ⟨rfl, -⟩ := EStateM.Result.ok.inj h
      exact .inl hd
    · split at h
      · next id _ _ =>
        obtain ⟨rfl, -⟩ := EStateM.Result.ok.inj h
        obtain ⟨j, hj, rfl⟩ := List.getElem_of_mem hd
        simp only [toList, Array.toList_modify, List.getElem_modify, List.length_modify] at hj ⊢
        have hmem := List.getElem_mem hj
        split
        · exact .inr (.inr ⟨_, hmem, id, rfl⟩)
        · exact .inl hmem
      · cases h
  · split at h
    · cases h
    · obtain ⟨rfl, -⟩ := EStateM.Result.ok.inj h
      rw [toList, Array.toList_push, List.mem_append, List.mem_singleton] at hd
      exact hd.imp_right .inl

/-- Adding a bare configuration keeps a set bare. -/
theorem Bare.insert {s s' : ConfigSet} {c : Config} {g g' : StackGraph} (hs : s.Bare) (hc : c.Bare)
    (h : (s.insert c).run g = .ok s' g') : s'.Bare := by
  intro d hd
  rcases mem_of_insert h hd with hd | rfl | ⟨old, hold, id, rfl⟩
  · exact hs d hd
  · exact hc
  · exact ⟨(hs old hold).guard_eq, by
      simp only [absorb, (hs old hold).outer_eq, hc.outer_eq, Nat.max_self]⟩

theorem Bare.insertAll {s s' : ConfigSet} {cs : List Config} {g g' : StackGraph} (hs : s.Bare)
    (hcs : ∀ c ∈ cs, c.Bare) (h : (cs.foldlM ConfigSet.insert s).run g = .ok s' g') : s'.Bare :=
  insertAll_keeps (fun c hmem _ _ _ _ hs h => hs.insert (hcs c hmem) h) hs h

end ConfigSet

namespace Question

variable {q : Question} {m : Manner}

/-- A sweep that deals with bare configurations alone. -/
private structure Sweeps (s : Sweep) : Prop where
  work : ∀ v ∈ s.work, v.config.Bare ∧ v.checkStop = true
  configs : s.configs.Bare

private theorem Sweeps.push {s : Sweep} (hs : Sweeps s) {v : Visit} (hv : v.config.Bare)
    (hcheck : v.checkStop = true) : Sweeps (s.push v) where
  work u hu := by
    rcases List.mem_cons.mp hu with rfl | hu
    · exact ⟨hv, hcheck⟩
    · exact hs.work u hu
  configs := hs.configs

private theorem Sweeps.collect {s : Sweep} (hs : Sweeps s) {c : Config} (hc : c.Bare) :
    (s.collect c).Gives Sweeps :=
  .bind (Probe.grow_gives fun _ _ _ h => hs.configs.insert hc h) fun _ hconfigs =>
    .pure ⟨hs.work, hconfigs⟩

private theorem follow_gives (hm : m.full = true) {collect inside : Bool} {c : Config}
    (hc : c.Bare) (t : Transition) :
    (q.follow m collect inside c t).Gives fun next => ∀ n, next = some n → n.Bare := by
  have hmoved : ∀ target, (pure (some (c.moveTo target)) : Probe (Option Config)).Gives
      fun next => ∀ n, next = some n → n.Bare := fun target =>
    .pure fun n hn => Option.some.inj hn ▸ hc.moveTo target
  have hnone : (pure none : Probe (Option Config)).Gives fun next => ∀ n, next = some n → n.Bare :=
    .pure nofun
  have hguarded : ∀ (evaluate : Bool) (target : StateId) (g : Guard),
      (q.guarded m.full evaluate c target g).Gives fun next => ∀ n, next = some n → n.Bare := by
    intro evaluate target g
    unfold guarded
    rw [hm]
    exact .ite (hmoved target) (.after fun passes => .ite (hmoved target) hnone)
  unfold follow
  split
  · exact .after fun stack => .pure fun n hn => Option.some.inj hn ▸ hc.moveUnder _ stack
  · exact hguarded _ _ _
  · exact hguarded _ _ _
  · exact hmoved _
  · exact hmoved _
  all_goals first
    | exact hnone
    | (split
       · exact hmoved _
       · exact hnone)

private theorem enter_gives {visit : Visit} {state : State} (hstop : state.isRuleStop = false)
    {t : Transition} {collect : Bool} {next : Config} (hnext : next.Bare) {s : Sweep}
    (hs : Sweeps s) : (q.enter visit state t collect next s).Gives Sweeps := by
  have hnoted : ∀ key, Sweeps { s with seen := key :: s.seen } := fun _ => ⟨hs.work, hs.configs⟩
  unfold enter
  simp only [hstop, Bool.false_eq_true, if_false]
  refine .ite (.pure hs) (.ite (.ite (.ite (.pure (hnoted _)) ?_) ?_) ?_)
  · exact .after fun _ => .pure ⟨hs.work, hs.configs⟩
  · exact .pure ((hnoted _).push hnext rfl)
  · exact .pure ((hnoted _).push hnext rfl)

private theorem expandAll_gives (hm : m.full = true) {visit : Visit} (hv : visit.config.Bare)
    {state : State} (hstop : state.isRuleStop = false) {s : Sweep} (hs : Sweeps s) :
    (q.expandAll m visit state s).Gives Sweeps := by
  have hall : ∀ s, Sweeps s →
      (state.transitions.reverse.foldlM (q.expand m visit state) s).Gives Sweeps := by
    refine fun s hs => .foldlM (fun s hs t _ => ?_) hs
    unfold expand
    refine .bind (follow_gives hm hv t) fun next hnext => ?_
    cases next with
    | none => exact .pure hs
    | some next => exact enter_gives hstop (hnext next rfl) hs
  unfold expandAll
  split
  · exact hall s hs
  · exact .bind (hs.collect hv) fun s' hs' => hall s' hs'

private theorem perform_gives (hm : m.full = true) {visit : Visit} (hv : visit.config.Bare)
    (hcheck : visit.checkStop = true) {s : Sweep} (hs : Sweeps s) :
    (q.perform m visit s).Gives Sweeps := by
  unfold perform
  simp only [hcheck, Bool.true_and]
  split
  · split
    · refine .after fun trail => .foldlM (fun s hs f _ => ?_) hs
      unfold leave
      rw [hm]
      exact .ite (hs.collect ⟨hv.1, hv.2⟩) (.pure (hs.push (hv.moveUnder _ _) rfl))
    · exact hs.collect hv
  · next hstop => exact expandAll_gives hm hv (Bool.eq_false_of_not_eq_true hstop) hs

private theorem closures_give (hm : m.full = true) {collect : Bool} {cs : List Config}
    (hcs : ∀ c ∈ cs, c.Bare) :
    (cs.foldlM (q.closure m collect) (ConfigSet.forParser m.full, [])).Gives
      fun acc => acc.1.Bare := by
  refine .foldlM (fun acc hacc c hc => ?_) (ConfigSet.bare_forParser _)
  refine .loop (Q := Sweeps) (fun s hs => ?_) ⟨fun v hv => ?_, hacc⟩
  · unfold sweepStep
    split
    · exact .pure hs.configs
    · next v rest hwork =>
      have hv := hs.work v (hwork ▸ List.mem_cons_self)
      refine .bind (perform_gives hm hv.1 hv.2 ⟨fun u hu => ?_, hs.configs⟩) fun s' hs' => .pure hs'
      exact hs.work u (hwork ▸ List.mem_cons_of_mem _ hu)
  · obtain rfl := List.mem_singleton.mp hv
    exact ⟨hcs c hc, rfl⟩

/-- **A decision begins with bare configurations** where stacks are exact. -/
theorem startSet_gives (stack : StackId) : (q.startSet true stack).Gives ConfigSet.Bare := by
  unfold startSet
  refine .bind (closures_give rfl fun c hc => ?_) fun acc hacc => .pure hacc
  obtain ⟨⟨t, i⟩, _, rfl⟩ := List.mem_map.mp hc
  exact ⟨rfl, rfl⟩

/-- **A symbol leads from bare configurations to bare ones** where stacks are exact. -/
theorem reach_gives {s : ConfigSet} (hs : s.Bare) (v : Symbol) :
    (q.reach v true s).Gives fun next => ∀ s', next = some s' → s'.Bare := by
  have hconsume : (q.consume v true s).Gives ConfigSet.Bare := by
    rw [consume_eq]
    refine Probe.grow_gives fun _ _ _ h => (ConfigSet.bare_forParser _).insertAll ?_ h
    intro d hd
    obtain ⟨c, hc, hd⟩ := List.mem_flatMap.mp hd
    obtain ⟨t, _, rfl⟩ := List.mem_map.mp hd
    exact (hs c (List.mem_filter.mp hc).1).moveTo _
  rw [reach_eq]
  refine .bind hconsume fun moved hmoved => .bind (.ite (.pure hmoved) ?_) fun next hnext => ?_
  · exact .bind (closures_give rfl hmoved) fun acc hacc => .pure hacc
  · have hwaiting : ∀ c ∈ q.waiting v true s, c.Bare := fun c hc => by
      unfold waiting at hc
      split at hc
      · exact hs c (List.mem_filter.mp hc).1
      · cases hc
    refine .bind (.ite (.ite (.pure hnext) ?_) (.pure hnext)) fun next' hnext' => ?_
    · refine Probe.grow_gives fun _ _ _ h => (ConfigSet.bare_forParser _).insertAll ?_ h
      exact fun c hc => hnext c (List.mem_filter.mp hc).1
    · refine .bind (Q := ConfigSet.Bare) ?_ fun last hlast => .pure ?_
      · exact .ite (.pure hnext') (Probe.grow_gives fun _ _ _ h => hnext'.insertAll hwaiting h)
      · intro s' hs'
        split at hs'
        · cases hs'
        · exact Option.some.inj hs' ▸ hlast

end Question

end AdaptiveLL
