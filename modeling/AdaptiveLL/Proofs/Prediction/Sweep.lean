import AdaptiveLL.Prediction.Closure
import AdaptiveLL.Proofs.Config.Insertion
import AdaptiveLL.Proofs.Probe

/-!
# What a closure collects

A closure follows threads by hops and collects those that rest: threads at a state with a transition
that consumes a symbol, and threads that have come to the end of their stack. `closureOf` says this
for sets of threads, and the sweep over a work list computes it.

The invariant of the sweep speaks of the threads that have been followed. Wherever one of them
leads to has been followed as well, or is on the work list; a configuration that was seen before
is one whose threads are. The cut at deep calls never comes into play, since without re-entry
calls do not nest deeper than there are rules.

Which ceilings a sweep meets is told by threads as well: a stack is too long only if one of the
threads that are reached has such a stack, and a set is full only if those that rest are crowded.
-/

namespace AdaptiveLL

open StackGraph (Begins Grows Grown Sound)

namespace Network

/-- The network has no guards. -/
def Unguarded (net : Network) : Prop :=
  ∀ q, ∀ t ∈ (net.state q).transitions, t.guard? = none

/-- Whether a closure collects a thread that has come here. -/
def Rests (net : Network) (full : Bool) (d : Stand) : Prop :=
  if net.isStop d.1 then d.2 = [] ∧ (full = true ∨ (net.state d.1).onlyEpsilon = false)
  else (net.state d.1).onlyEpsilon = false

/-- The threads that some threads lead to without consuming a symbol. -/
def reached (net : Network) (m : Manner) (T : Set Thread) : Set Thread :=
  {t | ∃ c, (t.1, c) ∈ T ∧ Relation.ReflTransGen (net.Hop m.full m.atEof) c t.2}

/-- **The closure of some threads.** -/
def closureOf (net : Network) (m : Manner) (T : Set Thread) : Set Thread :=
  {t ∈ net.reached m T | net.Rests m.full t.2}

/-- **The ceilings that closing some threads meets.** -/
def ClosingMeets (net : Network) (m : Manner) (T : Set Thread) : Nat → Exceeded → Prop :=
  Exceeded.Meets (fun depth => ∃ t ∈ net.reached m T, depth < t.2.2.length)
    (Crowded Limits.configsPerSet (net.closureOf m T))

theorem subset_reached {net : Network} {m : Manner} (T : Set Thread) : T ⊆ net.reached m T :=
  fun t ht => ⟨t.2, ht, .refl⟩

theorem reached_mono {net : Network} {m : Manner} {T U : Set Thread} (h : T ⊆ U) :
    net.reached m T ⊆ net.reached m U :=
  fun _ ⟨c, hc, hrun⟩ => ⟨c, h hc, hrun⟩

theorem ClosingMeets.mono {net : Network} {m : Manner} {T U : Set Thread} {depth : Nat}
    {e : Exceeded} (h : net.ClosingMeets m T depth e) (hTU : T ⊆ U) :
    net.ClosingMeets m U depth e :=
  Exceeded.Meets.mono h (fun ⟨t, ht, hlong⟩ => ⟨t, reached_mono hTU ht, hlong⟩)
    fun hcrowded => hcrowded.mono fun _ ht => ⟨reached_mono hTU ht.1, ht.2⟩

theorem reached_hop {net : Network} {m : Manner} {T : Set Thread} {t u : Thread}
    (ht : t ∈ net.reached m T) (htag : t.1 = u.1) (hhop : net.Hop m.full m.atEof t.2 u.2) :
    u ∈ net.reached m T := by
  obtain ⟨c, hc, hrun⟩ := ht
  exact ⟨c, htag ▸ hc, hrun.tail hhop⟩

/-- Threads closed under hops hold what is reached from them. -/
theorem reached_subset {net : Network} {m : Manner} {T P : Set Thread} (hT : T ⊆ P)
    (hP : ∀ t ∈ P, ∀ u : Thread, t.1 = u.1 → net.Hop m.full m.atEof t.2 u.2 → u ∈ P) :
    net.reached m T ⊆ P := by
  rintro ⟨tag, d⟩ ⟨c, hc, hrun⟩
  change (tag, c) ∈ T at hc
  change Relation.ReflTransGen _ c d at hrun
  induction hrun with
  | refl => exact hT hc
  | tail _ hhop ih => exact hP _ ih _ rfl hhop

end Network

/-! ## One transition -/

/-- Where a transition leads the threads of a tag under some stacks. -/
def onwardThreads (atEof : Bool) (tag : Tag) (stacks' : Set (List Nat)) (t : Transition) :
    Set Thread :=
  {u | u.1 = tag ∧ ∃ σ ∈ stacks', t.onward atEof σ = some u.2}

/-- A visit whose guards do not count. -/
def Visit.Plain (net : Network) (collect : Bool) : Prop := collect = true → net.Unguarded

namespace Question

variable {q : Question} {m : Manner}

/-- A visit's own configuration is collected before its transitions are followed. -/
theorem expandAll_eq (q : Question) (m : Manner) (v : Visit) (state : State) (s : Sweep) :
    q.expandAll m v state s =
      ((if state.onlyEpsilon then pure s else s.collect v.config) >>= fun s =>
        state.transitions.reverse.foldlM (q.expand m v state) s) := by
  unfold expandAll
  split <;> rfl

/-- What following a transition answers. -/
def Follows (m : Manner) (g : StackGraph) (c : Config) (t : Transition) (next : Option Config)
    (g' : StackGraph) : Prop :=
  match next with
  | none => ∀ σ, t.onward m.atEof σ = none
  | some n => n.Held g' (!m.full) ∧ n.tag = c.tag ∧ n.state = t.target ∧
      n.threads g' = onwardThreads m.atEof c.tag (g.stackSet c.stack) t

private theorem follows_moveTo {g : StackGraph} {c : Config} {t : Transition} {target : StateId}
    (hc : c.Held g (!m.full)) (htarget : t.target = target)
    (hon : ∀ σ, t.onward m.atEof σ = some (target, σ)) :
    Follows m g c t (some (c.moveTo target)) g := by
  refine ⟨hc.congr rfl rfl rfl, rfl, htarget.symm, ?_⟩
  ext ⟨tag, p, γ⟩
  constructor
  · rintro ⟨htag, hstate, hγ⟩
    refine ⟨htag, γ, hγ, ?_⟩
    rw [hon, show p = target from hstate]
  · rintro ⟨htag, σ, hσ, hon'⟩
    rw [hon] at hon'
    obtain ⟨rfl, rfl⟩ := Prod.mk.inj (Option.some.inj hon')
    exact ⟨htag, rfl, hσ⟩

/-- A call puts its follow state on every stack. -/
private theorem follows_call {g g' : StackGraph} {c : Config} {target : StateId} {rule : Nat}
    {follow : StateId} {level : Int} {id : StackId} (hg : g.Sound) (hgrown : g.Grown g')
    (hc : c.Held g (!m.full)) (hfollow : follow < emptyReturn) (hid : id < g'.size)
    (hframes : g'.frames id = [⟨follow, c.stack⟩]) :
    Follows m g c (.rule target rule follow level) (some (c.moveUnder target id)) g' := by
  refine ⟨⟨hid, fun hw => ?_, hc.routine_eq, hc.greedy⟩, rfl, rfl, ?_⟩
  · exact StackGraph.open_of_frames_singleton hfollow hframes
      ((hc.isOpen hw).grown hg hgrown hc.stack_lt)
  · ext ⟨tag, p, γ⟩
    have hstacks : g'.HasStack id γ ↔ ∃ δ, g.HasStack c.stack δ ∧ γ = follow :: δ := by
      rw [StackGraph.hasStack_of_frames_singleton hfollow hframes]
      exact exists_congr fun δ => and_congr_left fun _ => hgrown.hasStack_iff hg hc.stack_lt
    constructor
    · rintro ⟨htag, hstate, hγ⟩
      obtain ⟨δ, hδ, hγδ⟩ := hstacks.mp hγ
      refine ⟨htag, δ, hδ, ?_⟩
      exact congrArg some (Prod.ext (show p = target from hstate).symm hγδ.symm)
    · rintro ⟨htag, δ, hδ, hon⟩
      obtain ⟨rfl, rfl⟩ := Prod.mk.inj (Option.some.inj hon)
      exact ⟨htag, rfl, hstacks.mpr ⟨δ, hδ, rfl⟩⟩

/-- **A transition leads every thread of a configuration onward,** where guards do not count, unless
one of them gets too long a stack. -/
theorem follow_ends (hnet : q.net.Consistent) (hword : q.net.states.size ≤ emptyReturn)
    {collect inside : Bool} (hplain : Visit.Plain q.net collect) {c : Config} {p : StateId}
    {t : Transition} (ht : t ∈ (q.net.state p).transitions) {tr : Trail}
    (hg : tr.graph.Sound) (hc : c.Held tr.graph (!m.full)) :
    Probe.Ends true (q.follow m collect inside c t) tr (Follows m tr.graph c t)
      (Exceeded.Meets (fun depth => ∃ u ∈ onwardThreads m.atEof c.tag
        (tr.graph.stackSet c.stack) t, depth < u.2.2.length) False) := by
  have hguard : ∀ (e : Bool) (target : StateId) (g : Guard), t.guard? = some g →
      q.guarded m.full (collect && e) c target g = pure (some (c.moveTo target)) := by
    intro e target g hg'
    cases hcollect : collect with
    | false => rfl
    | true =>
      have hnone := hplain hcollect p t ht
      rw [hg'] at hnone
      cases hnone
  have hmatch : ∀ target, t.target = target →
      (∀ σ, t.onward m.atEof σ =
        if m.atEof && t.accepts Symbol.eof 0 1 then some (target, σ) else none) →
      Probe.Ends true (pure (if m.atEof && t.accepts Symbol.eof 0 1 then some (c.moveTo target)
        else none)) tr (Follows m tr.graph c t) (Exceeded.Meets (fun depth =>
          ∃ u ∈ onwardThreads m.atEof c.tag (tr.graph.stackSet c.stack) t,
            depth < u.2.2.length) False) := by
    intro target htarget hon
    refine .pure hg ?_
    by_cases hacc : (m.atEof && t.accepts Symbol.eof 0 1) = true
    · rw [if_pos hacc]
      exact follows_moveTo hc htarget fun σ => by rw [hon, if_pos hacc]
    · rw [if_neg hacc]
      exact fun σ => by rw [hon, if_neg hacc]
  cases t with
  | epsilon target => exact .pure hg (follows_moveTo hc rfl fun _ => rfl)
  | action target rule action contextual => exact .pure hg (follows_moveTo hc rfl fun _ => rfl)
  | predicate target rule pred contextual =>
    rw [Question.follow, hguard _ _ _ rfl]
    exact .pure hg (follows_moveTo hc rfl fun _ => rfl)
  | precedence target level =>
    rw [Question.follow, hguard _ _ _ rfl]
    exact .pure hg (follows_moveTo hc rfl fun _ => rfl)
  | rule target rule follow level =>
    have hfollow : follow < emptyReturn :=
      Nat.lt_of_lt_of_le (hnet.follow_lt p _ _ _ _ ht) hword
    refine (Probe.Ends.grow ((StackGraph.push_grows hg hc.stack_lt hfollow).failing ?_)).bind
      fun id t' hext ⟨hid, hframes⟩ => .pure hext.sound ?_
    · rintro e (hnodes | ⟨hdeep, he⟩)
      · exact .inl hnodes
      · obtain ⟨γ, hγ, hlength⟩ := hg.exists_longest hc.stack_lt
        refine .inr (.inl ⟨⟨(c.tag, target, follow :: γ), ⟨rfl, γ, hγ, rfl⟩, ?_⟩, he⟩)
        rw [List.length_cons, hlength, hdeep]
        exact Nat.lt_succ_self _
    · exact follows_call hg hext.grown hc hfollow hid hframes
  | atom target label => exact hmatch target rfl fun _ => rfl
  | range target start stop => exact hmatch target rfl fun _ => rfl
  | set target s => exact hmatch target rfl fun _ => rfl
  | notSet target s => exact .pure hg fun _ => rfl
  | wildcard target => exact .pure hg fun _ => rfl

end Question

/-! ## The invariant -/

/-- The threads of the visits ahead. -/
def Sweep.ahead (g : StackGraph) (s : Sweep) : Set Thread :=
  {t | ∃ v ∈ s.work, t ∈ v.config.threads g}

/-- As many rules are nested in a visit as its depth says. -/
def Visit.Nests (net : Network) (atEof : Bool) (g : StackGraph) (v : Visit) : Prop :=
  0 ≤ v.depth → ∀ σ, g.HasStack v.config.stack σ →
    ∃ rules : List Nat, (rules.length : Int) = v.depth ∧
      net.Nested atEof (v.config.state, σ) rules

/-- A visit as a closure makes it. -/
structure Visit.Ready (net : Network) (m : Manner) (g : StackGraph) (v : Visit) : Prop where
  held : v.config.Held g (!m.full)
  checkStop : v.checkStop = true
  plain : Visit.Plain net v.collect
  nests : v.Nests net m.atEof g

theorem Visit.Ready.grown {net : Network} {m : Manner} {g g' : StackGraph} {v : Visit}
    (hg : g.Sound) (h : g.Grown g') (hv : v.Ready net m g) : v.Ready net m g' where
  held := hv.held.grown hg h
  checkStop := hv.checkStop
  plain := hv.plain
  nests hd σ hσ := hv.nests hd σ ((h.hasStack_iff hg hv.held.stack_lt).mp hσ)

/-- **The invariant of a sweep** that began with the threads `T` and has followed the threads `P`.
Two kinds of work may be left over from the last visit: threads `due` on the work list, and
threads `owed` to the collected set. -/
structure Sweeping (net : Network) (m : Manner) (T P due owed : Set Thread) (s : Sweep)
    (g : StackGraph) : Prop where
  tidy : s.configs.Tidy g
  continues : (ConfigSet.forParser m.full).Continues s.configs
  ready : ∀ v ∈ s.work, v.Ready net m g
  seen : ∀ k ∈ s.seen, k.1.Held g (!m.full) ∧ k.1.threads g ⊆ P ∪ s.ahead g
  covered : T ⊆ P ∪ s.ahead g
  followed : ∀ t ∈ P, ∀ u : Thread, t.1 = u.1 → net.Hop m.full m.atEof t.2 u.2 →
    u ∈ P ∪ s.ahead g ∪ due
  sound : P ∪ s.ahead g ∪ due ⊆ net.reached m T
  short : ∀ t ∈ P, t.2.2.length ≤ g.maxDepth
  collected : spread (!m.full) (s.configs.threads g ∪ owed) =
    spread (!m.full) {t ∈ P | net.Rests m.full t.2}

namespace Sweeping

variable {net : Network} {m : Manner} {T P due owed : Set Thread} {s : Sweep} {g g' : StackGraph}

theorem ahead_grown (hg : g.Sound) (h : g.Grown g')
    (hs : ∀ v ∈ s.work, v.Ready net m g) : s.ahead g' = s.ahead g := by
  ext t
  refine exists_congr fun v => and_congr_right fun hv => ?_
  rw [(hs v hv).held.threads_eq hg h]

theorem grown (hg : g.Sound) (h : g.Grown g') (hs : Sweeping net m T P due owed s g) :
    Sweeping net m T P due owed s g' := by
  have hahead : s.ahead g' = s.ahead g := ahead_grown hg h hs.ready
  refine ⟨hs.tidy.grown hg h, hs.continues, fun v hv => (hs.ready v hv).grown hg h, ?_, ?_, ?_, ?_,
    ?_, ?_⟩
  · intro k hk
    obtain ⟨hheld, hsub⟩ := hs.seen k hk
    rw [hheld.threads_eq hg h, hahead]
    exact ⟨hheld.grown hg h, hsub⟩
  · rw [hahead]
    exact hs.covered
  · rw [hahead]
    exact hs.followed
  · rw [hahead]
    exact hs.sound
  · rw [h.maxDepth_eq]
    exact hs.short
  · rw [hs.tidy.threads_eq hg h]
    exact hs.collected

private theorem ahead_push (v : Visit) (s : Sweep) :
    (s.push v).ahead g = v.config.threads g ∪ s.ahead g := by
  ext t
  simp [Sweep.ahead, Sweep.push]

/-- Threads that are due are put on the work list. -/
theorem push {v : Visit} (hv : v.Ready net m g)
    (hs : Sweeping net m T P (v.config.threads g ∪ due) owed s g) :
    Sweeping net m T P due owed (s.push v) g := by
  refine ⟨hs.tidy, hs.continues, ?_, ?_, ?_, ?_, ?_, hs.short, hs.collected⟩
  · intro u hu
    rcases List.mem_cons.mp hu with rfl | hu
    · exact hv
    · exact hs.ready u hu
  · intro k hk
    refine ⟨(hs.seen k hk).1, (hs.seen k hk).2.trans ?_⟩
    rw [ahead_push]
    exact Set.union_subset_union_right _ Set.subset_union_right
  · refine hs.covered.trans ?_
    rw [ahead_push]
    exact Set.union_subset_union_right _ Set.subset_union_right
  · intro t ht u htag hhop
    have hu := hs.followed t ht u htag hhop
    rw [ahead_push]
    simp only [Set.mem_union] at hu ⊢
    tauto
  · intro t ht
    refine hs.sound ?_
    rw [ahead_push] at ht
    simp only [Set.mem_union] at ht ⊢
    tauto

/-- A configuration that is put on the work list is noted as seen. -/
theorem note {v : Visit} {s : Sweep} {key : VisitKey} (hv : v ∈ s.work)
    (hkey : key.1.threads g = v.config.threads g) (hheld : key.1.Held g (!m.full))
    (hs : Sweeping net m T P due owed s g) :
    Sweeping net m T P due owed { s with seen := key :: s.seen } g := by
  refine ⟨hs.tidy, hs.continues, hs.ready, ?_, hs.covered, hs.followed, hs.sound, hs.short,
    hs.collected⟩
  intro k hk
  rcases List.mem_cons.mp hk with rfl | hk
  · refine ⟨hheld, fun t ht => .inr ⟨v, hv, ?_⟩⟩
    rwa [← hkey]
  · exact hs.seen k hk

/-- Threads that are due have been seen before. -/
theorem skip {A : Set Thread} (hA : A ⊆ P ∪ s.ahead g)
    (hs : Sweeping net m T P (A ∪ due) owed s g) : Sweeping net m T P due owed s g := by
  refine ⟨hs.tidy, hs.continues, hs.ready, hs.seen, hs.covered, ?_, ?_, hs.short, hs.collected⟩
  · intro t ht u htag hhop
    rcases hs.followed t ht u htag hhop with hu | hu | hu
    · exact .inl hu
    · exact .inl (hA hu)
    · exact .inr hu
  · intro t ht
    refine hs.sound ?_
    rcases ht with ht | ht
    · exact .inl ht
    · exact .inr (.inr ht)

/-- What is collected rests, and has been reached. -/
private theorem resting_subset (hs : Sweeping net m T P due owed s g) :
    {t ∈ P | net.Rests m.full t.2} ⊆ net.closureOf m T :=
  fun _ ht => ⟨hs.sound (.inl (.inl ht.1)), ht.2⟩

/-- Threads that are owed are collected, unless there is no room for them. -/
theorem collect {c : Config} {tr : Trail} (hg : tr.graph.Sound)
    (hc : c.Held tr.graph (!m.full))
    (hs : Sweeping net m T P due (c.threads tr.graph ∪ owed) s tr.graph) :
    Probe.Ends true (s.collect c) tr (Sweeping net m T P due owed)
      (net.ClosingMeets m T) := by
  have hfull : s.configs.fullContext = m.full := hs.continues.fullContext_eq
  have hroom : s.configs.maxSize = Limits.configsPerSet := hs.continues.maxSize_eq
  refine (Probe.Ends.grow ((ConfigSet.insert_grows hg hs.tidy (hfull ▸ hc)).failing ?_)).bind
    fun configs t' hext ⟨htidy, hcont, hthreads⟩ => .pure hext.sound ?_
  · rintro e (hnodes | ⟨hcrowded, he⟩)
    · exact .inl hnodes
    · rw [hroom] at hcrowded he
      have hall := hcrowded.mono (Set.union_subset_union_right (s.configs.threads tr.graph)
        (Set.subset_union_left (t := owed)))
      exact .inr (.inr ⟨((crowded_congr hs.collected).mp hall).mono hs.resting_subset, he⟩)
  have hs' := hs.grown hg hext.grown
  refine ⟨htidy, hs.continues.trans hcont, hs'.ready, hs'.seen, hs'.covered, hs'.followed,
    hs'.sound, hs'.short, ?_⟩
  rw [hfull] at hthreads
  rw [spread_union, hthreads, ← hs.collected, spread_union, spread_union, spread_union,
    Set.union_assoc]

/-- At the end of the sweep all threads that are reached have been followed. -/
private theorem followed_eq (hs : Sweeping net m T P ∅ ∅ s g) (hdone : s.work = []) :
    P = net.reached m T := by
  have hahead : s.ahead g = ∅ := by
    ext t
    simp [Sweep.ahead, hdone]
  refine Set.Subset.antisymm ?_ (Network.reached_subset ?_ ?_)
  · intro t ht
    exact hs.sound (.inl (.inl ht))
  · simpa [hahead] using hs.covered
  · intro t ht u htag hhop
    simpa [hahead] using hs.followed t ht u htag hhop

/-- The end of the sweep: what was collected is the closure. -/
theorem closure (hs : Sweeping net m T P ∅ ∅ s g) (hdone : s.work = []) :
    spread (!m.full) (s.configs.threads g) = spread (!m.full) (net.closureOf m T) := by
  have hcoll := hs.collected
  rw [Set.union_empty, hs.followed_eq hdone] at hcoll
  exact hcoll

/-- **A sweep that comes to its end met no ceiling.** -/
theorem withstands (hg : g.Sound) (hs : Sweeping net m T P ∅ ∅ s g) (hdone : s.work = []) :
    (∀ t ∈ net.reached m T, t.2.2.length ≤ g.maxDepth) ∧
      ¬Crowded Limits.configsPerSet (net.closureOf m T) := by
  refine ⟨fun t ht => hs.short t (hs.followed_eq hdone ▸ ht), ?_⟩
  rw [← crowded_congr (hs.closure hdone)]
  have hroom : s.configs.maxSize = Limits.configsPerSet := hs.continues.maxSize_eq
  exact hroom ▸ hs.tidy.not_crowded hg

end Sweeping

end AdaptiveLL
