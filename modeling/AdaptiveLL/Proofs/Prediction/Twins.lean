import AdaptiveLL.Proofs.Config.Twins
import AdaptiveLL.Proofs.Prediction.Reach

/-!
# Predictions of twins

Two closures that begin with the same threads in graphs of their own go on side by side: each step
of the one has its twin in the other, with the same stacks under other numbers. So they collect the
same threads in the same order, make the same callbacks, and fail alike but for want of nodes; and
so it goes past any symbol. Where the stacks are not exact, nothing is put to the host, and the host
does not matter either.
-/

namespace AdaptiveLL

open StackGraph (Grows Grown Sound)

variable {wild : Bool} {g g' h h' : StackGraph}

/-- Visits of twins. -/
structure Visit.Twin (wild : Bool) (g g' : StackGraph) (v v' : Visit) : Prop where
  config : v.config.Twin wild g g' v'.config
  depth_eq : v.depth = v'.depth
  collect_eq : v.collect = v'.collect
  checkStop_eq : v.checkStop = v'.checkStop

/-- Keys of visits of twins. -/
def VisitKey.Twin (wild : Bool) (g g' : StackGraph) (k k' : VisitKey) : Prop :=
  (∃ c c' : Config, c.Twin wild g g' c' ∧ k.1 = c.identity ∧ k'.1 = c'.identity) ∧ k.2 = k'.2

/-- **Sweeps of twins.** -/
structure Sweep.Twin (m : Manner) (g g' : StackGraph) (s s' : Sweep) : Prop where
  work : List.Forall₂ (Visit.Twin (!m.full) g g') s.work s'.work
  seen : List.Forall₂ (VisitKey.Twin (!m.full) g g') s.seen s'.seen
  reported_eq : s.reported = s'.reported
  configs : s.configs.Twin m.full g g' s'.configs

theorem Visit.Twin.grown {v v' : Visit} (hg : g.Sound) (hg' : g'.Sound) (hh : g.Grown h)
    (hh' : g'.Grown h') (hv : v.Twin wild g g' v') : v.Twin wild h h' v' :=
  ⟨hv.config.grown hg hg' hh hh', hv.depth_eq, hv.collect_eq, hv.checkStop_eq⟩

private theorem VisitKey.Twin.grown {k k' : VisitKey} (hg : g.Sound) (hg' : g'.Sound)
    (hh : g.Grown h) (hh' : g'.Grown h') (hk : VisitKey.Twin wild g g' k k') :
    VisitKey.Twin wild h h' k k' := by
  obtain ⟨⟨c, c', hc, hkc, hkc'⟩, hbits⟩ := hk
  exact ⟨⟨c, c', hc.grown hg hg' hh hh', hkc, hkc'⟩, hbits⟩

namespace Sweep.Twin

variable {m : Manner} {s s' : Sweep}

theorem grown (hg : g.Sound) (hg' : g'.Sound) (hh : g.Grown h) (hh' : g'.Grown h')
    (hs : s.Twin m g g' s') : s.Twin m h h' s' where
  work := hs.work.imp fun _ _ hv => hv.grown hg hg' hh hh'
  seen := hs.seen.imp fun _ _ hk => hk.grown hg hg' hh hh'
  reported_eq := hs.reported_eq
  configs := hs.configs.grown hg hg' hh hh'

theorem push {v v' : Visit} (hs : s.Twin m g g' s') (hv : v.Twin (!m.full) g g' v') :
    (s.push v).Twin m g g' (s'.push v') :=
  { hs with work := .cons hv hs.work }

theorem dips (hs : s.Twin m g g' s') :
    Sweep.Twin m g g' { s with configs := { s.configs with dipsOut := true } }
      { s' with configs := { s'.configs with dipsOut := true } } :=
  { hs with configs := hs.configs.dips }

/-- Twins have been seen alike. -/
theorem contains_eq (hg : g.Sound) (hg' : g'.Sound) (hs : s.Twin m g g' s') {c c' : Config}
    (hc : c.Twin (!m.full) g g' c') (bits : Bool × Bool) :
    s.seen.contains (c.identity, bits) = s'.seen.contains (c'.identity, bits) := by
  have hseen := hs.seen
  generalize s.seen = seen, s'.seen = seen' at hseen
  induction hseen with
  | nil => rfl
  | @cons k k' l l' hk _ ih =>
    obtain ⟨⟨d, d', hd, hkd, hkd'⟩, hbits⟩ := hk
    have hiff : (c.identity, bits) = k ↔ (c'.identity, bits) = k' := by
      rw [show k = (d.identity, k.2) from Prod.ext hkd rfl,
        show k' = (d'.identity, k.2) from Prod.ext hkd' hbits.symm]
      simp only [Prod.mk.injEq, hc.identity_eq_iff hg hg' hd]
    simp only [List.contains_cons, ih]
    congr 1
    rw [Bool.eq_iff_iff, beq_iff_eq, beq_iff_eq, hiff]

theorem note {c c' : Config} (hs : s.Twin m g g' s') (hc : c.Twin (!m.full) g g' c')
    (bits : Bool × Bool) :
    Sweep.Twin m g g' { s with seen := (c.identity, bits) :: s.seen }
      { s' with seen := (c'.identity, bits) :: s'.seen } :=
  { hs with seen := .cons ⟨⟨c, c', hc, rfl, rfl⟩, rfl⟩ hs.seen }

/-- Twins are collected alike. -/
theorem collect {quiet : Bool} {c c' : Config} {tr tr' : Trail} (hg : tr.graph.Sound)
    (hg' : tr'.graph.Sound) (hs : s.Twin m tr.graph tr'.graph s')
    (hc : c.Twin (!m.full) tr.graph tr'.graph c') :
    Probe.Beside quiet (s.collect c) (s'.collect c') tr tr' fun u g u' g' => u.Twin m g g' u' := by
  refine (hs.configs.insert_beside hg hg' hc).bind ?_
  rintro configs u configs' u' hgrown hgrown' hboth
  exact .pure hgrown.sound hgrown'.sound { hs.grown hg hg' hgrown hgrown' with configs := hboth }

end Sweep.Twin

/-! ## Steps -/

/-- Questions that closures take alike: the host only matters where the stacks are exact. -/
structure Question.Alike (full : Bool) (q q' : Question) : Prop where
  net_eq : q.net = q'.net
  entry_eq : q.entry = q'.entry
  host_eq : full = true → q.host = q'.host ∧ q.start = q'.start

/-- A question at a decision of the network. -/
def Network.questionAt (net : Network) (entry : StateId) : Question :=
  { (default : Question) with net, entry }

namespace Question

variable {q q' : Question} {full : Bool} {m : Manner} {tr tr' : Trail}

theorem Alike.refl (full : Bool) (q : Question) : q.Alike full q := ⟨rfl, rfl, fun _ => ⟨rfl, rfl⟩⟩

theorem Alike.symm (h : q.Alike full q') : q'.Alike full q :=
  ⟨h.net_eq.symm, h.entry_eq.symm, fun hfull =>
    ⟨(h.host_eq hfull).1.symm, (h.host_eq hfull).2.symm⟩⟩

theorem Alike.trans {q'' : Question} (h : q.Alike full q') (h' : q'.Alike full q'') :
    q.Alike full q'' :=
  ⟨h.net_eq.trans h'.net_eq, h.entry_eq.trans h'.entry_eq, fun hfull =>
    ⟨(h.host_eq hfull).1.trans (h'.host_eq hfull).1, (h.host_eq hfull).2.trans (h'.host_eq hfull).2⟩⟩

theorem Steady.congr (hhost : q.Steady full) (h : q.Alike full q') : q'.Steady full :=
  fun hfull => (h.host_eq hfull).1 ▸ h.net_eq ▸ hhost hfull

/-- Where a guard is put to the host, the host is steady. -/
private theorem Steady.of_guard (hhost : q.Steady full) {p : StateId} {t : Transition}
    (ht : t ∈ (q.net.state p).transitions) (hguard : t.guard? ≠ none) :
    full = true → q.host.Steady :=
  fun hfull => (hhost hfull).resolve_right fun hnone => hguard (hnone p t ht)

/-- What following a transition answers for twins. -/
private def Matches (m : Manner) (n : Option Config) (g : StackGraph) (n' : Option Config)
    (g' : StackGraph) : Prop :=
  match n, n' with
  | some c, some c' => c.Twin (!m.full) g g' c'
  | none, none => True
  | _, _ => False

private theorem guarded_beside (halike : q.Alike m.full q')
    (hhost : m.full = true → q.host.Steady) {c c' : Config} (evaluate : Bool) (target : StateId) (x : Guard) (hg : tr.graph.Sound)
    (hg' : tr'.graph.Sound) (hc : c.Twin (!m.full) tr.graph tr'.graph c') :
    Probe.Beside (!m.full) (q.guarded m.full evaluate c target x)
      (q'.guarded m.full evaluate c' target x) tr tr' (Matches m) := by
  unfold guarded
  cases evaluate with
  | false => exact .pure hg hg' (hc.moveTo target)
  | true =>
    cases hfull : m.full with
    | false =>
      rw [hfull] at hc
      refine .pure hg hg' ?_
      unfold Matches
      rw [hfull]
      exact (hc.moveTo target).withGuard x
    | true =>
      obtain ⟨hsame, hstart⟩ := halike.host_eq hfull
      simp only [Bool.not_true, Bool.false_eq_true, if_false, if_true]
      rw [← hsame, ← hstart]
      refine (Probe.Beside.holds (hhost hfull) rfl hg hg').bind ?_
      rintro b u _ u' hgrown hgrown' ⟨rfl, hu, hu'⟩
      cases b with
      | true =>
        refine .pure hgrown.sound hgrown'.sound ?_
        rw [hu, hu']
        exact hc.moveTo target
      | false => exact .pure hgrown.sound hgrown'.sound trivial

/-- Where a node could be pushed onto, no other one with its stacks is too deep. -/
private theorem nodes_of_pushed {parent parent' id : StackId} {follow : Nat} {e : Exceeded}
    (hg' : g'.Sound) (hgrown : g.Grown h) (hg : g.Sound) (hlt : parent < g.size)
    (hlt' : parent' < g'.size) (hstacks : g.stackSet parent = g'.stackSet parent')
    (hdepth : g.maxDepth = g'.maxDepth) (hfollow : follow < emptyReturn)
    (hframes : h.frames id = [⟨follow, parent⟩])
    (he : e.resource = .arenaNodes ∨
      g'.depth parent' = g'.maxDepth ∧ e = .tooLong g'.maxDepth) :
    e.resource = .arenaNodes := by
  refine he.resolve_right fun ⟨hdeep, _⟩ => ?_
  obtain ⟨γ, hγ, hlength⟩ := hg'.exists_longest hlt'
  have hparent : g.HasStack parent γ := (Set.ext_iff.mp hstacks γ).mpr hγ
  have hlonger : h.HasStack id (follow :: γ) :=
    (StackGraph.hasStack_of_frames_singleton hfollow hframes).mpr
      ⟨γ, (hgrown.hasStack_iff hg hlt).mpr hparent, rfl⟩
  have hle := hlonger.length_le hgrown.sound
  rw [List.length_cons, hlength, hdeep, hgrown.maxDepth_eq, hdepth] at hle
  exact Nat.not_succ_le_self _ hle

/-- **Twins follow a transition alike.** -/
private theorem follow_beside (hnet : q.net.Consistent) (hword : q.net.states.size ≤ emptyReturn)
    (halike : q.Alike m.full q') (hhost : q.Steady m.full) {c c' : Config} (collect inside : Bool)
    {p : StateId} {t : Transition} (ht : t ∈ (q.net.state p).transitions) (hg : tr.graph.Sound)
    (hg' : tr'.graph.Sound) (hc : c.Twin (!m.full) tr.graph tr'.graph c') :
    Probe.Beside (!m.full) (q.follow m collect inside c t) (q'.follow m collect inside c' t) tr tr'
      (Matches m) := by
  have hmatch : ∀ (b : Bool) target, Probe.Beside (!m.full)
      (pure (if b then some (c.moveTo target) else none) : Probe (Option Config))
      (pure (if b then some (c'.moveTo target) else none) : Probe (Option Config)) tr tr'
      (Matches m) := by
    intro b target
    cases b with
    | true => exact .pure hg hg' (hc.moveTo target)
    | false => exact .pure hg hg' trivial
  cases t with
  | epsilon target => exact .pure hg hg' (hc.moveTo target)
  | action target rule action contextual => exact .pure hg hg' (hc.moveTo target)
  -- Guards ask the host the same question, and a steady host answers it alike.
  | predicate target rule pred contextual =>
    exact guarded_beside halike (hhost.of_guard ht nofun) _ target _ hg hg' hc
  | precedence target level =>
    exact guarded_beside halike (hhost.of_guard ht nofun) _ target _ hg hg' hc
  | rule target rule follow level =>
    have hfollow : follow < emptyReturn := Nat.lt_of_lt_of_le (hnet.follow_lt p _ _ _ _ ht) hword
    -- Both sides may refuse to push; then they refuse for nodes, or the common depth is too great.
    refine (Probe.Beside.grow (StackGraph.push_grows hg hc.held.stack_lt hfollow)
      (StackGraph.push_grows hg' hc.held'.stack_lt hfollow)
      (fun a h e hgrown hpushed he hdepth => nodes_of_pushed hg' hgrown hg hc.held.stack_lt
        hc.held'.stack_lt hc.stacks_eq hdepth hfollow hpushed.2 he)
      (fun a h e hgrown hpushed he hdepth => nodes_of_pushed hg hgrown hg' hc.held'.stack_lt
        hc.held.stack_lt hc.stacks_eq.symm hdepth.symm hfollow hpushed.2 he) ?_).bind ?_
    · rintro e e' (hnodes | ⟨-, rfl⟩) (hnodes' | ⟨-, rfl⟩)
      · exact .inl fun _ => hnodes
      · exact .inl fun _ => hnodes
      · exact .inr (.inl fun _ => hnodes')
      · exact .inr (.inr fun hdepth => by rw [hdepth])
    rintro a u b u' hgrown hgrown' ⟨⟨ha, hframes⟩, hb, hframes'⟩
    have hcall := hc.grown hg hg' hgrown hgrown'
    refine .pure hgrown.sound hgrown'.sound (hcall.moveUnder ha hb (fun hw => ?_) ?_)
    · exact ⟨StackGraph.open_of_frames_singleton hfollow hframes (hcall.held.isOpen hw),
        StackGraph.open_of_frames_singleton hfollow hframes' (hcall.held'.isOpen hw)⟩
    -- The two tops have the same stacks, for the frame pushed is the same and so are those below.
    · ext γ
      have hδ : ∀ δ, u.graph.HasStack c.stack δ ↔ u'.graph.HasStack c'.stack δ :=
        fun δ => Set.ext_iff.mp hcall.stacks_eq δ
      change u.graph.HasStack a γ ↔ u'.graph.HasStack b γ
      rw [StackGraph.hasStack_of_frames_singleton hfollow hframes,
        StackGraph.hasStack_of_frames_singleton hfollow hframes']
      simp only [hδ]
  | atom target label => exact hmatch _ target
  | range target start stop => exact hmatch _ target
  | set target s => exact hmatch _ target
  | notSet target s => exact .pure hg hg' trivial
  | wildcard target => exact .pure hg hg' trivial

/-- **Twins are entered alike.** -/
private theorem enter_beside (halike : q.Alike m.full q') {v v' : Visit} (state : State)
    (t : Transition) (collect : Bool) {n n' : Config} {s s' : Sweep} (hg : tr.graph.Sound)
    (hg' : tr'.graph.Sound) (hv : v.Twin (!m.full) tr.graph tr'.graph v')
    (hn : n.Twin (!m.full) tr.graph tr'.graph n') (hs : s.Twin m tr.graph tr'.graph s') :
    Probe.Beside (!m.full) (q.enter v state t collect n s) (q'.enter v' state t collect n' s') tr
      tr' fun u g u' g' => u.Twin m g g' u' := by
  unfold enter
  have hk : (if state.isRuleStop then { n with outer := n.outer + 1 } else n).Twin (!m.full)
      tr.graph tr'.graph (if state.isRuleStop then { n' with outer := n'.outer + 1 } else n') := by
    split
    · exact hn.withOuter (by rw [hn.outer_eq])
    · exact hn
  -- What was seen so far decides which branch is taken, and the twins have seen the same.
  generalize (if state.isRuleStop then { n with outer := n.outer + 1 } else n) = k at hk ⊢
  generalize (if state.isRuleStop then { n' with outer := n'.outer + 1 } else n') = k' at hk ⊢
  dsimp only
  rw [← hk.outer_eq, ← hs.contains_eq hg hg' hk, ← hv.depth_eq, ← hs.reported_eq, ← halike.net_eq]
  split
  · exact .pure hg hg' hs
  have hnoted := hs.note hk (decide (0 < k.outer), collect)
  rw [← hs.reported_eq] at hnoted
  split
  · exact .pure hg hg' (hnoted.dips.push ⟨hk, rfl, rfl, rfl⟩)
  split
  · split
    · split
      · exact .pure hg hg' hnoted
      · -- The left recursion is noted in both trails.
        intro a u a' u' hrun hrun'
        simp only [Run.from?_bind] at hrun hrun'
        obtain ⟨rfl, rfl⟩ : _ = a ∧ _ = u := by simpa using hrun
        obtain ⟨rfl, rfl⟩ : _ = a' ∧ _ = u' := by simpa using hrun'
        exact ⟨.refl hg, .refl hg', ⟨[], by simp, by simp, fun _ => rfl⟩,
          { hnoted with reported_eq := rfl }⟩
    · exact .pure hg hg' (hnoted.push ⟨hk, rfl, rfl, rfl⟩)
  · exact .pure hg hg' (hnoted.push ⟨hk, rfl, rfl, rfl⟩)

private theorem expand_beside (hnet : q.net.Consistent) (hword : q.net.states.size ≤ emptyReturn)
    (halike : q.Alike m.full q') (hhost : q.Steady m.full) {v v' : Visit} {p : StateId}
    {t : Transition} (ht : t ∈ (q.net.state p).transitions) {s s' : Sweep} (hg : tr.graph.Sound)
    (hg' : tr'.graph.Sound) (hv : v.Twin (!m.full) tr.graph tr'.graph v')
    (hs : s.Twin m tr.graph tr'.graph s') :
    Probe.Beside (!m.full) (q.expand m v (q.net.state p) s t) (q'.expand m v' (q.net.state p) s' t)
      tr tr' fun u g u' g' => u.Twin m g g' u' := by
  unfold expand
  dsimp only
  rw [← hv.collect_eq, ← hv.depth_eq]
  refine (follow_beside hnet hword halike hhost _ _ ht hg hg' hv.config).bind ?_
  intro n u n' u' hgrown hgrown' hn
  match n, n' with
  | none, none => exact .pure hgrown.sound hgrown'.sound (hs.grown hg hg' hgrown hgrown')
  | some c, some c' =>
    exact enter_beside halike _ t _ hgrown.sound hgrown'.sound (hv.grown hg hg' hgrown hgrown') hn
      (hs.grown hg hg' hgrown hgrown')
  | none, some _ => exact hn.elim
  | some _, none => exact hn.elim

private theorem expandAll_beside (hnet : q.net.Consistent) (hword : q.net.states.size ≤ emptyReturn)
    (halike : q.Alike m.full q') (hhost : q.Steady m.full) {v v' : Visit} {p : StateId}
    {s s' : Sweep} (hg : tr.graph.Sound) (hg' : tr'.graph.Sound)
    (hv : v.Twin (!m.full) tr.graph tr'.graph v') (hs : s.Twin m tr.graph tr'.graph s') :
    Probe.Beside (!m.full) (q.expandAll m v (q.net.state p) s)
      (q'.expandAll m v' (q.net.state p) s') tr tr' fun u g u' g' => u.Twin m g g' u' := by
  have hcollect : Probe.Beside (!m.full)
      (if (q.net.state p).onlyEpsilon then pure s else s.collect v.config)
      (if (q.net.state p).onlyEpsilon then pure s' else s'.collect v'.config) tr tr'
      fun u g u' g' => u.Twin m g g' u' := by
    split
    · exact .pure hg hg' hs
    · exact hs.collect hg hg' hv.config
  rw [expandAll_eq, expandAll_eq]
  refine hcollect.bind fun s₁ u s₁' u' hgrown hgrown' hs₁ => ?_
  refine (Probe.Beside.foldlM (fun s g s' g' => tr.graph.Grown g ∧ tr'.graph.Grown g' ∧
      s.Twin m g g' s') (fun t _ t' _ => t = t' ∧ t ∈ (q.net.state p).transitions)
    (fun _ _ _ _ _ _ _ _ _ _ => id) ?_ ?_ hgrown.sound hgrown'.sound
    ⟨hgrown, hgrown', hs₁⟩).mono fun _ _ _ _ _ _ h => h.2.2
  · rintro a t w b _ w' - - ⟨rfl, ht⟩ ⟨hw, hw', hab⟩
    exact (expand_beside hnet hword halike hhost ht hw.sound hw'.sound (hv.grown hg hg' hw hw')
      hab).mono fun _ _ _ _ hx hx' htwin => ⟨hw.trans hx, hw'.trans hx', htwin⟩
  · exact List.forall₂_same.mpr fun t ht => ⟨rfl, List.mem_reverse.mp ht⟩

/-- **Twins return alike.** -/
private theorem leave_beside {v v' : Visit} {f f' : Frame} {s s' : Sweep} (hg : tr.graph.Sound)
    (hg' : tr'.graph.Sound) (hv : v.Twin (!m.full) tr.graph tr'.graph v')
    (hne : v.config.stack ≠ StackId.empty) (hne' : v'.config.stack ≠ StackId.empty)
    (hf : f ∈ tr.graph.frames v.config.stack) (hf' : f' ∈ tr'.graph.frames v'.config.stack)
    (hff' : f.isBottom = f'.isBottom ∧ f.ret = f'.ret ∧
      tr.graph.stackSet f.parent = tr'.graph.stackSet f'.parent)
    (hs : s.Twin m tr.graph tr'.graph s') :
    Probe.Beside (!m.full) (leave m v s f) (leave m v' s' f') tr tr'
      fun u g u' g' => u.Twin m g g' u' := by
  obtain ⟨hbot, hret, hparent⟩ := hff'
  unfold leave
  rw [← hbot]
  split
  · split
    · exact hs.collect hg hg' (hv.config.toBottom hg hg')
    · exact .pure hg hg' (hs.push ⟨hv.config, hv.depth_eq, hv.collect_eq, rfl⟩)
  · next hcall =>
    rw [Bool.not_eq_true] at hcall
    have hlt : f.parent < tr.graph.size :=
      (hg.parent_lt _ f hf hcall).trans hv.config.held.stack_lt
    have hlt' : f'.parent < tr'.graph.size :=
      (hg'.parent_lt _ f' hf' (hbot ▸ hcall)).trans hv.config.held'.stack_lt
    refine .pure hg hg' (hs.push ⟨?_, by rw [hv.depth_eq], hv.collect_eq, rfl⟩)
    rw [← hret]
    exact hv.config.moveUnder hlt hlt' (fun hw => ⟨(hv.config.held.isOpen hw).parent hne f hf,
      (hv.config.held'.isOpen hw).parent hne' f' hf'⟩) hparent

/-- **Twins are visited alike.** -/
private theorem perform_beside (hnet : q.net.Consistent) (hword : q.net.states.size ≤ emptyReturn)
    (halike : q.Alike m.full q') (hhost : q.Steady m.full) {v v' : Visit} {s s' : Sweep}
    (hg : tr.graph.Sound) (hg' : tr'.graph.Sound) (hv : v.Twin (!m.full) tr.graph tr'.graph v')
    (hs : s.Twin m tr.graph tr'.graph s') :
    Probe.Beside (!m.full) (q.perform m v s) (q'.perform m v' s') tr tr'
      fun u g u' g' => u.Twin m g g' u' := by
  unfold perform
  dsimp only
  rw [← halike.net_eq, ← hv.config.state_eq, ← hv.checkStop_eq]
  have hempty := hv.config.stack_eq_empty_iff hg hg'
  have hall := expandAll_beside hnet hword halike hhost (p := v.config.state) hg hg' hv hs
  split
  -- At a rule stop the configuration leaves by every frame. The graphs list the frames in one
  -- order, so the two loops pass corresponding frames round by round.
  · by_cases hne : v.config.stack ≠ StackId.empty
    · have hne' : v'.config.stack ≠ StackId.empty := fun heq => hne (hempty.mpr heq)
      rw [if_pos hne, if_pos hne']
      refine .bind_get ?_
      refine (Probe.Beside.foldlM (fun s g s' g' => tr.graph.Grown g ∧ tr'.graph.Grown g' ∧
          s.Twin m g g' s') (fun f _ f' _ => (f ∈ tr.graph.frames v.config.stack ∧
            f' ∈ tr'.graph.frames v'.config.stack) ∧ f.isBottom = f'.isBottom ∧ f.ret = f'.ret ∧
            tr.graph.stackSet f.parent = tr'.graph.stackSet f'.parent)
        (fun _ _ _ _ _ _ _ _ _ _ => id) ?_ ?_ hg hg' ⟨.refl hg, .refl hg', hs⟩).mono
        fun _ _ _ _ _ _ h => h.2.2
      · rintro a f w b f' w' - - ⟨⟨hf, hf'⟩, hbot, hret, hparent⟩ ⟨hw, hw', hab⟩
        have hkept : f ∈ w.graph.frames v.config.stack := by
          rwa [hw.keeps _ hv.config.held.stack_lt]
        have hkept' : f' ∈ w'.graph.frames v'.config.stack := by
          rwa [hw'.keeps _ hv.config.held'.stack_lt]
        -- A frame lies below the stack, so what its parent means was settled before the loop began.
        have hparent' : w.graph.stackSet f.parent = w'.graph.stackSet f'.parent := by
          cases hcall : f.isBottom with
          | true =>
            rw [hg.closed _ f hf hcall, hg'.closed _ f' hf' (hbot ▸ hcall)]
            exact hw.sound.stackSet_empty.trans hw'.sound.stackSet_empty.symm
          | false =>
            rw [hw.stackSet_eq hg ((hg.parent_lt _ f hf hcall).trans hv.config.held.stack_lt),
              hw'.stackSet_eq hg' ((hg'.parent_lt _ f' hf' (hbot ▸ hcall)).trans
                hv.config.held'.stack_lt), hparent]
        exact (leave_beside hw.sound hw'.sound (hv.grown hg hg' hw hw') hne hne' hkept hkept'
          ⟨hbot, hret, hparent'⟩ hab).mono
          fun _ _ _ _ hx hx' htwin => ⟨hw.trans hx, hw'.trans hx', htwin⟩
      · have hframes := hg.frames_forall₂ hg' hv.config.stacks_eq
        refine List.rel_reverse ?_
        refine List.forall₂_iff_get.mpr ⟨hframes.length_eq, fun i hi hi' => ⟨?_, ?_⟩⟩
        · exact ⟨List.get_mem _ _, List.get_mem _ _⟩
        · exact (List.forall₂_iff_get.mp hframes).2 i hi hi'
    · have hne' : ¬v'.config.stack ≠ StackId.empty := fun h => hne fun heq => h (hempty.mp heq)
      rw [if_neg hne, if_neg hne']
      split
      · exact hs.collect hg hg' hv.config
      · exact hall
  · exact hall

/-! ## Closures -/

/-- What the closures of twins have left. -/
private def Closed (m : Manner) (acc : ConfigSet × List VisitKey) (g : StackGraph)
    (acc' : ConfigSet × List VisitKey) (g' : StackGraph) : Prop :=
  Sweep.Twin m g g' { work := [], configs := acc.1, seen := acc.2 }
    { work := [], configs := acc'.1, seen := acc'.2 }

private theorem closure_beside (hnet : q.net.Consistent) (hword : q.net.states.size ≤ emptyReturn)
    (halike : q.Alike m.full q') (hhost : q.Steady m.full) (collect : Bool) {c c' : Config}
    {acc acc' : ConfigSet × List VisitKey} (hg : tr.graph.Sound) (hg' : tr'.graph.Sound)
    (hc : c.Twin (!m.full) tr.graph tr'.graph c') (hacc : Closed m acc tr.graph acc' tr'.graph) :
    Probe.Beside (!m.full) (q.closure m collect acc c) (q'.closure m collect acc' c') tr tr'
      (Closed m) := by
  have hvisit : Visit.Twin (!m.full) tr.graph tr'.graph { config := c, collect }
      { config := c', collect } := ⟨hc, rfl, rfl, rfl⟩
  unfold closure
  refine Probe.Beside.loop (fun s g s' g' => s.Twin m g g' s') ?_ hg hg' (hacc.push hvisit)
  intro s u s' u' hu hu' hs
  have hwork := hs.work
  unfold sweepStep
  match hleft : s.work, hright : s'.work with
  | [], [] =>
    refine .pure hu hu' { hs with work := .nil, reported_eq := rfl }
  | v :: rest, v' :: rest' =>
    rw [hleft, hright] at hwork
    obtain _ | ⟨hv, hrest⟩ := hwork
    have hpopped : Sweep.Twin m u.graph u'.graph { s with work := rest } { s' with work := rest' } :=
      { hs with work := hrest }
    exact (perform_beside hnet hword halike hhost hu hu' hv hpopped).bind
      fun _ _ _ _ hgrown hgrown' htwin => .pure hgrown.sound hgrown'.sound htwin
  | [], _ :: _ =>
    rw [hleft, hright] at hwork
    cases hwork
  | _ :: _, [] =>
    rw [hleft, hright] at hwork
    cases hwork

/-- The closures of twins, one after the other. -/
private theorem closures_beside (hnet : q.net.Consistent) (hword : q.net.states.size ≤ emptyReturn)
    (halike : q.Alike m.full q') (hhost : q.Steady m.full) (collect : Bool) {cs cs' : List Config}
    (hg : tr.graph.Sound) (hg' : tr'.graph.Sound)
    (hcs : List.Forall₂ (Config.Twin (!m.full) tr.graph tr'.graph) cs cs') :
    Probe.Beside (!m.full) (cs.foldlM (q.closure m collect) (ConfigSet.forParser m.full, []))
      (cs'.foldlM (q'.closure m collect) (ConfigSet.forParser m.full, [])) tr tr'
      fun acc g acc' g' => acc.1.Twin m.full g g' acc'.1 := by
  refine (Probe.Beside.foldlM (Closed m) (fun c g c' g' => c.Twin (!m.full) g g' c' ∧
      g.Sound ∧ g'.Sound) ?_ ?_ ?_ hg hg' ?_).mono fun _ _ _ _ _ _ hclosed => hclosed.configs
  · rintro c g c' g' h h' - - hh hh' ⟨hc, hg, hg'⟩
    exact ⟨hc.grown hg hg' hh hh', hh.sound, hh'.sound⟩
  · rintro acc c u acc' c' u' hu hu' ⟨hc, -, -⟩ hacc
    exact closure_beside hnet hword halike hhost collect hu.sound hu'.sound hc hacc
  · exact hcs.imp fun _ _ hc => ⟨hc, hg, hg'⟩
  · exact ⟨.nil, .nil, rfl, .empty _ _ _⟩

/-- **Decisions begin alike** under the same stack, whatever the graphs. -/
theorem startSet_beside (hnet : q.net.Consistent) (hword : q.net.states.size ≤ emptyReturn)
    (halike : q.Alike full q') (hhost : q.Steady full) {σ : List StateId}
    (hσ : full = false → σ = []) {stack stack' : StackId} (hg : tr.graph.Sound)
    (hg' : tr'.graph.Sound) (hlt : stack < tr.graph.size) (hlt' : stack' < tr'.graph.size)
    (hset : tr.graph.stackSet stack = {σ}) (hset' : tr'.graph.stackSet stack' = {σ}) :
    Probe.Beside (!full) (q.startSet full stack) (q'.startSet full stack') tr tr'
      fun s g s' g' => s.Twin full g g' s' := by
  -- Where the stacks are not exact, the decision begins under the empty one.
  have hopen : ∀ {g : StackGraph} {a : StackId}, g.Sound → a < g.size → g.stackSet a = {σ} →
      (!full) = true → g.Open a := by
    intro g a hg ha hset hw
    rw [hσ (by simpa using hw), ← hg.stackSet_empty] at hset
    rw [hg.eq_of_stackSet_eq ha hg.empty_lt hset]
    exact .empty
  unfold startSet
  rw [← halike.net_eq, ← halike.entry_eq]
  refine (closures_beside (m := { full }) hnet hword halike hhost true hg hg' ?_).bind ?_
  · rw [List.forall₂_map_left_iff, List.forall₂_map_right_iff]
    refine List.forall₂_same.mpr fun ⟨t, i⟩ _ => ?_
    exact ⟨⟨hlt, hopen hg hlt hset, rfl, rfl⟩, ⟨hlt', hopen hg' hlt' hset', rfl, rfl⟩, rfl, rfl,
      rfl, hset.trans hset'.symm⟩
  · rintro ⟨configs, seen⟩ u ⟨configs', seen'⟩ u' hu hu' hclosed
    exact .pure hu.sound hu'.sound hclosed

/-- **What the decision comes to at its beginning,** under the stack `σ` and where stacks may have
`depth` frames: once it did. -/
def Comes (q : Question) (full : Bool) (σ : List StateId) (depth : Nat)
    (r : Except Exceeded ConfigSet) : Prop :=
  ∃ (q' : Question) (tr tr' : Trail) (stack : StackId), q'.Alike full q ∧ tr.graph.Sound ∧
    tr.graph.maxDepth = depth ∧ stack < tr.graph.size ∧ tr.graph.stackSet stack = {σ} ∧
      (q'.startSet full stack).from? tr = some (r, tr')

/-- The decision begins without meeting a ceiling. -/
def Opened (q : Question) (full : Bool) (σ : List StateId) (depth : Nat) : Prop :=
  ∃ s, q.Comes full σ depth (.ok s)

/-- The decision meets a ceiling at its beginning. -/
def Balks (q : Question) (full : Bool) (σ : List StateId) (depth : Nat) (e : Exceeded) : Prop :=
  q.Comes full σ depth (.error e)

theorem Opened.congr {σ : List StateId} {depth : Nat} (h : q.Opened full σ depth)
    (halike : q.Alike full q') : q'.Opened full σ depth := by
  obtain ⟨s, q'', tr, tr', stack, hq, hrest⟩ := h
  exact ⟨s, q'', tr, tr', stack, hq.trans halike, hrest⟩

variable {σ : List StateId} {depth : Nat} {e e' : Exceeded}

/-- Where the decision has begun once, only nodes can be wanting. -/
theorem Balks.nodes (hnet : q.net.Consistent) (hword : q.net.states.size ≤ emptyReturn)
    (hhost : q.Steady full) (hσ : full = false → σ = []) (h : q.Balks full σ depth e)
    (hopened : q.Opened full σ depth) :
    e.resource = .arenaNodes := by
  obtain ⟨q₁, u, u', stack, halike, hu, hdepth, hlt, hset, hrun⟩ := h
  obtain ⟨s, q₂, v, v', stack', halike', hv, hdepth', hlt', hset', hrun'⟩ := hopened
  have happart : Probe.Apart u v e := startSet_beside (halike.net_eq ▸ hnet) (halike.net_eq ▸ hword)
    (halike.trans halike'.symm) (hhost.congr halike.symm) hσ hu hv hlt hlt' hset hset' _ u' _ v' hrun
    hrun'
  exact happart (hdepth.trans hdepth'.symm)

/-- **The decision always meets the same ceiling at its beginning,** but for that of the nodes. -/
theorem Balks.unique (hnet : q.net.Consistent) (hword : q.net.states.size ≤ emptyReturn)
    (hhost : q.Steady full) (hσ : full = false → σ = []) (h : q.Balks full σ depth e)
    (h' : q.Balks full σ depth e') :
    e.resource = .arenaNodes ∨ e'.resource = .arenaNodes ∨ e = e' := by
  obtain ⟨q₁, u, u', stack, halike, hu, hdepth, hlt, hset, hrun⟩ := h
  obtain ⟨q₂, v, v', stack', halike', hv, hdepth', hlt', hset', hrun'⟩ := h'
  have hends : Probe.Apart u v e ∨ Probe.Apart u v e' ∨ Probe.Alike u v e e' :=
    startSet_beside (halike.net_eq ▸ hnet) (halike.net_eq ▸ hword) (halike.trans halike'.symm)
      (hhost.congr halike.symm) hσ hu hv hlt hlt' hset hset' _ u' _ v' hrun hrun'
  have hdepths := hdepth.trans hdepth'.symm
  exact hends.imp (· hdepths) (Or.imp (· hdepths) (· hdepths))

/-! ## One symbol -/

private theorem consume_beside {quiet : Bool} (hnet : q.net = q'.net) {v : Symbol}
    {s s' : ConfigSet} (hg : tr.graph.Sound) (hg' : tr'.graph.Sound)
    (hs : s.Twin full tr.graph tr'.graph s') :
    Probe.Beside quiet (q.consume v full s) (q'.consume v full s') tr tr'
      fun u g u' g' => u.Twin full g g' u' := by
  rw [consume_eq, consume_eq, ← hnet]
  refine ConfigSet.Twin.insertAll_beside hg hg' (.empty _ _ _) ?_
  have hopen := hs.filter hg hg' fun p => !q.net.isStop p
  have hstops : q'.atRuleStop = q.atRuleStop := by
    funext c
    rw [atRuleStop, atRuleStop, hnet]
  rw [hstops]
  change List.Forall₂ _ (s.toList.filter fun c => !q.atRuleStop c)
    (s'.toList.filter fun c => !q.atRuleStop c) at hopen
  generalize (s.toList.filter fun c => !q.atRuleStop c) = l,
    (s'.toList.filter fun c => !q.atRuleStop c) = l' at hopen
  induction hopen with
  | nil => exact .nil
  | @cons c c' l l' hc _ ih =>
    rw [List.flatMap_cons, List.flatMap_cons, ← hc.state_eq]
    refine List.rel_append ?_ ih
    rw [List.forall₂_map_left_iff, List.forall₂_map_right_iff]
    exact List.forall₂_same.mpr fun t _ => hc.moveTo t.target

private theorem closeAll_beside (hnet : q.net.Consistent) (hword : q.net.states.size ≤ emptyReturn)
    (halike : q.Alike m.full q') (hhost : q.Steady m.full) {s s' : ConfigSet} (hg : tr.graph.Sound)
    (hg' : tr'.graph.Sound) (hs : s.Twin m.full tr.graph tr'.graph s') :
    Probe.Beside (!m.full) (q.closeAll m s) (q'.closeAll m s') tr tr'
      fun u g u' g' => u.Twin m.full g g' u' := by
  unfold closeAll
  exact (closures_beside hnet hword halike hhost false hg hg' (hs.forall₂ hg hg')).bind
    fun acc u acc' u' hgrown hgrown' htwin => .pure hgrown.sound hgrown'.sound htwin

private theorem finished_beside {quiet : Bool} (hnet : q.net = q'.net) {s s' : ConfigSet}
    (hg : tr.graph.Sound) (hg' : tr'.graph.Sound) (hs : s.Twin full tr.graph tr'.graph s') :
    Probe.Beside quiet (q.finished s) (q'.finished s') tr tr'
      fun u g u' g' => u.Twin full g g' u' := by
  have hfull : s.fullContext = full := hs.continues.fullContext_eq
  have hfull' : s'.fullContext = full := hs.continues'.fullContext_eq
  unfold finished
  rw [← hnet, ← hs.allAtRuleStop_eq, hfull, hfull']
  split
  · exact .pure hg hg' hs
  · refine ConfigSet.Twin.insertAll_beside hg hg' (.empty _ _ _) ?_
    have hstops : q'.atRuleStop = q.atRuleStop := by
      funext c
      rw [atRuleStop, atRuleStop, hnet]
    rw [hstops]
    exact hs.filter hg hg' fun p => q.net.isStop p

/-- **Twins consume a symbol alike.** -/
theorem reach_beside (hnet : q.net.Consistent) (hword : q.net.states.size ≤ emptyReturn)
    (halike : q.Alike full q') (hhost : q.Steady full) {v : Symbol} {s s' : ConfigSet}
    (hg : tr.graph.Sound) (hg' : tr'.graph.Sound) (hs : s.Twin full tr.graph tr'.graph s') :
    Probe.Beside (!full) (q.reach v full s) (q'.reach v full s') tr tr' fun next g next' g' =>
      ∀ u u', next = some u → next' = some u' → u.Twin full g g' u' := by
  have hwaiting : List.Forall₂ (Config.Twin (!full) tr.graph tr'.graph) (q.waiting v full s)
      (q'.waiting v full s') := by
    unfold waiting
    split
    -- The waiting configurations are a sublist picked by state, and twins stand in equal states.
    · have hstops : q'.atRuleStop = q.atRuleStop := by
        funext c
        rw [atRuleStop, atRuleStop, halike.net_eq]
      rw [hstops]
      exact hs.filter hg hg' fun p => q.net.isStop p
    · exact .nil
  have hisEmpty : (q.waiting v full s).isEmpty = (q'.waiting v full s').isEmpty := by
    generalize q.waiting v full s = l, q'.waiting v full s' = l' at hwaiting
    cases hwaiting <;> rfl
  -- The parts of the reach one by one: consume, close, keep the finished ones, add the waiting.
  rw [reach_eq, reach_eq, ← hisEmpty]
  refine (consume_beside halike.net_eq hg hg' hs).bind ?_
  intro moved u moved' u' hu hu' hmoved
  rw [← hmoved.size_eq, ← hmoved.commonAlt_eq]
  refine Probe.Beside.bind (Q := fun s g s' g' => s.Twin full g g' s') ?_ ?_
  · split
    · exact .pure hu.sound hu'.sound hmoved
    · exact closeAll_beside hnet hword halike hhost hu.sound hu'.sound hmoved
  intro next w next' w' hw hw' hnext
  refine Probe.Beside.bind (Q := fun s g s' g' => s.Twin full g g' s') ?_ ?_
  · split
    · exact finished_beside halike.net_eq hw.sound hw'.sound hnext
    · exact .pure hw.sound hw'.sound hnext
  intro next x next' x' hx hx' hnext
  refine Probe.Beside.bind (Q := fun s g s' g' => s.Twin full g g' s') ?_ ?_
  · unfold addWaiting
    rw [← halike.net_eq, ← hnext.someAtRuleStop_eq]
    split
    · exact .pure hx.sound hx'.sound hnext
    · refine hnext.insertAll_beside hx.sound hx'.sound (hwaiting.imp fun c c' hc => ?_)
      exact hc.grown hg hg' ((hu.trans hw).trans hx) ((hu'.trans hw').trans hx')
  intro next y next' y' hy hy' hnext
  refine .pure hy.sound hy'.sound fun a a' ha ha' => ?_
  rw [← hnext.isEmpty_eq] at ha'
  split at ha
  · cases ha
  · next hsome =>
    rw [if_neg hsome] at ha'
    exact Option.some.inj ha ▸ Option.some.inj ha' ▸ hnext

end Question

end AdaptiveLL
