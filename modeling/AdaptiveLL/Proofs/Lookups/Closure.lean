import AdaptiveLL.Prediction.Closure
import AdaptiveLL.Prediction.Reach
import AdaptiveLL.Proofs.Lookups.Sets
import AdaptiveLL.Proofs.Prediction.Parts

/-!
# Lookups of closures

A visit looks up the state of its configuration and, at the end of a rule, the node of its stacks; a
call pushes onto that node, and collecting a configuration merges nodes. In a network whose tables
fit together every visit is in range, since transitions, follow states and return states lead to
states; so a strict closure runs as the plain one does.
-/

namespace AdaptiveLL

open StackGraph (framesAt strictPush)

/-! ## Trails -/

/-- What probes keep: a graph in range, which grows. -/
def Trail.scope (states : Nat) : Scope Trail :=
  ⟨fun t => t.graph.InRange states, fun t => t.graph.size⟩

theorem StrictProbe.grow_safe {α : Type} {states : Nat} {m' : StrictGrowing α} {m : Growing α}
    {t : Trail} {P : α → Nat → Prop} (h : (StackGraph.scope states).Safe m' m.toRun t.graph P) :
    (Trail.scope states).Safe (StrictProbe.grow m') (Probe.grow m) t P := by
  rw [Probe.grow_eq]
  exact Run.Agrees.zoom h

/-- A node that is there is found. -/
theorem StrictProbe.framesAt_bind {α : Type} {states : Nat} {f' : List Frame → StrictProbe α}
    {m : Probe α} {t : Trail} {P : α → Nat → Prop} {id : StackId} (hid : id < t.graph.size)
    (h : (Trail.scope states).Safe (f' (t.graph.frames id)) m t P) :
    (Trail.scope states).Safe (StrictProbe.grow (framesAt id) >>= f') m t P := by
  refine ⟨?_, h.ensures⟩
  rw [Run.from?_bind, StrictProbe.grow, Run.from?_zoom, StackGraph.from?_framesAt hid]
  exact h.from?_eq

/-! ## Strict closures -/

namespace Sweep

/-- A sweep whose visits and configurations are in range. -/
structure InRange (x : Extent) (size : Nat) (s : Sweep) : Prop where
  work : ∀ v ∈ s.work, v.config.InRange x size
  configs : s.configs.InRange x size

def strictCollect (s : Sweep) (c : Config) : StrictProbe Sweep := do
  let configs ← StrictProbe.grow (s.configs.strictInsert c)
  pure { s with configs := configs }

end Sweep

namespace Question

/-- Where a transition leads without consuming a symbol. A call pushes onto the stacks, which have
to be there. -/
def strictFollow (q : Question) (m : Manner) (collect inside : Bool) (c : Config)
    (t : Transition) : StrictProbe (Option Config) :=
  match t with
  | .rule target _ follow _ => do
    let stack ← StrictProbe.grow (strictPush c.stack follow)
    pure (some (c.moveUnder target stack))
  | t => (q.follow m collect inside c t).strictly

def strictExpand (q : Question) (m : Manner) (visit : Visit) (state : State) (s : Sweep)
    (t : Transition) : StrictProbe Sweep := do
  let collect := visit.collect && !t.isAction
  match ← q.strictFollow m collect (visit.depth == 0) visit.config t with
  | none => pure s
  | some next => (q.enter visit state t collect next s).strictly

def strictLeave (m : Manner) (visit : Visit) (s : Sweep) (f : Frame) : StrictProbe Sweep :=
  if f.isBottom then
    if m.full then s.strictCollect { visit.config with stack := StackId.empty }
    else pure (s.push { visit with checkStop := false })
  else
    pure (s.push
      { config := visit.config.moveUnder f.ret f.parent, depth := visit.depth - 1,
        collect := visit.collect })

def strictExpandAll (q : Question) (m : Manner) (visit : Visit) (state : State) (s : Sweep) :
    StrictProbe Sweep := do
  let s ← if state.onlyEpsilon then pure s else s.strictCollect visit.config
  state.transitions.reverse.foldlM (q.strictExpand m visit state) s

/-- Follows one visit. Its state has to be there, and at the end of a rule so have its stacks. -/
def strictPerform (q : Question) (m : Manner) (visit : Visit) (s : Sweep) : StrictProbe Sweep := do
  let state ← Run.lookup q.net.states[visit.config.state]?
  if visit.checkStop && state.isRuleStop then
    if visit.config.stack ≠ StackId.empty then
      let frames ← StrictProbe.grow (framesAt visit.config.stack)
      frames.reverse.foldlM (strictLeave m visit) s
    else if m.full then s.strictCollect visit.config
    else q.strictExpandAll m visit state s
  else q.strictExpandAll m visit state s

def strictSweepStep (q : Question) (m : Manner) (s : Sweep) :
    StrictProbe (Sweep ⊕ (ConfigSet × List VisitKey)) :=
  match s.work with
  | [] => pure (.inr (s.configs, s.seen))
  | visit :: rest => do
    let s ← q.strictPerform m visit { s with work := rest }
    pure (.inl s)

def strictClosure (q : Question) (m : Manner) (collect : Bool) (acc : ConfigSet × List VisitKey)
    (c : Config) : StrictProbe (ConfigSet × List VisitKey) :=
  Run.loop (q.strictSweepStep m) q.fuel
    { work := [{ config := c, collect }], configs := acc.1, seen := acc.2 }

/-- The configurations in which a decision begins. Its state has to be there. -/
def strictStartSet (q : Question) (full : Bool) (stack : StackId) : StrictProbe ConfigSet := do
  let entry ← Run.lookup q.net.states[q.entry]?
  let starts := entry.transitions.zipIdx.map fun (t, i) =>
    ({ state := t.target, alt := i + 1, stack } : Config)
  let (configs, _) ← starts.foldlM (q.strictClosure { full } true) (ConfigSet.forParser full, [])
  pure configs

/-! ## In range -/

/-- The states of the network and the alternatives of the decision. -/
def extent (q : Question) : Extent := q.net.extentAt q.entry

variable {q : Question} {m : Manner} {x : Extent} {t : Trail}

/-- A configuration at a state that a transition leads to. -/
private def Leads (c : Config) (target : StateId) (r : Option Config) : Prop :=
  ∀ c', r = some c' → c'.state = target ∧ c'.stack = c.stack ∧ c'.alt = c.alt

private theorem guarded_ensures (full evaluate : Bool) (c : Config) (target : StateId) (g : Guard) :
    (q.guarded full evaluate c target g).Ensures t fun r t' => t'.graph = t.graph ∧
      ∀ a, r = .ok a → Leads c target a := by
  have hmoved : Leads c target (some (c.moveTo target)) := fun c' h =>
    Option.some.inj h ▸ ⟨rfl, rfl, rfl⟩
  unfold guarded
  split
  · exact .pure ⟨rfl, fun a h => Except.ok.inj h ▸ hmoved⟩
  split
  · have hholds : (Probe.holds q.host q.start g).Ensures t fun r t' => t'.graph = t.graph ∧
        ∀ e, r ≠ .error e := .of_eq rfl ⟨rfl, nofun⟩
    refine hholds.bind (fun b t' ⟨ht', _⟩ => ?_) fun e _ ⟨_, hne⟩ => absurd rfl (hne e)
    split
    · exact .pure ⟨ht', fun a h => Except.ok.inj h ▸ hmoved⟩
    · exact .pure ⟨ht', fun a h => Except.ok.inj h ▸ nofun⟩
  · exact .pure ⟨rfl, fun a h c' h' => by cases h; cases h'; exact ⟨rfl, rfl, rfl⟩⟩

/-- A transition that calls no rule leaves the graph as it is. -/
private theorem follow_ensures {collect inside : Bool} {c : Config} {tr : Transition}
    (hrule : tr.isRule = false) :
    (q.follow m collect inside c tr).Ensures t fun r t' => t'.graph = t.graph ∧
      ∀ a, r = .ok a → Leads c tr.target a := by
  have hmoved : Leads c tr.target (some (c.moveTo tr.target)) := fun c' h =>
    Option.some.inj h ▸ ⟨rfl, rfl, rfl⟩
  cases tr with
  | rule => cases hrule
  | predicate | precedence => exact guarded_ensures _ _ _ _ _
  | epsilon | action => exact .pure ⟨rfl, fun a h => Except.ok.inj h ▸ hmoved⟩
  | notSet | wildcard => exact .pure ⟨rfl, fun a h => Except.ok.inj h ▸ nofun⟩
  | atom | range | set =>
    refine .pure ⟨rfl, fun a h => Except.ok.inj h ▸ ?_⟩
    split
    · exact hmoved
    · exact nofun

theorem strictFollow_safe (ht : t.graph.InRange x.states) {c : Config}
    (hc : c.InRange x t.graph.size) {tr : Transition} (htarget : tr.target < x.states)
    (hfollow : ∀ s, tr.follow? = some s → s < x.states) (collect inside : Bool) :
    (Trail.scope x.states).Safe (q.strictFollow m collect inside c tr)
      (q.follow m collect inside c tr) t fun r k => ∀ c', r = some c' → c'.InRange x k := by
  by_cases hrule : tr.isRule = true
  · cases tr with
    | rule target rule follow level =>
      refine Scope.Safe.bind (StrictProbe.grow_safe
        (StackGraph.strictPush_safe ht hc.stack_lt (hfollow follow rfl)))
        fun id t' ht' hle hid => ?_
      refine .pure ht' fun c' h => Option.some.inj h ▸ ?_
      exact (hc.mono hle).moveUnder htarget hid
    | _ => cases hrule
  · have hstrict :
        q.strictFollow m collect inside c tr = (q.follow m collect inside c tr).strictly := by
      cases tr with
      | rule => exact absurd rfl hrule
      | _ => rfl
    rw [hstrict]
    refine .strictly ((follow_ensures (Bool.not_eq_true _ ▸ hrule)).mono ?_)
    rintro r t' ⟨hgraph, hleads⟩
    have hsize : (Trail.scope x.states).size t' = t.graph.size := congrArg StackGraph.size hgraph
    have ht' : t'.graph.InRange x.states := by rwa [hgraph]
    refine ⟨ht', hsize.ge, fun a ha c' hc' => ?_⟩
    obtain ⟨hstate, hstack, halt⟩ := hleads a ha c' hc'
    rw [hsize]
    exact ⟨hstate ▸ htarget, hstack ▸ hc.stack_lt, halt ▸ hc.hasAlt⟩

/-- Noting a visit looks nothing up. -/
private theorem enter_safe (ht : t.graph.InRange x.states) {visit : Visit} {state : State}
    {tr : Transition} {collect : Bool} {next : Config} {s : Sweep}
    (hs : s.InRange x t.graph.size) (hnext : next.InRange x t.graph.size) :
    (Trail.scope x.states).Safe (q.enter visit state tr collect next s).strictly
      (q.enter visit state tr collect next s) t fun s' k => s'.InRange x k := by
  -- However often the thread has left for an unknown caller, it is in range.
  have hnext' : (if state.isRuleStop then { next with outer := next.outer + 1 } else next :
      Config).InRange x t.graph.size := by
    split
    · exact ⟨hnext.state_lt, hnext.stack_lt, hnext.hasAlt⟩
    · exact hnext
  have hpure : ∀ s' : Sweep, s'.InRange x t.graph.size → (pure s' : Probe Sweep).Ensures t
      fun r t' => (Trail.scope x.states).holds t' ∧
        (Trail.scope x.states).size t ≤ (Trail.scope x.states).size t' ∧
        ∀ a, r = .ok a → a.InRange x ((Trail.scope x.states).size t') := fun s' hs' =>
    .pure ⟨ht, le_rfl, fun _ h => Except.ok.inj h ▸ hs'⟩
  refine .strictly ?_
  unfold enter
  dsimp only
  generalize (if state.isRuleStop then { next with outer := next.outer + 1 } else next :
    Config) = next at hnext' ⊢
  have hpush : ∀ (s' : Sweep) (depth : Int), s'.InRange x t.graph.size →
      (s'.push { config := next, depth, collect }).InRange x t.graph.size := fun s' _ hs' =>
    ⟨List.forall_mem_cons.mpr ⟨hnext', hs'.work⟩, hs'.configs⟩
  split
  · exact hpure _ hs
  split
  · exact hpure _ (hpush _ _ ⟨hs.work, hs.configs.configs, hs.configs.conflicting⟩)
  split
  · split
    · split
      · exact hpure _ ⟨hs.work, hs.configs⟩
      · exact .modify_bind (.pure ⟨ht, le_rfl, fun _ h => Except.ok.inj h ▸ ⟨hs.work, hs.configs⟩⟩)
    · exact hpure _ (hpush _ _ ⟨hs.work, hs.configs⟩)
  · exact hpure _ (hpush _ _ ⟨hs.work, hs.configs⟩)

theorem strictExpand_safe (hnet : q.net.Consistent) (hx : x.states = q.net.states.size)
    (ht : t.graph.InRange x.states) {visit : Visit} {s : Sweep} {tr : Transition}
    (hvisit : visit.config.InRange x t.graph.size) (hs : s.InRange x t.graph.size) {p : StateId}
    (htr : tr ∈ (q.net.state p).transitions) (state : State) :
    (Trail.scope x.states).Safe (q.strictExpand m visit state s tr) (q.expand m visit state s tr) t
      fun s' k => s'.InRange x k := by
  -- A transition leads to a state, and so does the return from a call.
  have htarget : tr.target < x.states := hx ▸ hnet.target_lt p tr htr
  have hfollow : ∀ f, tr.follow? = some f → f < x.states := by
    intro f hf
    cases tr with
    | rule target rule follow level =>
      cases hf
      exact hx ▸ hnet.follow_lt p target rule _ level htr
    | _ => cases hf
  refine (strictFollow_safe ht hvisit htarget hfollow _ _).bind fun r t' ht' hle hr => ?_
  have hs' : s.InRange x t'.graph.size :=
    ⟨fun v hv => (hs.work v hv).mono hle, hs.configs.mono hle⟩
  cases r with
  | none => exact .pure ht' hs'
  | some next => exact enter_safe ht' hs' (hr next rfl)

theorem strictCollect_safe (ht : t.graph.InRange x.states) {s : Sweep} {c : Config}
    (hs : s.InRange x t.graph.size) (hc : c.InRange x t.graph.size) :
    (Trail.scope x.states).Safe (s.strictCollect c) (s.collect c) t fun s' k => s'.InRange x k := by
  refine (StrictProbe.grow_safe (ConfigSet.strictInsert_safe ht hs.configs hc)).bind
    fun configs t' ht' hle hconfigs => .pure ht' ⟨fun v hv => (hs.work v hv).mono hle, hconfigs⟩

theorem strictLeave_safe (ht : t.graph.InRange x.states) {visit : Visit} {s : Sweep} {f : Frame}
    (hvisit : visit.config.InRange x t.graph.size) (hs : s.InRange x t.graph.size)
    (hf : f.InRange x.states t.graph.size) :
    (Trail.scope x.states).Safe (strictLeave m visit s f) (leave m visit s f) t
      fun s' k => s'.InRange x k := by
  have hpush : ∀ v : Visit, v.config.InRange x t.graph.size → (s.push v).InRange x t.graph.size :=
    fun v hv => ⟨List.forall_mem_cons.mpr ⟨hv, hs.work⟩, hs.configs⟩
  unfold strictLeave leave
  split
  · split
    · exact strictCollect_safe ht hs ⟨hvisit.state_lt, ht.empty_lt, hvisit.hasAlt⟩
    · exact .pure ht (hpush _ hvisit)
  · next hbottom =>
    exact .pure ht (hpush _ (hvisit.moveUnder (hf.2 (Bool.not_eq_true _ ▸ hbottom)) hf.1))

theorem strictExpandAll_safe (hnet : q.net.Consistent) (hx : x.states = q.net.states.size)
    (ht : t.graph.InRange x.states) {visit : Visit} {s : Sweep}
    (hvisit : visit.config.InRange x t.graph.size) (hs : s.InRange x t.graph.size) (p : StateId) :
    (Trail.scope x.states).Safe (q.strictExpandAll m visit (q.net.state p) s)
      (q.expandAll m visit (q.net.state p) s) t fun s' k => s'.InRange x k := by
  have hfold : ∀ (s : Sweep) (t' : Trail), t'.graph.InRange x.states →
      t.graph.size ≤ t'.graph.size → s.InRange x t'.graph.size →
      (Trail.scope x.states).Safe
        ((q.net.state p).transitions.reverse.foldlM (q.strictExpand m visit (q.net.state p)) s)
        ((q.net.state p).transitions.reverse.foldlM (q.expand m visit (q.net.state p)) s) t'
        fun s' k => s'.InRange x k := by
    intro s t' ht' hle hs
    refine .foldlM (fun s k => Sweep.InRange x k s) (fun tr htr s u hu hle' hs' => ?_) ht' hs
    exact strictExpand_safe hnet hx hu (hvisit.mono (hle.trans hle')) hs'
      (List.mem_reverse.mp htr) _
  unfold strictExpandAll expandAll
  split
  · exact hfold s t ht le_rfl hs
  · exact (strictCollect_safe ht hs hvisit).bind fun s' t' ht' hle hs' => hfold s' t' ht' hle hs'

/-- **A visit finds its state and its stacks.** -/
theorem strictPerform_safe (hnet : q.net.Consistent) (hx : x.states = q.net.states.size)
    (ht : t.graph.InRange x.states) {visit : Visit} {s : Sweep}
    (hvisit : visit.config.InRange x t.graph.size) (hs : s.InRange x t.graph.size) :
    (Trail.scope x.states).Safe (q.strictPerform m visit s) (q.perform m visit s) t
      fun s' k => s'.InRange x k := by
  have hstate := Network.getElem?_states (hx ▸ hvisit.state_lt)
  have hexpand := strictExpandAll_safe (m := m) hnet hx ht hvisit hs visit.config.state
  refine .lookup_bind hstate ?_
  unfold perform
  dsimp only
  -- At the end of a rule a thread goes on at its frames, and elsewhere along transitions.
  split
  · split
    · refine StrictProbe.framesAt_bind hvisit.stack_lt (.reads ?_)
      refine .foldlM (fun s k => Sweep.InRange x k s) (fun f hf s' u hu hle hs' => ?_) ht hs
      have hframe := ht.frames visit.config.stack f (List.mem_reverse.mp hf)
      exact strictLeave_safe hu (hvisit.mono hle) hs' (hframe.mono hle)
    · split
      · exact strictCollect_safe ht hs hvisit
      · exact hexpand
  · exact hexpand

theorem strictSweepStep_safe (hnet : q.net.Consistent) (hx : x.states = q.net.states.size)
    (ht : t.graph.InRange x.states) {s : Sweep} (hs : s.InRange x t.graph.size) :
    (Trail.scope x.states).Safe (q.strictSweepStep m s) (q.sweepStep m s) t fun r k =>
      r.elim (Sweep.InRange x k) (·.1.InRange x k) := by
  obtain ⟨work, configs, seen, reported⟩ := s
  cases work with
  | nil => exact Scope.Safe.pure ht hs.configs
  | cons visit rest =>
    have hrest : Sweep.InRange x t.graph.size ⟨rest, configs, seen, reported⟩ :=
      ⟨fun v hv => hs.work v (List.mem_cons_of_mem _ hv), hs.configs⟩
    exact (strictPerform_safe hnet hx ht (hs.work visit List.mem_cons_self) hrest).bind
      fun s' t' ht' _ hs' => .pure ht' hs'

/-- **A closure of a configuration in range finds all that it looks up.** -/
theorem strictClosure_safe (hnet : q.net.Consistent) (hx : x.states = q.net.states.size)
    (ht : t.graph.InRange x.states) {collect : Bool} {acc : ConfigSet × List VisitKey} {c : Config}
    (hacc : acc.1.InRange x t.graph.size) (hc : c.InRange x t.graph.size) :
    (Trail.scope x.states).Safe (q.strictClosure m collect acc c) (q.closure m collect acc c) t
      fun r k => r.1.InRange x k :=
  .loop (fun s k => Sweep.InRange x k s)
    (fun _ _ ht' hs => strictSweepStep_safe hnet hx ht' hs) ht
    ⟨List.forall_mem_singleton.mpr hc, hacc⟩

/-- The closures of several configurations in range. -/
theorem strictClosures_safe (hnet : q.net.Consistent) (hx : x.states = q.net.states.size)
    (ht : t.graph.InRange x.states) {collect : Bool} {acc : ConfigSet × List VisitKey}
    {cs : List Config} (hacc : acc.1.InRange x t.graph.size)
    (hcs : ∀ c ∈ cs, c.InRange x t.graph.size) :
    (Trail.scope x.states).Safe (cs.foldlM (q.strictClosure m collect) acc)
      (cs.foldlM (q.closure m collect) acc) t fun r k => r.1.InRange x k :=
  .foldlM (fun (acc : ConfigSet × List VisitKey) k => acc.1.InRange x k)
    (fun c hc _ _ ht' hle hacc' => strictClosure_safe hnet hx ht' hacc' ((hcs c hc).mono hle))
    ht hacc

/-- **The configurations in which a decision begins are in range.** -/
theorem strictStartSet_safe (hnet : q.net.Consistent) (hentry : q.entry < q.net.states.size)
    (ht : t.graph.InRange q.net.states.size) (full : Bool) {stack : StackId}
    (hstack : stack < t.graph.size) :
    (Trail.scope q.net.states.size).Safe (q.strictStartSet full stack) (q.startSet full stack) t
      fun s k => s.InRange q.extent k := by
  refine .lookup_bind (Network.getElem?_states hentry) ?_
  refine (strictClosures_safe (x := q.extent) hnet rfl ht (ConfigSet.forParser_inRange _)
    fun c hc => ?_).bind fun acc t' ht' _ hacc => .pure ht' hacc
  obtain ⟨⟨tr, i⟩, htr, rfl⟩ := List.mem_map.mp hc
  have hget : (q.net.state q.entry).transitions[i]? = some tr := List.mem_zipIdx_iff_getElem?.mp htr
  obtain ⟨hi, -⟩ := List.getElem?_eq_some_iff.mp hget
  exact ⟨hnet.target_lt _ tr (List.mem_of_getElem? hget), hstack, Nat.succ_pos i, hi⟩

end Question

/-! ## Lookups of a step

One step of a prediction looks up the state of every configuration that it begins with, and once
more those of the configurations that it ends with.
-/

/-- A set that a prediction can go on with: it is in range, and some thread is left. -/
structure ConfigSet.Alive (x : Extent) (size : Nat) (s : ConfigSet) : Prop where
  inRange : s.InRange x size
  nonempty : ∃ c, c ∈ s.toList

theorem ConfigSet.Alive.mono {x : Extent} {size size' : Nat} {s : ConfigSet} (h : s.Alive x size)
    (hle : size ≤ size') : s.Alive x size' :=
  ⟨h.inRange.mono hle, h.nonempty⟩

namespace Question

/-! ## Strict steps -/

/-- The configurations after the symbol, before any closure. -/
def moved (q : Question) (v : Symbol) (s : ConfigSet) : List Config :=
  (s.toList.filter (!q.atRuleStop ·)).flatMap fun c =>
    ((q.net.state c.state).transitions.filter (·.accepts v 0 q.net.maxTokenType)).map
      fun t => c.moveTo t.target

/-- The configurations after the symbol. The states of all configurations have to be there. -/
def strictConsume (q : Question) (v : Symbol) (full : Bool) (s : ConfigSet) :
    StrictProbe ConfigSet := do
  Run.lookupAll (s.statesOf q.net)
  StrictProbe.grow ((q.moved v s).foldlM ConfigSet.strictInsert (ConfigSet.forParser full))

def strictCloseAll (q : Question) (m : Manner) (s : ConfigSet) : StrictProbe ConfigSet := do
  let (configs, _) ← s.toList.foldlM (q.strictClosure m false) (ConfigSet.forParser m.full, [])
  pure configs

def strictFinished (q : Question) (s : ConfigSet) : StrictProbe ConfigSet := do
  Run.lookupAll (s.statesOf q.net)
  if s.allAtRuleStop q.net then pure s
  else StrictProbe.grow ((s.toList.filter q.atRuleStop).foldlM ConfigSet.strictInsert
    (ConfigSet.forParser s.fullContext))

def strictAddWaiting (q : Question) (full : Bool) (waiting : List Config) (s : ConfigSet) :
    StrictProbe ConfigSet := do
  Run.lookupAll (s.statesOf q.net)
  if full && s.someAtRuleStop q.net then pure s
  else StrictProbe.grow (waiting.foldlM ConfigSet.strictInsert s)

/-- The set after a symbol, if any thread is left. -/
def strictReach (q : Question) (v : Symbol) (full : Bool) (s : ConfigSet) :
    StrictProbe (Option ConfigSet) := do
  let moved ← q.strictConsume v full s
  let waiting := q.waiting v full s
  let atEof := v == Symbol.eof
  let isSettled := moved.size == 1 || moved.commonAlt != noAlternative
  let next ← (if waiting.isEmpty && !atEof && isSettled then pure moved
    else q.strictCloseAll { full, atEof } moved)
  let next ← (if atEof then q.strictFinished next else pure next)
  let next ← q.strictAddWaiting full waiting next
  pure (if next.isEmpty then none else some next)

/-! ## In range after a step -/

variable {q : Question} {m : Manner} {x : Extent} {t : Trail} {s : ConfigSet}

theorem moved_inRange (hnet : q.net.Consistent) (hx : x.states = q.net.states.size) {size : Nat}
    (hs : s.InRange x size) (v : Symbol) : ∀ c ∈ q.moved v s, c.InRange x size := by
  intro c hc
  obtain ⟨d, hd, hc⟩ := List.mem_flatMap.mp hc
  obtain ⟨tr, htr, rfl⟩ := List.mem_map.mp hc
  refine (hs.configs d (List.mem_of_mem_filter hd)).moveTo ?_
  exact hx ▸ hnet.target_lt d.state tr (List.mem_of_mem_filter htr)

/-- Adding some configurations in range. -/
private theorem grow_insertAll_safe (ht : t.graph.InRange x.states) {cs : List Config}
    (hs : s.InRange x t.graph.size) (hcs : ∀ c ∈ cs, c.InRange x t.graph.size) :
    (Trail.scope x.states).Safe (StrictProbe.grow (cs.foldlM ConfigSet.strictInsert s))
      (Probe.grow (cs.foldlM ConfigSet.insert s)) t fun s' k => s'.InRange x k :=
  StrictProbe.grow_safe (ConfigSet.strictInsertAll_safe ht hs hcs)

theorem strictConsume_safe (hnet : q.net.Consistent) (hx : x.states = q.net.states.size)
    (ht : t.graph.InRange x.states) (hs : s.InRange x t.graph.size) (v : Symbol) (full : Bool) :
    (Trail.scope x.states).Safe (q.strictConsume v full s) (q.consume v full s) t
      fun s' k => s'.InRange x k := by
  rw [consume_eq]
  refine .lookupAll_bind (hs.statesOf hx) ?_
  exact grow_insertAll_safe ht (ConfigSet.forParser_inRange full) (moved_inRange hnet hx hs v)

theorem strictCloseAll_safe (hnet : q.net.Consistent) (hx : x.states = q.net.states.size)
    (ht : t.graph.InRange x.states) (hs : s.InRange x t.graph.size) :
    (Trail.scope x.states).Safe (q.strictCloseAll m s) (q.closeAll m s) t
      fun s' k => s'.InRange x k :=
  (strictClosures_safe hnet hx ht (ConfigSet.forParser_inRange _) hs.configs).bind
    fun _ _ ht' _ hacc => .pure ht' hacc

theorem strictFinished_safe (hx : x.states = q.net.states.size) (ht : t.graph.InRange x.states)
    (hs : s.InRange x t.graph.size) :
    (Trail.scope x.states).Safe (q.strictFinished s) (q.finished s) t
      fun s' k => s'.InRange x k := by
  refine .lookupAll_bind (hs.statesOf hx) ?_
  unfold finished
  split
  · exact .pure ht hs
  · exact grow_insertAll_safe ht (ConfigSet.forParser_inRange _) fun c hc =>
      hs.configs c (List.mem_of_mem_filter hc)

theorem strictAddWaiting_safe (hx : x.states = q.net.states.size) (ht : t.graph.InRange x.states)
    (hs : s.InRange x t.graph.size) {waiting : List Config}
    (hwaiting : ∀ c ∈ waiting, c.InRange x t.graph.size) (full : Bool) :
    (Trail.scope x.states).Safe (q.strictAddWaiting full waiting s) (q.addWaiting full waiting s) t
      fun s' k => s'.InRange x k := by
  refine .lookupAll_bind (hs.statesOf hx) ?_
  unfold addWaiting
  split
  · exact .pure ht hs
  · exact grow_insertAll_safe ht hs hwaiting

/-- **A step from a set in range finds all that it looks up,** and leads to such a set. -/
theorem strictReach_safe (hnet : q.net.Consistent) (hx : x.states = q.net.states.size)
    (ht : t.graph.InRange x.states) (hs : s.InRange x t.graph.size) (v : Symbol) (full : Bool) :
    (Trail.scope x.states).Safe (q.strictReach v full s) (q.reach v full s) t
      fun r k => ∀ s', r = some s' → s'.Alive x k := by
  have hwaiting : ∀ c ∈ q.waiting v full s, c ∈ s.toList := by
    intro c hc
    unfold waiting at hc
    split at hc
    · exact List.mem_of_mem_filter hc
    · cases hc
  rw [reach_eq]
  -- The graph grows from part to part; what waits was in range before the first one.
  refine (strictConsume_safe hnet hx ht hs v full).bind fun moved t₁ ht₁ hle₁ hmoved => ?_
  refine Scope.Safe.bind (P := fun s' k => s'.InRange x k) ?_ fun next t₂ ht₂ hle₂ hnext => ?_
  · split
    · exact .pure ht₁ hmoved
    · exact strictCloseAll_safe hnet hx ht₁ hmoved
  refine Scope.Safe.bind (P := fun s' k => s'.InRange x k) ?_ fun next' t₃ ht₃ hle₃ hnext' => ?_
  · split
    · exact strictFinished_safe hx ht₂ hnext
    · exact .pure ht₂ hnext
  refine (strictAddWaiting_safe hx ht₃ hnext' (fun c hc => ?_) full).bind
    fun last t₄ ht₄ _ hlast => .pure ht₄ ?_
  · exact (hs.configs c (hwaiting c hc)).mono (hle₁.trans (hle₂.trans hle₃))
  · intro s' hs'
    split at hs'
    · cases hs'
    · next hne =>
      obtain rfl := Option.some.inj hs'
      refine ⟨hlast, List.exists_mem_of_ne_nil _ fun hnil => hne ?_⟩
      simpa [ConfigSet.isEmpty, ConfigSet.toList] using hnil

end Question

end AdaptiveLL
