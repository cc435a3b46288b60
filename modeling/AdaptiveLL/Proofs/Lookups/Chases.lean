import AdaptiveLL.Lexing.Closure
import AdaptiveLL.Proofs.Lookups.Closure

/-!
# Lookups of a lexer's closures

A thread of a lexer looks up every state that it is moved to, and the node of its stacks at a
command and at the end of a rule. Threads in range lead to threads in range, so all of this is
found.
-/

namespace AdaptiveLL

open StackGraph (framesAt strictPush)

/-! ## Strict closures -/

/-- A thread moved to a state, which has to be there. -/
def Network.strictAdvance (net : Network) (c : Config) (s : StateId) (stack : StackId)
    (routine : Option Routine) : StrictProbe Config := do
  let _ ← Run.lookup net.states[s]?
  pure (net.advance c s stack routine)

namespace Chase

/-- A chase whose threads and configurations are in range. -/
structure InRange (x : Extent) (size : Nat) (s : Chase) : Prop where
  work : ∀ c ∈ s.work, c.InRange x size
  configs : s.configs.InRange x size

def strictCollect (s : Chase) (c : Config) : StrictProbe Chase := do
  let configs ← StrictProbe.grow (s.configs.strictInsert c)
  pure { s with configs := configs }

def strictFinish (s : Chase) (c : Config) : StrictProbe Chase := do
  let s ← s.strictCollect { c with stack := StackId.empty }
  pure { s with finished := true }

end Chase

namespace Vantage

/-- Where a transition leads a thread. A call pushes onto the stacks and a command asks whether one
of them is empty, so they have to be there. -/
def strictFollow (v : Vantage) (c : Config) (t : Transition) : StrictProbe (Option Config) :=
  let moved := some <$> v.net.strictAdvance c t.target c.stack c.routine
  match t with
  | .epsilon _ => moved
  | .rule target _ follow _ => do
    let stack ← StrictProbe.grow (strictPush c.stack follow)
    some <$> v.net.strictAdvance c target stack c.routine
  | .predicate _ rule pred contextual => do
    if ← (Probe.holds v.host v.position (.predicate rule pred contextual)).strictly then moved
    else pure none
  | .action target _ action _ => do
    let _ ← StrictProbe.grow (framesAt c.stack)
    let g := (← get).graph
    some <$> v.net.strictAdvance c target c.stack (v.routineAfter g c action)
  | .atom .. | .range .. | .set .. =>
    if v.atEof && t.accepts Symbol.eof Symbol.firstChar Symbol.lastChar then moved else pure none
  | .precedence .. | .notSet .. | .wildcard _ => pure none

def strictFollowAll (v : Vantage) (c : Config) : List Transition → StrictProbe (List Config)
  | [] => pure []
  | t :: rest => do
    let next ← v.strictFollow c t
    let others ← v.strictFollowAll c rest
    pure (next.toList ++ others)

/-- Returns a thread to callers. The states at which they go on have to be there. -/
def strictReturn (v : Vantage) (c : Config) (callers : List Frame) (s : Chase) :
    StrictProbe Chase := do
  Run.lookupAll (callers.map fun f => v.net.states[f.ret]?)
  pure { s with work := (callers.map fun f => v.net.advance c f.ret f.parent c.routine) ++ s.work }

def strictLeave (v : Vantage) (c : Config) (s : Chase) : StrictProbe Chase := do
  if c.stack = StackId.empty then s.strictFinish c
  else
    let _ ← StrictProbe.grow (framesAt c.stack)
    let g := (← get).graph
    let s ← (if g.hasEmptyStack c.stack then s.strictFinish c else pure s)
    v.strictReturn c ((g.frames c.stack).filter (!·.isBottom)) s

def strictExpand (v : Vantage) (c : Config) (state : State) (s : Chase) : StrictProbe Chase := do
  let s ← (if state.onlyEpsilon || (s.finished && c.nonGreedy) then pure s else s.strictCollect c)
  let next ← v.strictFollowAll c state.transitions
  pure { s with
    work := next ++ s.work
    configs := { s.configs with hasGuards := s.configs.hasGuards || state.hasPredicate } }

/-- Takes the next thread, if there is one. Its state has to be there. -/
def strictChaseStep (v : Vantage) (s : Chase) : StrictProbe (Chase ⊕ (ConfigSet × Bool)) :=
  match s.work with
  | [] => pure (.inr (s.configs, s.finished))
  | c :: rest => do
    let s := { s with work := rest }
    let state ← Run.lookup v.net.states[c.state]?
    if s.seen.contains c.threadKey then pure (.inl s)
    else
      let s := { s with seen := c.threadKey :: s.seen }
      .inl <$> (if state.isRuleStop then v.strictLeave c s else v.strictExpand c state s)

def strictClosure (v : Vantage) (s : ConfigSet) (finished : Bool) (c : Config) :
    StrictProbe (ConfigSet × Bool) :=
  Run.loop v.strictChaseStep v.fuel { work := [c], configs := s, finished }

/-- The threads in which a mode begins. Its state has to be there. -/
def strictStartSet (v : Vantage) (entry : StateId) : StrictProbe ConfigSet := do
  let state ← Run.lookup v.net.states[entry]?
  state.transitions.zipIdx.foldlM (fun s (t, i) => do
    let c : Config := { state := t.target, alt := i + 1, stack := StackId.empty }
    let c ← v.net.strictAdvance c t.target StackId.empty none
    let (s, _) ← v.strictClosure s false c
    pure s) ConfigSet.forLexer

def strictConsumeAll (v : Vantage) (symbol : Symbol) (routine : Option Routine) (finished : Bool)
    (c : Config) (s : ConfigSet) : List Transition → StrictProbe (ConfigSet × Bool)
  | [] => pure (s, false)
  | t :: rest =>
    if t.accepts symbol Symbol.firstChar Symbol.lastChar then do
      let moved ← v.net.strictAdvance c t.target c.stack routine
      let (s, done) ← v.strictClosure s finished moved
      if done then pure (s, true) else v.strictConsumeAll symbol routine finished c s rest
    else v.strictConsumeAll symbol routine finished c s rest

/-- The threads after a character. The states of all threads before it have to be there. -/
def strictReachFrom (v : Vantage) (symbol : Symbol) (length : Nat) :
    (done : Nat) → ConfigSet → List Config → StrictProbe ConfigSet
  | _, s, [] => pure s
  | done, s, c :: rest => do
    let state ← Run.lookup v.net.states[c.state]?
    let finished := c.alt == done
    if finished && c.nonGreedy then v.strictReachFrom symbol length done s rest
    else do
      let routine := c.routine.map (·.pin length)
      let (s, now) ← v.strictConsumeAll symbol routine finished c s state.transitions
      v.strictReachFrom symbol length (if now then c.alt else done) s rest

/-! ## In range -/

variable {v : Vantage} {x : Extent} {t : Trail} {c : Config} {s : Chase}

/-- A thread that may have been moved, in range. -/
private def MovedInRange (x : Extent) (next : Option Config) (size : Nat) : Prop :=
  ∀ c, next = some c → c.InRange x size

/-- A thread is moved to a state that is there. -/
private theorem strictAdvance_bind {α : Type} {f' : Config → StrictProbe α} {m : Probe α}
    {P : α → Nat → Prop} {q : StateId} {stack : StackId} {routine : Option Routine}
    (hq : q < v.net.states.size)
    (h : (Trail.scope x.states).Safe (f' (v.net.advance c q stack routine)) m t P) :
    (Trail.scope x.states).Safe (v.net.strictAdvance c q stack routine >>= f') m t P := by
  rw [Network.strictAdvance, bind_assoc]
  exact .lookup_bind (Network.getElem?_states hq) h

private theorem some_strictAdvance_safe (hx : x.states = v.net.states.size)
    (ht : t.graph.InRange x.states) (halt : x.HasAlt c.alt) {q : StateId} (hq : q < x.states)
    {stack : StackId} (hstack : stack < t.graph.size) (routine : Option Routine) :
    (Trail.scope x.states).Safe (some <$> v.net.strictAdvance c q stack routine)
      (pure (some (v.net.advance c q stack routine)) : Probe (Option Config)) t
      (MovedInRange x) := by
  rw [← bind_pure_comp]
  refine strictAdvance_bind (hx ▸ hq) (.pure ht fun c' hc' => ?_)
  exact Option.some.inj hc' ▸ ⟨hq, hstack, halt⟩

/-- **Following a transition finds the state it leads to.** -/
private theorem strictFollow_safe (hnet : v.net.Consistent) (hx : x.states = v.net.states.size)
    (ht : t.graph.InRange x.states) (hc : c.InRange x t.graph.size) {p : StateId} {tr : Transition}
    (htr : tr ∈ (v.net.state p).transitions) :
    (Trail.scope x.states).Safe (v.strictFollow c tr) (v.follow c tr) t (MovedInRange x) := by
  have htarget : tr.target < x.states := hx ▸ hnet.target_lt p tr htr
  have hmoved : ∀ t' : Trail, t'.graph.InRange x.states → t.graph.size ≤ t'.graph.size →
      ∀ routine, (Trail.scope x.states).Safe
        (some <$> v.net.strictAdvance c tr.target c.stack routine)
        (pure (some (v.net.advance c tr.target c.stack routine)) : Probe (Option Config)) t'
        (MovedInRange x) := fun t' ht' hle routine =>
    some_strictAdvance_safe hx ht' hc.hasAlt htarget (Nat.lt_of_lt_of_le hc.stack_lt hle) routine
  cases tr with
  | epsilon => exact hmoved t ht le_rfl _
  | rule target rule follow level =>
    have hfollow : follow < x.states := hx ▸ hnet.follow_lt p target rule follow level htr
    exact (StrictProbe.grow_safe (StackGraph.strictPush_safe ht hc.stack_lt hfollow)).bind
      fun stack t' ht' _ hstack => some_strictAdvance_safe hx ht' hc.hasAlt htarget hstack _
  | predicate target rule pred contextual =>
    have hholds : (Trail.scope x.states).Safe
        (Probe.holds v.host v.position (.predicate rule pred contextual)).strictly
        (Probe.holds v.host v.position (.predicate rule pred contextual)) t
        fun _ k => t.graph.size ≤ k :=
      .strictly (.of_eq rfl ⟨ht, le_rfl, fun _ _ => le_rfl⟩)
    refine hholds.bind fun b t' ht' hle _ => ?_
    cases b
    · exact .pure ht' nofun
    · exact hmoved t' ht' hle _
  | action => exact StrictProbe.framesAt_bind hc.stack_lt (.get_bind (hmoved t ht le_rfl _))
  | precedence | notSet | wildcard => exact .pure ht nofun
  | atom | range | set =>
    unfold strictFollow follow
    dsimp only
    split
    · exact hmoved t ht le_rfl _
    · exact .pure ht nofun

private theorem strictFollowAll_safe (hnet : v.net.Consistent) (hx : x.states = v.net.states.size)
    (ht : t.graph.InRange x.states) (hc : c.InRange x t.graph.size) {p : StateId}
    {ts : List Transition} (hts : ∀ tr ∈ ts, tr ∈ (v.net.state p).transitions) :
    (Trail.scope x.states).Safe (v.strictFollowAll c ts) (v.followAll c ts) t
      fun cs k => ∀ c' ∈ cs, c'.InRange x k := by
  induction ts generalizing t with
  | nil => exact .pure ht nofun
  | cons tr ts ih =>
    refine (strictFollow_safe hnet hx ht hc (hts tr List.mem_cons_self)).bind
      fun next t₁ ht₁ hle₁ hnext => ?_
    refine (ih ht₁ (hc.mono hle₁) fun tr' htr' => hts tr' (List.mem_cons_of_mem _ htr')).bind
      fun others t₂ ht₂ hle₂ hothers => .pure ht₂ fun c' hc' => ?_
    rcases List.mem_append.mp hc' with hc' | hc'
    · exact (hnext c' (Option.mem_toList.mp hc')).mono hle₂
    · exact hothers c' hc'

private theorem strictCollect_safe (ht : t.graph.InRange x.states) (hs : s.InRange x t.graph.size)
    (hc : c.InRange x t.graph.size) :
    (Trail.scope x.states).Safe (s.strictCollect c) (s.collect c) t fun s' k => s'.InRange x k :=
  (StrictProbe.grow_safe (ConfigSet.strictInsert_safe ht hs.configs hc)).bind
    fun _ _ ht' hle hconfigs => .pure ht' ⟨fun d hd => (hs.work d hd).mono hle, hconfigs⟩

private theorem strictFinish_safe (ht : t.graph.InRange x.states) (hs : s.InRange x t.graph.size)
    (hc : c.InRange x t.graph.size) :
    (Trail.scope x.states).Safe (s.strictFinish c) (s.finish c) t fun s' k => s'.InRange x k := by
  have hc' : Config.InRange x t.graph.size { c with stack := StackId.empty } :=
    ⟨hc.state_lt, ht.empty_lt, hc.hasAlt⟩
  exact (strictCollect_safe ht hs hc').bind fun _ _ ht' _ hs' => .pure ht' ⟨hs'.work, hs'.configs⟩

private theorem strictReturn_safe (hx : x.states = v.net.states.size)
    (ht : t.graph.InRange x.states) (hs : s.InRange x t.graph.size) (halt : x.HasAlt c.alt)
    {callers : List Frame} (hcallers : ∀ f ∈ callers, f.parent < t.graph.size ∧ f.ret < x.states) :
    (Trail.scope x.states).Safe (v.strictReturn c callers s)
      (pure { s with work := (callers.map fun f => v.net.advance c f.ret f.parent c.routine) ++
        s.work }) t fun s' k => s'.InRange x k := by
  refine .lookupAll_bind (fun entry hentry => ?_) (.pure ht ⟨fun d hd => ?_, hs.configs⟩)
  · obtain ⟨f, hf, rfl⟩ := List.mem_map.mp hentry
    rw [Network.getElem?_states (hx ▸ (hcallers f hf).2)]
    rfl
  · rcases List.mem_append.mp hd with hd | hd
    · obtain ⟨f, hf, rfl⟩ := List.mem_map.mp hd
      exact ⟨(hcallers f hf).2, (hcallers f hf).1, halt⟩
    · exact hs.work d hd

/-- **Leaving a rule finds the states at which the callers go on.** -/
private theorem strictLeave_safe (hx : x.states = v.net.states.size)
    (ht : t.graph.InRange x.states) (hs : s.InRange x t.graph.size)
    (hc : c.InRange x t.graph.size) :
    (Trail.scope x.states).Safe (v.strictLeave c s) (v.leave c s) t fun s' k => s'.InRange x k := by
  have hcallers : ∀ f ∈ (t.graph.frames c.stack).filter (!·.isBottom),
      f.parent < t.graph.size ∧ f.ret < x.states := by
    intro f hf
    obtain ⟨hf, hbottom⟩ := List.mem_filter.mp hf
    have hrange := ht.frames c.stack f hf
    exact ⟨hrange.1, hrange.2 (by simpa using hbottom)⟩
  unfold strictLeave leave
  -- A thread may have finished its token and have callers to return to, too.
  split
  · exact strictFinish_safe ht hs hc
  refine StrictProbe.framesAt_bind hc.stack_lt (.get_bind ?_)
  dsimp only
  split
  · refine (strictFinish_safe ht hs hc).bind fun s' t' ht' hle hs' => ?_
    refine strictReturn_safe hx ht' hs' hc.hasAlt fun f hf => ?_
    exact ⟨Nat.lt_of_lt_of_le (hcallers f hf).1 hle, (hcallers f hf).2⟩
  · exact strictReturn_safe hx ht hs hc.hasAlt hcallers

/-- **Following a thread finds all that it looks up.** -/
private theorem strictExpand_safe (hnet : v.net.Consistent) (hx : x.states = v.net.states.size)
    (ht : t.graph.InRange x.states) (hs : s.InRange x t.graph.size)
    (hc : c.InRange x t.graph.size) :
    (Trail.scope x.states).Safe (v.strictExpand c (v.net.state c.state) s) (v.expand c s) t
      fun s' k => s'.InRange x k := by
  have hfollow : ∀ (s : Chase) (t' : Trail), t'.graph.InRange x.states →
      t.graph.size ≤ t'.graph.size → s.InRange x t'.graph.size →
      (Trail.scope x.states).Safe
        (v.strictFollowAll c (v.net.state c.state).transitions >>= fun next =>
          pure { s with
            work := next ++ s.work
            configs := { s.configs with
              hasGuards := s.configs.hasGuards || (v.net.state c.state).hasPredicate } })
        (v.followAll c (v.net.state c.state).transitions >>= fun next =>
          pure { s with
            work := next ++ s.work
            configs := { s.configs with
              hasGuards := s.configs.hasGuards || (v.net.state c.state).hasPredicate } }) t'
        fun s' k => s'.InRange x k := by
    intro s t' ht' hle hs
    refine (strictFollowAll_safe hnet hx ht' (hc.mono hle) fun _ htr => htr).bind
      fun next u hu hle' hnext => .pure hu ⟨fun d hd => ?_, ?_⟩
    · rcases List.mem_append.mp hd with hd | hd
      · exact hnext d hd
      · exact (hs.work d hd).mono hle'
    · exact ⟨(hs.configs.mono hle').configs, hs.configs.conflicting⟩
  unfold strictExpand expand
  dsimp only
  split
  · exact hfollow s t ht le_rfl hs
  · exact (strictCollect_safe ht hs hc).bind fun s' t' ht' hle hs' => hfollow s' t' ht' hle hs'

theorem strictChaseStep_safe (hnet : v.net.Consistent) (hx : x.states = v.net.states.size)
    (ht : t.graph.InRange x.states) (hs : s.InRange x t.graph.size) :
    (Trail.scope x.states).Safe (v.strictChaseStep s) (v.chaseStep s) t fun r k =>
      r.elim (Chase.InRange x k) (·.1.InRange x k) := by
  obtain ⟨work, configs, seen, finished⟩ := s
  cases work with
  | nil => exact Scope.Safe.pure ht hs.configs
  | cons c rest =>
    have hc := hs.work c List.mem_cons_self
    have hrest : ∀ seen, Chase.InRange x t.graph.size ⟨rest, configs, seen, finished⟩ := fun seen =>
      ⟨fun d hd => hs.work d (List.mem_cons_of_mem _ hd), hs.configs⟩
    refine .lookup_bind (Network.getElem?_states (hx ▸ hc.state_lt)) ?_
    unfold chaseStep
    dsimp only
    split
    · exact .pure ht (hrest _)
    refine .map ?_
    split
    · exact strictLeave_safe hx ht (hrest _) hc
    · exact strictExpand_safe hnet hx ht (hrest _) hc

/-- **A closure of a thread in range finds all that it looks up.** -/
theorem strictClosure_safe (hnet : v.net.Consistent) (hx : x.states = v.net.states.size)
    (ht : t.graph.InRange x.states) {configs : ConfigSet}
    (hconfigs : configs.InRange x t.graph.size) (hc : c.InRange x t.graph.size) (finished : Bool) :
    (Trail.scope x.states).Safe (v.strictClosure configs finished c)
      (v.closure configs finished c) t fun r k => r.1.InRange x k :=
  .loop (fun s k => Chase.InRange x k s) (fun _ _ ht' hs => strictChaseStep_safe hnet hx ht' hs) ht
    ⟨List.forall_mem_singleton.mpr hc, hconfigs⟩

/-! ## Sets of threads -/

/-- **The threads in which a mode begins are in range.** -/
theorem strictStartSet_safe (hnet : v.net.Consistent) {entry : StateId}
    (hentry : entry < v.net.states.size) (ht : t.graph.InRange v.net.states.size) :
    (Trail.scope v.net.states.size).Safe (v.strictStartSet entry) (v.startSet entry) t
      fun s k => s.InRange (v.net.extentAt entry) k := by
  refine .lookup_bind (Network.getElem?_states hentry) ?_
  refine .foldlM (fun s k => ConfigSet.InRange (v.net.extentAt entry) k s)
    (fun p hp s u hu _ hs => ?_) ht ConfigSet.forLexer_inRange
  obtain ⟨tr, i⟩ := p
  have hget : (v.net.state entry).transitions[i]? = some tr := List.mem_zipIdx_iff_getElem?.mp hp
  obtain ⟨hi, -⟩ := List.getElem?_eq_some_iff.mp hget
  have htarget := hnet.target_lt entry tr (List.mem_of_getElem? hget)
  have halt : (v.net.extentAt entry).HasAlt (i + 1) := ⟨Nat.succ_pos i, hi⟩
  refine strictAdvance_bind (x := v.net.extentAt entry) htarget ?_
  exact (strictClosure_safe (x := v.net.extentAt entry) hnet rfl hu hs ⟨htarget, hu.empty_lt, halt⟩
    false).bind fun r u' hu' _ hr => .pure hu' hr

private theorem strictConsumeAll_safe (hnet : v.net.Consistent) (hx : x.states = v.net.states.size)
    (ht : t.graph.InRange x.states) (hc : c.InRange x t.graph.size) {configs : ConfigSet}
    (hconfigs : configs.InRange x t.graph.size) {p : StateId} {ts : List Transition}
    (hts : ∀ tr ∈ ts, tr ∈ (v.net.state p).transitions) (symbol : Symbol)
    (routine : Option Routine) (finished : Bool) :
    (Trail.scope x.states).Safe (v.strictConsumeAll symbol routine finished c configs ts)
      (v.consumeAll symbol routine finished c configs ts) t fun r k => r.1.InRange x k := by
  induction ts generalizing t configs with
  | nil => exact .pure ht hconfigs
  | cons tr ts ih =>
    have hrest := fun tr' htr' => hts tr' (List.mem_cons_of_mem _ htr')
    unfold strictConsumeAll consumeAll
    split
    · have htarget : tr.target < x.states := hx ▸ hnet.target_lt p tr (hts tr List.mem_cons_self)
      have hmoved : (v.net.advance c tr.target c.stack routine).InRange x t.graph.size :=
        ⟨htarget, hc.stack_lt, hc.hasAlt⟩
      refine strictAdvance_bind (hx ▸ htarget) ?_
      refine (strictClosure_safe hnet hx ht hconfigs hmoved finished).bind fun r u hu hle hr => ?_
      obtain ⟨configs', done⟩ := r
      cases done
      · exact ih hu (hc.mono hle) hr hrest
      · exact .pure hu hr
    · exact ih ht hc hconfigs hrest

/-- **The threads after a character are in range.** -/
theorem strictReachFrom_safe (hnet : v.net.Consistent) (hx : x.states = v.net.states.size)
    (ht : t.graph.InRange x.states) {configs : ConfigSet}
    (hconfigs : configs.InRange x t.graph.size) {cs : List Config}
    (hcs : ∀ c ∈ cs, c.InRange x t.graph.size) (symbol : Symbol) (length done : Nat) :
    (Trail.scope x.states).Safe (v.strictReachFrom symbol length done configs cs)
      (v.reachFrom symbol length done configs cs) t fun s k => s.InRange x k := by
  induction cs generalizing t configs done with
  | nil => exact .pure ht hconfigs
  | cons c cs ih =>
    obtain ⟨hc, hcs⟩ := List.forall_mem_cons.mp hcs
    unfold strictReachFrom reachFrom
    refine .lookup_bind (Network.getElem?_states (hx ▸ hc.state_lt)) ?_
    dsimp only
    split
    · exact ih ht hconfigs hcs done
    · exact (strictConsumeAll_safe hnet hx ht hc hconfigs (fun _ htr => htr) symbol _ _).bind
        fun r u hu hle hr => ih hu hr (fun d hd => (hcs d hd).mono hle) _

end Vantage

end AdaptiveLL
