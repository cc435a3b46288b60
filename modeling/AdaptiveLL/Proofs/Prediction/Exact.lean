import AdaptiveLL.Proofs.Grammar.Ways
import AdaptiveLL.Proofs.Parsing.Choices
import AdaptiveLL.Proofs.Prediction.Closure
import AdaptiveLL.Proofs.Prediction.Fuel
import AdaptiveLL.Proofs.Stacks.Full

/-!
# Closures are exact

Under exact stacks the closure of a configuration collects the threads that its own threads lead to
by hops, as far as they halt there: where a symbol can be read, or at the end of a rule with no call
left. No thread is lost on the way and none is made up, no guard is put to the host and no call is
cut off. A closure that fails has met a ceiling, and then one of these threads has too long a stack,
or there are more places than a set may have, or the graph of stacks is full.
-/

namespace AdaptiveLL

open Relation (ReflTransGen)
open Run (FailsWith)

/-! ## Want of nodes -/

namespace Question

variable {q : Question} {m : Manner}

private theorem guarded_fills (full evaluate : Bool) (c : Config) (target : StateId) (g : Guard) :
    (q.guarded full evaluate c target g).Fills := by
  have hholds : (Probe.holds q.host q.start g).Fills := nofun
  refine .ite .pure (.ite (hholds.bind fun b => ?_) .pure)
  exact .ite .pure .pure

private theorem follow_fills (collect inside : Bool) (c : Config) (t : Transition) :
    (q.follow m collect inside c t).Fills := by
  cases t with
  | rule target rule follow level =>
    exact (Probe.grow_fills (StackGraph.push_fills _ _)).bind fun _ => .pure
  | predicate => exact guarded_fills _ _ _ _ _
  | precedence => exact guarded_fills _ _ _ _ _
  | _ => exact .pure

private theorem enter_fills (v : Visit) (state : State) (t : Transition) (collect : Bool)
    (next : Config) (s : Sweep) : (q.enter v state t collect next s).Fills := by
  refine .ite .pure (.ite .pure (.ite (.ite (.ite .pure ?_) .pure) .pure))
  exact FailsWith.modify.bind fun _ => .pure

private theorem expand_fills (v : Visit) (state : State) (s : Sweep) (t : Transition) :
    (q.expand m v state s t).Fills := by
  refine (follow_fills _ _ _ _).bind fun next => ?_
  cases next with
  | none => exact .pure
  | some next => exact enter_fills _ _ _ _ _ _

private theorem collect_fills (s : Sweep) (c : Config) : (s.collect c).Fills :=
  (Probe.grow_fills (s.configs.insert_fills c)).bind fun _ => .pure

private theorem expandAll_fills (v : Visit) (state : State) (s : Sweep) :
    (q.expandAll m v state s).Fills := by
  rw [expandAll_eq]
  exact (FailsWith.ite .pure (collect_fills s _)).bind fun s =>
    .foldlM (fun s t => expand_fills v state s t) _ s

private theorem leave_fills (v : Visit) (s : Sweep) (f : Frame) : (leave m v s f).Fills :=
  .ite (.ite (collect_fills _ _) .pure) .pure

private theorem perform_fills (v : Visit) (s : Sweep) : (q.perform m v s).Fills := by
  refine .ite (.ite (.get_bind fun t => ?_) (.ite (collect_fills _ _) (expandAll_fills _ _ _)))
    (expandAll_fills _ _ _)
  exact .foldlM (fun s f => leave_fills v s f) _ s

/-- **A closure that runs out of nodes** leaves a full graph. -/
theorem closure_fills (collect : Bool) (acc : ConfigSet × List VisitKey) (c : Config) :
    (q.closure m collect acc c).Fills := by
  refine .loop (fun s => ?_) _ _
  unfold sweepStep
  split
  · exact .pure
  · exact (perform_fills _ _).bind fun _ => .pure

end Question

/-! ## Where threads halt -/

namespace Network

/-- **A thread halts** where a symbol can be read, and at the end of a rule with no call left. -/
def Halts (net : Network) (d : Stand) : Prop :=
  (∃ t ∈ (net.state d.1).transitions, t.isEpsilon = false) ∨ net.isStop d.1 = true ∧ d.2 = []

/-- Where the threads of a configuration lead by hops under exact stacks. -/
def reachedFrom (net : Network) (g : StackGraph) (c : Config) : Set Stand :=
  {d | ∃ σ, g.HasStack c.stack σ ∧ ReflTransGen (net.Hop true false) (c.state, σ) d}

/-- **What the closure of a configuration should be** under exact stacks. -/
def exactClosure (net : Network) (g : StackGraph) (c : Config) : Set Thread :=
  {t | t.1 = c.tag ∧ t.2 ∈ net.reachedFrom g c ∧ net.Halts t.2}

/-- Hops lead from states of the network to states of the network. -/
theorem hops_lt {net : Network} (hnet : net.Consistent) {full atEof : Bool} {c d : Stand}
    (h : ReflTransGen (net.Hop full atEof) c d) (hc : ∀ q ∈ c.1 :: c.2, q < net.states.size) :
    ∀ q ∈ d.1 :: d.2, q < net.states.size := by
  induction h with
  | refl => exact hc
  | tail _ hhop ih =>
    cases hhop with
    | @along q σ t d _ ht hon =>
      rcases Transition.onward_eq hon with rfl | ⟨rule, follow, level, hcall, rfl⟩
      · exact List.forall_mem_cons.mpr ⟨hnet.target_lt _ _ ht, (List.forall_mem_cons.mp ih).2⟩
      · refine List.forall_mem_cons.mpr ⟨hnet.target_lt _ _ ht, ?_⟩
        rw [hcall] at ht
        exact List.forall_mem_cons.mpr ⟨hnet.follow_lt _ _ _ _ _ ht, (List.forall_mem_cons.mp ih).2⟩
    | back => exact (List.forall_mem_cons.mp ih).2

end Network

/-- **In the network of a parser threads rest where they halt.** -/
theorem Grammar.rests_iff_halts {g : Grammar} {net : Network} (h : g.compile = .ok net)
    (hparser : g.kind = .parser) {d : Stand} (hd : d.1 < net.states.size) :
    net.Rests true d ↔ net.Halts d := by
  obtain ⟨modeStarts, draft, hbuilt⟩ := Grammar.exists_built h
  unfold Network.Rests Network.Halts
  cases hstop : net.isStop d.1 with
  | true =>
    have hplain : ∀ t ∈ (net.state d.1).transitions, t.isEpsilon = true := by
      obtain ⟨i, hi, heq⟩ := hbuilt.of_isStop hstop
      intro t ht
      rw [hbuilt.state_eq, heq] at ht
      obtain ⟨-, p, start, level, follow, -, rfl⟩ := (hbuilt.finished.stop_ways i hi t).mp ht
      rfl
    simp only [if_true, true_or, and_true, true_and]
    refine ⟨.inr, ?_⟩
    rintro (⟨t, ht, heps⟩ | hnil)
    · rw [hplain t ht] at heps
      cases heps
    · exact hnil
  | false =>
    have hways := Grammar.ways_ne_nil h hparser hd hstop
    simp [State.onlyEpsilon, hways]

/-! ## The closure -/

/-- **What becomes of a closure** of a configuration under exact stacks. It collects what it should,
unless it meets a ceiling: that of the depth, which one of the threads exceeds, that of the sets,
which the places exceed, or that of the nodes, of which there are as many as there may be. -/
inductive Network.ClosureEnds (net : Network) (c : Config) (g g' : StackGraph) :
    Except Exceeded (ConfigSet × List VisitKey) → Prop where
  | collected {acc : ConfigSet × List VisitKey} :
      acc.1.threads g' = net.exactClosure g c → ClosureEnds net c g g' (.ok acc)
  | tooLong {d : Stand} : d ∈ net.reachedFrom g c → g.maxDepth < d.2.length →
      ClosureEnds net c g g' (.error (.tooLong g.maxDepth))
  | tooMany : Crowded Limits.configsPerSet (net.exactClosure g c) →
      ClosureEnds net c g g' (.error (.tooMany Limits.configsPerSet))
  | full {e : Exceeded} : e.resource = .arenaNodes → g'.size = g.capacity →
      ClosureEnds net c g g' (.error e)

/-- **The closure of a configuration under exact stacks ends,** and unless it meets a ceiling it
collects the threads that those of the configuration lead to and that halt. No guard is put to the
host, and nothing is cut off. -/
theorem Question.closure_exact {g : Grammar} {net : Network} (h : g.compile = .ok net)
    (hparser : g.kind = .parser) (hplain : g.Unconditional) (hno : net.NoReentryBy false)
    (hword : net.states.size ≤ emptyReturn) {q : Question} (hq : q.net = net) {tr : Trail}
    (hg : tr.graph.Sound) {c : Config} (hc : c.Held tr.graph false)
    (hrange : ∀ σ, tr.graph.HasStack c.stack σ → ∀ s ∈ c.state :: σ, s < net.states.size)
    (collect : Bool) :
    ∃ enough, ∀ fuel, enough ≤ fuel →
      ((q.fueled fuel).closure { full := true } collect (ConfigSet.forParser true, []) c).Yields tr
        fun r tr' => tr.Extends true tr' ∧ net.ClosureEnds c tr.graph tr'.graph r := by
  obtain ⟨modeStarts, draft, hbuilt⟩ := Grammar.exists_built h
  subst hq
  have hreached : ∀ t, t ∈ q.net.reached { full := true } {t | ∃ c' ∈ [c], t ∈ c'.threads tr.graph} ↔
      t.1 = c.tag ∧ t.2 ∈ q.net.reachedFrom tr.graph c := by
    rintro ⟨tag, d⟩
    constructor
    · rintro ⟨⟨p, σ⟩, ⟨_, hmem, htag, hp, hσ⟩, hrun⟩
      obtain rfl := List.mem_singleton.mp hmem
      obtain rfl : p = _ := hp
      exact ⟨htag, σ, hσ, hrun⟩
    · rintro ⟨htag, σ, hσ, hrun⟩
      exact ⟨(c.state, σ), ⟨c, List.mem_singleton_self c, htag, rfl, hσ⟩, hrun⟩
  -- A thread that is reached stands at a state of the network, where resting is halting.
  have hclosure : q.net.closureOf { full := true } {t | ∃ c' ∈ [c], t ∈ c'.threads tr.graph} =
      q.net.exactClosure tr.graph c := by
    ext t
    refine (and_congr_left fun _ => hreached t).trans ?_
    rw [Network.exactClosure, Set.mem_ofPred_eq, and_assoc]
    refine and_congr_right fun _ => and_congr_right fun ⟨σ, hσ, hrun⟩ => ?_
    refine Grammar.rests_iff_halts h hparser ?_
    exact Network.hops_lt hbuilt.consistent hrun (hrange σ hσ) _ List.mem_cons_self
  have hstate : c.state < emptyReturn := by
    obtain ⟨σ, hσ⟩ := hg.exists_stack hc.stack_lt
    exact Nat.lt_of_lt_of_le (hrange σ hσ _ List.mem_cons_self) hword
  refine ⟨sweepBound emptyReturn 1 tr.graph.maxNodes + 1, fun fuel hfuel => ?_⟩
  have hguards : Visit.Plain q.net collect := fun _ => hbuilt.unguarded hparser hplain
  have hends := closures_ends (q := q.fueled fuel) (m := { full := true }) hbuilt.consistent hword
    hno (Nat.le_refl _) hguards {c.tag} [c] hg hfuel fun c' hc' => by
      obtain rfl := List.mem_singleton.mp hc'
      exact ⟨hc, hstate, Finset.mem_singleton_self _⟩
  -- What is known of the closures of several configurations is used for a single one.
  have hone : ∀ f : ConfigSet × List VisitKey → Config → Probe (ConfigSet × List VisitKey),
      [c].foldlM f (ConfigSet.forParser true, []) = f (ConfigSet.forParser true, []) c := fun f => by
    rw [List.foldlM_cons]
    exact bind_pure _
  have hnet : (q.fueled fuel).net = q.net := rfl
  rw [hnet, hclosure, hone] at hends
  obtain ⟨r, tr', hrun, hext, hok, herr⟩ := hends
  refine .of_eq hrun ⟨hext, ?_⟩
  cases r with
  | ok acc =>
    obtain ⟨-, -, hthreads, -⟩ := hok acc rfl
    exact .collected (hthreads.trans (trim_false _))
  | error e =>
    rcases herr e rfl with hnodes | ⟨⟨t, ht, hlong⟩, rfl⟩ | ⟨hcrowded, rfl⟩
    -- The nodes never outnumber the ceiling, so a graph with too little room is just full.
    · have hfull := closure_fills _ _ _ tr _ _ hrun e rfl hnodes
      rw [hext.grown.capacity_eq] at hfull
      exact .full hnodes (Nat.le_antisymm (hext.grown.capacity_eq ▸ hext.sound.room) hfull)
    · exact .tooLong ((hreached t).mp ht).2 hlong
    · exact .tooMany (hclosure ▸ hcrowded)

/-! ## Nested pairs -/

namespace StackGraph

/-- The graph with the stack of a text that has called for pairs, under a ceiling of depths. -/
def ofText (maxDepth : Nat) : StackGraph where
  nodes := #[⟨[Frame.bottom], 0⟩, ⟨[⟨5, StackId.empty⟩], 1⟩]
  maxDepth := maxDepth

theorem ofText_sound {maxDepth : Nat} (h : 0 < maxDepth) : (ofText maxDepth).Sound := by
  have hempty := withLimits_sound Limits.arenaNodes maxDepth
  have hrun : (push StackId.empty 5).run (withLimits Limits.arenaNodes maxDepth) =
      .ok 1 (ofText maxDepth) := by
    have hfind : (withLimits Limits.arenaNodes maxDepth).nodes.findIdx?
        (·.frames = [⟨5, StackId.empty⟩]) = none := by
      simp [withLimits, Frame.bottom, emptyReturn, Numeral.maxWord]
    have hdepth : ¬maxDepth < (withLimits Limits.arenaNodes maxDepth).depthOf
        [⟨5, StackId.empty⟩] := Nat.not_lt.mpr h
    have hroom : ¬(withLimits Limits.arenaNodes maxDepth).capacity ≤
        (withLimits Limits.arenaNodes maxDepth).nodes.size := by
      change ¬min (max Limits.arenaNodes 1) Limits.stackIds ≤ 1
      decide
    unfold EStateM.run push intern
    rw [hfind]
    exact (if_neg hdepth).trans (if_neg hroom)
  exact ((push_grows hempty hempty.empty_lt (by decide)).apply hrun).1.sound

theorem stack_ofText {maxDepth : Nat} (h : 0 < maxDepth) {σ : List Nat}
    (hσ : (ofText maxDepth).HasStack 1 σ) : σ = [5] := by
  have hframes : (ofText maxDepth).frames 1 = [⟨5, StackId.empty⟩] := rfl
  rw [hasStack_of_frames_singleton (by decide) hframes] at hσ
  obtain ⟨γ, hγ, rfl⟩ := hσ
  have hnil : γ ∈ (ofText maxDepth).stackSet StackId.empty := hγ
  rw [(ofText_sound h).stackSet_empty] at hnil
  rw [hnil]

end StackGraph

namespace Question

/-- A question about pairs of parentheses. -/
def ofPairs : Question where
  net := Grammar.nestedNet
  host := .permissive
  decision := 0
  entry := 16
  start := 0
  fuel := 20

/-- A thread behind an opening parenthesis of the text. -/
def behindParen : Config := { state := 11, alt := 1, stack := 1 }

private theorem behindParen_held {maxDepth : Nat} (h : 0 < maxDepth) :
    behindParen.Held (StackGraph.ofText maxDepth) false ∧
      ∀ σ, (StackGraph.ofText maxDepth).HasStack behindParen.stack σ →
        ∀ s ∈ behindParen.state :: σ, s < Grammar.nestedNet.states.size := by
  refine ⟨⟨(show 1 < 2 by decide), nofun, rfl, rfl⟩, fun σ hσ => ?_⟩
  rw [StackGraph.stack_ofText h hσ]
  decide +kernel

theorem nested_closure_exact :
    ∃ enough, ∀ fuel, enough ≤ fuel →
      ((ofPairs.fueled fuel).closure { full := true } true (ConfigSet.forParser true, [])
        behindParen).Yields { graph := StackGraph.ofText 2 } fun r tr' =>
          Trail.Extends true { graph := StackGraph.ofText 2 } tr' ∧
            Grammar.nestedNet.ClosureEnds behindParen (StackGraph.ofText 2) tr'.graph r := by
  have hdepth : 0 < 2 := by decide
  obtain ⟨hheld, hrange⟩ := behindParen_held hdepth
  have hno := Grammar.nested_noReentry.noReentryBy false
  have hword : Grammar.nestedNet.states.size ≤ emptyReturn := by decide +kernel
  have hnet : ofPairs.net = Grammar.nestedNet := by rw [ofPairs]
  have hg : (StackGraph.ofText 2).Sound := StackGraph.ofText_sound hdepth
  exact closure_exact Grammar.compile_nested rfl Grammar.nested_unconditional hno hword hnet hg hheld
    hrange true

/-- **A closure under exact stacks may fail:** the calls of a text with an opening parenthesis are
two deep, and there is a ceiling of one. -/
theorem nested_closure_fails : Grammar.nested.compile = .ok Grammar.nestedNet ∧
    Grammar.nested.kind = .parser ∧ Grammar.nested.Unconditional ∧
    Grammar.nestedNet.NoReentry ∧ (StackGraph.ofText 1).Sound ∧
    behindParen.Held (StackGraph.ofText 1) false ∧
    ∀ fuel, 20 ≤ fuel →
      (((ofPairs.fueled fuel).closure { full := true } true (ConfigSet.forParser true, [])
        behindParen).from? { graph := StackGraph.ofText 1 }).map Prod.fst =
          some (.error (.tooLong 1)) := by
  refine ⟨Grammar.compile_nested, rfl, Grammar.nested_unconditional, Grammar.nested_noReentry,
    StackGraph.ofText_sound (by decide), (behindParen_held (by decide)).1, fun fuel hfuel => ?_⟩
  have hfails : ((ofPairs.closure { full := true } true (ConfigSet.forParser true, [])
      behindParen).from? { graph := StackGraph.ofText 1 }).map Prod.fst =
        some (.error (.tooLong 1)) := by
    decide +kernel
  obtain ⟨⟨r, tr⟩, hrun, hr⟩ := Option.map_eq_some_iff.mp hfails
  rw [closure_within hfuel _ _ _ _ _ _ hrun, ← hr]
  rfl

end Question

end AdaptiveLL
