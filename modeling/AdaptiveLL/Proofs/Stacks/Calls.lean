import AdaptiveLL.Proofs.Stacks.Full

/-!
# Calls on a graph of stacks

A program pushes return states, merges nodes and asks for the stack of a parse, in any order and
whether or not its calls succeed. What calls with proper return states make of an empty graph is
sound, and merging is then a canonical union of sets of stacks: two nodes are one exactly if they
have the same stacks, merging unites them, and the order in which nodes are merged, or were
interned, makes no difference to the node that comes of it.
-/

namespace AdaptiveLL

/-- **A call on a graph of stacks.** -/
inductive GraphCall where
  | push (parent : StackId) (ret : Nat)
  | merge (a b : StackId) (wild : Bool)
  | ofCallers (net : Network) (callers : List StateId)

namespace GraphCall

/-- What the call does. -/
def perform : GraphCall → Growing StackId
  | push parent ret => StackGraph.push parent ret
  | merge a b wild => StackGraph.merge a b wild
  | ofCallers net callers => StackGraph.ofCallers net callers

/-- The nodes that the call is given. -/
def nodes : GraphCall → List StackId
  | push parent _ => [parent]
  | merge a b _ => [a, b]
  | ofCallers _ _ => []

/-- The return states that the call pushes. -/
def rets : GraphCall → List Nat
  | push _ ret => [ret]
  | merge _ _ _ => []
  | ofCallers net callers => callers.filterMap fun s =>
      (net.state s).transitions.head?.bind Transition.follow?

/-- A call that a program can make of a graph: its nodes are there, and its return states are
numbers below a bound. -/
structure Proper (bound : Nat) (g : StackGraph) (c : GraphCall) : Prop where
  nodes_lt : ∀ id ∈ c.nodes, id < g.size
  rets_lt : ∀ r ∈ c.rets, r < bound

instance (bound : Nat) (g : StackGraph) (c : GraphCall) : Decidable (c.Proper bound g) :=
  decidable_of_iff ((∀ id ∈ c.nodes, id < g.size) ∧ ∀ r ∈ c.rets, r < bound)
    ⟨fun h => ⟨h.1, h.2⟩, fun h => ⟨h.nodes_lt, h.rets_lt⟩⟩

/-- The graph that the call leaves, whether it succeeds or not. -/
def leaves (c : GraphCall) (g : StackGraph) : StackGraph :=
  match c.perform.run g with
  | .ok _ g' => g'
  | .error _ g' => g'

/-- The node that the call hands out, unless it fails. -/
def answer? (c : GraphCall) (g : StackGraph) : Option StackId :=
  match c.perform.run g with
  | .ok id _ => some id
  | .error _ _ => none

/-- The graph that calls leave, one after the other. -/
def leavesAll (cs : List GraphCall) (g : StackGraph) : StackGraph :=
  cs.foldl (fun g c => c.leaves g) g

/-- Calls that a program can make one after the other. -/
def ProperAll (bound : Nat) : StackGraph → List GraphCall → Prop
  | _, [] => True
  | g, c :: cs => c.Proper bound g ∧ ProperAll bound (c.leaves g) cs

instance decidableProperAll (bound : Nat) (cs : List GraphCall) (g : StackGraph) :
    Decidable (ProperAll bound g cs) :=
  match cs with
  | [] => isTrue trivial
  | c :: cs =>
    have := decidableProperAll bound cs (c.leaves g)
    inferInstanceAs (Decidable (c.Proper bound g ∧ ProperAll bound (c.leaves g) cs))

theorem leaves_of_ok {c : GraphCall} {g g' : StackGraph} {id : StackId}
    (h : c.perform.run g = .ok id g') : c.leaves g = g' := by
  rw [leaves, h]

theorem run_of_answer? {c : GraphCall} {g : StackGraph} {id : StackId} (h : c.answer? g = some id) :
    c.perform.run g = .ok id (c.leaves g) := by
  unfold answer? at h
  unfold leaves
  cases hrun : c.perform.run g with
  | ok id' g' =>
    rw [hrun] at h
    rw [Option.some.inj h]
  | error e g' =>
    rw [hrun] at h
    cases h

end GraphCall

namespace StackGraph

/-- **What calls make of a graph.** Their return states are below a bound. -/
inductive Reaches (bound : Nat) (g : StackGraph) : StackGraph → Prop where
  | refl : Reaches bound g g
  | call {g' : StackGraph} {c : GraphCall} : Reaches bound g g' → c.Proper bound g' →
      Reaches bound g (c.leaves g')

/-- **A graph that calls have made of an empty one.** No return state is that of the empty
stack. -/
def Built (g : StackGraph) : Prop :=
  ∃ maxNodes maxDepth, (withLimits maxNodes maxDepth).Reaches emptyReturn g

theorem Reaches.trans {bound : Nat} {g₁ g₂ g₃ : StackGraph} (h : g₁.Reaches bound g₂)
    (h' : g₂.Reaches bound g₃) : g₁.Reaches bound g₃ := by
  induction h' with
  | refl => exact h
  | call _ hc ih => exact ih.call hc

/-- Calls one after the other lead where they lead together. -/
theorem reaches_leavesAll {bound : Nat} {g : StackGraph} {cs : List GraphCall}
    (h : GraphCall.ProperAll bound g cs) : g.Reaches bound (GraphCall.leavesAll cs g) := by
  induction cs generalizing g with
  | nil => exact .refl
  | cons c cs ih => exact (Reaches.refl.call h.1).trans (ih h.2)

/-! ## Calls keep a graph sound -/

/-- **What a call does to a sound graph:** it grows, and the answer is one of its nodes. -/
theorem call_grows {g : StackGraph} (hg : g.Sound) {c : GraphCall} (hc : c.Proper emptyReturn g) :
    Grows c.perform g fun id g' => id < g'.size := by
  cases c with
  | push parent ret =>
    have hparent := hc.nodes_lt parent List.mem_cons_self
    have hret := hc.rets_lt ret List.mem_cons_self
    exact ((push_grows hg hparent hret).mono fun _ _ _ h => h.1).anyhow
  | merge a b wild =>
    have ha := hc.nodes_lt a List.mem_cons_self
    have hb := hc.nodes_lt b (List.mem_cons_of_mem _ List.mem_cons_self)
    exact ((merge_unites hg ha hb wild).mono fun _ _ _ h => h.1).anyhow
  | ofCallers net callers =>
    exact ((pushAll_grows hg hg.empty_lt hg.stackSet_empty hc.rets_lt).mono
      fun _ _ _ h => h.1).anyhow

theorem leaves_grown {g : StackGraph} (hg : g.Sound) {c : GraphCall}
    (hc : c.Proper emptyReturn g) : g.Grown (c.leaves g) := by
  have hgrows := call_grows hg hc
  unfold GraphCall.leaves
  cases hrun : c.perform.run g with
  | ok id g' => exact (hgrows.apply hrun).1
  | error e g' => exact (hgrows.of_error hrun).1

/-- **What calls make of a sound graph** is a larger one. -/
theorem Reaches.grown {g g' : StackGraph} (hg : g.Sound) (h : g.Reaches emptyReturn g') :
    g.Grown g' := by
  induction h with
  | refl => exact .refl hg
  | call _ hc ih => exact ih.trans (leaves_grown ih.sound hc)

theorem Built.sound {g : StackGraph} (hg : g.Built) : g.Sound := by
  obtain ⟨maxNodes, maxDepth, h⟩ := hg
  exact (h.grown (withLimits_sound maxNodes maxDepth)).sound

theorem Built.reaches {g g' : StackGraph} (hg : g.Built) (h : g.Reaches emptyReturn g') :
    g'.Built := by
  obtain ⟨maxNodes, maxDepth, hbuilt⟩ := hg
  exact ⟨maxNodes, maxDepth, hbuilt.trans h⟩

/-! ## Merging is a canonical union -/

/-- The stacks that a node covers if the empty stack is any caller: all that one of its own
begins. -/
def Covers (g : StackGraph) (id : StackId) (γ : List Nat) : Prop := ∃ σ ∈ g.callStacks id, σ <+: γ

theorem covers_iff {g : StackGraph} (hg : g.Sound) {id : StackId} {γ : List Nat} :
    g.Covers id γ ↔ γ ∈ Stacks.covered (g.stackSet id) :=
  exists_congr fun _ => and_congr_left fun _ => hg.layered.mem_callStacks

/-- **Merging two nodes has answered a third one,** in this graph or before it came to be. -/
def HasMerged (g : StackGraph) (wild : Bool) (a b id : StackId) : Prop :=
  ∃ g₀ g₁, g₀.Built ∧ a < g₀.size ∧ b < g₀.size ∧ (merge a b wild).run g₀ = .ok id g₁ ∧
    g₁.Reaches emptyReturn g

/-- What merging has answered is the union of what was merged. -/
theorem HasMerged.stackSet_eq {g : StackGraph} {wild : Bool} {a b id : StackId}
    (h : g.HasMerged wild a b id) : a < g.size ∧ b < g.size ∧ id < g.size ∧
      g.stackSet id = Stacks.united wild (g.stackSet a) (g.stackSet b) := by
  obtain ⟨g₀, g₁, hg₀, ha, hb, hrun, hreaches⟩ := h
  obtain ⟨hgrown, hid, hset⟩ := (merge_unites hg₀.sound ha hb wild).apply hrun
  have hlater := hreaches.grown hgrown.sound
  have hall := hgrown.trans hlater
  refine ⟨hall.lt ha, hall.lt hb, hlater.lt hid, ?_⟩
  rw [hlater.stackSet_eq hgrown.sound hid, hset, hall.stackSet_eq hg₀.sound ha,
    hall.stackSet_eq hg₀.sound hb]

/-- What merging has answered, it answers again. -/
theorem HasMerged.again {g : StackGraph} (hg : g.Sound) {wild : Bool} {a b a' b' id : StackId}
    (h : g.HasMerged wild a b id) (ha' : a' < g.size) (hb' : b' < g.size)
    (hset : Stacks.united wild (g.stackSet a') (g.stackSet b') =
      Stacks.united wild (g.stackSet a) (g.stackSet b)) : (merge a' b' wild).run g = .ok id g := by
  obtain ⟨-, -, hid, hunion⟩ := h.stackSet_eq
  exact merge_again hg ha' hb' hid (hunion.trans hset.symm)

/-- **Merging is a canonical union.** In a graph that calls have made of an empty one
* two nodes are one exactly if they have the same stacks,
* merging answers unless the graph is full,
* merging exact stacks unites them,
* merging stacks with any caller below unites what they cover,
* merging is idempotent, commutative and associative, whenever and in whichever order the nodes were
  merged before. -/
theorem merge_canonical_union {g : StackGraph} (hg : g.Built) {a b c : StackId} (ha : a < g.size)
    (hb : b < g.size) (hc : c < g.size) :
    (a = b ↔ ∀ γ, γ ∈ g.callStacks a ↔ γ ∈ g.callStacks b) ∧
    (∀ wild, (∃ ab g', (merge a b wild).run g = .ok ab g') ∨
      ∃ e g', (merge a b wild).run g = .error e g' ∧ e.resource = .arenaNodes ∧
        g'.size = g.capacity) ∧
    (∀ ab g', (merge a b false).run g = .ok ab g' →
      ∀ γ, γ ∈ g'.callStacks ab ↔ γ ∈ g.callStacks a ∨ γ ∈ g.callStacks b) ∧
    (∀ ab g', (merge a b true).run g = .ok ab g' →
      ∀ γ, g'.Covers ab γ ↔ g.Covers a γ ∨ g.Covers b γ) ∧
    ∀ wild, (merge a a wild).run g = .ok a g ∧
      (∀ ab, g.HasMerged wild a b ab → (merge b a wild).run g = .ok ab g) ∧
      ∀ ab bc abc, g.HasMerged wild a b ab → g.HasMerged wild b c bc →
        (g.HasMerged wild ab c abc → (merge a bc wild).run g = .ok abc g) ∧
        (g.HasMerged wild a bc abc → (merge ab c wild).run g = .ok abc g) := by
  have hs := hg.sound
  refine ⟨⟨?_, fun h => ?_⟩, fun wild => ?_, fun ab g' hrun γ => ?_, fun ab g' hrun γ => ?_,
    fun wild => ⟨?_, fun ab hab => ?_, fun ab bc abc hab hbc => ⟨fun habc => ?_, fun habc => ?_⟩⟩⟩
  · rintro rfl γ
    rfl
  · refine hs.eq_of_stackSet_eq ha hb (Set.ext fun γ => ?_)
    exact (hs.layered.mem_callStacks.symm.trans (h γ)).trans hs.layered.mem_callStacks
  · have hunites := merge_unites hs ha hb wild
    cases hrun : (merge a b wild).run g with
    | ok ab g' => exact .inl ⟨ab, g', rfl⟩
    | error e g' =>
      obtain ⟨hgrown, hnodes⟩ := hunites.of_error hrun
      have hfull := Growing.failsWith_iff.mp (merge_fills a b wild) g e g' hrun hnodes
      refine .inr ⟨e, g', rfl, hnodes, ?_⟩
      rw [← hgrown.capacity_eq]
      exact Nat.le_antisymm hgrown.sound.room hfull
  · obtain ⟨hgrown, -, hset⟩ := (merge_unites hs ha hb false).apply hrun
    rw [Stacks.united_false] at hset
    rw [hgrown.sound.layered.mem_callStacks, hs.layered.mem_callStacks,
      hs.layered.mem_callStacks]
    exact Set.ext_iff.mp hset γ
  · obtain ⟨hgrown, -, hset⟩ := (merge_unites hs ha hb true).apply hrun
    rw [covers_iff hgrown.sound, covers_iff hs, covers_iff hs, hset, Stacks.covered_united]
    rfl
  · exact merge_again hs ha ha ha Stacks.united_self.symm
  · exact hab.again hs hb ha Stacks.united_comm
  -- Both bracketings have one union, so what one has made the other one finds.
  all_goals
    obtain ⟨-, -, hab_lt, hab_eq⟩ := hab.stackSet_eq
    obtain ⟨-, -, hbc_lt, hbc_eq⟩ := hbc.stackSet_eq
  · refine habc.again hs ha hbc_lt ?_
    rw [hbc_eq, hab_eq, Stacks.united_assoc]
  · refine habc.again hs hab_lt hc ?_
    rw [hbc_eq, hab_eq, Stacks.united_assoc]

/-- A call of a program that merges two nodes. -/
theorem hasMerged_leavesAll {maxNodes maxDepth : Nat} (before : List GraphCall)
    {after : List GraphCall} {wild : Bool} {a b id : StackId}
    (hbefore : GraphCall.ProperAll emptyReturn (withLimits maxNodes maxDepth) before)
    (hafter : GraphCall.ProperAll emptyReturn (GraphCall.leavesAll before
      (withLimits maxNodes maxDepth)) (.merge a b wild :: after))
    (hanswer : (GraphCall.merge a b wild).answer? (GraphCall.leavesAll before
      (withLimits maxNodes maxDepth)) = some id) :
    (GraphCall.leavesAll (before ++ .merge a b wild :: after)
      (withLimits maxNodes maxDepth)).HasMerged wild a b id := by
  refine ⟨_, _, ⟨maxNodes, maxDepth, reaches_leavesAll hbefore⟩, ?_, ?_,
    GraphCall.run_of_answer? hanswer, ?_⟩
  · exact hafter.1.nodes_lt a List.mem_cons_self
  · exact hafter.1.nodes_lt b (List.mem_cons_of_mem _ List.mem_cons_self)
  · have happend : GraphCall.leavesAll (before ++ .merge a b wild :: after)
        (withLimits maxNodes maxDepth) = GraphCall.leavesAll (.merge a b wild :: after)
          (GraphCall.leavesAll before (withLimits maxNodes maxDepth)) := List.foldl_append
    rw [happend]
    exact reaches_leavesAll hafter.2

/-- The stacks `[5]`, `[7, 5]` and `[7]`, of which the last two were merged and then the first two,
and that with the third, all with any caller below. -/
def threeMerged : StackGraph :=
  GraphCall.leavesAll [.push 0 5, .push 1 7, .push 0 7, .merge 2 3 true, .merge 1 2 true,
    .merge 4 3 true] (withLimits 100 10)

/-- Where `([5] ∪ [7, 5]) ∪ [7]` has been merged, `[7, 5] ∪ [5]` and `[5] ∪ ([7, 5] ∪ [7])` are
merged into the same nodes. Any caller below `[7]` absorbs `[7, 5]`. -/
theorem threeMerged_union : threeMerged.Built ∧
    (1 < threeMerged.size ∧ 2 < threeMerged.size ∧ 3 < threeMerged.size) ∧
      (merge 2 1 true).run threeMerged = .ok 4 threeMerged ∧
        (merge 1 3 true).run threeMerged = .ok 5 threeMerged := by
  have hbuilt : threeMerged.Built := ⟨100, 10, reaches_leavesAll (by decide +kernel)⟩
  have hbc : threeMerged.HasMerged true 2 3 3 :=
    hasMerged_leavesAll [.push 0 5, .push 1 7, .push 0 7] (by decide +kernel)
      (by decide +kernel) (by decide +kernel)
  have hab : threeMerged.HasMerged true 1 2 4 :=
    hasMerged_leavesAll [.push 0 5, .push 1 7, .push 0 7, .merge 2 3 true]
      (by decide +kernel) (by decide +kernel) (by decide +kernel)
  have habc : threeMerged.HasMerged true 4 3 5 :=
    hasMerged_leavesAll [.push 0 5, .push 1 7, .push 0 7, .merge 2 3 true, .merge 1 2 true]
      (by decide +kernel) (by decide +kernel) (by decide +kernel)
  have ha : 1 < threeMerged.size := by decide +kernel
  have hb : 2 < threeMerged.size := by decide +kernel
  have hc : 3 < threeMerged.size := by decide +kernel
  obtain ⟨-, -, -, -, hlaws⟩ := merge_canonical_union hbuilt ha hb hc
  obtain ⟨-, hcomm, hassoc⟩ := hlaws true
  exact ⟨hbuilt, ⟨ha, hb, hc⟩, hcomm 4 hab, (hassoc 4 3 5 hab hbc).1 habc⟩

end StackGraph

end AdaptiveLL
