import AdaptiveLL.Proofs.Stacks.Calls
import Mathlib.Order.Bounds.Basic

/-!
# The ceilings of a graph of stacks

Whatever calls are made of a graph, whether they succeed or not, it only grows, and it stays within
its ceilings. The return states of the calls may be any machine word, that of the empty stack
included, so the graphs here are layered and need not be sound.

A step that meets a ceiling is not undone: the nodes that it added before stay. What it would have
done with enough room is told by the same step on the same graph with higher ceilings. The graph
that it leaves is then a beginning of the one that it would have made, and the node that it was
refused is the next one, which is too deep or one too many.
-/

namespace AdaptiveLL

namespace StackGraph

variable {α β : Type} {g g' h : StackGraph}

/-! ## Beginnings -/

/-- **The graph is a beginning of another one,** under the same ceilings. -/
structure Extends (g h : StackGraph) : Prop where
  begins : g.nodes.toList <+: h.nodes.toList
  maxNodes_eq : h.maxNodes = g.maxNodes
  maxDepth_eq : h.maxDepth = g.maxDepth
  maxIds_eq : h.maxIds = g.maxIds

namespace Extends

theorem refl (g : StackGraph) : g.Extends g := ⟨List.prefix_rfl, rfl, rfl, rfl⟩

theorem trans (h₁ : g.Extends g') (h₂ : g'.Extends h) : g.Extends h where
  begins := h₁.begins.trans h₂.begins
  maxNodes_eq := h₂.maxNodes_eq.trans h₁.maxNodes_eq
  maxDepth_eq := h₂.maxDepth_eq.trans h₁.maxDepth_eq
  maxIds_eq := h₂.maxIds_eq.trans h₁.maxIds_eq

theorem extend (g : StackGraph) (fs : List Frame) : g.Extends (g.extend fs) where
  begins := by simp [StackGraph.extend]
  maxNodes_eq := rfl
  maxDepth_eq := rfl
  maxIds_eq := rfl

theorem size_le (hgh : g.Extends h) : g.size ≤ h.size := by
  simpa [size] using hgh.begins.length_le

theorem getElem?_eq (hgh : g.Extends h) {id : StackId} (hid : id < g.size) :
    h.nodes[id]? = g.nodes[id]? := by
  obtain ⟨later, hlater⟩ := hgh.begins
  rw [← Array.getElem?_toList, ← Array.getElem?_toList, ← hlater]
  exact List.getElem?_append_left hid

theorem frames_eq (hgh : g.Extends h) {id : StackId} (hid : id < g.size) :
    h.frames id = g.frames id := by
  rw [frames, frames, hgh.getElem?_eq hid]

theorem depth_eq (hgh : g.Extends h) {id : StackId} (hid : id < g.size) :
    h.depth id = g.depth id := by
  rw [depth, depth, hgh.getElem?_eq hid]

/-- The stacks of a node are read off nodes that were there. -/
theorem callStacks_eq (hgh : g.Extends h) (hg : g.Layered) {id : StackId} (hid : id < g.size) :
    h.callStacks id = g.callStacks id := by
  -- The callers of a frame are nodes that were there, so the fuel counts down inside the old graph.
  have hwithin : ∀ fuel id, id < g.size → h.stacksWithin fuel id = g.stacksWithin fuel id := by
    intro fuel
    induction fuel with
    | zero => exact fun _ _ => rfl
    | succ fuel ih =>
      intro id hid
      rw [stacksWithin, stacksWithin, hgh.frames_eq hid]
      refine List.flatMap_congr fun f hf => ?_
      rw [ih f.parent ((hg.fits id).older f hf)]
  rw [callStacks, callStacks, hwithin _ id hid]

end Extends

/-! ## Calls keep a graph layered -/

/-- **The step keeps a graph layered** and takes no node away. If it succeeds, its answer satisfies
`Q`. -/
def Layers (m : Growing α) (g : StackGraph) (Q : α → StackGraph → Prop) : Prop :=
  m.toRun.Ensures g fun r g' => g'.Layered ∧ g.size ≤ g'.size ∧ ∀ a, r = .ok a → Q a g'

namespace Layers

variable {m : Growing α} {f : α → Growing β} {Q : α → StackGraph → Prop}
  {R : β → StackGraph → Prop}

theorem pure {a : α} (hg : g.Layered) (h : Q a g) : Layers (pure a) g Q :=
  Run.Ensures.pure ⟨hg, le_rfl, fun _ ha => Except.ok.inj ha ▸ h⟩

theorem bind (h : Layers m g Q)
    (hf : ∀ a g', g'.Layered → g.size ≤ g'.size → Q a g' → Layers (f a) g' R) :
    Layers (m >>= f) g R := by
  unfold Layers
  rw [Growing.toRun_bind]
  refine Run.Ensures.bind h (fun a g' ⟨hg', hsize, ha⟩ => ?_) fun e g' ⟨hg', hsize, _⟩ =>
    ⟨hg', hsize, nofun⟩
  exact (hf a g' hg' hsize (ha a rfl)).mono fun r g'' ⟨hg'', hsize', hb⟩ =>
    ⟨hg'', hsize.trans hsize', hb⟩

theorem get_bind {f : StackGraph → Growing β} (h : Layers (f g) g R) : Layers (get >>= f) g R := by
  unfold Layers
  rw [Growing.toRun_get_bind]
  exact Run.Ensures.get_bind h

theorem apply (h : Layers m g Q) {a : α} (hrun : m.run g = .ok a g') :
    g'.Layered ∧ g.size ≤ g'.size ∧ Q a g' := by
  obtain ⟨hg', hsize, ha⟩ := h (.ok a) g' (by rw [Growing.toRun, Run.from?_ofStep, hrun])
  exact ⟨hg', hsize, ha a rfl⟩

theorem of_error (h : Layers m g Q) {e : Exceeded} (hrun : m.run g = .error e g') :
    g'.Layered ∧ g.size ≤ g'.size := by
  obtain ⟨hg', hsize, -⟩ := h (.error e) g' (by rw [Growing.toRun, Run.from?_ofStep, hrun])
  exact ⟨hg', hsize⟩

end Layers

private theorem intern_layers (hg : g.Layered) {fs : List Frame} (hfs : g.Fits fs) (hne : fs ≠ []) :
    Layers (intern fs) g fun id g' => id < g'.size := by
  refine .of_eq (Run.from?_ofStep ..) ?_
  have hintern := intern_interned g fs
  generalize (intern fs).run g = outcome at hintern ⊢
  cases hintern with
  | found hid => exact ⟨hg, le_rfl, fun _ h => Except.ok.inj h ▸ hid⟩
  | tooDeep => exact ⟨hg, le_rfl, nofun⟩
  | full => exact ⟨hg, le_rfl, nofun⟩
  | added hnew hdepth hroom =>
    have hlt : g.size < (g.extend fs).size := size_extend ▸ Nat.lt_succ_self _
    exact ⟨layered_extend hg hfs hne hroom hdepth hnew, Nat.le_of_lt hlt,
      fun _ h => Except.ok.inj h ▸ hlt⟩

private theorem push_layers (hg : g.Layered) {parent : StackId} {ret : Nat}
    (hparent : parent < g.size) (hret : ret ≤ emptyReturn) :
    Layers (push parent ret) g fun id g' => id < g'.size :=
  intern_layers hg (.single hparent hret) (List.cons_ne_nil _ _)

private theorem pushAll_layers (hg : g.Layered) {parent : StackId} {rets : List Nat}
    (hparent : parent < g.size) (hrets : ∀ r ∈ rets, r ≤ emptyReturn) :
    Layers (pushAll parent rets) g fun id g' => id < g'.size := by
  induction rets generalizing g parent with
  | nil => exact .pure hg hparent
  | cons ret rets ih =>
    obtain ⟨hret, hrest⟩ := List.forall_mem_cons.mp hrets
    exact (push_layers hg hparent hret).bind fun id g' hg' _ hid => ih hg' hid hrest

/-- Merging frames keeps their return states above those that come before. -/
private def MergedFrom (fs ls rs : List Frame) : Prop :=
  ∀ r, (∀ f ∈ ls, r < f.ret) → (∀ f ∈ rs, r < f.ret) → ∀ f ∈ fs, r < f.ret

private theorem mergeInto_layers {merge : StackId → StackId → Growing StackId} {l : Frame}
    {ls rs : List Frame} {others : List Frame → Growing (List Frame)} (hg : g.Layered)
    (hl : g.Fits (l :: ls)) (hr : g.Fits rs)
    (hmerge : ∀ g : StackGraph, g.Layered → ∀ a < g.size, ∀ b < g.size,
      Layers (merge a b) g fun id g' => id < g'.size)
    (hothers : ∀ g : StackGraph, g.Layered → g.Fits ls → ∀ rs, g.Fits rs →
      Layers (others rs) g fun fs g' => g'.Fits fs ∧ MergedFrom fs ls rs) :
    Layers (mergeInto merge l ls others rs) g
      fun fs g' => g'.Fits fs ∧ fs ≠ [] ∧ MergedFrom fs (l :: ls) rs := by
  have hl_lt := hl.older l List.mem_cons_self
  have hl_le := hl.ret_le l List.mem_cons_self
  induction rs with
  | nil => exact .pure hg ⟨hl, List.cons_ne_nil _ _, fun _ habove _ => habove⟩
  | cons r rs ih =>
    have hr_lt := hr.older r List.mem_cons_self
    -- The heads are merged, or the smaller one comes first: the frames stay ascending either way.
    by_cases hret : l.ret = r.ret
    · rw [mergeInto_of_ret_eq hret]
      refine Layers.bind (Q := fun p g' => p < g'.size) ?_ fun p g₁ hg₁ hsize₁ hp => ?_
      · split
        · exact .pure hg hl_lt
        · exact hmerge g hg _ hl_lt _ hr_lt
      refine (hothers g₁ hg₁ (hl.of_cons.mono hsize₁) rs (hr.of_cons.mono hsize₁)).bind ?_
      rintro fs g₂ hg₂ hsize₂ ⟨hfs, hfrom⟩
      refine .pure hg₂ ⟨?_, List.cons_ne_nil _ _, ?_⟩
      · refine .cons (hp.trans_le hsize₂) hl_le hfs (hfrom l.ret hl.head_lt ?_)
        exact hret ▸ hr.head_lt
      · intro k hkl hkr
        obtain ⟨hl', hls'⟩ := List.forall_mem_cons.mp hkl
        exact List.forall_mem_cons.mpr ⟨hl', hfrom k hls' (List.forall_mem_cons.mp hkr).2⟩
    rw [mergeInto, if_neg hret]
    split
    · next hlt =>
      refine (hothers g hg hl.of_cons (r :: rs) hr).bind ?_
      rintro fs g' hg' hsize ⟨hfs, hfrom⟩
      refine .pure hg' ⟨?_, List.cons_ne_nil _ _, ?_⟩
      · refine .cons (hl_lt.trans_le hsize) hl_le hfs (hfrom l.ret hl.head_lt ?_)
        exact List.forall_mem_cons.mpr ⟨hlt, fun f hf => hlt.trans (hr.head_lt f hf)⟩
      · intro k hkl hkr
        obtain ⟨hl', hls'⟩ := List.forall_mem_cons.mp hkl
        exact List.forall_mem_cons.mpr ⟨hl', hfrom k hls' hkr⟩
    · next hle =>
      have hlt : r.ret < l.ret := Nat.lt_of_le_of_ne (Nat.le_of_not_lt hle) (Ne.symm hret)
      refine (ih hr.of_cons).bind ?_
      rintro fs g' hg' hsize ⟨hfs, -, hfrom⟩
      refine .pure hg' ⟨?_, List.cons_ne_nil _ _, ?_⟩
      · refine .cons (hr_lt.trans_le hsize) (hr.ret_le r List.mem_cons_self) hfs
          (hfrom r.ret ?_ hr.head_lt)
        exact List.forall_mem_cons.mpr ⟨hlt, fun f hf => hlt.trans (hl.head_lt f hf)⟩
      · intro k hkl hkr
        obtain ⟨hr', hrs'⟩ := List.forall_mem_cons.mp hkr
        exact List.forall_mem_cons.mpr ⟨hr', hfrom k hkl hrs'⟩

private theorem mergeFrames_layers {merge : StackId → StackId → Growing StackId}
    {ls rs : List Frame} (hg : g.Layered) (hl : g.Fits ls) (hr : g.Fits rs)
    (hmerge : ∀ g : StackGraph, g.Layered → ∀ a < g.size, ∀ b < g.size,
      Layers (merge a b) g fun id g' => id < g'.size) :
    Layers (mergeFrames merge ls rs) g
      fun fs g' => g'.Fits fs ∧ (ls ≠ [] → fs ≠ []) ∧ MergedFrom fs ls rs := by
  induction ls generalizing g rs with
  | nil => exact .pure hg ⟨hr, fun h => absurd rfl h, fun _ _ habove => habove⟩
  | cons l ls ih =>
    have hothers : ∀ g : StackGraph, g.Layered → g.Fits ls → ∀ rs, g.Fits rs →
        Layers (mergeFrames merge ls rs) g fun fs g' => g'.Fits fs ∧ MergedFrom fs ls rs :=
      fun g' hg' hls rs' hrs' => (ih hg' hls hrs').mono
        fun _ _ ⟨hlayered, hsize, ha⟩ => ⟨hlayered, hsize, fun a h => ⟨(ha a h).1, (ha a h).2.2⟩⟩
    exact (mergeInto_layers hg hl hr hmerge hothers).mono
      fun _ _ ⟨hlayered, hsize, ha⟩ => ⟨hlayered, hsize, fun a h =>
        ⟨(ha a h).1, fun _ => (ha a h).2.1, (ha a h).2.2⟩⟩

private theorem mergeWithin_layers (wild : Bool) (fuel : Nat) :
    ∀ g : StackGraph, g.Layered → ∀ a < g.size, ∀ b < g.size,
      Layers (mergeWithin wild fuel a b) g fun id g' => id < g'.size := by
  -- Nothing is asked of the fuel: without any the answer is one of the two nodes.
  induction fuel with
  | zero => exact fun g hg a ha _ _ => .pure hg ha
  | succ fuel ih =>
    intro g hg a ha b hb
    unfold mergeWithin
    split
    · exact .pure hg ha
    split
    · exact .pure hg hg.size_pos
    refine .get_bind ((mergeFrames_layers hg (hg.fits a) (hg.fits b) ih).bind ?_)
    rintro fs g' hg' hsize ⟨hfs, hne, -⟩
    exact intern_layers hg' hfs (hne (hg.ne_nil a ha))

/-- **What a call does to a layered graph:** it leaves a larger one, and hands out one of its
nodes. -/
theorem call_layers (hg : g.Layered) {c : GraphCall} (hc : c.Proper (emptyReturn + 1) g) :
    Layers c.perform g fun id g' => id < g'.size := by
  cases c with
  | push parent ret =>
    have hparent := hc.nodes_lt parent List.mem_cons_self
    have hret := hc.rets_lt ret List.mem_cons_self
    exact push_layers hg hparent (Nat.le_of_lt_succ hret)
  | merge a b wild =>
    have ha := hc.nodes_lt a List.mem_cons_self
    have hb := hc.nodes_lt b (List.mem_cons_of_mem _ List.mem_cons_self)
    exact mergeWithin_layers wild _ g hg a ha b hb
  | ofCallers net callers =>
    exact pushAll_layers hg hg.size_pos fun r hr => Nat.le_of_lt_succ (hc.rets_lt r hr)

/-! ## Steps at their ceilings -/

/-- The graph with other ceilings, and with other numbers for nodes. -/
def withRoom (g : StackGraph) (maxNodes maxIds maxDepth : Nat) : StackGraph :=
  { g with maxNodes := maxNodes, maxIds := maxIds, maxDepth := maxDepth }

/-- **With enough room the step answers `a` and leaves the nodes of `h`,** however high the ceilings
are and however many numbers there are. -/
def Ample (m : Growing α) (g : StackGraph) (a : α) (h : StackGraph) : Prop :=
  ∃ nodes depth, ∀ N ≥ nodes, ∀ I ≥ nodes, ∀ D ≥ depth,
    m.run (g.withRoom N I D) = .ok a (h.withRoom N I D)

/-- **What a step is refused that leaves `g` where it would have left `h`:** the next node, which is
deeper than the ceiling, or one more than there may be. -/
inductive Refused (g h : StackGraph) : Exceeded → Prop where
  | tooDeep : g.size < h.size → g.maxDepth < h.depth g.size →
      Refused g h ⟨.contextDepth, g.maxDepth, h.depth g.size⟩
  | full : g.size < h.size → h.depth g.size ≤ g.maxDepth → g.capacity ≤ g.size →
      Refused g h ⟨.arenaNodes, g.maxNodes, g.size + 1⟩

theorem Refused.extends {e : Exceeded} (hr : g.Refused g' e) (hgh : g'.Extends h) :
    g.Refused h e := by
  cases hr with
  | tooDeep hlt hdeep =>
    rw [← hgh.depth_eq hlt] at hdeep ⊢
    exact .tooDeep (hlt.trans_le hgh.size_le) hdeep
  | full hlt hdepth hfull =>
    rw [← hgh.depth_eq hlt] at hdepth
    exact .full (hlt.trans_le hgh.size_le) hdepth hfull

/-- **A step goes as far as its ceilings allow.** With enough room it succeeds. If it succeeds under
its ceilings it does the same there, and if it fails it leaves a beginning of what it would have
made, and was refused the next node of it. -/
def Ceiled (m : Growing α) : Prop :=
  ∀ g : StackGraph, ∃ a h, g.Extends h ∧ Ample m g a h ∧
    match m.run g with
    | .ok a' g' => a' = a ∧ g' = h
    | .error e g' => g.Extends g' ∧ g'.Extends h ∧ g'.Refused h e

namespace Ceiled

theorem pure {a : α} : Ceiled (pure a) :=
  fun g => ⟨a, g, .refl g, ⟨0, 0, fun _ _ _ _ _ _ => rfl⟩, rfl, rfl⟩

theorem bind {m : Growing α} {f : α → Growing β} (hm : Ceiled m) (hf : ∀ a, Ceiled (f a)) :
    Ceiled (m >>= f) := by
  intro g
  obtain ⟨a, h, hgh, ⟨n, d, hample⟩, hrun⟩ := hm g
  -- What the second part would do is asked where the first one would have led, even if it fails.
  obtain ⟨b, k, hhk, ⟨n', d', hample'⟩, hrun'⟩ := hf a h
  refine ⟨b, k, hgh.trans hhk, ⟨max n n', max d d', fun N hN I hI D hD => ?_⟩, ?_⟩
  · rw [run_bind_of_ok (hample N (le_of_max_le_left hN) I (le_of_max_le_left hI) D
      (le_of_max_le_left hD))]
    exact hample' N (le_of_max_le_right hN) I (le_of_max_le_right hI) D (le_of_max_le_right hD)
  · cases hfirst : m.run g with
    | error e g' =>
      rw [hfirst] at hrun
      obtain ⟨hgg', hg'h, hrefused⟩ := hrun
      rw [run_bind_of_error hfirst]
      exact ⟨hgg', hg'h.trans hhk, hrefused.extends hhk⟩
    | ok a' g' =>
      rw [hfirst] at hrun
      obtain ⟨rfl, rfl⟩ := hrun
      rw [run_bind_of_ok hfirst]
      cases hsecond : (f a').run g' with
      | ok b' g'' =>
        rw [hsecond] at hrun'
        exact hrun'
      | error e g'' =>
        rw [hsecond] at hrun'
        obtain ⟨hgg', hg'h, hrefused⟩ := hrun'
        exact ⟨hgh.trans hgg', hg'h, hrefused⟩

/-- What is read off a graph is read whatever its ceilings are. -/
theorem get_bind {f : StackGraph → Growing β} (hf : ∀ g, Ceiled (f g))
    (hsame : ∀ g N I D, f (g.withRoom N I D) = f g) : Ceiled (get >>= f) := by
  intro g
  have hget : ∀ g : StackGraph, (get >>= f : Growing β).run g = (f g).run g := fun g =>
    run_bind_of_ok rfl
  obtain ⟨b, h, hgh, ⟨n, d, hample⟩, hrun⟩ := hf g g
  refine ⟨b, h, hgh, ⟨n, d, fun N hN I hI D hD => ?_⟩, ?_⟩
  · rw [hget, hsame]
    exact hample N hN I hI D hD
  · rwa [hget]

end Ceiled

private theorem intern_ceiled (fs : List Frame) : Ceiled (intern fs) := by
  intro g
  cases hfind : g.nodes.findIdx? (·.frames = fs) with
  | some id =>
    have hrun : ∀ N I D, (intern fs).run (g.withRoom N I D) = .ok id (g.withRoom N I D) := by
      intro N I D
      simp [intern, EStateM.run, withRoom, hfind]
    have hhere : (intern fs).run g = .ok id g := hrun g.maxNodes g.maxIds g.maxDepth
    rw [hhere]
    exact ⟨id, g, .refl g, ⟨0, 0, fun N _ I _ D _ => hrun N I D⟩, rfl, rfl⟩
  | none =>
    have hrun : ∀ N I D, (intern fs).run (g.withRoom N I D) =
        if D < g.depthOf fs then .error ⟨.contextDepth, D, g.depthOf fs⟩ (g.withRoom N I D)
        else if min N I ≤ g.size then .error ⟨.arenaNodes, N, g.size + 1⟩ (g.withRoom N I D)
        else .ok g.size ((g.extend fs).withRoom N I D) := by
      intro N I D
      simp only [intern, EStateM.run, withRoom, hfind]
      rfl
    -- The new node is too deep, or there is no room for it, or it is made: in this order.
    have hdepth : (g.extend fs).depth g.size = g.depthOf fs := depth_extend.trans (if_pos rfl)
    have hsize : g.size < (g.extend fs).size := size_extend ▸ Nat.lt_succ_self _
    refine ⟨g.size, g.extend fs, .extend g fs,
      ⟨g.size + 1, g.depthOf fs, fun N hN I hI D hD => ?_⟩, ?_⟩
    · have hroom : g.size < min N I := lt_min hN hI
      rw [hrun, if_neg (Nat.not_lt_of_le hD), if_neg (Nat.not_le_of_lt hroom)]
    have hhere : (intern fs).run g = _ := hrun g.maxNodes g.maxIds g.maxDepth
    rw [hhere]
    by_cases hdeep : g.maxDepth < g.depthOf fs
    · rw [if_pos hdeep]
      rw [← hdepth] at hdeep ⊢
      exact ⟨.refl g, .extend g fs, .tooDeep hsize hdeep⟩
    rw [if_neg hdeep]
    by_cases hfull : min g.maxNodes g.maxIds ≤ g.size
    · rw [if_pos hfull]
      exact ⟨.refl g, .extend g fs, .full hsize (hdepth ▸ Nat.le_of_not_lt hdeep) hfull⟩
    · rw [if_neg hfull]
      exact ⟨rfl, rfl⟩

private theorem pushAll_ceiled (parent : StackId) (rets : List Nat) :
    Ceiled (pushAll parent rets) := by
  induction rets generalizing parent with
  | nil => exact .pure
  | cons ret rets ih => exact (intern_ceiled _).bind fun id => ih id

private theorem mergeInto_ceiled {merge : StackId → StackId → Growing StackId} {l : Frame}
    {ls : List Frame} {others : List Frame → Growing (List Frame)}
    (hmerge : ∀ a b, Ceiled (merge a b)) (hothers : ∀ rs, Ceiled (others rs)) (rs : List Frame) :
    Ceiled (mergeInto merge l ls others rs) := by
  induction rs with
  | nil => exact .pure
  | cons r rs ih =>
    by_cases hret : l.ret = r.ret
    · rw [mergeInto_of_ret_eq hret]
      refine .bind ?_ fun p => (hothers rs).bind fun _ => .pure
      split
      · exact .pure
      · exact hmerge _ _
    rw [mergeInto, if_neg hret]
    split
    · exact (hothers _).bind fun _ => .pure
    · exact ih.bind fun _ => .pure

private theorem mergeFrames_ceiled {merge : StackId → StackId → Growing StackId}
    (hmerge : ∀ a b, Ceiled (merge a b)) (ls rs : List Frame) :
    Ceiled (mergeFrames merge ls rs) := by
  induction ls generalizing rs with
  | nil => exact .pure
  | cons l ls ih => exact mergeInto_ceiled hmerge ih rs

private theorem mergeWithin_ceiled (wild : Bool) (fuel : Nat) (a b : StackId) :
    Ceiled (mergeWithin wild fuel a b) := by
  induction fuel generalizing a b with
  | zero => exact .pure
  | succ fuel ih =>
    unfold mergeWithin
    split
    · exact .pure
    split
    · exact .pure
    · exact .get_bind (fun g => (mergeFrames_ceiled ih _ _).bind fun fs => intern_ceiled fs)
        fun _ _ _ _ => rfl

/-- **Every call goes as far as its ceilings allow.** -/
theorem call_ceiled (c : GraphCall) : Ceiled c.perform := by
  cases c with
  | push parent ret => exact intern_ceiled _
  | merge a b wild => exact mergeWithin_ceiled wild _ a b
  | ofCallers net callers => exact pushAll_ceiled _ _

/-! ## Every graph that calls make -/

theorem leaves_extends (c : GraphCall) (g : StackGraph) : g.Extends (c.leaves g) := by
  obtain ⟨a, h, hgh, -, hrun⟩ := call_ceiled c g
  unfold GraphCall.leaves
  cases hc : c.perform.run g with
  | ok id g' =>
    rw [hc] at hrun
    exact hrun.2 ▸ hgh
  | error e g' =>
    rw [hc] at hrun
    exact hrun.1

theorem leaves_layered (hg : g.Layered) {c : GraphCall} (hc : c.Proper (emptyReturn + 1) g) :
    (c.leaves g).Layered := by
  have hlayers := call_layers hg hc
  unfold GraphCall.leaves
  cases hrun : c.perform.run g with
  | ok id g' => exact (hlayers.apply hrun).1
  | error e g' => exact (hlayers.of_error hrun).1

theorem Reaches.extends {bound : Nat} (h : g.Reaches bound g') : g.Extends g' := by
  induction h with
  | refl => exact .refl g
  | @call g' c _ _ ih => exact ih.trans (leaves_extends c g')

theorem Reaches.layered (hg : g.Layered) (h : g.Reaches (emptyReturn + 1) g') : g'.Layered := by
  induction h with
  | refl => exact hg
  | call _ hc ih => exact leaves_layered ih hc

/-- A frame of the empty stack comes after all others. -/
theorem Layered.isBottom_of_mem_dropLast (hg : g.Layered) {id : StackId} {f : Frame}
    (hf : f ∈ (g.frames id).dropLast) : f.isBottom = false := by
  have hne : g.frames id ≠ [] := by
    intro hnil
    simp [hnil] at hf
  have hlast := List.dropLast_append_getLast hne
  have hascending := hg.ascending id
  rw [← hlast, List.pairwise_append] at hascending
  have hlt := hascending.2.2 f hf _ List.mem_cons_self
  have hle := hg.ret_le id _ (List.getLast_mem hne)
  have hret : f.ret ≠ emptyReturn := by omega
  simpa [Frame.isBottom] using hret

/-- **Graphs only grow, and respect their ceilings.** Whatever calls have been made of an empty
graph, with any return states and whether they succeeded or not,
* a node has frames, in strictly ascending order, of which at most the last one is that of the empty
  stack,
* the frames of a node lead to older nodes, but for that of the empty stack in its own node,
* the depth of a node is the length of its longest stack, and within the ceiling,
* nodes with the same frames are one, and there are no more of them than the graph has room for,
* later calls leave the frames, the depth and the stacks of a node as they are,
* a call hands out a node, or it leaves a beginning of what it would have made with enough room and
  was refused the next node of it. -/
theorem reaches_within_ceilings {maxNodes maxDepth : Nat}
    (h : (withLimits maxNodes maxDepth).Reaches (emptyReturn + 1) g) :
    (∀ id < g.size, g.frames id ≠ [] ∧ (g.frames id).Pairwise (fun f f' => f.ret < f'.ret) ∧
      (∀ f ∈ (g.frames id).dropLast, f.isBottom = false) ∧
      (∀ f ∈ g.frames id, f.parent < id ∨ id = StackId.empty ∧ f = Frame.bottom) ∧
      IsGreatest {n | ∃ γ ∈ g.callStacks id, γ.length = n} (g.depth id) ∧ g.depth id ≤ maxDepth) ∧
    (∀ a < g.size, ∀ b < g.size, g.frames a = g.frames b → a = b) ∧
    g.size ≤ max maxNodes 1 ∧
    (∀ g', g.Reaches (emptyReturn + 1) g' → ∀ id < g.size, id < g'.size ∧
      g'.frames id = g.frames id ∧ g'.depth id = g.depth id ∧ g'.callStacks id = g.callStacks id) ∧
    ∀ c : GraphCall, c.Proper (emptyReturn + 1) g →
      match c.perform.run g with
      | .ok id g' => id < g'.size
      | .error e g' => ∃ id h, Ample c.perform g id h ∧ g.Extends g' ∧ g'.Extends h ∧
          g'.Refused h e := by
  have hlayered := h.layered (withLimits_sound maxNodes maxDepth).layered
  have hextends := h.extends
  refine ⟨fun id hid => ⟨hlayered.ne_nil id hid, hlayered.ascending id,
    fun f => hlayered.isBottom_of_mem_dropLast, fun f hf => ?_, ⟨?_, ?_⟩, ?_⟩, hlayered.unique, ?_,
    fun g' hg' id hid => ?_, fun c hc => ?_⟩
  · by_cases hempty : id = StackId.empty
    · subst hempty
      rw [hlayered.bottom, List.mem_singleton] at hf
      exact .inr ⟨rfl, hf⟩
    · exact .inl (hlayered.parent_lt id hempty f hf)
  · obtain ⟨γ, hγ, hlength⟩ := hlayered.exists_longest hid
    exact ⟨γ, hlayered.mem_callStacks.mpr hγ, hlength⟩
  · rintro n ⟨γ, hγ, rfl⟩
    exact (hlayered.depth_le_iff hid).mp le_rfl γ (hlayered.mem_callStacks.mp hγ)
  · have hdepth : g.maxDepth = maxDepth := hextends.maxDepth_eq
    exact hdepth ▸ hlayered.depth_le id hid
  · have hnodes : g.maxNodes = max maxNodes 1 := hextends.maxNodes_eq
    exact hnodes ▸ hlayered.size_le
  · have hlater := hg'.extends
    exact ⟨hid.trans_le hlater.size_le, hlater.frames_eq hid, hlater.depth_eq hid,
      hlater.callStacks_eq hlayered hid⟩
  · obtain ⟨a, k, -, hample, hrun⟩ := call_ceiled c g
    cases hc' : c.perform.run g with
    | ok id g' => exact ((call_layers hlayered hc).apply hc').2.2
    | error e g' =>
      rw [hc'] at hrun
      exact ⟨a, k, hample, hrun⟩

/-- A graph of at most three nodes, of which the second is above the first one, after two calls that
were refused. -/
def crowded : StackGraph :=
  GraphCall.leavesAll [.push 0 5, .push 1 7, .push 0 6, .push 2 8] (withLimits 3 2)

/-- Three nodes are all there are, no stack is longer than two, and a merge of the two others is
refused the fourth node that it would have made. -/
theorem crowded_refuses : (withLimits 3 2).Reaches (emptyReturn + 1) crowded ∧
    crowded.size ≤ 3 ∧ crowded.depth 2 ≤ 2 ∧
      ∃ e g', (merge 1 2 false).run crowded = .error e g' ∧ e = ⟨.arenaNodes, 3, 4⟩ ∧
        ∃ id h, Ample (merge 1 2 false) crowded id h ∧ crowded.Extends g' ∧ g'.Extends h ∧
          g'.Refused h e := by
  have hreaches : (withLimits 3 2).Reaches (emptyReturn + 1) crowded :=
    reaches_leavesAll (by decide +kernel)
  obtain ⟨hnodes, -, hsize, -, hcalls⟩ := reaches_within_ceilings hreaches
  have hmerge := hcalls (.merge 1 2 false) (by decide +kernel)
  refine ⟨hreaches, hsize, (hnodes 2 (by decide +kernel)).2.2.2.2.2, ?_⟩
  have hrefusal : (match (merge 1 2 false).run crowded with
      | .ok _ _ => none
      | .error e _ => some e) = some (⟨.arenaNodes, 3, 4⟩ : Exceeded) := by decide +kernel
  change match (merge 1 2 false).run crowded with
    | .ok id g' => id < g'.size
    | .error e g' => _ at hmerge
  cases hrun : (merge 1 2 false).run crowded with
  | ok id g' => simp [hrun] at hrefusal
  | error e g' =>
    rw [hrun] at hmerge hrefusal
    exact ⟨e, g', rfl, Option.some.inj hrefusal, hmerge⟩

/-! ## Graphs without numbers left -/

private theorem Sound.depth_empty (hg : g.Sound) : g.depth StackId.empty = 0 := by
  rw [hg.depth_eq _ hg.empty_lt, hg.bottom]
  simp [depthOf]

private theorem depthOf_push_empty {ret : Nat} (hempty : g.depth StackId.empty = 0)
    (hret : ret < emptyReturn) : g.depthOf [⟨ret, StackId.empty⟩] = 1 := by
  have hbot : (⟨ret, StackId.empty⟩ : Frame).isBottom = false := by
    simp [Frame.isBottom, Nat.ne_of_lt hret]
  simp [depthOf, hbot, hempty]

/-- A return state that is new on the empty stack takes a node, if there is room for one. -/
private theorem run_push_empty {ret : Nat} (hempty : g.depth StackId.empty = 0)
    (hdepth : 0 < g.maxDepth) (hret : ret < emptyReturn)
    (hnew : ∀ id < g.size, g.frames id ≠ [⟨ret, StackId.empty⟩]) :
    (push StackId.empty ret).run g =
      if g.capacity ≤ g.size then .error ⟨.arenaNodes, g.maxNodes, g.size + 1⟩ g
      else .ok g.size (g.extend [⟨ret, StackId.empty⟩]) := by
  have hone := depthOf_push_empty hempty hret
  have hintern := intern_interned g [⟨ret, StackId.empty⟩]
  change (intern _).run g = _
  generalize (intern [⟨ret, StackId.empty⟩]).run g = outcome at hintern ⊢
  cases hintern with
  | found hid hframes => exact absurd hframes (hnew _ hid)
  | tooDeep _ hdeep => exact absurd hdepth (by omega)
  | full _ _ hfull => exact (if_pos hfull).symm
  | added _ _ hroom => exact (if_neg (Nat.not_le_of_lt hroom)).symm

/-- **A graph can be filled:** one return state after the other is pushed on the empty stack until
there is no room. -/
private theorem exists_reaches_size (maxNodes : Nat) {maxDepth n : Nat} (hdepth : 0 < maxDepth)
    (hn : n < (withLimits maxNodes maxDepth).capacity) :
    ∃ g, (withLimits maxNodes maxDepth).Reaches emptyReturn g ∧ g.size = n + 1 ∧
      ∀ ret, n ≤ ret → ret < emptyReturn → ∀ id < g.size,
        g.frames id ≠ [⟨ret, StackId.empty⟩] := by
  have hsound := withLimits_sound maxNodes maxDepth
  induction n with
  | zero =>
    refine ⟨_, .refl, rfl, fun ret _ hret id hid hframes => ?_⟩
    obtain rfl : id = StackId.empty := Nat.lt_one_iff.mp hid
    rw [hsound.bottom] at hframes
    cases hframes
    exact Nat.lt_irrefl _ hret
  | succ n ih =>
    obtain ⟨g, hreaches, hsize, hnew⟩ := ih (Nat.lt_of_succ_lt hn)
    have hgrown := hreaches.grown hsound
    -- There are more return states than nodes can have numbers.
    have hret : n < emptyReturn := by
      have hids : (withLimits maxNodes maxDepth).capacity ≤ Limits.stackIds := Nat.min_le_right ..
      have hwords : Limits.stackIds < emptyReturn := by decide
      omega
    have hroom : ¬g.capacity ≤ g.size := by
      rw [hgrown.capacity_eq, hsize]
      exact Nat.not_le_of_lt hn
    have hrun := run_push_empty hgrown.sound.depth_empty (hgrown.maxDepth_eq ▸ hdepth) hret
      (hnew n le_rfl hret)
    rw [if_neg hroom] at hrun
    have hproper : (GraphCall.push StackId.empty n).Proper emptyReturn g :=
      ⟨fun id hid => List.mem_singleton.mp hid ▸ hgrown.sound.empty_lt,
        fun r hr => List.mem_singleton.mp hr ▸ hret⟩
    have hleaves : (GraphCall.push StackId.empty n).leaves g = g.extend [⟨n, StackId.empty⟩] :=
      GraphCall.leaves_of_ok hrun
    refine ⟨_, hleaves ▸ hreaches.call hproper, by rw [size_extend, hsize], ?_⟩
    intro ret hle hlt id hid
    rw [frames_extend]
    split
    · intro hframes
      cases hframes
      exact Nat.not_succ_le_self _ hle
    · exact hnew ret (Nat.le_of_succ_le hle) hlt id (by rw [size_extend] at hid; omega)

/-- **Two exceptions.** The frame of the empty stack leads to the node that holds it, which is not
older than itself. And where one node more is allowed than there are numbers, it is refused although
it is neither too deep nor one too many. -/
theorem growth_exceptions :
    ((withLimits 3 2).Reaches emptyReturn (withLimits 3 2) ∧
      StackId.empty < (withLimits 3 2).size ∧
        ∃ f ∈ (withLimits 3 2).frames StackId.empty, ¬f.parent < StackId.empty) ∧
    ∃ g, (withLimits (Limits.stackIds + 1) 1).Reaches emptyReturn g ∧
      ∃ ret < emptyReturn, (push StackId.empty ret).run g =
        .error ⟨.arenaNodes, Limits.stackIds + 1, Limits.stackIds + 1⟩ g ∧
      ∃ id h, Ample (push StackId.empty ret) g id h ∧
        h.size ≤ Limits.stackIds + 1 ∧ ∀ id < h.size, h.depth id ≤ 1 := by
  refine ⟨⟨.refl, by decide, Frame.bottom, by decide, by decide⟩, ?_⟩
  have hroom : Limits.stackIds - 1 < (withLimits (Limits.stackIds + 1) 1).capacity := by decide
  obtain ⟨g, hreaches, hsize, hnew⟩ := exists_reaches_size (Limits.stackIds + 1) Nat.one_pos hroom
  have hret : Limits.stackIds < emptyReturn := by decide
  have hgrown := hreaches.grown (withLimits_sound _ _)
  have hfull : g.capacity = g.size := hgrown.capacity_eq.trans (hsize ▸ by decide)
  have hfresh := hnew _ (Nat.sub_le ..) hret
  have hempty := hgrown.sound.depth_empty
  have hdepth : g.maxDepth = 1 := hgrown.maxDepth_eq
  have hnodes : g.maxNodes = Limits.stackIds + 1 := hgrown.maxNodes_eq
  refine ⟨g, hreaches, Limits.stackIds, hret, ?_, g.size,
    g.extend [⟨Limits.stackIds, StackId.empty⟩], ⟨g.size + 1, 1, fun N hN I hI D hD => ?_⟩, ?_,
    fun id hid => ?_⟩
  · rw [run_push_empty hempty (hdepth ▸ Nat.one_pos) hret hfresh, if_pos hfull.le, hnodes, hsize]
    rfl
  · have hlt : g.size < min N I := lt_min hN hI
    exact (run_push_empty (g := g.withRoom N I D) hempty hD hret hfresh).trans
      (if_neg (Nat.not_le_of_lt hlt))
  · rw [size_extend, hsize]
    decide
  · rw [depth_extend]
    split
    · exact (depthOf_push_empty hempty hret).le
    · have hold : id < g.size := by rw [size_extend] at hid; omega
      exact hdepth ▸ hgrown.sound.depth_le id hold

end StackGraph

end AdaptiveLL
