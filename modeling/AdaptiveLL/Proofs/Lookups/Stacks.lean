import AdaptiveLL.Probe
import AdaptiveLL.Proofs.Lookups.Strict
import AdaptiveLL.Proofs.Network.Passing
import AdaptiveLL.Proofs.Stacks.Merge

/-!
# Lookups in the graph of stacks

Growing a graph of stacks looks up nodes: the two that are merged, and the parents of a new one. In
a graph *in range* every parent is a node and every return state a state, so these lookups find
their nodes, and the graph that they leave is in range again.
-/

namespace AdaptiveLL

/-- The state of a number that has one. -/
theorem Network.getElem?_states {net : Network} {q : StateId} (hq : q < net.states.size) :
    net.states[q]? = some (net.state q) := by
  simp [state, hq]

/-- A growing step as a run. -/
def Growing.toRun {α : Type} (m : Growing α) : Run Exceeded StackGraph α :=
  Run.ofStep fun g =>
    match m.run g with
    | .ok a g => (.ok a, g)
    | .error e g => (.error e, g)

/-- A strict step on the graph of stacks. -/
abbrev StrictGrowing := Run (Stop Exceeded) StackGraph

/-- A strict computation on configurations. -/
abbrev StrictProbe := Run (Stop Exceeded) Trail

/-- A strict step on the graph of a trail. -/
def StrictProbe.grow {α : Type} (m : StrictGrowing α) : StrictProbe α :=
  m.zoom Trail.graph fun g t => { t with graph := g }

namespace Growing

variable {α β : Type}

@[simp] theorem toRun_bind (m : Growing α) (f : α → Growing β) :
    toRun (m >>= f) = toRun m >>= fun a => toRun (f a) := by
  funext g
  change (toRun (m >>= f)).from? g = (toRun m >>= fun a => toRun (f a)).from? g
  rw [Run.from?_bind]
  have hrun : (m >>= f).run g = match m.run g with
      | .ok a g => (f a).run g
      | .error e g => .error e g := by
    change EStateM.bind m f g = _
    unfold EStateM.bind EStateM.run
    cases m g <;> rfl
  unfold toRun
  rw [Run.from?_ofStep, Run.from?_ofStep, hrun]
  cases m.run g <;> rfl

@[simp] theorem toRun_get_bind (f : StackGraph → Growing β) :
    toRun (get >>= f) = get >>= fun g => toRun (f g) := toRun_bind _ _

@[simp] theorem toRun_foldlM (f : β → α → Growing β) (l : List α) (b : β) :
    toRun (l.foldlM f b) = l.foldlM (fun b a => toRun (f b a)) b := by
  induction l generalizing b with
  | nil => rfl
  | cons a l ih => simp [ih]

end Growing

/-- A growing step of a probe is the step on the graph of its trail. -/
theorem Probe.grow_eq {α : Type} (m : Growing α) :
    Probe.grow m = m.toRun.zoom Trail.graph fun g t => { t with graph := g } := by
  funext t
  change (Probe.grow m).from? t =
    (m.toRun.zoom Trail.graph fun g (t : Trail) => { t with graph := g }).from? t
  rw [Probe.grow, Growing.toRun, Run.from?_zoom, Run.from?_ofStep, Run.from?_ofStep]
  cases m.run t.graph <;> rfl

namespace StackGraph

/-! ## Strict steps -/

/-- The frames of a node, which has to be there. -/
def framesAt (id : StackId) : StrictGrowing (List Frame) := do
  Run.lookup ((← get).nodes[id]?.map StackNode.frames)

/-- Interns frames. The depth of a new node is read off the parents of its frames. -/
def strictIntern (fs : List Frame) : StrictGrowing StackId := do
  let g ← get
  match g.nodes.findIdx? (·.frames = fs) with
  | some id => pure id
  | none =>
    Run.lookupAll ((fs.filter (!·.isBottom)).map fun f => g.nodes[f.parent]?)
    (intern fs).toRun.strictly

def strictPush (parent : StackId) (ret : Nat) : StrictGrowing StackId :=
  strictIntern [⟨ret, parent⟩]

def strictPushAll (parent : StackId) : List Nat → StrictGrowing StackId
  | [] => pure parent
  | ret :: rest => do strictPushAll (← strictPush parent ret) rest

def strictOfCallers (net : Network) (callers : List StateId) : StrictGrowing StackId :=
  strictPushAll StackId.empty (callers.filterMap fun s => (net.state s).transitions.head?.bind
    Transition.follow?)

def strictMergeInto (mergeParents : StackId → StackId → StrictGrowing StackId) (l : Frame)
    (ls : List Frame) (others : List Frame → StrictGrowing (List Frame)) :
    List Frame → StrictGrowing (List Frame)
  | [] => pure (l :: ls)
  | r :: rs =>
    if l.ret = r.ret then do
      let parent ← if l.parent = r.parent then pure l.parent else mergeParents l.parent r.parent
      let rest ← others rs
      pure (⟨l.ret, parent⟩ :: rest)
    else if l.ret < r.ret then do
      let rest ← others (r :: rs)
      pure (l :: rest)
    else do
      let rest ← strictMergeInto mergeParents l ls others rs
      pure (r :: rest)

def strictMergeFrames (mergeParents : StackId → StackId → StrictGrowing StackId) :
    List Frame → List Frame → StrictGrowing (List Frame)
  | [], right => pure right
  | l :: ls, right => strictMergeInto mergeParents l ls (strictMergeFrames mergeParents ls) right

def strictMergeWithin (wild : Bool) : Nat → StackId → StackId → StrictGrowing StackId
  | 0, a, _ => pure a
  | fuel + 1, a, b =>
    if a = b then pure a
    else if wild && (a == StackId.empty || b == StackId.empty) then pure StackId.empty
    else do
      let left ← framesAt a
      let right ← framesAt b
      let fs ← strictMergeFrames (strictMergeWithin wild fuel) left right
      strictIntern fs

/-- Merges two nodes, both of which have to be there unless one of them is the answer. -/
def strictMerge (a b : StackId) (wild : Bool) : StrictGrowing StackId :=
  strictMergeWithin wild (a + b + 1) a b

end StackGraph

/-! ## Graphs in range -/

/-- A frame over a node of a graph, with a state to go on at. -/
def Frame.InRange (states size : Nat) (f : Frame) : Prop :=
  f.parent < size ∧ (f.isBottom = false → f.ret < states)

theorem Frame.InRange.mono {states size size' : Nat} {f : Frame} (h : f.InRange states size)
    (hle : size ≤ size') : f.InRange states size' :=
  ⟨Nat.lt_of_lt_of_le h.1 hle, h.2⟩

namespace StackGraph

/-- **A graph in range:** it has the empty stack, and its frames lead to nodes and to states. -/
structure InRange (states : Nat) (g : StackGraph) : Prop where
  empty_lt : StackId.empty < g.size
  frames : ∀ id, ∀ f ∈ g.frames id, f.InRange states g.size

/-- What steps on a graph keep. -/
def scope (states : Nat) : Scope StackGraph := ⟨InRange states, size⟩

theorem withLimits_inRange (states maxNodes maxDepth : Nat) :
    (withLimits maxNodes maxDepth).InRange states := by
  have hsound := withLimits_sound maxNodes maxDepth
  refine ⟨hsound.empty_lt, fun id f hf => ?_⟩
  have hid : id = StackId.empty := by
    have hlt : id < 1 := lt_size_of_mem_frames hf
    exact Nat.lt_one_iff.mp hlt
  rw [hid, hsound.bottom, List.mem_singleton] at hf
  subst hf
  exact ⟨hsound.empty_lt, by simp⟩

section

variable {states : Nat} {g : StackGraph}

theorem InRange.push (hg : g.InRange states) {fs : List Frame}
    (hfs : ∀ f ∈ fs, f.InRange states g.size) (depth : Nat) :
    ({ g with nodes := g.nodes.push ⟨fs, depth⟩ } : StackGraph).InRange states := by
  have hsize : ({ g with nodes := g.nodes.push ⟨fs, depth⟩ } : StackGraph).size = g.size + 1 := by
    simp [size]
  have hle := Nat.le_succ g.size
  refine ⟨hsize ▸ Nat.lt_succ_of_lt hg.empty_lt, fun id f hf => hsize ▸ ?_⟩
  rw [frames_push] at hf
  split at hf
  · exact (hfs f hf).mono hle
  · exact (hg.frames id f hf).mono hle

/-- **A node that is there is found.** -/
theorem from?_framesAt {id : StackId} (hid : id < g.size) :
    (framesAt id).from? g = some (.ok (g.frames id), g) := by
  have hentry : g.nodes[id]?.map StackNode.frames = some (g.frames id) := by
    simp [frames, Array.getElem?_eq_getElem hid]
  rw [framesAt, Run.from?_bind, Run.from?_get]
  simp [hentry]

theorem framesAt_bind {α : Type} {f' : List Frame → StrictGrowing α} {m : Run Exceeded StackGraph α}
    {P : α → Nat → Prop} {id : StackId} (hid : id < g.size)
    (h : (scope states).Safe (f' (g.frames id)) m g P) :
    (scope states).Safe (framesAt id >>= f') m g P := by
  refine ⟨?_, h.ensures⟩
  rw [Run.from?_bind, from?_framesAt hid]
  exact h.from?_eq

/-- Interning leaves a graph in range, and answers one of its nodes. -/
private theorem intern_ensures (hg : g.InRange states) {fs : List Frame}
    (hfs : ∀ f ∈ fs, f.InRange states g.size) :
    (intern fs).toRun.Ensures g fun r g' => g'.InRange states ∧ g.size ≤ g'.size ∧
      ∀ id, r = .ok id → id < g'.size := by
  refine .of_eq (Run.from?_ofStep ..) ?_
  have hintern := intern_interned g fs
  generalize (intern fs).run g = outcome at hintern ⊢
  cases hintern with
  | found hid => exact ⟨hg, le_rfl, fun _ h => Except.ok.inj h ▸ hid⟩
  | tooDeep => exact ⟨hg, le_rfl, nofun⟩
  | full => exact ⟨hg, le_rfl, nofun⟩
  | added =>
    refine ⟨hg.push hfs _, size_extend ▸ Nat.le_succ _, fun id h => ?_⟩
    rw [← Except.ok.inj h, size_extend]
    exact Nat.lt_succ_self _

/-- **Interning finds the parents of its frames.** -/
theorem strictIntern_safe (hg : g.InRange states) {fs : List Frame}
    (hfs : ∀ f ∈ fs, f.InRange states g.size) :
    (scope states).Safe (strictIntern fs) (intern fs).toRun g fun id k => id < k := by
  have hparents : ∀ entry ∈ (fs.filter (!·.isBottom)).map fun f => g.nodes[f.parent]?,
      entry.isSome = true := by
    intro entry hentry
    obtain ⟨f, hf, rfl⟩ := List.mem_map.mp hentry
    have hlt : f.parent < g.nodes.size := (hfs f (List.mem_of_mem_filter hf)).1
    simp [hlt]
  have hplain : (scope states).Safe (intern fs).toRun.strictly (intern fs).toRun g
    fun id k => id < k := Run.Agrees.strictly (intern_ensures hg hfs)
  refine ⟨?_, hplain.ensures⟩
  unfold strictIntern
  -- Frames that are interned already are found without a look at their parents.
  rw [Run.from?_bind, Run.from?_get]
  dsimp only [Option.bind_some]
  cases hfind : g.nodes.findIdx? (·.frames = fs) with
  | some id =>
    rw [Run.from?_strictly, Growing.toRun, Run.from?_ofStep]
    simp [intern, EStateM.run, hfind, Except.mapError]
  | none => exact (Scope.Safe.lookupAll_bind hparents hplain).from?_eq

theorem strictPush_safe (hg : g.InRange states) {parent : StackId} {ret : Nat}
    (hparent : parent < g.size) (hret : ret < states) :
    (scope states).Safe (strictPush parent ret) (push parent ret).toRun g fun id k => id < k := by
  apply strictIntern_safe hg
  simpa using ⟨hparent, fun _ => hret⟩

theorem strictPushAll_safe {rets : List Nat} (hg : g.InRange states) {parent : StackId}
    (hparent : parent < g.size) (hrets : ∀ r ∈ rets, r < states) :
    (scope states).Safe (strictPushAll parent rets) (pushAll parent rets).toRun g
      fun id k => id < k := by
  induction rets generalizing g parent with
  | nil => exact .pure hg hparent
  | cons ret rets ih =>
    rw [strictPushAll, pushAll, Growing.toRun_bind]
    refine (strictPush_safe hg hparent (hrets ret List.mem_cons_self)).bind
      fun id g' hg' _ hid => ?_
    exact ih hg' hid fun r hr => hrets r (List.mem_cons_of_mem _ hr)

/-- The stack of a parse is made of follow states. -/
theorem strictOfCallers_safe {net : Network} (hnet : net.Consistent)
    (hg : g.InRange net.states.size) (callers : List StateId) :
    (scope net.states.size).Safe (strictOfCallers net callers) (ofCallers net callers).toRun g
      fun id k => id < k := by
  refine strictPushAll_safe hg hg.empty_lt fun r hr => ?_
  obtain ⟨q, -, hq⟩ := List.mem_filterMap.mp hr
  obtain ⟨t, ht, hfollow⟩ := Option.bind_eq_some_iff.mp hq
  have hmem : t ∈ (net.state q).transitions := List.mem_of_mem_head? ht
  cases t with
  | rule target rule follow level =>
    cases hfollow
    exact hnet.follow_lt q target rule _ level hmem
  | _ => cases hfollow

/-! ## Merging -/

/-- Frames in range are merged into frames in range, given that their parents are. -/
private def MergesInRange (states : Nat) (merge' : StackId → StackId → StrictGrowing StackId)
    (merge : StackId → StackId → Growing StackId) : Prop :=
  ∀ g a b, g.InRange states → a < g.size → b < g.size →
    (scope states).Safe (merge' a b) (merge a b).toRun g fun id k => id < k

private theorem strictMergeInto_safe {merge' : StackId → StackId → StrictGrowing StackId}
    {merge : StackId → StackId → Growing StackId} (hmerge : MergesInRange states merge' merge)
    {l : Frame} {ls rs : List Frame} {others' : List Frame → StrictGrowing (List Frame)}
    {others : List Frame → Growing (List Frame)} (hg : g.InRange states)
    (hl : ∀ f ∈ l :: ls, f.InRange states g.size) (hr : ∀ f ∈ rs, f.InRange states g.size)
    (hothers : ∀ g rs, g.InRange states → (∀ f ∈ ls, f.InRange states g.size) →
      (∀ f ∈ rs, f.InRange states g.size) → (scope states).Safe (others' rs) (others rs).toRun g
        fun fs k => ∀ f ∈ fs, f.InRange states k) :
    (scope states).Safe (strictMergeInto merge' l ls others' rs)
      (mergeInto merge l ls others rs).toRun g fun fs k => ∀ f ∈ fs, f.InRange states k := by
  have hhead := hl l List.mem_cons_self
  have htail : ∀ f ∈ ls, f.InRange states g.size := fun f hf => hl f (List.mem_cons_of_mem _ hf)
  induction rs with
  | nil => exact .pure hg hl
  | cons r rs ih =>
    have hr₁ := hr r List.mem_cons_self
    have hrs : ∀ f ∈ rs, f.InRange states g.size := fun f hf => hr f (List.mem_cons_of_mem _ hf)
    by_cases hret : l.ret = r.ret
    · have hstrict : strictMergeInto merge' l ls others' (r :: rs) =
          ((if l.parent = r.parent then pure l.parent else merge' l.parent r.parent) >>= fun p =>
            others' rs >>= fun rest => pure (⟨l.ret, p⟩ :: rest)) := by
        rw [strictMergeInto, if_pos hret]
        split <;> rfl
      rw [hstrict, mergeInto_of_ret_eq hret, Growing.toRun_bind]
      -- The parents are merged first, so the other frames are merged in a larger graph.
      refine Scope.Safe.bind (P := fun id k => id < k) ?_ fun p g₁ hg₁ hle₁ hp => ?_
      · split
        · exact .pure hg hhead.1
        · exact hmerge g l.parent r.parent hg hhead.1 hr₁.1
      rw [Growing.toRun_bind]
      refine (hothers g₁ rs hg₁ (fun f hf => (htail f hf).mono hle₁)
        fun f hf => (hrs f hf).mono hle₁).bind fun fs g₂ hg₂ hle₂ hfs => .pure hg₂ ?_
      exact List.forall_mem_cons.mpr ⟨⟨Nat.lt_of_lt_of_le hp hle₂, hhead.2⟩, hfs⟩
    rw [strictMergeInto, mergeInto, if_neg hret, if_neg hret]
    split
    · rw [Growing.toRun_bind]
      refine (hothers g (r :: rs) hg htail hr).bind fun fs g' hg' hle hfs => .pure hg' ?_
      exact List.forall_mem_cons.mpr ⟨hhead.mono hle, hfs⟩
    · rw [Growing.toRun_bind]
      refine (ih hrs).bind fun fs g' hg' hle hfs => .pure hg' ?_
      exact List.forall_mem_cons.mpr ⟨hr₁.mono hle, hfs⟩

private theorem strictMergeFrames_safe {merge' : StackId → StackId → StrictGrowing StackId}
    {merge : StackId → StackId → Growing StackId} (hmerge : MergesInRange states merge' merge)
    {ls rs : List Frame} (hg : g.InRange states) (hl : ∀ f ∈ ls, f.InRange states g.size)
    (hr : ∀ f ∈ rs, f.InRange states g.size) :
    (scope states).Safe (strictMergeFrames merge' ls rs) (mergeFrames merge ls rs).toRun g
      fun fs k => ∀ f ∈ fs, f.InRange states k := by
  induction ls generalizing g rs with
  | nil => exact .pure hg hr
  | cons l ls ih =>
    exact strictMergeInto_safe hmerge hg hl hr fun g' rs' hg' hl' hr' => ih hg' hl' hr'

private theorem strictMergeWithin_safe (wild : Bool) (fuel : Nat) :
    MergesInRange states (strictMergeWithin wild fuel) (mergeWithin wild fuel) := by
  -- Nodes are merged with the fuel that is left for their parents.
  induction fuel with
  | zero => exact fun g a b hg ha _ => .pure hg ha
  | succ fuel ih =>
    intro g a b hg ha hb
    rw [strictMergeWithin, mergeWithin]
    split
    · exact .pure hg ha
    split
    · exact .pure hg hg.empty_lt
    rw [Growing.toRun_get_bind]
    refine framesAt_bind ha (framesAt_bind hb (.reads ?_))
    rw [Growing.toRun_bind]
    refine (strictMergeFrames_safe ih hg (hg.frames a) (hg.frames b)).bind fun fs g' hg' _ hfs => ?_
    exact strictIntern_safe hg' hfs

/-- **Merging two nodes finds all nodes on its way.** -/
theorem strictMerge_safe (hg : g.InRange states) {a b : StackId} (ha : a < g.size) (hb : b < g.size)
    (wild : Bool) :
    (scope states).Safe (strictMerge a b wild) (merge a b wild).toRun g fun id k => id < k :=
  strictMergeWithin_safe wild _ g a b hg ha hb

end

end StackGraph

end AdaptiveLL
