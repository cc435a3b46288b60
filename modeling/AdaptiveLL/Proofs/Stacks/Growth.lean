import AdaptiveLL.StackGraph
import Mathlib.Data.Set.Basic
import Mathlib.Data.List.Pairwise
import Mathlib.Data.List.Sort

/-!
# Graphs of stacks that grow

A graph of stacks is *sound* if its nodes are what interning makes of them: frames ascend, parents
are older than their children, no two nodes have the same frames, and no stack is longer than the
graph allows. Every step on a sound graph leaves a sound graph that has grown: the nodes there were
are what they were. The stacks of a node are a set, which growth does not change, and in a sound
graph the set tells the node.

Frames may also be interned that have the return state of the empty stack and other callers than
none. Then the graph is merely *layered*: all of the above holds but that the set tells the node.
-/

namespace AdaptiveLL

/-- What a stack meets that is one frame too long. -/
def Exceeded.tooLong (depth : Nat) : Exceeded := ⟨.contextDepth, depth, depth + 1⟩

namespace StackGraph

/-! ## Sound graphs -/

/-- **A graph as interning makes it.** -/
structure Sound (g : StackGraph) : Prop where
  bottom : g.frames StackId.empty = [Frame.bottom]
  room : g.size ≤ g.capacity
  ne_nil : ∀ id < g.size, g.frames id ≠ []
  ascending : ∀ id, (g.frames id).Pairwise fun f f' => f.ret < f'.ret
  parent_lt : ∀ id, ∀ f ∈ g.frames id, f.isBottom = false → f.parent < id
  closed : ∀ id, ∀ f ∈ g.frames id, f.isBottom = true → f = Frame.bottom
  ret_le : ∀ id, ∀ f ∈ g.frames id, f.ret ≤ emptyReturn
  unique : ∀ a < g.size, ∀ b < g.size, g.frames a = g.frames b → a = b
  depth_eq : ∀ id < g.size, g.depth id = g.depthOf (g.frames id)
  depth_le : ∀ id < g.size, g.depth id ≤ g.maxDepth

/-- **A graph as interning makes it whatever the return states are:** frames may have the return
state of the empty stack and any callers. -/
structure Layered (g : StackGraph) : Prop where
  bottom : g.frames StackId.empty = [Frame.bottom]
  room : g.size ≤ g.capacity
  ne_nil : ∀ id < g.size, g.frames id ≠ []
  ascending : ∀ id, (g.frames id).Pairwise fun f f' => f.ret < f'.ret
  parent_lt : ∀ id ≠ StackId.empty, ∀ f ∈ g.frames id, f.parent < id
  ret_le : ∀ id, ∀ f ∈ g.frames id, f.ret ≤ emptyReturn
  unique : ∀ a < g.size, ∀ b < g.size, g.frames a = g.frames b → a = b
  depth_eq : ∀ id < g.size, g.depth id = g.depthOf (g.frames id)
  depth_le : ∀ id < g.size, g.depth id ≤ g.maxDepth

theorem frames_eq_nil_of_size_le {g : StackGraph} {id : StackId} (h : g.size ≤ id) :
    g.frames id = [] := by
  have hnone : g.nodes[id]? = none := Array.getElem?_eq_none h
  rw [frames, hnone]
  rfl

theorem lt_size_of_mem_frames {g : StackGraph} {id : StackId} {f : Frame}
    (h : f ∈ g.frames id) : id < g.size := by
  by_contra hle
  rw [frames_eq_nil_of_size_le (Nat.le_of_not_lt hle)] at h
  cases h

theorem Sound.size_pos {g : StackGraph} (hg : g.Sound) : 0 < g.size := by
  have hmem : Frame.bottom ∈ g.frames StackId.empty := by simp [hg.bottom]
  exact lt_size_of_mem_frames hmem

theorem Sound.empty_lt {g : StackGraph} (hg : g.Sound) : StackId.empty < g.size := hg.size_pos

@[simp] theorem isBottom_bottom : Frame.bottom.isBottom = true := by
  simp [Frame.isBottom, Frame.bottom]

theorem Sound.layered {g : StackGraph} (hg : g.Sound) : g.Layered where
  bottom := hg.bottom
  room := hg.room
  ne_nil := hg.ne_nil
  ascending := hg.ascending
  parent_lt id hid f hf := by
    cases hbot : f.isBottom with
    | false => exact hg.parent_lt id f hf hbot
    | true =>
      rw [hg.closed id f hf hbot]
      exact Nat.pos_of_ne_zero hid
  ret_le := hg.ret_le
  unique := hg.unique
  depth_eq := hg.depth_eq
  depth_le := hg.depth_le

theorem Layered.size_le {g : StackGraph} (hg : g.Layered) : g.size ≤ g.maxNodes :=
  hg.room.trans (Nat.min_le_left ..)

/-- The callers of a frame that is a call are older than its node. -/
theorem Layered.call_lt {g : StackGraph} (hg : g.Layered) {id : StackId} {f : Frame}
    (hf : f ∈ g.frames id) (hbot : f.isBottom = false) : f.parent < id := by
  refine hg.parent_lt id ?_ f hf
  rintro rfl
  rw [hg.bottom, List.mem_singleton] at hf
  simp [hf] at hbot

/-- A layered graph is sound if the empty stack has no callers. -/
theorem Layered.sound {g : StackGraph} (hg : g.Layered)
    (hclosed : ∀ id, ∀ f ∈ g.frames id, f.isBottom = true → f = Frame.bottom) : g.Sound where
  bottom := hg.bottom
  room := hg.room
  ne_nil := hg.ne_nil
  ascending := hg.ascending
  parent_lt _ _ hf hbot := hg.call_lt hf hbot
  closed := hclosed
  ret_le := hg.ret_le
  unique := hg.unique
  depth_eq := hg.depth_eq
  depth_le := hg.depth_le

theorem withLimits_sound (maxNodes maxDepth : Nat) : (withLimits maxNodes maxDepth).Sound := by
  have hframes : ∀ id, (withLimits maxNodes maxDepth).frames id =
      if id = 0 then [Frame.bottom] else [] := by
    intro id
    cases id <;> simp [withLimits, frames]
  have hsize : (withLimits maxNodes maxDepth).size = 1 := rfl
  have hdepth : ∀ id < 1, (withLimits maxNodes maxDepth).depth id = 0 := by
    intro id hid
    obtain rfl : id = 0 := Nat.lt_one_iff.mp hid
    rfl
  have hmem : ∀ id, ∀ f ∈ (withLimits maxNodes maxDepth).frames id, f = Frame.bottom := by
    intro id f hf
    rw [hframes] at hf
    split at hf
    · exact List.mem_singleton.mp hf
    · cases hf
  have hbottom : Frame.bottom.isBottom = true := rfl
  exact {
    bottom := by simp [hframes, StackId.empty]
    room := by
      have hids : 1 ≤ Limits.stackIds := by decide
      rw [hsize]
      exact Nat.le_min_of_le_of_le (Nat.le_max_right ..) hids
    ne_nil := by
      intro id hid
      have hzero : id = 0 := by omega
      simp [hframes, hzero]
    ascending := by
      intro id
      rw [hframes]
      split <;> simp
    parent_lt := by
      intro id f hf hbot
      rw [hmem id f hf, hbottom] at hbot
      cases hbot
    closed := fun id f hf _ => hmem id f hf
    ret_le := by
      intro id f hf
      rw [hmem id f hf]
      exact Nat.le_refl _
    unique := by
      intro a ha b hb _
      omega
    depth_eq := by
      intro id hid
      have hzero : id = 0 := by omega
      rw [hdepth id hid, hframes, if_pos hzero]
      simp [depthOf]
    depth_le := by
      intro id hid
      rw [hdepth id hid]
      exact Nat.zero_le _ }

/-! ## Growth -/

/-- **The graph has grown** into another one, which is sound. -/
structure Grown (g g' : StackGraph) : Prop where
  sound : g'.Sound
  size_le : g.size ≤ g'.size
  keeps : ∀ id < g.size, g'.frames id = g.frames id
  maxNodes_eq : g'.maxNodes = g.maxNodes
  maxDepth_eq : g'.maxDepth = g.maxDepth
  maxIds_eq : g'.maxIds = g.maxIds

theorem Grown.refl {g : StackGraph} (hg : g.Sound) : g.Grown g :=
  ⟨hg, Nat.le_refl _, fun _ _ => rfl, rfl, rfl, rfl⟩

theorem Grown.trans {g₁ g₂ g₃ : StackGraph} (h : g₁.Grown g₂) (h' : g₂.Grown g₃) :
    g₁.Grown g₃ where
  sound := h'.sound
  size_le := h.size_le.trans h'.size_le
  keeps id hid := (h'.keeps id (Nat.lt_of_lt_of_le hid h.size_le)).trans (h.keeps id hid)
  maxNodes_eq := h'.maxNodes_eq.trans h.maxNodes_eq
  maxDepth_eq := h'.maxDepth_eq.trans h.maxDepth_eq
  maxIds_eq := h'.maxIds_eq.trans h.maxIds_eq

theorem Grown.capacity_eq {g g' : StackGraph} (h : g.Grown g') : g'.capacity = g.capacity := by
  rw [capacity, capacity, h.maxNodes_eq, h.maxIds_eq]

theorem Grown.lt {g g' : StackGraph} (h : g.Grown g') {id : StackId} (hid : id < g.size) :
    id < g'.size := Nat.lt_of_lt_of_le hid h.size_le

/-! ## The stacks of a node -/

/-- The stacks that can be read off a node, innermost return state first. -/
inductive HasStack (g : StackGraph) : StackId → List Nat → Prop where
  | bottom {id : StackId} {f : Frame} :
      f ∈ g.frames id → f.isBottom = true → HasStack g id []
  | frame {id : StackId} {f : Frame} {γ : List Nat} :
      f ∈ g.frames id → f.isBottom = false → HasStack g f.parent γ → HasStack g id (f.ret :: γ)

/-- **The stacks of a node** as a set. -/
def stackSet (g : StackGraph) (id : StackId) : Set (List Nat) := {γ | g.HasStack id γ}

theorem hasStack_nil_iff {g : StackGraph} {id : StackId} :
    g.HasStack id [] ↔ ∃ f ∈ g.frames id, f.isBottom = true := by
  constructor
  · intro h
    cases h with
    | bottom hf hb => exact ⟨_, hf, hb⟩
  · rintro ⟨f, hf, hb⟩
    exact .bottom hf hb

theorem hasStack_cons_iff {g : StackGraph} {id : StackId} {r : Nat} {γ : List Nat} :
    g.HasStack id (r :: γ) ↔
      ∃ f ∈ g.frames id, f.isBottom = false ∧ f.ret = r ∧ g.HasStack f.parent γ := by
  constructor
  · intro h
    cases h with
    | frame hf hb hγ => exact ⟨_, hf, hb, rfl, hγ⟩
  · rintro ⟨f, hf, hb, rfl, hγ⟩
    exact .frame hf hb hγ

/-- The frame of the empty stack comes last. -/
theorem hasEmptyStack_iff {g : StackGraph} (hg : g.Sound) {id : StackId} :
    g.hasEmptyStack id = true ↔ g.HasStack id [] := by
  rw [hasStack_nil_iff, hasEmptyStack]
  rcases List.eq_nil_or_concat (g.frames id) with hnil | ⟨fs, last, hfs⟩
  · simp [hnil]
  · rw [hfs, List.concat_eq_append, List.getLast?_append_of_ne_nil _ (by simp)]
    simp only [List.getLast?_singleton, Option.map_some, Option.getD_some, List.mem_append,
      List.mem_singleton]
    refine ⟨fun h => ⟨last, .inr rfl, h⟩, ?_⟩
    rintro ⟨f, hf | rfl, hbottom⟩
    · have hascending := hg.ascending id
      rw [hfs, List.concat_eq_append, List.pairwise_append] at hascending
      have hlt : f.ret < last.ret := hascending.2.2 f hf last (by simp)
      have hle : last.ret ≤ emptyReturn := hg.ret_le id last (by rw [hfs]; simp)
      have hret : f.ret = emptyReturn := by simpa [Frame.isBottom] using hbottom
      omega
    · exact hbottom

theorem HasStack.lt_size {g : StackGraph} {id : StackId} {γ : List Nat} (h : g.HasStack id γ) :
    id < g.size := by
  cases h with
  | bottom hf _ => exact lt_size_of_mem_frames hf
  | frame hf _ _ => exact lt_size_of_mem_frames hf

/-- Return states of a stack are proper ones. -/
theorem HasStack.ret_lt {g : StackGraph} (hg : g.Sound) {id : StackId} {γ : List Nat}
    (h : g.HasStack id γ) : ∀ r ∈ γ, r < emptyReturn := by
  induction h with
  | bottom => simp
  | @frame id f γ hf hb _ ih =>
    intro r hr
    rcases List.mem_cons.mp hr with rfl | hr
    · have hle := hg.ret_le _ f hf
      have hne : f.ret ≠ emptyReturn := by simpa [Frame.isBottom] using hb
      omega
    · exact ih r hr

/-- Two frames of a node with one return state are one frame. -/
theorem Sound.frame_eq {g : StackGraph} (hg : g.Sound) {id : StackId} {f f' : Frame}
    (hf : f ∈ g.frames id) (hf' : f' ∈ g.frames id) (h : f.ret = f'.ret) : f = f' := by
  have hpair : (g.frames id).Pairwise fun f f' => f.ret ≠ f'.ret :=
    (hg.ascending id).imp fun hlt => Nat.ne_of_lt hlt
  have hsymm : Std.Symm fun f f' : Frame => f.ret ≠ f'.ret := ⟨fun _ _ hab => hab.symm⟩
  by_contra hne
  exact hpair.forall hf hf' hne h

/-- Every node has a stack. -/
theorem Layered.exists_stack {g : StackGraph} (hg : g.Layered) {id : StackId} (hid : id < g.size) :
    ∃ γ, g.HasStack id γ := by
  induction id using Nat.strong_induction_on with
  | _ id ih =>
    obtain ⟨f, fs, hfs⟩ := List.exists_cons_of_ne_nil (hg.ne_nil id hid)
    have hf : f ∈ g.frames id := by simp [hfs]
    cases hb : f.isBottom with
    | true => exact ⟨[], .bottom hf hb⟩
    | false =>
      have hlt := hg.call_lt hf hb
      obtain ⟨γ, hγ⟩ := ih f.parent hlt (hlt.trans hid)
      exact ⟨f.ret :: γ, .frame hf hb hγ⟩

theorem Sound.exists_stack {g : StackGraph} (hg : g.Sound) {id : StackId} (hid : id < g.size) :
    ∃ γ, g.HasStack id γ := hg.layered.exists_stack hid

/-- **The stacks that are read off a node are its stacks.** -/
theorem Layered.mem_callStacks {g : StackGraph} (hg : g.Layered) {id : StackId} {γ : List Nat} :
    γ ∈ g.callStacks id ↔ g.HasStack id γ := by
  -- By induction on the fuel: a frame leads to an older node, so the number of the node is enough.
  have hwithin : ∀ fuel id γ, id < fuel → (γ ∈ g.stacksWithin fuel id ↔ g.HasStack id γ) := by
    intro fuel
    induction fuel with
    | zero => exact fun id γ hid => absurd hid (Nat.not_lt_zero id)
    | succ fuel ih =>
      intro id γ hid
      rw [stacksWithin, List.mem_flatMap]
      constructor
      · rintro ⟨f, hf, hγ⟩
        cases hbot : f.isBottom with
        | true =>
          rw [hbot, if_pos rfl, List.mem_singleton] at hγ
          exact hγ ▸ .bottom hf hbot
        | false =>
          rw [hbot, if_neg Bool.false_ne_true, List.mem_map] at hγ
          obtain ⟨δ, hδ, rfl⟩ := hγ
          have hlt := hg.call_lt hf hbot
          exact .frame hf hbot ((ih f.parent δ (hlt.trans_le (Nat.le_of_lt_succ hid))).mp hδ)
      · intro h
        cases h with
        | @bottom _ f hf hbot => exact ⟨f, hf, by simp [hbot]⟩
        | @frame _ f δ hf hbot hδ =>
          have hlt := hg.call_lt hf hbot
          have hmem := (ih f.parent δ (hlt.trans_le (Nat.le_of_lt_succ hid))).mpr hδ
          exact ⟨f, hf, by simpa [hbot] using hmem⟩
  rw [callStacks, List.mem_mergeSort]
  exact hwithin (id + 1) id γ (Nat.lt_succ_self id)

theorem Sound.stackSet_empty {g : StackGraph} (hg : g.Sound) : g.stackSet StackId.empty = {[]} := by
  ext γ
  constructor
  · intro h
    cases h with
    | bottom => rfl
    | frame hf hb _ =>
      rw [hg.bottom, List.mem_singleton] at hf
      simp [hf] at hb
  · rintro rfl
    exact .bottom (by rw [hg.bottom]; exact List.mem_singleton.mpr rfl) isBottom_bottom

/-- Growth keeps the stacks of a node. -/
theorem Grown.hasStack_iff {g g' : StackGraph} (hg : g.Sound) (h : g.Grown g') {id : StackId}
    (hid : id < g.size) {γ : List Nat} : g'.HasStack id γ ↔ g.HasStack id γ := by
  induction γ generalizing id with
  | nil => rw [hasStack_nil_iff, hasStack_nil_iff, h.keeps id hid]
  | cons r γ ih =>
    rw [hasStack_cons_iff, hasStack_cons_iff, h.keeps id hid]
    refine exists_congr fun f => and_congr_right fun hf => and_congr_right fun hb =>
      and_congr_right fun _ => ih ?_
    exact (hg.parent_lt id f hf hb).trans hid

theorem Grown.stackSet_eq {g g' : StackGraph} (hg : g.Sound) (h : g.Grown g') {id : StackId}
    (hid : id < g.size) : g'.stackSet id = g.stackSet id :=
  Set.ext fun _ => h.hasStack_iff hg hid

/-! ## The depth of a node -/

/-- Frames are as deep as the deepest of their parents, and one frame more. -/
theorem depthOf_le_iff {g : StackGraph} {fs : List Frame} {d : Nat} :
    g.depthOf fs ≤ d ↔ ∀ f ∈ fs, f.isBottom = false → g.depth f.parent < d := by
  have hfold : ∀ n, fs.foldl (fun d f => if f.isBottom then d else max d (g.depth f.parent + 1)) n
      ≤ d ↔ n ≤ d ∧ ∀ f ∈ fs, f.isBottom = false → g.depth f.parent < d := by
    induction fs with
    | nil => simp
    | cons f fs ih =>
      intro n
      rw [List.foldl_cons, ih]
      cases hbot : f.isBottom with
      | true => simp [hbot]
      | false =>
        rw [List.forall_mem_cons, ← and_assoc]
        refine and_congr_left fun _ => ?_
        simp only [hbot, Bool.false_eq_true, ↓reduceIte, forall_const]
        exact Nat.max_le
  simpa [depthOf] using hfold 0

/-- **The depth of a node is the length of its longest stack.** -/
theorem Layered.depth_le_iff {g : StackGraph} (hg : g.Layered) {id : StackId} (hid : id < g.size)
    {d : Nat} : g.depth id ≤ d ↔ ∀ γ, g.HasStack id γ → γ.length ≤ d := by
  induction id using Nat.strong_induction_on generalizing d with
  | _ id ih =>
    rw [hg.depth_eq id hid, depthOf_le_iff]
    constructor
    · intro h γ hγ
      cases hγ with
      | bottom => exact Nat.zero_le d
      | @frame _ f γ hf hbot hγ =>
        have hlt := hg.call_lt hf hbot
        have hparent := (ih f.parent hlt (hlt.trans hid)).mp (Nat.le_sub_one_of_lt (h f hf hbot))
        have hle := hparent γ hγ
        have hpos := h f hf hbot
        rw [List.length_cons]
        omega
    · intro h f hf hbot
      have hlt := hg.call_lt hf hbot
      have hlength : ∀ γ, g.HasStack f.parent γ → γ.length < d := fun γ hγ =>
        h (f.ret :: γ) (.frame hf hbot hγ)
      obtain ⟨γ, hγ⟩ := hg.exists_stack (hlt.trans hid)
      have hpos := hlength γ hγ
      have hle : g.depth f.parent ≤ d - 1 := (ih f.parent hlt (hlt.trans hid)).mpr fun γ hγ =>
        Nat.le_sub_one_of_lt (hlength γ hγ)
      omega

theorem Sound.depth_le_iff {g : StackGraph} (hg : g.Sound) {id : StackId} (hid : id < g.size)
    {d : Nat} : g.depth id ≤ d ↔ ∀ γ, g.HasStack id γ → γ.length ≤ d := hg.layered.depth_le_iff hid

/-- **No stack is longer than the graph allows.** -/
theorem HasStack.length_le {g : StackGraph} (hg : g.Sound) {id : StackId} {γ : List Nat}
    (h : g.HasStack id γ) : γ.length ≤ g.maxDepth :=
  (hg.depth_le_iff h.lt_size).mp (hg.depth_le id h.lt_size) γ h

/-- A node has a stack as long as it is deep. -/
theorem Layered.exists_longest {g : StackGraph} (hg : g.Layered) {id : StackId}
    (hid : id < g.size) : ∃ γ, g.HasStack id γ ∧ γ.length = g.depth id := by
  by_contra hnone
  push Not at hnone
  obtain ⟨γ, hγ⟩ := hg.exists_stack hid
  have hshort : ∀ γ, g.HasStack id γ → γ.length < g.depth id := fun γ hγ =>
    lt_of_le_of_ne ((hg.depth_le_iff hid).mp le_rfl γ hγ) (hnone γ hγ)
  have hpos := hshort γ hγ
  have hle : g.depth id ≤ g.depth id - 1 :=
    (hg.depth_le_iff hid).mpr fun γ hγ => Nat.le_sub_one_of_lt (hshort γ hγ)
  omega

theorem Sound.exists_longest {g : StackGraph} (hg : g.Sound) {id : StackId} (hid : id < g.size) :
    ∃ γ, g.HasStack id γ ∧ γ.length = g.depth id := hg.layered.exists_longest hid

/-! ## The set tells the node -/

private theorem mem_frames_of_stackSet_eq {g g' : StackGraph} (hg : g.Sound) (hg' : g'.Sound)
    {a b : StackId} (hab : g.stackSet a = g'.stackSet b) {f : Frame} (hf : f ∈ g.frames a)
    (hb : f.isBottom = false) :
    ∃ f' ∈ g'.frames b, f'.isBottom = false ∧ f'.ret = f.ret ∧
      g.stackSet f.parent = g'.stackSet f'.parent := by
  have hpar : f.parent < g.size :=
    (hg.parent_lt a f hf hb).trans (lt_size_of_mem_frames hf)
  obtain ⟨γ, hγ⟩ := hg.exists_stack hpar
  have hmem : f.ret :: γ ∈ g'.stackSet b := hab ▸ (HasStack.frame hf hb hγ)
  obtain ⟨f', hf', hb', hret, _⟩ := hasStack_cons_iff.mp hmem
  refine ⟨f', hf', hb', hret, ?_⟩
  ext δ
  constructor
  · intro hδ
    have hmem : f.ret :: δ ∈ g'.stackSet b := hab ▸ (HasStack.frame hf hb hδ)
    obtain ⟨f'', hf'', _, hret', hδ'⟩ := hasStack_cons_iff.mp hmem
    rwa [hg'.frame_eq hf'' hf' (hret'.trans hret.symm)] at hδ'
  · intro hδ
    have hmem : f'.ret :: δ ∈ g.stackSet a := hab.symm ▸ (HasStack.frame hf' hb' hδ)
    obtain ⟨f'', hf'', _, hret', hδ'⟩ := hasStack_cons_iff.mp hmem
    rwa [hg.frame_eq hf'' hf (hret'.trans hret)] at hδ'

/-- Ascending frames are told by which frames they are. -/
theorem eq_of_ascending {fs fs' : List Frame} (h : fs.Pairwise fun f f' => f.ret < f'.ret)
    (h' : fs'.Pairwise fun f f' => f.ret < f'.ret) (hmem : ∀ f, f ∈ fs ↔ f ∈ fs') : fs = fs' := by
  have hnodup : ∀ {fs : List Frame}, fs.Pairwise (fun f f' => f.ret < f'.ret) → fs.Nodup :=
    fun h => h.imp fun hlt heq => by simp [heq] at hlt
  exact List.Perm.eq_of_pairwise (fun x y _ _ hxy hyx => absurd hxy (Nat.not_lt.mpr hyx.le)) h h'
    ((List.perm_ext_iff_of_nodup (hnodup h) (hnodup h')).mpr hmem)

/-- **In a sound graph a node is told by its stacks.** -/
theorem Sound.eq_of_stackSet_eq {g : StackGraph} (hg : g.Sound) {a b : StackId} (ha : a < g.size)
    (hb : b < g.size) (hab : g.stackSet a = g.stackSet b) : a = b := by
  induction a using Nat.strong_induction_on generalizing b with
  | _ a ih =>
    -- Each frame of the one node is a frame of the other: parents are equal by induction.
    have hsub : ∀ f ∈ g.frames a, f ∈ g.frames b := by
      intro f hf
      cases hbot : f.isBottom with
      | true =>
        have hnil : ([] : List Nat) ∈ g.stackSet b := hab ▸ HasStack.bottom hf hbot
        obtain ⟨f', hf', hbot'⟩ := hasStack_nil_iff.mp hnil
        rwa [hg.closed a f hf hbot, ← hg.closed b f' hf' hbot']
      | false =>
        obtain ⟨f', hf', hbot', hret, hpar⟩ := mem_frames_of_stackSet_eq hg hg hab hf hbot
        have hlt := hg.parent_lt a f hf hbot
        have hlt' := (hg.parent_lt b f' hf' hbot').trans hb
        have heq := ih f.parent hlt (hlt.trans ha) hlt' hpar
        obtain ⟨r, p⟩ := f
        obtain ⟨r', p'⟩ := f'
        simp only at hret heq
        rw [← hret, heq]
        exact hf'
    have hsup : ∀ f ∈ g.frames b, f ∈ g.frames a := by
      intro f hf
      cases hbot : f.isBottom with
      | true =>
        have hnil : ([] : List Nat) ∈ g.stackSet a := hab.symm ▸ HasStack.bottom hf hbot
        obtain ⟨f', hf', hbot'⟩ := hasStack_nil_iff.mp hnil
        rwa [hg.closed b f hf hbot, ← hg.closed a f' hf' hbot']
      | false =>
        obtain ⟨f', hf', hbot', hret, _⟩ := mem_frames_of_stackSet_eq hg hg hab.symm hf hbot
        rwa [hg.frame_eq hf (hsub f' hf') hret.symm]
    exact hg.unique a ha b hb
      (eq_of_ascending (hg.ascending a) (hg.ascending b) fun f => ⟨hsub f, hsup f⟩)

/-- Lists that ascend by a key and agree member by member. -/
private theorem forall₂_of_ascending {α β : Type} {key : α → Nat} {key' : β → Nat}
    {R : α → β → Prop} {l : List α} {l' : List β} (hl : l.Pairwise fun a b => key a < key b)
    (hl' : l'.Pairwise fun a b => key' a < key' b) (hR : ∀ a b, R a b → key a = key' b)
    (hsub : ∀ a ∈ l, ∃ b ∈ l', R a b) (hsup : ∀ b ∈ l', ∃ a ∈ l, R a b) : List.Forall₂ R l l' := by
  induction l generalizing l' with
  | nil =>
    cases l' with
    | nil => exact .nil
    | cons b l' =>
      obtain ⟨a, ha, -⟩ := hsup b List.mem_cons_self
      cases ha
  | cons a l ih =>
    cases l' with
    | nil =>
      obtain ⟨b, hb, -⟩ := hsub a List.mem_cons_self
      cases hb
    | cons b l' =>
      obtain ⟨hhead, htail⟩ := List.pairwise_cons.mp hl
      obtain ⟨hhead', htail'⟩ := List.pairwise_cons.mp hl'
      -- The least members are each other's partners.
      have hab : R a b := by
        obtain ⟨y, hy, hay⟩ := hsub a List.mem_cons_self
        rcases List.mem_cons.mp hy with rfl | hy
        · exact hay
        obtain ⟨x, hx, hxb⟩ := hsup b List.mem_cons_self
        rcases List.mem_cons.mp hx with rfl | hx
        · exact hxb
        have h₁ := hhead x hx
        have h₂ := hhead' y hy
        have h₃ := hR _ _ hay
        have h₄ := hR _ _ hxb
        omega
      refine .cons hab (ih htail htail' (fun x hx => ?_) fun y hy => ?_)
      · obtain ⟨y, hy, hxy⟩ := hsub x (List.mem_cons_of_mem _ hx)
        rcases List.mem_cons.mp hy with rfl | hy
        · have h₁ := hhead x hx
          have h₂ := hR _ _ hxy
          have h₃ := hR _ _ hab
          omega
        · exact ⟨y, hy, hxy⟩
      · obtain ⟨x, hx, hxy⟩ := hsup y (List.mem_cons_of_mem _ hy)
        rcases List.mem_cons.mp hx with rfl | hx
        · have h₁ := hhead' y hy
          have h₂ := hR _ _ hxy
          have h₃ := hR _ _ hab
          omega
        · exact ⟨x, hx, hxy⟩

/-- **Nodes with the same stacks have the same frames,** up to the numbers of their parents. -/
theorem Sound.frames_forall₂ {g g' : StackGraph} (hg : g.Sound) (hg' : g'.Sound) {a b : StackId}
    (hab : g.stackSet a = g'.stackSet b) :
    List.Forall₂ (fun f f' => f.isBottom = f'.isBottom ∧ f.ret = f'.ret ∧
      g.stackSet f.parent = g'.stackSet f'.parent) (g.frames a) (g'.frames b) := by
  have hpartner : ∀ {g g' : StackGraph} {a b : StackId}, g.Sound → g'.Sound →
      g.stackSet a = g'.stackSet b → ∀ f ∈ g.frames a, ∃ f' ∈ g'.frames b,
        f.isBottom = f'.isBottom ∧ f.ret = f'.ret ∧
          g.stackSet f.parent = g'.stackSet f'.parent := by
    intro g g' a b hg hg' hab f hf
    cases hbot : f.isBottom with
    | true =>
      have hnil : ([] : List Nat) ∈ g'.stackSet b := hab ▸ HasStack.bottom hf hbot
      obtain ⟨f', hf', hbot'⟩ := hasStack_nil_iff.mp hnil
      refine ⟨f', hf', hbot'.symm, ?_⟩
      rw [hg.closed a f hf hbot, hg'.closed b f' hf' hbot']
      exact ⟨rfl, hg.stackSet_empty.trans hg'.stackSet_empty.symm⟩
    | false =>
      obtain ⟨f', hf', hbot', hret, hparent⟩ := mem_frames_of_stackSet_eq hg hg' hab hf hbot
      exact ⟨f', hf', hbot'.symm, hret.symm, hparent⟩
  refine forall₂_of_ascending (hg.ascending a) (hg'.ascending b) (fun _ _ h => h.2.1)
    (hpartner hg hg' hab) fun f' hf' => ?_
  obtain ⟨f, hf, hbot, hret, hparent⟩ := hpartner hg' hg hab.symm f' hf'
  exact ⟨f, hf, hbot.symm, hret.symm, hparent.symm⟩

/-! ## Growing steps -/

theorem run_bind_of_ok {α β : Type} {m : Growing α} {f : α → Growing β} {g g' : StackGraph} {a : α}
    (h : m.run g = .ok a g') : (m >>= f).run g = (f a).run g' := by
  change EStateM.bind m f g = _
  unfold EStateM.bind
  rw [show m g = .ok a g' from h]
  rfl

theorem run_bind_of_error {α β : Type} {m : Growing α} {f : α → Growing β} {g g' : StackGraph}
    {e : Exceeded} (h : m.run g = .error e g') : (m >>= f).run g = .error e g' := by
  change EStateM.bind m f g = _
  unfold EStateM.bind
  rw [show m g = .error e g' from h]

/-- **The step makes the graph grow,** whether it succeeds or not. If it succeeds its answer and the
graph satisfy `Q`, and if it fails the ceiling that it met satisfies `E`. -/
def Grows {α : Type} (m : Growing α) (g : StackGraph) (Q : α → StackGraph → Prop)
    (E : Exceeded → Prop := fun _ => True) : Prop :=
  match m.run g with
  | .ok a g' => g.Grown g' ∧ Q a g'
  | .error e g' => g.Grown g' ∧ E e

namespace Grows

variable {α β : Type} {m : Growing α} {f : α → Growing β} {g : StackGraph}
  {Q Q' : α → StackGraph → Prop} {R : β → StackGraph → Prop} {E E' : Exceeded → Prop}

theorem pure {a : α} (hg : g.Sound) (h : Q a g) : Grows (pure a) g Q E := ⟨.refl hg, h⟩

theorem get {Q : StackGraph → StackGraph → Prop} (hg : g.Sound) (h : Q g g) :
    Grows MonadState.get g Q E := ⟨.refl hg, h⟩

theorem mono (h : Grows m g Q E) (himp : ∀ a g', g.Grown g' → Q a g' → Q' a g') :
    Grows m g Q' E := by
  unfold Grows at h ⊢
  cases hm : m.run g with
  | ok a g' =>
    rw [hm] at h
    exact ⟨h.1, himp a g' h.1 h.2⟩
  | error e g' =>
    rw [hm] at h
    exact h

/-- Less may be said of the ceilings. -/
theorem failing (h : Grows m g Q E) (himp : ∀ e, E e → E' e) : Grows m g Q E' := by
  unfold Grows at h ⊢
  cases hm : m.run g with
  | ok a g' =>
    rw [hm] at h
    exact h
  | error e g' =>
    rw [hm] at h
    exact ⟨h.1, himp e h.2⟩

/-- Which ceiling is met need not be known. -/
theorem anyhow (h : Grows m g Q E) : Grows m g Q := h.failing fun _ _ => trivial

/-- What the step gives besides. -/
theorem giving {P : α → Prop} (h : Grows m g Q E) (hgives : ∀ a g', m.run g = .ok a g' → P a) :
    Grows m g (fun a g' => Q a g' ∧ P a) E := by
  unfold Grows at h ⊢
  cases hm : m.run g with
  | ok a g' =>
    rw [hm] at h
    exact ⟨h.1, h.2, hgives a g' hm⟩
  | error e g' =>
    rw [hm] at h
    exact h

theorem bind (h : Grows m g Q E) (hf : ∀ a g', g.Grown g' → Q a g' → Grows (f a) g' R E) :
    Grows (m >>= f) g R E := by
  unfold Grows at h ⊢
  cases hm : m.run g with
  | error e g' =>
    rw [hm] at h
    rw [run_bind_of_error hm]
    exact h
  | ok a g' =>
    rw [hm] at h
    rw [run_bind_of_ok hm]
    have hfa := hf a g' h.1 h.2
    unfold Grows at hfa
    cases hf' : (f a).run g' with
    | ok b g'' =>
      rw [hf'] at hfa
      exact ⟨h.1.trans hfa.1, hfa.2⟩
    | error e g'' =>
      rw [hf'] at hfa
      exact ⟨h.1.trans hfa.1, hfa.2⟩

/-- **The rule of the fold.** The invariant speaks of what is still to be folded. -/
theorem foldlM {f : β → α → Growing β} (I : List α → β → StackGraph → Prop)
    (hf : ∀ a rest b g', g.Grown g' → I (a :: rest) b g' → Grows (f b a) g' (I rest) E)
    {l : List α} {b : β} (hg : g.Sound) (h : I l b g) : Grows (l.foldlM f b) g (I []) E := by
  induction l generalizing b g with
  | nil => exact .pure hg h
  | cons a l ih =>
    rw [List.foldlM_cons]
    refine (hf a l b g (.refl hg) h).bind fun b' g' hgrown hI => ?_
    exact ih (fun a' rest b'' g'' hgrown' => hf a' rest b'' g'' (hgrown.trans hgrown'))
      hgrown.sound hI

/-- What the step is seen to answer. -/
theorem apply (h : Grows m g Q E) {a : α} {g' : StackGraph} (hm : m.run g = .ok a g') :
    g.Grown g' ∧ Q a g' := by
  unfold Grows at h
  rwa [hm] at h

theorem of_error (h : Grows m g Q E) {e : Exceeded} {g' : StackGraph}
    (hm : m.run g = .error e g') : g.Grown g' ∧ E e := by
  unfold Grows at h
  rwa [hm] at h

end Grows

end StackGraph

end AdaptiveLL
