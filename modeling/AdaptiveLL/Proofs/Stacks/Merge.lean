import AdaptiveLL.Proofs.Stacks.Growth
import AdaptiveLL.Proofs.Stacks.Unions

/-!
# Pushing and merging

What interning, pushing and merging do to the stacks of a node. Pushing puts one return state on
every stack, and merging unites two sets of stacks. A merge whose answer is in the graph already is
made again without a new node.

What a node stands for is its *reading*: its stacks or, if the empty stack is any caller, every
stack that one of them begins. In the second case nodes are *open*: the empty stack is none of
their frames, it only lies below them. Merging unites what two nodes stand for.
-/

namespace AdaptiveLL

namespace StackGraph

open Stacks (united)

/-! ## Readings -/

/-- Whether a stack stands for another one: for itself, and for all that it begins if the empty
stack is any caller. -/
def Begins (wild : Bool) (σ γ : List Nat) : Prop := if wild then σ <+: γ else σ = γ

theorem Begins.refl (wild : Bool) (σ : List Nat) : Begins wild σ σ := by
  cases wild
  · rfl
  · exact List.prefix_rfl

theorem Begins.isPrefix {wild : Bool} {σ γ : List Nat} (h : Begins wild σ γ) : σ <+: γ := by
  cases wild
  · have heq : σ = γ := h
    exact heq ▸ List.prefix_rfl
  · exact h

theorem Begins.trans {wild : Bool} {σ γ δ : List Nat} (h : Begins wild σ γ)
    (h' : Begins wild γ δ) : Begins wild σ δ := by
  cases wild
  · exact Eq.trans h h'
  · exact List.IsPrefix.trans h h'

theorem Begins.antisymm {wild : Bool} {σ γ : List Nat} (h : Begins wild σ γ)
    (h' : Begins wild γ σ) : σ = γ :=
  h.isPrefix.eq_of_length (Nat.le_antisymm h.isPrefix.length_le h'.isPrefix.length_le)

/-- **What a node stands for:** its stacks, and all that they begin if the empty stack is any
caller. -/
def reading (g : StackGraph) (wild : Bool) (id : StackId) : Set (List Nat) :=
  {γ | ∃ σ, g.HasStack id σ ∧ Begins wild σ γ}

/-- A node in which the empty stack is not one of several: it is the empty stack, or all of its
frames are calls above such nodes. -/
inductive Open (g : StackGraph) : StackId → Prop where
  | empty : Open g StackId.empty
  | calls {id : StackId} : (∀ f ∈ g.frames id, f.isBottom = false) →
      (∀ f ∈ g.frames id, Open g f.parent) → Open g id

theorem Open.not_isBottom {g : StackGraph} {id : StackId} (h : g.Open id)
    (hid : id ≠ StackId.empty) : ∀ f ∈ g.frames id, f.isBottom = false := by
  cases h with
  | empty => exact absurd rfl hid
  | calls hb _ => exact hb

theorem Open.parent {g : StackGraph} {id : StackId} (h : g.Open id) (hid : id ≠ StackId.empty) :
    ∀ f ∈ g.frames id, g.Open f.parent := by
  cases h with
  | empty => exact absurd rfl hid
  | calls _ hp => exact hp

theorem Open.grown {g g' : StackGraph} (hg : g.Sound) (h : g.Grown g') {id : StackId}
    (hid : id < g.size) (ho : g.Open id) : g'.Open id := by
  induction ho with
  | empty => exact .empty
  | @calls id hb _ ih =>
    have hframes := h.keeps id hid
    refine .calls (fun f hf => hb f (hframes ▸ hf)) fun f hf => ?_
    rw [hframes] at hf
    exact ih f hf ((hg.parent_lt id f hf (hb f hf)).trans hid)

/-- No stack of an open node begins another one. -/
theorem Open.eq_of_isPrefix {g : StackGraph} (hg : g.Sound) {id : StackId} (ho : g.Open id)
    {σ σ' : List Nat} (h : g.HasStack id σ) (h' : g.HasStack id σ') (hpre : σ <+: σ') :
    σ = σ' := by
  induction h generalizing σ' with
  | @bottom id f hf hb =>
    have hid : id = StackId.empty := by
      by_contra hne
      simp [ho.not_isBottom hne f hf] at hb
    have hmem : σ' ∈ g.stackSet StackId.empty := hid ▸ h'
    rw [hg.stackSet_empty] at hmem
    exact hmem.symm
  | @frame id f γ hf hb hγ ih =>
    have hid : id ≠ StackId.empty := by
      rintro rfl
      rw [hg.bottom, List.mem_singleton] at hf
      simp [hf] at hb
    obtain ⟨ρ, rfl⟩ := hpre
    obtain ⟨f', hf', _, hret, hγ'⟩ := hasStack_cons_iff.mp h'
    rw [hg.frame_eq hf' hf hret] at hγ'
    exact congrArg (f.ret :: ·) (ih (ho.parent hid f hf) hγ' (List.prefix_append γ ρ))

/-! ## Interning -/

/-- Frames of which a node can be made. -/
structure Fits (g : StackGraph) (fs : List Frame) : Prop where
  ascending : fs.Pairwise fun f f' => f.ret < f'.ret
  older : ∀ f ∈ fs, f.parent < g.size
  ret_le : ∀ f ∈ fs, f.ret ≤ emptyReturn

/-- Frames of which the empty stack has no callers. -/
def Closed (fs : List Frame) : Prop := ∀ f ∈ fs, f.isBottom = true → f = Frame.bottom

theorem Fits.mono {g g' : StackGraph} {fs : List Frame} (h : g.size ≤ g'.size) (hfs : g.Fits fs) :
    g'.Fits fs where
  ascending := hfs.ascending
  older f hf := (hfs.older f hf).trans_le h
  ret_le := hfs.ret_le

theorem Fits.of_cons {g : StackGraph} {f : Frame} {fs : List Frame} (h : g.Fits (f :: fs)) :
    g.Fits fs where
  ascending := h.ascending.of_cons
  older f' hf' := h.older f' (List.mem_cons_of_mem _ hf')
  ret_le f' hf' := h.ret_le f' (List.mem_cons_of_mem _ hf')

theorem Fits.head_lt {g : StackGraph} {f : Frame} {fs : List Frame} (h : g.Fits (f :: fs)) :
    ∀ f' ∈ fs, f.ret < f'.ret := (List.pairwise_cons.mp h.ascending).1

theorem Fits.cons {g : StackGraph} {f : Frame} {fs : List Frame} (hparent : f.parent < g.size)
    (hret : f.ret ≤ emptyReturn) (hfs : g.Fits fs) (hlt : ∀ f' ∈ fs, f.ret < f'.ret) :
    g.Fits (f :: fs) where
  ascending := List.pairwise_cons.mpr ⟨hlt, hfs.ascending⟩
  older := List.forall_mem_cons.mpr ⟨hparent, hfs.older⟩
  ret_le := List.forall_mem_cons.mpr ⟨hret, hfs.ret_le⟩

theorem Fits.single {g : StackGraph} {parent : StackId} {ret : Nat} (hparent : parent < g.size)
    (hret : ret ≤ emptyReturn) : g.Fits [⟨ret, parent⟩] where
  ascending := List.pairwise_singleton _ _
  older := by simpa using hparent
  ret_le := by simpa using hret

theorem Layered.size_pos {g : StackGraph} (hg : g.Layered) : 0 < g.size := by
  have hmem : Frame.bottom ∈ g.frames StackId.empty := by simp [hg.bottom]
  exact lt_size_of_mem_frames hmem

/-- The frames of a node are such frames. -/
theorem Layered.fits {g : StackGraph} (hg : g.Layered) (id : StackId) : g.Fits (g.frames id) where
  ascending := hg.ascending id
  older f hf := by
    by_cases hid : id = StackId.empty
    · rw [hid, hg.bottom, List.mem_singleton] at hf
      exact hf ▸ hg.size_pos
    · exact (hg.parent_lt id hid f hf).trans (lt_size_of_mem_frames hf)
  ret_le := hg.ret_le id

theorem frames_push {g : StackGraph} {n : StackNode} {id : Nat} :
    ({ g with nodes := g.nodes.push n } : StackGraph).frames id =
      if id = g.size then n.frames else g.frames id := by
  unfold frames size
  rw [Array.getElem?_push]
  split <;> rfl

private theorem depth_push {g : StackGraph} {n : StackNode} {id : Nat} :
    ({ g with nodes := g.nodes.push n } : StackGraph).depth id =
      if id = g.size then n.depth else g.depth id := by
  unfold depth size
  rw [Array.getElem?_push]
  split <;> rfl

/-- A new node changes no depth. -/
private theorem depthOf_push {g : StackGraph} {n : StackNode} {fs : List Frame}
    (holder : ∀ f ∈ fs, f.isBottom = false → f.parent < g.size) :
    ({ g with nodes := g.nodes.push n } : StackGraph).depthOf fs = g.depthOf fs := by
  refine le_antisymm (depthOf_le_iff.mpr fun f hf hb => ?_) (depthOf_le_iff.mpr fun f hf hb => ?_)
  · rw [depth_push, if_neg (Nat.ne_of_lt (holder f hf hb))]
    exact depthOf_le_iff.mp le_rfl f hf hb
  · have hlt := depthOf_le_iff.mp (le_refl
      (({ g with nodes := g.nodes.push n } : StackGraph).depthOf fs)) f hf hb
    rwa [depth_push, if_neg (Nat.ne_of_lt (holder f hf hb))] at hlt

/-- **The graph with one more node.** -/
def extend (g : StackGraph) (fs : List Frame) : StackGraph :=
  { g with nodes := g.nodes.push ⟨fs, g.depthOf fs⟩ }

@[simp] theorem size_extend {g : StackGraph} {fs : List Frame} :
    (g.extend fs).size = g.size + 1 := by
  simp [extend, size]

theorem frames_extend {g : StackGraph} {fs : List Frame} {id : Nat} :
    (g.extend fs).frames id = if id = g.size then fs else g.frames id := frames_push

theorem depth_extend {g : StackGraph} {fs : List Frame} {id : Nat} :
    (g.extend fs).depth id = if id = g.size then g.depthOf fs else g.depth id := depth_push

theorem layered_extend {g : StackGraph} (hg : g.Layered) {fs : List Frame} (hfs : g.Fits fs)
    (hne : fs ≠ []) (hroom : g.size < g.capacity) (hdepth : g.depthOf fs ≤ g.maxDepth)
    (hnew : ∀ id < g.size, g.frames id ≠ fs) : (g.extend fs).Layered where
  bottom := by
    have hne : StackId.empty ≠ g.size := Nat.ne_of_lt hg.size_pos
    rw [frames_extend, if_neg hne, hg.bottom]
  room := by
    rw [size_extend]
    exact hroom
  ne_nil := by
    intro id hid
    rw [size_extend] at hid
    rw [frames_extend]
    split
    · exact hne
    · exact hg.ne_nil id (by omega)
  ascending := by
    intro id
    rw [frames_extend]
    split
    · exact hfs.ascending
    · exact hg.ascending id
  parent_lt := by
    intro id hid f hf
    rw [frames_extend] at hf
    split at hf
    · next heq => rw [heq]; exact hfs.older f hf
    · exact hg.parent_lt id hid f hf
  ret_le := by
    intro id f hf
    rw [frames_extend] at hf
    split at hf
    · exact hfs.ret_le f hf
    · exact hg.ret_le id f hf
  unique := by
    intro a ha b hb hab
    rw [size_extend] at ha hb
    rw [frames_extend, frames_extend] at hab
    split at hab <;> split at hab
    · omega
    · exact absurd hab.symm (hnew b (by omega))
    · exact absurd hab (hnew a (by omega))
    · exact hg.unique a (by omega) b (by omega) hab
  depth_eq := by
    intro id hid
    rw [size_extend] at hid
    rw [depth_extend, frames_extend]
    split
    · exact (depthOf_push fun f hf _ => hfs.older f hf).symm
    · next hlt =>
      have hold : id < g.size := by omega
      rw [extend, depthOf_push fun f hf _ => (hg.fits id).older f hf]
      exact hg.depth_eq id hold
  depth_le := by
    intro id hid
    rw [size_extend] at hid
    rw [depth_extend]
    split
    · exact hdepth
    · exact hg.depth_le id (by omega)

/-- **What interning does:** it finds the frames, fails at a ceiling, or adds a node. -/
inductive Interned (g : StackGraph) (fs : List Frame) :
    EStateM.Result Exceeded StackGraph StackId → Prop where
  | found {id : StackId} : id < g.size → g.frames id = fs → Interned g fs (.ok id g)
  | tooDeep : (∀ id < g.size, g.frames id ≠ fs) → g.maxDepth < g.depthOf fs →
      Interned g fs (.error ⟨.contextDepth, g.maxDepth, g.depthOf fs⟩ g)
  | full : (∀ id < g.size, g.frames id ≠ fs) → g.depthOf fs ≤ g.maxDepth → g.capacity ≤ g.size →
      Interned g fs (.error ⟨.arenaNodes, g.maxNodes, g.size + 1⟩ g)
  | added : (∀ id < g.size, g.frames id ≠ fs) → g.depthOf fs ≤ g.maxDepth → g.size < g.capacity →
      Interned g fs (.ok g.size (g.extend fs))

theorem intern_interned (g : StackGraph) (fs : List Frame) :
    g.Interned fs ((intern fs).run g) := by
  unfold EStateM.run intern
  cases hfind : g.nodes.findIdx? (·.frames = fs) with
  | some id =>
    obtain ⟨hid, hfs, _⟩ := Array.findIdx?_eq_some_iff_getElem.mp hfind
    exact .found hid (by simpa [frames, Array.getElem?_eq_getElem hid] using hfs)
  | none =>
    have hnew : ∀ id < g.size, g.frames id ≠ fs := by
      intro id hid
      have hnone := Array.findIdx?_eq_none_iff.mp hfind g.nodes[id] (Array.getElem_mem hid)
      simpa [frames, Array.getElem?_eq_getElem hid] using hnone
    by_cases hdepth : g.maxDepth < g.depthOf fs
    · simp only [if_pos hdepth]
      exact .tooDeep hnew hdepth
    by_cases hroom : g.capacity ≤ g.nodes.size
    · simp only [if_neg hdepth, if_pos hroom]
      exact .full hnew (Nat.le_of_not_lt hdepth) hroom
    · simp only [if_neg hdepth, if_neg hroom]
      exact .added hnew (Nat.le_of_not_lt hdepth) (Nat.lt_of_not_le hroom)

/-- Interning answers the node of the frames, unless they are too deep or there is no room. -/
theorem intern_grows {g : StackGraph} (hg : g.Sound) {fs : List Frame} (hfs : g.Fits fs)
    (hclosed : Closed fs) (hne : fs ≠ []) :
    Grows (intern fs) g (fun id g' => id < g'.size ∧ g'.frames id = fs) fun e =>
      e.resource = .arenaNodes ∨
        g.maxDepth < g.depthOf fs ∧ e = ⟨.contextDepth, g.maxDepth, g.depthOf fs⟩ := by
  have hrun := intern_interned g fs
  unfold Grows
  generalize (intern fs).run g = outcome at hrun ⊢
  cases hrun with
  | found hid hframes => exact ⟨.refl hg, hid, hframes⟩
  | tooDeep _ hdepth => exact ⟨.refl hg, .inr ⟨hdepth, rfl⟩⟩
  | full => exact ⟨.refl hg, .inl rfl⟩
  | added hnew hdepth hroom =>
    have hlayered := layered_extend hg.layered hfs hne hroom hdepth hnew
    refine ⟨⟨hlayered.sound fun id f hf hbot => ?_, ?_, fun id hid => ?_, rfl, rfl, rfl⟩, ?_, ?_⟩
    · rw [frames_extend] at hf
      split at hf
      · exact hclosed f hf hbot
      · exact hg.closed id f hf hbot
    · rw [size_extend]
      exact Nat.le_succ _
    · rw [frames_extend, if_neg (Nat.ne_of_lt hid)]
    · rw [size_extend]
      exact Nat.lt_succ_self _
    · exact frames_extend.trans (if_pos rfl)

/-! ## Pushing -/

/-- **Pushing puts a return state on every stack,** unless one of them is as long as the graph
allows or there is no room. -/
theorem push_grows {g : StackGraph} (hg : g.Sound) {parent : StackId} {ret : Nat}
    (hparent : parent < g.size) (hret : ret < emptyReturn) :
    Grows (push parent ret) g (fun id g' => id < g'.size ∧ g'.frames id = [⟨ret, parent⟩])
      fun e => e.resource = .arenaNodes ∨
        g.depth parent = g.maxDepth ∧ e = .tooLong g.maxDepth := by
  have hbot : (⟨ret, parent⟩ : Frame).isBottom = false := by
    simp [Frame.isBottom, Nat.ne_of_lt hret]
  have hdepth : g.depthOf [⟨ret, parent⟩] = g.depth parent + 1 := by simp [depthOf, hbot]
  have hclosed : Closed [⟨ret, parent⟩] := by
    intro f hf hb
    rw [List.mem_singleton.mp hf, hbot] at hb
    cases hb
  refine (intern_grows hg (.single hparent (Nat.le_of_lt hret)) hclosed (by simp)).failing ?_
  rintro e (hnodes | ⟨hdeep, rfl⟩)
  · exact .inl hnodes
  · have hle := hg.depth_le parent hparent
    rw [hdepth] at hdeep
    have heq : g.depth parent = g.maxDepth := by omega
    exact .inr ⟨heq, by rw [hdepth, heq, Exceeded.tooLong]⟩

theorem hasStack_of_frames_singleton {g : StackGraph} {id parent : StackId} {ret : Nat}
    (hret : ret < emptyReturn) (hframes : g.frames id = [⟨ret, parent⟩]) {γ : List Nat} :
    g.HasStack id γ ↔ ∃ δ, g.HasStack parent δ ∧ γ = ret :: δ := by
  have hbot : (⟨ret, parent⟩ : Frame).isBottom = false := by
    simp [Frame.isBottom, Nat.ne_of_lt hret]
  cases γ with
  | nil => simp [hasStack_nil_iff, hframes, hbot]
  | cons r γ =>
    rw [hasStack_cons_iff, hframes]
    simp only [List.mem_singleton, exists_eq_left, hbot, true_and, List.cons.injEq]
    constructor
    · rintro ⟨rfl, h⟩
      exact ⟨γ, h, rfl, rfl⟩
    · rintro ⟨δ, h, rfl, rfl⟩
      exact ⟨rfl, h⟩

/-- Pushing onto a single stack. -/
theorem push_single_grows {g : StackGraph} (hg : g.Sound) {parent : StackId} {ret : Nat}
    {σ : List Nat} (hparent : parent < g.size) (hσ : g.stackSet parent = {σ})
    (hret : ret < emptyReturn) :
    Grows (push parent ret) g (fun id g' => id < g'.size ∧ g'.stackSet id = {ret :: σ})
      fun e => e.resource = .arenaNodes ∨ g.maxDepth ≤ σ.length ∧ e = .tooLong g.maxDepth := by
  have hlong : ∀ e : Exceeded, e.resource = .arenaNodes ∨ g.depth parent = g.maxDepth ∧
      e = .tooLong g.maxDepth →
        e.resource = .arenaNodes ∨ g.maxDepth ≤ σ.length ∧ e = .tooLong g.maxDepth := by
    rintro e (hnodes | ⟨hdeep, he⟩)
    · exact .inl hnodes
    · obtain ⟨γ, hγ, hlength⟩ := hg.exists_longest hparent
      obtain rfl : γ = σ := Set.mem_singleton_iff.mp (hσ ▸ hγ)
      exact .inr ⟨by rw [hlength, hdeep], he⟩
  refine ((push_grows hg hparent hret).mono ?_).failing hlong
  rintro id g' hgrown ⟨hid, hframes⟩
  refine ⟨hid, ?_⟩
  ext γ
  change g'.HasStack id γ ↔ γ = ret :: σ
  rw [hasStack_of_frames_singleton hret hframes]
  constructor
  · rintro ⟨δ, hδ, rfl⟩
    have hmem : δ ∈ g.stackSet parent := (hgrown.hasStack_iff hg hparent).mp hδ
    rw [hσ] at hmem
    rw [hmem]
  · rintro rfl
    have hmem : σ ∈ g.stackSet parent := hσ.symm ▸ rfl
    exact ⟨σ, (hgrown.hasStack_iff hg hparent).mpr hmem, rfl⟩

/-- **Pushing several return states** onto a single stack. -/
theorem pushAll_grows {g : StackGraph} (hg : g.Sound) {parent : StackId} {rets σ : List Nat}
    (hparent : parent < g.size) (hσ : g.stackSet parent = {σ})
    (hrets : ∀ r ∈ rets, r < emptyReturn) :
    Grows (pushAll parent rets) g
      (fun id g' => id < g'.size ∧ g'.stackSet id = {rets.reverse ++ σ})
      fun e => e.resource = .arenaNodes ∨
        g.maxDepth < rets.length + σ.length ∧ e = .tooLong g.maxDepth := by
  induction rets generalizing g parent σ with
  | nil => exact .pure hg ⟨hparent, hσ⟩
  | cons ret rets ih =>
    have hret := hrets ret List.mem_cons_self
    have hlong : ∀ e : Exceeded, e.resource = .arenaNodes ∨ g.maxDepth ≤ σ.length ∧
        e = .tooLong g.maxDepth → e.resource = .arenaNodes ∨
          g.maxDepth < (ret :: rets).length + σ.length ∧ e = .tooLong g.maxDepth := by
      rintro e (hnodes | ⟨hlong, he⟩)
      · exact .inl hnodes
      · exact .inr ⟨by rw [List.length_cons]; omega, he⟩
    refine ((push_single_grows hg hparent hσ hret).failing hlong).bind
      fun id g' hgrown ⟨hid, hone⟩ => ?_
    have hrest := ih hgrown.sound hid hone fun r hr => hrets r (List.mem_cons_of_mem _ hr)
    rw [hgrown.maxDepth_eq] at hrest
    refine (hrest.failing ?_).mono ?_
    · rintro e (hnodes | ⟨hlong, he⟩)
      · exact .inl hnodes
      · rw [List.length_cons] at hlong ⊢
        exact .inr ⟨by omega, he⟩
    rintro id' g'' _ ⟨hid', hset⟩
    refine ⟨hid', ?_⟩
    rw [hset, List.reverse_cons, List.append_assoc]
    rfl

theorem open_of_frames_singleton {g : StackGraph} {id parent : StackId} {ret : Nat}
    (hret : ret < emptyReturn) (hframes : g.frames id = [⟨ret, parent⟩]) (ho : g.Open parent) :
    g.Open id := by
  refine .calls (fun f hf => ?_) fun f hf => ?_
  · rw [hframes, List.mem_singleton] at hf
    simp [hf, Frame.isBottom, Nat.ne_of_lt hret]
  · rw [hframes, List.mem_singleton] at hf
    rw [hf]
    exact ho

/-! ## Merging -/

/-- The stacks below the frames of a list that have a return state. -/
def under (g : StackGraph) (fs : List Frame) (r : Nat) : Set (List Nat) :=
  {γ | ∃ f ∈ fs, f.ret = r ∧ g.HasStack f.parent γ}

theorem under_eq_empty {g : StackGraph} {fs : List Frame} {r : Nat} (h : ∀ f ∈ fs, f.ret ≠ r) :
    g.under fs r = ∅ := by
  refine Set.eq_empty_of_forall_notMem fun γ hγ => ?_
  obtain ⟨f, hf, hret, -⟩ := hγ
  exact h f hf hret

theorem under_cons_of_ne {g : StackGraph} {f : Frame} {fs : List Frame} {r : Nat} (h : f.ret ≠ r) :
    g.under (f :: fs) r = g.under fs r := by
  ext γ
  simp [under, h]

theorem under_cons_self {g : StackGraph} {f : Frame} {fs : List Frame}
    (h : ∀ f' ∈ fs, f.ret < f'.ret) : g.under (f :: fs) f.ret = g.stackSet f.parent := by
  ext γ
  constructor
  · rintro ⟨f', hf', hret, hγ⟩
    rcases List.mem_cons.mp hf' with rfl | hf'
    · exact hγ
    · exact absurd hret (Nat.ne_of_gt (h f' hf'))
  · exact fun hγ => ⟨f, List.mem_cons_self, rfl, hγ⟩

theorem under_grown {g g' : StackGraph} (hg : g.Sound) (h : g.Grown g') {fs : List Frame}
    (hfs : g.Fits fs) {r : Nat} : g'.under fs r = g.under fs r := by
  ext γ
  refine exists_congr fun f => and_congr_right fun hf => and_congr_right fun _ => ?_
  exact h.hasStack_iff hg (hfs.older f hf)

/-- Below the frame of the empty stack there is the empty stack alone. -/
theorem Sound.under_bottom {g : StackGraph} (hg : g.Sound) {id : StackId} :
    g.under (g.frames id) emptyReturn = {γ | γ = [] ∧ [] ∈ g.stackSet id} := by
  ext γ
  constructor
  · rintro ⟨f, hf, hret, hγ⟩
    have hbot : f.isBottom = true := by simpa [Frame.isBottom] using hret
    rw [hg.closed id f hf hbot] at hγ
    have hnil : γ ∈ g.stackSet StackId.empty := hγ
    rw [hg.stackSet_empty] at hnil
    exact ⟨hnil, .bottom hf hbot⟩
  · rintro ⟨rfl, hnil⟩
    obtain ⟨f, hf, hbot⟩ := hasStack_nil_iff.mp hnil
    have hempty : [] ∈ g.stackSet StackId.empty := hg.stackSet_empty ▸ rfl
    refine ⟨f, hf, by simpa [Frame.isBottom] using hbot, ?_⟩
    rw [hg.closed id f hf hbot]
    exact hempty

theorem Sound.callers_stackSet {g : StackGraph} (hg : g.Sound) {id : StackId} {r : Nat} :
    Stacks.callers (g.stackSet id) r =
      if r = emptyReturn then ∅ else g.under (g.frames id) r := by
  ext γ
  change g.HasStack id (r :: γ) ↔ _
  split
  · next heq =>
    refine ⟨fun h => ?_, fun h => absurd h (Set.notMem_empty γ)⟩
    exact absurd (h.ret_lt hg r List.mem_cons_self) (Nat.not_lt.mpr heq.ge)
  · next hne =>
    rw [hasStack_cons_iff]
    refine exists_congr fun f => and_congr_right fun hf => ?_
    constructor
    · exact And.right
    · rintro ⟨rfl, hγ⟩
      exact ⟨by simpa [Frame.isBottom] using hne, rfl, hγ⟩

theorem Sound.stackSet_eq_nil_iff {g : StackGraph} (hg : g.Sound) {id : StackId}
    (hid : id < g.size) : g.stackSet id = {[]} ↔ id = StackId.empty := by
  rw [← hg.stackSet_empty]
  exact ⟨hg.eq_of_stackSet_eq hid hg.empty_lt, fun h => h ▸ rfl⟩

/-- Lists of frames and what they are merged into. -/
structure Melds (g : StackGraph) (wild : Bool) (ls rs : List Frame) (fs : List Frame)
    (g' : StackGraph) : Prop where
  fits : g'.Fits fs
  closed : Closed fs
  rets : ∀ f ∈ fs, ∃ f' ∈ ls ++ rs, f'.ret = f.ret
  ne_nil : ls ++ rs ≠ [] → fs ≠ []
  under_eq : ∀ r, g'.under fs r = united wild (g.under ls r) (g.under rs r)

section

variable {g g' : StackGraph} {wild : Bool} {l r : Frame} {ls rs fs : List Frame}

theorem Melds.symm (h : g.Melds wild ls rs fs g') : g.Melds wild rs ls fs g' where
  fits := h.fits
  closed := h.closed
  rets f hf := by
    obtain ⟨f', hf', hret⟩ := h.rets f hf
    exact ⟨f', (List.perm_append_comm.mem_iff).mp hf', hret⟩
  ne_nil hne := h.ne_nil fun hnil => hne (List.append_eq_nil_iff.mpr
    (List.append_eq_nil_iff.mp hnil).symm)
  under_eq s := by rw [h.under_eq s, Stacks.united_comm]

theorem Melds.nil (hfits : g.Fits rs) (hclosed : Closed rs) : g.Melds wild [] rs rs g where
  fits := hfits
  closed := hclosed
  rets f hf := ⟨f, hf, rfl⟩
  ne_nil := id
  under_eq s := by
    have hnone : g.under [] s = ∅ := under_eq_empty (by simp)
    rw [hnone, Stacks.empty_united]

/-- What return states are above in two lists, they are above in what these are merged into. -/
theorem Melds.lt (h : g.Melds wild ls rs fs g') {s : Nat} (hls : ∀ f ∈ ls, s < f.ret)
    (hrs : ∀ f ∈ rs, s < f.ret) : ∀ f ∈ fs, s < f.ret := by
  intro f hf
  obtain ⟨f', hf', hret⟩ := h.rets f hf
  rw [← hret]
  exact (List.mem_append.mp hf').elim (hls f') (hrs f')

/-- A frame of one list alone stays as it is. -/
theorem Melds.cons_left (h : g.Melds wild ls rs fs g') (hg : g.Sound) (hgrown : g.Grown g')
    (hl : g.Fits (l :: ls)) (hclosed : Closed (l :: ls)) (hlt : ∀ f ∈ rs, l.ret < f.ret) :
    g.Melds wild (l :: ls) rs (l :: fs) g' where
  fits := .cons ((hl.older l List.mem_cons_self).trans_le hgrown.size_le)
    (hl.ret_le l List.mem_cons_self) h.fits (h.lt hl.head_lt hlt)
  closed := List.forall_mem_cons.mpr ⟨hclosed l List.mem_cons_self, h.closed⟩
  rets f hf := by
    rcases List.mem_cons.mp hf with rfl | hf
    · exact ⟨f, by simp, rfl⟩
    · obtain ⟨f', hf', hret⟩ := h.rets f hf
      exact ⟨f', List.mem_cons_of_mem _ hf', hret⟩
  ne_nil _ := List.cons_ne_nil l fs
  under_eq s := by
    by_cases heq : l.ret = s
    · subst heq
      rw [under_cons_self (h.lt hl.head_lt hlt), under_cons_self hl.head_lt,
        under_eq_empty fun f hf => Nat.ne_of_gt (hlt f hf), Stacks.united_empty,
        hgrown.stackSet_eq hg (hl.older l List.mem_cons_self)]
    · rw [under_cons_of_ne heq, under_cons_of_ne heq, h.under_eq s]

/-- Two frames with one return state become one, above both sets of callers. -/
theorem Melds.cons_both {g₁ : StackGraph} {p : StackId} (h : g₁.Melds wild ls rs fs g')
    (hg : g.Sound) (h₁ : g.Grown g₁) (h₂ : g₁.Grown g') (hl : g.Fits (l :: ls))
    (hr : g.Fits (r :: rs)) (hret : l.ret = r.ret) (hp : p < g₁.size)
    (hbottom : Closed [⟨l.ret, p⟩])
    (hset : g₁.stackSet p = united wild (g.stackSet l.parent) (g.stackSet r.parent)) :
    g.Melds wild (l :: ls) (r :: rs) (⟨l.ret, p⟩ :: fs) g' where
  fits := .cons (hp.trans_le h₂.size_le) (hl.ret_le l List.mem_cons_self) h.fits
    (h.lt hl.head_lt (hret ▸ hr.head_lt))
  closed := List.forall_mem_cons.mpr ⟨hbottom _ List.mem_cons_self, h.closed⟩
  rets f hf := by
    rcases List.mem_cons.mp hf with rfl | hf
    · exact ⟨l, by simp, rfl⟩
    · obtain ⟨f', hf', hret'⟩ := h.rets f hf
      exact ⟨f', by simp only [List.mem_append, List.mem_cons] at hf' ⊢; tauto, hret'⟩
  ne_nil _ := List.cons_ne_nil _ fs
  under_eq s := by
    by_cases heq : l.ret = s
    · subst heq
      have habove : ∀ f ∈ fs, (⟨l.ret, p⟩ : Frame).ret < f.ret :=
        h.lt hl.head_lt (hret ▸ hr.head_lt)
      have hright : g.under (r :: rs) l.ret = g.stackSet r.parent := by
        rw [hret]
        exact under_cons_self hr.head_lt
      rw [under_cons_self hl.head_lt, hright, ← hset, ← h₂.stackSet_eq h₁.sound hp]
      exact under_cons_self habove
    · have hother : g'.under (⟨l.ret, p⟩ :: fs) s = g'.under fs s := under_cons_of_ne heq
      rw [hother, under_cons_of_ne heq, under_cons_of_ne (hret ▸ heq), h.under_eq s,
        under_grown hg h₁ hl.of_cons, under_grown hg h₁ hr.of_cons]

end

/-- One call site: the parents are merged before the frames that follow. -/
theorem mergeInto_of_ret_eq {merge : StackId → StackId → Growing StackId} {l r : Frame}
    {ls rs : List Frame} {others : List Frame → Growing (List Frame)} (h : l.ret = r.ret) :
    mergeInto merge l ls others (r :: rs) =
      ((if l.parent = r.parent then pure l.parent else merge l.parent r.parent) >>= fun p =>
        others rs >>= fun rest => pure (⟨l.ret, p⟩ :: rest)) := by
  rw [mergeInto, if_pos h]
  split <;> rfl

/-- The step answers the union of two nodes, unless there is no room. -/
def Unites (g : StackGraph) (wild : Bool) (a b : StackId) (m : Growing StackId) : Prop :=
  Grows m g (fun id g' => id < g'.size ∧
    g'.stackSet id = united wild (g.stackSet a) (g.stackSet b)) (·.resource = .arenaNodes)

/-- The callers of two frames with one return state are united. -/
private theorem mergeParent_grows {g : StackGraph} (hg : g.Sound) {wild : Bool} {l r : Frame}
    {merge : StackId → StackId → Growing StackId} (hl : l.parent < g.size)
    (hlc : l.isBottom = true → l = Frame.bottom) (hrc : r.isBottom = true → r = Frame.bottom)
    (hret : l.ret = r.ret) (hmerge : l.isBottom = false → r.isBottom = false →
      g.Unites wild l.parent r.parent (merge l.parent r.parent)) :
    Grows (if l.parent = r.parent then pure l.parent else merge l.parent r.parent) g
      (fun p g' => p < g'.size ∧ Closed [⟨l.ret, p⟩] ∧
        g'.stackSet p = united wild (g.stackSet l.parent) (g.stackSet r.parent))
      (·.resource = .arenaNodes) := by
  by_cases hpar : l.parent = r.parent
  · rw [if_pos hpar]
    refine .pure hg ⟨hl, fun f hf hbot => ?_, by rw [← hpar, Stacks.united_self]⟩
    rw [List.mem_singleton.mp hf] at hbot ⊢
    exact hlc hbot
  rw [if_neg hpar]
  have hbots : l.isBottom = r.isBottom := by rw [Frame.isBottom, Frame.isBottom, hret]
  have hlb : l.isBottom = false := by
    by_contra hbot
    rw [Bool.not_eq_false] at hbot
    rw [hlc hbot, hrc (hbots ▸ hbot)] at hpar
    exact hpar rfl
  refine (hmerge hlb (hbots ▸ hlb)).mono ?_
  rintro p g' - ⟨hp, hset⟩
  refine ⟨hp, fun f hf hbot => ?_, hset⟩
  have hcall : (⟨l.ret, p⟩ : Frame).isBottom = false := hlb
  rw [List.mem_singleton.mp hf, hcall] at hbot
  cases hbot

private theorem mergeInto_grows {g : StackGraph} (hg : g.Sound) {wild : Bool} {l : Frame}
    {ls rs : List Frame} {merge : StackId → StackId → Growing StackId}
    {others : List Frame → Growing (List Frame)} (hl : g.Fits (l :: ls)) (hlc : Closed (l :: ls))
    (hr : g.Fits rs) (hrc : Closed rs)
    (hmerge : ∀ g', g.Grown g' → ∀ r ∈ rs, l.isBottom = false → r.isBottom = false →
      g'.Unites wild l.parent r.parent (merge l.parent r.parent))
    (hothers : ∀ g', g.Grown g' → ∀ rs', rs' <:+ rs →
      Grows (others rs') g' (g'.Melds wild ls rs') (·.resource = .arenaNodes)) :
    Grows (mergeInto merge l ls others rs) g (g.Melds wild (l :: ls) rs)
      (·.resource = .arenaNodes) := by
  induction rs with
  | nil => exact .pure hg (Melds.nil hl hlc).symm
  | cons r rs ih =>
    by_cases heq : l.ret = r.ret
    · rw [mergeInto_of_ret_eq heq]
      refine (mergeParent_grows hg (hl.older l List.mem_cons_self) (hlc l List.mem_cons_self)
        (hrc r List.mem_cons_self) heq (hmerge g (.refl hg) r List.mem_cons_self)).bind
        fun p g₁ h₁ ⟨hp, hbottom, hset⟩ => ?_
      refine (hothers g₁ h₁ rs (List.suffix_cons r rs)).bind fun fs g₂ h₂ hmelds => ?_
      exact .pure h₂.sound (hmelds.cons_both hg h₁ h₂ hl hr heq hp hbottom hset)
    rw [mergeInto, if_neg heq]
    by_cases hless : l.ret < r.ret
    · rw [if_pos hless]
      refine (hothers g (.refl hg) (r :: rs) List.suffix_rfl).bind fun fs g₁ h₁ hmelds => ?_
      refine .pure h₁.sound (hmelds.cons_left hg h₁ hl hlc ?_)
      exact List.forall_mem_cons.mpr ⟨hless, fun f hf => hless.trans (hr.head_lt f hf)⟩
    · rw [if_neg hless]
      have hgreater : r.ret < l.ret := Nat.lt_of_le_of_ne (Nat.le_of_not_lt hless) (Ne.symm heq)
      refine (ih hr.of_cons (fun f hf => hrc f (List.mem_cons_of_mem _ hf))
        (fun g' h' r' hr' => hmerge g' h' r' (List.mem_cons_of_mem _ hr'))
        (fun g' h' rs' hrs' => hothers g' h' rs' (hrs'.trans (List.suffix_cons r rs)))).bind
        fun fs g₁ h₁ hmelds => ?_
      refine .pure h₁.sound (hmelds.symm.cons_left hg h₁ hr hrc ?_).symm
      exact List.forall_mem_cons.mpr ⟨hgreater, fun f hf => hgreater.trans (hl.head_lt f hf)⟩

private theorem mergeFrames_grows {g : StackGraph} (hg : g.Sound) {wild : Bool}
    {ls rs : List Frame} {merge : StackId → StackId → Growing StackId} (hl : g.Fits ls)
    (hlc : Closed ls) (hr : g.Fits rs) (hrc : Closed rs)
    (hmerge : ∀ g', g.Grown g' → ∀ l ∈ ls, ∀ r ∈ rs, l.isBottom = false → r.isBottom = false →
      g'.Unites wild l.parent r.parent (merge l.parent r.parent)) :
    Grows (mergeFrames merge ls rs) g (g.Melds wild ls rs) (·.resource = .arenaNodes) := by
  induction ls generalizing g rs with
  | nil => exact .pure hg (.nil hr hrc)
  | cons l ls ih =>
    refine mergeInto_grows hg hl hlc hr hrc
      (fun g' h' r hr' => hmerge g' h' l List.mem_cons_self r hr') ?_
    rintro g' h' rs' hsuffix
    obtain ⟨pre, rfl⟩ := hsuffix
    have hfits : g'.Fits rs' :=
      ⟨(List.pairwise_append.mp hr.ascending).2.1,
        fun f hf => (hr.older f (List.mem_append_right _ hf)).trans_le h'.size_le,
        fun f hf => hr.ret_le f (List.mem_append_right _ hf)⟩
    exact ih h'.sound (hl.of_cons.mono h'.size_le) (fun f hf => hlc f (List.mem_cons_of_mem _ hf))
      hfits (fun f hf => hrc f (List.mem_append_right _ hf)) fun g'' h'' l' hl' r hr' =>
        hmerge g'' (h'.trans h'') l' (List.mem_cons_of_mem _ hl') r (List.mem_append_right _ hr')

/-- A node made of merged frames is the union of the two nodes. -/
private theorem Melds.stackSet_eq {g g' : StackGraph} (hg : g.Sound) (hg' : g'.Sound) {wild : Bool}
    {a b id : StackId} (ha : a < g.size) (hb : b < g.size)
    (hroot : wild = true → a ≠ StackId.empty ∧ b ≠ StackId.empty)
    (h : ∀ r, g'.under (g'.frames id) r =
      united wild (g.under (g.frames a) r) (g.under (g.frames b) r)) :
    g'.stackSet id = united wild (g.stackSet a) (g.stackSet b) := by
  have hsets : wild = true → g.stackSet a ≠ {[]} ∧ g.stackSet b ≠ {[]} := by
    rw [ne_eq, ne_eq, hg.stackSet_eq_nil_iff ha, hg.stackSet_eq_nil_iff hb]
    exact hroot
  ext γ
  cases γ with
  | nil =>
    have hnil : ∀ {g : StackGraph} {id : StackId}, g.Sound →
        ([] ∈ g.under (g.frames id) emptyReturn ↔ [] ∈ g.stackSet id) := fun hg => by
      rw [hg.under_bottom]
      exact and_iff_right rfl
    rw [← hnil hg', h, Stacks.nil_mem_united, Stacks.nil_mem_united, hnil hg, hnil hg]
  | cons r γ =>
    change γ ∈ Stacks.callers (g'.stackSet id) r ↔ γ ∈ Stacks.callers (united wild _ _) r
    rw [Stacks.callers_united hsets, hg'.callers_stackSet, hg.callers_stackSet,
      hg.callers_stackSet]
    split
    · rw [Stacks.united_self]
    · rw [h]

/-- No stack comes of merging that is longer than those that are merged. -/
private theorem Melds.depthOf_le {g g' : StackGraph} (hg : g.Sound) (hg' : g'.Sound)
    {wild : Bool} {a b : StackId} {fs : List Frame}
    (h : g.Melds wild (g.frames a) (g.frames b) fs g') : g'.depthOf fs ≤ g.maxDepth := by
  refine depthOf_le_iff.mpr fun f hf hbot => ?_
  obtain ⟨γ, hγ, hlength⟩ := hg'.exists_longest (h.fits.older f hf)
  have hmem : γ ∈ g'.under fs f.ret := ⟨f, hf, rfl, hγ⟩
  have hlong : ∀ {id : StackId}, γ ∈ g.under (g.frames id) f.ret → γ.length < g.maxDepth := by
    rintro id ⟨f', hf', hret, hγ'⟩
    have hbot' : f'.isBottom = false := by rwa [Frame.isBottom, hret]
    exact (HasStack.frame hf' hbot' hγ').length_le hg
  rw [h.under_eq] at hmem
  rw [← hlength]
  exact (Stacks.united_subset hmem).elim hlong hlong

private theorem mergeWithin_grows {wild : Bool} {fuel : Nat} {g : StackGraph} (hg : g.Sound)
    {a b : Nat} (ha : a < g.size) (hb : b < g.size) (hfuel : a + b < fuel) :
    g.Unites wild a b (mergeWithin wild fuel a b) := by
  induction fuel generalizing g a b with
  | zero => omega
  | succ fuel ih =>
    unfold mergeWithin
    by_cases hab : a = b
    · rw [if_pos hab]
      subst hab
      exact .pure hg ⟨ha, Stacks.united_self.symm⟩
    rw [if_neg hab]
    by_cases hempty : (wild && (a == StackId.empty || b == StackId.empty)) = true
    · rw [if_pos hempty]
      simp only [Bool.and_eq_true, Bool.or_eq_true, beq_iff_eq] at hempty
      refine .pure hg ⟨hg.empty_lt, ?_⟩
      obtain ⟨rfl, rfl | rfl⟩ := hempty
      · rw [hg.stackSet_empty, Stacks.united_comm, Stacks.united_nil]
      · rw [hg.stackSet_empty, Stacks.united_nil]
    · rw [if_neg hempty]
      have hroot : wild = true → a ≠ StackId.empty ∧ b ≠ StackId.empty := by
        intro hw
        simpa [hw] using hempty
      refine (Grows.get (Q := fun g₁ g' => g₁ = g ∧ g' = g) hg ⟨rfl, rfl⟩).bind ?_
      intro g₁ g₂ _ heq
      rw [heq.1, heq.2]
      -- Parents are older than their children, so merging them takes less fuel.
      have hframes : Grows (mergeFrames (mergeWithin wild fuel) (g.frames a) (g.frames b)) g
          (g.Melds wild (g.frames a) (g.frames b)) (·.resource = .arenaNodes) :=
        mergeFrames_grows hg (hg.layered.fits a) (hg.closed a) (hg.layered.fits b) (hg.closed b)
          fun g' h' l hl r hr hlb hrb => by
            have hla := hg.parent_lt a l hl hlb
            have hrb := hg.parent_lt b r hr hrb
            have hlt : l.parent + r.parent < a + b := Nat.add_lt_add hla hrb
            exact ih h'.sound (h'.lt (hla.trans ha)) (h'.lt (hrb.trans hb))
              (hlt.trans_le (Nat.le_of_lt_succ hfuel))
      refine hframes.bind fun fs g' h' hmelds => ?_
      have hdepth : g'.depthOf fs ≤ g'.maxDepth := h'.maxDepth_eq ▸ hmelds.depthOf_le hg h'.sound
      have hne : fs ≠ [] := hmelds.ne_nil (by simp [hg.ne_nil a ha])
      have hintern := intern_grows h'.sound hmelds.fits hmelds.closed hne
      refine (hintern.failing ?_).mono fun id g'' h'' ⟨hid, hfs⟩ => ⟨hid, ?_⟩
      · rintro e (hnodes | ⟨hdeep, -⟩)
        · exact hnodes
        · exact absurd hdepth (Nat.not_le.mpr hdeep)
      · refine Melds.stackSet_eq hg h''.sound ha hb hroot fun r => ?_
        rw [hfs, under_grown h'.sound h'' hmelds.fits, hmelds.under_eq]

/-- **Merging answers the union of two nodes,** unless there is no room. -/
theorem merge_unites {g : StackGraph} (hg : g.Sound) {a b : StackId} (ha : a < g.size)
    (hb : b < g.size) (wild : Bool) : g.Unites wild a b (merge a b wild) :=
  mergeWithin_grows hg ha hb (Nat.lt_succ_self _)

/-! ## Merging again -/

/-- What is below the frames of a union is what is below those of the two nodes. -/
private theorem under_of_stackSet {g : StackGraph} (hg : g.Sound) {wild : Bool} {a b d : StackId}
    (ha : a < g.size) (hb : b < g.size)
    (hroot : wild = true → a ≠ StackId.empty ∧ b ≠ StackId.empty)
    (hset : g.stackSet d = united wild (g.stackSet a) (g.stackSet b)) (r : Nat) :
    g.under (g.frames d) r = united wild (g.under (g.frames a) r) (g.under (g.frames b) r) := by
  have hsets : wild = true → g.stackSet a ≠ {[]} ∧ g.stackSet b ≠ {[]} := by
    rw [ne_eq, ne_eq, hg.stackSet_eq_nil_iff ha, hg.stackSet_eq_nil_iff hb]
    exact hroot
  by_cases hr : r = emptyReturn
  · subst hr
    rw [hg.under_bottom, hg.under_bottom, hg.under_bottom, hset, Stacks.nil_mem_united]
    ext γ
    constructor
    · rintro ⟨rfl, h⟩
      exact Stacks.nil_mem_united.mpr (h.imp (fun h => ⟨rfl, h⟩) fun h => ⟨rfl, h⟩)
    · rintro ⟨⟨rfl, h⟩ | ⟨rfl, h⟩, -⟩
      · exact ⟨rfl, .inl h⟩
      · exact ⟨rfl, .inr h⟩
  · have hcallers : ∀ id, g.under (g.frames id) r = Stacks.callers (g.stackSet id) r := fun id => by
      rw [hg.callers_stackSet, if_neg hr]
    rw [hcallers, hcallers, hcallers, hset, Stacks.callers_united hsets]

/-- A frame of a node has the stacks that are below its return state. -/
private theorem under_of_mem {g : StackGraph} {fs : List Frame}
    (hfs : fs.Pairwise fun f f' => f.ret < f'.ret) {f : Frame} (hf : f ∈ fs) :
    g.under fs f.ret = g.stackSet f.parent := by
  have hsymm : Std.Symm fun f f' : Frame => f.ret ≠ f'.ret := ⟨fun _ _ hab => hab.symm⟩
  have hpair : fs.Pairwise fun f f' => f.ret ≠ f'.ret := hfs.imp fun hlt => Nat.ne_of_lt hlt
  ext γ
  constructor
  · rintro ⟨f', hf', hret, hγ⟩
    obtain rfl : f' = f := by
      by_contra hne
      exact hpair.forall hf' hf hne hret
    exact hγ
  · exact fun hγ => ⟨f, hf, rfl, hγ⟩

/-- Frames are told by the stacks that are below them. -/
private theorem eq_of_under {g : StackGraph} (hg : g.Sound) {fs fs' : List Frame} (hfs : g.Fits fs)
    (hfs' : g.Fits fs') (h : ∀ r, g.under fs r = g.under fs' r) : fs = fs' := by
  have hsub : ∀ {fs fs' : List Frame}, g.Fits fs → g.Fits fs' →
      (∀ r, g.under fs r = g.under fs' r) → ∀ f ∈ fs, f ∈ fs' := by
    intro fs fs' hfs hfs' h f hf
    obtain ⟨γ, hγ⟩ := hg.exists_stack (hfs.older f hf)
    obtain ⟨f', hf', hret, -⟩ : γ ∈ g.under fs' f.ret := h f.ret ▸ ⟨f, hf, rfl, hγ⟩
    have hparent : f.parent = f'.parent := by
      refine hg.eq_of_stackSet_eq (hfs.older f hf) (hfs'.older f' hf') ?_
      rw [← under_of_mem hfs.ascending hf, ← under_of_mem hfs'.ascending hf', hret, h]
    obtain ⟨ret, parent⟩ := f
    obtain ⟨ret', parent'⟩ := f'
    simp only at hret hparent
    rwa [← hret, hparent]
  exact eq_of_ascending hfs.ascending hfs'.ascending fun f =>
    ⟨hsub hfs hfs' h f, hsub hfs' hfs (fun r => (h r).symm) f⟩

/-- Merging frames adds no node if merging their parents adds none. -/
private theorem mergeInto_still {g : StackGraph} {l : Frame} {ls rs : List Frame}
    {merge : StackId → StackId → Growing StackId} {others : List Frame → Growing (List Frame)}
    (hmerge : ∀ r ∈ rs, l.ret = r.ret → l.parent ≠ r.parent →
      ∃ p, (merge l.parent r.parent).run g = .ok p g)
    (hothers : ∀ rs', rs' <:+ rs → ∃ fs, (others rs').run g = .ok fs g) :
    ∃ fs, (mergeInto merge l ls others rs).run g = .ok fs g := by
  induction rs with
  | nil => exact ⟨l :: ls, rfl⟩
  | cons r rs ih =>
    by_cases heq : l.ret = r.ret
    · rw [mergeInto_of_ret_eq heq]
      obtain ⟨p, hp⟩ : ∃ p, (if l.parent = r.parent then pure l.parent else
          merge l.parent r.parent : Growing StackId).run g = .ok p g := by
        by_cases hpar : l.parent = r.parent
        · exact ⟨l.parent, by rw [if_pos hpar]; rfl⟩
        · rw [if_neg hpar]
          exact hmerge r List.mem_cons_self heq hpar
      obtain ⟨fs, hfs⟩ := hothers rs (List.suffix_cons r rs)
      rw [run_bind_of_ok hp, run_bind_of_ok hfs]
      exact ⟨_, rfl⟩
    rw [mergeInto, if_neg heq]
    by_cases hless : l.ret < r.ret
    · rw [if_pos hless]
      obtain ⟨fs, hfs⟩ := hothers (r :: rs) List.suffix_rfl
      rw [run_bind_of_ok hfs]
      exact ⟨_, rfl⟩
    · rw [if_neg hless]
      obtain ⟨fs, hfs⟩ := ih (fun r' hr' => hmerge r' (List.mem_cons_of_mem _ hr'))
        fun rs' hrs' => hothers rs' (hrs'.trans (List.suffix_cons r rs))
      rw [run_bind_of_ok hfs]
      exact ⟨_, rfl⟩

private theorem mergeFrames_still {g : StackGraph} {ls rs : List Frame}
    {merge : StackId → StackId → Growing StackId}
    (hmerge : ∀ l ∈ ls, ∀ r ∈ rs, l.ret = r.ret → l.parent ≠ r.parent →
      ∃ p, (merge l.parent r.parent).run g = .ok p g) :
    ∃ fs, (mergeFrames merge ls rs).run g = .ok fs g := by
  induction ls generalizing rs with
  | nil => exact ⟨rs, rfl⟩
  | cons l ls ih =>
    refine mergeInto_still (hmerge l List.mem_cons_self) fun rs' hrs' => ih fun l' hl' r hr => ?_
    exact hmerge l' (List.mem_cons_of_mem _ hl') r (hrs'.subset hr)

private theorem mergeWithin_again {wild : Bool} {fuel : Nat} {g : StackGraph} (hg : g.Sound)
    {a b d : Nat} (ha : a < g.size) (hb : b < g.size) (hd : d < g.size) (hfuel : a + b < fuel)
    (hset : g.stackSet d = united wild (g.stackSet a) (g.stackSet b)) :
    (mergeWithin wild fuel a b).run g = .ok d g := by
  induction fuel generalizing a b d with
  | zero => omega
  | succ fuel ih =>
    unfold mergeWithin
    by_cases hab : a = b
    · subst hab
      rw [if_pos rfl, hg.eq_of_stackSet_eq hd ha (hset.trans Stacks.united_self)]
      rfl
    rw [if_neg hab]
    by_cases hempty : (wild && (a == StackId.empty || b == StackId.empty)) = true
    · rw [if_pos hempty]
      simp only [Bool.and_eq_true, Bool.or_eq_true, beq_iff_eq] at hempty
      have hroot : g.stackSet d = {[]} := by
        obtain ⟨rfl, rfl | rfl⟩ := hempty
        · rw [hset, hg.stackSet_empty, Stacks.united_comm, Stacks.united_nil]
        · rw [hset, hg.stackSet_empty, Stacks.united_nil]
      rw [(hg.stackSet_eq_nil_iff hd).mp hroot]
      rfl
    rw [if_neg hempty]
    have hroot : wild = true → a ≠ StackId.empty ∧ b ≠ StackId.empty := by
      intro hw
      simpa [hw] using hempty
    have hunder := under_of_stackSet hg ha hb hroot hset
    -- The union of two parents is the parent of a frame of the union.
    obtain ⟨fs, hrun⟩ : ∃ fs, (mergeFrames (mergeWithin wild fuel) (g.frames a)
        (g.frames b)).run g = .ok fs g := by
      refine mergeFrames_still fun l hl r hr hret hpar => ?_
      have hl₁ := (hg.layered.fits a).older l hl
      have hr₁ := (hg.layered.fits b).older r hr
      have hbelow : g.under (g.frames d) l.ret =
          united wild (g.stackSet l.parent) (g.stackSet r.parent) := by
        have hright := under_of_mem (g := g) (hg.ascending b) hr
        rw [← hret] at hright
        rw [hunder, under_of_mem (hg.ascending a) hl, hright]
      obtain ⟨γ, f, hf, hfret, -⟩ : (g.under (g.frames d) l.ret).Nonempty :=
        hbelow ▸ Stacks.united_nonempty (hg.exists_stack hl₁)
      have hlb : l.isBottom = false := by
        by_contra hbot
        rw [Bool.not_eq_false] at hbot
        have hrbot : r.isBottom = true := by rwa [Frame.isBottom, ← hret]
        rw [hg.closed a l hl hbot, hg.closed b r hr hrbot] at hpar
        exact hpar rfl
      have hrb : r.isBottom = false := by rwa [Frame.isBottom, ← hret]
      have hlt : l.parent + r.parent < a + b :=
        Nat.add_lt_add (hg.parent_lt a l hl hlb) (hg.parent_lt b r hr hrb)
      refine ⟨f.parent, ih hl₁ hr₁ ((hg.layered.fits d).older f hf)
        (hlt.trans_le (Nat.le_of_lt_succ hfuel)) ?_⟩
      rw [← under_of_mem (hg.ascending d) hf, hfret, hbelow]
    have hmelds := ((mergeFrames_grows hg (hg.layered.fits a) (hg.closed a) (hg.layered.fits b)
      (hg.closed b) fun g' h' l hl r hr hlb hrb =>
        mergeWithin_grows h'.sound (h'.lt ((hg.layered.fits a).older l hl))
          (h'.lt ((hg.layered.fits b).older r hr))
          ((Nat.add_lt_add (hg.parent_lt a l hl hlb) (hg.parent_lt b r hr hrb)).trans_le
            (Nat.le_of_lt_succ hfuel))).apply hrun).2
    have hframes : g.frames d = fs :=
      eq_of_under hg (hg.layered.fits d) hmelds.fits fun r => by rw [hunder, hmelds.under_eq]
    have hget : (get : Growing StackGraph).run g = .ok g g := rfl
    rw [run_bind_of_ok hget, run_bind_of_ok hrun]
    have hintern := intern_interned g fs
    generalize (intern fs).run g = outcome at hintern ⊢
    cases hintern with
    | found hid hfs => rw [hg.unique _ hid d hd (hfs.trans hframes.symm)]
    | tooDeep hnew => exact absurd hframes (hnew d hd)
    | full hnew => exact absurd hframes (hnew d hd)
    | added hnew => exact absurd hframes (hnew d hd)

/-- **A merge whose answer is in the graph** is made without a new node. -/
theorem merge_again {g : StackGraph} (hg : g.Sound) {wild : Bool} {a b d : StackId}
    (ha : a < g.size) (hb : b < g.size) (hd : d < g.size)
    (hset : g.stackSet d = united wild (g.stackSet a) (g.stackSet b)) :
    (merge a b wild).run g = .ok d g :=
  mergeWithin_again hg ha hb hd (Nat.lt_succ_self _) hset

/-! ## Merging what nodes stand for -/

theorem reading_false {g : StackGraph} {id : StackId} : g.reading false id = g.stackSet id := by
  ext γ
  exact ⟨fun ⟨_, hσ, heq⟩ => heq ▸ hσ, fun hγ => ⟨γ, hγ, rfl⟩⟩

theorem reading_true {g : StackGraph} {id : StackId} :
    g.reading true id = Stacks.covered (g.stackSet id) := rfl

/-- A node is open if none of its stacks begins another one. -/
theorem open_iff_ends {g : StackGraph} (hg : g.Sound) {id : StackId} (hid : id < g.size) :
    g.Open id ↔ ∀ γ ∈ g.stackSet id, Stacks.Ends (g.stackSet id) γ := by
  constructor
  · exact fun ho γ hγ => ⟨hγ, fun δ hδ hpre => (ho.eq_of_isPrefix hg hγ hδ hpre).symm⟩
  · intro h
    induction id using Nat.strong_induction_on with
    | _ id ih =>
      by_cases hempty : id = StackId.empty
      · exact hempty ▸ .empty
      have hcall : ∀ f ∈ g.frames id, f.isBottom = false := by
        intro f hf
        by_contra hbot
        have hnil : [] ∈ g.stackSet id := .bottom hf (by simpa using hbot)
        exact hempty ((hg.stackSet_eq_nil_iff hid).mp (Stacks.ends_nil_iff.mp (h [] hnil)))
      refine .calls hcall fun f hf => ?_
      have hlt := hg.parent_lt id f hf (hcall f hf)
      refine ih f.parent hlt (hlt.trans hid) fun γ hγ => ⟨hγ, fun δ hδ hpre => ?_⟩
      have hcons := (h (f.ret :: γ) (.frame hf (hcall f hf) hγ)).2 (f.ret :: δ)
        (.frame hf (hcall f hf) hδ) (List.cons_prefix_cons.mpr ⟨rfl, hpre⟩)
      exact (List.cons.inj hcons).2

/-- The step answers a node that stands for what two nodes stand for, unless there is no room. -/
def Merges (g : StackGraph) (wild : Bool) (a b : StackId) (m : Growing StackId) : Prop :=
  Grows m g (fun id g' => id < g'.size ∧ (wild = true → g'.Open id) ∧
    g'.reading wild id = g.reading wild a ∪ g.reading wild b) (·.resource = .arenaNodes)

/-- **Merging two nodes unites what they stand for.** -/
theorem merge_grows {wild : Bool} {g : StackGraph} (hg : g.Sound) {a b : StackId}
    (ha : a < g.size) (hb : b < g.size) (ho : wild = true → g.Open a ∧ g.Open b) :
    g.Merges wild a b (merge a b wild) := by
  refine (merge_unites hg ha hb wild).mono fun id g' h' ⟨hid, hset⟩ => ⟨hid, fun hw => ?_, ?_⟩
  · subst hw
    obtain ⟨hoa, hob⟩ := ho rfl
    rw [open_iff_ends h'.sound hid, hset]
    exact Stacks.united_ends ((open_iff_ends hg ha).mp hoa) ((open_iff_ends hg hb).mp hob)
  · cases wild with
    | false => rw [reading_false, reading_false, reading_false, hset, Stacks.united_false]
    | true => rw [reading_true, reading_true, reading_true, hset, Stacks.covered_united]

end StackGraph

end AdaptiveLL
