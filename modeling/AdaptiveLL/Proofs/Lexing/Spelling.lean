import AdaptiveLL.Proofs.Config.Insertion
import AdaptiveLL.Proofs.Lexing.Strands

/-!
# Threads spelled out

A lexer never merges stacks, so every node of its graph holds a single stack. A configuration
*spells* the strand that is left when the number of its stack is replaced by the stack and its
commands are forgotten; a configuration set spells the list of the strands of its members.
-/

namespace AdaptiveLL

open StackGraph (Grows Grown Sound)

/-! ## Single stacks -/

namespace StackGraph

/-- **The node holds one stack.** -/
structure Spells (g : StackGraph) (id : StackId) (σ : List StateId) : Prop where
  lt : id < g.size
  set_eq : g.stackSet id = {σ}

variable {g g' : StackGraph} {id id' : StackId} {σ σ' : List StateId}

theorem Spells.grown (hg : g.Sound) (h : g.Grown g') (hs : g.Spells id σ) : g'.Spells id σ :=
  ⟨h.lt hs.lt, (h.stackSet_eq hg hs.lt).trans hs.set_eq⟩

theorem Spells.hasStack_iff (hs : g.Spells id σ) {γ : List StateId} : g.HasStack id γ ↔ γ = σ :=
  Set.ext_iff.mp hs.set_eq γ

theorem Spells.unique (hs : g.Spells id σ) (hs' : g.Spells id σ') : σ = σ' :=
  hs'.hasStack_iff.mp (hs.hasStack_iff.mpr rfl)

theorem Spells.id_unique (hg : g.Sound) (hs : g.Spells id σ) (hs' : g.Spells id' σ) : id = id' :=
  hg.eq_of_stackSet_eq hs.lt hs'.lt (hs.set_eq.trans hs'.set_eq.symm)

theorem spells_empty (hg : g.Sound) : g.Spells StackId.empty [] := ⟨hg.empty_lt, hg.stackSet_empty⟩

theorem Spells.eq_empty_iff (hg : g.Sound) (hs : g.Spells id σ) : id = StackId.empty ↔ σ = [] := by
  constructor
  · rintro rfl
    exact hs.unique (spells_empty hg)
  · rintro rfl
    exact hs.id_unique hg (spells_empty hg)

theorem Spells.hasEmptyStack_eq (hg : g.Sound) (hs : g.Spells id σ) :
    g.hasEmptyStack id = σ.isEmpty := by
  rw [Bool.eq_iff_iff, hasEmptyStack_iff hg, hs.hasStack_iff, List.isEmpty_iff]
  exact eq_comm

/-- The node of one stack has one frame, with the calls further out below it. -/
theorem Spells.frames_eq (hg : g.Sound) {r : StateId} (hs : g.Spells id (r :: σ)) :
    ∃ parent, g.frames id = [⟨r, parent⟩] ∧ g.Spells parent σ ∧ r < emptyReturn := by
  have hone : ∀ f ∈ g.frames id, f.ret = r ∧ f.isBottom = false ∧ g.Spells f.parent σ := by
    intro f hf
    cases hbot : f.isBottom with
    | true => cases hs.hasStack_iff.mp (.bottom hf hbot)
    | false =>
      have hlt : f.parent < g.size := (hg.parent_lt id f hf hbot).trans hs.lt
      have hread : ∀ γ, g.HasStack f.parent γ → f.ret = r ∧ γ = σ := fun γ hγ =>
        List.cons.inj (hs.hasStack_iff.mp (.frame hf hbot hγ))
      obtain ⟨γ, hγ⟩ := hg.exists_stack hlt
      refine ⟨(hread γ hγ).1, rfl, hlt, Set.ext fun δ => ⟨fun hδ => (hread δ hδ).2, ?_⟩⟩
      rintro rfl
      exact (hread γ hγ).2 ▸ hγ
  obtain ⟨f, fs, hfs⟩ := List.exists_cons_of_ne_nil (hg.ne_nil id hs.lt)
  obtain ⟨hret, -, hparent⟩ := hone f (by simp [hfs])
  have hnil : fs = [] := by
    cases fs with
    | nil => rfl
    | cons f' fs =>
      have hascending := hg.ascending id
      rw [hfs, List.pairwise_cons] at hascending
      have hlt := hascending.1 f' List.mem_cons_self
      rw [hret, (hone f' (by simp [hfs])).1] at hlt
      exact absurd hlt (Nat.lt_irrefl r)
  refine ⟨f.parent, by rw [hfs, hnil, ← hret], hparent, ?_⟩
  exact (hs.hasStack_iff.mpr rfl).ret_lt hg r List.mem_cons_self

end StackGraph

/-! ## Threads -/

variable {g g' : StackGraph} {c c' : Config} {t t' : Strand} {l l' : List Strand}

/-- The key of a thread spells a strand. -/
structure ThreadKey.Spells (g : StackGraph) (k : ThreadKey) (t : Strand) : Prop where
  state_eq : k.1 = t.state
  alt_eq : k.2.1 = t.alt
  stack : g.Spells k.2.2.1 t.stack
  nonGreedy_eq : k.2.2.2 = t.nonGreedy

/-- **A thread spells a strand.** Threads of a lexer have no guards. -/
structure Config.Spells (g : StackGraph) (c : Config) (t : Strand) : Prop where
  key : c.threadKey.Spells g t
  guard_eq : c.guard = .always

theorem ThreadKey.Spells.grown {k : ThreadKey} (hg : g.Sound) (h : g.Grown g')
    (hk : k.Spells g t) : k.Spells g' t :=
  ⟨hk.state_eq, hk.alt_eq, hk.stack.grown hg h, hk.nonGreedy_eq⟩

theorem ThreadKey.Spells.unique {k : ThreadKey} (hk : k.Spells g t) (hk' : k.Spells g t') :
    t = t' := by
  obtain ⟨state, alt, stack, nonGreedy⟩ := t
  obtain ⟨state', alt', stack', nonGreedy'⟩ := t'
  obtain ⟨rfl, rfl, hstack, rfl⟩ := hk
  obtain ⟨hstate, halt, hstack', hnonGreedy⟩ := hk'
  rw [Strand.mk.injEq]
  exact ⟨hstate, halt, hstack.unique hstack', hnonGreedy⟩

theorem ThreadKey.Spells.key_unique {k k' : ThreadKey} (hg : g.Sound) (hk : k.Spells g t)
    (hk' : k'.Spells g t) : k = k' := by
  obtain ⟨state, alt, stack, nonGreedy⟩ := k
  obtain ⟨state', alt', stack', nonGreedy'⟩ := k'
  obtain ⟨hstate, halt, hstack, hnonGreedy⟩ := hk
  obtain ⟨hstate', halt', hstack', hnonGreedy'⟩ := hk'
  rw [Prod.mk.injEq, Prod.mk.injEq, Prod.mk.injEq]
  exact ⟨hstate.trans hstate'.symm, halt.trans halt'.symm, hstack.id_unique hg hstack',
    hnonGreedy.trans hnonGreedy'.symm⟩

namespace Config.Spells

theorem state_eq (hc : c.Spells g t) : c.state = t.state := hc.key.state_eq

theorem alt_eq (hc : c.Spells g t) : c.alt = t.alt := hc.key.alt_eq

theorem stack (hc : c.Spells g t) : g.Spells c.stack t.stack := hc.key.stack

theorem nonGreedy_eq (hc : c.Spells g t) : c.nonGreedy = t.nonGreedy := hc.key.nonGreedy_eq

theorem grown (hg : g.Sound) (h : g.Grown g') (hc : c.Spells g t) : c.Spells g' t :=
  ⟨hc.key.grown hg h, hc.guard_eq⟩

/-- A thread that moves spells the strand that moves. -/
theorem advance (hc : c.Spells g t) (net : Network) (s : StateId) {stack : StackId}
    {σ : List StateId} (hstack : g.Spells stack σ) (routine : Option Routine) :
    (net.advance c s stack routine).Spells g (net.lead t s σ) :=
  ⟨⟨rfl, hc.alt_eq, hstack, congrArg (· || (net.state s).isLazy) hc.nonGreedy_eq⟩, hc.guard_eq⟩

end Config.Spells

/-! ## Sets of threads -/

/-- **A set spells the strands of its members,** in order. -/
structure ConfigSet.Spells (g : StackGraph) (s : ConfigSet) (l : List Strand) : Prop where
  ordered : s.ordered = true
  members : List.Forall₂ (Config.Spells g) s.toList l

namespace ConfigSet.Spells

variable {s s' : ConfigSet}

theorem grown (hg : g.Sound) (h : g.Grown g') (hs : s.Spells g l) : s.Spells g' l :=
  ⟨hs.ordered, hs.members.imp fun _ _ hc => hc.grown hg h⟩

theorem unique (hs : s.Spells g l) (hs' : s.Spells g l') : l = l' := by
  have hsame : ∀ {cs : List Config} {l l' : List Strand}, List.Forall₂ (Config.Spells g) cs l →
      List.Forall₂ (Config.Spells g) cs l' → l = l' := by
    intro cs l l' h h'
    induction h generalizing l' with
    | nil =>
      cases h'
      rfl
    | cons hc _ ih =>
      cases h' with
      | cons hc' h' => rw [hc.key.unique hc'.key, ih h']
  exact hsame hs.members hs'.members

theorem forLexer : ConfigSet.forLexer.Spells g [] := ⟨rfl, .nil⟩

theorem isEmpty_eq (hs : s.Spells g l) : s.isEmpty = l.isEmpty := by
  have hlength := hs.members.length_eq
  rw [Bool.eq_iff_iff, ConfigSet.isEmpty, Array.isEmpty_iff_size_eq_zero,
    List.isEmpty_iff_length_eq_zero, ← hlength, ConfigSet.toList, Array.length_toList]

/-- Sets that are the same spell the same. -/
theorem eq_of_same (hs : s.Spells g l) (hs' : s'.Spells g l') (h : s.same s' = true) : l = l' := by
  unfold ConfigSet.same ConfigSet.sameConfigs at h
  simp only [Bool.and_eq_true, beq_iff_eq] at h
  have hlist := h.2
  have hsame : ∀ {cs cs' : List Config} {l l' : List Strand},
      List.Forall₂ (Config.Spells g) cs l → List.Forall₂ (Config.Spells g) cs' l' →
      cs.map Config.identity = cs'.map Config.identity → l = l' := by
    intro cs cs' l l' h h' heq
    induction h generalizing cs' l' with
    | nil =>
      cases h' with
      | nil => rfl
      | cons => cases heq
    | @cons c _ _ _ hc _ ih =>
      cases h' with
      | nil => cases heq
      | @cons c' _ _ _ hc' h' =>
        obtain ⟨hid, hrest⟩ := List.cons.inj heq
        have hkey : c.threadKey = c'.threadKey :=
          (congrArg Config.threadKey hid : c.identity.threadKey = c'.identity.threadKey)
        rw [hc.key.unique (hkey ▸ hc'.key), ih h' hrest]
  exact hsame hs.members hs'.members hlist

/-- **Adding a thread** adds its strand, unless the thread is there with the same commands. -/
theorem insert (hg : g.Sound) (hs : s.Spells g l) (hc : c.Spells g t) :
    Grows (s.insert c) g fun s' g' => g' = g ∧ s'.hasGuards = s.hasGuards ∧
      ∃ l', s'.Spells g l' ∧ Condenses l' (l ++ [t]) := by
  have hmark : (s.mark c).hasGuards = s.hasGuards := by
    rw [ConfigSet.mark, hc.guard_eq]
    exact Bool.or_false _
  unfold Grows
  rw [ConfigSet.insert_run]
  cases hfind : s.configs.findIdx? fun d => s.key d = s.key c with
  | some i =>
    simp only [hs.ordered, if_true]
    refine ⟨.refl hg, trivial, hmark, l, ⟨hs.ordered, hs.members⟩, .concat ?_⟩
    -- The thread that is there spells the same strand.
    obtain ⟨hi, hkey, -⟩ := Array.findIdx?_eq_some_iff_getElem.mp hfind
    have hkey : s.key s.configs[i] = s.key c := of_decide_eq_true hkey
    unfold ConfigSet.key at hkey
    simp only [hs.ordered, if_true, ConfigKey.mk.injEq, Option.some.injEq, Prod.mk.injEq] at hkey
    obtain ⟨hstate, halt, -, hstack, -, hnonGreedy⟩ := hkey
    have hthread : s.configs[i].threadKey = c.threadKey := by
      unfold Config.threadKey
      rw [hstate, halt, hstack, hnonGreedy]
    have hi' : i < l.length := by
      rw [← hs.members.length_eq]
      exact hi
    have hspells := List.Forall₂.get hs.members hi hi'
    have heq : l.get ⟨i, hi'⟩ = t := (hthread ▸ hspells.key : c.threadKey.Spells g _).unique hc.key
    exact heq ▸ List.get_mem l _
  | none =>
    dsimp only
    by_cases hfull : s.maxSize ≤ s.configs.size
    · rw [if_pos hfull]
      exact ⟨.refl hg, trivial⟩
    · rw [if_neg hfull]
      refine ⟨.refl hg, rfl, hmark, l ++ [t], ⟨hs.ordered, ?_⟩, .refl _⟩
      change List.Forall₂ _ (s.configs.push c).toList _
      rw [Array.toList_push]
      exact List.rel_append hs.members (.cons hc .nil)

end ConfigSet.Spells

end AdaptiveLL
