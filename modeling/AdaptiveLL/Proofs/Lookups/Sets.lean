import AdaptiveLL.Config.Conflict
import AdaptiveLL.Proofs.Config.Alternatives
import AdaptiveLL.Proofs.Config.Insertion
import AdaptiveLL.Proofs.Lookups.Stacks

/-!
# Lookups of configuration sets

A configuration is *in range* if its state is a state, its stacks are a node, and its alternative is
one of the decision. Adding configurations in range to a set in range finds the nodes that are
merged and leaves such a set.
-/

namespace AdaptiveLL

open StackGraph (strictMerge)

/-! ## Being in range -/

/-- How many states and alternatives there are. -/
structure Extent where
  states : Nat
  alts : Nat

/-- The states of a network, and the alternatives at one of them. -/
def Network.extentAt (net : Network) (s : StateId) : Extent :=
  ⟨net.states.size, (net.state s).transitions.length⟩

/-- Whether the alternative is one of the decision. -/
def Extent.HasAlt (x : Extent) (a : Nat) : Prop := 1 ≤ a ∧ a ≤ x.alts

/-- Alternatives of the decision, of which there is at least one. -/
structure AltSet.InRange (x : Extent) (A : AltSet) : Prop where
  nonempty : ∃ a, a ∈ A
  hasAlt : ∀ a ∈ A, x.HasAlt a

theorem AltSet.InRange.min?_eq {x : Extent} {A : AltSet} (h : A.InRange x) :
    A.min? = some A.least := by
  cases hmin : A.min? with
  | none =>
    obtain ⟨a, ha⟩ := h.nonempty
    exact absurd ha (min?_eq_none_iff.mp hmin a)
  | some a => simp [AltSet.least, hmin]

theorem AltSet.InRange.least {x : Extent} {A : AltSet} (h : A.InRange x) : x.HasAlt A.least :=
  h.hasAlt _ (min?_eq_some_iff.mp h.min?_eq).1

/-- **A configuration in range,** beside a graph of `size` nodes. -/
structure Config.InRange (x : Extent) (size : Nat) (c : Config) : Prop where
  state_lt : c.state < x.states
  stack_lt : c.stack < size
  hasAlt : x.HasAlt c.alt

/-- **A set in range:** its configurations are, and so are the alternatives in conflict. -/
structure ConfigSet.InRange (x : Extent) (size : Nat) (s : ConfigSet) : Prop where
  configs : ∀ c ∈ s.toList, c.InRange x size
  conflicting : ∀ A, s.conflicting = some A → A.InRange x

variable {x : Extent} {size size' : Nat}

theorem Config.InRange.mono {c : Config} (h : c.InRange x size) (hle : size ≤ size') :
    c.InRange x size' :=
  ⟨h.state_lt, Nat.lt_of_lt_of_le h.stack_lt hle, h.hasAlt⟩

theorem Config.InRange.moveTo {c : Config} (h : c.InRange x size) {s : StateId}
    (hs : s < x.states) : (c.moveTo s).InRange x size :=
  ⟨hs, h.stack_lt, h.hasAlt⟩

theorem Config.InRange.moveUnder {c : Config} (h : c.InRange x size) {s : StateId}
    (hs : s < x.states) {stack : StackId} (hstack : stack < size) :
    (c.moveUnder s stack).InRange x size :=
  ⟨hs, hstack, h.hasAlt⟩

namespace ConfigSet

theorem InRange.mono {s : ConfigSet} (h : s.InRange x size) (hle : size ≤ size') :
    s.InRange x size' :=
  ⟨fun c hc => (h.configs c hc).mono hle, h.conflicting⟩

theorem forParser_inRange (full : Bool) : (forParser full).InRange x size := ⟨nofun, nofun⟩

theorem forLexer_inRange : forLexer.InRange x size := ⟨nofun, nofun⟩

/-! ## Adding -/

/-- Adds a configuration. The stacks that are merged have to be there. -/
def strictInsert (s : ConfigSet) (c : Config) : StrictGrowing ConfigSet :=
  match s.configs.findIdx? fun d => s.key d = s.key c with
  | some i =>
    if s.ordered then pure (s.mark c)
    else do
      let id ← strictMerge (s.configs[i]?.getD default).stack c.stack !s.fullContext
      pure { s.mark c with configs := s.configs.modify i (absorb · c id) }
  | none =>
    if s.maxSize ≤ s.configs.size then
      throw (.failed ⟨.configSetSize, s.maxSize, s.configs.size + 1⟩)
    else pure { s.mark c with configs := s.configs.push c }

private theorem InRange.push {s : ConfigSet} (hs : s.InRange x size) {c : Config}
    (hc : c.InRange x size) :
    ({ s.mark c with configs := s.configs.push c } : ConfigSet).InRange x size := by
  refine ⟨fun d hd => ?_, hs.conflicting⟩
  have hmem : d ∈ s.toList ∨ d = c := by simpa [toList] using hd
  exact hmem.elim (hs.configs d) fun h => h ▸ hc

private theorem InRange.modify {s : ConfigSet} (hs : s.InRange x size) {c : Config} {i : Nat}
    {id : StackId} (hid : id < size) :
    ({ s.mark c with configs := s.configs.modify i (absorb · c id) } : ConfigSet).InRange x
      size := by
  refine ⟨fun d hd => ?_, hs.conflicting⟩
  have hmem : d ∈ s.toList.modify i (absorb · c id) := by
    rwa [toList, Array.toList_modify] at hd
  obtain ⟨j, hj, rfl⟩ := List.getElem_of_mem hmem
  rw [List.length_modify] at hj
  have hold := hs.configs _ (List.getElem_mem hj)
  rw [List.getElem_modify]
  split
  · exact ⟨hold.state_lt, hid, hold.hasAlt⟩
  · exact hold

/-- Adding a configuration as a run. -/
theorem insert_toRun (s : ConfigSet) (c : Config) :
    (s.insert c).toRun =
      match s.configs.findIdx? fun d => s.key d = s.key c with
      | some i =>
        if s.ordered then pure (s.mark c)
        else (StackGraph.merge (s.configs[i]?.getD default).stack c.stack !s.fullContext).toRun >>=
          fun id => pure { s.mark c with configs := s.configs.modify i (absorb · c id) }
      | none =>
        if s.maxSize ≤ s.configs.size then throw ⟨.configSetSize, s.maxSize, s.configs.size + 1⟩
        else pure { s.mark c with configs := s.configs.push c } := by
  funext g
  change (s.insert c).toRun.from? g = Run.from? _ g
  rw [Growing.toRun, Run.from?_ofStep, insert_run]
  cases s.configs.findIdx? fun d => s.key d = s.key c with
  | none =>
    by_cases hfull : s.maxSize ≤ s.configs.size
    · simp only [if_pos hfull]
      rfl
    · simp only [if_neg hfull]
      rfl
  | some i =>
    by_cases ho : s.ordered = true
    · simp only [if_pos ho]
      rfl
    · simp only [if_neg ho]
      rw [Run.from?_bind, Growing.toRun, Run.from?_ofStep]
      cases (StackGraph.merge (s.configs[i]?.getD default).stack c.stack !s.fullContext).run g <;>
        rfl

/-- **Adding a configuration finds the stacks that are merged.** -/
theorem strictInsert_safe {g : StackGraph} (hg : g.InRange x.states) {s : ConfigSet} {c : Config}
    (hs : s.InRange x g.size) (hc : c.InRange x g.size) :
    (StackGraph.scope x.states).Safe (s.strictInsert c) (s.insert c).toRun g
      fun s' k => s'.InRange x k := by
  rw [insert_toRun]
  unfold strictInsert
  cases hfind : s.configs.findIdx? fun d => s.key d = s.key c with
  | none =>
    dsimp only
    split
    · exact .throw hg
    · exact .pure hg (hs.push hc)
  | some i =>
    dsimp only
    split
    · exact .pure hg ⟨hs.configs, hs.conflicting⟩
    · -- A configuration with the same key stands in the set; its stacks are nodes, too.
      obtain ⟨hi, -⟩ := Array.findIdx?_eq_some_iff_getElem.mp hfind
      have hold : s.configs[i]?.getD default ∈ s.toList := by
        simp [toList, Array.getElem?_eq_getElem hi]
      refine (StackGraph.strictMerge_safe hg (hs.configs _ hold).stack_lt hc.stack_lt _).bind
        fun id g' hg' hle hid => .pure hg' ?_
      exact (hs.mono hle).modify hid

/-- Adding several configurations. -/
theorem strictInsertAll_safe {g : StackGraph} (hg : g.InRange x.states) {s : ConfigSet}
    {cs : List Config} (hs : s.InRange x g.size) (hcs : ∀ c ∈ cs, c.InRange x g.size) :
    (StackGraph.scope x.states).Safe (cs.foldlM strictInsert s) (cs.foldlM insert s).toRun g
      fun s' k => s'.InRange x k := by
  rw [Growing.toRun_foldlM]
  exact .foldlM (fun s k => ConfigSet.InRange x k s) (fun c hc s' g' hg' hle hs' =>
    strictInsert_safe hg' hs' ((hcs c hc).mono hle)) hg hs

/-! ## When to stop -/

/-- The states of all configurations, which have to be there. -/
def statesOf (net : Network) (s : ConfigSet) : List (Option State) :=
  s.toList.map fun c => net.states[c.state]?

theorem InRange.statesOf {net : Network} {s : ConfigSet} (hs : s.InRange x size)
    (hx : x.states = net.states.size) : ∀ entry ∈ s.statesOf net, entry.isSome = true := by
  intro entry hentry
  obtain ⟨c, hc, rfl⟩ := List.mem_map.mp hentry
  have hlt := (hs.configs c hc).state_lt
  rw [hx] at hlt
  simp [hlt]

/-- Whether a prediction stops at a set. The states of its configurations are looked up, and without
recourse to the call stack the configurations are added up once more without their guards. -/
def strictEndsPrediction (mode : PredictionMode) (net : Network) (s : ConfigSet) :
    StrictGrowing Bool := do
  Run.lookupAll (s.statesOf net)
  if s.allAtRuleStop net then pure true
  else if mode = .sll ∧ s.hasGuards then do
    let bare ← (s.toList.map fun c => { c with guard := .always }).foldlM strictInsert
      (forParser s.fullContext)
    pure bare.isStuck
  else pure s.isStuck

theorem strictEndsPrediction_safe {net : Network} (hx : x.states = net.states.size) {g : StackGraph}
    (hg : g.InRange x.states) {s : ConfigSet} (hs : s.InRange x g.size) (mode : PredictionMode) :
    (StackGraph.scope x.states).Safe (s.strictEndsPrediction mode net)
      (s.endsPrediction mode net).toRun g fun _ _ => True := by
  refine .lookupAll_bind (hs.statesOf hx) ?_
  unfold endsPrediction
  split
  · exact .pure hg trivial
  split
  · have hbare : s.withoutGuards = (s.toList.map fun c => { c with guard := .always }).foldlM insert
        (forParser s.fullContext) := by rw [withoutGuards, List.foldlM_map]
    rw [Growing.toRun_bind, hbare]
    refine (strictInsertAll_safe hg (forParser_inRange _) fun c hc => ?_).bind
      fun _ _ hg' _ _ => .pure hg' trivial
    obtain ⟨d, hd, rfl⟩ := List.mem_map.mp hc
    have hd' := hs.configs d hd
    exact ⟨hd'.state_lt, hd'.stack_lt, hd'.hasAlt⟩
  · exact .pure hg trivial

end ConfigSet

end AdaptiveLL
