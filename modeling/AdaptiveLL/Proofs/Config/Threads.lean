import AdaptiveLL.Config.Set
import AdaptiveLL.Proofs.Network.Machine
import AdaptiveLL.Proofs.Stacks.Merge
import Mathlib.Data.Set.Card

/-!
# The threads of a configuration set

A configuration stands for threads: one for each of its stacks, all at one state and under one
*tag*, the alternative and the guard. A set of configurations in which the empty stack is any
caller stands for more, the *spread* of its threads: every thread with a stack that one of theirs
begins. What a thread adds to such a set is lost if another one begins it, so the threads of the
set are those that its spread cannot do without; `trim` picks them.

Adding a configuration to a set adds what it stands for.
-/

namespace AdaptiveLL

open StackGraph (Begins)

/-- What a thread speaks for, and on which condition. -/
abbrev Tag := Nat × Guard

/-- **A thread:** a tag, and where the machine stands. -/
abbrev Thread := Tag × Stand

/-! ## Spreading and trimming -/

/-- The threads that some threads stand for. -/
def spread (wild : Bool) (T : Set Thread) : Set Thread :=
  {t | ∃ σ, (t.1, t.2.1, σ) ∈ T ∧ Begins wild σ t.2.2}

/-- The threads that no other one begins. -/
def trim (wild : Bool) (T : Set Thread) : Set Thread :=
  {t ∈ T | ∀ σ, (t.1, t.2.1, σ) ∈ T → Begins wild σ t.2.2 → σ = t.2.2}

theorem subset_spread (wild : Bool) (T : Set Thread) : T ⊆ spread wild T :=
  fun t ht => ⟨t.2.2, ht, .refl ..⟩

theorem spread_mono {wild : Bool} {T U : Set Thread} (h : T ⊆ U) :
    spread wild T ⊆ spread wild U :=
  fun _ ⟨σ, hσ, hbegins⟩ => ⟨σ, h hσ, hbegins⟩

theorem spread_union (wild : Bool) (T U : Set Thread) :
    spread wild (T ∪ U) = spread wild T ∪ spread wild U := by
  ext t
  constructor
  · rintro ⟨σ, hσ | hσ, hbegins⟩
    · exact .inl ⟨σ, hσ, hbegins⟩
    · exact .inr ⟨σ, hσ, hbegins⟩
  · rintro (⟨σ, hσ, hbegins⟩ | ⟨σ, hσ, hbegins⟩)
    · exact ⟨σ, .inl hσ, hbegins⟩
    · exact ⟨σ, .inr hσ, hbegins⟩

theorem spread_false (T : Set Thread) : spread false T = T := by
  ext ⟨tag, q, γ⟩
  simp [spread, Begins]

theorem trim_false (T : Set Thread) : trim false T = T := by
  ext ⟨tag, q, γ⟩
  simp [trim, Begins]

theorem trim_subset (wild : Bool) (T : Set Thread) : trim wild T ⊆ T := fun _ ht => ht.1

/-- Trimming loses nothing that threads stand for: a shortest stack is never trimmed. -/
theorem spread_trim (wild : Bool) (T : Set Thread) : spread wild (trim wild T) = spread wild T := by
  refine Set.Subset.antisymm (spread_mono (trim_subset wild T)) ?_
  rintro ⟨tag, q, γ⟩ ⟨σ, hσ, hbegins⟩
  induction hn : σ.length using Nat.strong_induction_on generalizing σ with
  | _ n ih =>
    by_cases hmin : ∀ ρ, (tag, q, ρ) ∈ T → Begins wild ρ σ → ρ = σ
    · exact ⟨σ, ⟨hσ, hmin⟩, hbegins⟩
    · push Not at hmin
      obtain ⟨ρ, hρ, hbegins', hne⟩ := hmin
      have hlt : ρ.length < n := by
        rw [← hn]
        refine Nat.lt_of_le_of_ne hbegins'.isPrefix.length_le fun heq => hne ?_
        exact hbegins'.isPrefix.eq_of_length heq
      exact ih ρ.length hlt ρ hρ (hbegins'.trans hbegins) rfl

theorem trim_spread (wild : Bool) (T : Set Thread) : trim wild (spread wild T) = trim wild T := by
  ext ⟨tag, q, γ⟩
  constructor
  · rintro ⟨⟨σ, hσ, hbegins⟩, hmin⟩
    obtain rfl : σ = γ := hmin σ (subset_spread wild T hσ) hbegins
    exact ⟨hσ, fun ρ hρ => hmin ρ (subset_spread wild T hρ)⟩
  · rintro ⟨ht, hmin⟩
    refine ⟨subset_spread wild T ht, ?_⟩
    rintro σ ⟨ρ, hρ, hbegins⟩ hbegins'
    have hργ : ρ = γ := hmin ρ hρ (hbegins.trans hbegins')
    subst hργ
    exact hbegins'.antisymm hbegins

/-! ## Places -/

/-- The places of some threads: where they stand, and under which tag. -/
def placesOf (T : Set Thread) : Set (StateId × Tag) := (fun t => (t.2.1, t.1)) '' T

theorem placesOf_mono {T U : Set Thread} (h : T ⊆ U) : placesOf T ⊆ placesOf U :=
  Set.image_mono h

theorem placesOf_spread (wild : Bool) (T : Set Thread) : placesOf (spread wild T) = placesOf T := by
  refine Set.Subset.antisymm ?_ (placesOf_mono (subset_spread wild T))
  rintro _ ⟨⟨tag, q, γ⟩, ⟨σ, hσ, -⟩, rfl⟩
  exact ⟨(tag, q, σ), hσ, rfl⟩

/-- **More places than there is room for** in a set of configurations. -/
def Crowded (room : Nat) (T : Set Thread) : Prop := room < (placesOf T).encard

theorem Crowded.mono {room : Nat} {T U : Set Thread} (h : Crowded room T) (hTU : T ⊆ U) :
    Crowded room U :=
  lt_of_lt_of_le h (Set.encard_le_encard (placesOf_mono hTU))

/-- Only what threads stand for matters. -/
theorem crowded_congr {room : Nat} {wild : Bool} {T U : Set Thread}
    (h : spread wild T = spread wild U) : Crowded room T ↔ Crowded room U := by
  unfold Crowded
  rw [← placesOf_spread wild T, h, placesOf_spread]

theorem crowded_trim {room : Nat} (wild : Bool) (T : Set Thread) :
    Crowded room (trim wild T) ↔ Crowded room T :=
  crowded_congr (spread_trim wild T)

/-- What a configuration meets for which there is no room. -/
def Exceeded.tooMany (room : Nat) : Exceeded := ⟨.configSetSize, room, room + 1⟩

/-- **The ceilings that are met** where configurations are followed under stacks of at most `depth`
frames: that of the nodes in any case, and those of stacks and sets where there are stacks that are
too long or sets that are crowded. -/
def Exceeded.Meets (long : Nat → Prop) (crowded : Prop) (depth : Nat) (e : Exceeded) : Prop :=
  e.resource = .arenaNodes ∨ long depth ∧ e = .tooLong depth ∨
    crowded ∧ e = .tooMany Limits.configsPerSet

theorem Exceeded.Meets.mono {long long' : Nat → Prop} {crowded crowded' : Prop} {depth : Nat}
    {e : Exceeded} (h : e.Meets long crowded depth) (hlong : long depth → long' depth)
    (hcrowded : crowded → crowded') : e.Meets long' crowded' depth :=
  h.imp_right (Or.imp (And.imp_left hlong) (And.imp_left hcrowded))

/-! ## Configurations -/

namespace Config

/-- The tag of the configuration's threads. -/
def tag (c : Config) : Tag := (c.alt, c.guard)

/-- What two configurations of a parser's set never share. -/
def place (c : Config) : StateId × Tag := (c.state, c.tag)

/-- The threads of a configuration. -/
def threads (g : StackGraph) (c : Config) : Set Thread :=
  {t | t.1 = c.tag ∧ t.2.1 = c.state ∧ g.HasStack c.stack t.2.2}

/-- A configuration of a parser under a node of the graph. -/
structure Held (g : StackGraph) (wild : Bool) (c : Config) : Prop where
  stack_lt : c.stack < g.size
  isOpen : wild = true → g.Open c.stack
  routine_eq : c.routine = none
  greedy : c.nonGreedy = false

theorem Held.grown {g g' : StackGraph} (hg : g.Sound) (h : g.Grown g') {wild : Bool} {c : Config}
    (hc : c.Held g wild) : c.Held g' wild where
  stack_lt := h.lt hc.stack_lt
  isOpen hw := (hc.isOpen hw).grown hg h hc.stack_lt
  routine_eq := hc.routine_eq
  greedy := hc.greedy

/-- Where a configuration stands, and under which guard, does not matter for its being held. -/
theorem Held.congr {g : StackGraph} {wild : Bool} {c c' : Config} (hc : c.Held g wild)
    (hstack : c'.stack = c.stack) (hroutine : c'.routine = c.routine)
    (hgreedy : c'.nonGreedy = c.nonGreedy) : c'.Held g wild where
  stack_lt := by rw [hstack]; exact hc.stack_lt
  isOpen hw := by rw [hstack]; exact hc.isOpen hw
  routine_eq := hroutine.trans hc.routine_eq
  greedy := hgreedy.trans hc.greedy

theorem Held.toBottom {g : StackGraph} (hg : g.Sound) {wild : Bool} {c : Config}
    (hc : c.Held g wild) : ({ c with stack := StackId.empty } : Config).Held g wild :=
  ⟨hg.empty_lt, fun _ => .empty, hc.routine_eq, hc.greedy⟩

theorem Held.threads_eq {g g' : StackGraph} (hg : g.Sound) (h : g.Grown g') {wild : Bool}
    {c : Config} (hc : c.Held g wild) : c.threads g' = c.threads g := by
  ext t
  refine and_congr_right fun _ => and_congr_right fun _ => ?_
  exact h.hasStack_iff hg hc.stack_lt

theorem mem_spread_threads {g : StackGraph} {wild : Bool} {c : Config} {t : Thread} :
    t ∈ spread wild (c.threads g) ↔
      t.1 = c.tag ∧ t.2.1 = c.state ∧ t.2.2 ∈ g.reading wild c.stack := by
  constructor
  · rintro ⟨σ, ⟨htag, hstate, hσ⟩, hbegins⟩
    exact ⟨htag, hstate, σ, hσ, hbegins⟩
  · rintro ⟨htag, hstate, σ, hσ, hbegins⟩
    exact ⟨σ, ⟨htag, hstate, hσ⟩, hbegins⟩

end Config

/-! ## Sets -/

namespace ConfigSet

/-- **The threads of a set.** -/
def threads (g : StackGraph) (s : ConfigSet) : Set Thread :=
  {t | ∃ c ∈ s.toList, t ∈ c.threads g}

/-- **A parser's set beside its graph:** no two configurations have the same place. -/
structure Tidy (g : StackGraph) (s : ConfigSet) : Prop where
  unordered : s.ordered = false
  distinct : (s.toList.map Config.place).Nodup
  held : ∀ c ∈ s.toList, c.Held g (!s.fullContext)
  guards_iff : s.hasGuards = true ↔ ∃ c ∈ s.toList, c.guard.isAlways = false
  room : s.configs.size ≤ s.maxSize

theorem Tidy.grown {g g' : StackGraph} {s : ConfigSet} (hg : g.Sound) (h : g.Grown g')
    (hs : s.Tidy g) : s.Tidy g' where
  unordered := hs.unordered
  distinct := hs.distinct
  held c hc := (hs.held c hc).grown hg h
  guards_iff := hs.guards_iff
  room := hs.room

theorem Tidy.threads_eq {g g' : StackGraph} {s : ConfigSet} (hg : g.Sound) (h : g.Grown g')
    (hs : s.Tidy g) : s.threads g' = s.threads g := by
  ext t
  refine exists_congr fun c => and_congr_right fun hc => ?_
  rw [(hs.held c hc).threads_eq hg h]

theorem tidy_forParser (g : StackGraph) (full : Bool) : (forParser full).Tidy g where
  unordered := rfl
  distinct := List.nodup_nil
  held c hc := by cases hc
  guards_iff := by simp [forParser, toList]
  room := Nat.zero_le _

theorem threads_forParser (g : StackGraph) (full : Bool) : (forParser full).threads g = ∅ := by
  ext t
  simp [threads, forParser, toList]

theorem mem_spread_threads {g : StackGraph} {wild : Bool} {s : ConfigSet} {t : Thread} :
    t ∈ spread wild (s.threads g) ↔ ∃ c ∈ s.toList, t ∈ spread wild (c.threads g) := by
  constructor
  · rintro ⟨σ, ⟨c, hc, hσ⟩, hbegins⟩
    exact ⟨c, hc, σ, hσ, hbegins⟩
  · rintro ⟨c, hc, σ, hσ, hbegins⟩
    exact ⟨σ, ⟨c, hc, hσ⟩, hbegins⟩

theorem key_eq_iff {s : ConfigSet} (hs : s.ordered = false) {c d : Config} :
    s.key c = s.key d ↔ c.place = d.place := by
  simp [key, hs, Config.place, Config.tag]

theorem Tidy.eq_of_place {g : StackGraph} {s : ConfigSet} (hs : s.Tidy g) {c d : Config}
    (hc : c ∈ s.toList) (hd : d ∈ s.toList) (h : c.place = d.place) : c = d :=
  List.inj_on_of_nodup_map hs.distinct hc hd h

/-- A set has one configuration for each place of its threads. -/
theorem Tidy.placesOf_threads {g : StackGraph} (hg : g.Sound) {s : ConfigSet} (hs : s.Tidy g) :
    placesOf (s.threads g) = {p | p ∈ s.toList.map Config.place} := by
  ext p
  constructor
  · rintro ⟨⟨tag, q, γ⟩, ⟨c, hc, htag, hq, -⟩, rfl⟩
    exact List.mem_map.mpr ⟨c, hc, Prod.ext hq.symm htag.symm⟩
  · intro hp
    obtain ⟨c, hc, rfl⟩ := List.mem_map.mp hp
    obtain ⟨γ, hγ⟩ := hg.exists_stack (hs.held c hc).stack_lt
    exact ⟨(c.tag, c.state, γ), ⟨c, hc, rfl, rfl, hγ⟩, rfl⟩

/-- **No set is crowded.** -/
theorem Tidy.not_crowded {g : StackGraph} (hg : g.Sound) {s : ConfigSet} (hs : s.Tidy g) :
    ¬Crowded s.maxSize (s.threads g) := by
  have hcard : (placesOf (s.threads g)).encard = s.configs.size := by
    rw [hs.placesOf_threads hg, ← List.coe_toFinset, Set.encard_coe_eq_coe_finsetCard,
      List.toFinset_card_of_nodup hs.distinct, List.length_map]
    rfl
  unfold Crowded
  rw [hcard, not_lt, Nat.cast_le]
  exact hs.room

/-- Where a set has room for some threads, only nodes can be wanting for them. -/
theorem Tidy.nodes_of_room {g : StackGraph} (hg : g.Sound) {s : ConfigSet} (hs : s.Tidy g)
    {wild : Bool} {T : Set Thread} (h : spread wild (s.threads g) = spread wild T) {e : Exceeded}
    (he : e.resource = .arenaNodes ∨ Crowded s.maxSize T ∧ e = .tooMany s.maxSize) :
    e.resource = .arenaNodes := by
  refine he.resolve_right fun hcrowded => ?_
  exact hs.not_crowded hg ((crowded_congr h).mpr hcrowded.1)

/-- A full set and one place more are crowded. -/
theorem Tidy.crowded_of_full {g : StackGraph} (hg : g.Sound) {s : ConfigSet} (hs : s.Tidy g)
    (hfull : s.maxSize ≤ s.configs.size) {c : Config} (hc : c.Held g (!s.fullContext))
    (hnew : c.place ∉ s.toList.map Config.place) :
    Crowded s.maxSize (s.threads g ∪ c.threads g) := by
  obtain ⟨γ, hγ⟩ := hg.exists_stack hc.stack_lt
  have hsub : ((c.place :: s.toList.map Config.place).toFinset : Set (StateId × Tag)) ⊆
      placesOf (s.threads g ∪ c.threads g) := by
    intro p hp
    rw [List.coe_toFinset, Set.mem_ofPred_eq, List.mem_cons] at hp
    rcases hp with rfl | hp
    · exact ⟨(c.tag, c.state, γ), .inr ⟨rfl, rfl, hγ⟩, rfl⟩
    · have hmem : p ∈ placesOf (s.threads g) := by
        rw [hs.placesOf_threads hg]
        exact hp
      exact placesOf_mono Set.subset_union_left hmem
  have hcard : (c.place :: s.toList.map Config.place).toFinset.card = s.configs.size + 1 := by
    rw [List.toFinset_card_of_nodup (List.nodup_cons.mpr ⟨hnew, hs.distinct⟩), List.length_cons,
      List.length_map]
    rfl
  have hle := Set.encard_le_encard hsub
  rw [Set.encard_coe_eq_coe_finsetCard, hcard] at hle
  exact lt_of_lt_of_le (Nat.cast_lt.mpr (Nat.lt_succ_of_le hfull)) hle

/-- In a set of open stacks no thread begins another one. -/
theorem Tidy.trim_threads {g : StackGraph} (hg : g.Sound) {s : ConfigSet} (hs : s.Tidy g) :
    trim (!s.fullContext) (s.threads g) = s.threads g := by
  refine Set.Subset.antisymm (trim_subset _ _) ?_
  rintro ⟨tag, q, γ⟩ ht
  refine ⟨ht, ?_⟩
  rintro σ ⟨d, hd, htag, hstate, hσ⟩ hbegins
  obtain ⟨c, hc, htag', hstate', hγ⟩ := ht
  have hcd : c = d := hs.eq_of_place hc hd
    (Prod.ext (hstate'.symm.trans hstate) (htag'.symm.trans htag))
  subst hcd
  cases hfull : s.fullContext with
  | true =>
    rw [hfull] at hbegins
    exact hbegins
  | false =>
    have hopen := (hs.held c hc).isOpen (by simp [hfull])
    exact hopen.eq_of_isPrefix hg hσ hγ hbegins.isPrefix

/-- The threads of a set are told by what it stands for. -/
theorem Tidy.threads_eq_trim {g : StackGraph} (hg : g.Sound) {s : ConfigSet} (hs : s.Tidy g)
    {T : Set Thread} (h : spread (!s.fullContext) (s.threads g) = spread (!s.fullContext) T) :
    s.threads g = trim (!s.fullContext) T := by
  rw [← hs.trim_threads hg, ← trim_spread, h, trim_spread]

end ConfigSet

end AdaptiveLL
