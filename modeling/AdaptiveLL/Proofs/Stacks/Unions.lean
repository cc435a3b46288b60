import Mathlib.Data.List.Infix
import Mathlib.Data.List.Perm.Basic
import Mathlib.Data.Set.Basic

/-!
# Unions of sets of stacks

The sets of stacks that merging unites, apart from any graph. Where the empty stack stands for
itself alone, the union is that of sets. Where it stands for any caller, a stack that *ends* one
set, that is, belongs to it and begins no other stack of it, has any caller below its last frame,
and so absorbs the stacks of the other set that it begins.

The union is commutative, associative and idempotent in both cases, and in the second one it covers
what the two sets cover.
-/

namespace AdaptiveLL

namespace Stacks

variable {A B C : Set (List Nat)} {γ π : List Nat} {r : Nat} {wild : Bool}

/-! ## Stacks that end a set -/

/-- A stack of the set that begins no other one. -/
def Ends (A : Set (List Nat)) (π : List Nat) : Prop := π ∈ A ∧ ∀ γ ∈ A, π <+: γ → γ = π

/-- No stack that ends the set begins this one, unless it is this one. -/
def Clear (A : Set (List Nat)) (γ : List Nat) : Prop := ∀ π, π <+: γ → Ends A π → π = γ

theorem clear_of_mem (h : γ ∈ A) : Clear A γ := fun _ hπ hends => (hends.2 γ h hπ).symm

theorem clear_empty : Clear ∅ γ := fun _ _ hends => absurd hends.1 (Set.notMem_empty _)

theorem Clear.of_isPrefix (h : Clear A γ) (hπ : π <+: γ) : Clear A π := by
  intro ρ hρ hends
  obtain rfl := h ρ (hρ.trans hπ) hends
  exact hρ.eq_of_length (Nat.le_antisymm hρ.length_le hπ.length_le)

/-- Where a stack is not clear of two sets, the shortest stack that begins it and ends one of them
is. -/
theorem exists_end (h : ¬(Clear A γ ∧ Clear B γ)) :
    ∃ π, π <+: γ ∧ π ≠ γ ∧ (Ends A π ∨ Ends B π) ∧ Clear A π ∧ Clear B π := by
  induction hn : γ.length using Nat.strong_induction_on generalizing γ with
  | _ n ih =>
    obtain ⟨π, hπ, hends, hne⟩ : ∃ π, π <+: γ ∧ (Ends A π ∨ Ends B π) ∧ π ≠ γ := by
      by_contra hnone
      push Not at hnone
      exact h ⟨fun π hπ hA => hnone π hπ (.inl hA), fun π hπ hB => hnone π hπ (.inr hB)⟩
    by_cases hclear : Clear A π ∧ Clear B π
    · exact ⟨π, hπ, hne, hends, hclear⟩
    have hshort : π.length < n := by
      rw [← hn]
      exact Nat.lt_of_le_of_ne hπ.length_le fun heq => hne (hπ.eq_of_length heq)
    obtain ⟨ρ, hρ, hne', hends', hclear'⟩ := ih π.length hshort hclear rfl
    refine ⟨ρ, hρ.trans hπ, ?_, hends', hclear'⟩
    rintro rfl
    exact hne' (hρ.eq_of_length (Nat.le_antisymm hρ.length_le hπ.length_le))

/-! ## The union -/

/-- **The union of two sets of stacks.** With `wild` the empty stack is any caller, and a stack is
absorbed if a shorter one that begins it ends one of the sets. -/
def united (wild : Bool) (A B : Set (List Nat)) : Set (List Nat) :=
  {γ | (γ ∈ A ∨ γ ∈ B) ∧ (wild = true → Clear A γ ∧ Clear B γ)}

theorem united_false : united false A B = A ∪ B := by
  ext γ
  simp [united]

theorem united_comm : united wild A B = united wild B A := by
  ext γ
  exact and_congr or_comm (forall_congr' fun _ => and_comm)

theorem united_self : united wild A A = A := by
  ext γ
  refine ⟨fun h => h.1.elim id id, fun h => ⟨.inl h, fun _ => ?_⟩⟩
  exact ⟨clear_of_mem h, clear_of_mem h⟩

theorem united_empty : united wild A ∅ = A := by
  ext γ
  refine ⟨fun h => h.1.resolve_right (Set.notMem_empty γ), fun h => ⟨.inl h, fun _ => ?_⟩⟩
  exact ⟨clear_of_mem h, clear_empty⟩

theorem empty_united : united wild ∅ A = A := united_comm.trans united_empty

theorem united_subset : united wild A B ⊆ A ∪ B := fun _ h => h.1

theorem nil_mem_united : [] ∈ united wild A B ↔ [] ∈ A ∨ [] ∈ B := by
  refine ⟨And.left, fun h => ⟨h, fun _ => ?_⟩⟩
  exact ⟨fun π hπ _ => List.prefix_nil.mp hπ, fun π hπ _ => List.prefix_nil.mp hπ⟩

theorem united_nonempty (h : A.Nonempty) : (united wild A B).Nonempty := by
  obtain ⟨γ, hγ⟩ := h
  by_cases hclear : Clear A γ ∧ Clear B γ
  · exact ⟨γ, .inl hγ, fun _ => hclear⟩
  · obtain ⟨π, -, -, hends, hclear⟩ := exists_end hclear
    exact ⟨π, hends.imp And.left And.left, fun _ => hclear⟩

/-- **A stack is clear of a union if it is clear of both sets.** -/
theorem clear_united : Clear (united true A B) γ ↔ Clear A γ ∧ Clear B γ := by
  constructor
  · intro h
    by_contra hnot
    obtain ⟨π, hπ, hne, hends, hA, hB⟩ := exists_end hnot
    refine hne (h π hπ ⟨⟨?_, fun _ => ⟨hA, hB⟩⟩, ?_⟩)
    · exact hends.imp And.left And.left
    · rintro δ ⟨-, hclear⟩ hδ
      rcases hends with hends | hends
      · exact ((hclear rfl).1 π hδ hends).symm
      · exact ((hclear rfl).2 π hδ hends).symm
  · have hone : ∀ {A B : Set (List Nat)}, Clear A γ → Clear B γ → ∀ π, π <+: γ → π ∈ A →
        (∀ δ ∈ united true A B, π <+: δ → δ = π) → π = γ := by
      intro A B hA hB π hπ hmem hlast
      by_contra hne
      -- If the stack ends neither set, one that it begins is in the union.
      obtain ⟨δ, hδ, hπδ, hδπ⟩ : ∃ δ ∈ A, π <+: δ ∧ δ ≠ π := by
        by_contra hnone
        push Not at hnone
        exact hne (hA π hπ ⟨hmem, hnone⟩)
      by_cases hclear : Clear B δ
      · exact hδπ (hlast δ ⟨.inl hδ, fun _ => ⟨clear_of_mem hδ, hclear⟩⟩ hπδ)
      unfold Clear at hclear
      push Not at hclear
      obtain ⟨ρ, hρ, hends, -⟩ := hclear
      rcases List.prefix_or_prefix_of_prefix hρ hπδ with hρπ | hπρ
      · obtain rfl := hB ρ (hρπ.trans hπ) hends
        exact hne (hπ.eq_of_length (Nat.le_antisymm hπ.length_le hρπ.length_le))
      · have hin : ρ ∈ united true A B :=
          ⟨.inr hends.1, fun _ => ⟨(clear_of_mem hδ).of_isPrefix hρ, clear_of_mem hends.1⟩⟩
        obtain rfl := hlast ρ hin hπρ
        exact hne (hB ρ hπ hends)
    rintro ⟨hA, hB⟩ π hπ ⟨⟨hmem, -⟩, hlast⟩
    rcases hmem with hmem | hmem
    · exact hone hA hB π hπ hmem hlast
    · exact hone hB hA π hπ hmem fun δ hδ => hlast δ (united_comm ▸ hδ)

/-- **The order of unions does not matter.** -/
theorem united_assoc : united wild (united wild A B) C = united wild A (united wild B C) := by
  cases wild with
  | false => rw [united_false, united_false, united_false, united_false, Set.union_assoc]
  | true =>
    ext γ
    change (γ ∈ united true A B ∨ γ ∈ C) ∧ (true = true → Clear (united true A B) γ ∧ Clear C γ) ↔
      (γ ∈ A ∨ γ ∈ united true B C) ∧ (true = true → Clear A γ ∧ Clear (united true B C) γ)
    rw [clear_united, clear_united]
    simp only [united, Set.mem_ofPred_eq, forall_const]
    tauto

/-- **The union of several sets,** taken one after the other. -/
def unitedAll (wild : Bool) (L : List (Set (List Nat))) : Set (List Nat) := L.foldl (united wild) ∅

theorem unitedAll_singleton : unitedAll wild [A] = A := empty_united

theorem unitedAll_concat {L : List (Set (List Nat))} :
    unitedAll wild (L ++ [A]) = united wild (unitedAll wild L) A := by
  simp [unitedAll]

/-- **The order of the sets does not matter.** -/
theorem unitedAll_perm {L L' : List (Set (List Nat))} (h : L.Perm L') :
    unitedAll wild L = unitedAll wild L' := by
  have hcomm : RightCommutative (united wild) := by
    refine ⟨fun A B C => ?_⟩
    rw [united_assoc, united_comm (A := B), united_assoc]
  exact h.foldl_eq ∅

theorem mem_unitedAll_false {L : List (Set (List Nat))} :
    γ ∈ unitedAll false L ↔ ∃ A ∈ L, γ ∈ A := by
  induction L using List.reverseRecOn with
  | nil => simp [unitedAll]
  | append_singleton L A ih =>
    rw [unitedAll_concat, united_false, Set.mem_union, ih]
    simp [or_and_right, exists_or]

/-! ## What a set covers -/

/-- **What a set covers** if the empty stack is any caller: all stacks that one of its own
begins. -/
def covered (A : Set (List Nat)) : Set (List Nat) := {γ | ∃ σ ∈ A, σ <+: γ}

theorem covered_united : covered (united true A B) = covered A ∪ covered B := by
  have hshort : ∀ {σ γ : List Nat}, σ ∈ A ∨ σ ∈ B → σ <+: γ → γ ∈ covered (united true A B) := by
    intro σ γ hσ hγ
    by_cases hclear : Clear A σ ∧ Clear B σ
    · exact ⟨σ, ⟨hσ, fun _ => hclear⟩, hγ⟩
    · obtain ⟨π, hπ, -, hends, hclear⟩ := exists_end hclear
      exact ⟨π, ⟨hends.imp And.left And.left, fun _ => hclear⟩, hπ.trans hγ⟩
  ext γ
  constructor
  · rintro ⟨σ, hσ, hγ⟩
    exact hσ.1.imp (fun h => ⟨σ, h, hγ⟩) fun h => ⟨σ, h, hγ⟩
  · rintro (⟨σ, hσ, hγ⟩ | ⟨σ, hσ, hγ⟩)
    · exact hshort (.inl hσ) hγ
    · exact hshort (.inr hσ) hγ

/-! ## The stacks above a frame -/

/-- The callers of a return state: what the stacks of the set that have it on top go on with. -/
def callers (A : Set (List Nat)) (r : Nat) : Set (List Nat) := {γ | r :: γ ∈ A}

theorem ends_nil_iff : Ends A [] ↔ A = {[]} := by
  constructor
  · rintro ⟨hmem, hlast⟩
    ext γ
    refine ⟨fun hγ => hlast γ hγ List.nil_prefix, ?_⟩
    rintro rfl
    exact hmem
  · rintro rfl
    exact ⟨rfl, fun γ hγ _ => hγ⟩

theorem ends_callers : Ends (callers A r) π ↔ Ends A (r :: π) := by
  refine and_congr_right fun _ => ⟨fun h γ hγ hpre => ?_, fun h γ hγ hpre => ?_⟩
  · obtain ⟨δ, rfl⟩ := hpre
    exact congrArg (r :: ·) (h (π ++ δ) hγ (List.prefix_append π δ))
  · exact (List.cons.inj (h (r :: γ) hγ (List.cons_prefix_cons.mpr ⟨rfl, hpre⟩))).2

theorem clear_cons : Clear A (r :: γ) ↔ ¬Ends A [] ∧ Clear (callers A r) γ := by
  constructor
  · refine fun h => ⟨fun hends => ?_, fun π hπ hends => ?_⟩
    · cases h [] List.nil_prefix hends
    · exact (List.cons.inj (h (r :: π) (List.cons_prefix_cons.mpr ⟨rfl, hπ⟩)
        (ends_callers.mp hends))).2
  · rintro ⟨hnil, h⟩ π hπ hends
    cases π with
    | nil => exact absurd hends hnil
    | cons s π =>
      obtain ⟨rfl, hinit⟩ := List.cons_prefix_cons.mp hπ
      exact congrArg (s :: ·) (h π hinit (ends_callers.mpr hends))

/-- **A union is taken caller by caller,** unless one of the sets is the empty stack in place of any
caller. -/
theorem callers_united (h : wild = true → A ≠ {[]} ∧ B ≠ {[]}) :
    callers (united wild A B) r = united wild (callers A r) (callers B r) := by
  ext γ
  refine and_congr_right fun _ => forall_congr' fun hw => ?_
  obtain ⟨hA, hB⟩ := h hw
  rw [clear_cons, clear_cons, ends_nil_iff, ends_nil_iff]
  tauto

/-- The empty stack in place of any caller absorbs everything. -/
theorem united_nil : united true A {[]} = {[]} := by
  ext γ
  constructor
  · rintro ⟨-, hclear⟩
    exact ((hclear rfl).2 [] List.nil_prefix (ends_nil_iff.mpr rfl)).symm
  · rintro rfl
    exact nil_mem_united.mpr (.inr rfl)

/-- In a set in which no stack begins another one every stack ends it, and so in the union of two
such sets. -/
theorem united_ends (hA : ∀ γ ∈ A, Ends A γ) (hB : ∀ γ ∈ B, Ends B γ) :
    ∀ γ ∈ united true A B, Ends (united true A B) γ := by
  rintro γ hγ
  refine ⟨hγ, ?_⟩
  rintro δ ⟨-, hclear⟩ hpre
  rcases hγ.1 with hmem | hmem
  · exact ((hclear rfl).1 γ hpre (hA γ hmem)).symm
  · exact ((hclear rfl).2 γ hpre (hB γ hmem)).symm

end Stacks

end AdaptiveLL
