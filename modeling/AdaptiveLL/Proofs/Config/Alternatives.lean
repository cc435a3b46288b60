import AdaptiveLL.Config.Conflict
import Mathlib.Data.List.Pairwise
import Mathlib.Data.List.Sort

/-!
# Sets of alternatives and groups

The members of sets of alternatives, and what grouping the alternatives of configurations by a key
leaves: one group for each key, with the alternatives of the configurations that have it.
-/

namespace AdaptiveLL

namespace AltSet

instance : Membership Nat AltSet := ⟨fun s a => a ∈ s.toList⟩

theorem mem_def {s : AltSet} {a : Nat} : a ∈ s ↔ a ∈ s.toList := Iff.rfl

/-- A set of alternatives is told by its members. -/
theorem ext_mem {s t : AltSet} (h : ∀ a, a ∈ s ↔ a ∈ t) : s = t := by
  refine ext_toList ?_
  refine List.Perm.eq_of_pairwise (fun a b _ _ hab hba => absurd hab (by omega)) s.ascending
    t.ascending ?_
  exact (List.perm_ext_iff_of_nodup (s.ascending.imp Nat.ne_of_lt)
    (t.ascending.imp Nat.ne_of_lt)).mpr h

@[simp] theorem not_mem_empty (a : Nat) : a ∉ AltSet.empty := by simp [mem_def, AltSet.empty]

@[simp] theorem mem_insert {s : AltSet} {a x : Nat} : x ∈ s.insert a ↔ x = a ∨ x ∈ s := by
  simp [mem_def, mem_place]

private theorem mem_foldl_insert {l : List Nat} {s : AltSet} {x : Nat} :
    x ∈ l.foldl insert s ↔ x ∈ l ∨ x ∈ s := by
  induction l generalizing s with
  | nil => simp
  | cons a l ih =>
    rw [List.foldl_cons, ih, mem_insert, List.mem_cons]
    tauto

@[simp] theorem mem_ofList {l : List Nat} {x : Nat} : x ∈ ofList l ↔ x ∈ l := by
  simp [ofList, mem_foldl_insert]

@[simp] theorem mem_union {s t : AltSet} {x : Nat} : x ∈ s.union t ↔ x ∈ s ∨ x ∈ t := by
  rw [union, mem_foldl_insert, or_comm]
  rfl

/-- The least member is one, and no other is less. -/
theorem min?_eq_some_iff {s : AltSet} {a : Nat} : s.min? = some a ↔ a ∈ s ∧ ∀ b ∈ s, a ≤ b := by
  have hasc := s.ascending
  simp only [min?, mem_def]
  cases hl : s.toList with
  | nil => simp
  | cons x l =>
    rw [hl] at hasc
    obtain ⟨hx, _⟩ := List.pairwise_cons.mp hasc
    simp only [List.head?_cons, Option.some.injEq, List.mem_cons, forall_eq_or_imp]
    constructor
    · rintro rfl
      exact ⟨.inl rfl, Nat.le_refl _, fun b hb => Nat.le_of_lt (hx b hb)⟩
    · rintro ⟨rfl | ha, hle, _⟩
      · rfl
      · have := hx a ha
        omega

theorem min?_eq_none_iff {s : AltSet} : s.min? = none ↔ ∀ a, a ∉ s := by
  simp [min?, mem_def, List.head?_eq_none_iff, List.eq_nil_iff_forall_not_mem]

/-- The list of a set with one member. -/
theorem toList_eq_singleton_iff {s : AltSet} {a : Nat} : s.toList = [a] ↔ ∀ x, x ∈ s ↔ x = a := by
  constructor
  · intro h x
    simp [mem_def, h]
  · intro h
    have heq : s = ofList [a] := ext_mem fun x => by simp [h]
    rw [heq]
    rfl

end AltSet

/-! ## Groups -/

section Groups

variable {κ : Type} {cmp : κ → κ → Ordering}

/-- The groups that were made of some pairs of a key and an alternative. -/
private structure Grouped (cmp : κ → κ → Ordering) (pairs : κ → Nat → Prop)
    (groups : List (κ × AltSet)) : Prop where
  ascending : groups.Pairwise fun a b => cmp a.1 b.1 = .lt
  mem_iff : ∀ k a, pairs k a ↔ ∃ A, (k, A) ∈ groups ∧ a ∈ A
  nonempty : ∀ k A, (k, A) ∈ groups → ∃ a, a ∈ A

private theorem addToGroup_keys {k k' : κ} {a : Nat} {groups : List (κ × AltSet)}
    (h : cmp k' k = .lt) (hgroups : ∀ g ∈ groups, cmp k' g.1 = .lt) :
    ∀ g ∈ addToGroup cmp k a groups, cmp k' g.1 = .lt := by
  induction groups with
  | nil => simpa [addToGroup] using h
  | cons g groups ih =>
    obtain ⟨k₀, A⟩ := g
    have htail := ih fun g hg => hgroups g (List.mem_cons_of_mem _ hg)
    unfold addToGroup
    split
    · intro g hg
      rcases List.mem_cons.mp hg with rfl | hg
      · exact h
      · exact hgroups g hg
    · intro g hg
      rcases List.mem_cons.mp hg with rfl | hg
      · exact hgroups (k₀, A) List.mem_cons_self
      · exact hgroups g (List.mem_cons_of_mem _ hg)
    · intro g hg
      rcases List.mem_cons.mp hg with rfl | hg
      · exact hgroups _ List.mem_cons_self
      · exact htail g hg

private theorem addToGroup_ascending [Std.TransCmp cmp] {k : κ} {a : Nat} {groups : List (κ × AltSet)}
    (h : groups.Pairwise fun a b => cmp a.1 b.1 = .lt) :
    (addToGroup cmp k a groups).Pairwise fun a b => cmp a.1 b.1 = .lt := by
  induction groups with
  | nil => simp [addToGroup]
  | cons g groups ih =>
    obtain ⟨k₀, A⟩ := g
    obtain ⟨hhead, htail⟩ := List.pairwise_cons.mp h
    unfold addToGroup
    split
    · next hlt =>
      refine List.pairwise_cons.mpr ⟨fun g hg => ?_, h⟩
      rcases List.mem_cons.mp hg with rfl | hg
      · exact hlt
      · exact Std.TransCmp.lt_trans hlt (hhead g hg)
    · exact List.pairwise_cons.mpr ⟨hhead, htail⟩
    · next hgt =>
      refine List.pairwise_cons.mpr ⟨addToGroup_keys ?_ hhead, ih htail⟩
      exact Std.OrientedCmp.lt_of_gt hgt

private theorem mem_addToGroup [Std.LawfulEqCmp cmp] {k : κ} {a : Nat}
    {groups : List (κ × AltSet)} {k' : κ} {x : Nat} :
    (∃ A, (k', A) ∈ addToGroup cmp k a groups ∧ x ∈ A) ↔
      (k' = k ∧ x = a) ∨ ∃ A, (k', A) ∈ groups ∧ x ∈ A := by
  induction groups with
  | nil =>
    simp only [addToGroup, List.mem_singleton, Prod.mk.injEq, List.not_mem_nil, false_and,
      exists_false, or_false]
    constructor
    · rintro ⟨A, ⟨rfl, rfl⟩, hx⟩
      exact ⟨rfl, by simpa using hx⟩
    · rintro ⟨rfl, rfl⟩
      exact ⟨_, ⟨rfl, rfl⟩, by simp⟩
  | cons g groups ih =>
    obtain ⟨k₀, A₀⟩ := g
    unfold addToGroup
    split
    · simp only [List.mem_cons, Prod.mk.injEq, or_and_right, exists_or, and_assoc, exists_and_left,
        exists_eq_left, AltSet.mem_insert, AltSet.not_mem_empty, or_false]
    · next heq =>
      obtain rfl := Std.LawfulEqCmp.eq_of_compare heq
      simp only [List.mem_cons, Prod.mk.injEq, or_and_right, exists_or, and_assoc, exists_and_left,
        exists_eq_left, AltSet.mem_insert]
      tauto
    · simp only [List.mem_cons, Prod.mk.injEq, or_and_right, exists_or, and_assoc, exists_and_left,
        exists_eq_left] at ih ⊢
      rw [ih]
      tauto

private theorem addToGroup_nonempty {k : κ} {a : Nat} {groups : List (κ × AltSet)}
    (h : ∀ k A, (k, A) ∈ groups → ∃ a, a ∈ A) :
    ∀ k' A, (k', A) ∈ addToGroup cmp k a groups → ∃ a, a ∈ A := by
  induction groups with
  | nil =>
    intro k' A hA
    simp only [addToGroup, List.mem_singleton, Prod.mk.injEq] at hA
    exact ⟨a, by simp [hA.2]⟩
  | cons g groups ih =>
    obtain ⟨k₀, A₀⟩ := g
    have htail := ih fun k A hA => h k A (List.mem_cons_of_mem _ hA)
    unfold addToGroup
    split
    · intro k' A hA
      rcases List.mem_cons.mp hA with hA | hA
      · exact ⟨a, by simp [(Prod.mk.inj hA).2]⟩
      · exact h k' A hA
    · intro k' A hA
      rcases List.mem_cons.mp hA with hA | hA
      · exact ⟨a, by simp [(Prod.mk.inj hA).2]⟩
      · exact h k' A (List.mem_cons_of_mem _ hA)
    · intro k' A hA
      rcases List.mem_cons.mp hA with hA | hA
      · exact h k' A (hA ▸ List.mem_cons_self)
      · exact htail k' A hA

namespace ConfigSet

variable [Std.TransCmp cmp] [Std.LawfulEqCmp cmp]

private theorem grouped (s : ConfigSet) (key : Config → κ) :
    Grouped cmp (fun k a => ∃ c ∈ s.toList, key c = k ∧ c.alt = a) (s.groupAlts cmp key) := by
  have hfold : ∀ (cs : List Config) (pairs : κ → Nat → Prop) (groups : List (κ × AltSet)),
      Grouped cmp pairs groups →
      Grouped cmp (fun k a => pairs k a ∨ ∃ c ∈ cs, key c = k ∧ c.alt = a)
        (cs.foldl (fun groups c => addToGroup cmp (key c) c.alt groups) groups) := by
    intro cs
    induction cs with
    | nil =>
      intro pairs groups h
      simpa using h
    | cons c cs ih =>
      intro pairs groups h
      have hnext : Grouped cmp (fun k a => pairs k a ∨ (key c = k ∧ c.alt = a))
          (addToGroup cmp (key c) c.alt groups) := by
        refine ⟨addToGroup_ascending h.ascending, fun k a => ?_, addToGroup_nonempty h.nonempty⟩
        rw [mem_addToGroup, ← h.mem_iff]
        constructor
        · rintro (hp | ⟨hk, ha⟩)
          · exact .inr hp
          · exact .inl ⟨hk.symm, ha.symm⟩
        · rintro (⟨hk, ha⟩ | hp)
          · exact .inr ⟨hk.symm, ha.symm⟩
          · exact .inl hp
      have hrest := ih _ _ hnext
      rw [List.foldl_cons]
      refine ⟨hrest.ascending, fun k a => ?_, hrest.nonempty⟩
      rw [← hrest.mem_iff, or_assoc]
      simp only [List.mem_cons, or_and_right, exists_or, exists_eq_left]
  have hnil : Grouped cmp (fun _ _ => False) ([] : List (κ × AltSet)) :=
    ⟨.nil, by simp, by simp⟩
  have h := hfold s.toList _ _ hnil
  simp only [false_or] at h
  exact h

/-- The alternative of a configuration is in the group of its key. -/
theorem exists_mem_groupAlts {s : ConfigSet} {key : Config → κ} {c : Config} (hc : c ∈ s.toList) :
    ∃ A, (key c, A) ∈ s.groupAlts cmp key ∧ c.alt ∈ A :=
  ((grouped s key).mem_iff (key c) c.alt).mp ⟨c, hc, rfl, rfl⟩

/-- **The groups by a key:** there is one for each key, and it holds the alternatives of the
configurations that have the key. -/
theorem mem_groupAlts_iff {s : ConfigSet} {key : Config → κ} {k : κ} {A : AltSet} :
    (k, A) ∈ s.groupAlts cmp key ↔ (∃ c ∈ s.toList, key c = k) ∧
      ∀ a, a ∈ A ↔ ∃ c ∈ s.toList, key c = k ∧ c.alt = a := by
  have hg : Grouped cmp (fun k a => ∃ c ∈ s.toList, key c = k ∧ c.alt = a)
    (s.groupAlts cmp key) := grouped s key
  have hunique : ∀ A B, (k, A) ∈ s.groupAlts cmp key → (k, B) ∈ s.groupAlts cmp key → A = B := by
    intro A B hA hB
    by_contra hne
    have hpair := hg.ascending.imp (S := fun a b => a.1 ≠ b.1) fun {a b} hab heq => by
      have hself : cmp b.1 b.1 = .eq := Std.ReflCmp.compare_self
      rw [heq, hself] at hab
      cases hab
    have hsymm : Std.Symm fun a b : κ × AltSet => a.1 ≠ b.1 := ⟨fun _ _ h => h.symm⟩
    exact hpair.forall hA hB (fun heq => hne (Prod.mk.inj heq).2) rfl
  constructor
  · intro hA
    obtain ⟨a, ha⟩ := hg.nonempty k A hA
    obtain ⟨c, hc, hk, _⟩ := (hg.mem_iff k a).mpr ⟨A, hA, ha⟩
    refine ⟨⟨c, hc, hk⟩, fun x => ?_⟩
    rw [hg.mem_iff]
    constructor
    · intro hx
      exact ⟨A, hA, hx⟩
    · rintro ⟨B, hB, hx⟩
      rwa [hunique A B hA hB]
  · rintro ⟨⟨c, hc, hk⟩, hA⟩
    obtain ⟨B, hB, _⟩ := (hg.mem_iff k c.alt).mp ⟨c, hc, hk, rfl⟩
    have heq : A = B := AltSet.ext_mem fun x => by
      rw [hA, hg.mem_iff]
      constructor
      · rintro ⟨B', hB', hx⟩
        rwa [hunique B B' hB hB']
      · intro hx
        exact ⟨B, hB, hx⟩
    exact heq ▸ hB

/-- The alternatives of a set are those of its configurations. -/
theorem mem_alts_iff {s : ConfigSet} {a : Nat} : a ∈ s.alts ↔ ∃ c ∈ s.toList, c.alt = a := by
  rw [alts, AltSet.mem_ofList, List.mem_map]

end ConfigSet

end Groups

end AdaptiveLL
