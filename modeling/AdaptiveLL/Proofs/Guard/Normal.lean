import AdaptiveLL.Proofs.Guard

/-!
# The laws of conjunction and disjunction

A guard in the normal form is either no condition, or a test, or a connective over at least two
operands that ascend, are normal themselves and could not be merged any further. What the two
connectives have in common is proved once: on normal guards other than `always` a guard amounts to
its list of operands, and joining two guards collects the operands of both. So a law of either
connective is a fact about which operands are collected.

* `Normal`: the normal form, for all operands down to the tests.
* `Connective.join_assoc`, `Connective.join_self`: the laws of either connective.
* `built_semilattices`: guards that are built by any nesting of the connectives are normal, and
  both connectives are commutative, associative and idempotent on them.
-/

namespace AdaptiveLL

namespace Guard

/-! ## The normal form -/

/-- **Operands that could not be merged any further:** they are in order and without repetition,
none is trivial or of the connective itself, and at most one is a precedence test. -/
structure Tidy (build : List Guard → Guard) (l : List Guard) : Prop where
  ascends : Ascends l
  apart : ∀ g ∈ l, g ≠ always ∧ ∀ k, g ≠ build k
  one_level : ∀ n m, precedence n ∈ l → precedence m ∈ l → n = m

/-- **Guards in the normal form.** -/
inductive Normal : Guard → Prop where
  | always : Normal always
  | predicate (rule pred : Nat) (contextual : Bool) : Normal (predicate rule pred contextual)
  | precedence (level : Int) : Normal (precedence level)
  | all {l : List Guard} (two_le : 2 ≤ l.length) (tidy : Tidy all l)
      (normal : ∀ g ∈ l, Normal g) : Normal (all l)
  | any {l : List Guard} (two_le : 2 ≤ l.length) (tidy : Tidy any l)
      (normal : ∀ g ∈ l, Normal g) : Normal (any l)

section Operands

variable {pick : List Int → Option Int} {covers : Int → Int → Prop}
  {build : List Guard → Guard} {l : List Guard}

theorem Picks.refl (h : Picks pick covers) (n : Int) : covers n n := by
  cases hpick : pick [n] with
  | none => exact absurd ((h.eq_none_iff _).mp hpick) (List.cons_ne_nil _ _)
  | some m =>
    obtain ⟨hm, hcovers⟩ := (h.eq_some_iff _ _).mp hpick
    obtain rfl := List.mem_singleton.mp hm
    exact hcovers m hm

/-- Collecting tidies operands up. -/
theorem tidy_collect (h : Picks pick covers) (hl : ∀ g ∈ l, g ≠ always ∧ ∀ k, g ≠ build k) :
    Tidy build (collect pick l) where
  ascends := ascends_collect _ _
  apart g hg := hl g (collect_subset h l hg)
  one_level n m hn hm := by
    -- Each of the two levels covers the other one.
    obtain ⟨hnl, hncovers⟩ := (mem_collect h).mp hn
    obtain ⟨hml, hmcovers⟩ := (mem_collect h).mp hm
    exact h.antisymm n m (hncovers n m rfl hml) (hmcovers m n rfl hnl)

/-- Tidy operands are collected as they are. -/
theorem Tidy.collect_eq (hl : Tidy build l) (h : Picks pick covers) : collect pick l = l := by
  refine (ascends_collect _ _).ext hl.ascends fun x => ?_
  rw [mem_collect h]
  refine ⟨And.left, fun hx => ⟨hx, fun n m hn hm => ?_⟩⟩
  subst hn
  rw [hl.one_level n m hx hm]
  exact h.refl m

theorem collect_append_comm (h : Picks pick covers) (l k : List Guard) :
    collect pick (l ++ k) = collect pick (k ++ l) :=
  collect_congr h fun _ => List.mem_append.trans (Or.comm.trans List.mem_append.symm)

theorem collect_ne_nil (h : Picks pick covers) (hl : l ≠ []) : collect pick l ≠ [] := by
  obtain ⟨g, hg⟩ := List.exists_mem_of_ne_nil l hl
  rcases exists_collected h hg with hin | ⟨n, -, -, hn, -⟩
  · exact List.ne_nil_of_mem hin
  · exact List.ne_nil_of_mem hn

end Operands

/-! ## The laws of a connective -/

namespace Connective

/-- A guard of the connective is normal if there are at least two operands, tidy and normal. -/
def Forms (c : Connective) : Prop :=
  ∀ l, Normal (c.build l) ↔ 2 ≤ l.length ∧ Tidy c.build l ∧ ∀ g ∈ l, Normal g

/-- **The operands of a normal guard:** one at least, tidy and normal. -/
structure Parts (c : Connective) (l : List Guard) : Prop where
  ne_nil : l ≠ []
  tidy : Tidy c.build l
  normal : ∀ g ∈ l, Normal g

variable {c : Connective} {covers : Int → Int → Prop} {l k : List Guard} {a b d : Guard}

theorem Parts.parts_collapse (hl : c.Parts l) (h : c.Lawful covers) :
    c.parts (collapse c.build l) = l :=
  h.parts_collapse fun g hg => h.parts_eq_self g (hl.tidy.apart g hg).2

theorem Parts.collapse_ne_always (hl : c.Parts l) (h : c.Lawful covers) :
    collapse c.build l ≠ always :=
  h.collapse_ne_always fun hmem => (hl.tidy.apart _ hmem).1 rfl

theorem Parts.normal_collapse (hl : c.Parts l) (hc : c.Forms) : Normal (collapse c.build l) := by
  unfold collapse
  split
  · next g => exact hl.normal g (List.mem_singleton_self g)
  · next hone =>
    have htwo : 2 ≤ l.length := by
      match l, hl.ne_nil, hone with
      | [g], _, hone => exact absurd rfl (hone g)
      | _ :: _ :: _, _, _ => simp
    exact (hc l).mpr ⟨htwo, hl.tidy, hl.normal⟩

/-- The operands of two guards together, collected. -/
theorem Parts.collect_append (hl : c.Parts l) (hk : c.Parts k) (h : c.Lawful covers) :
    c.Parts (collect c.pick (l ++ k)) where
  ne_nil := collect_ne_nil h.picks fun hnil => hl.ne_nil (List.append_eq_nil_iff.mp hnil).1
  tidy := tidy_collect h.picks (List.forall_mem_append.mpr ⟨hl.tidy.apart, hk.tidy.apart⟩)
  normal g hg :=
    List.forall_mem_append.mpr ⟨hl.normal, hk.normal⟩ g (collect_subset h.picks _ hg)

/-- **A normal guard amounts to its operands,** unless it is no condition. -/
theorem parts_of_normal (h : c.Lawful covers) (hc : c.Forms) (ha : Normal a) (hne : a ≠ always) :
    c.Parts (c.parts a) ∧ collapse c.build (c.parts a) = a := by
  by_cases hbuilt : ∃ l, a = c.build l
  · obtain ⟨l, rfl⟩ := hbuilt
    obtain ⟨htwo, htidy, hnormal⟩ := (hc l).mp ha
    rw [h.parts_build]
    match l, htwo with
    | _ :: _ :: _, _ => exact ⟨⟨List.cons_ne_nil _ _, htidy, hnormal⟩, rfl⟩
  · -- A guard that is not of the connective is its own operand.
    have hapart : ∀ l, a ≠ c.build l := fun l heq => hbuilt ⟨l, heq⟩
    rw [h.parts_eq_self a hapart]
    refine ⟨⟨List.cons_ne_nil _ _, ⟨List.pairwise_singleton _ _, ?_, ?_⟩, ?_⟩, rfl⟩
    · exact List.forall_mem_singleton.mpr ⟨hne, hapart⟩
    · intro n m hn hm
      exact precedence.inj ((List.mem_singleton.mp hn).trans (List.mem_singleton.mp hm).symm)
    · exact List.forall_mem_singleton.mpr ha

theorem join_comm (h : c.Lawful covers) (a b : Guard) : c.join a b = c.join b a := by
  unfold join
  rw [collect_append_comm h.picks]

section Normal

variable (h : c.Lawful covers) (hc : c.Forms) (ha : Normal a) (hb : Normal b) (hd : Normal d)
  (hane : a ≠ always) (hbne : b ≠ always) (hdne : d ≠ always)
include h hc ha hb hane hbne

/-- What joining two normal guards makes of their operands. -/
private theorem parts_collected : c.Parts (collect c.pick (c.parts a ++ c.parts b)) :=
  (parts_of_normal h hc ha hane).1.collect_append (parts_of_normal h hc hb hbne).1 h

theorem parts_join : c.parts (c.join a b) = collect c.pick (c.parts a ++ c.parts b) :=
  (parts_collected h hc ha hb hane hbne).parts_collapse h

theorem normal_join : Normal (c.join a b) :=
  (parts_collected h hc ha hb hane hbne).normal_collapse hc

theorem join_ne_always : c.join a b ≠ always :=
  (parts_collected h hc ha hb hane hbne).collapse_ne_always h

include hd hdne

/-- **Joining is associative:** either way the operands of all three guards are collected. -/
theorem join_assoc : c.join (c.join a b) d = c.join a (c.join b d) := by
  have hleft : collect c.pick (c.parts (c.join a b) ++ c.parts d) =
      collect c.pick (c.parts a ++ c.parts b ++ c.parts d) := by
    rw [parts_join h hc ha hb hane hbne, collect_collect_append h.picks]
  have hright : collect c.pick (c.parts a ++ c.parts (c.join b d)) =
      collect c.pick (c.parts a ++ c.parts b ++ c.parts d) := by
    rw [parts_join h hc hb hd hbne hdne, collect_append_comm h.picks,
      collect_collect_append h.picks, collect_append_comm h.picks, List.append_assoc]
  change collapse _ _ = collapse _ _
  rw [hleft, hright]

omit hb hbne hd hdne

/-- **Joining is idempotent:** a guard's operands are all there already. -/
theorem join_self : c.join a a = a := by
  obtain ⟨hparts, hcollapse⟩ := parts_of_normal h hc ha hane
  have hcollect : collect c.pick (c.parts a ++ c.parts a) = c.parts a := by
    have hsame : ∀ g, g ∈ c.parts a ++ c.parts a ↔ g ∈ c.parts a := fun g =>
      List.mem_append.trans (or_self_iff)
    rw [collect_congr h.picks hsame, hparts.tidy.collect_eq h.picks]
  unfold join
  rw [hcollect, hcollapse]

end Normal

end Connective

/-! ## Conjunction and disjunction -/

theorem conjunction_forms : conjunction.Forms := by
  refine fun l => ⟨fun h => ?_, fun ⟨htwo, htidy, hnormal⟩ => .all htwo htidy hnormal⟩
  cases h with
  | all htwo htidy hnormal => exact ⟨htwo, htidy, hnormal⟩

theorem disjunction_forms : disjunction.Forms := by
  refine fun l => ⟨fun h => ?_, fun ⟨htwo, htidy, hnormal⟩ => .any htwo htidy hnormal⟩
  cases h with
  | any htwo htidy hnormal => exact ⟨htwo, htidy, hnormal⟩

@[simp] theorem always_and (a : Guard) : always.and a = a := rfl

@[simp] theorem and_always (a : Guard) : a.and always = a := by
  unfold Guard.and
  split
  · next ha => exact (isAlways_iff.mp ha).symm
  · rfl

@[simp] theorem always_or (a : Guard) : always.or a = always := rfl

@[simp] theorem or_always (a : Guard) : a.or always = always := by
  unfold Guard.or
  rw [if_pos (by simp [isAlways])]

variable {a b d : Guard}

theorem Normal.and (ha : Normal a) (hb : Normal b) : Normal (a.and b) := by
  by_cases hane : a = .always
  · rwa [hane, always_and]
  by_cases hbne : b = .always
  · rwa [hbne, and_always]
  rw [and_eq_join hane hbne]
  exact Connective.normal_join conjunction_lawful conjunction_forms ha hb hane hbne

theorem Normal.or (ha : Normal a) (hb : Normal b) : Normal (a.or b) := by
  by_cases hane : a = .always
  · rw [hane, always_or]
    exact .always
  by_cases hbne : b = .always
  · rw [hbne, or_always]
    exact .always
  rw [or_eq_join hane hbne]
  exact Connective.normal_join disjunction_lawful disjunction_forms ha hb hane hbne

protected theorem and_comm (a b : Guard) : a.and b = b.and a := by
  by_cases ha : a = always
  · rw [ha, always_and, and_always]
  by_cases hb : b = always
  · rw [hb, always_and, and_always]
  rw [and_eq_join ha hb, and_eq_join hb ha, Connective.join_comm conjunction_lawful]

protected theorem or_comm (a b : Guard) : a.or b = b.or a := by
  by_cases ha : a = always
  · rw [ha, always_or, or_always]
  by_cases hb : b = always
  · rw [hb, always_or, or_always]
  rw [or_eq_join ha hb, or_eq_join hb ha, Connective.join_comm disjunction_lawful]

theorem Normal.and_assoc (ha : Normal a) (hb : Normal b) (hd : Normal d) :
    (a.and b).and d = a.and (b.and d) := by
  by_cases hane : a = .always
  · rw [hane, always_and, always_and]
  by_cases hbne : b = .always
  · rw [hbne, and_always, always_and]
  by_cases hdne : d = .always
  · rw [hdne, and_always, and_always]
  have hc := conjunction_forms
  have hab := Connective.join_ne_always conjunction_lawful hc ha hb hane hbne
  have hbd := Connective.join_ne_always conjunction_lawful hc hb hd hbne hdne
  rw [and_eq_join hane hbne, and_eq_join hbne hdne, and_eq_join hab hdne, and_eq_join hane hbd]
  exact Connective.join_assoc conjunction_lawful hc ha hb hd hane hbne hdne

theorem Normal.or_assoc (ha : Normal a) (hb : Normal b) (hd : Normal d) :
    (a.or b).or d = a.or (b.or d) := by
  by_cases hane : a = .always
  · rw [hane, always_or, always_or, always_or]
  by_cases hbne : b = .always
  · rw [hbne, or_always, always_or, or_always]
  by_cases hdne : d = .always
  · rw [hdne, or_always, or_always, or_always]
  have hc := disjunction_forms
  have hab := Connective.join_ne_always disjunction_lawful hc ha hb hane hbne
  have hbd := Connective.join_ne_always disjunction_lawful hc hb hd hbne hdne
  rw [or_eq_join hane hbne, or_eq_join hbne hdne, or_eq_join hab hdne, or_eq_join hane hbd]
  exact Connective.join_assoc disjunction_lawful hc ha hb hd hane hbne hdne

theorem Normal.and_self (ha : Normal a) : a.and a = a := by
  by_cases hane : a = .always
  · rw [hane, always_and]
  rw [and_eq_join hane hane]
  exact Connective.join_self conjunction_lawful conjunction_forms ha hane

theorem Normal.or_self (ha : Normal a) : a.or a = a := by
  by_cases hane : a = .always
  · rw [hane, always_or]
  rw [or_eq_join hane hane]
  exact Connective.join_self disjunction_lawful disjunction_forms ha hane

/-! ## Guards that are built -/

/-- **What can be built of tests by the connectives,** nested in any way. -/
inductive Built : Guard → Prop where
  | always : Built always
  | predicate (rule pred : Nat) (contextual : Bool) : Built (predicate rule pred contextual)
  | precedence (level : Int) : Built (precedence level)
  | and {a b : Guard} : Built a → Built b → Built (a.and b)
  | or {a b : Guard} : Built a → Built b → Built (a.or b)

theorem Built.normal (h : Built a) : Normal a := by
  induction h with
  | always => exact .always
  | predicate rule pred contextual => exact .predicate rule pred contextual
  | precedence level => exact .precedence level
  | and _ _ iha ihb => exact iha.and ihb
  | or _ _ iha ihb => exact iha.or ihb

/-- **Guards form two semilattices.** Whatever is built of tests by the connectives is normal. Both
connectives are commutative, associative and idempotent; `always` is neutral to conjunction and
absorbs disjunction. -/
theorem built_semilattices (ha : Built a) (hb : Built b) (hd : Built d) :
    a.Normal ∧
      (a.and b = b.and a ∧ (a.and b).and d = a.and (b.and d) ∧ a.and a = a ∧
        always.and a = a ∧ a.and always = a) ∧
      (a.or b = b.or a ∧ (a.or b).or d = a.or (b.or d) ∧ a.or a = a ∧
        always.or a = always ∧ a.or always = always) := by
  have hna := ha.normal
  have hnb := hb.normal
  have hnd := hd.normal
  refine ⟨hna, ⟨a.and_comm b, hna.and_assoc hnb hnd, hna.and_self, always_and a, and_always a⟩, ?_⟩
  exact ⟨a.or_comm b, hna.or_assoc hnb hnd, hna.or_self, always_or a, or_always a⟩

/-- Both connectives nested in each other, with precedence tests on all sides. -/
theorem built_semilattices_nested :
    let a := (predicate 0 2 false).and ((precedence 3).or (predicate 0 1 true))
    let b := (precedence 5).and (predicate 0 2 false)
    let d := (precedence 4).or (precedence 2)
    Built a ∧ Built b ∧ Built d ∧ (a.and b).and d = a.and (b.and d) ∧
      a.and (b.and d) = all [predicate 0 2 false, precedence 4,
        any [predicate 0 1 true, precedence 3]] := by
  intro a b d
  have ha : Built a := .and (.predicate ..) (.or (.precedence _) (.predicate ..))
  have hb : Built b := .and (.precedence _) (.predicate ..)
  have hd : Built d := .or (.precedence _) (.precedence _)
  obtain ⟨-, ⟨-, hassoc, -⟩, -⟩ := built_semilattices ha hb hd
  exact ⟨ha, hb, hd, hassoc, by decide⟩

end Guard

end AdaptiveLL
