import AdaptiveLL.Guard
import Mathlib.Data.Finset.Powerset
import Mathlib.Data.Finset.Union
import Mathlib.Data.List.Permutation
import Mathlib.Data.List.Sort

/-!
# Guards in their normal form

The order of guards is a linear one, so a list of operands is told by which operands it has. That
makes the disjunction of several guards depend on which guards there are, and not on their order,
and keeps the conjunctions of a finite stock of tests finite. To a host with a threshold for
precedence tests the normal form means what the guards mean that were joined.
-/

namespace AdaptiveLL

/-- **A host with a threshold:** it answers a precedence test by comparing the level with the least
one that may continue. -/
def Host.Graded (h : Host) : Prop := ∃ least, ∀ level, h.precedence level = decide (least ≤ level)

theorem Host.graded_atLevel (h : Host) (least : Int) : (h.atLevel least).Graded :=
  ⟨least, fun _ => rfl⟩

/-- **A steady oracle with a threshold.** -/
structure Oracle.Graded (o : Oracle) : Prop where
  steady : o.Steady
  now : o.now.Graded

theorem Oracle.steady_coe (h : Host) : (h : Oracle).Steady := fun _ => rfl

theorem Oracle.Steady.atLevel {o : Oracle} (ho : o.Steady) (least : Int) :
    (o.atLevel least).Steady := fun _ => congrArg (·.atLevel least) ((ho _).trans (ho _).symm)

/-- **Histories after which an oracle answers alike,** now and later on. -/
def Oracle.Agrees (o : Oracle) (past past' : List Callback) : Prop :=
  ∀ asked, o.after (past ++ asked) = o.after (past' ++ asked)

namespace Oracle

variable {o : Oracle} {past past' : List Callback}

theorem Agrees.refl (o : Oracle) (past : List Callback) : o.Agrees past past := fun _ => rfl

theorem Agrees.symm (h : o.Agrees past past') : o.Agrees past' past := fun asked => (h asked).symm

theorem Agrees.append (h : o.Agrees past past') (asked : List Callback) :
    o.Agrees (past ++ asked) (past' ++ asked) := fun more => by
  rw [List.append_assoc, List.append_assoc]
  exact h (asked ++ more)

theorem Steady.agrees (ho : o.Steady) (past past' : List Callback) : o.Agrees past past' :=
  fun _ => (ho _).trans (ho _).symm

end Oracle

namespace Guard

/-! ## The order -/

private theorem ord_swap {α : Type} [Ord α] [Std.OrientedOrd α] (a b : α) :
    Ord.compare a b = (Ord.compare b a).swap :=
  Std.OrientedCmp.eq_swap

mutual

/-- Comparing guards the other way round turns the answer round. -/
theorem compare_swap : ∀ a b : Guard, (compare a b).swap = compare b a
  | always, b => by cases b <;> rfl
  | predicate .., b => by
    cases b with
    | predicate =>
      simp only [compare, Ordering.swap_then, ← ord_swap]
    | _ => rfl
  | precedence n, b => by
    cases b with
    | precedence =>
      simp only [compare, ← ord_swap]
    | _ => rfl
  | all as, b => by
    cases b with
    | all bs => simpa only [compare] using compareLists_swap as bs
    | _ => rfl
  | any as, b => by
    cases b with
    | any bs => simpa only [compare] using compareLists_swap as bs
    | _ => rfl

/-- Comparing lists of operands the other way round turns the answer round. -/
theorem compareLists_swap : ∀ as bs : List Guard, (compareLists as bs).swap = compareLists bs as
  | [], bs => by cases bs <;> rfl
  | a :: as, [] => rfl
  | a :: as, b :: bs => by
    simp only [compareLists, Ordering.swap_then, compare_swap a b, compareLists_swap as bs]

end

/-- Comparing part after part is transitive if comparing the parts is. -/
private theorem then_trans {o o' o'' p p' p'' : Ordering} (h : o = .lt → o' = .lt → o'' = .lt)
    (hleft : o = .eq → o'' = o') (hright : o' = .eq → o'' = o)
    (hp : p = .lt → p' = .lt → p'' = .lt) (hlt : o.then p = .lt) (hlt' : o'.then p' = .lt) :
    o''.then p'' = .lt := by
  cases o with
  | gt => cases hlt
  | eq =>
    rw [hleft rfl]
    cases o' with
    | gt => cases hlt'
    | lt => rfl
    | eq => exact hp hlt hlt'
  | lt =>
    cases o' with
    | gt => cases hlt'
    | lt => rw [h rfl rfl]; rfl
    | eq => rw [hright rfl]; rfl

private theorem kindRank_le {a b : Guard} (h : compare a b = .lt) : a.kindRank ≤ b.kindRank := by
  cases a <;> cases b <;> simp_all [compare, kindRank, Nat.compare_eq_lt]

private theorem compare_of_kindRank {a b : Guard} (h : a.kindRank < b.kindRank) :
    compare a b = .lt := by
  cases a <;> cases b <;> simp_all [compare, kindRank, Nat.compare_eq_lt]

mutual

theorem compare_trans : ∀ a b c : Guard, compare a b = .lt → compare b c = .lt →
    compare a c = .lt := by
  intro a b c h h'
  by_cases hrank : a.kindRank < c.kindRank
  · exact compare_of_kindRank hrank
  have hab := kindRank_le h
  have hbc := kindRank_le h'
  -- The guards are all of one kind.
  have hrank' : b.kindRank = a.kindRank ∧ c.kindRank = a.kindRank := by omega
  clear hrank hab hbc
  match a, b, c with
  | predicate .., predicate .., predicate .. =>
    simp only [compare] at h h' ⊢
    have hnat : ∀ a b c : Nat, Ord.compare a b = .lt → Ord.compare b c = .lt →
        Ord.compare a c = .lt := fun a b c => Std.TransCmp.lt_trans
    refine then_trans (then_trans (hnat _ _ _) ?_ ?_ (hnat _ _ _)) ?_ ?_
      Std.TransCmp.lt_trans h h'
    all_goals simp +contextual [Ordering.then_eq_eq]
  | precedence _, precedence _, precedence _ =>
    simp only [compare] at h h' ⊢
    exact Std.TransCmp.lt_trans h h'
  | all as, all bs, all cs =>
    simp only [compare] at h h' ⊢
    exact compareLists_trans as bs cs h h'
  | any as, any bs, any cs =>
    simp only [compare] at h h' ⊢
    exact compareLists_trans as bs cs h h'
  | always, always, always => cases h

theorem compareLists_trans : ∀ as bs cs : List Guard, compareLists as bs = .lt →
    compareLists bs cs = .lt → compareLists as cs = .lt
  | [], bs, cs, h, h' => by cases bs <;> cases cs <;> simp_all [compareLists]
  | a :: as, [], cs, h, h' => by simp [compareLists] at h
  | a :: as, b :: bs, [], h, h' => by simp [compareLists] at h'
  | a :: as, b :: bs, c :: cs, h, h' => by
    simp only [compareLists] at h h' ⊢
    refine then_trans (compare_trans a b c) ?_ ?_ (compareLists_trans as bs cs) h h'
    · exact fun heq => by rw [eq_of_compare a b heq]
    · exact fun heq => by rw [eq_of_compare b c heq]

end

/-! ## Sorted lists -/

/-- The operands are in order, without repetition. -/
abbrev Ascends (l : List Guard) : Prop := l.Pairwise fun a b => compare a b = .lt

/-- An ascending list is told by its members. -/
theorem Ascends.ext {l l' : List Guard} (h : Ascends l) (h' : Ascends l')
    (hmem : ∀ g, g ∈ l ↔ g ∈ l') : l = l' := by
  have hne : ∀ {a b : Guard}, compare a b = .lt → a ≠ b := by
    rintro a _ hlt rfl
    simp [compare_self] at hlt
  refine List.Perm.eq_of_pairwise (fun a b _ _ hab hba => ?_) h h'
    ((List.perm_ext_iff_of_nodup (h.imp hne) (h'.imp hne)).mpr hmem)
  have hself := compare_trans a b a hab hba
  simp [compare_self] at hself

@[simp] theorem mem_place {g x : Guard} {l : List Guard} : x ∈ place g l ↔ x = g ∨ x ∈ l := by
  induction l with
  | nil => simp [place]
  | cons h rest ih =>
    unfold place
    split
    · simp
    · next heq =>
      obtain rfl := eq_of_compare g h heq
      simp
    · simp only [List.mem_cons, ih]
      tauto

theorem Ascends.place {g : Guard} {l : List Guard} (h : Ascends l) : Ascends (place g l) := by
  induction l with
  | nil => simp [Guard.place]
  | cons a rest ih =>
    obtain ⟨hhead, htail⟩ := List.pairwise_cons.mp h
    unfold Guard.place
    split
    · next hlt =>
      refine List.pairwise_cons.mpr ⟨fun b hb => ?_, h⟩
      rcases List.mem_cons.mp hb with rfl | hb
      · exact hlt
      · exact compare_trans g a b hlt (hhead b hb)
    · exact h
    · next hgt =>
      refine List.pairwise_cons.mpr ⟨fun b hb => ?_, ih htail⟩
      rcases mem_place.mp hb with rfl | hb
      · rw [← compare_swap, hgt]
        rfl
      · exact hhead b hb

/-- Operands put in order one after the other. -/
private theorem foldl_place (l acc : List Guard) (h : Ascends acc) :
    Ascends (l.foldl (fun acc g => place g acc) acc) ∧
      ∀ x, x ∈ l.foldl (fun acc g => place g acc) acc ↔ x ∈ l ∨ x ∈ acc := by
  induction l generalizing acc with
  | nil => exact ⟨h, by simp⟩
  | cons g l ih =>
    obtain ⟨hsorted, hmem⟩ := ih (place g acc) h.place
    refine ⟨hsorted, fun x => ?_⟩
    rw [List.foldl_cons, hmem x, mem_place, List.mem_cons]
    tauto

/-! ## Collected operands -/

theorem level?_eq_some_iff {g : Guard} {n : Int} : g.level? = some n ↔ g = precedence n := by
  cases g <;> simp [level?]

/-- What is collected ascends. -/
theorem ascends_collect (pick : List Int → Option Int) (l : List Guard) :
    Ascends (collect pick l) := by
  obtain ⟨hsorted, -⟩ := foldl_place l [] .nil
  unfold collect
  dsimp only
  split
  · exact hsorted
  · exact Ascends.place (hsorted.filter _)

/-- **A choice among the levels of precedence tests:** there is one if there is any level, and the
level that is chosen covers all the others. -/
structure Picks (pick : List Int → Option Int) (covers : Int → Int → Prop) : Prop where
  eq_none_iff : ∀ l, pick l = none ↔ l = []
  eq_some_iff : ∀ l n, pick l = some n ↔ n ∈ l ∧ ∀ m ∈ l, covers n m
  trans : ∀ n k m, covers n k → covers k m → covers n m
  antisymm : ∀ n m, covers n m → covers m n → n = m

/-- The lowest level covers the higher ones. -/
theorem picks_min : Picks List.min? (· ≤ ·) where
  eq_none_iff _ := List.min?_eq_none_iff
  eq_some_iff _ _ := List.min?_eq_some_iff
  trans _ _ _ := Int.le_trans
  antisymm _ _ := Int.le_antisymm

/-- The highest level covers the lower ones. -/
theorem picks_max : Picks List.max? (· ≥ ·) where
  eq_none_iff _ := List.max?_eq_none_iff
  eq_some_iff _ _ := List.max?_eq_some_iff
  trans _ _ _ h h' := Int.le_trans h' h
  antisymm _ _ h h' := Int.le_antisymm h' h

section Collected

variable {pick : List Int → Option Int} {covers : Int → Int → Prop} {l l' : List Guard} {x : Guard}

/-- **What is collected:** the operands, and of the precedence tests among them the one whose level
covers the others. -/
theorem mem_collect (h : Picks pick covers) :
    x ∈ collect pick l ↔ x ∈ l ∧ ∀ n m, x = precedence n → precedence m ∈ l → covers n m := by
  obtain ⟨-, hmem⟩ := foldl_place l [] .nil
  simp only [List.not_mem_nil, or_false] at hmem
  have hlevels : ∀ m, m ∈ (l.foldl (fun acc g => place g acc) []).filterMap level? ↔
      precedence m ∈ l := by
    intro m
    simp only [List.mem_filterMap, level?_eq_some_iff, exists_eq_right, hmem]
  unfold collect
  dsimp only
  split
  · next hnone =>
    have hno : ∀ m, precedence m ∉ l := by
      intro m hm
      have hm' := (hlevels m).mpr hm
      rw [(h.eq_none_iff _).mp hnone] at hm'
      cases hm'
    rw [hmem]
    exact ⟨fun hx => ⟨hx, fun n m _ hm => absurd hm (hno m)⟩, And.left⟩
  -- The covering level is kept, the other precedence tests are not.
  · next top htop =>
    obtain ⟨htop, hcovers⟩ := (h.eq_some_iff _ _).mp htop
    rw [hlevels] at htop
    rw [mem_place, List.mem_filter, hmem]
    constructor
    · rintro (rfl | ⟨hx, hlevel⟩)
      · refine ⟨htop, fun n m hn hm => ?_⟩
        obtain rfl := precedence.inj hn
        exact hcovers m ((hlevels m).mpr hm)
      · refine ⟨hx, fun n m hn _ => ?_⟩
        subst hn
        simp [level?] at hlevel
    · rintro ⟨hx, hall⟩
      cases hlevel : x.level? with
      | none => exact .inr ⟨hx, rfl⟩
      | some n =>
        obtain rfl := level?_eq_some_iff.mp hlevel
        have hn := hall n top rfl htop
        have htop' := hcovers n ((hlevels n).mpr hx)
        exact .inl (by rw [h.antisymm n top hn htop'])

/-- **Nothing is lost:** an operand that is not collected itself is a precedence test that one of
those collected covers. -/
theorem exists_collected (h : Picks pick covers) (hx : x ∈ l) :
    x ∈ collect pick l ∨
      ∃ n m, x = precedence m ∧ precedence n ∈ collect pick l ∧ covers n m := by
  cases hlevel : x.level? with
  | none =>
    refine .inl ((mem_collect h).mpr ⟨hx, fun n m hn _ => ?_⟩)
    subst hn
    simp [level?] at hlevel
  | some m =>
    obtain rfl := level?_eq_some_iff.mp hlevel
    have hlevels : ∀ k, precedence k ∈ l → k ∈ l.filterMap level? := fun k hk =>
      List.mem_filterMap.mpr ⟨_, hk, rfl⟩
    obtain ⟨n, hn⟩ : ∃ n, pick (l.filterMap level?) = some n := by
      cases hpick : pick (l.filterMap level?) with
      | some n => exact ⟨n, rfl⟩
      | none =>
        have hm := hlevels m hx
        rw [(h.eq_none_iff _).mp hpick] at hm
        cases hm
    obtain ⟨hmem, hcovers⟩ := (h.eq_some_iff _ _).mp hn
    obtain ⟨g, hg, hgn⟩ := List.mem_filterMap.mp hmem
    rw [level?_eq_some_iff.mp hgn] at hg
    refine .inr ⟨n, m, rfl, (mem_collect h).mpr ⟨hg, fun k k' hk hk' => ?_⟩,
      hcovers m (hlevels m hx)⟩
    obtain rfl := precedence.inj hk
    exact hcovers k' (hlevels k' hk')

/-- There is a precedence test among those collected that covers a given one. -/
private theorem exists_covering (h : Picks pick covers) {m : Int} (hm : precedence m ∈ l) :
    ∃ n, precedence n ∈ collect pick l ∧ covers n m := by
  rcases exists_collected h hm with hin | ⟨n, k, hk, hn, hcovers⟩
  · exact ⟨m, hin, ((mem_collect h).mp hin).2 m m rfl hm⟩
  · obtain rfl := precedence.inj hk
    exact ⟨n, hn, hcovers⟩

/-- What is collected are operands. -/
theorem collect_subset (h : Picks pick covers) (l : List Guard) : collect pick l ⊆ l :=
  fun _ hx => ((mem_collect h).mp hx).1

/-- Which operands are collected depends on which operands there are. -/
theorem collect_congr (h : Picks pick covers) (hl : ∀ g, g ∈ l ↔ g ∈ l') :
    collect pick l = collect pick l' := by
  refine (ascends_collect _ _).ext (ascends_collect _ _) fun x => ?_
  simp only [mem_collect h, hl]

/-- Operands may be collected before others join them. -/
theorem collect_collect_append (h : Picks pick covers) (l k : List Guard) :
    collect pick (collect pick l ++ k) = collect pick (l ++ k) := by
  refine (ascends_collect _ _).ext (ascends_collect _ _) fun x => ?_
  simp only [mem_collect h (l := _ ++ _), List.mem_append]
  constructor
  · rintro ⟨hx, hcovers⟩
    refine ⟨hx.imp_left fun hx => collect_subset h l hx, fun n m hn hm => ?_⟩
    rcases hm with hm | hm
    · obtain ⟨k, hk, hkm⟩ := exists_covering h hm
      exact h.trans n k m (hcovers n k hn (.inl hk)) hkm
    · exact hcovers n m hn (.inr hm)
  · rintro ⟨hx, hcovers⟩
    refine ⟨hx.imp_left fun hx => (mem_collect h).mpr ⟨hx, fun n m hn hm => ?_⟩,
      fun n m hn hm => ?_⟩
    · exact hcovers n m hn (.inl hm)
    · exact hcovers n m hn (hm.imp_left fun hm => collect_subset h l hm)

end Collected

/-! ## Connectives -/

theorem isAlways_iff {g : Guard} : g.isAlways = true ↔ g = always := by
  cases g <;> simp [isAlways]

/-- **A connective of guards:** how operands are put together, how they are found again, and which
of the precedence tests among them is kept. -/
structure Connective where
  build : List Guard → Guard
  parts : Guard → List Guard
  pick : List Int → Option Int

/-- All operands hold; the lowest level decides. -/
def conjunction : Connective := ⟨all, conjuncts, List.min?⟩

/-- Some operand holds; the highest level decides. -/
def disjunction : Connective := ⟨any, disjuncts, List.max?⟩

namespace Connective

/-- Two guards joined, neither of which is trivial. -/
def join (c : Connective) (a b : Guard) : Guard :=
  collapse c.build (collect c.pick (c.parts a ++ c.parts b))

/-- The operands that were put together are found again, and a guard that was not put together is
its own and only operand. -/
structure Lawful (c : Connective) (covers : Int → Int → Prop) : Prop where
  picks : Picks c.pick covers
  parts_build : ∀ l, c.parts (c.build l) = l
  parts_eq_self : ∀ g, (∀ l, g ≠ c.build l) → c.parts g = [g]
  build_ne_always : ∀ l, c.build l ≠ always

variable {c : Connective} {covers : Int → Int → Prop} {l : List Guard}

/-- The operands of a guard that was put together of guards that were not. -/
theorem Lawful.parts_collapse (h : c.Lawful covers) (hl : ∀ g ∈ l, c.parts g = [g]) :
    c.parts (collapse c.build l) = l := by
  unfold collapse
  split
  · next g => exact hl g (List.mem_singleton_self g)
  · exact h.parts_build _

theorem Lawful.collapse_ne_always (h : c.Lawful covers) (hl : always ∉ l) :
    collapse c.build l ≠ always := by
  unfold collapse
  split
  · next g =>
    rintro rfl
    exact hl (List.mem_singleton_self _)
  · exact h.build_ne_always _

end Connective

theorem conjunction_lawful : conjunction.Lawful (· ≤ ·) where
  picks := picks_min
  parts_build _ := rfl
  parts_eq_self g hg := by
    cases g with
    | all l => exact absurd rfl (hg l)
    | _ => rfl
  build_ne_always _ := nofun

theorem disjunction_lawful : disjunction.Lawful (· ≥ ·) where
  picks := picks_max
  parts_build _ := rfl
  parts_eq_self g hg := by
    cases g with
    | any l => exact absurd rfl (hg l)
    | _ => rfl
  build_ne_always _ := nofun

theorem and_eq_join {a b : Guard} (ha : a ≠ always) (hb : b ≠ always) :
    a.and b = conjunction.join a b := by
  unfold Guard.and
  rw [if_neg (mt isAlways_iff.mp ha), if_neg (mt isAlways_iff.mp hb)]
  rfl

theorem or_eq_join {a b : Guard} (ha : a ≠ always) (hb : b ≠ always) :
    a.or b = disjunction.join a b := by
  unfold Guard.or
  rw [if_neg (by simp [isAlways_iff, ha, hb])]
  rfl

/-! ## Disjunctions -/

/-- The guard is no disjunction. -/
def Simple : Guard → Prop
  | any _ => False
  | _ => True

theorem Simple.disjuncts_eq {g : Guard} (h : g.Simple) : g.disjuncts = [g] := by
  cases g with
  | any => cases h
  | _ => rfl

/-- The disjunction of some guards in its normal form. -/
def anyOf (l : List Guard) : Guard :=
  if always ∈ l then always else collapse any (collect List.max? l)

/-- **The disjunction of some guards depends on which guards there are.** -/
theorem anyOf_congr {l l' : List Guard} (h : ∀ g, g ∈ l ↔ g ∈ l') : anyOf l = anyOf l' := by
  unfold anyOf
  rw [collect_congr picks_max h]
  simp only [h]

private theorem anyOf_singleton (g : Guard) : anyOf [g] = g := by
  have hone : collect List.max? [g] = [g] := by
    refine (ascends_collect _ _).ext (List.pairwise_singleton _ _) fun x => ?_
    rw [mem_collect picks_max]
    refine ⟨And.left, fun hx => ⟨hx, fun n m hn hm => ?_⟩⟩
    have heq := (List.mem_singleton.mp hm).trans (List.mem_singleton.mp hx).symm
    exact (precedence.inj (heq.trans hn)).le
  unfold anyOf
  split
  · next hmem => exact List.mem_singleton.mp hmem
  · rw [hone]
    rfl

private theorem anyOf_or {l : List Guard} {g : Guard} (hl : ∀ h ∈ l, h.Simple) (hg : g.Simple) :
    (anyOf l).or g = anyOf (l ++ [g]) := by
  by_cases halways : always ∈ l
  · simp [anyOf, halways, Guard.or, isAlways]
  by_cases hlast : g = always
  · subst hlast
    simp [anyOf, Guard.or, isAlways]
  have hno : always ∉ l ++ [g] := by simp [halways, Ne.symm hlast]
  have hsub := collect_subset picks_max l
  have hjoined : collapse any (collect List.max? l) ≠ always :=
    disjunction_lawful.collapse_ne_always fun hmem => halways (hsub hmem)
  have hparts : (collapse any (collect List.max? l)).disjuncts = collect List.max? l :=
    disjunction_lawful.parts_collapse fun x hx => (hl x (hsub hx)).disjuncts_eq
  simp only [anyOf, halways, hno, if_false]
  rw [or_eq_join hjoined hlast]
  change collapse any (collect List.max? (disjuncts _ ++ disjuncts g)) = _
  rw [hparts, hg.disjuncts_eq, collect_collect_append picks_max]

/-- Guards joined one after the other come to the normal form. -/
theorem foldl_or {l : List Guard} {g : Guard} (h : ∀ x ∈ g :: l, x.Simple) :
    l.foldl Guard.or g = anyOf (g :: l) := by
  have hgen : ∀ acc : List Guard, (∀ x ∈ acc ++ l, x.Simple) →
      l.foldl Guard.or (anyOf acc) = anyOf (acc ++ l) := by
    clear h
    induction l with
    | nil =>
      intro acc _
      rw [List.append_nil]
      rfl
    | cons a l ih =>
      intro acc hacc
      rw [List.foldl_cons, anyOf_or (fun x hx => hacc x (by simp [hx])) (hacc a (by simp)),
        ih (acc ++ [a]) (by simpa using hacc)]
      simp
  have hone := hgen [g] h
  rwa [anyOf_singleton] at hone

/-! ## Guards put to a host -/

mutual

/-- **A host that never changes its answers** is put the questions of the guard, one by one. -/
theorem put_of_steady {o : Oracle} (ho : o.Steady) (position : Nat) (past : List Callback) :
    ∀ g : Guard, g.put o position past = (g.holds o.now position, g.asked o.now position)
  | always => rfl
  | predicate .. | precedence _ => by rw [put, ho past]; rfl
  | all operands => putAll_of_steady ho position past operands
  | any operands => putAny_of_steady ho position past operands

private theorem putAll_of_steady {o : Oracle} (ho : o.Steady) (position : Nat)
    (past : List Callback) : ∀ l : List Guard,
      putAll o position past l =
        (allHold o.now position l, askedUntilFalse o.now position l)
  | [] => rfl
  | g :: l => by
    rw [putAll, put_of_steady ho position past g]
    dsimp only
    rw [putAll_of_steady ho position _ l, allHold, askedUntilFalse]
    cases g.holds o.now position <;> simp

private theorem putAny_of_steady {o : Oracle} (ho : o.Steady) (position : Nat)
    (past : List Callback) : ∀ l : List Guard,
      putAny o position past l =
        (anyHolds o.now position l, askedUntilTrue o.now position l)
  | [] => rfl
  | g :: l => by
    rw [putAny, put_of_steady ho position past g]
    dsimp only
    rw [putAny_of_steady ho position _ l, anyHolds, askedUntilTrue]
    cases g.holds o.now position <;> simp

end

mutual

/-- **After histories that an oracle does not tell apart** a guard comes to the same. -/
theorem put_of_agrees {o : Oracle} {past past' : List Callback} (h : o.Agrees past past')
    (position : Nat) : ∀ g : Guard, g.put o position past = g.put o position past'
  | always => rfl
  | predicate .. | precedence _ => by
    have hnow := h []
    rw [List.append_nil, List.append_nil] at hnow
    rw [put, put, hnow]
  | all operands => putAll_of_agrees h position operands
  | any operands => putAny_of_agrees h position operands

private theorem putAll_of_agrees {o : Oracle} {past past' : List Callback}
    (h : o.Agrees past past') (position : Nat) :
    ∀ l : List Guard, putAll o position past l = putAll o position past' l
  | [] => rfl
  | g :: l => by
    rw [putAll, putAll, put_of_agrees h position g]
    dsimp only
    rw [putAll_of_agrees (h.append _) position l]

private theorem putAny_of_agrees {o : Oracle} {past past' : List Callback}
    (h : o.Agrees past past') (position : Nat) :
    ∀ l : List Guard, putAny o position past l = putAny o position past' l
  | [] => rfl
  | g :: l => by
    rw [putAny, putAny, put_of_agrees h position g]
    dsimp only
    rw [putAny_of_agrees (h.append _) position l]

end

section Evaluation

variable {host : Host} {position : Nat} {l : List Guard} {g a b : Guard}

theorem allHold_iff : allHold host position l = true ↔ ∀ g ∈ l, g.holds host position = true := by
  induction l with
  | nil => simp [allHold]
  | cons g l ih => simp [allHold, ih]

theorem anyHolds_iff : anyHolds host position l = true ↔ ∃ g ∈ l, g.holds host position = true := by
  induction l with
  | nil => simp [anyHolds]
  | cons g l ih => simp [anyHolds, ih]

private theorem allHold_conjuncts (g : Guard) :
    allHold host position g.conjuncts = g.holds host position := by
  cases g <;> simp [conjuncts, allHold, holds]

private theorem anyHolds_disjuncts (g : Guard) :
    anyHolds host position g.disjuncts = g.holds host position := by
  cases g <;> simp [disjuncts, anyHolds, holds]

private theorem holds_collapse_all (l : List Guard) :
    (collapse all l).holds host position = allHold host position l := by
  unfold collapse
  split
  · simp [allHold]
  · simp [holds]

private theorem holds_collapse_any (l : List Guard) :
    (collapse any l).holds host position = anyHolds host position l := by
  unfold collapse
  split
  · simp [anyHolds]
  · simp [holds]

/-- Of the precedence tests of a conjunction the one of the lowest level decides. -/
private theorem allHold_collect (hhost : host.Graded) (l : List Guard) :
    allHold host position (collect List.min? l) = allHold host position l := by
  rw [Bool.eq_iff_iff, allHold_iff, allHold_iff]
  constructor
  · intro hall g hg
    rcases exists_collected picks_min hg with hin | ⟨n, m, rfl, hn, hle⟩
    · exact hall g hin
    · -- The higher level passes the threshold because the lower one does.
      obtain ⟨least, hleast⟩ := hhost
      have hlow := hall _ hn
      simp only [holds, hleast, decide_eq_true_eq] at hlow ⊢
      exact hlow.trans hle
  · intro hall g hg
    exact hall g (collect_subset picks_min l hg)

/-- Of the precedence tests of a disjunction the one of the highest level decides. -/
private theorem anyHolds_collect (hhost : host.Graded) (l : List Guard) :
    anyHolds host position (collect List.max? l) = anyHolds host position l := by
  rw [Bool.eq_iff_iff, anyHolds_iff, anyHolds_iff]
  constructor
  · intro ⟨g, hg, hholds⟩
    exact ⟨g, collect_subset picks_max l hg, hholds⟩
  · intro ⟨g, hg, hholds⟩
    rcases exists_collected picks_max hg with hin | ⟨n, m, rfl, hn, hle⟩
    · exact ⟨g, hin, hholds⟩
    · -- The higher level passes the threshold because the lower one does.
      obtain ⟨least, hleast⟩ := hhost
      refine ⟨precedence n, hn, ?_⟩
      simp only [holds, hleast, decide_eq_true_eq] at hholds ⊢
      exact hholds.trans hle

/-- **A conjunction holds if both of its sides do,** to a host that answers precedence tests by a
threshold. -/
theorem holds_and (hhost : host.Graded) (a b : Guard) :
    (a.and b).holds host position = (a.holds host position && b.holds host position) := by
  by_cases ha : a = always
  · subst ha
    simp [Guard.and, isAlways, holds]
  by_cases hb : b = always
  · subst hb
    simp [Guard.and, isAlways_iff, ha, holds]
  have happend : allHold host position (a.conjuncts ++ b.conjuncts) =
      (allHold host position a.conjuncts && allHold host position b.conjuncts) := by
    rw [Bool.eq_iff_iff, Bool.and_eq_true, allHold_iff, allHold_iff, allHold_iff]
    exact List.forall_mem_append
  rw [and_eq_join ha hb]
  change (collapse all (collect List.min? (a.conjuncts ++ b.conjuncts))).holds host position = _
  rw [holds_collapse_all, allHold_collect hhost, happend, allHold_conjuncts, allHold_conjuncts]

/-- **A disjunction holds if one of its sides does,** to a host that answers precedence tests by a
threshold. -/
theorem holds_or (hhost : host.Graded) (a b : Guard) :
    (a.or b).holds host position = (a.holds host position || b.holds host position) := by
  by_cases ha : a = always
  · subst ha
    simp [Guard.or, isAlways, holds]
  by_cases hb : b = always
  · subst hb
    simp [Guard.or, isAlways, holds]
  have happend : anyHolds host position (a.disjuncts ++ b.disjuncts) =
      (anyHolds host position a.disjuncts || anyHolds host position b.disjuncts) := by
    rw [Bool.eq_iff_iff, Bool.or_eq_true, anyHolds_iff, anyHolds_iff, anyHolds_iff]
    simp [or_and_right, exists_or]
  rw [or_eq_join ha hb]
  change (collapse any (collect List.max? (a.disjuncts ++ b.disjuncts))).holds host position = _
  rw [holds_collapse_any, anyHolds_collect hhost, happend, anyHolds_disjuncts, anyHolds_disjuncts]

/-- **The normal form keeps the meaning.** Whatever guards are joined, and whether or not they are
in the normal form themselves, to a host with a threshold their conjunction holds just when both do
and their disjunction just when one of them does. -/
theorem joined_holds (hhost : host.Graded) (position : Nat) (a b : Guard) :
    (a.and b).holds host position = (a.holds host position && b.holds host position) ∧
      (a.or b).holds host position = (a.holds host position || b.holds host position) :=
  ⟨holds_and hhost a b, holds_or hhost a b⟩

/-- Operands out of order, several precedence tests on one side, and a conjunction inside one. -/
theorem joined_holds_unordered :
    let host := Host.ofScript { plain := [((0, 1), false)], leastLevel := 4 }
    let a := all [precedence 9, predicate 0 2 true, all [precedence 5], precedence 6]
    let b := any [predicate 0 1 false, precedence 3, precedence 2]
    host.Graded ∧ (a.and b).holds host 7 = false ∧ (a.or b).holds host 7 = true := by
  intro host a b
  have hgraded : host.Graded := ⟨4, fun _ => rfl⟩
  obtain ⟨hand, hor⟩ := joined_holds hgraded 7 a b
  have ha : a.holds host 7 = true := by decide
  have hb : b.holds host 7 = false := by decide
  rw [hand, hor, ha, hb]
  exact ⟨hgraded, rfl, rfl⟩

/-- Guards joined one after the other hold if one of them does. -/
theorem holds_foldl_or (hhost : host.Graded) (l : List Guard) (g : Guard) :
    (l.foldl Guard.or g).holds host position = anyHolds host position (g :: l) := by
  induction l generalizing g with
  | nil => simp [anyHolds]
  | cons b l ih =>
    rw [List.foldl_cons, ih]
    simp only [anyHolds, holds_or hhost, Bool.or_assoc]

end Evaluation

/-! ## Conjunctions -/

/-- **What can be made of tests by conjunction:** nothing, one of them, or several. -/
def Made (tests : Finset Guard) (g : Guard) : Prop :=
  g = always ∨ g ∈ tests ∨ ∃ l : List Guard, l.Nodup ∧ (∀ x ∈ l, x ∈ tests) ∧ g = all l

/-- The guards that can be made of tests. -/
noncomputable def stock (tests : Finset Guard) : Finset Guard :=
  {always} ∪ tests ∪ tests.powerset.biUnion fun s =>
    (s.toList.permutations.map all).toFinset

theorem mem_stock_iff {tests : Finset Guard} {g : Guard} : g ∈ stock tests ↔ Made tests g := by
  unfold stock
  simp only [Finset.mem_union, Finset.mem_singleton, Finset.mem_biUnion, Finset.mem_powerset,
    List.mem_toFinset, List.mem_map, List.mem_permutations]
  constructor
  · rintro ((rfl | h) | ⟨s, hsub, l, hperm, rfl⟩)
    · exact .inl rfl
    · exact .inr (.inl h)
    · refine .inr (.inr ⟨l, hperm.nodup_iff.mpr (Finset.nodup_toList s), fun x hx => ?_, rfl⟩)
      exact hsub (Finset.mem_toList.mp (hperm.mem_iff.mp hx))
  · rintro (rfl | h | ⟨l, hnodup, hsub, rfl⟩)
    · exact .inl (.inl rfl)
    · exact .inl (.inr h)
    · refine .inr ⟨l.toFinset, fun x hx => hsub x (List.mem_toFinset.mp hx), l, ?_, rfl⟩
      exact (List.perm_ext_iff_of_nodup hnodup (Finset.nodup_toList _)).mpr (by simp)

/-- A test of the host. -/
def IsTest : Guard → Prop
  | predicate .. | precedence _ => True
  | _ => False

theorem IsTest.conjuncts_eq {g : Guard} (h : g.IsTest) : g.conjuncts = [g] := by
  cases g <;> first | rfl | cases h

variable {tests : Finset Guard} {g a : Guard}

theorem Made.simple (htests : ∀ t ∈ tests, t.IsTest) (h : Made tests g) : g.Simple := by
  rcases h with rfl | h | ⟨l, -, -, rfl⟩
  · trivial
  · cases g <;> first | trivial | cases htests _ h
  · trivial

/-- What is made of tests stays so if one more test is joined to it. -/
theorem Made.and (htests : ∀ t ∈ tests, t.IsTest) (hg : Made tests g) (ha : a ∈ tests) :
    Made tests (g.and a) := by
  unfold Guard.and
  split
  · exact .inr (.inl ha)
  next hg' =>
  split
  · exact hg
  have hsub : ∀ x ∈ collect List.min? (g.conjuncts ++ a.conjuncts), x ∈ tests := by
    intro x hx
    have hmem := collect_subset picks_min _ hx
    rw [(htests a ha).conjuncts_eq, List.mem_append, List.mem_singleton] at hmem
    rcases hmem with hmem | rfl
    · rcases hg with rfl | hg | ⟨l, -, hl, rfl⟩
      · simp [isAlways] at hg'
      · rw [(htests g hg).conjuncts_eq, List.mem_singleton] at hmem
        exact hmem ▸ hg
      · exact hl x hmem
    · exact ha
  unfold collapse
  split
  · next x heq => exact .inr (.inl (hsub x (heq ▸ List.mem_singleton_self x)))
  · refine .inr (.inr ⟨_, (ascends_collect List.min? _).imp ?_, hsub, rfl⟩)
    rintro x _ hlt rfl
    simp [compare_self] at hlt

end Guard

end AdaptiveLL
