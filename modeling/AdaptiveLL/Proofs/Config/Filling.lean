import AdaptiveLL.Proofs.Config.Insertion
import AdaptiveLL.Proofs.Stacks.Calls
import Mathlib.Order.Bounds.Basic

/-!
# Filling a parser's set

A parser's set is filled by adding configurations to it, one after the other, while other calls may
be made of the graph beside it. What it then holds is the union of what was added: one configuration
for each place, under the merge of all stacks that were added there. The order in which they were
added makes no difference, since merging is a canonical union.
-/

namespace AdaptiveLL

namespace StackGraph

variable {g g' : StackGraph} {wild : Bool} {a b d e : StackId} {bs : List StackId}

/-! ## Merging several nodes -/

/-- **Merging nodes one after the other,** where every merge has been made before. -/
inductive Gathered (g : StackGraph) (wild : Bool) (a : StackId) :
    List StackId → StackId → Prop where
  | one : Gathered g wild a [] a
  | more {bs : List StackId} {b d e : StackId} : Gathered g wild a bs d → b < g.size →
      (merge d b wild).run g = .ok e g → Gathered g wild a (bs ++ [b]) e

namespace Gathered

theorem run (h : g.Gathered wild a bs d) :
    (bs.foldlM (fun a b => merge a b wild) a).run g = .ok d g := by
  induction h with
  | one => rfl
  | more _ _ hmerge ih =>
    rw [List.foldlM_append, run_bind_of_ok ih, List.foldlM_cons, run_bind_of_ok hmerge]
    rfl

/-- What is gathered is the union. -/
theorem stackSet_eq (hg : g.Sound) (ha : a < g.size) (h : g.Gathered wild a bs d) :
    d < g.size ∧ g.stackSet d = Stacks.unitedAll wild ((a :: bs).map g.stackSet) := by
  induction h with
  | one => exact ⟨ha, Stacks.unitedAll_singleton.symm⟩
  | @more bs b d e _ hb hmerge ih =>
    obtain ⟨hd, hset⟩ := ih
    obtain ⟨-, he, hunited⟩ := (merge_unites hg hd hb wild).apply hmerge
    refine ⟨he, ?_⟩
    rw [hunited, hset, ← List.cons_append, List.map_append, List.map_singleton,
      Stacks.unitedAll_concat]

/-- What has been merged once is merged again in a larger graph. -/
theorem grown (hg : g.Sound) (hgrown : g.Grown g') (ha : a < g.size)
    (h : g.Gathered wild a bs d) : g'.Gathered wild a bs d := by
  induction h with
  | one => exact .one
  | @more bs b d e hbs hb hmerge ih =>
    obtain ⟨hd, -⟩ := hbs.stackSet_eq hg ha
    obtain ⟨-, he, hunited⟩ := (merge_unites hg hd hb wild).apply hmerge
    refine ih.more (hgrown.lt hb) (merge_again hgrown.sound (hgrown.lt hd) (hgrown.lt hb)
      (hgrown.lt he) ?_)
    rw [hgrown.stackSet_eq hg he, hgrown.stackSet_eq hg hd, hgrown.stackSet_eq hg hb, hunited]

/-- A merge adds to what is gathered. -/
theorem merged (hg : g.Sound) (ha : a < g.size) (h : g.Gathered wild a bs d) (hb : b < g.size)
    (hmerge : (merge d b wild).run g = .ok e g') : g'.Gathered wild a (bs ++ [b]) e := by
  obtain ⟨hd, -⟩ := h.stackSet_eq hg ha
  obtain ⟨hgrown, he, hunited⟩ := (merge_unites hg hd hb wild).apply hmerge
  refine (h.grown hg hgrown ha).more (hgrown.lt hb) (merge_again hgrown.sound (hgrown.lt hd)
    (hgrown.lt hb) he ?_)
  rw [hunited, hgrown.stackSet_eq hg hd, hgrown.stackSet_eq hg hb]

end Gathered

end StackGraph

open StackGraph (Grown merge)

/-! ## Configurations that gather others -/

/-- **The configuration is what the first one and the others gather to,** at their place: it has the
merge of their stacks, the largest of their counts of outer contexts, and their marks. -/
structure Config.Gathers (g : StackGraph) (wild : Bool) (first : Config) (others : List Config)
    (d : Config) : Prop where
  stack : g.Gathered wild first.stack (others.map Config.stack) d.stack
  outer : IsGreatest {n | ∃ c ∈ first :: others, c.outer = n} d.outer
  nonGreedy_eq : d.nonGreedy = (first :: others).any Config.nonGreedy
  routine_eq : d.routine = none

namespace Config.Gathers

variable {g g' : StackGraph} {wild : Bool} {first : Config} {others : List Config} {d c : Config}

theorem one (h : c.routine = none) : Gathers g wild c [] c where
  stack := .one
  outer := ⟨⟨c, List.mem_cons_self, rfl⟩, by rintro n ⟨c', hc', rfl⟩; simp_all⟩
  nonGreedy_eq := by simp
  routine_eq := h

theorem grown (hg : g.Sound) (hgrown : g.Grown g') (hfirst : first.stack < g.size)
    (h : Gathers g wild first others d) : Gathers g' wild first others d where
  stack := h.stack.grown hg hgrown hfirst
  outer := h.outer
  nonGreedy_eq := h.nonGreedy_eq
  routine_eq := h.routine_eq

/-- Absorbing a configuration under the merge of the stacks. -/
theorem absorb (hg : g.Sound) (hfirst : first.stack < g.size) (h : Gathers g wild first others d)
    (hc : c.stack < g.size) {id : StackId}
    (hmerge : (merge d.stack c.stack wild).run g = .ok id g') :
    Gathers g' wild first (others ++ [c]) (ConfigSet.absorb d c id) where
  stack := by
    rw [List.map_append]
    exact h.stack.merged hg hfirst hc hmerge
  outer := by
    obtain ⟨⟨c₀, hc₀, hd⟩, hmax⟩ := h.outer
    rw [← List.cons_append]
    constructor
    · rcases le_total d.outer c.outer with hle | hle
      · exact ⟨c, by simp, (max_eq_right hle).symm⟩
      · exact ⟨c₀, List.mem_append_left _ hc₀, hd.trans (max_eq_left hle).symm⟩
    · rintro n ⟨c', hc', rfl⟩
      rcases List.mem_append.mp hc' with hc' | hc'
      · exact (hmax ⟨c', hc', rfl⟩).trans (le_max_left _ _)
      · exact List.mem_singleton.mp hc' ▸ le_max_right _ _
  nonGreedy_eq := by
    rw [← List.cons_append, List.any_append, ← h.nonGreedy_eq]
    simp [ConfigSet.absorb]
  routine_eq := h.routine_eq

/-- **What configurations gather to does not depend on their order.** -/
theorem eq_of_perm (hg : g.Sound) {first' : Config} {others' : List Config} {d' : Config}
    (hfirst : first.stack < g.size) (hfirst' : first'.stack < g.size)
    (h : Gathers g wild first others d) (h' : Gathers g wild first' others' d')
    (hperm : (first :: others).Perm (first' :: others')) (hplace : d.place = d'.place) :
    d = d' := by
  have hstack : d.stack = d'.stack := by
    obtain ⟨hd, hset⟩ := h.stack.stackSet_eq hg hfirst
    obtain ⟨hd', hset'⟩ := h'.stack.stackSet_eq hg hfirst'
    refine hg.eq_of_stackSet_eq hd hd' (hset.trans (.trans ?_ hset'.symm))
    exact Stacks.unitedAll_perm ((hperm.map Config.stack).map g.stackSet)
  have houter : d.outer = d'.outer := by
    refine h.outer.unique ?_
    have hsame : {n | ∃ c ∈ first :: others, c.outer = n} =
        {n | ∃ c ∈ first' :: others', c.outer = n} := by
      ext n
      exact exists_congr fun c => and_congr_left fun _ => hperm.mem_iff
    exact hsame ▸ h'.outer
  have hgreedy : d.nonGreedy = d'.nonGreedy :=
    h.nonGreedy_eq.trans (hperm.any_eq.trans h'.nonGreedy_eq.symm)
  obtain ⟨hstate, htag⟩ := Prod.mk.inj hplace
  obtain ⟨halt, hguard⟩ := Prod.mk.inj htag
  have hroutine := h.routine_eq.trans h'.routine_eq.symm
  cases d
  cases d'
  simp_all

end Config.Gathers

namespace ConfigSet

variable {full : Bool} {room : Nat} {g g' : StackGraph} {s : ConfigSet} {cs : List Config}

/-- **A parser's set that was filled** with some configurations, in the order of the list, while
other calls were made of the graph. Adding none of them failed. -/
inductive Filled (full : Bool) (room : Nat) : StackGraph → ConfigSet → List Config → Prop where
  | new {g : StackGraph} : g.Built → Filled full room g { forParser full with maxSize := room } []
  | meanwhile {g g' : StackGraph} {s : ConfigSet} {cs : List Config} : Filled full room g s cs →
      g.Reaches emptyReturn g' → Filled full room g' s cs
  | add {g g' : StackGraph} {s s' : ConfigSet} {cs : List Config} {c : Config} {isNew : Bool} :
      Filled full room g s cs → c.stack < g.size → c.routine = none →
      (add c).run (s, g) = .ok isNew (s', g') → Filled full room g' s' (cs ++ [c])

/-- **The set is the union** of the configurations of the list. -/
structure Unites (full : Bool) (g : StackGraph) (s : ConfigSet) (cs : List Config) : Prop where
  sound : g.Sound
  unordered : s.ordered = false
  fullContext_eq : s.fullContext = full
  added_lt : ∀ c ∈ cs, c.stack < g.size
  distinct : (s.toList.map Config.place).Nodup
  places : s.toList.map Config.place = (cs.map Config.place).eraseDups
  guards : s.hasGuards = true ↔ ∃ c ∈ cs, c.guard.isAlways = false
  gathers : ∀ d ∈ s.toList, ∃ first others, cs.filter (·.place = d.place) = first :: others ∧
    Config.Gathers g (!full) first others d

section

variable {α : Type} [BEq α] [LawfulBEq α] {l : List α} {a : α}

private theorem eraseDups_concat_of_mem (h : a ∈ l) : (l ++ [a]).eraseDups = l.eraseDups := by
  rw [List.eraseDups_append]
  simp [List.removeAll, h]

private theorem eraseDups_concat_of_notMem (h : a ∉ l) :
    (l ++ [a]).eraseDups = l.eraseDups ++ [a] := by
  rw [List.eraseDups_append]
  simp [List.removeAll, h, List.eraseDups_cons]

end

namespace Unites

theorem new (hg : g.Sound) : Unites full g { forParser full with maxSize := room } [] where
  sound := hg
  unordered := rfl
  fullContext_eq := rfl
  added_lt := nofun
  distinct := List.nodup_nil
  places := rfl
  guards := by simp [forParser]
  gathers := nofun

theorem grown (h : Unites full g s cs) (hgrown : g.Grown g') : Unites full g' s cs where
  sound := hgrown.sound
  unordered := h.unordered
  fullContext_eq := h.fullContext_eq
  added_lt c hc := hgrown.lt (h.added_lt c hc)
  distinct := h.distinct
  places := h.places
  guards := h.guards
  gathers d hd := by
    obtain ⟨first, others, hgroup, hgathers⟩ := h.gathers d hd
    have hmem : first ∈ cs := List.mem_of_mem_filter (hgroup ▸ List.mem_cons_self)
    exact ⟨first, others, hgroup, hgathers.grown h.sound hgrown (h.added_lt first hmem)⟩

/-- Every configuration of the set gathers what was added at its place. -/
theorem exists_gathers (h : Unites full g s cs) {d : Config} (hd : d ∈ s.toList) :
    ∃ first others, cs.filter (·.place = d.place) = first :: others ∧ first.stack < g.size ∧
      Config.Gathers g (!full) first others d := by
  obtain ⟨first, others, hgroup, hgathers⟩ := h.gathers d hd
  have hmem : first ∈ cs := List.mem_of_mem_filter (hgroup ▸ List.mem_cons_self)
  exact ⟨first, others, hgroup, h.added_lt first hmem, hgathers⟩

theorem stack_lt (h : Unites full g s cs) : ∀ d ∈ s.toList, d.stack < g.size := by
  intro d hd
  obtain ⟨first, others, -, hfirst, hgathers⟩ := h.exists_gathers hd
  exact (hgathers.stack.stackSet_eq h.sound hfirst).1

/-- A place is that of a configuration of the set if one was added there. -/
theorem mem_places (h : Unites full g s cs) {p : StateId × Tag} :
    p ∈ s.toList.map Config.place ↔ p ∈ cs.map Config.place := by
  rw [h.places, List.mem_eraseDups]

theorem guards_mark (h : Unites full g s cs) (c : Config) :
    (s.mark c).hasGuards = true ↔ ∃ c' ∈ cs ++ [c], c'.guard.isAlways = false := by
  simp only [mark, Bool.or_eq_true, Bool.not_eq_true', h.guards, List.mem_append,
    List.mem_singleton, or_and_right, exists_or, exists_eq_left]

/-- A configuration at a new place. -/
theorem push (h : Unites full g s cs) {c : Config} (hc : c.stack < g.size)
    (hroutine : c.routine = none) (hnew : c.place ∉ s.toList.map Config.place) :
    Unites full g { s.mark c with configs := s.configs.push c } (cs ++ [c]) := by
  have hlist := toList_pushed s c
  have hnew' : c.place ∉ cs.map Config.place := fun hmem => hnew (h.mem_places.mpr hmem)
  refine ⟨h.sound, h.unordered, h.fullContext_eq, ?_, ?_, ?_, ?_, ?_⟩
  · intro c' hc'
    rcases List.mem_append.mp hc' with hc' | hc'
    · exact h.added_lt c' hc'
    · exact List.mem_singleton.mp hc' ▸ hc
  · rw [hlist, List.map_append, List.map_singleton]
    exact List.nodup_append_comm.mp (List.nodup_cons.mpr ⟨hnew, h.distinct⟩)
  · rw [hlist, List.map_append, List.map_append, List.map_singleton,
      eraseDups_concat_of_notMem hnew', h.places]
  · exact h.guards_mark c
  -- Each old place has gathered what it had before, and the new one this configuration alone.
  · intro d hd
    rw [hlist] at hd
    rcases List.mem_append.mp hd with hd | hd
    · obtain ⟨first, others, hgroup, hgathers⟩ := h.gathers d hd
      have hne : c.place ≠ d.place := fun heq => hnew (heq ▸ List.mem_map_of_mem hd)
      refine ⟨first, others, ?_, hgathers⟩
      rw [List.filter_append, hgroup, List.filter_cons_of_neg (by simpa using hne)]
      simp
    · obtain rfl := List.mem_singleton.mp hd
      refine ⟨d, [], ?_, .one hroutine⟩
      have hnone : cs.filter (·.place = d.place) = [] := by
        refine List.filter_eq_nil_iff.mpr fun c hc heq => hnew' ?_
        exact of_decide_eq_true heq ▸ List.mem_map_of_mem hc
      simp [List.filter_append, hnone]

/-- A configuration at a place that the set has. -/
theorem absorb (h : Unites full g s cs) {c : Config} (hc : c.stack < g.size) {i : Nat}
    (hi : i < s.configs.size) (hplace : s.configs[i].place = c.place) {id : StackId}
    (hmerge : (merge s.configs[i].stack c.stack !full).run g = .ok id g') :
    Unites full g' { s.mark c with configs := s.configs.modify i (ConfigSet.absorb · c id) }
      (cs ++ [c]) := by
  have hold : s.configs[i] ∈ s.toList := by simp [toList]
  have hplaces := places_absorbed hi c id
  obtain ⟨first, others, hgroup, hfirst, hgathers⟩ := h.exists_gathers hold
  have hgrown : g.Grown g' :=
    ((StackGraph.merge_unites h.sound (h.stack_lt _ hold) hc _).apply hmerge).1
  have hlater := h.grown hgrown
  refine ⟨hgrown.sound, h.unordered, h.fullContext_eq, ?_, ?_, ?_, ?_, ?_⟩
  · intro c' hc'
    rcases List.mem_append.mp hc' with hc' | hc'
    · exact hlater.added_lt c' hc'
    · exact List.mem_singleton.mp hc' ▸ hgrown.lt hc
  · rw [hplaces]
    exact h.distinct
  · have hmem : c.place ∈ cs.map Config.place :=
      h.mem_places.mp (hplace ▸ List.mem_map_of_mem hold)
    rw [hplaces, List.map_append, List.map_singleton, eraseDups_concat_of_mem hmem, h.places]
  · exact h.guards_mark c
  · intro d hd
    rw [toList_absorbed hi, List.mem_append, List.mem_cons] at hd
    by_cases heq : d = ConfigSet.absorb s.configs[i] c id
    · subst heq
      have hsame : (ConfigSet.absorb s.configs[i] c id).place = c.place := hplace
      refine ⟨first, others ++ [c], ?_, hgathers.absorb h.sound hfirst hc hmerge⟩
      rw [List.filter_append, hsame, ← hplace, hgroup, hplace]
      simp
    · have hd' : d ∈ s.toList.take i ++ s.toList.drop (i + 1) :=
        List.mem_append.mpr (hd.imp_right fun hd => hd.resolve_left heq)
      have hmem : d ∈ s.toList :=
        (mem_toList_iff hi).mpr ((List.mem_append.mp hd').imp_right .inr)
      obtain ⟨first', others', hgroup', hgathers'⟩ := hlater.gathers d hmem
      have hne : d.place ≠ c.place := hplace ▸ place_ne_of_distinct h.distinct hi hd'
      refine ⟨first', others', ?_, hgathers'⟩
      rw [List.filter_append, hgroup', List.filter_cons_of_neg (by simpa using hne.symm)]
      simp

/-- Adding calls the graph once at most. -/
theorem reaches (h : Unites full g s cs) {c : Config} {s' : ConfigSet} {isNew : Bool}
    (hc : c.stack < g.size) (hrun : (ConfigSet.add c).run (s, g) = .ok isNew (s', g')) :
    g.Reaches emptyReturn g' := by
  rcases add_of_ok h.unordered hrun with ⟨-, rfl, -⟩ | ⟨i, hi, id, -, hmerge, -⟩
  · exact .refl
  · have hstack := h.stack_lt s.configs[i] (by simp [toList])
    have hproper :
        (GraphCall.merge s.configs[i].stack c.stack !s.fullContext).Proper emptyReturn g :=
      ⟨by simp [GraphCall.nodes, hstack, hc], by simp [GraphCall.rets]⟩
    have hleaves : (GraphCall.merge s.configs[i].stack c.stack !s.fullContext).leaves g = g' :=
      GraphCall.leaves_of_ok hmerge
    exact hleaves ▸ .call .refl hproper

/-- **Adding one configuration.** -/
theorem add (h : Unites full g s cs) {c : Config} {s' : ConfigSet} {isNew : Bool}
    (hc : c.stack < g.size) (hroutine : c.routine = none)
    (hrun : (ConfigSet.add c).run (s, g) = .ok isNew (s', g')) : Unites full g' s' (cs ++ [c]) := by
  rcases add_of_ok h.unordered hrun with ⟨hnew, rfl, rfl⟩ | ⟨i, hi, id, hplace, hmerge, rfl⟩
  · exact h.push hc hroutine hnew
  · rw [h.fullContext_eq] at hmerge
    exact h.absorb hc hi hplace hmerge

end Unites

/-- **Filling unites what is added.** -/
theorem Filled.unites (h : Filled full room g s cs) : g.Built ∧ Unites full g s cs := by
  induction h with
  | new hg => exact ⟨hg, .new hg.sound⟩
  | meanwhile _ hreaches ih => exact ⟨ih.1.reaches hreaches, ih.2.grown (hreaches.grown ih.2.sound)⟩
  | add _ hc hroutine hrun ih =>
    obtain ⟨hbuilt, hunites⟩ := ih
    exact ⟨hbuilt.reaches (hunites.reaches hc hrun), hunites.add hc hroutine hrun⟩

/-- Adding several configurations. -/
theorem Filled.insertAll {added : List Config} {s' : ConfigSet} (h : Filled full room g s cs)
    (hadded : ∀ c ∈ added, c.stack < g.size ∧ c.routine = none)
    (hrun : (added.foldlM insert s).run g = .ok s' g') : Filled full room g' s' (cs ++ added) := by
  induction added generalizing g s cs with
  | nil =>
    obtain ⟨rfl, rfl⟩ := EStateM.Result.ok.inj hrun
    rwa [List.append_nil]
  | cons c added ih =>
    obtain ⟨⟨hstack, hroutine⟩, hrest⟩ := List.forall_mem_cons.mp hadded
    rw [List.foldlM_cons] at hrun
    cases hinsert : (s.insert c).run g with
    | error e g₁ =>
      rw [StackGraph.run_bind_of_error hinsert] at hrun
      cases hrun
    | ok s₁ g₁ =>
      rw [StackGraph.run_bind_of_ok hinsert] at hrun
      obtain ⟨isNew, hadd⟩ := add_of_insert hinsert
      have hfilled := h.add hstack hroutine hadd
      have hunites := h.unites.2
      have hsize := ((hunites.reaches hstack hadd).grown hunites.sound).size_le
      have hnext := ih hfilled
        (fun c' hc' => ⟨(hrest c' hc').1.trans_le hsize, (hrest c' hc').2⟩) hrun
      rwa [List.append_assoc] at hnext

/-- The guard mark of a filled set tells whether some configuration of it has a guard. -/
theorem Filled.hasGuards_iff (h : Filled full room g s cs) :
    s.hasGuards = true ↔ ∃ d ∈ s.toList, d.guard.isAlways = false := by
  have hunites := h.unites.2
  have hplaces : ∀ l : List Config, (∃ c ∈ l, c.guard.isAlways = false) ↔
      ∃ p ∈ l.map Config.place, p.2.2.isAlways = false := by
    simp [Config.place, Config.tag]
  rw [hunites.guards, hplaces, hplaces]
  exact exists_congr fun p => and_congr_left fun _ => hunites.mem_places.symm

/-- **What additions mark.** In a set that was filled the guard mark tells whether some configuration
of it has a guard. An addition that fails leaves everything else as it is, but the marks of its
configuration stay. -/
theorem additions_mark (s : ConfigSet) :
    (∀ full room g cs, Filled full room g s cs →
      (s.hasGuards = true ↔ ∃ d ∈ s.toList, d.guard.isAlways = false)) ∧
    ∀ c g e s' g', (add c).run (s, g) = .error e (s', g') → s' = s.mark c :=
  ⟨fun _ _ _ _ => Filled.hasGuards_iff, fun _ _ _ _ _ => add_of_error⟩

/-- A configuration with both marks. -/
private def marked : Config :=
  { state := 2, alt := 1, stack := StackId.empty, guard := .predicate 0 0 false, outer := 1 }

/-- A set that has room for one configuration and holds one. -/
private def lone : ConfigSet :=
  { configs := #[{ state := 1, alt := 1, stack := StackId.empty }], maxSize := 1 }

/-- A set takes on the marks of a configuration that it has no room for. -/
theorem lone_takes_marks : ∃ s',
    (add marked).run (lone, default) = .error ⟨.configSetSize, 1, 2⟩ (s', default) ∧
      s'.configs = lone.configs ∧ (lone.hasGuards, lone.dipsOut) = (false, false) ∧
      (s'.hasGuards, s'.dipsOut) = (true, true) := by
  have hrun : (add marked).run (lone, default) =
      .error ⟨.configSetSize, 1, 2⟩ (lone.mark marked, default) := by
    simp [add_run, lone, marked, key]
  exact ⟨_, hrun, rfl, rfl, rfl⟩

/-- With exact stacks a configuration of the set has the threads of those added at its place. -/
theorem Unites.mem_threads (h : Unites true g s cs) {d : Config} (hd : d ∈ s.toList) {t : Thread} :
    t ∈ d.threads g ↔ ∃ c ∈ cs, c.place = d.place ∧ t ∈ c.threads g := by
  obtain ⟨first, others, hgroup, hfirst, hgathers⟩ := h.exists_gathers hd
  obtain ⟨-, hset⟩ := hgathers.stack.stackSet_eq h.sound hfirst
  have hstack : g.HasStack d.stack t.2.2 ↔ ∃ c ∈ first :: others, g.HasStack c.stack t.2.2 := by
    change t.2.2 ∈ g.stackSet d.stack ↔ _
    rw [hset, Bool.not_true, Stacks.mem_unitedAll_false]
    simp [StackGraph.stackSet]
  have hmem : ∀ c, c ∈ first :: others ↔ c ∈ cs ∧ c.place = d.place := fun c => by
    rw [← hgroup, List.mem_filter, decide_eq_true_eq]
  simp only [Config.threads, Set.mem_ofPred_eq, hstack, hmem]
  constructor
  · rintro ⟨htag, hstate, c, ⟨hc, hplace⟩, hthread⟩
    obtain ⟨hstate', htag'⟩ := Prod.mk.inj hplace
    exact ⟨c, hc, hplace, htag.trans htag'.symm, hstate.trans hstate'.symm, hthread⟩
  · rintro ⟨c, hc, hplace, htag, hstate, hthread⟩
    obtain ⟨hstate', htag'⟩ := Prod.mk.inj hplace
    exact ⟨htag.trans htag', hstate.trans hstate', c, ⟨hc, hplace⟩, hthread⟩

/-- In a set with exact stacks nothing is lost and nothing is gained. -/
theorem Unites.threads_eq (h : Unites true g s cs) :
    s.threads g = {t | ∃ c ∈ cs, t ∈ c.threads g} := by
  ext t
  constructor
  · rintro ⟨d, hd, ht⟩
    obtain ⟨c, hc, -, hthread⟩ := (h.mem_threads hd).mp ht
    exact ⟨c, hc, hthread⟩
  · rintro ⟨c, hc, ht⟩
    obtain ⟨d, hd, hplace⟩ := List.mem_map.mp (h.mem_places.mpr (List.mem_map_of_mem hc))
    exact ⟨d, hd, (h.mem_threads hd).mpr ⟨c, hc, hplace.symm, ht⟩⟩

/-- Sets of the same configurations are the same up to their order. -/
theorem Unites.perm {s' : ConfigSet} {cs' : List Config} (h : Unites full g s cs)
    (h' : Unites full g s' cs') (hperm : cs.Perm cs') : s.toList.Perm s'.toList := by
  have hsub : ∀ {s s' : ConfigSet} {cs cs' : List Config}, Unites full g s cs →
      Unites full g s' cs' → cs.Perm cs' → ∀ d ∈ s.toList, d ∈ s'.toList := by
    intro s s' cs cs' h h' hperm d hd
    -- The other set has a configuration at the same place, and it gathers the same group.
    have hplace : d.place ∈ cs'.map Config.place :=
      (hperm.map Config.place).mem_iff.mp (h.mem_places.mp (List.mem_map_of_mem hd))
    obtain ⟨d', hd', heq⟩ := List.mem_map.mp (h'.mem_places.mpr hplace)
    obtain ⟨first, others, hgroup, hfirst, hgathers⟩ := h.exists_gathers hd
    obtain ⟨first', others', hgroup', hfirst', hgathers'⟩ := h'.exists_gathers hd'
    have hgroups : (first :: others).Perm (first' :: others') := by
      rw [← hgroup, ← hgroup', heq]
      exact hperm.filter _
    rwa [hgathers.eq_of_perm h.sound hfirst hfirst' hgathers' hgroups heq.symm]
  have hnodup : ∀ {s : ConfigSet} {cs : List Config}, Unites full g s cs → s.toList.Nodup :=
    fun h => h.distinct.of_map _
  exact (List.perm_ext_iff_of_nodup (hnodup h) (hnodup h')).mpr fun d =>
    ⟨hsub h h' hperm d, hsub h' h hperm.symm d⟩

/-- **A parser's set is the union of what was added to it.** Whatever calls were made of the graph
in between,
* it has one configuration for each place, in the order in which the places came up,
* a configuration has the merge of all stacks that were added at its place, the largest of the
  counts of outer contexts, and the non-greedy mark if one of them had it,
* its threads are those of the configurations that were added, if the stacks are exact,
* another set to which the same configurations were added in another order has the same
  configurations, down to the nodes of their stacks. -/
theorem filled_union (h : Filled full room g s cs) :
    s.toList.map Config.place = (cs.map Config.place).eraseDups ∧
    (∀ d ∈ s.toList, ∃ first others, cs.filter (·.place = d.place) = first :: others ∧
      ((others.map Config.stack).foldlM (fun a b => merge a b !full) first.stack).run g =
        .ok d.stack g ∧
      IsGreatest {n | ∃ c ∈ first :: others, c.outer = n} d.outer ∧
      d.nonGreedy = (first :: others).any Config.nonGreedy ∧ d.routine = none) ∧
    (full = true → s.threads g = {t | ∃ c ∈ cs, t ∈ c.threads g}) ∧
    ∀ room' s' cs', Filled full room' g s' cs' → cs'.Perm cs → s'.toList.Perm s.toList := by
  have hunites := h.unites.2
  refine ⟨hunites.places, fun d hd => ?_, ?_, fun room' s' cs' h' hperm => ?_⟩
  · obtain ⟨first, others, hgroup, hgathers⟩ := hunites.gathers d hd
    exact ⟨first, others, hgroup, hgathers.stack.run, hgathers.outer, hgathers.nonGreedy_eq,
      hgathers.routine_eq⟩
  · rintro rfl
    exact hunites.threads_eq
  · exact h'.unites.2.perm hunites hperm

/-- Three configurations at two places, the last one under another stack than the first. -/
def twoPlaces : List Config :=
  [{ state := 1, alt := 1, stack := 1 }, { state := 2, alt := 1, stack := 0 },
    { state := 1, alt := 1, stack := 2, outer := 1 }]

/-- Above the stacks `[5]` and `[7]` they make a set of two configurations, which has the threads of
all three. -/
theorem twoPlaces_union : ∃ g s, Filled true 10 g s twoPlaces ∧
    s.toList.map Config.place = [(1, 1, .always), (2, 1, .always)] ∧
      s.threads g = {t | ∃ c ∈ twoPlaces, t ∈ c.threads g} := by
  let g := GraphCall.leavesAll [.push 0 5, .push 0 7] (StackGraph.withLimits 100 10)
  have hbuilt : g.Built := ⟨100, 10, StackGraph.reaches_leavesAll (by decide +kernel)⟩
  have hadded : ∀ c ∈ twoPlaces, c.stack < g.size ∧ c.routine = none := by decide +kernel
  have hsucceeds : (match (twoPlaces.foldlM insert { forParser true with maxSize := 10 }).run g with
      | .ok _ _ => true
      | .error _ _ => false) = true := by decide +kernel
  cases hrun : (twoPlaces.foldlM insert { forParser true with maxSize := 10 }).run g with
  | error e g' => simp [hrun] at hsucceeds
  | ok s g' =>
    have hnew : Filled true 10 g { forParser true with maxSize := 10 } [] := .new hbuilt
    have hfilled := hnew.insertAll hadded hrun
    obtain ⟨hplaces, -, hthreads, -⟩ := filled_union hfilled
    exact ⟨g', s, hfilled, hplaces.trans (by decide), hthreads rfl⟩

end ConfigSet

end AdaptiveLL
