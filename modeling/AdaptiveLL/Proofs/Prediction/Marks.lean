import AdaptiveLL.Proofs.Prediction.Rows

/-!
# The marks of sets

A set that a symbol leads to was made by adding configurations to an empty one, whatever the set
before the symbol was. So it has every property that adding keeps. One of these is that it is
*marked* as it should be: it notes whether some configuration is guarded, and nothing was found out
about it yet.
-/

namespace AdaptiveLL

namespace ConfigSet

/-! ## What adding keeps -/

/-- **A property that adding keeps:** the empty sets have it, and a set that has it still does after
a configuration is added, or after a thread has left for an unknown caller. -/
structure Additive (P : ConfigSet → Prop) : Prop where
  empty : ∀ full, P (forParser full)
  insert : ∀ {s s' : ConfigSet} {c : Config} {g g' : StackGraph}, P s →
    (s.insert c).run g = .ok s' g' → P s'
  dips : ∀ {s : ConfigSet}, P s → P { s with dipsOut := true }

theorem Additive.insertAll {P : ConfigSet → Prop} (hP : Additive P) {s s' : ConfigSet}
    {cs : List Config} {g g' : StackGraph} (hs : P s)
    (h : (cs.foldlM ConfigSet.insert s).run g = .ok s' g') : P s' :=
  insertAll_keeps (fun _ _ _ _ _ _ hs h => hP.insert hs h) hs h

/-! ## Marks -/

/-- **A marked set:** it notes whether some configuration is guarded, and nothing was found out
about it yet. -/
structure Marked (s : ConfigSet) : Prop where
  guards_iff : s.hasGuards = true ↔ ∃ c ∈ s.toList, c.guard.isAlways = false
  fresh : s.Fresh

/-- The guards and the marks of a set after adding a configuration. -/
private theorem insert_marks {s s' : ConfigSet} {c : Config} {g g' : StackGraph}
    (h : (s.insert c).run g = .ok s' g') :
    (∀ a, a ∈ s'.toList.map Config.guard ↔ a ∈ s.toList.map Config.guard ∨ a = c.guard) ∧
      s'.hasGuards = (s.hasGuards || !c.guard.isAlways) ∧ s'.uniqueAlt = s.uniqueAlt ∧
      s'.conflicting = s.conflicting := by
  rw [insert_run] at h
  cases hfind : s.configs.findIdx? fun d => s.key d = s.key c with
  | none =>
    simp only [hfind] at h
    split at h
    · cases h
    · obtain ⟨rfl, -⟩ := EStateM.Result.ok.inj h
      exact ⟨fun a => by simp [toList], rfl, rfl, rfl⟩
  | some i =>
    simp only [hfind] at h
    -- The configuration that is met has the same guard.
    obtain ⟨hi, hkey, -⟩ := Array.findIdx?_eq_some_iff_getElem.mp hfind
    have hguard : s.configs[i].guard = c.guard :=
      congrArg ConfigKey.guard (of_decide_eq_true hkey)
    have hold : c.guard ∈ s.toList.map Config.guard :=
      hguard ▸ List.mem_map_of_mem (Array.getElem_mem_toList hi)
    have hmem : ∀ a, a ∈ s.toList.map Config.guard ↔
        a ∈ s.toList.map Config.guard ∨ a = c.guard := by
      intro a
      constructor
      · exact .inl
      · intro ha
        exact ha.elim id fun heq => heq ▸ hold
    split at h
    · obtain ⟨rfl, -⟩ := EStateM.Result.ok.inj h
      exact ⟨hmem, rfl, rfl, rfl⟩
    · split at h
      · next id _ _ =>
        obtain ⟨rfl, -⟩ := EStateM.Result.ok.inj h
        have hmap : (s.toList.modify i (absorb · c id)).map Config.guard =
            s.toList.map Config.guard := by
          apply List.ext_getElem?
          intro j
          simp only [List.getElem?_map, List.getElem?_modify]
          cases s.toList[j]? with
          | none => rfl
          | some d => by_cases hij : i = j <;> simp [hij, absorb]
        refine ⟨?_, rfl, rfl, rfl⟩
        simp only [toList, Array.toList_modify] at hmap hmem ⊢
        rwa [hmap]
      · cases h

/-- **Adding a configuration keeps a set marked.** -/
theorem additive_marked : Additive Marked where
  empty _ := ⟨⟨nofun, fun ⟨_, hc, _⟩ => nomatch hc⟩, rfl, rfl⟩
  insert := by
    intro s s' c g g' hs h
    obtain ⟨hguards, hflag, hunique, hconflict⟩ := insert_marks h
    have hguarded : ∀ t : ConfigSet, (∃ d ∈ t.toList, d.guard.isAlways = false) ↔
        ∃ a ∈ t.toList.map Config.guard, a.isAlways = false := by
      intro t
      simp
    refine ⟨?_, hunique.trans hs.fresh.1, hconflict.trans hs.fresh.2⟩
    rw [hflag, Bool.or_eq_true, hs.guards_iff, hguarded, hguarded]
    simp only [hguards, or_and_right, exists_or, exists_eq_left, Bool.not_eq_eq_eq_not,
      Bool.not_true]
  dips hs := ⟨hs.guards_iff, hs.fresh⟩

end ConfigSet

namespace Question

variable {q : Question} {m : Manner} {P : ConfigSet → Prop}

open ConfigSet (Additive)

private theorem collect_additive (hP : Additive P) {s : Sweep} (hs : P s.configs) (c : Config) :
    (s.collect c).Gives fun s' => P s'.configs :=
  .bind (Probe.grow_gives fun _ _ _ h => hP.insert hs h) fun _ hconfigs => .pure hconfigs

private theorem enter_additive (hP : Additive P) {visit : Visit} {state : State} {t : Transition}
    {collect : Bool} {next : Config} {s : Sweep} (hs : P s.configs) :
    (q.enter visit state t collect next s).Gives fun s' => P s'.configs := by
  unfold enter
  dsimp only
  generalize (if state.isRuleStop then { next with outer := next.outer + 1 } else next) = next'
  split
  · exact .pure hs
  split
  · exact .pure (hP.dips hs)
  split
  · split
    · split
      · exact .pure hs
      · exact .after fun _ => .pure hs
    · exact .pure hs
  · exact .pure hs

private theorem expandAll_additive (hP : Additive P) {visit : Visit} {state : State} {s : Sweep}
    (hs : P s.configs) : (q.expandAll m visit state s).Gives fun s' => P s'.configs := by
  have hall : ∀ s : Sweep, P s.configs →
      (state.transitions.reverse.foldlM (q.expand m visit state) s).Gives
        fun s' => P s'.configs := by
    intro s hs
    refine .foldlM (fun s hs t _ => ?_) hs
    unfold expand
    refine .after fun next => ?_
    cases next with
    | none => exact .pure hs
    | some next => exact enter_additive hP hs
  unfold expandAll
  split
  · exact hall s hs
  · exact .bind (collect_additive hP hs visit.config) hall

private theorem perform_additive (hP : Additive P) {visit : Visit} {s : Sweep} (hs : P s.configs) :
    (q.perform m visit s).Gives fun s' => P s'.configs := by
  unfold perform
  dsimp only
  split
  · split
    · refine .after fun trail => .foldlM (fun s hs f _ => ?_) hs
      unfold leave
      split
      · split
        · exact collect_additive hP hs _
        · exact .pure hs
      · exact .pure hs
    split
    · exact collect_additive hP hs _
    · exact expandAll_additive hP hs
  · exact expandAll_additive hP hs

private theorem closeAll_additive (hP : Additive P) (s : ConfigSet) : (q.closeAll m s).Gives P := by
  unfold closeAll
  refine .bind (.foldlM (fun acc hacc c _ => ?_) (hP.empty m.full)) fun acc hacc => .pure hacc
  -- The invariant of a sweep is that of the set it adds to.
  refine .loop (Q := fun s : Sweep => P s.configs) (fun s hs => ?_) hacc
  unfold sweepStep
  split
  · exact .pure hs
  · exact .bind (perform_additive hP hs) fun s' hs' => .pure hs'

/-- **What adding keeps, a set has that a symbol leads to.** -/
theorem reach_additive (hP : Additive P) (v : Symbol) (full : Bool) (s : ConfigSet) :
    (q.reach v full s).Gives fun next => ∀ s', next = some s' → P s' := by
  have hconsume : (q.consume v full s).Gives P := by
    rw [consume_eq]
    exact Probe.grow_gives fun _ _ _ h => hP.insertAll (hP.empty full) h
  rw [reach_eq]
  refine .bind hconsume fun moved hmoved => .bind (.ite (.pure hmoved) ?_) fun next hnext => ?_
  · exact closeAll_additive hP moved
  refine .bind (.ite (.ite (.pure hnext) ?_) (.pure hnext)) fun next' hnext' => ?_
  · exact Probe.grow_gives fun _ _ _ h => hP.insertAll (hP.empty _) h
  refine .bind (Q := P) ?_ fun last hlast => .pure ?_
  · exact .ite (.pure hnext') (Probe.grow_gives fun _ _ _ h => hP.insertAll hnext' h)
  · intro s' hs'
    split at hs'
    · cases hs'
    · exact Option.some.inj hs' ▸ hlast

/-- **A set that a symbol leads to is marked.** -/
theorem reach_marked (v : Symbol) (full : Bool) (s : ConfigSet) :
    (q.reach v full s).Gives fun next => ∀ s', next = some s' → s'.Marked :=
  reach_additive ConfigSet.additive_marked v full s

end Question

end AdaptiveLL
