import AdaptiveLL.Proofs.Config.Threads

/-!
# Adding configurations

Adding a configuration to a parser's set keeps the set tidy and adds the threads of the
configuration to those of the set.
-/

namespace AdaptiveLL

open StackGraph (Begins Grows Sound Grown)

namespace ConfigSet

/-- **How adding a configuration runs:** its marks are set, then it meets one with the same key, or
is added as a new one. -/
theorem add_run (s : ConfigSet) (c : Config) (g : StackGraph) :
    (add c).run (s, g) =
      match s.configs.findIdx? fun d => s.key d = s.key c with
      | some i =>
        if s.ordered then .ok false (s.mark c, g)
        else
          match (StackGraph.merge (s.configs[i]?.getD default).stack c.stack
              !s.fullContext).run g with
          | .ok id g =>
            .ok false ({ s.mark c with configs := s.configs.modify i (absorb · c id) }, g)
          | .error e g => .error e (s.mark c, g)
      | none =>
        if s.maxSize ≤ s.configs.size then
          .error ⟨.configSetSize, s.maxSize, s.configs.size + 1⟩ (s.mark c, g)
        else .ok true ({ s.mark c with configs := s.configs.push c }, g) := by
  -- The marks come first, so all that follows runs on the marked set, whose key is the same.
  change (match s.configs.findIdx? fun d => s.key d = s.key c with
    | some i => _ | none => _ : EStateM Exceeded (ConfigSet × StackGraph) Bool).run
      (s.mark c, g) = _
  cases s.configs.findIdx? fun d => s.key d = s.key c with
  | some i =>
    dsimp only
    by_cases ho : s.ordered = true
    · rw [if_pos ho]
      change (if s.ordered = true then _ else _ :
        EStateM Exceeded (ConfigSet × StackGraph) Bool).run (s.mark c, g) = _
      rw [if_pos ho]
      rfl
    · rw [if_neg ho]
      change (if s.ordered = true then _ else _ :
        EStateM Exceeded (ConfigSet × StackGraph) Bool).run (s.mark c, g) = _
      rw [if_neg ho]
      have hmerge : mergeStacks (s.configs[i]?.getD default).stack c.stack (!s.fullContext)
          (s.mark c, g) =
        match (StackGraph.merge (s.configs[i]?.getD default).stack c.stack
            !s.fullContext).run g with
        | .ok id g => .ok id (s.mark c, g)
        | .error e g => .error e (s.mark c, g) := rfl
      change EStateM.bind _ _ (s.mark c, g) = _
      unfold EStateM.bind
      erw [hmerge]
      cases (StackGraph.merge (s.configs[i]?.getD default).stack c.stack
        (!s.fullContext)).run g <;> rfl
  | none =>
    change (if s.maxSize ≤ s.configs.size then _ else _ :
      EStateM Exceeded (ConfigSet × StackGraph) Bool).run (s.mark c, g) = _
    by_cases hfull : s.maxSize ≤ s.configs.size
    · simp only [if_pos hfull]
      rfl
    · simp only [if_neg hfull]
      rfl

/-- How inserting a configuration runs. -/
theorem insert_run (s : ConfigSet) (c : Config) (g : StackGraph) :
    (s.insert c).run g =
      match s.configs.findIdx? fun d => s.key d = s.key c with
      | some i =>
        if s.ordered then .ok (s.mark c) g
        else
          match (StackGraph.merge (s.configs[i]?.getD default).stack c.stack
              !s.fullContext).run g with
          | .ok id g => .ok { s.mark c with configs := s.configs.modify i (absorb · c id) } g
          | .error e g => .error e g
      | none =>
        if s.maxSize ≤ s.configs.size then
          .error ⟨.configSetSize, s.maxSize, s.configs.size + 1⟩ g
        else .ok { s.mark c with configs := s.configs.push c } g := by
  have hrun := add_run s c g
  unfold EStateM.run at hrun ⊢
  unfold insert EStateM.run
  rw [hrun]
  cases s.configs.findIdx? fun d => s.key d = s.key c with
  | some i =>
    dsimp only
    by_cases ho : s.ordered = true
    · simp only [if_pos ho]
    · simp only [if_neg ho]
      cases StackGraph.merge (s.configs[i]?.getD default).stack c.stack (!s.fullContext) g <;> rfl
  | none =>
    dsimp only
    by_cases hfull : s.maxSize ≤ s.configs.size
    · simp only [if_pos hfull]
    · simp only [if_neg hfull]

/-- A configuration that is found for its key is at the same place. -/
theorem place_eq_of_find {s : ConfigSet} {c : Config} {i : Nat} (hs : s.ordered = false)
    (h : (s.configs.findIdx? fun d => s.key d = s.key c) = some i) :
    ∃ hi : i < s.configs.size, s.configs[i]?.getD default = s.configs[i] ∧
      s.configs[i].place = c.place := by
  obtain ⟨hi, hkey, -⟩ := Array.findIdx?_eq_some_iff_getElem.mp h
  exact ⟨hi, by simp [Array.getElem?_eq_getElem hi],
    (key_eq_iff hs).mp (of_decide_eq_true hkey)⟩

theorem place_notMem_of_find {s : ConfigSet} {c : Config} (hs : s.ordered = false)
    (h : (s.configs.findIdx? fun d => s.key d = s.key c) = none) :
    c.place ∉ s.toList.map Config.place := by
  intro hmem
  obtain ⟨d, hd, hplace⟩ := List.mem_map.mp hmem
  have hne := Array.findIdx?_eq_none_iff.mp h d (by simpa [toList] using hd)
  exact of_decide_eq_false hne ((key_eq_iff hs).mpr hplace)

/-- **Adding to a parser's set that succeeds** adds the configuration at a new place, or merges its
stacks into those of the one that is there. -/
theorem add_of_ok {s s' : ConfigSet} {c : Config} {g g' : StackGraph} {isNew : Bool}
    (hs : s.ordered = false) (h : (add c).run (s, g) = .ok isNew (s', g')) :
    (c.place ∉ s.toList.map Config.place ∧ g' = g ∧
      s' = { s.mark c with configs := s.configs.push c }) ∨
    ∃ i, ∃ hi : i < s.configs.size, ∃ id, s.configs[i].place = c.place ∧
      (StackGraph.merge s.configs[i].stack c.stack !s.fullContext).run g = .ok id g' ∧
      s' = { s.mark c with configs := s.configs.modify i (absorb · c id) } := by
  rw [add_run] at h
  cases hfind : s.configs.findIdx? fun d => s.key d = s.key c with
  | none =>
    rw [hfind] at h
    dsimp only at h
    split at h
    · cases h
    obtain ⟨-, hstate⟩ := EStateM.Result.ok.inj h
    obtain ⟨rfl, rfl⟩ := Prod.mk.inj hstate
    exact .inl ⟨place_notMem_of_find hs hfind, rfl, rfl⟩
  | some i =>
    obtain ⟨hi, hold, hplace⟩ := place_eq_of_find hs hfind
    rw [hfind] at h
    dsimp only at h
    rw [if_neg (by simp [hs]), hold] at h
    refine .inr ⟨i, hi, ?_⟩
    cases hmerge : (StackGraph.merge s.configs[i].stack c.stack !s.fullContext).run g with
    | error e g₁ =>
      rw [hmerge] at h
      cases h
    | ok id g₁ =>
      rw [hmerge] at h
      obtain ⟨-, hstate⟩ := EStateM.Result.ok.inj h
      obtain ⟨rfl, rfl⟩ := Prod.mk.inj hstate
      exact ⟨id, hplace, rfl, rfl⟩

theorem add_of_insert {s s' : ConfigSet} {c : Config} {g g' : StackGraph}
    (h : (s.insert c).run g = .ok s' g') : ∃ isNew, (add c).run (s, g) = .ok isNew (s', g') := by
  unfold EStateM.run insert EStateM.run at h
  cases hadd : (add c).run (s, g) with
  | error e t =>
    rw [show add c (s, g) = _ from hadd] at h
    cases h
  | ok isNew t =>
    rw [show add c (s, g) = _ from hadd] at h
    obtain ⟨rfl, rfl⟩ := EStateM.Result.ok.inj h
    exact ⟨isNew, rfl⟩

/-- Adding that fails leaves the configurations and what was found out about them as they are,
but the marks of the configuration stay. -/
theorem add_of_error {s s' : ConfigSet} {c : Config} {g g' : StackGraph} {e : Exceeded}
    (h : (add c).run (s, g) = .error e (s', g')) : s' = s.mark c := by
  rw [add_run] at h
  cases hfind : s.configs.findIdx? fun d => s.key d = s.key c with
  | none =>
    rw [hfind] at h
    dsimp only at h
    split at h
    · exact (Prod.mk.inj (EStateM.Result.error.inj h).2).1.symm
    · cases h
  | some i =>
    rw [hfind] at h
    dsimp only at h
    split at h
    · cases h
    · split at h
      · cases h
      · exact (Prod.mk.inj (EStateM.Result.error.inj h).2).1.symm

/-- The set goes on from another one: only its configurations and their marks have changed. -/
structure Continues (s s' : ConfigSet) : Prop where
  fullContext_eq : s'.fullContext = s.fullContext
  uniqueAlt_eq : s'.uniqueAlt = s.uniqueAlt
  conflicting_eq : s'.conflicting = s.conflicting
  maxSize_eq : s'.maxSize = s.maxSize

theorem Continues.refl (s : ConfigSet) : s.Continues s := ⟨rfl, rfl, rfl, rfl⟩

theorem Continues.trans {s₁ s₂ s₃ : ConfigSet} (h : s₁.Continues s₂) (h' : s₂.Continues s₃) :
    s₁.Continues s₃ where
  fullContext_eq := h'.fullContext_eq.trans h.fullContext_eq
  uniqueAlt_eq := h'.uniqueAlt_eq.trans h.uniqueAlt_eq
  conflicting_eq := h'.conflicting_eq.trans h.conflicting_eq
  maxSize_eq := h'.maxSize_eq.trans h.maxSize_eq

/-- The configurations of a set to which one was added at the end. -/
theorem toList_pushed (s : ConfigSet) (c : Config) :
    ({ s.mark c with configs := s.configs.push c } : ConfigSet).toList = s.toList ++ [c] :=
  Array.toList_push

/-- The configurations of a set in which one was taken in by another one. -/
theorem toList_absorbed {s : ConfigSet} {i : Nat} (hi : i < s.configs.size) (c : Config)
    (id : StackId) :
    ({ s.mark c with configs := s.configs.modify i (absorb · c id) } : ConfigSet).toList =
      s.toList.take i ++ absorb s.configs[i] c id :: s.toList.drop (i + 1) := by
  have hlen : i < s.toList.length := by simpa [toList] using hi
  change (s.configs.modify i (absorb · c id)).toList = _
  rw [Array.toList_modify]
  change s.toList.modify i (absorb · c id) = _
  rw [List.modify_eq_take_cons_drop hlen]
  simp [toList]

theorem toList_eq {s : ConfigSet} {i : Nat} (hi : i < s.configs.size) :
    s.toList = s.toList.take i ++ s.configs[i] :: s.toList.drop (i + 1) := by
  have hlen : i < s.toList.length := by simpa [toList] using hi
  conv_lhs => rw [← List.take_append_drop i s.toList, List.drop_eq_getElem_cons hlen]
  simp [toList]

/-- Taking in another configuration moves none to another place. -/
theorem places_absorbed {s : ConfigSet} {i : Nat} (hi : i < s.configs.size) (c : Config)
    (id : StackId) :
    ({ s.mark c with configs := s.configs.modify i (absorb · c id) } : ConfigSet).toList.map
      Config.place = s.toList.map Config.place := by
  rw [toList_absorbed hi]
  conv_rhs => rw [toList_eq hi]
  rw [List.map_append, List.map_append]
  rfl

/-- In a set without two configurations at one place, the others are elsewhere. -/
theorem place_ne_of_distinct {s : ConfigSet} (h : (s.toList.map Config.place).Nodup) {i : Nat}
    (hi : i < s.configs.size) {d : Config} (hd : d ∈ s.toList.take i ++ s.toList.drop (i + 1)) :
    d.place ≠ s.configs[i].place := by
  intro heq
  rw [toList_eq hi, List.map_append, List.map_cons, List.nodup_middle, ← List.map_append,
    List.nodup_cons] at h
  exact h.1 (heq ▸ List.mem_map_of_mem hd)

theorem mem_toList_iff {s : ConfigSet} {i : Nat} (hi : i < s.configs.size) {d : Config} :
    d ∈ s.toList ↔ d ∈ s.toList.take i ∨ d = s.configs[i] ∨ d ∈ s.toList.drop (i + 1) := by
  conv_lhs => rw [toList_eq hi]
  rw [List.mem_append, List.mem_cons]

/-- A configuration at a new place is added at the end, with its threads. -/
private theorem Tidy.push {g : StackGraph} {s : ConfigSet} {c : Config} (hs : s.Tidy g)
    (hc : c.Held g (!s.fullContext)) (hnew : c.place ∉ s.toList.map Config.place)
    (hroom : s.configs.size < s.maxSize) :
    ({ s.mark c with configs := s.configs.push c } : ConfigSet).Tidy g ∧
      ({ s.mark c with configs := s.configs.push c } : ConfigSet).threads g =
        s.threads g ∪ c.threads g := by
  have hlist := toList_pushed s c
  refine ⟨⟨hs.unordered, ?_, ?_, ?_, ?_⟩, ?_⟩
  · rw [hlist, List.map_append, List.nodup_append]
    refine ⟨hs.distinct, by simp, ?_⟩
    rintro k hk k' hk' rfl
    rw [List.map_singleton, List.mem_singleton] at hk'
    exact hnew (hk' ▸ hk)
  · intro d hd
    rw [hlist, List.mem_append, List.mem_singleton] at hd
    rcases hd with hd | rfl
    · exact hs.held d hd
    · exact hc
  -- The mark says whether some configuration is guarded, the new one included.
  · rw [hlist]
    simp only [mark, Bool.or_eq_true, Bool.not_eq_true', hs.guards_iff, List.mem_append,
      List.mem_singleton]
    constructor
    · rintro (⟨d, hd, hguard⟩ | hguard)
      · exact ⟨d, .inl hd, hguard⟩
      · exact ⟨c, .inr rfl, hguard⟩
    · rintro ⟨d, hd | rfl, hguard⟩
      · exact .inl ⟨d, hd, hguard⟩
      · exact .inr hguard
  · simpa [mark] using Nat.succ_le_of_lt hroom
  · ext t
    simp only [threads, hlist, List.mem_append, List.mem_singleton, Set.mem_union,
      Set.mem_ofPred_eq]
    constructor
    · rintro ⟨d, hd | rfl, ht⟩
      · exact .inl ⟨d, hd, ht⟩
      · exact .inr ht
    · rintro (⟨d, hd, ht⟩ | ht)
      · exact ⟨d, .inl hd, ht⟩
      · exact ⟨c, .inr rfl, ht⟩

section Absorb

variable {g g' : StackGraph} {s : ConfigSet} {c : Config} {i : Nat} {id : StackId}

/-- The configuration at the place of another one takes in its stacks: what is merged is held in
the graph that has grown. -/
private theorem Tidy.absorb (hg : g.Sound) (hs : s.Tidy g) (hc : c.Held g (!s.fullContext))
    (hi : i < s.configs.size) (hplace : s.configs[i].place = c.place) (hgrown : g.Grown g')
    (hid : id < g'.size) (hopen : (!s.fullContext) = true → g'.Open id) :
    ({ s.mark c with configs := s.configs.modify i (ConfigSet.absorb · c id) } :
      ConfigSet).Tidy g' := by
  have hlist := toList_absorbed hi c id
  have hheld := hs.held _ ((mem_toList_iff hi).mpr (.inr (.inl rfl)))
  refine ⟨hs.unordered, ?_, ?_, ?_, by simpa [mark] using hs.room⟩
  · rw [places_absorbed hi]
    exact hs.distinct
  · intro d hd
    rw [hlist, List.mem_append, List.mem_cons] at hd
    rcases hd with hd | rfl | hd
    · exact (hs.held d (List.mem_of_mem_take hd)).grown hg hgrown
    · exact ⟨hid, hopen, hheld.routine_eq, by simp [ConfigSet.absorb, hheld.greedy, hc.greedy]⟩
    · exact (hs.held d (List.mem_of_mem_drop hd)).grown hg hgrown
  · -- The guard belongs to the place, so the mark has changed only if it was set before.
    have hguard : c.guard = s.configs[i].guard := (Prod.mk.inj (Prod.mk.inj hplace).2).2.symm
    rw [hlist]
    simp only [mark, Bool.or_eq_true, Bool.not_eq_true', hs.guards_iff, mem_toList_iff hi,
      List.mem_append, List.mem_cons]
    constructor
    · rintro (⟨d, hd | rfl | hd, hd'⟩ | hc')
      · exact ⟨d, .inl hd, hd'⟩
      · exact ⟨_, .inr (.inl rfl), hd'⟩
      · exact ⟨d, .inr (.inr hd), hd'⟩
      · exact ⟨_, .inr (.inl rfl), hguard ▸ hc'⟩
    · rintro ⟨d, hd | rfl | hd, hd'⟩
      · exact .inl ⟨d, .inl hd, hd'⟩
      · exact .inl ⟨_, .inr (.inl rfl), hd'⟩
      · exact .inl ⟨d, .inr (.inr hd), hd'⟩

/-- Where stacks are merged, the threads of both configurations are there. -/
private theorem spread_absorb (hg : g.Sound) (hs : s.Tidy g) (hi : i < s.configs.size)
    (hplace : s.configs[i].place = c.place) (hgrown : g.Grown g')
    (hreading : g'.reading (!s.fullContext) id = g.reading (!s.fullContext) s.configs[i].stack ∪
      g.reading (!s.fullContext) c.stack) :
    spread (!s.fullContext)
        (({ s.mark c with configs := s.configs.modify i (absorb · c id) } : ConfigSet).threads g') =
      spread (!s.fullContext) (s.threads g ∪ c.threads g) := by
  have hlist := toList_absorbed hi c id
  have habsorb : ∀ t, t ∈ spread (!s.fullContext) ((absorb s.configs[i] c id).threads g') ↔
      t ∈ spread (!s.fullContext) (s.configs[i].threads g) ∨
        t ∈ spread (!s.fullContext) (c.threads g) := by
    intro t
    have htag : c.tag = s.configs[i].tag := (Prod.mk.inj hplace).2.symm
    have hstate : c.state = s.configs[i].state := (Prod.mk.inj hplace).1.symm
    rw [Config.mem_spread_threads, Config.mem_spread_threads, Config.mem_spread_threads,
      htag, hstate, ← and_or_left, ← and_or_left, ← Set.mem_union, ← hreading]
    rfl
  -- The other configurations mean in the graph that has grown what they meant before.
  have hkeep : ∀ d ∈ s.toList, d.threads g' = d.threads g := fun d hd =>
    (hs.held d hd).threads_eq hg hgrown
  ext t
  rw [spread_union, Set.mem_union, mem_spread_threads, mem_spread_threads, hlist]
  simp only [mem_toList_iff hi, List.mem_append, List.mem_cons]
  constructor
  · rintro ⟨d, hd | rfl | hd, ht⟩
    · rw [hkeep d (List.mem_of_mem_take hd)] at ht
      exact .inl ⟨d, .inl hd, ht⟩
    · rcases (habsorb t).mp ht with ht | ht
      · exact .inl ⟨_, .inr (.inl rfl), ht⟩
      · exact .inr ht
    · rw [hkeep d (List.mem_of_mem_drop hd)] at ht
      exact .inl ⟨d, .inr (.inr hd), ht⟩
  · rintro (⟨d, hd | rfl | hd, ht⟩ | ht)
    · exact ⟨d, .inl hd, by rwa [hkeep d (List.mem_of_mem_take hd)]⟩
    · exact ⟨_, .inr (.inl rfl), (habsorb t).mpr (.inl ht)⟩
    · exact ⟨d, .inr (.inr hd), by rwa [hkeep d (List.mem_of_mem_drop hd)]⟩
    · exact ⟨_, .inr (.inl rfl), (habsorb t).mpr (.inr ht)⟩

end Absorb

/-- **Adding a configuration adds its threads,** unless there is no room for it or for its
stacks. -/
theorem insert_grows {g : StackGraph} (hg : g.Sound) {s : ConfigSet} {c : Config}
    (hs : s.Tidy g) (hc : c.Held g (!s.fullContext)) :
    Grows (s.insert c) g (fun s' g' => s'.Tidy g' ∧ s.Continues s' ∧
      spread (!s.fullContext) (s'.threads g') =
        spread (!s.fullContext) (s.threads g ∪ c.threads g)) fun e =>
      e.resource = .arenaNodes ∨
        Crowded s.maxSize (s.threads g ∪ c.threads g) ∧ e = .tooMany s.maxSize := by
  unfold Grows
  rw [insert_run]
  cases hfind : s.configs.findIdx? fun d => s.key d = s.key c with
  | none =>
    dsimp only
    have hnew := place_notMem_of_find hs.unordered hfind
    by_cases hroom : s.maxSize ≤ s.configs.size
    · rw [if_pos hroom]
      have hsize : s.configs.size = s.maxSize := le_antisymm hs.room hroom
      exact ⟨.refl hg, .inr ⟨hs.crowded_of_full hg hroom hc hnew, by rw [hsize]; rfl⟩⟩
    · rw [if_neg hroom]
      obtain ⟨htidy, hthreads⟩ := hs.push hc hnew (Nat.lt_of_not_le hroom)
      exact ⟨.refl hg, htidy, ⟨rfl, rfl, rfl, rfl⟩, congrArg _ hthreads⟩
  | some i =>
    dsimp only
    rw [if_neg (by simp [hs.unordered])]
    obtain ⟨hi, hold, hplace⟩ := place_eq_of_find hs.unordered hfind
    have hheld := hs.held _ ((mem_toList_iff hi).mpr (.inr (.inl rfl)))
    rw [hold]
    have hmerge := StackGraph.merge_grows hg hheld.stack_lt hc.stack_lt
      fun hw => ⟨hheld.isOpen hw, hc.isOpen hw⟩
    cases hrun : (StackGraph.merge s.configs[i].stack c.stack !s.fullContext).run g with
    | error e g' =>
      obtain ⟨hgrown, hnodes⟩ := Grows.of_error hmerge hrun
      exact ⟨hgrown, .inl hnodes⟩
    | ok id g' =>
      obtain ⟨hgrown, hid, hopen, hreading⟩ := Grows.apply hmerge hrun
      exact ⟨hgrown, hs.absorb hg hc hi hplace hgrown hid hopen, ⟨rfl, rfl, rfl, rfl⟩,
        spread_absorb hg hs hi hplace hgrown hreading⟩

/-- **What adding each of some configurations keeps,** adding all of them keeps. -/
theorem insertAll_keeps {P : ConfigSet → Prop} {s s' : ConfigSet} {cs : List Config}
    {g g' : StackGraph} (hP : ∀ c ∈ cs, ∀ {s s' : ConfigSet} {g g' : StackGraph}, P s →
      (s.insert c).run g = .ok s' g' → P s')
    (hs : P s) (h : (cs.foldlM ConfigSet.insert s).run g = .ok s' g') : P s' := by
  induction cs generalizing s g with
  | nil =>
    obtain ⟨rfl, -⟩ := EStateM.Result.ok.inj h
    exact hs
  | cons c cs ih =>
    rw [List.foldlM_cons] at h
    change EStateM.bind (s.insert c) _ g = _ at h
    unfold EStateM.bind at h
    cases hc : s.insert c g with
    | error e g₁ =>
      rw [hc] at h
      cases h
    | ok s₁ g₁ =>
      rw [hc] at h
      have hrest : ∀ d ∈ cs, ∀ {s s' : ConfigSet} {g g' : StackGraph}, P s →
          (s.insert d).run g = .ok s' g' → P s' := fun d hd => hP d (List.mem_cons_of_mem _ hd)
      exact ih hrest (hP c List.mem_cons_self hs hc) h

/-- Adding several configurations adds the threads of all of them, unless there is no room. -/
theorem insertAll_grows {g : StackGraph} (hg : g.Sound) {s : ConfigSet} {cs : List Config}
    (hs : s.Tidy g) (hcs : ∀ c ∈ cs, c.Held g (!s.fullContext)) :
    Grows (cs.foldlM insert s) g (fun s' g' => s'.Tidy g' ∧ s.Continues s' ∧
      spread (!s.fullContext) (s'.threads g') =
        spread (!s.fullContext) (s.threads g ∪ {t | ∃ c ∈ cs, t ∈ c.threads g})) fun e =>
      e.resource = .arenaNodes ∨
        Crowded s.maxSize (s.threads g ∪ {t | ∃ c ∈ cs, t ∈ c.threads g}) ∧
          e = .tooMany s.maxSize := by
  -- The loop keeps the sum of what is in the set and what is still to be added.
  refine (Grows.foldlM (fun rest s' g' => g.Grown g' ∧ (∀ c ∈ rest, c ∈ cs) ∧ s'.Tidy g' ∧
      s.Continues s' ∧ spread (!s.fullContext)
        (s'.threads g' ∪ {t | ∃ c ∈ rest, t ∈ c.threads g}) =
        spread (!s.fullContext) (s.threads g ∪ {t | ∃ c ∈ cs, t ∈ c.threads g})) ?_ hg
    ⟨.refl hg, fun _ => id, hs, .refl s, rfl⟩).mono ?_
  · rintro c rest s₁ g₁ _ ⟨hgrown, hrest, htidy, hcont, hthreads⟩
    have hheld := hcs c (hrest c List.mem_cons_self)
    have hfull : s₁.fullContext = s.fullContext := hcont.fullContext_eq
    have hsplit : {t | ∃ c' ∈ c :: rest, t ∈ c'.threads g} =
        c.threads g ∪ {t | ∃ c' ∈ rest, t ∈ c'.threads g} := by
      ext t
      simp
    have hinsert := insert_grows hgrown.sound htidy (by rw [hfull]; exact hheld.grown hg hgrown)
    rw [hfull, hheld.threads_eq hg hgrown, hcont.maxSize_eq] at hinsert
    refine (hinsert.failing ?_).mono
      fun s₂ g₂ hgrown₂ ⟨htidy₂, hcont₂, hthreads₂⟩ => ⟨hgrown.trans hgrown₂,
        fun c' hc' => hrest c' (List.mem_cons_of_mem _ hc'), htidy₂, hcont.trans hcont₂, ?_⟩
    · rintro e (hnodes | ⟨hcrowded, he⟩)
      · exact .inl hnodes
      · refine .inr ⟨(crowded_congr hthreads).mp (hcrowded.mono ?_), he⟩
        rw [hsplit]
        exact Set.union_subset_union_right _ Set.subset_union_left
    · rw [spread_union, hthreads₂, ← spread_union, Set.union_assoc, ← hsplit, hthreads]
  · rintro s₁ g₁ _ ⟨_, _, htidy, hcont, hthreads⟩
    refine ⟨htidy, hcont, ?_⟩
    simpa using hthreads

end ConfigSet

end AdaptiveLL
