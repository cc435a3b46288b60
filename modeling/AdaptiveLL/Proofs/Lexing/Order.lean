import AdaptiveLL.Proofs.Lexing.Strands

/-!
# The order of strands

Strands keep the order of the alternatives they speak for, and in it a strand that comes again adds
nothing. So the strands after a character depend on those before it only at their first places,
`Reaches.firsts`. Nor do they depend on where predicates see the input, if none was met.
-/

namespace AdaptiveLL

namespace Vantage

variable {v v' : Vantage} {symbol : Symbol} {t : Strand} {finished : Bool} {s s' e : Pursuit}

/-! ## Visits -/

theorem pursue_cons {rest : List Strand} (hwork : s.work = t :: rest) :
    v.pursue s = some (if t ∈ s.seen then { s with work := rest }
      else v.visit t { s with work := rest, seen := t :: s.seen }) := by
  unfold pursue
  rw [hwork]
  dsimp only
  split <;> rfl

/-- The two ways a step of a chase can go. -/
theorem pursue_cases (h : v.pursue s = some s') : ∃ t rest, s.work = t :: rest ∧
    ((t ∈ s.seen ∧ s' = { s with work := rest }) ∨
      (t ∉ s.seen ∧ s' = v.visit t { s with work := rest, seen := t :: s.seen })) := by
  cases hwork : s.work with
  | nil =>
    unfold pursue at h
    rw [hwork] at h
    cases h
  | cons t rest =>
    rw [pursue_cons hwork] at h
    refine ⟨t, rest, rfl, ?_⟩
    by_cases hseen : t ∈ s.seen
    · rw [if_pos hseen] at h
      exact .inl ⟨hseen, (Option.some.inj h).symm⟩
    · rw [if_neg hseen] at h
      exact .inr ⟨hseen, (Option.some.inj h).symm⟩

/-- **What a chase keeps.** -/
theorem Chases.keeps (h : v.Chases s e) (I : Pursuit → Prop)
    (hskip : ∀ s t rest, I s → s.work = t :: rest → t ∈ s.seen → I { s with work := rest })
    (hvisit : ∀ s t rest, I s → s.work = t :: rest → t ∉ s.seen →
      I (v.visit t { s with work := rest, seen := t :: s.seen })) (hI : I s) : I e := by
  induction h with
  | done => exact hI
  | step hstep _ ih =>
    obtain ⟨t, rest, hwork, ⟨hseen, rfl⟩ | ⟨hseen, rfl⟩⟩ := pursue_cases hstep
    · exact ih (hskip _ t rest hI hwork hseen)
    · exact ih (hvisit _ t rest hI hwork hseen)

theorem Chases.work_eq (h : v.Chases s e) : e.work = [] := by
  induction h with
  | @done s hnone =>
    cases hwork : s.work with
    | nil => rfl
    | cons t rest =>
      rw [pursue_cons hwork] at hnone
      cases hnone
  | step _ _ ih => exact ih

/-- The strands that a visit adds to the work. -/
theorem mem_work_visit {u : Strand} (hu : u ∈ (v.visit t s).work) :
    u ∈ s.work ∨ u ∈ v.nexts t ∨ ∃ r rest, t.stack = r :: rest ∧ u = v.net.lead t r rest := by
  unfold visit at hu
  split at hu
  · split at hu
    · exact .inl hu
    · next r rest hstack =>
      rcases List.mem_cons.mp hu with rfl | hu
      · exact .inr (.inr ⟨r, rest, hstack, rfl⟩)
      · exact .inl hu
  · rcases List.mem_append.mp hu with hu | hu
    · exact .inr (.inl hu)
    · exact .inl hu

/-- A visit collects at most the strand that is visited. -/
theorem mem_found_visit {u : Strand} (hu : u ∈ (v.visit t s).found) : u ∈ s.found ∨ u = t := by
  unfold visit at hu
  split at hu
  · split at hu
    · simpa using hu
    · exact .inl hu
  · dsimp only at hu
    split at hu
    · exact .inl hu
    · simpa using hu

/-! ## Alternatives -/

theorem alt_onward {u : Strand} {step : Transition} (h : v.onward t step = some u) :
    u.alt = t.alt := by
  cases step <;> simp only [onward, Option.ite_none_right_eq_some, Option.some.injEq,
    reduceCtorEq] at h
  case predicate => exact h.2 ▸ rfl
  case atom => exact h.2 ▸ rfl
  case range => exact h.2 ▸ rfl
  case set => exact h.2 ▸ rfl
  all_goals exact h ▸ rfl

/-- A chase stays with its alternative. -/
theorem Chases.alt_eq (h : v.Chases (begin t finished) e) : ∀ u ∈ e.found, u.alt = t.alt := by
  refine (h.keeps (fun s => (∀ u ∈ s.work, u.alt = t.alt) ∧ ∀ u ∈ s.found, u.alt = t.alt) ?_ ?_
    ⟨fun u hu => by rw [List.mem_singleton.mp hu], fun u hu => absurd hu List.not_mem_nil⟩).2
  · rintro s x rest ⟨hwork, hfound⟩ hs -
    exact ⟨fun u hu => hwork u (hs ▸ List.mem_cons_of_mem x hu), hfound⟩
  · rintro s x rest ⟨hwork, hfound⟩ hs -
    have hx : x.alt = t.alt := hwork x (hs ▸ List.mem_cons_self)
    refine ⟨fun u hu => ?_, fun u hu => ?_⟩
    · rcases mem_work_visit hu with hu | hu | ⟨_, _, -, rfl⟩
      · exact hwork u (hs ▸ List.mem_cons_of_mem x hu)
      · obtain ⟨step, -, hstep⟩ := List.mem_filterMap.mp hu
        exact (alt_onward hstep).trans hx
      · exact hx
    · rcases mem_found_visit hu with hu | rfl
      · exact hfound u hu
      · exact hx

theorem Consumes.alt_eq {steps : List Transition} {k : Catch}
    (h : v.Consumes symbol t finished steps k) : ∀ u ∈ k.found, u.alt = t.alt := by
  induction h with
  | nil => exact fun u hu => absurd hu List.not_mem_nil
  | skip _ _ ih => exact ih
  | last _ he => exact he.alt_eq
  | next _ he _ _ ih =>
    intro u hu
    rcases List.mem_append.mp hu with hu | hu
    · exact he.alt_eq u hu
    · exact ih u hu

/-- **The order of the alternatives.** -/
abbrev Sorted (l : List Strand) : Prop := l.Pairwise fun a b => a.alt ≤ b.alt

theorem Sorted.concat {l : List Strand} (h : Sorted (l ++ [t])) :
    Sorted l ∧ ∀ u ∈ l, u.alt ≤ t.alt := by
  obtain ⟨hl, -, hle⟩ := List.pairwise_append.mp h
  exact ⟨hl, fun u hu => hle u hu t (List.mem_singleton_self t)⟩

/-- Strands of one alternative, after others. -/
theorem Sorted.append_alike {l m : List Strand} {alt : Nat} (h : Sorted l) (hle : ∀ u ∈ l, u.alt ≤ alt)
    (hm : ∀ u ∈ m, u.alt = alt) : Sorted (l ++ m) := by
  refine List.pairwise_append.mpr ⟨h, ?_, fun a ha b hb => (hm b hb).symm ▸ hle a ha⟩
  exact List.pairwise_of_forall_mem_list fun a ha b hb => ((hm a ha).trans (hm b hb).symm).le

/-- **Characters keep the order.** -/
theorem Reaches.sorted {l found : List Strand} {guarded : Bool} {done : Nat}
    (h : v.Reaches symbol l found guarded done) (hl : Sorted l) :
    Sorted found ∧ ∀ u ∈ found, ∃ t ∈ l, u.alt = t.alt := by
  induction h with
  | nil => exact ⟨.nil, fun u hu => absurd hu List.not_mem_nil⟩
  | drop _ _ _ ih =>
    obtain ⟨hfound, hfrom⟩ := ih hl.concat.1
    refine ⟨hfound, fun u hu => ?_⟩
    obtain ⟨t, ht, halt⟩ := hfrom u hu
    exact ⟨t, List.mem_append_left _ ht, halt⟩
  | @take l _ _ _ t k _ _ hk ih =>
    obtain ⟨hl', hle⟩ := hl.concat
    obtain ⟨hfound, hfrom⟩ := ih hl'
    refine ⟨hfound.append_alike (fun u hu => ?_) hk.alt_eq, fun u hu => ?_⟩
    · obtain ⟨t', ht', halt⟩ := hfrom u hu
      exact halt ▸ hle t' ht'
    · rcases List.mem_append.mp hu with hu | hu
      · obtain ⟨t', ht', halt⟩ := hfrom u hu
        exact ⟨t', List.mem_append_left _ ht', halt⟩
      · exact ⟨t, by simp, hk.alt_eq u hu⟩

theorem Opens.sorted {l found : List Strand} {guarded : Bool} (h : v.Opens l found guarded)
    (hl : Sorted l) : Sorted found ∧ ∀ u ∈ found, ∃ t ∈ l, u.alt = t.alt := by
  induction h with
  | nil => exact ⟨.nil, fun u hu => absurd hu List.not_mem_nil⟩
  | @next t l _ _ e _ he ih =>
    obtain ⟨hl', hle⟩ := hl.concat
    obtain ⟨hfound, hfrom⟩ := ih hl'
    refine ⟨hfound.append_alike (fun u hu => ?_) he.alt_eq, fun u hu => ?_⟩
    · obtain ⟨t', ht', halt⟩ := hfrom u hu
      exact halt ▸ hle t' ht'
    · rcases List.mem_append.mp hu with hu | hu
      · obtain ⟨t', ht', halt⟩ := hfrom u hu
        exact ⟨t', List.mem_append_left _ ht', halt⟩
      · exact ⟨t, by simp, he.alt_eq u hu⟩

/-! ## Repetitions -/

/-- One chase *trails* another one if it goes the same way, but with the token finished. -/
private structure Trails (s' s : Pursuit) : Prop where
  work_eq : s'.work = s.work
  seen_eq : s'.seen = s.seen
  guarded_eq : s'.guarded = s.guarded
  finished : s'.finished = true
  found : s'.found ⊆ s.found

private theorem Trails.visit (h : Trails s' s) (t : Strand) :
    Trails (v.visit t s') (v.visit t s) := by
  obtain ⟨hwork, hseen, hguarded, hfinished, hfound⟩ := h
  unfold Vantage.visit
  split
  · split
    · exact ⟨hwork, hseen, hguarded, rfl, List.append_subset.mpr
        ⟨List.subset_append_of_subset_left _ hfound, List.subset_append_right _ _⟩⟩
    · exact ⟨by rw [hwork], hseen, hguarded, hfinished, hfound⟩
  · refine ⟨by rw [hwork], hseen, by rw [hguarded], hfinished, ?_⟩
    dsimp only
    rw [hfinished, Bool.true_and]
    cases honly : (v.net.state t.state).onlyEpsilon with
    | true => simpa using hfound
    | false =>
      cases hlazy : t.nonGreedy with
      | true =>
        simp only [Bool.or_true, if_true]
        split
        · exact hfound
        · exact List.subset_append_of_subset_left _ hfound
      | false =>
        simp only [Bool.or_false, Bool.and_false, Bool.false_eq_true, if_false]
        exact List.append_subset.mpr
          ⟨List.subset_append_of_subset_left _ hfound, List.subset_append_right _ _⟩

private theorem Chases.trailed (h : v.Chases s e) (hs : Trails s' s) :
    ∃ e', v.Chases s' e' ∧ Trails e' e := by
  induction h generalizing s' with
  | @done s hnone =>
    have hnone' : v.pursue s' = none := by
      cases hwork : s.work with
      | nil =>
        unfold pursue
        rw [hs.work_eq, hwork]
      | cons t rest =>
        rw [pursue_cons hwork] at hnone
        cases hnone
    exact ⟨s', .done hnone', hs⟩
  | @step s _ _ hstep _ ih =>
    -- The two chases have the same strands to do and have seen the same ones, so they take the same
    -- step.
    obtain ⟨t, rest, hwork, ⟨hseen, rfl⟩ | ⟨hseen, rfl⟩⟩ := pursue_cases hstep
    · have hstep' := pursue_cons (v := v) (hs.work_eq.trans hwork)
      rw [if_pos (hs.seen_eq ▸ hseen)] at hstep'
      have hnext : Trails { s' with work := rest } { s with work := rest } :=
        ⟨rfl, hs.seen_eq, hs.guarded_eq, hs.finished, hs.found⟩
      obtain ⟨e', he', htrails⟩ := ih hnext
      exact ⟨e', .step hstep' he', htrails⟩
    · have hstep' := pursue_cons (v := v) (hs.work_eq.trans hwork)
      rw [if_neg (hs.seen_eq ▸ hseen)] at hstep'
      have hnext : Trails { s' with work := rest, seen := t :: s'.seen }
          { s with work := rest, seen := t :: s.seen } :=
        ⟨rfl, congrArg (t :: ·) hs.seen_eq, hs.guarded_eq, hs.finished, hs.found⟩
      obtain ⟨e', he', htrails⟩ := ih (hnext.visit t)
      exact ⟨e', .step hstep' he', htrails⟩

/-- A strand that finished its token before collects no more when it is chased again. -/
theorem Chases.again (h : v.Chases (begin t false) e) :
    ∃ e', v.Chases (begin t true) e' ∧ e'.found ⊆ e.found ∧ e'.finished = true ∧
      e'.guarded = e.guarded := by
  have hbegin : Trails (begin t true) (begin t false) :=
    ⟨rfl, rfl, rfl, rfl, List.Subset.refl _⟩
  obtain ⟨e', he', htrails⟩ := h.trailed hbegin
  exact ⟨e', he', htrails.found, htrails.finished, htrails.guarded_eq⟩

theorem Consumes.again {steps : List Transition} {k : Catch}
    (h : v.Consumes symbol t false steps k) :
    ∃ k', v.Consumes symbol t true steps k' ∧ k'.found ⊆ k.found ∧
      (k'.guarded = true → k.guarded = true) := by
  induction h with
  | nil => exact ⟨_, .nil, List.Subset.refl _, id⟩
  | skip hno _ ih =>
    obtain ⟨k', hk', hfound, hguarded⟩ := ih
    exact ⟨k', .skip hno hk', hfound, hguarded⟩
  | last hacc he _ =>
    obtain ⟨e', he', hfound, hfinished, hguarded⟩ := he.again
    exact ⟨_, .last hacc he' hfinished, hfound, fun h => hguarded ▸ h⟩
  | next hacc he _ _ _ =>
    obtain ⟨e', he', hfound, hfinished, hguarded⟩ := he.again
    refine ⟨_, .last hacc he' hfinished, List.subset_append_of_subset_left _ hfound, fun h => ?_⟩
    exact Bool.or_eq_true _ _ ▸ .inl (hguarded ▸ h)

/-- What a strand adds when it comes again: nothing, if it was taken up to here. -/
private def Spent (v : Vantage) (symbol : Symbol) (found : List Strand) (guarded : Bool) (done : Nat)
    (u : Strand) : Prop :=
  (u.alt = done ∧ u.nonGreedy = true) ∨
    ∃ k, v.Consumes symbol u (u.alt == done) (v.net.state u.state).transitions k ∧
      k.found ⊆ found ∧ (k.guarded = true → guarded = true) ∧ (k.done = true → u.alt = done)

private theorem Spent.more {found found' : List Strand} {guarded guarded' : Bool} {done done' : Nat}
    {u : Strand} (h : Spent v symbol found guarded done u) (hfound : found ⊆ found')
    (hguarded : guarded = true → guarded' = true) (hdone : done' = done ∨ done' = u.alt) :
    Spent v symbol found' guarded' done' u := by
  by_cases heq : done' = done
  · subst heq
    rcases h with h | ⟨k, hk, hkfound, hkguarded, hkdone⟩
    · exact .inl h
    · exact .inr ⟨k, hk, List.Subset.trans hkfound hfound, hguarded ∘ hkguarded, hkdone⟩
  · -- The alternative has finished its token in between.
    obtain rfl := hdone.resolve_left heq
    rcases h with ⟨halt, -⟩ | ⟨k, hk, hkfound, hkguarded, -⟩
    · exact absurd halt heq
    · rw [beq_eq_false_iff_ne.mpr heq] at hk
      obtain ⟨k', hk', hfound', hguarded'⟩ := hk.again
      refine .inr ⟨k', by rwa [beq_self_eq_true], ?_, fun h => hguarded (hkguarded (hguarded' h)),
        fun _ => rfl⟩
      exact List.Subset.trans hfound' (List.Subset.trans hkfound hfound)

/-- The strands of the latest alternative are spent. -/
private theorem Reaches.spent {l found : List Strand} {guarded : Bool} {done : Nat}
    (h : v.Reaches symbol l found guarded done) (hl : Sorted l) {u : Strand} (hu : u ∈ l)
    (hlast : ∀ x ∈ l, x.alt ≤ u.alt) : Spent v symbol found guarded done u := by
  induction h with
  | nil => cases hu
  | @drop l _ _ _ t _ halt hlazy ih =>
    rcases List.mem_append.mp hu with hu | hu
    · exact ih hl.concat.1 hu fun x hx => hlast x (List.mem_append_left _ hx)
    · obtain rfl := List.mem_singleton.mp hu
      exact .inl ⟨halt, hlazy⟩
  | @take l found guarded done t k _ hnot hk ih =>
    obtain ⟨hl', hle⟩ := hl.concat
    have hguarded : guarded = true → (guarded || k.guarded) = true := fun h => by simp [h]
    rcases List.mem_append.mp hu with hu | hu
    -- The list is sorted, so the last strand is of the latest alternative as well.
    · have halt : u.alt = t.alt :=
        Nat.le_antisymm (hle u hu) (hlast t (List.mem_append_right _ (List.mem_singleton_self t)))
      refine (ih hl' hu fun x hx => hlast x (List.mem_append_left _ hx)).more
        (List.subset_append_left _ _) hguarded ?_
      split
      · exact .inr halt.symm
      · exact .inl rfl
    · obtain rfl := List.mem_singleton.mp hu
      -- Consumed once more, the strand finds what was found, or what was done by now cuts it short.
      have hspent : k.done = true ∨ Spent v symbol k.found k.guarded done u := by
        cases hdone : k.done with
        | true => exact .inl rfl
        | false => exact .inr (.inr ⟨k, hk, List.Subset.refl _, id, by simp [hdone]⟩)
      have hfrom : k.found ⊆ found ++ k.found := List.subset_append_right _ _
      have hmore : k.guarded = true → (guarded || k.guarded) = true := fun h => by simp [h]
      rcases hspent with hdone | hspent
      · rw [if_pos hdone]
        by_cases halt : u.alt = done
        · exact .inr ⟨k, by rw [halt] at hk ⊢; exact hk, hfrom, hmore, fun _ => rfl⟩
        · rw [beq_eq_false_iff_ne.mpr halt] at hk
          obtain ⟨k', hk', hfound', hguarded'⟩ := hk.again
          exact .inr ⟨k', by rwa [beq_self_eq_true], List.Subset.trans hfound' hfrom,
            fun h => hmore (hguarded' h), fun _ => rfl⟩
      · exact hspent.more hfrom hmore (by split <;> simp)

/-- **A strand that comes again adds nothing.** -/
theorem Reaches.firsts {l found : List Strand} {guarded : Bool} {done : Nat}
    (h : v.Reaches symbol l found guarded done) (hl : Sorted l) :
    ∃ found', v.Reaches symbol (firsts l) found' guarded done ∧
      AdaptiveLL.firsts found' = AdaptiveLL.firsts found := by
  induction h with
  | nil => exact ⟨[], .nil, rfl⟩
  | @drop l _ _ _ t _ halt hlazy ih =>
    obtain ⟨found', h', hfound⟩ := ih hl.concat.1
    by_cases ht : t ∈ l
    · exact ⟨found', by rwa [firsts_concat_of_mem ht], hfound⟩
    · exact ⟨found', by rw [firsts_concat_of_notMem ht]; exact .drop h' halt hlazy, hfound⟩
  | @take l found guarded done t k h hnot hk ih =>
    obtain ⟨hl', hle⟩ := hl.concat
    obtain ⟨found', h', hfound⟩ := ih hl'
    by_cases ht : t ∈ l
    -- It was consumed before, and what it leads to is among what was found then.
    · rcases h.spent hl' ht hle with hdrop | ⟨k', hk', hkfound, hkguarded, hkdone⟩
      · exact absurd hdrop hnot
      · obtain rfl := hk.unique hk'
        have hguarded : (guarded || k.guarded) = guarded := by
          cases hg : k.guarded with
          | false => exact Bool.or_false _
          | true => simp [hkguarded hg]
        have hdone : (if k.done then t.alt else done) = done := by
          split
          · next hd => exact hkdone hd
          · rfl
        rw [firsts_concat_of_mem ht, hguarded, hdone]
        exact ⟨found', h', hfound.trans (firsts_append_of_subset hkfound).symm⟩
    · refine ⟨found' ++ k.found, ?_, firsts_append_congr hfound _⟩
      rw [firsts_concat_of_notMem ht]
      exact .take h' hnot hk

/-! ## Elsewhere in the input -/

/-- **Another vantage shows the same:** it is one of the same network, it is at the end of the input
or not as this one is, and if predicates were met, the host sees the input from the same place. -/
structure Alike (v v' : Vantage) (guarded : Bool) : Prop where
  net_eq : v.net = v'.net
  atEof_eq : v.atEof = v'.atEof
  seen_eq : guarded = true → v.host.now = v'.host.now ∧ v.position = v'.position

theorem Alike.weaken {guarded guarded' : Bool} (h : v.Alike v' guarded)
    (hle : guarded' = true → guarded = true) : v.Alike v' guarded' :=
  ⟨h.net_eq, h.atEof_eq, h.seen_eq ∘ hle⟩

private theorem Alike.or_left {guarded guarded' : Bool} (h : v.Alike v' (guarded || guarded')) :
    v.Alike v' guarded :=
  h.weaken fun hg => Bool.or_eq_true _ _ ▸ .inl hg

private theorem Alike.or_right {guarded guarded' : Bool} (h : v.Alike v' (guarded || guarded')) :
    v.Alike v' guarded' :=
  h.weaken fun hg => Bool.or_eq_true _ _ ▸ .inr hg

private theorem Alike.onward_eq (h : v.Alike v' (v.net.state t.state).hasPredicate)
    {step : Transition} (hstep : step ∈ (v.net.state t.state).transitions) :
    v.onward t step = v'.onward t step := by
  unfold onward
  cases step with
  | predicate =>
    obtain ⟨hhost, hposition⟩ := h.seen_eq (List.any_eq_true.mpr ⟨_, hstep, rfl⟩)
    rw [h.net_eq, hhost, hposition]
  | _ => rw [h.net_eq, h.atEof_eq]

private theorem Alike.nexts_eq (h : v.Alike v' (v.net.state t.state).hasPredicate) :
    v.nexts t = v'.nexts t := by
  unfold nexts
  rw [← h.net_eq]
  exact List.filterMap_congr fun step hstep => h.onward_eq hstep

private theorem Alike.visit_eq (h : v.Alike v' (v.visit t s).guarded) :
    v.visit t s = v'.visit t s := by
  unfold visit at h ⊢
  rw [← h.net_eq]
  split at h
  · next hstop => rw [if_pos hstop, if_pos hstop]
  · next hstop => rw [if_neg hstop, if_neg hstop, h.or_right.nexts_eq]

theorem guarded_visit (h : s.guarded = true) : (v.visit t s).guarded = true := by
  unfold visit
  split
  · split <;> exact h
  · simp [h]

private theorem Chases.guarded_le (h : v.Chases s e) (hs : s.guarded = true) : e.guarded = true :=
  h.keeps (fun s => s.guarded = true) (fun _ _ _ hs _ _ => hs)
    (fun _ _ _ hs _ _ => guarded_visit hs) hs

theorem Chases.elsewhere (h : v.Chases s e) (hv : v.Alike v' e.guarded) : v'.Chases s e := by
  induction h with
  | @done s hnone =>
    refine .done ?_
    cases hwork : s.work with
    | nil => rw [pursue, hwork]
    | cons t rest =>
      rw [pursue_cons hwork] at hnone
      cases hnone
  | @step s s' e hstep hrest ih =>
    have hv' : v.Alike v' s'.guarded := hv.weaken fun hg => hrest.guarded_le hg
    refine .step ?_ (ih hv)
    obtain ⟨t, rest, hwork, ⟨hseen, rfl⟩ | ⟨hseen, rfl⟩⟩ := pursue_cases hstep
    · rw [pursue_cons hwork, if_pos hseen]
    · rw [pursue_cons hwork, if_neg hseen, hv'.visit_eq]

theorem Consumes.elsewhere {steps : List Transition} {k : Catch}
    (h : v.Consumes symbol t finished steps k) (hv : v.Alike v' k.guarded) :
    v'.Consumes symbol t finished steps k := by
  induction h with
  | nil => exact .nil
  | skip hno _ ih => exact .skip hno (ih hv)
  | last hacc he hfinished =>
    have he' := he.elsewhere hv
    rw [hv.net_eq] at he'
    exact .last hacc he' hfinished
  | next hacc he hnot _ ih =>
    have he' := he.elsewhere hv.or_left
    rw [hv.net_eq] at he'
    exact .next hacc he' hnot (ih hv.or_right)

/-- **Where predicates see the input matters only if there are any:** otherwise the strands after a
character are the same everywhere. -/
theorem Reaches.elsewhere {l found : List Strand} {guarded : Bool} {done : Nat}
    (h : v.Reaches symbol l found guarded done) (hv : v.Alike v' guarded) :
    v'.Reaches symbol l found guarded done := by
  induction h with
  | nil => exact .nil
  | drop _ halt hlazy ih => exact .drop (ih hv) halt hlazy
  | take _ hnot hk ih =>
    have hk' := hk.elsewhere hv.or_right
    rw [hv.net_eq] at hk'
    exact .take (ih hv.or_left) hnot hk'

theorem Opens.elsewhere {l found : List Strand} {guarded : Bool} (h : v.Opens l found guarded)
    (hv : v.Alike v' guarded) : v'.Opens l found guarded := by
  induction h with
  | nil => exact .nil
  | next _ he ih => exact .next (ih hv.or_left) (he.elsewhere hv.or_right)

end Vantage

end AdaptiveLL
