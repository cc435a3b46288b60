import AdaptiveLL.Proofs.Prediction.Told

/-!
# Verdicts

Where a prediction with the call stack stops, the alternatives of threads with the same future are
in conflict, and each conflict is settled for its least alternative. So if one alternative is the
least of all that can go on, no verdict is passed for another one.
-/

namespace AdaptiveLL

open StackGraph (Sound)

namespace ConfigSet

variable {g : StackGraph} {s : ConfigSet}

/-- Every thread is in a subset: the alternatives of its state that have its stacks. -/
theorem Tidy.exists_subset (hg : g.Sound) (hs : s.Tidy g) {t : Thread} (ht : t ∈ s.threads g) :
    ∃ A ∈ s.subsets, ∀ a, a ∈ A ↔ ∃ tag : Tag, tag.1 = a ∧
      stacksAt (s.threads g) tag t.2.1 = stacksAt (s.threads g) t.1 t.2.1 := by
  classical
  have hstack : t.2.2 ∈ stacksAt (s.threads g) t.1 t.2.1 := ht
  let p : Nat → Prop := fun a => ∃ tag : Tag, tag.1 = a ∧
    stacksAt (s.threads g) tag t.2.1 = stacksAt (s.threads g) t.1 t.2.1
  have hmem : ∀ a, a ∈ AltSet.ofList ((s.toList.map Config.alt).filter fun a => decide (p a)) ↔
      p a := by
    intro a
    rw [AltSet.mem_ofList, List.mem_filter, decide_eq_true_eq, and_iff_right_iff_imp]
    rintro ⟨tag, rfl, hsame⟩
    rw [← hsame] at hstack
    obtain ⟨c, hc, htag, _⟩ := hstack
    exact List.mem_map.mpr ⟨c, hc, (congrArg Prod.fst htag).symm⟩
  exact ⟨_, (hs.mem_subsets_iff hg).mpr ⟨t.1, t.2.1, ⟨t.2.2, ht⟩, hmem⟩, hmem⟩

end ConfigSet

namespace Request

variable {T : Set Thread} {s : ConfigSet} {g : StackGraph} {mode : PredictionMode} {a alt : Nat}

/-- **The verdict is the least alternative with a future.** -/
theorem eq_of_fullVerdict (hg : g.Sound) (hs : Question.Stage true T s g) (hT : Proper T)
    {C : Stand → Prop} (hkept : ∃ t ∈ T, t.1.1 = a ∧ C t.2)
    (hleast : ∀ t ∈ T, C t.2 → a ≤ t.1.1) (h : fullVerdict? mode s = some alt) :
    alt = a := by
  obtain ⟨t, ht, rfl, hgoes⟩ := hkept
  have hne : t.1.1 ≠ noAlternative := hT t ht
  have hthreads := hs.threads_eq
  unfold fullVerdict? at h
  by_cases hcommon : s.commonAlt = noAlternative
  · obtain ⟨A, hA, hmem⟩ := hs.tidy.exists_subset hg (t := t) (hthreads ▸ ht)
    -- The alternatives in the subset of the thread share its future.
    have hmin : A.min? = some t.1.1 := by
      refine AltSet.min?_eq_some_iff.mpr ⟨(hmem _).mpr ⟨t.1, rfl, rfl⟩, fun b hb => ?_⟩
      obtain ⟨tag, rfl, hsame⟩ := (hmem b).mp hb
      have hu : t.2.2 ∈ stacksAt (s.threads g) tag t.2.1 := by
        rw [hsame, hthreads]
        exact ht
      rw [hthreads] at hu
      exact hleast (tag, t.2) hu hgoes
    simp only [hcommon, ne_eq, not_true_eq_false, if_false] at h
    split at h
    · split at h
      · next hall =>
        obtain ⟨_, hequal⟩ := Bool.and_eq_true_iff.mp hall
        rw [← Option.some.inj h, Subsets.settled_eq_iff hne]
        refine ⟨⟨A, hA, hmin⟩, fun B hB b hb => ?_⟩
        rw [Subsets.allEqual_iff.mp hequal B hB A hA, hmin] at hb
        exact (Option.some.inj hb).symm
      · cases h
    · split at h
      · next hsettled =>
        obtain ⟨_, hall⟩ := (Subsets.settled_eq_iff hsettled).mp rfl
        rw [← Option.some.inj h]
        exact (hall A hA _ hmin).symm
      · cases h
  · have hspeaks := (hs.tidy.commonAlt_eq_iff hg hcommon).mp rfl
    rw [hthreads] at hspeaks
    rw [if_pos hcommon] at h
    rw [← Option.some.inj h]
    exact (hspeaks.2 t ht).symm

/-- Without a verdict several alternatives are left. -/
theorem not_speaks_of_fullVerdict (hg : g.Sound) (hs : Question.Stage true T s g) (hT : Proper T)
    (h : fullVerdict? mode s = none) : ¬∃ a, Speaks T a := by
  rintro ⟨a, ha⟩
  obtain ⟨t, ht⟩ := ha.1
  have hproper : a ≠ noAlternative := ha.2 t ht ▸ hT t ht
  have hcommon : s.commonAlt = a := by
    rw [hs.tidy.commonAlt_eq_iff hg hproper, hs.threads_eq]
    exact ha
  unfold fullVerdict? at h
  rw [if_pos (by rwa [hcommon])] at h
  cases h

/-- Threads that all stand at one place get a verdict. -/
theorem fullVerdict_ne_none (hg : g.Sound) (hs : Question.Stage true T s g) (hT : Proper T)
    (hne : T.Nonempty) {d : Stand} (hone : ∀ t ∈ T, t.2 = d) : fullVerdict? mode s ≠ none := by
  have hthreads := hs.threads_eq
  -- All configurations share a state and a stack, so every subset holds the same alternatives.
  have hsubset : ∀ A ∈ s.subsets, ∀ a, a ∈ A ↔ ∃ t ∈ T, t.1.1 = a := by
    intro A hA a
    obtain ⟨tag, q, ⟨σ, hσ⟩, hmem⟩ := (hs.tidy.mem_subsets_iff hg).mp hA
    rw [hthreads] at hmem
    have hσ : (tag, q, σ) ∈ T := hthreads ▸ hσ
    have hstand : (q, σ) = d := hone _ hσ
    have hstacks : ∀ tag' σ', (tag', q, σ') ∈ T → σ' = σ := fun tag' σ' h =>
      (Prod.mk.inj ((hone _ h).trans hstand.symm)).2
    rw [hmem]
    constructor
    · rintro ⟨tag', rfl, hsame⟩
      have hσ' : σ ∈ stacksAt T tag' q := by
        rw [hsame]
        exact hσ
      exact ⟨_, hσ', rfl⟩
    · rintro ⟨⟨tag', d'⟩, ht, rfl⟩
      refine ⟨tag', rfl, Set.ext fun σ' => ⟨fun h => ?_, fun h => ?_⟩⟩
      · exact (hstacks tag' σ' h).symm ▸ hσ
      · rw [hstacks tag σ' h]
        rw [show d' = (q, σ) from (hone _ ht).trans hstand.symm] at ht
        exact ht
  intro h
  have hseveral := not_speaks_of_fullVerdict hg hs hT h
  unfold fullVerdict? at h
  by_cases hcommon : s.commonAlt = noAlternative
  -- No alternative speaks for all: the exact mode then finds all subsets equal and in conflict, and
  -- the plain one finds them settled.
  · obtain ⟨t, ht⟩ := hne
    obtain ⟨A, hA, _⟩ := hs.tidy.exists_subset hg (t := t) (hthreads ▸ ht)
    have hequal : ∀ B ∈ s.subsets, B = A := fun B hB =>
      AltSet.ext_mem fun a => (hsubset B hB a).trans (hsubset A hA a).symm
    simp only [hcommon, ne_eq, not_true_eq_false, if_false] at h
    split at h
    · split at h
      · cases h
      · next hopen =>
        refine hopen (Bool.and_eq_true_iff.mpr ⟨?_, Subsets.allEqual_iff.mpr fun B hB C hC =>
          (hequal B hB).trans (hequal C hC).symm⟩)
        rw [Subsets.allConflict, Subsets.someAgree, Bool.not_eq_true', ← Bool.not_eq_true,
          List.any_eq_true]
        rintro ⟨B, hB, hsize⟩
        rw [beq_iff_eq, AltSet.size, List.length_eq_one_iff] at hsize
        obtain ⟨b, hb⟩ := hsize
        rw [AltSet.toList_eq_singleton_iff] at hb
        exact hseveral ⟨b, ⟨t, ht⟩, fun u hu => (hb _).mp ((hsubset B hB _).mpr ⟨u, hu, rfl⟩)⟩
    · split at h
      · cases h
      · next hopen =>
        refine hopen fun hsettled => ?_
        cases hmin : A.min? with
        | none =>
          exact AltSet.min?_eq_none_iff.mp hmin t.1.1 ((hsubset A hA _).mpr ⟨t, ht, rfl⟩)
        | some b =>
          obtain ⟨u, hu, hub⟩ := (hsubset A hA b).mp (AltSet.min?_eq_some_iff.mp hmin).1
          have hb : b ≠ noAlternative := hub ▸ hT u hu
          refine hb (Eq.trans ?_ hsettled)
          refine ((Subsets.settled_eq_iff hb).mpr ⟨⟨A, hA, hmin⟩, fun B hB x hx => ?_⟩).symm
          rw [hequal B hB, hmin] at hx
          exact (Option.some.inj hx).symm
  · rw [if_pos hcommon] at h
    cases h

end Request

/-! ## Alternatives that dominate

An alternative *dominates* some threads if none speaks for a lesser one and one of its own stands
wherever any of them stands. With exact stacks threads move by where they stand alone, so an
alternative that dominates does so for good. Where a prediction with the call stack settles all
conflicts for one alternative, that alternative dominates; so no later set can be settled for
another one, and no dead end can prefer another one.
-/

/-- **An alternative dominates some threads.** -/
structure Dominates (T : Set Thread) (a : Nat) : Prop where
  least : ∀ t ∈ T, a ≤ t.1.1
  stands : ∀ t ∈ T, ∃ tag : Tag, tag.1 = a ∧ (tag, t.2) ∈ T

namespace Dominates

variable {net : Network} {T U : Set Thread} {a b : Nat}

/-- Threads that move by where they stand stay dominated. -/
theorem move (h : Dominates T a) {P : Stand → Stand → Prop}
    (hU : ∀ u, u ∈ U ↔ ∃ d, (u.1, d) ∈ T ∧ P d u.2) : Dominates U a where
  least u hu := by
    obtain ⟨d, hd, _⟩ := (hU u).mp hu
    exact h.least (u.1, d) hd
  stands u hu := by
    obtain ⟨d, hd, hP⟩ := (hU u).mp hu
    obtain ⟨tag, htag, hmem⟩ := h.stands (u.1, d) hd
    exact ⟨tag, htag, (hU (tag, u.2)).mpr ⟨d, hmem, hP⟩⟩

theorem union (h : Dominates T a) (h' : Dominates U a) : Dominates (T ∪ U) a where
  least t ht := ht.elim (h.least t) (h'.least t)
  stands t ht := by
    rcases ht with ht | ht
    · obtain ⟨tag, htag, hmem⟩ := h.stands t ht
      exact ⟨tag, htag, .inl hmem⟩
    · obtain ⟨tag, htag, hmem⟩ := h'.stands t ht
      exact ⟨tag, htag, .inr hmem⟩

private theorem movedOn (h : Dominates T a) (v : Symbol) : Dominates (net.movedOn v T) a := by
  refine h.move (P := fun d e => net.isStop d.1 = false ∧ ∃ t ∈ (net.state d.1).transitions,
    t.accepts v 0 net.maxTokenType = true ∧ e = (t.target, d.2)) ?_
  rintro ⟨tag, p, σ⟩
  constructor
  · rintro ⟨q, t, hq, hstop, ht, hacc, rfl⟩
    exact ⟨(q, σ), hq, hstop, t, ht, hacc, rfl⟩
  · rintro ⟨⟨q, σ'⟩, hq, hstop, t, ht, hacc, heq⟩
    obtain ⟨rfl, rfl⟩ := Prod.mk.inj heq
    exact ⟨q, t, hq, hstop, ht, hacc, rfl⟩

private theorem closureOf (h : Dominates T a) (m : Manner) : Dominates (net.closureOf m T) a := by
  refine h.move (P := fun d e => Relation.ReflTransGen (net.Hop m.full m.atEof) d e ∧
    net.Rests m.full e) fun u => ?_
  constructor
  · rintro ⟨⟨d, hd, hrun⟩, hrests⟩
    exact ⟨d, hd, hrun, hrests⟩
  · rintro ⟨d, hd, hrun, hrests⟩
    exact ⟨⟨d, hd, hrun⟩, hrests⟩

private theorem stopped (h : Dominates T a) : Dominates (net.stopped T) a := by
  refine h.move (P := fun d e => d = e ∧ net.isStop e.1 = true) fun u => ?_
  constructor
  · rintro ⟨hu, hstop⟩
    exact ⟨u.2, hu, rfl, hstop⟩
  · rintro ⟨d, hd, rfl, hstop⟩
    exact ⟨hd, hstop⟩

private theorem waitingOf (h : Dominates T a) (v : Symbol) : Dominates (net.waitingOf true v T) a := by
  have hwaiting : net.waitingOf true v T = net.stopped T :=
    Set.ext fun _ => ⟨fun ht => ht.1, fun ht => ⟨ht, .inl rfl⟩⟩
  rw [hwaiting]
  exact h.stopped

private theorem advanceOf (h : Dominates T a) (v : Symbol) : Dominates (net.advanceOf true v T) a := by
  unfold Network.advanceOf
  simp only [Bool.not_true, trim_false]
  split <;> split
  · exact (h.movedOn v).stopped
  · exact ((h.movedOn v).closureOf _).stopped
  · exact h.movedOn v
  · exact (h.movedOn v).closureOf _

/-- **An alternative dominates for good,** where stacks are exact. -/
theorem reachOf (h : Dominates T a) (v : Symbol) : Dominates (net.reachOf true v T) a := by
  unfold Network.reachOf
  simp only [Bool.not_true, trim_false]
  split
  · exact h.advanceOf v
  · exact (h.advanceOf v).union (h.waitingOf v)

end Dominates

namespace Request

variable {T : Set Thread} {s : ConfigSet} {g : StackGraph} {a b : Nat}

/-- **Where all conflicts are settled for one alternative, it dominates.** -/
theorem dominates_of_fullVerdict (hg : g.Sound) (hs : Question.Stage true T s g)
    (h : fullVerdict? .ll s = some a) : Dominates T a := by
  have hthreads := hs.threads_eq
  by_cases hcommon : s.commonAlt = noAlternative
  · simp only [fullVerdict?, hcommon, ne_eq, not_true_eq_false, if_false, reduceCtorEq] at h
    split at h
    · next hsettled =>
      obtain rfl := Option.some.inj h
      obtain ⟨-, hall⟩ := (Subsets.settled_eq_iff hsettled).mp rfl
      -- The least alternative of a thread's subset is the settled one.
      have hleast : ∀ t ∈ T, ∃ A ∈ s.subsets, A.min? = some (Subsets.settled s.subsets) ∧
          ∀ x, x ∈ A ↔ ∃ tag : Tag, tag.1 = x ∧ stacksAt T tag t.2.1 = stacksAt T t.1 t.2.1 := by
        intro t ht
        obtain ⟨A, hA, hmem⟩ := hs.tidy.exists_subset hg (t := t) (hthreads ▸ ht)
        rw [hthreads] at hmem
        have hmin : A.min? ≠ none := fun hnone =>
          AltSet.min?_eq_none_iff.mp hnone t.1.1 ((hmem _).mpr ⟨t.1, rfl, rfl⟩)
        obtain ⟨x, hx⟩ := Option.ne_none_iff_exists'.mp hmin
        exact ⟨A, hA, by rw [hx, hall A hA x hx], hmem⟩
      constructor
      · intro t ht
        obtain ⟨A, _, hmin, hmem⟩ := hleast t ht
        exact (AltSet.min?_eq_some_iff.mp hmin).2 _ ((hmem _).mpr ⟨t.1, rfl, rfl⟩)
      · intro t ht
        obtain ⟨A, _, hmin, hmem⟩ := hleast t ht
        obtain ⟨tag, htag, hsame⟩ := (hmem _).mp (AltSet.min?_eq_some_iff.mp hmin).1
        have hstack : t.2.2 ∈ stacksAt T tag t.2.1 := by
          rw [hsame]
          exact ht
        exact ⟨tag, htag, hstack⟩
    · cases h
  · have hspeaks := (hs.tidy.commonAlt_eq_iff hg hcommon).mp rfl
    rw [hthreads] at hspeaks
    rw [fullVerdict?, if_pos hcommon] at h
    obtain rfl := Option.some.inj h
    exact ⟨fun t ht => (hspeaks.2 t ht).ge, fun t ht => ⟨t.1, hspeaks.2 t ht, ht⟩⟩

/-- No set can be settled for an alternative but the one that dominates. -/
theorem eq_of_dominates {mode : PredictionMode} (hg : g.Sound) (hs : Question.Stage true T s g)
    (hT : Proper T) (hne : T.Nonempty) (hdom : Dominates T a)
    (h : fullVerdict? mode s = some b) : b = a := by
  obtain ⟨t, ht⟩ := hne
  obtain ⟨tag, htag, hmem⟩ := hdom.stands t ht
  exact eq_of_fullVerdict (C := fun _ => True) hg hs hT ⟨(tag, t.2), hmem, htag, trivial⟩
    (fun u hu _ => hdom.least u hu) h

/-- **Where the exact mode stops, the plain one does as well:** a true ambiguity is settled. -/
theorem fullVerdict_exact_eq_none (hg : g.Sound) (hs : Question.Stage true T s g) (hT : Proper T)
    (hne : T.Nonempty) (h : fullVerdict? .ll s = none) : fullVerdict? .exact s = none := by
  obtain ⟨t, ht⟩ := hne
  obtain ⟨A, hA, hmem⟩ := hs.tidy.exists_subset hg (t := t) (hs.threads_eq ▸ ht)
  rw [hs.threads_eq] at hmem
  by_cases hcommon : s.commonAlt = noAlternative
  · simp only [fullVerdict?, hcommon, ne_eq, not_true_eq_false, if_false, reduceCtorEq,
      if_true] at h ⊢
    rw [if_neg]
    intro hall
    obtain ⟨-, hequal⟩ := Bool.and_eq_true_iff.mp hall
    have hmin : A.min? ≠ none := fun hnone =>
      AltSet.min?_eq_none_iff.mp hnone t.1.1 ((hmem _).mpr ⟨t.1, rfl, rfl⟩)
    obtain ⟨x, hx⟩ := Option.ne_none_iff_exists'.mp hmin
    obtain ⟨tag, rfl, hsame⟩ := (hmem x).mp (AltSet.min?_eq_some_iff.mp hx).1
    have hstack : t.2.2 ∈ stacksAt T tag t.2.1 := by
      rw [hsame]
      exact ht
    have hproper : tag.1 ≠ noAlternative := hT (tag, t.2) hstack
    have hsettled : Subsets.settled s.subsets = tag.1 :=
      (Subsets.settled_eq_iff hproper).mpr ⟨⟨A, hA, hx⟩, fun B hB y hy => by
        rw [Subsets.allEqual_iff.mp hequal B hB A hA, hx] at hy
        exact (Option.some.inj hy).symm⟩
    rw [hsettled, if_pos hproper] at h
    cases h
  · rw [fullVerdict?, if_pos hcommon] at h
    cases h

end Request

end AdaptiveLL
