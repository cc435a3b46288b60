import AdaptiveLL.Proofs.Config.Alternatives
import AdaptiveLL.Proofs.Config.Threads

/-!
# What threads tell about a set

Everything a prediction asks a parser's set about is told by the set's threads: whether it is empty,
whether its threads have finished their rules, for which alternatives it speaks, and which of them
are in conflict. In a sound graph two configurations have the same node exactly if they have the
same stacks, so neither the graph nor the order of the configurations matters.
-/

namespace AdaptiveLL

open StackGraph (Sound)

/-! ## Questions to threads -/

/-- The stacks of the threads with a tag at a state. -/
def stacksAt (T : Set Thread) (tag : Tag) (q : StateId) : Set (List Nat) := {σ | (tag, q, σ) ∈ T}

/-- The threads speak for one alternative alone. -/
def Speaks (T : Set Thread) (alt : Nat) : Prop := T.Nonempty ∧ ∀ t ∈ T, t.1.1 = alt

/-- The sets of alternatives that have the same stacks at the same state. -/
def altSubsets (T : Set Thread) : Set AltSet :=
  {A | ∃ tag q, (stacksAt T tag q).Nonempty ∧
    ∀ a, a ∈ A ↔ ∃ tag' : Tag, tag'.1 = a ∧ stacksAt T tag' q = stacksAt T tag q}

/-- Some alternatives are in conflict, and no state speaks for one of them alone. -/
def Stuck (T : Set Thread) : Prop :=
  (∃ A ∈ altSubsets T, 1 < A.size) ∧
    ¬∃ q a, (∃ t ∈ T, t.2.1 = q) ∧ ∀ t ∈ T, t.2.1 = q → t.1.1 = a

/-! ## Subsets -/

namespace Subsets

variable {l l' : List AltSet}

theorem mem_alts_iff {a : Nat} : a ∈ alts l ↔ ∃ A ∈ l, a ∈ A := by
  have hfold : ∀ (l : List AltSet) (B : AltSet),
      a ∈ l.foldl AltSet.union B ↔ a ∈ B ∨ ∃ A ∈ l, a ∈ A := by
    intro l
    induction l with
    | nil => simp
    | cons A l ih =>
      intro B
      rw [List.foldl_cons, ih, AltSet.mem_union]
      simp only [List.mem_cons, exists_eq_or_imp, or_assoc]
  rw [alts, hfold]
  simp

/-- What the subsets settle for depends on nothing but which subsets there are. -/
theorem settled_congr (h : ∀ A, A ∈ l ↔ A ∈ l') : settled l = settled l' := by
  have hsame : AltSet.ofList (l.filterMap AltSet.min?) = AltSet.ofList (l'.filterMap AltSet.min?) :=
    AltSet.ext_mem fun a => by simp [List.mem_filterMap, h]
  rw [settled, settled, hsame]

theorem allConflict_congr (h : ∀ A, A ∈ l ↔ A ∈ l') : allConflict l = allConflict l' := by
  have hsome : someAgree l = someAgree l' := by
    rw [Bool.eq_iff_iff]
    simp [someAgree, h]
  rw [allConflict, allConflict, hsome]

theorem allEqual_iff : allEqual l = true ↔ ∀ A ∈ l, ∀ B ∈ l, A = B := by
  cases l with
  | nil => simp [allEqual]
  | cons A l =>
    simp only [allEqual, List.all_eq_true, beq_iff_eq, List.mem_cons, forall_eq_or_imp]
    constructor
    · intro h
      exact ⟨⟨trivial, fun B hB => (h B hB).symm⟩, fun B hB => ⟨h B hB, fun C hC =>
        (h B hB).trans (h C hC).symm⟩⟩
    · rintro ⟨_, h⟩ B hB
      exact (h B hB).1

theorem allEqual_congr (h : ∀ A, A ∈ l ↔ A ∈ l') : allEqual l = allEqual l' := by
  rw [Bool.eq_iff_iff, allEqual_iff, allEqual_iff]
  simp only [h]

/-- Subsets that settle for an alternative have it as their least. -/
theorem settled_eq_iff {a : Nat} (ha : a ≠ noAlternative) :
    settled l = a ↔ (∃ A ∈ l, A.min? = some a) ∧ ∀ A ∈ l, ∀ b, A.min? = some b → b = a := by
  unfold settled
  have hmem : ∀ x, x ∈ AltSet.ofList (l.filterMap AltSet.min?) ↔ ∃ A ∈ l, A.min? = some x := by
    intro x
    simp [List.mem_filterMap]
  have hsingle := AltSet.toList_eq_singleton_iff (s := AltSet.ofList (l.filterMap AltSet.min?))
    (a := a)
  constructor
  · intro h
    have hlist : (AltSet.ofList (l.filterMap AltSet.min?)).toList = [a] := by
      split at h
      · next b hb => rw [hb, h]
      · exact absurd h.symm ha
    have hx := hsingle.mp hlist
    exact ⟨(hmem a).mp ((hx a).mpr rfl), fun A hA b hb => (hx b).mp ((hmem b).mpr ⟨A, hA, hb⟩)⟩
  · rintro ⟨⟨A, hA, hmin⟩, hall⟩
    have hlist := hsingle.mpr fun x => by
      rw [hmem]
      constructor
      · rintro ⟨B, hB, hx⟩
        exact hall B hB x hx
      · rintro rfl
        exact ⟨A, hA, hmin⟩
    rw [hlist]

end Subsets

/-! ## Sets and their threads -/

namespace ConfigSet

variable {g : StackGraph} {s : ConfigSet}

theorem Tidy.exists_stack (hg : g.Sound) (hs : s.Tidy g) {c : Config} (hc : c ∈ s.toList) :
    ∃ σ, g.HasStack c.stack σ := hg.exists_stack (hs.held c hc).stack_lt

theorem mem_threads_of_mem {c : Config} (hc : c ∈ s.toList) {σ : List Nat}
    (hσ : g.HasStack c.stack σ) : (c.tag, c.state, σ) ∈ s.threads g := ⟨c, hc, rfl, rfl, hσ⟩

theorem Tidy.stacksAt_eq (hs : s.Tidy g) {c : Config} (hc : c ∈ s.toList) :
    stacksAt (s.threads g) c.tag c.state = g.stackSet c.stack := by
  ext σ
  constructor
  · rintro ⟨d, hd, htag, hstate, hσ⟩
    rwa [hs.eq_of_place hc hd (Prod.ext hstate htag)]
  · intro hσ
    exact mem_threads_of_mem hc hσ

/-- What holds of a thread's tag and state holds of its configuration. -/
theorem Tidy.exists_thread_iff (hg : g.Sound) (hs : s.Tidy g) {p : Tag → StateId → Prop} :
    (∃ t ∈ s.threads g, p t.1 t.2.1) ↔ ∃ c ∈ s.toList, p c.tag c.state := by
  constructor
  · rintro ⟨⟨tag, q, σ⟩, ⟨c, hc, htag, hstate, _⟩, hp⟩
    exact ⟨c, hc, by rwa [← show tag = c.tag from htag, ← show q = c.state from hstate]⟩
  · rintro ⟨c, hc, hp⟩
    obtain ⟨σ, hσ⟩ := hs.exists_stack hg hc
    exact ⟨_, mem_threads_of_mem hc hσ, hp⟩

theorem Tidy.forall_thread_iff (hg : g.Sound) (hs : s.Tidy g) {p : Tag → StateId → Prop} :
    (∀ t ∈ s.threads g, p t.1 t.2.1) ↔ ∀ c ∈ s.toList, p c.tag c.state := by
  have h := hs.exists_thread_iff hg (p := fun tag q => ¬p tag q)
  constructor
  · intro hall c hc
    by_contra hp
    obtain ⟨t, ht, hp'⟩ := h.mpr ⟨c, hc, hp⟩
    exact hp' (hall t ht)
  · intro hall t ht
    by_contra hp
    obtain ⟨c, hc, hp'⟩ := h.mp ⟨t, ht, hp⟩
    exact hp' (hall c hc)

/-! ## Answers -/

theorem Tidy.isEmpty_iff (hg : g.Sound) (hs : s.Tidy g) : s.isEmpty = true ↔ s.threads g = ∅ := by
  have h := hs.exists_thread_iff hg (p := fun _ _ => True)
  rw [Set.eq_empty_iff_forall_notMem]
  simp only [isEmpty, Array.isEmpty_iff]
  constructor
  · intro hempty t ht
    obtain ⟨c, hc, _⟩ := h.mp ⟨t, ht, trivial⟩
    simp [toList, hempty] at hc
  · intro hempty
    by_contra hne
    obtain ⟨c, hc⟩ := List.exists_mem_of_ne_nil s.toList (by simpa [toList] using hne)
    obtain ⟨t, ht, _⟩ := h.mpr ⟨c, hc, trivial⟩
    exact hempty t ht

theorem Tidy.allAtRuleStop_iff (hg : g.Sound) (hs : s.Tidy g) (net : Network) :
    s.allAtRuleStop net = true ↔ ∀ t ∈ s.threads g, net.isStop t.2.1 = true := by
  rw [hs.forall_thread_iff hg (p := fun _ q => net.isStop q = true), allAtRuleStop,
    ← Array.all_toList]
  simp only [List.all_eq_true]
  rfl

theorem Tidy.someAtRuleStop_iff (hg : g.Sound) (hs : s.Tidy g) (net : Network) :
    s.someAtRuleStop net = true ↔ ∃ t ∈ s.threads g, net.isStop t.2.1 = true := by
  rw [hs.exists_thread_iff hg (p := fun _ q => net.isStop q = true), someAtRuleStop,
    ← Array.any_toList]
  simp only [List.any_eq_true]
  rfl

theorem Tidy.hasGuards_iff (hg : g.Sound) (hs : s.Tidy g) :
    s.hasGuards = true ↔ ∃ t ∈ s.threads g, t.1.2.isAlways = false := by
  rw [hs.guards_iff, hs.exists_thread_iff hg (p := fun tag _ => tag.2.isAlways = false)]
  rfl

theorem Tidy.mem_alts_iff (hg : g.Sound) (hs : s.Tidy g) {a : Nat} :
    a ∈ s.alts ↔ ∃ t ∈ s.threads g, t.1.1 = a := by
  rw [hs.exists_thread_iff hg (p := fun tag _ => tag.1 = a)]
  simp [alts, Config.tag]

/-- The common alternative is the one that the threads speak for. -/
theorem Tidy.commonAlt_eq_iff (hg : g.Sound) (hs : s.Tidy g) {a : Nat} (ha : a ≠ noAlternative) :
    s.commonAlt = a ↔ Speaks (s.threads g) a := by
  have hspeaks : Speaks (s.threads g) a ↔ s.toList ≠ [] ∧ ∀ c ∈ s.toList, c.alt = a := by
    have hall := hs.forall_thread_iff hg (p := fun tag _ => tag.1 = a)
    have hsome := hs.exists_thread_iff hg (p := fun _ _ => True)
    refine and_congr ?_ hall
    have hne : s.toList ≠ [] ↔ ∃ c, c ∈ s.toList :=
      ⟨List.exists_mem_of_ne_nil _, fun ⟨_, hc⟩ => List.ne_nil_of_mem hc⟩
    rw [hne]
    simpa [Set.Nonempty] using hsome
  rw [hspeaks, commonAlt]
  cases hl : s.toList with
  | nil => simpa using ha.symm
  | cons c rest =>
    by_cases hsame : rest.all (·.alt == c.alt) = true
    · simp only [if_pos hsame]
      simp only [List.all_eq_true, beq_iff_eq] at hsame
      constructor
      · rintro rfl
        exact ⟨by simp, fun d hd => (List.mem_cons.mp hd).elim (fun h => h ▸ rfl) (hsame d)⟩
      · intro h
        exact h.2 c List.mem_cons_self
    · simp only [if_neg hsame]
      refine ⟨fun h => absurd h.symm ha, fun h => absurd ?_ hsame⟩
      simp only [List.all_eq_true, beq_iff_eq]
      intro d hd
      rw [h.2 d (List.mem_cons_of_mem _ hd), h.2 c List.mem_cons_self]

instance : Std.TransCmp (fun a b : StateId × StackId =>
    (compare a.1 b.1).then (compare a.2 b.2)) :=
  inferInstanceAs (Std.TransCmp (compareLex (compareOn Prod.fst) (compareOn Prod.snd)))

instance : Std.LawfulEqCmp (fun a b : StateId × StackId =>
    (compare a.1 b.1).then (compare a.2 b.2)) where
  compare_self := by simp
  eq_of_compare {a b} h := by
    simp only [Ordering.then_eq_eq, Nat.compare_eq_eq] at h
    exact Prod.ext h.1 h.2

/-- **The subsets of a set are those of its threads.** -/
theorem Tidy.mem_subsets_iff (hg : g.Sound) (hs : s.Tidy g) {A : AltSet} :
    A ∈ s.subsets ↔ A ∈ altSubsets (s.threads g) := by
  have hkeys : ∀ c ∈ s.toList, ∀ a, (∃ d ∈ s.toList, (d.state, d.stack) = (c.state, c.stack) ∧
      d.alt = a) ↔ ∃ tag : Tag, tag.1 = a ∧
        stacksAt (s.threads g) tag c.state = stacksAt (s.threads g) c.tag c.state := by
    intro c hc a
    rw [hs.stacksAt_eq hc]
    constructor
    · rintro ⟨d, hd, heq, halt⟩
      obtain ⟨hstate, hstack⟩ := Prod.mk.inj heq
      exact ⟨d.tag, halt, by rw [← hstate, hs.stacksAt_eq hd, hstack]⟩
    · rintro ⟨tag, halt, hstacks⟩
      obtain ⟨σ, hσ⟩ := hs.exists_stack hg hc
      have hmem : σ ∈ stacksAt (s.threads g) tag c.state := by
        rw [hstacks]
        exact hσ
      obtain ⟨d, hd, htag, hstate, _⟩ := hmem
      obtain rfl : tag = d.tag := htag
      have hstate' : c.state = d.state := hstate
      rw [hstate', hs.stacksAt_eq hd] at hstacks
      have hstack := hg.eq_of_stackSet_eq (hs.held d hd).stack_lt (hs.held c hc).stack_lt hstacks
      exact ⟨d, hd, by rw [hstate', hstack], halt⟩
  constructor
  · intro hA
    obtain ⟨⟨k, A'⟩, hmem, rfl⟩ := List.mem_map.mp hA
    obtain ⟨⟨c, hc, rfl⟩, hA'⟩ := mem_groupAlts_iff.mp hmem
    obtain ⟨σ, hσ⟩ := hs.exists_stack hg hc
    refine ⟨c.tag, c.state, ⟨σ, mem_threads_of_mem hc hσ⟩, fun a => ?_⟩
    rw [← hkeys c hc]
    exact hA' a
  · rintro ⟨tag, q, ⟨σ, c, hc, htag, hstate, hσ⟩, hA⟩
    obtain rfl : tag = c.tag := htag
    obtain rfl : q = c.state := hstate
    refine List.mem_map.mpr ⟨((c.state, c.stack), A), mem_groupAlts_iff.mpr ⟨⟨c, hc, rfl⟩, ?_⟩, rfl⟩
    intro a
    rw [hkeys c hc]
    exact hA a

/-- The alternatives of the subsets are those that the threads speak for. -/
theorem Tidy.mem_alts_subsets_iff (hg : g.Sound) (hs : s.Tidy g) {a : Nat} :
    a ∈ Subsets.alts s.subsets ↔ ∃ t ∈ s.threads g, t.1.1 = a := by
  rw [Subsets.mem_alts_iff, hs.exists_thread_iff hg (p := fun tag _ => tag.1 = a)]
  constructor
  · rintro ⟨A, hA, ha⟩
    obtain ⟨⟨k, A'⟩, hmem, rfl⟩ := List.mem_map.mp hA
    obtain ⟨c, hc, _, rfl⟩ := ((mem_groupAlts_iff.mp hmem).2 a).mp ha
    exact ⟨c, hc, rfl⟩
  · rintro ⟨c, hc, rfl⟩
    obtain ⟨A, hA, ha⟩ : ∃ A, ((c.state, c.stack), A) ∈ s.groupAlts
        (fun a b => (compare a.1 b.1).then (compare a.2 b.2)) (fun c => (c.state, c.stack)) ∧
          c.alt ∈ A := exists_mem_groupAlts hc
    exact ⟨A, List.mem_map_of_mem hA, ha⟩

theorem Tidy.hasStateOfOneAlt_iff (hg : g.Sound) (hs : s.Tidy g) :
    s.hasStateOfOneAlt = true ↔
      ∃ q a, (∃ t ∈ s.threads g, t.2.1 = q) ∧ ∀ t ∈ s.threads g, t.2.1 = q → t.1.1 = a := by
  have hone : ∀ A : AltSet, A.size = 1 ↔ ∃ a, ∀ x, x ∈ A ↔ x = a := by
    intro A
    simp only [AltSet.size, List.length_eq_one_iff, AltSet.toList_eq_singleton_iff]
  simp only [hasStateOfOneAlt, List.any_eq_true, beq_iff_eq, hone]
  constructor
  · rintro ⟨⟨q, A⟩, hmem, a, ha⟩
    obtain ⟨⟨c, hc, hq⟩, hA⟩ := mem_groupAlts_iff.mp hmem
    refine ⟨q, a, (hs.exists_thread_iff hg (p := fun _ q' => q' = q)).mpr ⟨c, hc, hq⟩, ?_⟩
    refine (hs.forall_thread_iff hg (p := fun tag q' => q' = q → tag.1 = a)).mpr fun d hd hq' => ?_
    exact (ha d.alt).mp ((hA d.alt).mpr ⟨d, hd, hq', rfl⟩)
  · rintro ⟨q, a, hsome, hall⟩
    obtain ⟨c, hc, hq⟩ := (hs.exists_thread_iff hg (p := fun _ q' => q' = q)).mp hsome
    have hall' := (hs.forall_thread_iff hg (p := fun tag q' => q' = q → tag.1 = a)).mp hall
    refine ⟨(q, AltSet.ofList [a]), mem_groupAlts_iff.mpr ⟨⟨c, hc, hq⟩, fun x => ?_⟩, a, by simp⟩
    simp only [AltSet.mem_ofList, List.mem_singleton]
    constructor
    · rintro rfl
      exact ⟨c, hc, hq, hall' c hc hq⟩
    · rintro ⟨d, hd, hq', rfl⟩
      exact hall' d hd hq'

theorem Tidy.isStuck_iff (hg : g.Sound) (hs : s.Tidy g) :
    s.isStuck = true ↔ Stuck (s.threads g) := by
  simp only [isStuck, Subsets.someConflict, Bool.and_eq_true, List.any_eq_true, decide_eq_true_eq,
    Bool.not_eq_true', ← Bool.not_eq_true, hs.hasStateOfOneAlt_iff hg, hs.mem_subsets_iff hg, Stuck]

/-! ## Order -/

/-- **Sets with the same threads have the same places,** up to their order. -/
theorem Tidy.places_perm {g' : StackGraph} {s' : ConfigSet} (hg : g.Sound) (hg' : g'.Sound)
    (hs : s.Tidy g) (hs' : s'.Tidy g') (h : s.threads g = s'.threads g') :
    (s.toList.map Config.place).Perm (s'.toList.map Config.place) := by
  refine (List.perm_ext_iff_of_nodup hs.distinct hs'.distinct).mpr fun p => ?_
  simp only [List.mem_map]
  have h₁ := hs.exists_thread_iff hg (p := fun tag q => (q, tag) = p)
  have h₂ := hs'.exists_thread_iff hg' (p := fun tag q => (q, tag) = p)
  rw [← h] at h₂
  exact h₁.symm.trans h₂

end ConfigSet

end AdaptiveLL
