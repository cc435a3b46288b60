import AdaptiveLL.SymbolSet
import Mathlib.Data.List.Pairwise

/-!
# The members of symbol sets

A symbol is a member of a set if one of its spans holds it. On canonical sets the operations do what
they are called after: the halving search finds the members, adding, removing and complementing give
the members one expects, and what they give is canonical again. A canonical set is determined by its
members, so two ways to compute the same members end in the same spans.
-/

namespace AdaptiveLL

namespace Span

theorem contains_iff {p : Span} {v : Symbol} : p.contains v = true ↔ p.start ≤ v ∧ v ≤ p.stop := by
  simp [contains]

/-- The span ends before the other one starts, and a symbol is missing between them. -/
def Before (p q : Span) : Prop := p.stop + 1 < q.start

instance (p q : Span) : Decidable (p.Before q) := inferInstanceAs (Decidable (_ < _))

/-- Spans that overlap or touch make up one span. -/
theorem hull_iff {p q : Span} {v : Symbol} (hpq : ¬p.Before q) (hqp : ¬q.Before p) :
    min p.start q.start ≤ v ∧ v ≤ max p.stop q.stop ↔
      (p.start ≤ v ∧ v ≤ p.stop) ∨ q.start ≤ v ∧ v ≤ q.stop := by
  unfold Before at hpq hqp
  lia

end Span

namespace SymbolSet

instance : Membership Symbol SymbolSet := ⟨fun s v => ∃ p ∈ s.spans, p.start ≤ v ∧ v ≤ p.stop⟩

theorem mem_iff {s : SymbolSet} {v : Symbol} :
    v ∈ s ↔ ∃ p ∈ s.spans, p.start ≤ v ∧ v ≤ p.stop := Iff.rfl

/-- **The spans are non-empty, ascending and separated** by at least one missing symbol. -/
structure Canonical (s : SymbolSet) : Prop where
  nonempty : ∀ p ∈ s.spans, p.start ≤ p.stop
  apart : s.spans.Pairwise Span.Before

instance (s : SymbolSet) : Decidable s.Canonical :=
  decidable_of_iff ((∀ p ∈ s.spans, p.start ≤ p.stop) ∧ s.spans.Pairwise Span.Before)
    ⟨fun h => ⟨h.1, h.2⟩, fun h => ⟨h.nonempty, h.apart⟩⟩

@[simp] theorem not_mem_empty (v : Symbol) : v ∉ empty := by simp [mem_iff, empty]

theorem mem_cons {p : Span} {l : List Span} {v : Symbol} :
    v ∈ (⟨p :: l⟩ : SymbolSet) ↔ (p.start ≤ v ∧ v ≤ p.stop) ∨ v ∈ (⟨l⟩ : SymbolSet) := by
  simp [mem_iff]

namespace Canonical

theorem empty : SymbolSet.empty.Canonical := ⟨by simp [SymbolSet.empty], .nil⟩

theorem cons_iff {p : Span} {l : List Span} :
    (⟨p :: l⟩ : SymbolSet).Canonical ↔
      p.start ≤ p.stop ∧ (∀ q ∈ l, p.Before q) ∧ (⟨l⟩ : SymbolSet).Canonical := by
  constructor
  · intro h
    obtain ⟨hp, hl⟩ := List.forall_mem_cons.mp h.nonempty
    obtain ⟨hbefore, hapart⟩ := List.pairwise_cons.mp h.apart
    exact ⟨hp, hbefore, hl, hapart⟩
  · intro ⟨hp, hbefore, hl⟩
    exact ⟨List.forall_mem_cons.mpr ⟨hp, hl.nonempty⟩, List.pairwise_cons.mpr ⟨hbefore, hl.apart⟩⟩

/-- The members of the later spans lie beyond the first one. -/
theorem lt_of_mem {p : Span} {l : List Span} (h : (⟨p :: l⟩ : SymbolSet).Canonical) {v : Symbol}
    (hv : v ∈ (⟨l⟩ : SymbolSet)) : p.stop + 1 < v := by
  obtain ⟨q, hq, hstart, -⟩ := hv
  have : p.stop + 1 < q.start := (cons_iff.mp h).2.1 q hq
  lia

/-- What stands first in the spans of a canonical set is bounded by what its members are. -/
private theorem first_eq {p q : Span} {l k : List Span} (hp : (⟨p :: l⟩ : SymbolSet).Canonical)
    (hq : (⟨q :: k⟩ : SymbolSet).Canonical)
    (h : ∀ v, v ∈ (⟨p :: l⟩ : SymbolSet) ↔ v ∈ (⟨q :: k⟩ : SymbolSet)) : p = q := by
  have hpne := (cons_iff.mp hp).1
  have hqne := (cons_iff.mp hq).1
  have hfirst : ∀ {v : Symbol}, v ∈ (⟨p :: l⟩ : SymbolSet) → p.start ≤ v := by
    intro v hv
    rcases mem_cons.mp hv with hin | hv
    · exact hin.1
    · have := hp.lt_of_mem hv
      lia
  have hfirst' : ∀ {v : Symbol}, v ∈ (⟨q :: k⟩ : SymbolSet) → q.start ≤ v := by
    intro v hv
    rcases mem_cons.mp hv with hin | hv
    · exact hin.1
    · have := hq.lt_of_mem hv
      lia
  have hle : p.start ≤ q.start := hfirst ((h _).mpr (mem_cons.mpr (.inl ⟨Int.le_refl _, hqne⟩)))
  have hge : q.start ≤ p.start := hfirst' ((h _).mp (mem_cons.mpr (.inl ⟨Int.le_refl _, hpne⟩)))
  -- The symbol after the shorter of the two spans would be in one set only.
  have hstop : p.stop = q.stop := by
    rcases Int.lt_trichotomy p.stop q.stop with hlt | heq | hgt
    · have hmem := (h (p.stop + 1)).mpr (mem_cons.mpr (.inl ⟨by lia, by lia⟩))
      rcases mem_cons.mp hmem with hin | hin
      · lia
      · exact absurd (hp.lt_of_mem hin) (Int.lt_irrefl _)
    · exact heq
    · have hmem := (h (q.stop + 1)).mp (mem_cons.mpr (.inl ⟨by lia, by lia⟩))
      rcases mem_cons.mp hmem with hin | hin
      · lia
      · exact absurd (hq.lt_of_mem hin) (Int.lt_irrefl _)
  cases p
  cases q
  exact Span.mk.injEq .. ▸ ⟨Int.le_antisymm hle hge, hstop⟩

/-- **A canonical set is determined by its members.** -/
theorem ext {s t : SymbolSet} (hs : s.Canonical) (ht : t.Canonical) (h : ∀ v, v ∈ s ↔ v ∈ t) :
    s = t := by
  obtain ⟨l⟩ := s
  obtain ⟨k⟩ := t
  refine congrArg SymbolSet.mk ?_
  induction l generalizing k with
  | nil =>
    cases k with
    | nil => rfl
    | cons q k =>
      have hmem := (h q.start).mpr (mem_cons.mpr (.inl ⟨Int.le_refl _, (cons_iff.mp ht).1⟩))
      exact absurd hmem (not_mem_empty _)
  | cons p l ih =>
    cases k with
    | nil =>
      have hmem := (h p.start).mp (mem_cons.mpr (.inl ⟨Int.le_refl _, (cons_iff.mp hs).1⟩))
      exact absurd hmem (not_mem_empty _)
    | cons q k =>
      -- The first spans are equal, and what is beyond them is told apart by being beyond.
      obtain rfl := first_eq hs ht h
      refine congrArg (p :: ·) (ih (cons_iff.mp hs).2.2 k (cons_iff.mp ht).2.2 fun v => ?_)
      have hv := h v
      rw [mem_cons, mem_cons] at hv
      constructor
      · intro hmem
        have := hs.lt_of_mem hmem
        exact (hv.mp (.inr hmem)).resolve_left fun hin => by lia
      · intro hmem
        have := ht.lt_of_mem hmem
        exact (hv.mpr (.inr hmem)).resolve_left fun hin => by lia

end Canonical

/-! ## Search -/

section

variable {window : List Span}

private theorem Canonical.sublist (h : (⟨window⟩ : SymbolSet).Canonical) {l : List Span}
    (hl : l.Sublist window) : (⟨l⟩ : SymbolSet).Canonical :=
  ⟨fun p hp => h.nonempty p (hl.subset hp), h.apart.sublist hl⟩

private theorem Canonical.before (h : (⟨window⟩ : SymbolSet).Canonical) {i j : Nat}
    (hi : i < window.length) (hj : j < window.length) (hij : i < j) :
    window[i].stop + 1 < window[j].start :=
  List.pairwise_iff_getElem.mp h.apart _ _ hi hj hij

/-- A symbol before a span is held by the spans in front of it, if at all. -/
private theorem mem_take_iff (h : (⟨window⟩ : SymbolSet).Canonical) {i n : Nat}
    (hi : i < window.length) (hn : i ≤ n) {v : Symbol} (hv : v < window[i].start) :
    v ∈ (⟨window.take n⟩ : SymbolSet) ↔ v ∈ (⟨window⟩ : SymbolSet) := by
  constructor
  · intro ⟨p, hp, hin⟩
    exact ⟨p, List.mem_of_mem_take hp, hin⟩
  · intro ⟨p, hp, hin⟩
    obtain ⟨j, hj, rfl⟩ := List.getElem_of_mem hp
    have hji : j < i := by
      by_contra hle
      rcases Nat.eq_or_lt_of_le (Nat.le_of_not_lt hle) with heq | hlt
      · subst heq
        lia
      · have := h.before hi hj hlt
        have := h.nonempty _ (List.getElem_mem hi)
        lia
    exact ⟨_, List.mem_take_iff_getElem.mpr ⟨j, by lia, rfl⟩, hin⟩

/-- A symbol that is not before a span is held by it or by the spans behind it, if at all. -/
private theorem mem_drop_iff (h : (⟨window⟩ : SymbolSet).Canonical) {i : Nat}
    (hi : i < window.length) {v : Symbol} (hv : window[i].start ≤ v) :
    v ∈ (⟨window.drop i⟩ : SymbolSet) ↔ v ∈ (⟨window⟩ : SymbolSet) := by
  constructor
  · intro ⟨p, hp, hin⟩
    exact ⟨p, List.mem_of_mem_drop hp, hin⟩
  · intro ⟨p, hp, hin⟩
    obtain ⟨j, hj, rfl⟩ := List.getElem_of_mem hp
    have hij : i ≤ j := by
      by_contra hlt
      have := h.before hj hi (Nat.lt_of_not_le hlt)
      lia
    refine ⟨_, List.mem_drop_iff_getElem.mpr ⟨j - i, by lia, rfl⟩, ?_⟩
    simpa only [Nat.add_sub_cancel' hij] using hin

private theorem half_pos (hnil : window = [] → False) (hone : ∀ p, window = [p] → False) :
    0 < window.length / 2 := by
  match window, hnil, hone with
  | [], hnil, _ => exact absurd rfl hnil
  | [p], _, hone => exact absurd rfl (hone p)
  | _ :: _ :: _, _, _ => simp only [List.length_cons]; lia

/-- **The halving search finds the span that holds the symbol,** if there is one. -/
private theorem searchWithin_iff {v : Symbol} {fuel : Nat} (hfuel : window.length ≤ fuel)
    (h : (⟨window⟩ : SymbolSet).Canonical) :
    searchWithin v fuel window = true ↔ v ∈ (⟨window⟩ : SymbolSet) := by
  fun_induction searchWithin v fuel window with
  | case1 => simp [mem_iff]
  | case2 => simp [mem_iff, Span.contains_iff]
  | case3 window hnil hone => exact absurd (List.eq_nil_of_length_eq_zero (Nat.le_zero.mp hfuel)) hnil
  | case4 fuel window hnil hone half hnone =>
    have := List.getElem?_eq_none_iff.mp hnone
    exact absurd (List.eq_nil_of_length_eq_zero (by lia)) hnil
  | case5 fuel window hnil hone half middle hmiddle hlt ih =>
    obtain ⟨hhalf, rfl⟩ := List.getElem?_eq_some_iff.mp hmiddle
    have hpos : 0 < half := half_pos hnil hone
    rw [ih (by rw [List.length_take]; lia) (h.sublist (List.take_sublist ..))]
    exact mem_take_iff h hhalf (by lia) hlt.1
  | case6 fuel window hnil hone half middle hmiddle hge ih =>
    obtain ⟨hhalf, rfl⟩ := List.getElem?_eq_some_iff.mp hmiddle
    have hpos : 0 < half := half_pos hnil hone
    have hmiddle := h.nonempty _ (List.getElem_mem hhalf)
    rw [ih (by rw [List.length_drop]; lia) (h.sublist (List.drop_sublist ..))]
    exact mem_drop_iff h hhalf (by lia)

end

/-- **A canonical set contains its members.** -/
theorem contains_iff {s : SymbolSet} (h : s.Canonical) {v : Symbol} :
    s.contains v = true ↔ v ∈ s :=
  searchWithin_iff (Nat.le_refl _) h

/-! ## Insertion -/

/-- Once the new span stands before all others nothing changes. -/
private theorem weave_placed {m : Span} {l : List Span} (h : ∀ p ∈ l, m.Before p) :
    weave m true l = l := by
  induction l with
  | nil => rfl
  | cons p l ih =>
    obtain ⟨hp, hl⟩ := List.forall_mem_cons.mp h
    have hbeyond : m.stop + 1 < p.start := hp
    simp [weave, ih hl, hbeyond]

private theorem mem_weave {m : Span} {l : List Span} (hm : m.start ≤ m.stop)
    (h : (⟨l⟩ : SymbolSet).Canonical) {v : Symbol} :
    v ∈ (⟨weave m false l⟩ : SymbolSet) ↔ (m.start ≤ v ∧ v ≤ m.stop) ∨ v ∈ (⟨l⟩ : SymbolSet) := by
  induction l generalizing m with
  | nil => simp [weave, mem_iff]
  | cons p l ih =>
    obtain ⟨hp, hbefore, hl⟩ := Canonical.cons_iff.mp h
    rw [weave]
    split
    · rw [mem_cons, mem_cons, ih hm hl]
      exact or_left_comm
    · next hpm =>
      split
      · next hmp =>
        -- Everything from here on lies beyond the new span.
        have hrest : ∀ q ∈ l, m.Before q := by
          intro q hq
          have : p.stop + 1 < q.start := hbefore q hq
          unfold Span.Before
          lia
        simp only [Bool.false_eq_true, if_false, weave_placed hrest, mem_cons]
      · next hmp =>
        rw [ih (by lia) hl, mem_cons, ← or_assoc]
        exact or_congr_left (Span.hull_iff hmp hpm)

private theorem lt_start_of_mem_weave {m p : Span} {placed : Bool} {l : List Span} {a : Symbol}
    (hm : a < m.start) (hl : ∀ q ∈ l, a < q.start) (hp : p ∈ weave m placed l) : a < p.start := by
  induction l generalizing m placed with
  | nil =>
    rw [weave] at hp
    split at hp
    · cases hp
    · rwa [List.mem_singleton.mp hp]
  | cons q l ih =>
    obtain ⟨hq, hl⟩ := List.forall_mem_cons.mp hl
    rw [weave] at hp
    split at hp
    · rcases List.mem_cons.mp hp with rfl | hp
      · exact hq
      · exact ih hm hl hp
    · split at hp
      · split at hp
        · rcases List.mem_cons.mp hp with rfl | hp
          · exact hq
          · exact ih hm hl hp
        · rcases List.mem_cons.mp hp with rfl | hp
          · exact hm
          · rcases List.mem_cons.mp hp with rfl | hp
            · exact hq
            · exact ih hm hl hp
      · exact ih (by lia) hl hp

private theorem weave_canonical {m : Span} {l : List Span} (hm : m.start ≤ m.stop)
    (h : (⟨l⟩ : SymbolSet).Canonical) : (⟨weave m false l⟩ : SymbolSet).Canonical := by
  induction l generalizing m with
  | nil => exact Canonical.cons_iff.mpr ⟨hm, by simp, .empty⟩
  | cons p l ih =>
    obtain ⟨hp, hbefore, hl⟩ := Canonical.cons_iff.mp h
    rw [weave]
    split
    · next hpm =>
      exact Canonical.cons_iff.mpr
        ⟨hp, fun q hq => lt_start_of_mem_weave hpm hbefore hq, ih hm hl⟩
    · split
      · next hmp =>
        have hrest : ∀ q ∈ p :: l, m.Before q := by
          refine List.forall_mem_cons.mpr ⟨hmp, fun q hq => ?_⟩
          have : p.stop + 1 < q.start := hbefore q hq
          unfold Span.Before
          lia
        simp only [Bool.false_eq_true, if_false,
          weave_placed (List.forall_mem_cons.mp hrest).2]
        exact Canonical.cons_iff.mpr ⟨hm, hrest, h⟩
      · exact ih (by lia) hl

section

variable {s : SymbolSet}

theorem mem_insertSpan (h : s.Canonical) {start stop v : Symbol} :
    v ∈ s.insertSpan start stop ↔ v ∈ s ∨ start ≤ v ∧ v ≤ stop := by
  unfold insertSpan
  split
  · exact (or_iff_left fun hv => by lia).symm
  · exact (mem_weave (by lia) h).trans or_comm

theorem Canonical.insertSpan (h : s.Canonical) (start stop : Symbol) :
    (s.insertSpan start stop).Canonical := by
  unfold SymbolSet.insertSpan
  split
  · exact h
  · exact weave_canonical (by lia) h

theorem mem_insert (h : s.Canonical) {v w : Symbol} : v ∈ s.insert w ↔ v ∈ s ∨ v = w := by
  rw [insert, mem_insertSpan h]
  exact or_congr_right ⟨fun hv => Int.le_antisymm hv.2 hv.1, fun hv => ⟨Int.le_of_eq hv.symm, Int.le_of_eq hv⟩⟩

theorem Canonical.insert (h : s.Canonical) (v : Symbol) : (s.insert v).Canonical :=
  h.insertSpan v v

theorem Canonical.union (h : s.Canonical) (t : SymbolSet) : (s.union t).Canonical := by
  obtain ⟨l⟩ := t
  change (l.foldl _ s).Canonical
  induction l generalizing s with
  | nil => exact h
  | cons p l ih => exact ih (h.insertSpan p.start p.stop)

/-- **A union has the members of both sets.** The set that is added need not be canonical. -/
theorem mem_union (h : s.Canonical) {t : SymbolSet} {v : Symbol} :
    v ∈ s.union t ↔ v ∈ s ∨ v ∈ t := by
  obtain ⟨l⟩ := t
  change v ∈ l.foldl _ s ↔ _
  induction l generalizing s with
  | nil => simp [mem_iff]
  | cons p l ih => rw [List.foldl_cons, ih (h.insertSpan _ _), mem_insertSpan h, mem_cons, or_assoc]

end

/-- Ranges are added like the spans of a set. -/
theorem ofRanges_eq_union (ranges : List (Symbol × Symbol)) :
    ofRanges ranges = empty.union ⟨ranges.map fun r => ⟨r.1, r.2⟩⟩ :=
  (List.foldl_map (f := fun r : Symbol × Symbol => (⟨r.1, r.2⟩ : Span))
    (g := fun acc p => insertSpan acc p.start p.stop)).symm

/-- **The set of some ranges is canonical,** in whatever order they come. -/
theorem canonical_ofRanges (ranges : List (Symbol × Symbol)) : (ofRanges ranges).Canonical := by
  rw [ofRanges_eq_union]
  exact Canonical.empty.union _

theorem mem_ofRanges {ranges : List (Symbol × Symbol)} {v : Symbol} :
    v ∈ ofRanges ranges ↔ ∃ r ∈ ranges, r.1 ≤ v ∧ v ≤ r.2 := by
  rw [ofRanges_eq_union, mem_union .empty, or_iff_right (not_mem_empty v)]
  simp only [mem_iff, List.mem_map, exists_exists_and_eq_and]

theorem mem_ofRange {start stop v : Symbol} : v ∈ ofRange start stop ↔ start ≤ v ∧ v ≤ stop := by
  rw [ofRange, mem_insertSpan .empty]
  exact or_iff_right (not_mem_empty v)

theorem mem_singleton {v w : Symbol} : v ∈ singleton w ↔ v = w := by
  rw [singleton, mem_ofRange]
  exact ⟨fun h => Int.le_antisymm h.2 h.1, fun h => ⟨Int.le_of_eq h.symm, Int.le_of_eq h⟩⟩

/-! ## Removal -/

private theorem mem_without {p q : Span} {v : Symbol} (hp : p.start ≤ p.stop)
    (hq : q ∈ p.without v) : p.start ≤ q.start ∧ q.start ≤ q.stop ∧ q.stop ≤ p.stop := by
  unfold Span.without at hq
  split at hq
  · next hin =>
    obtain ⟨_, _⟩ := Span.contains_iff.mp hin
    rcases List.mem_append.mp hq with hq | hq
    · split at hq
      · obtain rfl := List.mem_singleton.mp hq
        dsimp only
        lia
      · cases hq
    · split at hq
      · obtain rfl := List.mem_singleton.mp hq
        dsimp only
        lia
      · cases hq
  · obtain rfl := List.mem_singleton.mp hq
    exact ⟨Int.le_refl _, hp, Int.le_refl _⟩

private theorem exists_without {p : Span} {v w : Symbol} :
    (∃ q ∈ p.without w, q.start ≤ v ∧ v ≤ q.stop) ↔ (p.start ≤ v ∧ v ≤ p.stop) ∧ v ≠ w := by
  unfold Span.without
  by_cases hin : p.contains w = true
  · obtain ⟨_, _⟩ := Span.contains_iff.mp hin
    rw [if_pos hin]
    by_cases hlow : p.start < w <;> by_cases hhigh : w < p.stop <;> simp [hlow, hhigh] <;> lia
  · rw [if_neg hin]
    rw [Span.contains_iff] at hin
    simp only [List.mem_singleton, exists_eq_left]
    exact ⟨fun hv => ⟨hv, fun heq => hin (heq ▸ hv)⟩, And.left⟩

theorem mem_erase {s : SymbolSet} {v w : Symbol} : v ∈ s.erase w ↔ v ∈ s ∧ v ≠ w := by
  simp only [mem_iff, erase, List.mem_flatMap]
  constructor
  · intro ⟨q, ⟨p, hp, hq⟩, hv⟩
    obtain ⟨hin, hne⟩ := exists_without.mp ⟨q, hq, hv⟩
    exact ⟨⟨p, hp, hin⟩, hne⟩
  · intro ⟨⟨p, hp, hin⟩, hne⟩
    obtain ⟨q, hq, hv⟩ := exists_without.mpr ⟨hin, hne⟩
    exact ⟨q, ⟨p, hp, hq⟩, hv⟩

theorem Canonical.erase {s : SymbolSet} (h : s.Canonical) (v : Symbol) : (s.erase v).Canonical where
  nonempty q hq := by
    obtain ⟨p, hp, hq⟩ := List.mem_flatMap.mp hq
    exact (mem_without (h.nonempty p hp) hq).2.1
  apart := by
    refine List.pairwise_flatMap.mpr ⟨fun p hp => ?_, ?_⟩
    · -- What is left of one span lies on both sides of the symbol taken out.
      unfold Span.without
      split
      · have hbefore : Span.Before ⟨p.start, v - 1⟩ ⟨v + 1, p.stop⟩ := by
          unfold Span.Before
          lia
        split <;> split <;> simp [hbefore]
      · exact List.pairwise_singleton _ _
    · refine h.apart.imp_of_mem fun {p q} hp hq hpq p' hp' q' hq' => ?_
      have hbefore : p.stop + 1 < q.start := hpq
      have := mem_without (h.nonempty p hp) hp'
      have := mem_without (h.nonempty q hq) hq'
      unfold Span.Before
      lia

/-! ## Complements -/

private theorem fillGaps_canonical {lo hi next : Symbol} {acc : SymbolSet} (hacc : acc.Canonical)
    (l : List Span) : (fillGaps lo hi next acc l).Canonical := by
  induction l generalizing next acc with
  | nil => exact hacc.insertSpan _ _
  | cons p l ih =>
    rw [fillGaps]
    split
    · exact ih hacc
    · split
      · exact hacc.insertSpan _ _
      · split
        · exact ih (hacc.insertSpan _ _)
        · exact ih hacc

private theorem mem_fillGaps {lo hi next : Symbol} {acc : SymbolSet} (hacc : acc.Canonical)
    {l : List Span} (hl : (⟨l⟩ : SymbolSet).Canonical) (hnext : lo ≤ next) {v : Symbol} :
    v ∈ fillGaps lo hi next acc l ↔
      v ∈ acc ∨ (next ≤ v ∧ v ≤ hi) ∧ v ∉ (⟨l⟩ : SymbolSet) := by
  induction l generalizing next acc with
  | nil =>
    rw [fillGaps, mem_insertSpan hacc]
    simp [mem_iff]
  | cons p l ih =>
    obtain ⟨hp, -, hl'⟩ := Canonical.cons_iff.mp hl
    have hbeyond : v ∈ (⟨l⟩ : SymbolSet) → p.stop + 1 < v := hl.lt_of_mem
    rw [fillGaps, mem_cons]
    split
    · rw [ih hacc hl' hnext]
      refine or_congr_right (and_congr_right fun hv => not_congr (or_iff_right fun hin => ?_).symm)
      lia
    · split
      · -- The span and all after it lie above the range.
        rw [mem_insertSpan hacc]
        refine or_congr_right ⟨fun hv => ⟨hv, ?_⟩, And.left⟩
        rintro (hin | hin)
        · lia
        · have := hbeyond hin
          lia
      -- The span lies in the range: what is before it is a gap, which is added.
      · by_cases hgap : next < p.start
        · rw [if_pos hgap, ih (hacc.insertSpan _ _) hl' (by lia), mem_insertSpan hacc, or_assoc]
          refine or_congr_right ?_
          by_cases hin : v ∈ (⟨l⟩ : SymbolSet)
          · have := hbeyond hin
            simp only [hin, not_true, and_false, or_false, or_true]
            lia
          · simp only [hin, not_false_eq_true, and_true, or_false]
            lia
        · rw [if_neg hgap, ih hacc hl' (by lia)]
          refine or_congr_right ?_
          by_cases hin : v ∈ (⟨l⟩ : SymbolSet)
          · simp [hin]
          · simp only [hin, not_false_eq_true, and_true, or_false]
            lia

theorem canonical_complement (s : SymbolSet) (lo hi : Symbol) : (s.complement lo hi).Canonical :=
  fillGaps_canonical .empty s.spans

/-- **A complement has the symbols of the range that the set leaves out.** -/
theorem mem_complement {s : SymbolSet} (h : s.Canonical) {lo hi v : Symbol} :
    v ∈ s.complement lo hi ↔ (lo ≤ v ∧ v ≤ hi) ∧ v ∉ s := by
  rw [complement, mem_fillGaps .empty h (Int.le_refl lo)]
  exact or_iff_right (not_mem_empty v)

end SymbolSet

/-! ## Listing -/

namespace Span

variable {p : Span}

theorem toList_eq (p : Span) : p.toList = (List.range p.size).map fun i : Nat => p.start + i := by
  rw [toList, first, Nat.min_self]

@[simp] theorem length_toList (p : Span) : p.toList.length = p.size := by
  rw [toList_eq, List.length_map, List.length_range]

theorem mem_toList {v : Symbol} : v ∈ p.toList ↔ p.start ≤ v ∧ v ≤ p.stop := by
  simp only [toList_eq, List.mem_map, List.mem_range, size]
  constructor
  · rintro ⟨i, hi, rfl⟩
    lia
  · intro hv
    exact ⟨(v - p.start).toNat, by lia, by lia⟩

/-- The first symbols of the list. -/
theorem first_eq_take (p : Span) (n : Nat) : p.first n = p.toList.take n := by
  rw [toList_eq, ← List.map_take, List.take_range]
  rfl

theorem pairwise_toList (p : Span) : p.toList.Pairwise (· < ·) := by
  rw [toList_eq, List.pairwise_map]
  exact List.pairwise_lt_range.imp fun hlt => by lia

end Span

namespace SymbolSet

variable {s : SymbolSet}

/-- The list has as many symbols as are counted. -/
theorem length_toList (s : SymbolSet) : s.toList.length = s.size := by
  obtain ⟨l⟩ := s
  change (l.flatMap Span.toList).length = l.foldr (fun p n => p.size + n) 0
  induction l with
  | nil => rfl
  | cons p l ih =>
    rw [List.flatMap_cons, List.length_append, Span.length_toList, ih, List.foldr_cons]

/-- The first symbols are found without listing the others. -/
theorem first_eq_take (s : SymbolSet) (n : Nat) : s.first n = s.toList.take n := by
  obtain ⟨l⟩ := s
  change firstOf n l = (l.flatMap Span.toList).take n
  induction l generalizing n with
  | nil => exact List.take_nil.symm
  | cons p l ih =>
    rw [firstOf, ih, List.flatMap_cons, List.take_append, Span.length_toList, p.first_eq_take]

theorem mem_toList {v : Symbol} : v ∈ s.toList ↔ v ∈ s := by
  simp only [toList, List.mem_flatMap, Span.mem_toList, mem_iff]

/-- **The list ascends,** so no symbol is in it twice. -/
theorem Canonical.pairwise_toList (h : s.Canonical) : s.toList.Pairwise (· < ·) := by
  refine List.pairwise_flatMap.mpr ⟨fun p _ => p.pairwise_toList, ?_⟩
  refine h.apart.imp fun {p q} hpq v hv w hw => ?_
  have hbefore : p.stop + 1 < q.start := hpq
  have := Span.mem_toList.mp hv
  have := Span.mem_toList.mp hw
  lia

end SymbolSet

end AdaptiveLL
