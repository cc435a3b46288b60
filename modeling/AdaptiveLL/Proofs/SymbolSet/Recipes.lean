import AdaptiveLL.Proofs.SymbolSet.Words
import Mathlib.Data.Set.Card

/-!
# Sets that are put together

Whatever operations a set is put together by, it is canonical, and its members are those that the
operations denote on sets of integers. So the questions that can be put to it have the answers of
that set of integers: the search finds its elements, the count is their number, the list has each of
them once, and two sets are equal if they have the same. If all symbols given to the operations are
numbers of 32 bits, the whole of it is done in machine words.
-/

namespace AdaptiveLL

namespace SymbolSet

/-- **How a set is put together.** -/
inductive Recipe where
  | empty
  | singleton (v : Symbol)
  | ofRange (start stop : Symbol)
  | ofRanges (ranges : List (Symbol × Symbol))
  | insert (r : Recipe) (v : Symbol)
  | insertSpan (r : Recipe) (start stop : Symbol)
  | union (r t : Recipe)
  | erase (r : Recipe) (v : Symbol)
  | complement (r : Recipe) (lo hi : Symbol)

namespace Recipe

/-- The set that comes out. -/
def make : Recipe → SymbolSet
  | empty => SymbolSet.empty
  | singleton v => SymbolSet.singleton v
  | ofRange start stop => SymbolSet.ofRange start stop
  | ofRanges ranges => SymbolSet.ofRanges ranges
  | insert r v => r.make.insert v
  | insertSpan r start stop => r.make.insertSpan start stop
  | union r t => r.make.union t.make
  | erase r v => r.make.erase v
  | complement r lo hi => r.make.complement lo hi

/-- The set that comes out in words; a single symbol is a range of one. -/
def make? : Recipe → Option SymbolSet
  | empty => some SymbolSet.empty
  | singleton v => SymbolSet.empty.insertSpan? v v
  | ofRange start stop => SymbolSet.empty.insertSpan? start stop
  | ofRanges ranges => SymbolSet.ofRanges? ranges
  | insert r v => do (← r.make?).insertSpan? v v
  | insertSpan r start stop => do (← r.make?).insertSpan? start stop
  | union r t => do (← r.make?).union? (← t.make?)
  | erase r v => do (← r.make?).erase? v
  | complement r lo hi => do (← r.make?).complement? lo hi

/-- The integers from `lo` to `hi`. -/
def range (lo hi : Symbol) : Set Symbol := {v | lo ≤ v ∧ v ≤ hi}

/-- **The set of integers that the operations denote.** -/
def members : Recipe → Set Symbol
  | empty => ∅
  | singleton v => {v}
  | ofRange start stop => range start stop
  | ofRanges ranges => {v | ∃ r ∈ ranges, v ∈ range r.1 r.2}
  | insert r v => Insert.insert v r.members
  | insertSpan r start stop => r.members ∪ range start stop
  | union r t => r.members ∪ t.members
  | erase r v => r.members \ {v}
  | complement r lo hi => range lo hi \ r.members

/-- The symbols given to the operations. -/
def given : Recipe → List Symbol
  | empty => []
  | singleton v => [v]
  | ofRange start stop => [start, stop]
  | ofRanges ranges => ranges.flatMap fun r => [r.1, r.2]
  | insert r v => v :: r.given
  | insertSpan r start stop => start :: stop :: r.given
  | union r t => r.given ++ t.given
  | erase r v => v :: r.given
  | complement r lo hi => lo :: hi :: r.given

variable {r t : Recipe} {v : Symbol}

theorem canonical_make (r : Recipe) : r.make.Canonical := by
  induction r with
  | empty => exact .empty
  | singleton v => exact Canonical.empty.insertSpan v v
  | ofRange start stop => exact Canonical.empty.insertSpan start stop
  | ofRanges ranges => exact canonical_ofRanges ranges
  | insert r v ih => exact ih.insert v
  | insertSpan r start stop ih => exact ih.insertSpan start stop
  | union r t ih _ => exact ih.union t.make
  | erase r v ih => exact ih.erase v
  | complement r lo hi _ => exact canonical_complement r.make lo hi

/-- **A set that is put together has the members that its operations denote.** -/
theorem mem_make : v ∈ r.make ↔ v ∈ r.members := by
  induction r with
  | empty => exact iff_of_false (not_mem_empty v) (Set.notMem_empty v)
  | singleton w => exact mem_singleton
  | ofRange start stop => exact mem_ofRange
  | ofRanges ranges => exact mem_ofRanges
  | insert r w ih =>
    rw [make, mem_insert r.canonical_make, ih, members, Set.mem_insert_iff, or_comm]
  | insertSpan r start stop ih =>
    rw [make, mem_insertSpan r.canonical_make, ih]
    rfl
  | union r t ih iht =>
    rw [make, mem_union r.canonical_make, ih, iht]
    rfl
  | erase r w ih =>
    rw [make, mem_erase, ih]
    rfl
  | complement r lo hi ih =>
    rw [make, mem_complement r.canonical_make, ih]
    rfl

/-- **A set is put together in machine words** if the symbols given are. -/
theorem make?_eq (h : ∀ n ∈ r.given, Numeral.fitsInt32 n = true) :
    r.make? = some r.make ∧ r.make.InWords := by
  induction r with
  | empty => exact ⟨rfl, .empty⟩
  | singleton v =>
    have hv := List.forall_mem_singleton.mp h
    exact ⟨insertSpan?_eq .empty hv hv, InWords.empty.insertSpan hv hv⟩
  | ofRange start stop =>
    obtain ⟨hstart, hstop⟩ := List.forall_mem_cons.mp h
    replace hstop := List.forall_mem_singleton.mp hstop
    exact ⟨insertSpan?_eq .empty hstart hstop, InWords.empty.insertSpan hstart hstop⟩
  | ofRanges ranges =>
    have hranges : ∀ r ∈ ranges, Numeral.fitsInt32 r.1 = true ∧ Numeral.fitsInt32 r.2 = true :=
      fun r hr => ⟨h r.1 (List.mem_flatMap.mpr ⟨r, hr, by simp⟩),
        h r.2 (List.mem_flatMap.mpr ⟨r, hr, by simp⟩)⟩
    refine ⟨ofRanges?_eq hranges, canonical_ofRanges ranges, fun v hv => ?_⟩
    obtain ⟨r, hr, hle, hge⟩ := mem_ofRanges.mp hv
    exact fits_between (hranges r hr).1 (hranges r hr).2 hle hge
  | insert r v ih =>
    obtain ⟨hv, hr⟩ := List.forall_mem_cons.mp h
    obtain ⟨hmake, hwords⟩ := ih hr
    rw [make?, hmake]
    exact ⟨insertSpan?_eq hwords hv hv, hwords.insertSpan hv hv⟩
  | insertSpan r start stop ih =>
    obtain ⟨hstart, hrest⟩ := List.forall_mem_cons.mp h
    obtain ⟨hstop, hr⟩ := List.forall_mem_cons.mp hrest
    obtain ⟨hmake, hwords⟩ := ih hr
    rw [make?, hmake]
    exact ⟨insertSpan?_eq hwords hstart hstop, hwords.insertSpan hstart hstop⟩
  | union r t ih iht =>
    obtain ⟨hr, ht⟩ := List.forall_mem_append.mp h
    obtain ⟨hmake, hwords⟩ := ih hr
    obtain ⟨hmake', hwords'⟩ := iht ht
    rw [make?, hmake, hmake']
    exact ⟨union?_eq hwords hwords', hwords.union hwords'⟩
  | erase r v ih =>
    obtain ⟨-, hr⟩ := List.forall_mem_cons.mp h
    obtain ⟨hmake, hwords⟩ := ih hr
    rw [make?, hmake]
    exact ⟨erase?_eq hwords v, hwords.erase v⟩
  | complement r lo hi ih =>
    obtain ⟨hlo, hrest⟩ := List.forall_mem_cons.mp h
    obtain ⟨hhi, hr⟩ := List.forall_mem_cons.mp hrest
    obtain ⟨hmake, hwords⟩ := ih hr
    rw [make?, hmake]
    exact ⟨complement?_eq hwords hlo hhi, hwords.complement hlo hhi⟩

/-- There are as many members as are counted. -/
theorem encard_members (r : Recipe) : r.members.encard = r.make.size := by
  have hset : r.members = r.make.toList.toFinset := by
    ext v
    rw [List.coe_toFinset, Set.mem_ofPred_eq, mem_toList, mem_make]
  have hnodup : r.make.toList.Nodup := r.canonical_make.pairwise_toList.imp Int.ne_of_lt
  rw [hset, Set.encard_coe_eq_coe_finsetCard, List.toFinset_card_of_nodup hnodup, length_toList]

/-- **Symbol sets are canonical sets of integers.** A set that is put together of 32-bit numbers is
put together, counted and listed without leaving machine words. It is canonical; the search, the
count and the list answer for the integers that its operations denote; and it is equal to another
set that is put together just when both denote the same integers. -/
theorem make_exact (h : ∀ n ∈ r.given, Numeral.fitsInt32 n = true) :
    (r.make? = some r.make ∧ r.make.size? = some r.make.size ∧
        ∀ v ∈ r.make.toList, Numeral.fitsInt32 v = true) ∧
      r.make.Canonical ∧
      (∀ v, r.make.contains v = true ↔ v ∈ r.members) ∧
      r.members.encard = r.make.size ∧
      (r.make.toList.Pairwise (· < ·) ∧ (∀ v, v ∈ r.make.toList ↔ v ∈ r.members) ∧
        ∀ n, r.make.first n = r.make.toList.take n) ∧
      ∀ t : Recipe, r.make = t.make ↔ r.members = t.members := by
  obtain ⟨hmake, hwords⟩ := make?_eq h
  have hcanonical := r.canonical_make
  have hequal : ∀ t : Recipe, r.make = t.make ↔ r.members = t.members := by
    refine fun t => ⟨fun heq => ?_, fun heq => ?_⟩
    · ext v
      rw [← mem_make, heq, mem_make]
    · exact hcanonical.ext t.canonical_make fun v => by rw [mem_make, heq, mem_make]
  exact ⟨⟨hmake, size?_eq hwords, fun v hv => hwords.fits v (mem_toList.mp hv)⟩, hcanonical,
    fun v => (contains_iff hcanonical).trans mem_make, r.encard_members,
    ⟨hcanonical.pairwise_toList, fun v => mem_toList.trans mem_make, r.make.first_eq_take⟩, hequal⟩

/-- Both ends of the range of 32 bits: all numbers but the least and the greatest are left over when
the set of these two is complemented in the whole range. -/
theorem make_exact_extremes :
    let ends := Recipe.ofRanges [(2147483647, 2147483647), (-2147483648, -2147483648)]
    let r := (ends.complement (-2147483648) 2147483647).erase 0
    (∀ n ∈ r.given, Numeral.fitsInt32 n = true) ∧
      r.make? = some ⟨[⟨-2147483647, -1⟩, ⟨1, 2147483646⟩]⟩ ∧ r.members.encard = 4294967293 := by
  intro ends r
  have hgiven : ∀ n ∈ r.given, Numeral.fitsInt32 n = true := by decide
  obtain ⟨⟨hmake, -, -⟩, -, -, hcard, -, -⟩ := make_exact hgiven
  have hset : r.make = ⟨[⟨-2147483647, -1⟩, ⟨1, 2147483646⟩]⟩ := by decide
  have hsize : r.make.size = 4294967293 := by rw [hset]; rfl
  rw [hmake, hcard, hsize, hset]
  exact ⟨hgiven, rfl, rfl⟩

end Recipe

end SymbolSet

end AdaptiveLL
