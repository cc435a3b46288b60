import AdaptiveLL.Text
import AdaptiveLL.Proofs.SymbolSet
import Mathlib.Order.Interval.Finset.Nat
import Mathlib.Data.Int.Interval

/-!
# Symbol sets in machine words

Symbols are numbers of 32 bits, while the operations on sets are stated for integers of any size.
Here every operation is stated once more with each number it computes held to the word that takes it
up: 32 bits for what becomes the end of a span, 64 bits for what only takes part in a comparison,
and 64 bits without a sign for a count. Where a number does not fit there is no result.

On a set of 32-bit numbers nothing is ever lost: each operation has a result, and it is the one that
unbounded integers give. Both ends of the range are no exception. A span that ends with the greatest
number is compared by its successor, which only 64 bits hold, and a number is stepped down or up
from only where the span shows that there is room.
-/

namespace AdaptiveLL

namespace Numeral

/-- The integer, if a signed number of 64 bits holds it. -/
def int64? (n : Int) : Option Int := if fitsInt64 n then some n else none

/-- The number, if an unsigned number of 64 bits holds it. -/
def count64? (n : Nat) : Option Nat := if n ≤ maxWord then some n else none

theorem fitsInt32_iff {n : Int} :
    fitsInt32 n = true ↔ -2147483648 ≤ n ∧ n ≤ 2147483647 := by
  simp [fitsInt32]

theorem int32?_eq {n : Int} (h : fitsInt32 n = true) : int32? n = some n := if_pos h

theorem int64?_eq {n : Int} (h : -9223372036854775808 ≤ n ∧ n ≤ 9223372036854775807) :
    int64? n = some n :=
  if_pos (by simpa [fitsInt64] using h)

theorem count64?_eq {n : Nat} (h : n ≤ maxWord) : count64? n = some n := if_pos h

/-- The successor of a 32-bit number takes no more than 64 bits. -/
theorem int64?_succ {n : Int} (h : fitsInt32 n = true) : int64? (n + 1) = some (n + 1) := by
  rw [fitsInt32_iff] at h
  exact int64?_eq (by omega)

end Numeral

open Numeral

/-! ## The operations in words -/

namespace Span

/-- Both ends are numbers of 32 bits. -/
def InWords (p : Span) : Prop := fitsInt32 p.start = true ∧ fitsInt32 p.stop = true

/-- What the span holds below a symbol of it. -/
def below? (p : Span) (v : Symbol) : Option (List Span) :=
  if p.start < v then (int32? (v - 1)).map fun last => [⟨p.start, last⟩] else some []

/-- What the span holds above a symbol of it. -/
def above? (p : Span) (v : Symbol) : Option (List Span) :=
  if v < p.stop then (int32? (v + 1)).map fun next => [⟨next, p.stop⟩] else some []

/-- `Span.without` in words. -/
def without? (p : Span) (v : Symbol) : Option (List Span) :=
  if p.contains v then do return (← p.below? v) ++ (← p.above? v) else some [p]

/-- `Span.size` in words. -/
def size? (p : Span) : Option Nat :=
  if p.stop < p.start then some 0
  else do
    let width ← int64? (p.stop - p.start)
    let count ← int64? (width + 1)
    return count.toNat

end Span

namespace SymbolSet

/-- `weave` in words. -/
def weave? (m : Span) (placed : Bool) : List Span → Option (List Span)
  | [] => some (if placed then [] else [m])
  | p :: rest => do
    let past ← int64? (p.stop + 1)
    let beyond ← int64? (m.stop + 1)
    if past < m.start then return p :: (← weave? m placed rest)
    else if beyond < p.start then
      let rest ← weave? m true rest
      return if placed then p :: rest else m :: p :: rest
    else weave? ⟨min m.start p.start, max m.stop p.stop⟩ placed rest

/-- `insertSpan` in words. -/
def insertSpan? (s : SymbolSet) (start stop : Symbol) : Option SymbolSet :=
  if stop < start then some s else (weave? ⟨start, stop⟩ false s.spans).map SymbolSet.mk

/-- `union` in words. -/
def union? (s t : SymbolSet) : Option SymbolSet :=
  t.spans.foldlM (fun acc p => acc.insertSpan? p.start p.stop) s

/-- `ofRanges` in words. -/
def ofRanges? (ranges : List (Symbol × Symbol)) : Option SymbolSet :=
  ranges.foldlM (fun acc r => acc.insertSpan? r.1 r.2) empty

/-- `erase` in words. -/
def erase? (s : SymbolSet) (v : Symbol) : Option SymbolSet := do
  return ⟨(← s.spans.mapM (·.without? v)).flatten⟩

/-- Fills the last gap. The next symbol to be filled in may be the successor of the greatest number,
so it is kept in 64 bits until there is room for it. -/
def fillRest? (s : SymbolSet) (next hi : Symbol) : Option SymbolSet :=
  if next ≤ hi then do s.insertSpan? (← int32? next) hi else some s

/-- `fillGaps` in words. -/
def fillGaps? (lo hi : Symbol) : Symbol → SymbolSet → List Span → Option SymbolSet
  | next, acc, [] => acc.fillRest? next hi
  | next, acc, p :: rest =>
    if p.stop < lo then fillGaps? lo hi next acc rest
    else if hi < p.start then acc.fillRest? next hi
    else do
      let filled ←
        if next < p.start then do acc.insertSpan? (← int32? next) (← int32? (p.start - 1))
        else some acc
      let past ← int64? (p.stop + 1)
      fillGaps? lo hi (max next past) filled rest

/-- `complement` in words. -/
def complement? (s : SymbolSet) (lo hi : Symbol) : Option SymbolSet :=
  fillGaps? lo hi lo empty s.spans

/-- `size` in words, the spans counted from the first to the last. -/
def size? (s : SymbolSet) : Option Nat :=
  s.spans.foldlM (fun n p => do count64? (n + (← p.size?))) 0

/-! ## Sets of 32-bit numbers -/

/-- **A canonical set of 32-bit numbers.** -/
structure InWords (s : SymbolSet) : Prop where
  canonical : s.Canonical
  fits : ∀ v ∈ s, fitsInt32 v = true

variable {s t : SymbolSet}

theorem InWords.empty : SymbolSet.empty.InWords := ⟨.empty, fun v hv => absurd hv (not_mem_empty v)⟩

/-- The ends of the spans are members. -/
theorem InWords.span (h : s.InWords) {p : Span} (hp : p ∈ s.spans) : p.InWords := by
  have hne := h.canonical.nonempty p hp
  exact ⟨h.fits _ ⟨p, hp, Int.le_refl _, hne⟩, h.fits _ ⟨p, hp, hne, Int.le_refl _⟩⟩

/-- What lies between two 32-bit numbers is one. -/
theorem fits_between {a b v : Int} (ha : fitsInt32 a = true) (hb : fitsInt32 b = true) (hav : a ≤ v)
    (hvb : v ≤ b) : fitsInt32 v = true := by
  rw [fitsInt32_iff] at *
  omega

theorem InWords.insertSpan (h : s.InWords) {start stop : Symbol} (hstart : fitsInt32 start = true)
    (hstop : fitsInt32 stop = true) : (s.insertSpan start stop).InWords where
  canonical := h.canonical.insertSpan start stop
  fits v hv := by
    rcases (mem_insertSpan h.canonical).mp hv with hv | hv
    · exact h.fits v hv
    · exact fits_between hstart hstop hv.1 hv.2

theorem InWords.union (h : s.InWords) (ht : t.InWords) : (s.union t).InWords where
  canonical := h.canonical.union t
  fits v hv := ((mem_union h.canonical).mp hv).elim (h.fits v) (ht.fits v)

theorem InWords.erase (h : s.InWords) (v : Symbol) : (s.erase v).InWords where
  canonical := h.canonical.erase v
  fits w hw := h.fits w (mem_erase.mp hw).1

theorem InWords.complement (h : s.InWords) {lo hi : Symbol} (hlo : fitsInt32 lo = true)
    (hhi : fitsInt32 hi = true) : (s.complement lo hi).InWords where
  canonical := canonical_complement s lo hi
  fits v hv := by
    obtain ⟨hin, -⟩ := (mem_complement h.canonical).mp hv
    exact fits_between hlo hhi hin.1 hin.2

/-! ## Nothing is lost -/

/-- Working a span in needs no number but the successors of ends of spans. -/
theorem weave?_eq {m : Span} {placed : Bool} {l : List Span} (hm : m.InWords)
    (hl : ∀ p ∈ l, p.InWords) : weave? m placed l = some (weave m placed l) := by
  induction l generalizing m placed with
  | nil => rfl
  | cons p l ih =>
    obtain ⟨hp, hl⟩ := List.forall_mem_cons.mp hl
    rw [weave?, weave, int64?_succ hp.2, int64?_succ hm.2]
    simp only [Option.bind_eq_bind, Option.bind_some]
    split
    · rw [ih hm hl]
      rfl
    · split
      · rw [ih hm hl]
        cases placed <;> rfl
      · -- The hull of two spans has its ends from them.
        refine ih ?_ hl
        simp only [Span.InWords, fitsInt32_iff] at hm hp ⊢
        omega

theorem insertSpan?_eq (h : s.InWords) {start stop : Symbol} (hstart : fitsInt32 start = true)
    (hstop : fitsInt32 stop = true) :
    s.insertSpan? start stop = some (s.insertSpan start stop) := by
  unfold insertSpan? SymbolSet.insertSpan
  split
  · rfl
  · rw [weave?_eq ⟨hstart, hstop⟩ fun p hp => h.span hp]
    rfl

/-- Spans may be added one after the other. -/
private theorem foldlM_insertSpan? {l : List Span} (h : s.InWords) (hl : ∀ p ∈ l, p.InWords) :
    l.foldlM (fun acc p => acc.insertSpan? p.start p.stop) s = some (s.union ⟨l⟩) := by
  induction l generalizing s with
  | nil => rfl
  | cons p l ih =>
    obtain ⟨hp, hl⟩ := List.forall_mem_cons.mp hl
    rw [List.foldlM_cons, insertSpan?_eq h hp.1 hp.2]
    exact ih (h.insertSpan hp.1 hp.2) hl

theorem union?_eq (h : s.InWords) (ht : t.InWords) : s.union? t = some (s.union t) :=
  foldlM_insertSpan? h fun _ hp => ht.span hp

theorem ofRanges?_eq {ranges : List (Symbol × Symbol)}
    (h : ∀ r ∈ ranges, fitsInt32 r.1 = true ∧ fitsInt32 r.2 = true) :
    ofRanges? ranges = some (ofRanges ranges) := by
  have hspans : ∀ p ∈ ranges.map fun r => (⟨r.1, r.2⟩ : Span), p.InWords := by
    rintro _ hp
    obtain ⟨r, hr, rfl⟩ := List.mem_map.mp hp
    exact h r hr
  rw [ofRanges_eq_union, ← foldlM_insertSpan? .empty hspans, List.foldlM_map]
  rfl

/-- **Taking a symbol out never steps past an end of the range:** there is room where the span goes
on. -/
theorem Span.without?_eq {p : Span} (hp : p.InWords) (v : Symbol) :
    p.without? v = some (p.without v) := by
  unfold Span.without? Span.without
  split
  · next hin =>
    obtain ⟨hstart, hstop⟩ := Span.contains_iff.mp hin
    have hbelow : p.below? v = some (if p.start < v then [⟨p.start, v - 1⟩] else []) := by
      unfold Span.below?
      split
      · rw [int32?_eq (fits_between hp.1 hp.2 (by lia) (by lia))]
        rfl
      · rfl
    have habove : p.above? v = some (if v < p.stop then [⟨v + 1, p.stop⟩] else []) := by
      unfold Span.above?
      split
      · rw [int32?_eq (fits_between hp.1 hp.2 (by lia) (by lia))]
        rfl
      · rfl
    rw [hbelow, habove]
    rfl
  · rfl

theorem erase?_eq (h : s.InWords) (v : Symbol) : s.erase? v = some (s.erase v) := by
  have hspans : ∀ l : List Span, (∀ p ∈ l, p.InWords) →
      l.mapM (·.without? v) = some (l.map (·.without v)) := by
    intro l hl
    induction l with
    | nil => rfl
    | cons p l ih =>
      obtain ⟨hp, hl⟩ := List.forall_mem_cons.mp hl
      rw [List.mapM_cons, Span.without?_eq hp, ih hl]
      rfl
  unfold erase? erase
  rw [hspans s.spans fun _ hp => h.span hp]
  rfl

private theorem fillRest?_eq (h : s.InWords) {lo hi next : Symbol} (hlo : fitsInt32 lo = true)
    (hhi : fitsInt32 hi = true) (hnext : lo ≤ next) :
    s.fillRest? next hi = some (s.insertSpan next hi) := by
  unfold fillRest?
  split
  · next hle =>
    have hfits := fits_between hlo hhi hnext hle
    rw [int32?_eq hfits]
    exact insertSpan?_eq h hfits hhi
  · next hgt =>
    unfold SymbolSet.insertSpan
    rw [if_pos (by lia)]

theorem fillGaps?_eq {lo hi next : Symbol} {l : List Span} (h : s.InWords)
    (hl : ∀ p ∈ l, p.InWords) (hlo : fitsInt32 lo = true) (hhi : fitsInt32 hi = true)
    (hnext : lo ≤ next) : fillGaps? lo hi next s l = some (fillGaps lo hi next s l) := by
  induction l generalizing next s with
  | nil => exact fillRest?_eq h hlo hhi hnext
  | cons p l ih =>
    obtain ⟨hp, hl⟩ := List.forall_mem_cons.mp hl
    rw [fillGaps?, fillGaps]
    split
    · exact ih h hl hnext
    split
    · exact fillRest?_eq h hlo hhi hnext
    rw [int64?_succ hp.2]
    by_cases hgap : next < p.start
    · -- The gap lies between two 32-bit numbers, the start of the range and the span.
      have hfirst : fitsInt32 next = true := fits_between hlo hp.1 hnext (by lia)
      have hlast : fitsInt32 (p.start - 1) = true := fits_between hlo hp.1 (by lia) (by lia)
      rw [if_pos hgap, if_pos hgap, int32?_eq hfirst, int32?_eq hlast]
      simp only [Option.bind_eq_bind, Option.bind_some, insertSpan?_eq h hfirst hlast]
      exact ih (h.insertSpan hfirst hlast) hl (by lia)
    · rw [if_neg hgap, if_neg hgap]
      exact ih h hl (by lia)

theorem complement?_eq (h : s.InWords) {lo hi : Symbol} (hlo : fitsInt32 lo = true)
    (hhi : fitsInt32 hi = true) : s.complement? lo hi = some (s.complement lo hi) :=
  fillGaps?_eq .empty (fun _ hp => h.span hp) hlo hhi (Int.le_refl lo)

/-! ## Counting -/

theorem Span.size?_eq {p : Span} (hp : p.InWords) : p.size? = some p.size := by
  obtain ⟨hstart, hstop⟩ := hp
  rw [fitsInt32_iff] at hstart hstop
  unfold Span.size? Span.size
  split
  · next hempty => rw [Int.toNat_of_nonpos (by lia)]
  · rw [int64?_eq (by lia)]
    simp only [Option.bind_eq_bind, Option.bind_some]
    rw [int64?_eq (by lia)]
    rfl

/-- There are no more members than numbers of 32 bits. -/
theorem InWords.size_le (h : s.InWords) : s.size ≤ 4294967296 := by
  have hnodup : s.toList.Nodup := h.canonical.pairwise_toList.imp Int.ne_of_lt
  calc
    s.size = s.toList.toFinset.card := by rw [List.toFinset_card_of_nodup hnodup, length_toList]
    _ ≤ (Finset.Icc (-2147483648 : Int) 2147483647).card := by
      refine Finset.card_le_card fun v hv => ?_
      exact Finset.mem_Icc.mpr
        (fitsInt32_iff.mp (h.fits v (mem_toList.mp (List.mem_toFinset.mp hv))))
    _ = 4294967296 := by rw [Int.card_Icc]; rfl

/-- **The members can be counted:** no sum on the way exceeds the last one. -/
theorem size?_eq (h : s.InWords) : s.size? = some s.size := by
  have hgen : ∀ (l : List Span) (n : Nat), (∀ p ∈ l, p.InWords) →
      n + l.foldr (fun p k => p.size + k) 0 ≤ maxWord →
      l.foldlM (fun n p => do count64? (n + (← p.size?))) n =
        some (n + l.foldr (fun p k => p.size + k) 0) := by
    intro l
    induction l with
    | nil => exact fun n _ _ => rfl
    | cons p l ih =>
      intro n hl hle
      obtain ⟨hp, hl⟩ := List.forall_mem_cons.mp hl
      rw [List.foldr_cons, ← Nat.add_assoc] at hle ⊢
      rw [List.foldlM_cons, Span.size?_eq hp]
      simp only [Option.bind_eq_bind, Option.bind_some]
      rw [count64?_eq (Nat.le_trans (Nat.le_add_right _ _) hle)]
      exact ih _ hl hle
  have hsum := hgen s.spans 0 (fun _ hp => h.span hp) <| by
    rw [Nat.zero_add]
    exact Nat.le_trans h.size_le (by decide)
  rwa [Nat.zero_add] at hsum

end SymbolSet

end AdaptiveLL
