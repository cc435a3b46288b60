import AdaptiveLL.CharStream
import AdaptiveLL.Limits
import Mathlib.Data.Finset.Card
import Mathlib.Data.List.Nodup
import Mathlib.Order.Bounds.Basic

/-!
# Words in a text

Where a word stands in a text, and how much of it may have been read at a position if it began
somewhere before. Several beginnings may be under way at once, and each character tells which of
them go on.
-/

namespace AdaptiveLL

namespace CharStream

/-- **The text goes on with the word** at a position. -/
def Continues (text : CharStream) (p : Nat) (w : String) : Prop :=
  w.toList <+: text.chars.toList.drop p

instance (text : CharStream) (p : Nat) (w : String) : Decidable (text.Continues p w) :=
  inferInstanceAs (Decidable (_ <+: _))

/-- **How much of the word may have been read** before a position, if it began at `start` or later:
numbers of characters with which it begins, less than all of them, that stand right before it. -/
def begun (text : CharStream) (start p : Nat) (w : String) : Finset Nat :=
  (Finset.range w.length).filter fun i =>
    start + i ≤ p ∧ (text.chars.extract (p - i) p).toList = w.toList.take i

/-- The first characters of the word stand at a position. -/
def Agrees (text : CharStream) (cs : List Char) (q i : Nat) : Prop :=
  ∀ j < i, text.chars[q + j]? = cs[j]?

variable {text : CharStream} {start p q i : Nat} {w : String} {cs : List Char}

theorem agrees_zero : text.Agrees cs q 0 := nofun

theorem agrees_succ : text.Agrees cs q (i + 1) ↔
    text.Agrees cs q i ∧ text.chars[q + i]? = cs[i]? := by
  constructor
  · exact fun h => ⟨fun j hj => h j (Nat.lt_succ_of_lt hj), h i (Nat.lt_succ_self i)⟩
  · rintro ⟨h, hi⟩ j hj
    rcases Nat.lt_succ_iff_lt_or_eq.mp hj with hj | rfl
    · exact h j hj
    · exact hi

theorem continues_iff : text.Continues q w ↔ text.Agrees w.toList q w.length := by
  unfold Continues Agrees
  rw [List.prefix_iff_getElem?, ← String.length_toList]
  refine forall₂_congr fun j hj => ?_
  rw [List.getElem?_drop, Array.getElem?_toList, List.getElem?_eq_getElem hj]

/-- Only inside the text do words stand. -/
theorem Continues.le (h : text.Continues q w) (hw : 0 < w.length) : q + w.length ≤ text.size := by
  have hlast := continues_iff.mp h (w.length - 1) (by omega)
  rw [List.getElem?_eq_getElem (by rw [String.length_toList]; omega)] at hlast
  have := (Array.getElem?_eq_some_iff.mp hlast).1
  change q + w.length ≤ text.chars.size
  omega

theorem symbolAt_of_char {a : Char} (h : text.chars[p]? = some a) : text.symbolAt p = a.toNat := by
  rw [symbolAt, h]
  rfl

theorem mem_begun (hp : p ≤ text.size) : i ∈ text.begun start p w ↔
    i < w.length ∧ start + i ≤ p ∧ text.Agrees w.toList (p - i) i := by
  unfold begun
  rw [Finset.mem_filter, Finset.mem_range]
  refine and_congr_right fun hi => and_congr_right fun hle => ?_
  have hsize : min p text.chars.size - (p - i) = i := by
    rw [Nat.min_eq_left (show p ≤ text.chars.size from hp)]
    omega
  have hplace : ∀ j, (text.chars.extract (p - i) p).toList[j]? =
      if j < i then text.chars[p - i + j]? else none := fun j => by
    rw [Array.getElem?_toList, Array.getElem?_extract, hsize]
  constructor
  · intro heq j hj
    have := hplace j
    rwa [heq, if_pos hj, List.getElem?_take_of_lt hj, eq_comm] at this
  · intro hagrees
    refine List.ext_getElem? fun j => ?_
    rw [hplace, List.getElem?_take]
    exact if_ctx_congr Iff.rfl (hagrees j) fun _ => rfl

/-- **The word stands there first,** of all positions from `start` on. -/
def ClosesAt (text : CharStream) (start : Nat) (w : String) (q : Nat) : Prop :=
  IsLeast {q | start ≤ q ∧ text.Continues q w} q

/-- **The word does not stand there:** nowhere from `start` on has it come to an end before a
position. -/
def Lacks (text : CharStream) (start p : Nat) (w : String) : Prop :=
  ∀ q, start ≤ q → q + w.length ≤ p → ¬text.Continues q w

/-- **The beginnings of a word that are under way,** the oldest first, by how much of the word was
read. -/
structure Underway (text : CharStream) (start p : Nat) (w : String) (is : List Nat) : Prop where
  sorted : is.Pairwise (· > ·)
  mem_iff : ∀ i, i ∈ is ↔ i < w.length ∧ start + i ≤ p ∧ text.Agrees w.toList (p - i) i

/-- One more character: the beginnings that go on with it, and a new one. -/
def further (cs : List Char) (is : List Nat) (a : Char) : List Nat :=
  (is.filter fun i => cs[i]? = some a).map (· + 1) ++ [0]

/-- **Too many beginnings of the word are under way at once,** before it has come to an end: a set
has no room for them and the strand of the loop. -/
def Throngs (text : CharStream) (start : Nat) (w : String) : Prop :=
  ∃ p, start ≤ p ∧ p ≤ text.size ∧ text.Lacks start p w ∧
    Limits.configsPerSet ≤ (text.begun start p w).card

/-- There are no more beginnings than characters of the word. -/
theorem Throngs.le_length (h : text.Throngs start w) : Limits.configsPerSet ≤ w.length := by
  obtain ⟨p, -, -, -, hcard⟩ := h
  refine hcard.trans ((Finset.card_le_card (Finset.filter_subset _ _)).trans ?_)
  rw [Finset.card_range]

namespace Underway

variable {is : List Nat} {a : Char}

theorem nodup (h : text.Underway start p w is) : is.Nodup := h.sorted.imp Nat.ne_of_gt

theorem card_eq (h : text.Underway start p w is) (hp : p ≤ text.size) :
    is.length = (text.begun start p w).card := by
  rw [← List.toFinset_card_of_nodup h.nodup]
  refine congrArg Finset.card (Finset.ext fun i => ?_)
  rw [List.mem_toFinset, h.mem_iff, mem_begun hp]

/-- At first there is a single beginning. -/
theorem begins (hw : 0 < w.length) : text.Underway start start w [0] := by
  refine ⟨List.pairwise_singleton _ _, fun i => ?_⟩
  rw [List.mem_singleton]
  constructor
  · rintro rfl
    exact ⟨hw, Nat.le_refl _, agrees_zero⟩
  · rintro ⟨-, hle, -⟩
    omega

/-- **A beginning comes to an end** with a character if the word has stood there then. -/
theorem closes_iff (h : text.Underway start p w is) (hw : 0 < w.length)
    (hchar : text.chars[p]? = some a) : (∃ i ∈ is, i + 1 = w.length ∧ w.toList[i]? = some a) ↔
      ∃ q, start ≤ q ∧ q + w.length = p + 1 ∧ text.Continues q w := by
  constructor
  · rintro ⟨i, hi, hlast, hnext⟩
    obtain ⟨-, hle, hagrees⟩ := (h.mem_iff i).mp hi
    refine ⟨p - i, by omega, by omega, continues_iff.mpr ?_⟩
    rw [← hlast]
    exact agrees_succ.mpr ⟨hagrees, by rw [Nat.sub_add_cancel (by omega), hchar, hnext]⟩
  · rintro ⟨q, hq, hend, hcont⟩
    obtain ⟨i, hi⟩ := Nat.exists_eq_add_of_lt hw
    rw [continues_iff, hi, Nat.zero_add, agrees_succ] at hcont
    refine ⟨i, (h.mem_iff i).mpr ⟨by omega, by omega, ?_⟩, by omega, ?_⟩
    · rw [show p - i = q by omega]
      exact hcont.1
    · rw [← hcont.2, show q + i = p by omega, hchar]

/-- **One more character,** if no beginning comes to an end with it. -/
theorem step (h : text.Underway start p w is) (hw : 0 < w.length) (hstart : start ≤ p)
    (hchar : text.chars[p]? = some a)
    (hopen : ¬∃ i ∈ is, i + 1 = w.length ∧ w.toList[i]? = some a) :
    text.Underway start (p + 1) w (further w.toList is a) := by
  unfold further
  constructor
  · refine List.pairwise_append.mpr ⟨?_, List.pairwise_singleton _ _, ?_⟩
    · exact List.pairwise_map.mpr ((h.sorted.filter _).imp Nat.succ_lt_succ)
    · intro i hi j hj
      obtain ⟨k, -, rfl⟩ := List.mem_map.mp hi
      rw [List.mem_singleton.mp hj]
      exact Nat.succ_pos k
  · intro i
    rw [List.mem_append, List.mem_singleton, List.mem_map]
    cases i with
    | zero => simpa [agrees_zero, hw] using Nat.le_succ_of_le hstart
    | succ i =>
      have hsub : p + 1 - (i + 1) = p - i := by omega
      simp only [List.mem_filter, decide_eq_true_eq, Nat.add_right_cancel_iff, exists_eq_right,
        Nat.succ_ne_zero, or_false, hsub, agrees_succ, h.mem_iff]
      constructor
      · rintro ⟨⟨hi, hle, hagrees⟩, hnext⟩
        have hlast : i + 1 ≠ w.length := fun hlast =>
          hopen ⟨i, (h.mem_iff i).mpr ⟨hi, hle, hagrees⟩, hlast, hnext⟩
        exact ⟨by omega, by omega, hagrees, by rw [Nat.sub_add_cancel (by omega), hchar, hnext]⟩
      · rintro ⟨hi, hle, hagrees, hnext⟩
        rw [Nat.sub_add_cancel (by omega), hchar] at hnext
        exact ⟨⟨by omega, by omega, hagrees⟩, hnext.symm⟩

end Underway

end CharStream

end AdaptiveLL
