/-!
# Sets of alternatives

Alternatives of a decision are numbered from one. A set of them is kept as an ascending list, so
two sets with the same members are the same value and the least member stands first.
-/

namespace AdaptiveLL

/-- Stands where no alternative is meant: alternatives are numbered from one. -/
def noAlternative : Nat := 0

namespace AltSet

/-- Puts a number into an ascending list, unless it is there already. -/
def place (a : Nat) : List Nat → List Nat
  | [] => [a]
  | b :: rest => if a < b then a :: b :: rest else if a = b then b :: rest else b :: place a rest

theorem mem_place {a x : Nat} {l : List Nat} : x ∈ place a l ↔ x = a ∨ x ∈ l := by
  induction l with
  | nil => simp [place]
  | cons b rest ih =>
    unfold place
    split
    · simp
    · split
      · simp_all
      · simp only [List.mem_cons, ih]
        grind

theorem pairwise_place {a : Nat} {l : List Nat} (h : l.Pairwise (· < ·)) :
    (place a l).Pairwise (· < ·) := by
  induction l with
  | nil => simp [place]
  | cons b rest ih =>
    obtain ⟨hb, hrest⟩ := List.pairwise_cons.1 h
    unfold place
    split
    · next hab =>
      refine List.pairwise_cons.2 ⟨fun x hx => ?_, h⟩
      rcases List.mem_cons.1 hx with rfl | hx
      · exact hab
      · exact Nat.lt_trans hab (hb x hx)
    · split
      · exact h
      · refine List.pairwise_cons.2 ⟨fun x hx => ?_, ih hrest⟩
        rcases mem_place.1 hx with rfl | hx
        · omega
        · exact hb x hx

end AltSet

/-- A set of alternatives: its members in ascending order. -/
structure AltSet where
  toList : List Nat
  ascending : toList.Pairwise (· < ·)
deriving DecidableEq

namespace AltSet

/-- The set without members. -/
def empty : AltSet := ⟨[], .nil⟩

instance : Inhabited AltSet := ⟨empty⟩

/-- The set with one more member. -/
def insert (s : AltSet) (a : Nat) : AltSet := ⟨place a s.toList, pairwise_place s.ascending⟩

/-- The set of the numbers of a list. -/
def ofList (l : List Nat) : AltSet := l.foldl insert empty

/-- The members of either set. -/
def union (s t : AltSet) : AltSet := t.toList.foldl insert s

/-- The number of members. -/
def size (s : AltSet) : Nat := s.toList.length

/-- Whether the number is a member. -/
def contains (s : AltSet) (a : Nat) : Bool := s.toList.contains a

/-- The least member. -/
def min? (s : AltSet) : Option Nat := s.toList.head?

/-- The least member, and `noAlternative` for the empty set. -/
def least (s : AltSet) : Nat := s.min?.getD noAlternative

/-- The members between braces. -/
def render (s : AltSet) : String :=
  "\x7b" ++ ", ".intercalate (s.toList.map toString) ++ "\x7d"

instance : ToString AltSet := ⟨render⟩

/-- Sets with the same members are equal. -/
theorem ext_toList {s t : AltSet} (h : s.toList = t.toList) : s = t := by
  cases s; cases t; simp_all

@[simp] theorem toList_insert (s : AltSet) (a : Nat) : (s.insert a).toList = place a s.toList := rfl

end AltSet

end AdaptiveLL
