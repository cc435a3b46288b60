import AdaptiveLL.Json.Decode
import Mathlib.Data.List.Nodup

/-!
# Decoding what was encoded

Decoders read the members of a structure by their names. Where the names are written once each,
every name finds the member that was written under it, and what has its default may be left out.
-/

namespace AdaptiveLL.Json

/-! ## Members -/

/-- The names of members. -/
def memberNames (ms : List (String × Value)) : List String := ms.map Prod.fst

/-- Among names that are written once each, a name finds its member. -/
theorem uniqueMember_eq {ms : List (String × Value)} (h : (memberNames ms).Nodup) (name : String) :
    uniqueMember ms name = some (ms.lookup name) := by
  induction ms with
  | nil => rfl
  | cons m ms ih =>
    obtain ⟨hm, hms⟩ := List.nodup_cons.mp h
    have hrest := ih hms
    by_cases heq : m.1 = name
    · have hnone : ms.filter (·.1 == name) = [] := by
        rw [List.filter_eq_nil_iff]
        intro m' hm' hname
        exact hm (List.mem_map.mpr ⟨m', hm', (beq_iff_eq.mp hname).trans heq.symm⟩)
      obtain ⟨name', v⟩ := m
      obtain rfl : name' = name := heq
      simp [uniqueMember, hnone]
    · have hne : (name == m.1) = false := beq_eq_false_iff_ne.mpr (Ne.symm heq)
      have hne' : (m.1 == name) = false := beq_eq_false_iff_ne.mpr heq
      obtain ⟨name', v⟩ := m
      rw [List.lookup_cons, hne, ← hrest]
      unfold uniqueMember
      rw [List.filter_cons, if_neg (by simpa using hne')]

/-- **The members of a structure are found by their names.** -/
theorem structureMembers_record {ms : List (String × Value)} (h : (memberNames ms).Nodup)
    (names : List String) :
    structureMembers names (.record ms) = some (names.map fun name => ms.lookup name) := by
  unfold structureMembers
  induction names with
  | nil => rfl
  | cons name names ih => simp [uniqueMember_eq h, ih]

/-- Members that are asked for in the order they are written in are all there. -/
theorem structureMembers_inOrder {ms : List (String × Value)} {names : List String}
    (hnames : memberNames ms = names) (h : names.Nodup) :
    structureMembers names (.record ms) = some (ms.map fun m => some m.2) := by
  subst hnames
  rw [structureMembers_record h, memberNames, List.map_map]
  congr 1
  refine List.map_congr_left fun m hm => ?_
  induction ms with
  | nil => cases hm
  | cons m' ms ih =>
    obtain ⟨hfirst, hrest⟩ := List.nodup_cons.mp h
    rcases List.mem_cons.mp hm with rfl | hm
    · exact List.lookup_cons_self
    · have hne : (m.1 == m'.1) = false :=
        beq_eq_false_iff_ne.mpr fun heq => hfirst (List.mem_map.mpr ⟨m, hm, heq⟩)
      have := ih hrest hm
      rw [Function.comp_apply] at this ⊢
      rw [List.lookup_cons, hne, this]

/-- **The kind of a tagged structure is taken off its members.** -/
theorem taggedMembers_record {kind : String} {ms : List (String × Value)}
    (h : (memberNames (("kind", .text kind) :: ms)).Nodup) :
    taggedMembers (.record (("kind", .text kind) :: ms)) = some (kind, .record ms) := by
  have hothers : ms.filter (·.1 != "kind") = ms := by
    rw [List.filter_eq_self]
    intro m hm
    rw [bne_iff_ne]
    exact fun heq => (List.nodup_cons.mp h).1 (List.mem_map.mpr ⟨m, hm, heq⟩)
  have hkind := uniqueMember_eq h "kind"
  rw [List.lookup_cons_self] at hkind
  simp [taggedMembers, hkind, hothers]

@[simp] theorem required_some {α : Type} (decode : Decoder α) (v : Value) :
    required decode (some v) = decode v := rfl

@[simp] theorem defaulting_some {α : Type} (fallback : α) (decode : Decoder α) (v : Value) :
    defaulting fallback decode (some v) = decode v := rfl

@[simp] theorem defaulting_none {α : Type} (fallback : α) (decode : Decoder α) :
    defaulting fallback decode none = some fallback := rfl

/-! ## Parts -/

namespace Decoder

@[simp] theorem nat_nat (n : Nat) : nat (.nat n) = some n := by
  change (if 0 ≤ (n : Int) then some (n : Int).toNat else none) = some n
  rw [if_pos (Int.natCast_nonneg n), Int.toNat_natCast]

@[simp] theorem bool_bool (b : Bool) : bool (.bool b) = some b := rfl

@[simp] theorem text_text (s : String) : text (.text s) = some s := rfl

@[simp] theorem name_text {α : Type} (lookup : String → Option α) (s : String) :
    name lookup (.text s) = lookup s := rfl

@[simp] theorem nullable_nat (n : Nat) : nullable nat (.nat n) = some (some n) := by
  change (nat (.nat n)).map some = _
  rw [nat_nat]
  rfl

theorem int32_int {n : Int} (h : Numeral.fitsInt32 n = true) : int32 (.int n) = some n := if_pos h

/-- A list is decoded item by item. -/
theorem list_listOf {α : Type} {encode : α → Value} {decode : Decoder α} {l : List α}
    (h : ∀ a ∈ l, decode (encode a) = some a) : list decode (.listOf encode l) = some l := by
  change (l.map encode).mapM decode = some l
  induction l with
  | nil => rfl
  | cons a l ih =>
    have hl := ih fun b hb => h b (List.mem_cons_of_mem _ hb)
    simp [h a List.mem_cons_self, hl]

end Decoder

/-! ## Heights -/

namespace Value

/-- Items that are no higher than a bound. -/
theorem heightOfItems_le {items : List Value} {n : Nat} (h : ∀ v ∈ items, v.height ≤ n) :
    heightOfItems items ≤ n := by
  induction items with
  | nil => exact Nat.zero_le n
  | cons v items ih =>
    rw [heightOfItems]
    exact Nat.max_le.mpr ⟨h v List.mem_cons_self, ih fun v hv => h v (List.mem_cons_of_mem _ hv)⟩

theorem height_listOf_le {α : Type} {encode : α → Value} {l : List α} {n : Nat}
    (h : ∀ a ∈ l, (encode a).height ≤ n) : (listOf encode l).height ≤ n + 1 := by
  refine Nat.succ_le_succ (heightOfItems_le fun v hv => ?_)
  obtain ⟨a, ha, rfl⟩ := List.mem_map.mp hv
  exact h a ha

end Value

end AdaptiveLL.Json
