import AdaptiveLL.Json.Reader
import AdaptiveLL.Json.Writer
import Mathlib.Data.Char
import Mathlib.Data.List.Forall2
import Mathlib.Data.List.TakeDrop

/-!
# What is written can be read

Both layouts spell a value with blanks between its parts. `Spells` says what a spelling is, whatever
the blanks; the reader takes every spelling for the value it spells, and both layouts are spellings.
So a document that was written is read back as it was, if its numbers are integers of 64 bits.
-/

namespace AdaptiveLL.Json

/-! ## Blanks -/

/-- Nothing but blanks. -/
def Blanks (cs : List Char) : Prop := ∀ c ∈ cs, isBlank c = true

theorem blanks_nil : Blanks [] := nofun

theorem skipBlanks_append {bs : List Char} (h : Blanks bs) (cs : List Char) :
    skipBlanks (bs ++ cs) = skipBlanks cs := by
  rw [skipBlanks, skipBlanks, List.dropWhile_append_of_pos h]

theorem skipBlanks_cons {c : Char} (h : isBlank c = false) (cs : List Char) :
    skipBlanks (c :: cs) = c :: cs := by
  rw [skipBlanks, List.dropWhile_cons, h]
  rfl

section Leading

variable {bs : List Char} (h : Blanks bs) (fuel : Nat) (cs : List Char)

include h

/-- A value may have blanks before it. -/
theorem readValue_blanks : readValue fuel (bs ++ cs) = readValue fuel cs := by
  cases fuel with
  | zero => rfl
  | succ fuel =>
    unfold readValue
    rw [skipBlanks_append h]

theorem readItems_blanks : readItems fuel (bs ++ cs) = readItems fuel cs := by
  cases fuel with
  | zero => rfl
  | succ fuel => rw [readItems, readItems, readValue_blanks h]

theorem readMembers_blanks : readMembers fuel (bs ++ cs) = readMembers fuel cs := by
  cases fuel with
  | zero => rfl
  | succ fuel => rw [readMembers, readMembers, skipBlanks_append h]

end Leading

/-! ## Numbers -/

/-- Nothing here goes on with a number. -/
def Closes (cs : List Char) : Prop :=
  ∀ c ∈ cs.head?, c.isDigit = false ∧ c ≠ '.' ∧ c ≠ 'e' ∧ c ≠ 'E'

theorem closes_nil : Closes [] := nofun

theorem closes_cons {c : Char} (h : c.isDigit = false ∧ c ≠ '.' ∧ c ≠ 'e' ∧ c ≠ 'E')
    (cs : List Char) : Closes (c :: cs) := by
  intro d hd
  obtain rfl := Option.some.inj hd
  exact h

private theorem closes_of_isBlank {c : Char} (h : isBlank c = true) (cs : List Char) :
    Closes (c :: cs) := by
  simp only [isBlank, Bool.or_eq_true, decide_eq_true_eq] at h
  obtain ((rfl | rfl) | rfl) | rfl := h <;> exact closes_cons (by decide) cs

theorem closes_append {bs : List Char} (h : Blanks bs) {cs : List Char} (hcs : Closes cs) :
    Closes (bs ++ cs) := by
  cases bs with
  | nil => exact hcs
  | cons b bs => exact closes_of_isBlank (h b List.mem_cons_self) _

/-- Digits as a number is spelt with: at least one, and no zero in front of others. -/
structure Whole (ds : List Char) : Prop where
  digits : ∀ d ∈ ds, d.isDigit = true
  ne_nil : ds ≠ []
  leading : ∀ d rest, ds ≠ '0' :: d :: rest

private theorem head_toDigits {n : Nat} (hn : 0 < n) : (Nat.toDigits 10 n).head? ≠ some '0' := by
  induction n using Nat.strong_induction_on with
  | _ n ih =>
    by_cases hlt : n < 10
    · have hdigit : ∀ m < 10, 0 < m → m.digitChar ≠ '0' := by decide
      rw [Nat.toDigits_of_lt_base hlt]
      exact fun h => hdigit n hlt hn (Option.some.inj h)
    · rw [Nat.toDigits_of_base_le (by omega) (by omega),
        List.head?_append_of_ne_nil _ Nat.toDigits_ne_nil]
      exact ih (n / 10) (by omega) (by omega)

theorem whole_toDigits (n : Nat) : Whole (Nat.toDigits 10 n) := by
  refine ⟨fun d => Nat.isDigit_of_mem_toDigits (by omega) (by omega), Nat.toDigits_ne_nil, ?_⟩
  intro d rest h
  cases n with
  | zero => cases h
  | succ n => exact head_toDigits n.succ_pos (by rw [h]; rfl)

theorem digitsValue_toDigits (n : Nat) : digitsValue (Nat.toDigits 10 n) = n := by
  have h := Nat.ofDigitChars_toDigits (b := 10) (n := n) (by omega) (by omega)
  rwa [Nat.ofDigitChars_eq_foldl] at h

private theorem spanDigits_append {ds rest : List Char} (hds : ∀ d ∈ ds, d.isDigit = true)
    (hrest : Closes rest) : spanDigits (ds ++ rest) = (ds, rest) := by
  have hend : rest.takeWhile Char.isDigit = [] ∧ rest.dropWhile Char.isDigit = rest := by
    cases rest with
    | nil => exact ⟨rfl, rfl⟩
    | cons c rest => simp [(hrest c rfl).1]
  rw [spanDigits, List.span_eq_takeWhile_dropWhile, List.takeWhile_append_of_pos hds,
    List.dropWhile_append_of_pos hds, hend.1, hend.2, List.append_nil]

private theorem readTail {rest : List Char} (h : Closes rest) :
    readFraction rest = some ([], rest) ∧ readExponent rest = some ([], rest) := by
  cases rest with
  | nil => exact ⟨rfl, rfl⟩
  | cons c rest =>
    obtain ⟨-, hpoint, he, hE⟩ := h c rfl
    constructor
    · unfold readFraction
      split
      · next heq => exact absurd (List.cons.inj heq).1 hpoint
      · rfl
    · exact if_neg (not_or.mpr ⟨he, hE⟩)

/-- What follows a sign is read as digits. -/
private theorem readWhole {ds rest : List Char} (hds : Whole ds) (hrest : Closes rest)
    (negative : Bool) :
    (match spanDigits (ds ++ rest) with
      | ([], _) => none
      | ('0' :: _ :: _, _) => none
      | (whole, cs) => do
        let (fraction, cs) ← readFraction cs
        let (exponent, cs) ← readExponent cs
        pure (numberOf negative whole (fraction ++ exponent), cs)) =
      some (numberOf negative ds [], rest) := by
  obtain ⟨hfraction, hexponent⟩ := readTail hrest
  rw [spanDigits_append hds.digits hrest]
  split
  · next heq => exact absurd (Prod.mk.inj heq).1 hds.ne_nil
  · next heq => exact absurd (Prod.mk.inj heq).1 (hds.leading _ _)
  · next whole cs _ _ heq =>
    obtain ⟨rfl, rfl⟩ := Prod.mk.inj heq
    simp [hfraction, hexponent]

/-- **Digits are read as the number they denote,** with a sign or without. -/
theorem readNumber_digits {ds rest : List Char} (hds : Whole ds) (hrest : Closes rest)
    (negative : Bool) :
    readNumber ((if negative then ['-'] else []) ++ ds ++ rest) =
      some (numberOf negative ds [], rest) := by
  cases negative with
  | true => exact readWhole hds hrest true
  | false =>
    -- The first digit is no sign.
    obtain ⟨d, ds', rfl⟩ := List.exists_cons_of_ne_nil hds.ne_nil
    have hd : d ≠ '-' := by
      rintro rfl
      exact absurd (hds.digits '-' List.mem_cons_self) (by decide)
    unfold readNumber
    split
    next negative' cs heq =>
    split at heq
    · next heq' => exact absurd (List.cons.inj heq').1 hd
    · obtain ⟨rfl, rfl⟩ := Prod.mk.inj heq
      exact readWhole hds hrest false

/-- Whether 64 bits hold the integer, with or without a sign. -/
def isWord (n : Int) : Bool :=
  Numeral.fitsInt64 n || (decide (0 ≤ n) && decide (n ≤ Numeral.maxWord))

/-- The sign and the digits of an integer. -/
theorem toList_toString_int (n : Int) : (toString n).toList =
    (if n < 0 then ['-'] else []) ++ Nat.toDigits 10 n.natAbs := by
  cases n with
  | ofNat m =>
    rw [if_neg (by simp)]
    exact Nat.toList_repr
  | negSucc m =>
    rw [if_pos (Int.negSucc_lt_zero m)]
    change ("-" ++ (m + 1).repr).toList = _
    rw [String.toList_append, Nat.toList_repr]
    rfl

/-- **Integers of 64 bits are read as they are written.** -/
theorem readNumber_int {n : Int} (hn : isWord n = true) {rest : List Char} (hrest : Closes rest) :
    readNumber ((toString n).toList ++ rest) = some (.int n, rest) := by
  have hread := readNumber_digits (whole_toDigits n.natAbs) hrest (decide (n < 0))
  simp only [decide_eq_true_eq] at hread
  rw [toList_toString_int, hread]
  unfold numberOf
  rw [digitsValue_toDigits]
  simp only [isWord, Numeral.fitsInt64, Bool.or_eq_true, Bool.and_eq_true,
    decide_eq_true_eq] at hn
  have hmaxWord : (Numeral.maxWord : Int) = 0xffffffffffffffff := rfl
  by_cases hneg : n < 0
  · have habs : -(n.natAbs : Int) = n := by omega
    have hfits : Numeral.fitsInt64 n = true := by
      simp only [Numeral.fitsInt64, Bool.and_eq_true, decide_eq_true_eq]
      omega
    have hne : n.natAbs ≠ 0 := by omega
    simp only [List.isEmpty_nil, Bool.not_true, Bool.false_eq_true, if_false, hneg, decide_true,
      if_true, hne, decide_false, habs, hfits, Bool.or_self]
  · have habs : (n.natAbs : Int) = n := by omega
    have hle : n.natAbs ≤ Numeral.maxWord := by omega
    simp only [List.isEmpty_nil, Bool.not_true, Bool.false_eq_true, if_false, hneg, decide_false,
      hle, if_true, habs]

/-! ## Strings -/

private theorem hexQuad?_digits : ∀ n < 32,
    hexQuad? '0' '0' (hexDigit (n / 16)) (hexDigit (n % 16)) = some n := by decide

/-- An escaped character is read as the unit of that character. -/
private theorem readUnits_escapeChar (c : Char) (cs : List Char) :
    readUnits (escapeChar c ++ cs) = (readUnits cs).map fun p => (c.toNat :: p.1, p.2) := by
  have hshort : ∀ {e : Char} {n : Nat}, e ≠ 'u' → shortEscape? e = some n →
      readUnits ('\\' :: e :: cs) = (readUnits cs).map fun p => (n :: p.1, p.2) := by
    intro e n hu he
    rw [readUnits.eq_def]
    split
    · next heq => cases heq
    · next heq => exact absurd (List.cons.inj (List.cons.inj heq).2).1 hu
    · next heq =>
      obtain ⟨rfl, rfl⟩ := List.cons.inj (List.cons.inj heq).2
      rw [he]
      cases readUnits cs <;> rfl
    · next hplain heq =>
      obtain ⟨rfl, rfl⟩ := List.cons.inj heq
      exact (hplain e cs rfl rfl).elim
    · next heq => cases heq
  -- Seven characters have a short escape, the other control characters one of four digits.
  unfold escapeChar
  split
  · next h =>
    subst h
    exact hshort (by decide) rfl
  split
  · next h =>
    subst h
    exact hshort (by decide) rfl
  split
  · next h =>
    subst h
    exact hshort (by decide) rfl
  split
  · next h =>
    subst h
    exact hshort (by decide) rfl
  split
  · next h =>
    subst h
    exact hshort (by decide) rfl
  split
  · next h => exact h ▸ hshort (by decide) rfl
  split
  · next h => exact h ▸ hshort (by decide) rfl
  split
  · next h =>
    have hquad := hexQuad?_digits c.toNat h
    simp only [List.cons_append, List.nil_append]
    rw [readUnits, hquad]
    cases readUnits cs <;> rfl
  · next hquote hslash _ _ _ _ _ h =>
    rw [List.singleton_append, readUnits.eq_def]
    split
    · next heq => exact absurd (List.cons.inj heq).1 hquote
    · next heq => exact absurd (List.cons.inj heq).1 hslash
    · next heq => exact absurd (List.cons.inj heq).1 hslash
    · next heq =>
      obtain ⟨rfl, rfl⟩ := List.cons.inj heq
      rw [if_neg h]
      cases readUnits cs <;> rfl
    · next heq => cases heq

private theorem readUnits_escaped (cs rest : List Char) :
    readUnits (cs.flatMap escapeChar ++ '"' :: rest) = some (cs.map Char.toNat, rest) := by
  induction cs with
  | nil => rfl
  | cons c cs ih =>
    rw [List.flatMap_cons, List.append_assoc, readUnits_escapeChar, ih]
    rfl

/-- Characters are no halves of others. -/
private theorem joinHalves_toNat (cs : List Char) : joinHalves (cs.map Char.toNat) = some cs := by
  induction cs with
  | nil => rfl
  | cons c cs ih =>
    have hhigh : isHighHalf c.toNat = false := by
      have hvalid := c.valid
      simp only [UInt32.isValidChar, Nat.isValidChar] at hvalid
      simp only [isHighHalf, Bool.and_eq_false_iff, decide_eq_false_iff_not]
      have : c.toNat = c.val.toNat := rfl
      omega
    have hlow : isLowHalf c.toNat = false := by
      have hvalid := c.valid
      simp only [UInt32.isValidChar, Nat.isValidChar] at hvalid
      simp only [isLowHalf, Bool.and_eq_false_iff, decide_eq_false_iff_not]
      have : c.toNat = c.val.toNat := rfl
      omega
    rw [List.map_cons, joinHalves.eq_def]
    simp [hhigh, hlow, ih]

/-- **Every string is read as it is written.** -/
theorem readString_quote (s : String) (rest : List Char) :
    ∃ cs, (quote s).toList = '"' :: cs ∧ readString (cs ++ rest) = some (s, rest) := by
  refine ⟨s.toList.flatMap escapeChar ++ ['"'], ?_, ?_⟩
  · rw [quote, String.toList_ofList]
    rfl
  · rw [readString, List.append_assoc, List.singleton_append, readUnits_escaped]
    simp [joinHalves_toNat]

/-! ## Spellings -/

mutual

/-- **The characters spell the value,** with whatever blanks there are between its parts. -/
inductive Spells : Value → List Char → Prop where
  | null : Spells .null "null".toList
  | yes : Spells (.bool true) "true".toList
  | no : Spells (.bool false) "false".toList
  | int {n : Int} (hn : isWord n = true) : Spells (.int n) (toString n).toList
  | text (s : String) : Spells (.text s) (quote s).toList
  | emptyList : Spells (.list []) ['[', ']']
  | list {items : List Value} {bs cs : List Char} (hbs : Blanks bs) (h : SpellsItems items cs) :
      Spells (.list items) ('[' :: bs ++ cs)
  | emptyRecord : Spells (.record []) ['{', '}']
  | record {ms : List (String × Value)} {bs cs : List Char} (hbs : Blanks bs)
      (h : SpellsMembers ms cs) : Spells (.record ms) ('{' :: bs ++ cs)

/-- The characters spell items and close their list. -/
inductive SpellsItems : List Value → List Char → Prop where
  | last {v : Value} {cs bs : List Char} (h : Spells v cs) (hbs : Blanks bs) :
      SpellsItems [v] (cs ++ bs ++ [']'])
  | more {v : Value} {items : List Value} {cs bs rest : List Char} (h : Spells v cs)
      (hbs : Blanks bs) (hrest : SpellsItems items rest) :
      SpellsItems (v :: items) (cs ++ ',' :: bs ++ rest)

/-- The characters spell members and close their object. -/
inductive SpellsMembers : List (String × Value) → List Char → Prop where
  | last (name : String) {v : Value} {bs cs bs' : List Char} (hbs : Blanks bs) (h : Spells v cs)
      (hbs' : Blanks bs') :
      SpellsMembers [(name, v)] ((quote name).toList ++ ':' :: bs ++ cs ++ bs' ++ ['}'])
  | more (name : String) {v : Value} {ms : List (String × Value)} {bs cs bs' rest : List Char}
      (hbs : Blanks bs) (h : Spells v cs) (hbs' : Blanks bs') (hrest : SpellsMembers ms rest) :
      SpellsMembers ((name, v) :: ms) ((quote name).toList ++ ':' :: bs ++ cs ++ ',' :: bs' ++ rest)

end

/-- How a spelling begins. -/
structure Opens (c : Char) : Prop where
  solid : isBlank c = false
  ne_bracket : c ≠ ']'

private theorem Opens.of_isDigit {c : Char} (h : c.isDigit = true) : Opens c := by
  have hlow : 48 ≤ c.toNat := by
    simp only [Char.isDigit, Bool.and_eq_true, decide_eq_true_eq] at h
    exact h.1
  have hne : ∀ d : Char, d.toNat < 48 ∨ d.isDigit = false → c ≠ d := by
    rintro d hd rfl
    rcases hd with hd | hd
    · omega
    · rw [h] at hd
      cases hd
  refine ⟨?_, hne ']' (.inr rfl)⟩
  simp only [isBlank, Bool.or_eq_false_iff, decide_eq_false_iff_not]
  exact ⟨⟨⟨hne ' ' (.inl (by decide)), hne '\n' (.inl (by decide))⟩,
    hne '\t' (.inl (by decide))⟩, hne '\r' (.inl (by decide))⟩

/-- A spelling begins with a character of its own. -/
theorem Spells.opens {v : Value} {cs : List Char} (h : Spells v cs) :
    ∃ c rest, cs = c :: rest ∧ Opens c := by
  cases h with
  | null => exact ⟨_, _, rfl, by decide, by decide⟩
  | yes => exact ⟨_, _, rfl, by decide, by decide⟩
  | no => exact ⟨_, _, rfl, by decide, by decide⟩
  | @int n hn =>
    rw [toList_toString_int]
    split
    · exact ⟨_, _, rfl, by decide, by decide⟩
    · obtain ⟨d, ds, hds⟩ := List.exists_cons_of_ne_nil (whole_toDigits n.natAbs).ne_nil
      refine ⟨d, ds, hds, .of_isDigit ((whole_toDigits n.natAbs).digits d ?_)⟩
      rw [hds]
      exact List.mem_cons_self
  | text s =>
    obtain ⟨cs, hcs, -⟩ := readString_quote s []
    exact ⟨_, _, hcs, by decide, by decide⟩
  | emptyList => exact ⟨_, _, rfl, by decide, by decide⟩
  | list => exact ⟨_, _, rfl, by decide, by decide⟩
  | emptyRecord => exact ⟨_, _, rfl, by decide, by decide⟩
  | record => exact ⟨_, _, rfl, by decide, by decide⟩

theorem SpellsItems.opens {items : List Value} {cs : List Char} (h : SpellsItems items cs) :
    ∃ c rest, cs = c :: rest ∧ Opens c := by
  cases h with
  | last h =>
    obtain ⟨c, rest, rfl, hc⟩ := h.opens
    exact ⟨c, _, rfl, hc⟩
  | more h =>
    obtain ⟨c, rest, rfl, hc⟩ := h.opens
    exact ⟨c, _, rfl, hc⟩

theorem SpellsMembers.opens {ms : List (String × Value)} {cs : List Char}
    (h : SpellsMembers ms cs) : ∃ rest, cs = '"' :: rest := by
  have hname : ∀ name : String, ∃ rest, (quote name).toList = '"' :: rest := by
    intro name
    obtain ⟨cs, hcs, -⟩ := readString_quote name []
    exact ⟨cs, hcs⟩
  cases h with
  | @last name =>
    obtain ⟨rest, hrest⟩ := hname name
    exact ⟨_, by rw [hrest]; rfl⟩
  | @more name =>
    obtain ⟨rest, hrest⟩ := hname name
    exact ⟨_, by rw [hrest]; rfl⟩

/-! ## Reading spellings -/

/-- What begins a number is read as a number. -/
private theorem readValue_number {c : Char} (hc : c.isDigit = true ∨ c = '-') (fuel : Nat)
    (cs : List Char) : readValue (fuel + 1) (c :: cs) = readNumber (c :: cs) := by
  have hne : ∀ d : Char, d.isDigit = false → d ≠ '-' → c ≠ d := by
    rintro d hd hd' rfl
    rcases hc with hc | hc
    · rw [hc] at hd
      cases hd
    · exact hd' hc
  have hsolid : isBlank c = false := by
    rcases hc with hc | rfl
    · exact (Opens.of_isDigit hc).solid
    · decide
  unfold readValue
  rw [skipBlanks_cons hsolid]
  split
  · next heq => exact absurd (List.cons.inj heq).1 (hne _ (by decide) (by decide))
  · next heq => exact absurd (List.cons.inj heq).1 (hne _ (by decide) (by decide))
  · next heq => exact absurd (List.cons.inj heq).1 (hne _ (by decide) (by decide))
  · next heq => exact absurd (List.cons.inj heq).1 (hne _ (by decide) (by decide))
  · next heq => exact absurd (List.cons.inj heq).1 (hne _ (by decide) (by decide))
  · next heq => exact absurd (List.cons.inj heq).1 (hne _ (by decide) (by decide))
  · rfl

private theorem readValue_int {n : Int} (hn : isWord n = true) {rest : List Char}
    (hrest : Closes rest) (fuel : Nat) :
    readValue (fuel + 1) ((toString n).toList ++ rest) = some (.int n, rest) := by
  rw [← readNumber_int hn hrest, toList_toString_int]
  split
  · exact readValue_number (.inr rfl) _ _
  · obtain ⟨d, ds, hds⟩ := List.exists_cons_of_ne_nil (whole_toDigits n.natAbs).ne_nil
    have hdigit := (whole_toDigits n.natAbs).digits d (by rw [hds]; exact List.mem_cons_self)
    rw [hds]
    exact readValue_number (.inl hdigit) _ _

private theorem readValue_items {bs cs : List Char} (hbs : Blanks bs) {c : Char}
    {rest : List Char} (hcs : cs = c :: rest) (hc : Opens c) (fuel : Nat) :
    readValue (fuel + 1) ('[' :: (bs ++ cs)) =
      (readItems fuel cs).map fun p => (Value.list p.1, p.2) := by
  subst hcs
  have hskip : skipBlanks (bs ++ c :: rest) = c :: rest := by
    rw [skipBlanks_append hbs, skipBlanks_cons hc.solid]
  rw [readValue, skipBlanks_cons (by decide)]
  simp only [hskip]
  split
  · next heq => exact absurd (List.cons.inj heq).1 hc.ne_bracket
  · rfl

private theorem readValue_members {bs cs : List Char} (hbs : Blanks bs) {rest : List Char}
    (hcs : cs = '"' :: rest) (fuel : Nat) :
    readValue (fuel + 1) ('{' :: (bs ++ cs)) =
      (readMembers fuel cs).map fun p => (Value.record p.1, p.2) := by
  subst hcs
  have hskip : skipBlanks (bs ++ '"' :: rest) = '"' :: rest := by
    rw [skipBlanks_append hbs, skipBlanks_cons (by decide)]
  rw [readValue, skipBlanks_cons (by decide)]
  simp only [hskip]
  rfl

mutual

/-- **A spelling is read as the value it spells.** -/
theorem Spells.readValue {v : Value} {cs : List Char} (h : Spells v cs) (fuel : Nat)
    (rest : List Char) (hfuel : cs.length ≤ fuel) (hrest : Closes rest) :
    readValue fuel (cs ++ rest) = some (v, rest) := by
  -- Every part of a spelling is shorter than the whole, so the length is fuel enough.
  obtain ⟨fuel, rfl⟩ : ∃ n, fuel = n + 1 := by
    obtain ⟨c, cs', rfl, -⟩ := h.opens
    exact Nat.exists_eq_succ_of_ne_zero (by simp at hfuel; omega)
  cases h with
  | null => rfl
  | yes => rfl
  | no => rfl
  | int hn => exact readValue_int hn hrest fuel
  | text s =>
    obtain ⟨cs, hcs, hread⟩ := readString_quote s rest
    rw [hcs, List.cons_append]
    unfold Json.readValue
    rw [skipBlanks_cons (by decide)]
    simp [hread]
  | emptyList => rfl
  | list hbs h =>
    obtain ⟨c, cs', hcs, hc⟩ := h.opens
    rw [List.cons_append, List.cons_append, List.append_assoc,
      readValue_items hbs (by rw [hcs]; rfl) hc, h.readItems fuel rest (by simp at hfuel; omega)]
    rfl
  | emptyRecord => rfl
  | record hbs h =>
    obtain ⟨cs', hcs⟩ := h.opens
    rw [List.cons_append, List.cons_append, List.append_assoc,
      readValue_members hbs (by rw [hcs]; rfl), h.readMembers fuel rest (by simp at hfuel; omega)]
    rfl

theorem SpellsItems.readItems {items : List Value} {cs : List Char} (h : SpellsItems items cs)
    (fuel : Nat) (rest : List Char) (hfuel : cs.length ≤ fuel) :
    readItems fuel (cs ++ rest) = some (items, rest) := by
  obtain ⟨fuel, rfl⟩ : ∃ n, fuel = n + 1 := by
    obtain ⟨c, cs', rfl, -⟩ := h.opens
    exact Nat.exists_eq_succ_of_ne_zero (by simp at hfuel; omega)
  cases h with
  | @last v cs bs h hbs =>
    have hread := h.readValue fuel (bs ++ ']' :: rest) (by simp at hfuel; omega)
      (closes_append hbs (closes_cons (by decide) _))
    have hclose : skipBlanks (bs ++ ']' :: rest) = ']' :: rest := by
      rw [skipBlanks_append hbs, skipBlanks_cons (by decide)]
    rw [List.append_assoc, List.append_assoc, List.singleton_append]
    simp [Json.readItems, hread, hclose]
  | @more v items cs bs cs' h hbs hrest =>
    have hread := h.readValue fuel (',' :: (bs ++ (cs' ++ rest)))
      (by simp at hfuel; omega) (closes_cons (by decide) _)
    have hcomma := skipBlanks_cons (c := ',') (by decide) (bs ++ (cs' ++ rest))
    have hmore := hrest.readItems fuel rest (by simp at hfuel; omega)
    rw [← readItems_blanks hbs] at hmore
    rw [List.append_assoc, List.append_assoc, List.cons_append]
    simp [Json.readItems, hread, hcomma, hmore]

theorem SpellsMembers.readMembers {ms : List (String × Value)} {cs : List Char}
    (h : SpellsMembers ms cs) (fuel : Nat) (rest : List Char) (hfuel : cs.length ≤ fuel) :
    readMembers fuel (cs ++ rest) = some (ms, rest) := by
  obtain ⟨fuel, rfl⟩ : ∃ n, fuel = n + 1 := by
    obtain ⟨cs', rfl⟩ := h.opens
    exact Nat.exists_eq_succ_of_ne_zero (by simp at hfuel; omega)
  cases h with
  | @last name v bs cs bs' hbs h hbs' =>
    obtain ⟨ns, hns, hname⟩ := readString_quote name (':' :: (bs ++ (cs ++ (bs' ++ '}' :: rest))))
    have hread := h.readValue fuel (bs' ++ '}' :: rest) (by simp at hfuel; omega)
      (closes_append hbs' (closes_cons (by decide) _))
    have hclose : skipBlanks (bs' ++ '}' :: rest) = '}' :: rest := by
      rw [skipBlanks_append hbs', skipBlanks_cons (by decide)]
    have hquote := skipBlanks_cons (c := '"') (by decide)
    have hcolon := skipBlanks_cons (c := ':') (by decide)
    simp [Json.readMembers, hns, hquote, hname, hcolon, readValue_blanks hbs, hread, hclose]
  | @more name v ms bs cs bs' cs' hbs h hbs' hrest =>
    obtain ⟨ns, hns, hname⟩ := readString_quote name
      (':' :: (bs ++ (cs ++ ',' :: (bs' ++ (cs' ++ rest)))))
    have hread := h.readValue fuel (',' :: (bs' ++ (cs' ++ rest)))
      (by simp at hfuel; omega) (closes_cons (by decide) _)
    have hcomma := skipBlanks_cons (c := ',') (by decide) (bs' ++ (cs' ++ rest))
    have hmore := hrest.readMembers fuel rest (by simp at hfuel; omega)
    rw [← readMembers_blanks hbs'] at hmore
    have hquote := skipBlanks_cons (c := '"') (by decide)
    have hcolon := skipBlanks_cons (c := ':') (by decide)
    simp [Json.readMembers, hns, hquote, hname, hcolon, readValue_blanks hbs, hread, hcomma, hmore]

end

/-- **A document that spells a value is read as that value.** -/
theorem Value.parse?_of_spells {v : Value} {s : String} (h : Spells v s.toList) :
    parse? s = some v := by
  have hread := h.readValue (2 * s.toList.length + 2) [] (by omega) closes_nil
  rw [List.append_nil] at hread
  unfold parse?
  simp only [hread]
  rfl

/-! ## Layouts -/

namespace Value

mutual

/-- Whether every number in the value is an integer of 64 bits. -/
def isPlain : Value → Bool
  | .int n => isWord n
  | .real _ => false
  | .list items => arePlain items
  | .record ms => havePlain ms
  | _ => true

/-- Whether every number in the items is an integer of 64 bits. -/
def arePlain : List Value → Bool
  | [] => true
  | v :: rest => v.isPlain && arePlain rest

/-- Whether every number in the members is an integer of 64 bits. -/
def havePlain : List (String × Value) → Bool
  | [] => true
  | (_, v) :: rest => v.isPlain && havePlain rest

end

@[simp] theorem isPlain_int (n : Int) : (int n).isPlain = isWord n := rfl

@[simp] theorem isPlain_bool (b : Bool) : (bool b).isPlain = true := rfl

@[simp] theorem isPlain_text (s : String) : (text s).isPlain = true := rfl

@[simp] theorem isPlain_nat (n : Nat) : (nat n).isPlain = decide (n ≤ Numeral.maxWord) := by
  change isWord n = _
  rw [Bool.eq_iff_iff]
  simp only [isWord, Numeral.fitsInt64, Bool.or_eq_true, Bool.and_eq_true, decide_eq_true_eq]
  have hmaxWord : Numeral.maxWord = 0xffffffffffffffff := rfl
  omega

@[simp] theorem isPlain_list (items : List Value) :
    (list items).isPlain = items.all isPlain := by
  change arePlain items = _
  induction items with
  | nil => rfl
  | cons v items ih => rw [arePlain, List.all_cons, ih]

@[simp] theorem isPlain_record (ms : List (String × Value)) :
    (record ms).isPlain = ms.all (·.2.isPlain) := by
  change havePlain ms = _
  induction ms with
  | nil => rfl
  | cons m ms ih => rw [havePlain, List.all_cons, ih]

@[simp] theorem isPlain_listOf {α : Type} (encode : α → Value) (l : List α) :
    (listOf encode l).isPlain = l.all fun a => (encode a).isPlain := by
  rw [listOf, isPlain_list, List.all_map]
  rfl

end Value

/-- What 32 bits hold, 64 bits hold. -/
theorem isWord_of_fitsInt32 {n : Int} (h : Numeral.fitsInt32 n = true) : isWord n = true := by
  simp only [Numeral.fitsInt32, Bool.and_eq_true, decide_eq_true_eq] at h
  simp only [isWord, Numeral.fitsInt64, Bool.or_eq_true, Bool.and_eq_true, decide_eq_true_eq]
  omega

/-- The characters spell the member, with its name before it. -/
def SpellsMember (m : String × Value) (cs : List Char) : Prop :=
  ∃ bs cs', Blanks bs ∧ Spells m.2 cs' ∧ cs = (quote m.1).toList ++ ':' :: bs ++ cs'

/-- Items on lines of their own, between a comma with blanks and the end with blanks. -/
theorem spellsItems_of_lines {items : List Value} {lines : List (List Char)} {bs bs' : List Char}
    (hbs : Blanks bs) (hbs' : Blanks bs') (h : List.Forall₂ Spells items lines) (hne : items ≠ []) :
    SpellsItems items ((',' :: bs).intercalate lines ++ bs' ++ [']']) := by
  induction h with
  | nil => exact absurd rfl hne
  | @cons v line items lines hv hrest ih =>
    cases hrest with
    | nil => simpa using SpellsItems.last hv hbs'
    | @cons v' line' items lines hv' hrest =>
      have hmore := SpellsItems.more hv hbs (ih (List.cons_ne_nil _ _))
      simpa using hmore

/-- Members on lines of their own. -/
theorem spellsMembers_of_lines {ms : List (String × Value)} {lines : List (List Char)}
    {bs bs' : List Char} (hbs : Blanks bs) (hbs' : Blanks bs')
    (h : List.Forall₂ SpellsMember ms lines) (hne : ms ≠ []) :
    SpellsMembers ms ((',' :: bs).intercalate lines ++ bs' ++ ['}']) := by
  induction h with
  | nil => exact absurd rfl hne
  | @cons m line ms lines hm hrest ih =>
    obtain ⟨name, v⟩ := m
    obtain ⟨bs₁, cs, hbs₁, hv, hline⟩ := hm
    rw [hline]
    cases hrest with
    | nil => simpa using SpellsMembers.last name hbs₁ hv hbs'
    | @cons m' line' ms lines hm' hrest =>
      have hmore := SpellsMembers.more name hbs₁ hv hbs (ih (List.cons_ne_nil _ _))
      simpa using hmore

namespace Value

mutual

/-- **The layout without blanks spells the value.** -/
theorem compact_spells (v : Value) (h : v.isPlain = true) : Spells v v.compact.toList := by
  cases v with
  | null => exact .null
  | bool b =>
    cases b with
    | true => exact .yes
    | false => exact .no
  | int n => exact .int h
  | real spelling => cases h
  | text s => exact .text s
  | list items =>
    cases items with
    | nil => exact .emptyList
    | cons v rest =>
      have hitems := Spells.list blanks_nil (spellsItems_of_lines blanks_nil blanks_nil
        (compactItems_spell (v :: rest) h) (List.cons_ne_nil _ _))
      simpa [compact] using hitems
  | record ms =>
    cases ms with
    | nil => exact .emptyRecord
    | cons m rest =>
      have hmembers := Spells.record blanks_nil (spellsMembers_of_lines blanks_nil blanks_nil
        (compactMembers_spell (m :: rest) h) (List.cons_ne_nil _ _))
      simpa [compact] using hmembers

theorem compactItems_spell (items : List Value) (h : arePlain items = true) :
    List.Forall₂ Spells items ((compactItems items).map String.toList) := by
  cases items with
  | nil => exact .nil
  | cons v rest =>
    obtain ⟨hv, hrest⟩ := Bool.and_eq_true_iff.mp h
    exact .cons (compact_spells v hv) (compactItems_spell rest hrest)

theorem compactMembers_spell (ms : List (String × Value)) (h : havePlain ms = true) :
    List.Forall₂ SpellsMember ms ((compactMembers ms).map String.toList) := by
  match ms, h with
  | [], _ => exact .nil
  | (name, v) :: rest, h =>
    obtain ⟨hv, hrest⟩ := Bool.and_eq_true_iff.mp h
    refine .cons ⟨[], _, blanks_nil, compact_spells v hv, ?_⟩ (compactMembers_spell rest hrest)
    simp

end

/-- The line breaks of the layout with lines are blanks. -/
private theorem newLine_blanks (level : Nat) : Blanks (newLine level).toList := by
  intro c hc
  simp only [newLine, String.toList_append, String.toList_ofList, List.mem_append,
    List.mem_replicate] at hc
  rcases hc with hc | ⟨-, rfl⟩
  · obtain rfl := List.mem_singleton.mp hc
    decide
  · decide

private theorem toList_block (level : Nat) (opening closing : String) {lines : List String}
    (hne : lines ≠ []) : (block level opening closing lines).toList =
      opening.toList ++ (newLine (level + 1)).toList ++
        ((',' :: (newLine (level + 1)).toList).intercalate (lines.map String.toList) ++
          (newLine level).toList ++ closing.toList) := by
  obtain ⟨line, rest, rfl⟩ := List.exists_cons_of_ne_nil hne
  simp [block, String.toList_intercalate]

mutual

/-- **The layout with lines spells the value,** at every level. -/
theorem prettyAt_spells (level : Nat) (v : Value) (h : v.isPlain = true) :
    Spells v (v.prettyAt level).toList := by
  cases v with
  | null => exact .null
  | bool b =>
    cases b with
    | true => exact .yes
    | false => exact .no
  | int n => exact .int h
  | real spelling => cases h
  | text s => exact .text s
  | list items =>
    cases items with
    | nil =>
      simpa [prettyAt, prettyItems, block] using Spells.emptyList
    | cons v rest =>
      have hne : prettyItems (level + 1) (v :: rest) ≠ [] := by simp [prettyItems]
      rw [prettyAt, toList_block _ _ _ hne]
      exact .list (newLine_blanks _) (spellsItems_of_lines (newLine_blanks _) (newLine_blanks _)
        (prettyItems_spell (level + 1) (v :: rest) h) (List.cons_ne_nil _ _))
  | record ms =>
    cases ms with
    | nil =>
      simpa [prettyAt, prettyMembers, block] using Spells.emptyRecord
    | cons m rest =>
      have hne : prettyMembers (level + 1) (m :: rest) ≠ [] := by simp [prettyMembers]
      rw [prettyAt, toList_block _ _ _ hne]
      exact .record (newLine_blanks _) (spellsMembers_of_lines (newLine_blanks _)
        (newLine_blanks _) (prettyMembers_spell (level + 1) (m :: rest) h) (List.cons_ne_nil _ _))

theorem prettyItems_spell (level : Nat) (items : List Value) (h : arePlain items = true) :
    List.Forall₂ Spells items ((prettyItems level items).map String.toList) := by
  cases items with
  | nil => exact .nil
  | cons v rest =>
    obtain ⟨hv, hrest⟩ := Bool.and_eq_true_iff.mp h
    exact .cons (prettyAt_spells level v hv) (prettyItems_spell level rest hrest)

theorem prettyMembers_spell (level : Nat) (ms : List (String × Value)) (h : havePlain ms = true) :
    List.Forall₂ SpellsMember ms ((prettyMembers level ms).map String.toList) := by
  match ms, h with
  | [], _ => exact .nil
  | (name, v) :: rest, h =>
    obtain ⟨hv, hrest⟩ := Bool.and_eq_true_iff.mp h
    refine .cons ⟨[' '], _, ?_, prettyAt_spells level v hv, ?_⟩
      (prettyMembers_spell level rest hrest)
    · exact List.forall_mem_singleton.mpr rfl
    · simp

end

/-- **What is written in either layout is read back as it was.** -/
theorem parse?_written {v : Value} (h : v.isPlain = true) :
    parse? v.compact = some v ∧ parse? v.pretty = some v :=
  ⟨parse?_of_spells (v.compact_spells h), parse?_of_spells (v.prettyAt_spells 0 h)⟩

end Value

end AdaptiveLL.Json
