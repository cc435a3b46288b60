import AdaptiveLL.Proofs.Lexing.Longest
import AdaptiveLL.Proofs.Lexing.Places

/-!
# Where a lexer asks

A lexer puts the predicates of its rules to the host while it follows threads. All threads of a step
have consumed the same characters, so the questions of one step are put at one position: behind the
character that the step consumes or, before the first step, where the token begins.

The end of the input is matched, but not consumed, and a step that matches it asks at the position
behind it all the same. Where nothing matches the end of the input, no question is put beyond it.
-/

namespace AdaptiveLL

/-- A predicate is put with the input at the position. -/
def Callback.At (position : Nat) (q : Callback) : Prop :=
  ∃ rule pred, q = .predicate rule pred position

/-! ## Probes -/

namespace Probe

variable {α β : Type} {P : Callback → Prop} {m : Probe α} {f : α → Probe β}

/-- **A probe that puts no other questions** than those that satisfy `P`. -/
def Asks (P : Callback → Prop) (m : Probe α) : Prop :=
  ∀ t : Trail, (∀ q ∈ t.asked, P q) → m.Ensures t fun _ t' => ∀ q ∈ t'.asked, P q

namespace Asks

theorem pure {a : α} : Asks P (pure a : Probe α) := fun _ ht => .pure ht

theorem bind (h : Asks P m) (hf : ∀ a, Asks P (f a)) : Asks P (m >>= f) :=
  fun t ht => (h t ht).bind (fun a t' ht' => hf a t' ht') fun _ _ => id

theorem map {g : α → β} (h : Asks P m) : Asks P (g <$> m) := by
  rw [← bind_pure_comp]
  exact h.bind fun _ => .pure

theorem get_bind {f : Trail → Probe β} (h : ∀ t, Asks P (f t)) : Asks P (get >>= f) :=
  fun t ht => .get_bind (h t t ht)

theorem ite {p : Prop} [Decidable p] {m' : Probe α} (h : Asks P m) (h' : Asks P m') :
    Asks P (if p then m else m') := by
  split
  · exact h
  · exact h'

/-- Extending the graph of stacks asks nothing. -/
theorem grow {m : Growing α} : Asks P (Probe.grow m) := by
  intro t ht
  refine .of_eq (Run.from?_ofStep _ t) ?_
  cases m.run t.graph with
  | ok => exact ht
  | error => exact ht

theorem holds {host : Oracle} {position rule pred : Nat} {contextual : Bool}
    (hP : P (.predicate rule pred position)) :
    Asks P (Probe.holds host position (.predicate rule pred contextual)) := by
  refine fun t ht => .get_bind (.set_bind (.pure ?_))
  exact List.forall_mem_append.mpr ⟨ht, List.forall_mem_singleton.mpr hP⟩

theorem foldlM {g : β → α → Probe β} (l : List α) (hg : ∀ b, ∀ a ∈ l, Asks P (g b a)) (b : β) :
    Asks P (l.foldlM g b) := by
  induction l generalizing b with
  | nil => exact .pure
  | cons a l ih =>
    rw [List.foldlM_cons]
    exact (hg b a List.mem_cons_self).bind fun b' =>
      ih (fun b a ha => hg b a (List.mem_cons_of_mem _ ha)) b'

theorem loop {step : α → Probe (α ⊕ β)} (hstep : ∀ a, Asks P (step a)) (fuel : Nat) (a : α) :
    Asks P (Run.loop step fuel a) := by
  intro t ht
  refine .loop (fun _ t => ∀ q ∈ t.asked, P q) (fun a t ht => (hstep a t ht).mono ?_) ht
  rintro (e | (a' | b)) t' ht'
  · exact ht'
  · exact ht'
  · exact ht'

end Asks

end Probe

/-! ## Following threads -/

namespace Vantage

open Probe (Asks)

variable {v : Vantage} {P : Callback → Prop}

section Closure

variable (hP : ∀ q, Callback.At v.position q → P q)
include hP

end Closure

end Vantage

/-! ## Scanning -/

namespace Scan

variable {α β : Type} {P : Callback → Prop} {c : Scan} {s : Scanner}

/-- **What a part of a match asks** while the text and the cursor in it stay: nothing but questions
that satisfy `P`. -/
def Asks (P : Callback → Prop) (m : Scanning α) (s : Scanner) : Prop :=
  m.Ensures s fun _ s' => s'.stream = s.stream ∧
    ∃ asked, s'.callbacks = s.callbacks ++ asked ∧ ∀ q ∈ asked, P q

namespace Asks

variable {m : Scanning α} {f : α → Scanning β}

/-- What leaves the record of questions as it is. -/
private theorem silent {r : Except LexError α} {s' : Scanner} (hrun : m.from? s = some (r, s'))
    (hstream : s'.stream = s.stream) (h : s'.callbacks = s.callbacks) : Asks P m s :=
  .of_eq hrun ⟨hstream, [], by rw [h, List.append_nil], nofun⟩

theorem pure {a : α} : Asks P (pure a) s := silent rfl rfl rfl

theorem bind (h : Asks P m s) (hf : ∀ a s', s'.stream = s.stream → Asks P (f a) s') :
    Asks P (m >>= f) s := by
  refine Run.Ensures.bind h ?_ fun _ _ => id
  rintro a s₁ ⟨hstream, asked, hasked, hall⟩
  refine Run.Ensures.mono (hf a s₁ hstream) ?_
  rintro r s₂ ⟨hstream', more, hmore, hall'⟩
  refine ⟨hstream'.trans hstream, asked ++ more, by rw [hmore, hasked, List.append_assoc], ?_⟩
  intro q hq
  rcases List.mem_append.mp hq with hold | hnew
  · exact hall q hold
  · exact hall' q hnew

theorem get_bind {f : Scanner → Scanning β} (h : Asks P (f s) s) : Asks P (get >>= f) s :=
  Run.Ensures.get_bind h

theorem modify {g : Scanner → Scanner} (hstream : (g s).stream = s.stream)
    (h : (g s).callbacks = s.callbacks) : Asks P (modify g : Scanning PUnit) s :=
  silent (Run.from?_modify g s) hstream h

theorem ite {p : Prop} [Decidable p] {m' : Scanning α} (h : Asks P m s) (h' : Asks P m' s) :
    Asks P (if p then m else m') s := by
  split
  · exact h
  · exact h'

theorem probe {p : Probe α} (h : Probe.Asks P p) : Asks P (Scan.probe p) s := by
  intro r s' hrun
  rw [from?_probe] at hrun
  obtain ⟨⟨r₁, t⟩, hprobe, heq⟩ := Option.map_eq_some_iff.mp hrun
  obtain ⟨-, rfl⟩ := Prod.mk.inj heq
  exact ⟨rfl, t.asked, rfl, h _ (fun q hq => absurd hq List.not_mem_nil) r₁ t hprobe⟩

theorem table (c : Scan) : Asks P c.table s := .get_bind .pure

theorem setTable (c : Scan) (t : Table) : Asks P (c.setTable t) s := .modify rfl rfl

theorem install (c : Scan) (configs : ConfigSet) : Asks P (c.install configs) s := by
  unfold Scan.install
  apply Asks.ite
  · exact .pure
  · refine (table c).bind fun t s₁ _ => ?_
    generalize t.install (c.rowOf configs) = res
    obtain ⟨place, event, t'⟩ := res
    refine (setTable c t').bind fun _ s₂ _ => ?_
    cases event with
    | none => exact .pure
    | some e => exact (modify rfl rfl).bind fun _ _ _ => .pure

end Asks

/-- **Questions in step with the characters:** those put behind the first `k` characters of the
token, for each `k`, and at last those put while the end of the input was matched. -/
structure Paced (net : Network) (size start : Nat) (rounds : List (List Callback))
    (late : List Callback) : Prop where
  rounds_at : ∀ k asked, rounds[k]? = some asked → ∀ q ∈ asked,
    start + k ≤ size ∧ Callback.At (start + k) q
  late_at : ∀ q ∈ late, Callback.At (size + 1) q
  late_nil : net.StopsAtEof → late = []

namespace Paced

variable {net : Network} {size start : Nat} {rounds : List (List Callback)}
  {late asked : List Callback}

/-- The questions of one more character. -/
theorem concat (h : Paced net size start rounds []) (hsize : start + rounds.length ≤ size)
    (hasked : ∀ q ∈ asked, Callback.At (start + rounds.length) q) :
    Paced net size start (rounds ++ [asked]) [] := by
  refine ⟨fun k asked' hk q hq => ?_, nofun, fun _ => rfl⟩
  rcases List.getElem?_append.symm.trans hk with hk
  split at hk
  · exact h.rounds_at k asked' hk q hq
  · next hlen =>
    obtain ⟨hzero, rfl⟩ : k - rounds.length = 0 ∧ asked = asked' := by
      simpa [List.getElem?_singleton] using hk
    obtain rfl : k = rounds.length := by omega
    exact ⟨hsize, hasked q hq⟩

end Paced

/-- What a scanner has asked since there was a record `before`, for a token that begins at
`start`. -/
def Told (net : Network) (size start : Nat) (before : List Callback) (s : Scanner) : Prop :=
  ∃ rounds late, s.callbacks = before ++ (rounds.flatten ++ late) ∧
    Paced net size start rounds late

/-- **A scanner on its way,** between two steps: the questions of every character passed are put. -/
def OnWay (net : Network) (text : CharStream) (start : Nat) (before : List Callback) (s : Scanner) :
    Prop :=
  s.At text s.position ∧ ∃ rounds late, s.callbacks = before ++ (rounds.flatten ++ late) ∧
    Paced net text.size start rounds late ∧ start + rounds.length = s.stream.index + 1 ∧
      (late ≠ [] → s.stream.index = text.size)

variable {text : CharStream} {start : Nat} {before : List Callback} {net : Network}

theorem OnWay.told (h : OnWay net text start before s) : Told net text.size start before s :=
  let ⟨_, rounds, late, hcallbacks, hpaced, _⟩ := h
  ⟨rounds, late, hcallbacks, hpaced⟩

/-- The place that a symbol leads to is known, and the questions about the symbol are put: the
scanner has still to pass it. -/
structure Knows (net : Network) (text : CharStream) (start : Nat) (before : List Callback)
    (v : Symbol) (s : Scanner) : Prop where
  cursor : s.At text s.position
  symbol_eq : v = text.symbolAt s.stream.index
  told : Told net text.size start before s
  onWay : v = Symbol.eof → OnWay net text start before s
  advanced : v ≠ Symbol.eof → ∃ rounds, s.callbacks = before ++ rounds.flatten ∧
    Paced net text.size start rounds [] ∧ start + rounds.length = s.stream.index + 2

/-- Passing the character. -/
theorem Knows.advance {v : Symbol} (h : Knows c.net text start before v s) (hne : v ≠ Symbol.eof) :
    OnWay c.net text start before s.advance := by
  obtain ⟨rounds, hcallbacks, hpaced, hlength⟩ := h.advanced hne
  have hat := h.cursor.advance
  have hindex : s.advance.stream.index = s.stream.index + 1 := by
    rw [hat.index_eq, Position.index_past _ (h.symbol_eq ▸ hne)]
    rfl
  have hcallbacks' : s.advance.callbacks = s.callbacks := by
    unfold Scanner.advance
    dsimp only
    split
    · rfl
    · split <;> rfl
  refine ⟨hat.position_eq ▸ hat, rounds, [], ?_, hpaced, ?_, nofun⟩
  · rw [hcallbacks', hcallbacks, List.append_nil]
  · rw [hindex, hlength]

end Scan

end AdaptiveLL
