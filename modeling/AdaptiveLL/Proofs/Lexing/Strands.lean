import AdaptiveLL.Lexing.Closure
import AdaptiveLL.Proofs.Network.Machine
import Mathlib.Data.List.Dedup

/-!
# Strands

What a lexer matches depends neither on the commands that its threads have collected nor on the
numbers of their stacks. A *strand* is a thread without the commands, and with its stack spelled
out. The relations below say how strands are followed, in the order in which a lexer follows its
threads. A set of threads may hold one strand several times, under different commands; only its
first place counts.
-/

namespace AdaptiveLL

/-! ## First places -/

section Firsts

variable {α : Type} [DecidableEq α] {l l' : List α}

/-- The members of a list, each at its first place. -/
def firsts (l : List α) : List α := l.reverse.dedup.reverse

@[simp] theorem mem_firsts {a : α} : a ∈ firsts l ↔ a ∈ l := by
  simp [firsts]

theorem firsts_sublist (l : List α) : (firsts l).Sublist l := by
  have h := l.reverse.dedup_sublist.reverse
  rwa [List.reverse_reverse] at h

theorem firsts_concat_of_mem {a : α} (h : a ∈ l) : firsts (l ++ [a]) = firsts l := by
  rw [firsts, List.reverse_append, List.reverse_singleton, List.singleton_append,
    List.dedup_cons_of_mem (List.mem_reverse.mpr h), firsts]

theorem firsts_concat_of_notMem {a : α} (h : a ∉ l) : firsts (l ++ [a]) = firsts l ++ [a] := by
  rw [firsts, List.reverse_append, List.reverse_singleton, List.singleton_append,
    List.dedup_cons_of_notMem (mt List.mem_reverse.mp h), List.reverse_cons, firsts]

theorem firsts_firsts (l : List α) : firsts (firsts l) = firsts l := by
  simp [firsts, List.dedup_idem]

theorem firsts_of_nodup (h : l.Nodup) : firsts l = l := by
  rw [firsts, List.dedup_eq_self.mpr (List.nodup_reverse.mpr h), List.reverse_reverse]

/-- What is added to a list is only looked up in it. -/
theorem firsts_append_congr (h : firsts l = firsts l') (m : List α) :
    firsts (l ++ m) = firsts (l' ++ m) := by
  have hmem : ∀ a, a ∈ l ↔ a ∈ l' := fun a => by rw [← mem_firsts, h, mem_firsts]
  induction m using List.reverseRecOn with
  | nil => rwa [List.append_nil, List.append_nil]
  | append_singleton m a ih =>
    rw [← List.append_assoc, ← List.append_assoc]
    have hiff : a ∈ l ++ m ↔ a ∈ l' ++ m := by rw [List.mem_append, List.mem_append, hmem]
    by_cases ha : a ∈ l ++ m
    · rw [firsts_concat_of_mem ha, firsts_concat_of_mem (hiff.mp ha), ih]
    · rw [firsts_concat_of_notMem ha, firsts_concat_of_notMem (mt hiff.mpr ha), ih]

theorem firsts_append_of_subset (h : l' ⊆ l) : firsts (l ++ l') = firsts l := by
  induction l' using List.reverseRecOn with
  | nil => rw [List.append_nil]
  | append_singleton m a ih =>
    have ha : a ∈ l := h (List.mem_append_right _ (List.mem_singleton_self a))
    rw [← List.append_assoc, firsts_concat_of_mem (List.mem_append_left _ ha)]
    exact ih fun x hx => h (List.mem_append_left _ hx)

/-- A search finds the same in the first places. -/
theorem find?_firsts (p : α → Bool) (l : List α) : (firsts l).find? p = l.find? p := by
  induction l using List.reverseRecOn with
  | nil => rfl
  | append_singleton l a ih =>
    by_cases ha : a ∈ l
    · rw [firsts_concat_of_mem ha, ih, List.find?_append]
      cases hfind : l.find? p with
      | some b => rfl
      | none =>
        have hp : p a = false := by simpa using List.find?_eq_none.mp hfind a ha
        simp [hp]
    · rw [firsts_concat_of_notMem ha, List.find?_append, List.find?_append, ih]

/-- One list condenses another one: only members that were there before are left out. -/
structure Condenses (l l' : List α) : Prop where
  sublist : l.Sublist l'
  firsts_eq : firsts l = firsts l'

theorem Condenses.refl (l : List α) : Condenses l l := ⟨.refl l, rfl⟩

theorem Condenses.trans {l'' : List α} (h : Condenses l l') (h' : Condenses l' l'') :
    Condenses l l'' :=
  ⟨h.sublist.trans h'.sublist, h.firsts_eq.trans h'.firsts_eq⟩

theorem Condenses.append (h : Condenses l l') (m : List α) : Condenses (l ++ m) (l' ++ m) :=
  ⟨h.sublist.append_right m, firsts_append_congr h.firsts_eq m⟩

theorem Condenses.concat {a : α} (h : a ∈ l) : Condenses l (l ++ [a]) :=
  ⟨List.sublist_append_left _ _, (firsts_concat_of_mem h).symm⟩

end Firsts

/-! ## Strands -/

/-- **A thread of a lexer,** as far as the match depends on it. -/
structure Strand where
  state : StateId
  alt : Nat
  /-- Where the active calls go on, innermost first. -/
  stack : List StateId
  /-- Whether the thread went through a non-greedy decision. -/
  nonGreedy : Bool
deriving DecidableEq

/-- A strand moved to a state. -/
def Network.lead (net : Network) (t : Strand) (s : StateId) (stack : List StateId) : Strand :=
  { t with
    state := s
    stack := stack
    nonGreedy := t.nonGreedy || (net.state s).isLazy }

/-- A chase of strands. -/
structure Pursuit where
  work : List Strand
  /-- The strands that were collected, in order. -/
  found : List Strand := []
  seen : List Strand := []
  finished : Bool
  /-- Whether a predicate was met. -/
  guarded : Bool := false

/-- What is caught when a strand consumes a character. -/
structure Catch where
  /-- The strands that were collected, in order. -/
  found : List Strand
  /-- Whether the alternative has finished its token. -/
  done : Bool
  /-- Whether a predicate was met. -/
  guarded : Bool

namespace Vantage

/-- Where a transition leads a strand without consuming a character. -/
def onward (v : Vantage) (t : Strand) (step : Transition) : Option Strand :=
  let moved := some (v.net.lead t step.target t.stack)
  match step with
  | .epsilon _ | .action .. => moved
  | .rule target _ follow _ => some (v.net.lead t target (follow :: t.stack))
  | .predicate _ rule pred contextual =>
    if (Guard.predicate rule pred contextual).holds v.host.now v.position then moved else none
  | .atom .. | .range .. | .set .. =>
    if v.atEof && step.accepts Symbol.eof Symbol.firstChar Symbol.lastChar then moved else none
  | .precedence .. | .notSet .. | .wildcard _ => none

/-- Where the transitions of its state lead a strand, in order. -/
def nexts (v : Vantage) (t : Strand) : List Strand :=
  (v.net.state t.state).transitions.filterMap (v.onward t)

/-- What becomes of a chase when a strand is visited for the first time. -/
def visit (v : Vantage) (t : Strand) (s : Pursuit) : Pursuit :=
  if v.net.isStop t.state then
    match t.stack with
    | [] => { s with found := s.found ++ [t], finished := true }
    | r :: rest => { s with work := v.net.lead t r rest :: s.work }
  else
    { s with
      work := v.nexts t ++ s.work
      found :=
        if (v.net.state t.state).onlyEpsilon || (s.finished && t.nonGreedy) then s.found
        else s.found ++ [t]
      guarded := s.guarded || (v.net.state t.state).hasPredicate }

/-- **One step of a chase.** No strand is visited twice. -/
def pursue (v : Vantage) (s : Pursuit) : Option Pursuit :=
  match s.work with
  | [] => none
  | t :: rest =>
    if t ∈ s.seen then some { s with work := rest }
    else some (v.visit t { s with work := rest, seen := t :: s.seen })

/-- **How a chase ends.** -/
inductive Chases (v : Vantage) : Pursuit → Pursuit → Prop where
  | done {s : Pursuit} : v.pursue s = none → Chases v s s
  | step {s s' e : Pursuit} : v.pursue s = some s' → Chases v s' e → Chases v s e

/-- The chase of one strand. -/
abbrev begin (t : Strand) (finished : Bool) : Pursuit := { work := [t], finished }

/-- **What the transitions of a strand catch** that consume a character. What comes after the first
one that finishes the token does not matter. -/
inductive Consumes (v : Vantage) (symbol : Symbol) (t : Strand) (finished : Bool) :
    List Transition → Catch → Prop where
  | nil : Consumes v symbol t finished [] ⟨[], false, false⟩
  | skip {step : Transition} {rest : List Transition} {k : Catch} :
      step.accepts symbol Symbol.firstChar Symbol.lastChar = false →
      Consumes v symbol t finished rest k → Consumes v symbol t finished (step :: rest) k
  | last {step : Transition} {rest : List Transition} {e : Pursuit} :
      step.accepts symbol Symbol.firstChar Symbol.lastChar = true →
      v.Chases (begin (v.net.lead t step.target t.stack) finished) e → e.finished = true →
      Consumes v symbol t finished (step :: rest) ⟨e.found, true, e.guarded⟩
  | next {step : Transition} {rest : List Transition} {e : Pursuit} {k : Catch} :
      step.accepts symbol Symbol.firstChar Symbol.lastChar = true →
      v.Chases (begin (v.net.lead t step.target t.stack) finished) e → e.finished = false →
      Consumes v symbol t finished rest k →
      Consumes v symbol t finished (step :: rest) ⟨e.found ++ k.found, k.done, e.guarded || k.guarded⟩

/-- **The strands after a character.** The last number is the latest alternative that has finished
its token; its strands that went through a non-greedy decision are dropped. -/
inductive Reaches (v : Vantage) (symbol : Symbol) :
    List Strand → List Strand → Bool → Nat → Prop where
  | nil : Reaches v symbol [] [] false noAlternative
  | drop {l found : List Strand} {guarded : Bool} {done : Nat} {t : Strand} :
      Reaches v symbol l found guarded done → t.alt = done → t.nonGreedy = true →
      Reaches v symbol (l ++ [t]) found guarded done
  | take {l found : List Strand} {guarded : Bool} {done : Nat} {t : Strand} {k : Catch} :
      Reaches v symbol l found guarded done → ¬(t.alt = done ∧ t.nonGreedy = true) →
      v.Consumes symbol t (t.alt == done) (v.net.state t.state).transitions k →
      Reaches v symbol (l ++ [t]) (found ++ k.found) (guarded || k.guarded)
        (if k.done then t.alt else done)

/-- **The strands in which a mode begins.** -/
inductive Opens (v : Vantage) : List Strand → List Strand → Bool → Prop where
  | nil : Opens v [] [] false
  | next {t : Strand} {l found : List Strand} {guarded : Bool} {e : Pursuit} :
      Opens v l found guarded → v.Chases (begin t false) e →
      Opens v (l ++ [t]) (found ++ e.found) (guarded || e.guarded)

/-! ## There is one way -/

variable {v : Vantage} {symbol : Symbol} {t : Strand} {finished : Bool} {s e e' : Pursuit}

theorem Chases.unique (h : v.Chases s e) (h' : v.Chases s e') : e = e' := by
  induction h with
  | done hnone =>
    cases h' with
    | done => rfl
    | step hsome => rw [hnone] at hsome; cases hsome
  | step hsome _ ih =>
    cases h' with
    | done hnone => rw [hnone] at hsome; cases hsome
    | step hsome' h' =>
      obtain rfl := Option.some.inj (hsome.symm.trans hsome')
      exact ih h'

theorem Consumes.unique {steps : List Transition} {k k' : Catch}
    (h : v.Consumes symbol t finished steps k) (h' : v.Consumes symbol t finished steps k') :
    k = k' := by
  induction h generalizing k' with
  | nil =>
    cases h'
    rfl
  | skip hno _ ih =>
    cases h' with
    | skip _ h' => exact ih h'
    | last hacc => rw [hno] at hacc; cases hacc
    | next hacc => rw [hno] at hacc; cases hacc
  | last hacc he hfinished =>
    cases h' with
    | skip hno => rw [hno] at hacc; cases hacc
    | last _ he' => rw [he.unique he']
    | next _ he' hnot => rw [he.unique he', hnot] at hfinished; cases hfinished
  | next hacc he hnot _ ih =>
    cases h' with
    | skip hno => rw [hno] at hacc; cases hacc
    | last _ he' hfinished => rw [he.unique he', hfinished] at hnot; cases hnot
    | next _ he' _ hrest => rw [he.unique he', ih hrest]

theorem Reaches.unique {l found found' : List Strand} {guarded guarded' : Bool} {done done' : Nat}
    (h : v.Reaches symbol l found guarded done) (h' : v.Reaches symbol l found' guarded' done') :
    found = found' ∧ guarded = guarded' ∧ done = done' := by
  induction h generalizing found' guarded' done' with
  | nil =>
    generalize hl : ([] : List Strand) = l at h'
    cases h' with
    | nil => exact ⟨rfl, rfl, rfl⟩
    | drop => cases List.append_ne_nil_of_right_ne_nil _ (List.cons_ne_nil _ _) hl.symm
    | take => cases List.append_ne_nil_of_right_ne_nil _ (List.cons_ne_nil _ _) hl.symm
  | @drop l _ _ _ t _ halt hlazy ih =>
    generalize hl : l ++ [t] = m at h'
    cases h' with
    | nil => cases List.append_ne_nil_of_right_ne_nil _ (List.cons_ne_nil _ _) hl
    | drop h' =>
      obtain ⟨rfl, rfl⟩ := List.append_singleton_inj.mp hl
      exact ih h'
    | take h' hnot =>
      obtain ⟨rfl, rfl⟩ := List.append_singleton_inj.mp hl
      obtain ⟨-, -, rfl⟩ := ih h'
      exact absurd ⟨halt, hlazy⟩ hnot
  | @take l _ _ _ t _ _ hnot hk ih =>
    generalize hl : l ++ [t] = m at h'
    cases h' with
    | nil => cases List.append_ne_nil_of_right_ne_nil _ (List.cons_ne_nil _ _) hl
    | drop h' halt hlazy =>
      obtain ⟨rfl, rfl⟩ := List.append_singleton_inj.mp hl
      obtain ⟨-, -, rfl⟩ := ih h'
      exact absurd ⟨halt, hlazy⟩ hnot
    | take h' _ hk' =>
      obtain ⟨rfl, rfl⟩ := List.append_singleton_inj.mp hl
      obtain ⟨rfl, rfl, rfl⟩ := ih h'
      rw [hk.unique hk']
      exact ⟨rfl, rfl, rfl⟩

theorem Opens.unique {l found found' : List Strand} {guarded guarded' : Bool}
    (h : v.Opens l found guarded) (h' : v.Opens l found' guarded') :
    found = found' ∧ guarded = guarded' := by
  induction h generalizing found' guarded' with
  | nil =>
    generalize hl : ([] : List Strand) = l at h'
    cases h' with
    | nil => exact ⟨rfl, rfl⟩
    | next => cases List.append_ne_nil_of_right_ne_nil _ (List.cons_ne_nil _ _) hl.symm
  | @next t l _ _ _ _ he ih =>
    generalize hl : l ++ [t] = m at h'
    cases h' with
    | nil => cases List.append_ne_nil_of_right_ne_nil _ (List.cons_ne_nil _ _) hl
    | next h' he' =>
      obtain ⟨rfl, rfl⟩ := List.append_singleton_inj.mp hl
      obtain ⟨rfl, rfl⟩ := ih h'
      rw [he.unique he']
      exact ⟨rfl, rfl⟩

end Vantage

end AdaptiveLL
