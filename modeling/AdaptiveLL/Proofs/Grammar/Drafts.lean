import AdaptiveLL.Grammar.Compile
import AdaptiveLL.Proofs.Grammar.Language

/-!
# Drafts that grow

Laying out a part of a network adds states to the draft and leaves the old ones as they were, up to
a few to which ways on are added. `Layout.Lays` judges a part of a layout by what it has done if it
is not refused. In what is laid out for a rule every state is *wired*: its ways on are plain steps
within the rule, or it has a single one, which comes from a leaf of the rule's body.
-/

namespace AdaptiveLL

/-! ## Drafts -/

namespace Draft

/-- The number of states. -/
def size (d : Draft) : Nat := d.states.size

/-- The state of a number. -/
def state (d : Draft) (q : StateId) : State := d.states[q]?.getD default

/-- The ways on from a state. -/
def ways (d : Draft) (q : StateId) : List Transition := (d.state q).transitions

/-- **The draft goes on from another one:** the states there were are what they were, except that
the touched ones may have more ways on and other marks. -/
structure Adds (touched : StateId → Prop) (d d' : Draft) : Prop where
  size_le : d.size ≤ d'.size
  keeps : ∀ q < d.size, ¬touched q → d'.state q = d.state q
  rule_eq : ∀ q < d.size, (d'.state q).rule = (d.state q).rule
  kind_eq : ∀ q < d.size, (d'.state q).kind = (d.state q).kind
  grammar_eq : d'.kind = d.kind
  names_eq : d'.ruleNames = d.ruleNames
  starts_eq : d'.ruleStarts = d.ruleStarts
  stops_eq : d'.ruleStops = d.ruleStops

namespace Adds

variable {touched touched' : StateId → Prop} {d d₁ d₂ d₃ : Draft}

theorem refl (touched : StateId → Prop) (d : Draft) : Adds touched d d where
  size_le := Nat.le_refl _
  keeps _ _ _ := rfl
  rule_eq _ _ := rfl
  kind_eq _ _ := rfl
  grammar_eq := rfl
  names_eq := rfl
  starts_eq := rfl
  stops_eq := rfl

/-- What touches only states that are new from further back touches none of the old ones. -/
theorem trans (h : Adds touched d₁ d₂) (h' : Adds touched' d₂ d₃)
    (hnew : ∀ q < d₁.size, touched' q → touched q) : Adds touched d₁ d₃ where
  size_le := Nat.le_trans h.size_le h'.size_le
  keeps q hq hne :=
    (h'.keeps q (Nat.lt_of_lt_of_le hq h.size_le) fun ht => hne (hnew q hq ht)).trans (h.keeps q hq hne)
  rule_eq q hq := (h'.rule_eq q (Nat.lt_of_lt_of_le hq h.size_le)).trans (h.rule_eq q hq)
  kind_eq q hq := (h'.kind_eq q (Nat.lt_of_lt_of_le hq h.size_le)).trans (h.kind_eq q hq)
  grammar_eq := h'.grammar_eq.trans h.grammar_eq
  names_eq := h'.names_eq.trans h.names_eq
  starts_eq := h'.starts_eq.trans h.starts_eq
  stops_eq := h'.stops_eq.trans h.stops_eq

theorem mono (h : Adds touched d₁ d₂) (himp : ∀ q < d₁.size, touched q → touched' q) :
    Adds touched' d₁ d₂ :=
  { h with keeps := fun q hq hne => h.keeps q hq fun ht => hne (himp q hq ht) }

theorem ways_eq (h : Adds touched d₁ d₂) {q : StateId} (hq : q < d₁.size) (hne : ¬touched q) :
    d₂.ways q = d₁.ways q := congrArg State.transitions (h.keeps q hq hne)

end Adds

/-- The state belongs to the rule. -/
structure Owns (d : Draft) (rule : Nat) (p : StateId) : Prop where
  lt : p < d.size
  rule_eq : (d.state p).rule = rule
  kind_ne : (d.state p).kind ≠ .tokensStart

theorem Owns.adds {touched : StateId → Prop} {d d' : Draft} {rule : Nat} {p : StateId}
    (h : d.Owns rule p) (hadds : Adds touched d d') : d'.Owns rule p where
  lt := Nat.lt_of_lt_of_le h.lt hadds.size_le
  rule_eq := (hadds.rule_eq p h.lt).trans h.rule_eq
  kind_ne := by
    rw [hadds.kind_eq p h.lt]
    exact h.kind_ne

end Draft

/-! ## Leaves -/

/-- **A leaf of the body of a rule** and the transition it becomes, but for its target. -/
inductive Element.Leaf (rule : Nat) : Element → (StateId → Transition) → Prop where
  | token (v : Symbol) : Leaf rule (.token v) (.atom · v)
  | range (start stop : Symbol) : Leaf rule (.range start stop) (.range · start stop)
  | set (s : SymbolSet) : Leaf rule (.set s) (.set · s)
  | notSet (s : SymbolSet) : Leaf rule (.notSet s) (.notSet · s)
  | wildcard : Leaf rule .wildcard .wildcard
  | blank {text : String} : text.toList = [] → Leaf rule (.literal text) .epsilon
  | seq : Leaf rule (.seq []) .epsilon
  | alt : Leaf rule (.alt []) .epsilon
  | predicate (pred : Nat) (contextual : Bool) :
      Leaf rule (.predicate pred contextual) (.predicate · rule pred contextual)
  | precedence (level : Int) : Leaf rule (.precedence level) (.precedence · level)
  | action (action command : Nat) : Leaf rule (.action action) (.action · rule command false)
  | command (c : Command) (i : Nat) : Leaf rule (.command c) (.action · rule i false)
  | epsilon : Leaf rule .epsilon .epsilon

/-- The rule of a name and its start state. -/
structure Draft.Names (d : Draft) (name : String) (callee : Nat) (start : StateId) : Prop where
  name_eq : d.ruleNames.idxOf? name = some callee
  start_eq : (d.ruleStarts[callee]?).getD 0 = start

/-- The transition to `p` comes from the element, which is a leaf, a character of a text or a
call. -/
inductive Draft.Comes (d : Draft) (rule : Nat) (p : StateId) : Element → Transition → Prop where
  | leaf {e : Element} {t : StateId → Transition} : e.Leaf rule t → Comes d rule p e (t p)
  | char {text : String} {c : Char} :
      c ∈ text.toList → Comes d rule p (.literal text) (.atom p c.toNat)
  | call {name : String} {callee : Nat} {start : StateId} {level : Int} :
      d.Names name callee start →
        Comes d rule p (.ruleRef name level) (.rule start callee p level)

/-- Whether a kind is that of a state inside a rule. -/
def StateKind.isInner : StateKind → Bool
  | ruleStart | ruleStop | tokensStart => false
  | _ => true

/-- **The state is wired** within a rule whose body is made of some parts. -/
structure Draft.Wired (d : Draft) (rule : Nat) (parts : List Element) (q : StateId) : Prop where
  rule_eq : (d.state q).rule = rule
  inner : (d.state q).kind.isInner = true
  greedy : (d.state q).nonGreedy = true → ∃ e ∈ parts, e.isLazy = true
  /-- A state with several ways on is a decision. -/
  plain : (d.state q).decision = none → (d.ways q).length ≤ 1
  ways : (∀ t ∈ d.ways q, ∃ p, t = .epsilon p ∧ d.Owns rule p) ∨
    (d.state q).decision = none ∧ ∃ t p, d.ways q = [t] ∧ d.Owns rule p ∧
      ∃ e ∈ parts, d.Comes rule p e t

namespace Draft

variable {touched : StateId → Prop} {d d' : Draft} {rule : Nat} {parts parts' : List Element}
  {q : StateId}

theorem Names.adds {name : String} {callee : Nat} {start : StateId} (h : d.Names name callee start)
    (hadds : Adds touched d d') : d'.Names name callee start :=
  ⟨hadds.names_eq ▸ h.name_eq, hadds.starts_eq ▸ h.start_eq⟩

theorem Comes.adds {p : StateId} {e : Element} {t : Transition} (h : d.Comes rule p e t)
    (hadds : Adds touched d d') : d'.Comes rule p e t := by
  cases h with
  | leaf h => exact .leaf h
  | char h => exact .char h
  | call h => exact .call (h.adds hadds)

/-- Calls come from references to rules. -/
theorem Comes.of_call {p start follow : StateId} {e : Element} {t : Transition} {callee : Nat}
    {level : Int} (h : d.Comes rule p e t) (ht : t = .rule start callee follow level) :
    ∃ name, e = .ruleRef name level ∧ p = follow ∧ d.Names name callee start := by
  cases h with
  | leaf hleaf => cases hleaf <;> cases ht
  | char => cases ht
  | call hn =>
    cases ht
    exact ⟨_, rfl, rfl, hn⟩

/-- Conditions on the precedence come from such elements. -/
theorem Comes.of_precedence {p target : StateId} {e : Element} {t : Transition} {level : Int}
    (h : d.Comes rule p e t) (ht : t = .precedence target level) : e = .precedence level := by
  cases h with
  | leaf hleaf => cases hleaf <;> cases ht; rfl
  | char => cases ht
  | call => cases ht

/-- A state that is not touched stays wired. -/
theorem Wired.adds (h : d.Wired rule parts q) (hadds : Adds touched d d') (hq : q < d.size)
    (hne : ¬touched q) : d'.Wired rule parts q where
  rule_eq := (hadds.rule_eq q hq).trans h.rule_eq
  inner := hadds.kind_eq q hq ▸ h.inner
  greedy := hadds.keeps q hq hne ▸ h.greedy
  plain := by
    rw [hadds.ways_eq hq hne, hadds.keeps q hq hne]
    exact h.plain
  ways := by
    rw [hadds.ways_eq hq hne, hadds.keeps q hq hne]
    refine h.ways.imp (fun hall t ht => ?_) fun ⟨hnone, t, p, heq, hp, e, he, hcomes⟩ => ?_
    · obtain ⟨p, hp, hown⟩ := hall t ht
      exact ⟨p, hp, hown.adds hadds⟩
    · exact ⟨hnone, t, p, heq, hp.adds hadds, e, he, hcomes.adds hadds⟩

/-- A state inside a rule belongs to it. -/
theorem Owns.of_inner (hq : q < d.size) (hrule : (d.state q).rule = rule)
    (hinner : (d.state q).kind.isInner = true) : d.Owns rule q where
  lt := hq
  rule_eq := hrule
  kind_ne hkind := by
    rw [hkind] at hinner
    cases hinner

/-- A wired state belongs to its rule. -/
theorem Wired.owns (h : d.Wired rule parts q) (hq : q < d.size) : d.Owns rule q :=
  .of_inner hq h.rule_eq h.inner

/-- A state is wired as long as it is bare. -/
theorem Wired.of_basic (h : d.state q = { index := q, kind := .basic, rule }) :
    d.Wired rule parts q where
  rule_eq := by rw [h]
  inner := by rw [h]; rfl
  greedy := by rw [h]; nofun
  plain _ := by rw [Draft.ways, h]; exact Nat.zero_le _
  ways := .inl (by rw [Draft.ways, h]; nofun)

theorem Wired.mono (h : d.Wired rule parts q) (hsub : parts ⊆ parts') :
    d.Wired rule parts' q where
  rule_eq := h.rule_eq
  inner := h.inner
  greedy hlazy := by
    obtain ⟨e, he, hel⟩ := h.greedy hlazy
    exact ⟨e, hsub he, hel⟩
  plain := h.plain
  ways := h.ways.imp_right fun ⟨hnone, t, p, heq, hp, e, he, hcomes⟩ =>
    ⟨hnone, t, p, heq, hp, e, hsub he, hcomes⟩

end Draft

/-! ## Parts of a layout -/

namespace Layout

variable {α β : Type}

/-- **What a part of a layout has done,** if it is not refused. -/
def Lays (m : Layout α) (d : Draft) (Q : α → Draft → Prop) : Prop :=
  match m.run d with
  | .ok a d' => Q a d'
  | .error _ _ => True

namespace Lays

variable {m : Layout α} {f : α → Layout β} {d : Draft} {Q Q' : α → Draft → Prop}
  {R : β → Draft → Prop}

theorem pure {a : α} (h : Q a d) : Lays (pure a) d Q := h

theorem throw {e : NetworkError} : Lays (throw e : Layout α) d Q := trivial

theorem get {Q : Draft → Draft → Prop} (h : Q d d) : Lays MonadState.get d Q := h

theorem modifyGet {g : Draft → α × Draft} (h : Q (g d).1 (g d).2) :
    Lays (MonadStateOf.modifyGet g : Layout α) d Q := h

theorem any : Lays m d fun _ _ => True := by
  unfold Lays
  split <;> trivial

theorem mono (h : Lays m d Q) (himp : ∀ a d', Q a d' → Q' a d') : Lays m d Q' := by
  unfold Lays at h ⊢
  cases hm : m.run d with
  | ok a d' =>
    rw [hm] at h
    exact himp a d' h
  | error e d' => trivial

theorem and (h : Lays m d Q) (h' : Lays m d Q') : Lays m d fun a d' => Q a d' ∧ Q' a d' := by
  unfold Lays at h h' ⊢
  cases hm : m.run d with
  | ok a d' =>
    rw [hm] at h h'
    exact ⟨h, h'⟩
  | error e d' => trivial

theorem bind (h : Lays m d Q) (hf : ∀ a d', Q a d' → Lays (f a) d' R) : Lays (m >>= f) d R := by
  unfold Lays at h
  cases hm : m.run d with
  | error e d' =>
    have hrun : (m >>= f).run d = .error e d' := by
      change EStateM.bind m f d = _
      unfold EStateM.bind
      rw [show m d = .error e d' from hm]
    unfold Lays
    rw [hrun]
    trivial
  | ok a d' =>
    have hrun : (m >>= f).run d = (f a).run d' := by
      change EStateM.bind m f d = _
      unfold EStateM.bind
      rw [show m d = .ok a d' from hm]
      rfl
    rw [hm] at h
    have hfa := hf a d' h
    unfold Lays at hfa ⊢
    rwa [hrun]

/-- What a layout that is not refused is seen to have done. -/
theorem apply (h : Lays m d Q) {a : α} {d' : Draft} (hrun : m.run d = .ok a d') : Q a d' := by
  unfold Lays at h
  rwa [hrun] at h

/-- **The rule of the walk through a list.** The invariant speaks of what is done already. -/
theorem forM {g : α → Layout PUnit} {l : List α} (I : List α → Draft → Prop)
    (hg : ∀ done a rest, l = done ++ a :: rest → ∀ d', I done d' →
      Lays (g a) d' fun _ => I (done ++ [a]))
    (h : I [] d) : Lays (l.forM g) d fun _ => I l := by
  suffices hsuffix : ∀ rest done d, l = done ++ rest → I done d →
      Lays (rest.forM g) d fun _ => I l from hsuffix l [] d rfl h
  intro rest
  induction rest with
  | nil =>
    intro done d hl h
    rw [hl, List.append_nil]
    exact .pure h
  | cons a rest ih =>
    intro done d hl h
    exact (hg done a rest hl d h).bind fun _ d' h' =>
      ih (done ++ [a]) d' (by rw [hl, List.append_assoc]; rfl) h'

end Lays

end Layout

end AdaptiveLL
