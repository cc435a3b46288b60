import AdaptiveLL.Grammar.Element

/-!
# The language of a grammar

What the elements of a grammar stand for: sets of words over symbols from `lo` to `hi`. They are the
least ones in which a reference to a rule stands for what the body of the rule stands for. Guards,
actions and commands stand for the empty word.
-/

namespace AdaptiveLL

namespace Element

/-- Whether the element stands for the word of this one symbol. -/
def accepts (e : Element) (v lo hi : Symbol) : Bool :=
  match e with
  | token label => label == v
  | range start stop => start ≤ v && v ≤ stop
  | set s => s.contains v
  | notSet s => lo ≤ v && v ≤ hi && !s.contains v
  | wildcard => lo ≤ v && v ≤ hi
  | _ => false

/-- Whether the element stands for the empty word alone, whatever else it does. -/
def isSilent : Element → Bool
  | predicate .. | precedence _ | action _ | command _ | epsilon => true
  | _ => false

/-- Whether the element is a condition. -/
def isGuard : Element → Bool
  | predicate .. | precedence _ => true
  | _ => false

/-- Whether the element is an option or a loop that would rather be left. -/
def isLazy : Element → Bool
  | optional _ greedy | star _ greedy | plus _ greedy => !greedy
  | _ => false

/-- Whether the element calls the rule of a name. -/
def calls (name : String) : Element → Bool
  | ruleRef callee _ => callee == name
  | _ => false

mutual

/-- The element and all that it is made of. -/
def parts : Element → List Element
  | seq es => seq es :: partsOf es
  | alt es => alt es :: partsOf es
  | optional e greedy => optional e greedy :: parts e
  | star e greedy => star e greedy :: parts e
  | plus e greedy => plus e greedy :: parts e
  | e => [e]
termination_by structural e => e

/-- The elements of a list and all that they are made of. -/
def partsOf : List Element → List Element
  | [] => []
  | e :: es => parts e ++ partsOf es
termination_by structural es => es

end

/-- The alternatives between which an option or a loop around the element decides. -/
def choices : Element → List Element
  | alt (e :: rest) => e :: rest
  | e => [e]

theorem choices_ne_nil (e : Element) : e.choices ≠ [] := by
  unfold choices
  split <;> exact List.cons_ne_nil _ _

theorem self_mem_parts (e : Element) : e ∈ e.parts := by
  cases e <;> simp [parts]

theorem parts_subset_partsOf {e : Element} {es : List Element} (h : e ∈ es) :
    e.parts ⊆ partsOf es := by
  induction es with
  | nil => cases h
  | cons e' es ih =>
    intro x hx
    rw [partsOf, List.mem_append]
    rcases List.mem_cons.mp h with rfl | h
    · exact .inl hx
    · exact .inr (ih h hx)

/-- What the alternatives are made of the element is made of. -/
theorem partsOf_choices_subset (e : Element) : partsOf e.choices ⊆ e.parts := by
  intro x hx
  unfold choices at hx
  split at hx
  · exact List.mem_cons_of_mem _ hx
  · simpa [partsOf] using hx

/-! ## Sizes -/

theorem sizeOf_lt_of_mem_seq {e : Element} {es : List Element} (h : e ∈ es) :
    sizeOf e < sizeOf (seq es) := by
  have hlt := List.sizeOf_lt_of_mem h
  rw [seq.sizeOf_spec]
  omega

theorem sizeOf_lt_of_mem_alt {e : Element} {es : List Element} (h : e ∈ es) :
    sizeOf e < sizeOf (alt es) := by
  have hlt := List.sizeOf_lt_of_mem h
  rw [alt.sizeOf_spec]
  omega

theorem sizeOf_lt_optional (body : Element) (greedy : Bool) :
    sizeOf body < sizeOf (optional body greedy) := by
  rw [optional.sizeOf_spec]
  omega

theorem sizeOf_lt_star (body : Element) (greedy : Bool) :
    sizeOf body < sizeOf (star body greedy) := by
  rw [star.sizeOf_spec]
  omega

theorem sizeOf_lt_plus (body : Element) (greedy : Bool) :
    sizeOf body < sizeOf (plus body greedy) := by
  rw [plus.sizeOf_spec]
  omega

theorem sizeOf_le_of_mem_choices {e e' : Element} (h : e' ∈ e.choices) :
    sizeOf e' ≤ sizeOf e := by
  unfold choices at h
  split at h
  · exact Nat.le_of_lt (sizeOf_lt_of_mem_alt h)
  · exact Nat.le_of_eq (congrArg sizeOf (List.mem_singleton.mp h))

end Element

namespace Grammar

/-- **The words an element stands for,** over the symbols from `lo` to `hi`. -/
inductive Denotes (g : Grammar) (lo hi : Symbol) : Element → List Symbol → Prop where
  | symbol {e : Element} {v : Symbol} : e.accepts v lo hi = true → Denotes g lo hi e [v]
  | silent {e : Element} : e.isSilent = true → Denotes g lo hi e []
  | literal (text : String) :
      Denotes g lo hi (.literal text) (text.toList.map fun c => (c.toNat : Symbol))
  | ruleRef {r : Rule} {level : Int} {w : List Symbol} :
      r ∈ g.rules → Denotes g lo hi r.body w → Denotes g lo hi (.ruleRef r.name level) w
  | seq_nil : Denotes g lo hi (.seq []) []
  | seq_cons {e : Element} {es : List Element} {u w : List Symbol} :
      Denotes g lo hi e u → Denotes g lo hi (.seq es) w → Denotes g lo hi (.seq (e :: es)) (u ++ w)
  | alt_nil : Denotes g lo hi (.alt []) []
  | alt {e : Element} {es : List Element} {w : List Symbol} :
      e ∈ es → Denotes g lo hi e w → Denotes g lo hi (.alt es) w
  | skip {e : Element} {greedy : Bool} : Denotes g lo hi (.optional e greedy) []
  | optional {e : Element} {greedy : Bool} {w : List Symbol} :
      Denotes g lo hi e w → Denotes g lo hi (.optional e greedy) w
  | star_nil {e : Element} {greedy : Bool} : Denotes g lo hi (.star e greedy) []
  | star_cons {e : Element} {greedy : Bool} {u w : List Symbol} :
      Denotes g lo hi e u → Denotes g lo hi (.star e greedy) w →
        Denotes g lo hi (.star e greedy) (u ++ w)
  | plus {e : Element} {greedy : Bool} {u w : List Symbol} :
      Denotes g lo hi e u → Denotes g lo hi (.star e greedy) w →
        Denotes g lo hi (.plus e greedy) (u ++ w)

/-- All that the rules of the grammar are made of. -/
def parts (g : Grammar) : List Element := g.rules.flatMap fun r => r.body.parts

variable {g : Grammar} {lo hi : Symbol} {e : Element} {w : List Symbol}

/-- An alternative of an element stands for nothing that the element does not stand for. -/
theorem Denotes.of_mem_choices {e' : Element} (he : e' ∈ e.choices) (h : g.Denotes lo hi e' w) :
    g.Denotes lo hi e w := by
  unfold Element.choices at he
  split at he
  · exact .alt he h
  · rwa [List.mem_singleton.mp he] at h

/-- A loop that is run at least once is a loop. -/
theorem Denotes.of_plus {greedy : Bool} (h : g.Denotes lo hi (.plus e greedy) w) :
    g.Denotes lo hi (.star e greedy) w := by
  cases h with
  | symbol h => cases h
  | silent h => cases h
  | plus hu hw => exact .star_cons hu hw

/-- A sequence that ends with a symbol. -/
theorem denotes_seq_token {es : List Element} {v : Symbol} :
    g.Denotes lo hi (.seq (es ++ [.token v])) w ↔
      ∃ u, w = u ++ [v] ∧ g.Denotes lo hi (.seq es) u := by
  induction es generalizing w with
  | nil =>
    constructor
    · intro h
      cases h with
      | symbol h => cases h
      | silent h => cases h
      | seq_cons hv hnil =>
        cases hv with
        | symbol hacc =>
          cases hnil with
          | symbol h => cases h
          | silent h => cases h
          | seq_nil => exact ⟨[], by rw [← beq_iff_eq.mp hacc]; rfl, .seq_nil⟩
        | silent h => cases h
    · rintro ⟨u, rfl, hu⟩
      cases hu with
      | symbol h => cases h
      | silent h => cases h
      | seq_nil => exact .seq_cons (u := [v]) (.symbol (beq_self_eq_true v)) .seq_nil
  | cons e es ih =>
    constructor
    · intro h
      cases h with
      | symbol h => cases h
      | silent h => cases h
      | seq_cons he hrest =>
        obtain ⟨u, rfl, hu⟩ := ih.mp hrest
        exact ⟨_, (List.append_assoc ..).symm, .seq_cons he hu⟩
    · rintro ⟨u, rfl, hu⟩
      cases hu with
      | symbol h => cases h
      | silent h => cases h
      | seq_cons he hrest =>
        rw [List.append_assoc]
        exact .seq_cons he (ih.mpr ⟨_, rfl, hrest⟩)

end Grammar

end AdaptiveLL
