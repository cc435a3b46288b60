import AdaptiveLL.Proofs.Network.Walks
import AdaptiveLL.Proofs.SymbolSet

/-!
# What look-ahead finds

A stand *offers* the symbols of the transitions on which its state goes on by consuming one; at the
end of the last rule of its stack it offers the symbol that stands for whatever comes after it. If no
rule re-enters itself before a symbol is consumed, the look-ahead from a stand finds exactly what the
stands offer that can be reached from it without consuming anything.

The walk leaves out the calls of rules with a pending call. Without re-entry there are none to leave
out: the rules whose calls are pending are nested in one another, so they differ, and the one called
next differs from all of them. That they are pending is read off the stack, since the rule that ends
is always the one called last.
-/

namespace AdaptiveLL

namespace Network

variable {net : Network}

/-- The state goes on by consuming the symbol. -/
def Takes (net : Network) (q : StateId) (v : Symbol) : Prop :=
  net.isStop q = false ∧
    ∃ t ∈ (net.state q).transitions, t.isEpsilon = false ∧ v ∈ net.consumed t

/-- **What a stand offers.** -/
def Offers (net : Network) (below : Symbol) (c : Stand) (v : Symbol) : Prop :=
  (net.isStop c.1 = true ∧ c.2 = [] ∧ v = below) ∨ net.Takes c.1 v

/-! ## Calls without re-entry -/

/-- Without re-entry the rule that ends was called last, or before the walk began. -/
theorem Nested.returned {initial : List StateId} {q r : StateId} {σ : List StateId}
    {rules : List Nat} (h : net.Nested false (q, r :: σ) rules)
    (hpending : net.Pending initial (q, r :: σ) rules) (hq : net.isStop q = true) :
    net.Nested false (r, σ) (rules.filter (· != (net.state q).rule)) := by
  cases hpending with
  | base => exact .base _
  | call _ _ _ _ hnew =>
    rw [filter_last hnew]
    exact h.back hq

/-- **The rules with a pending call,** all of whose calls were made without consuming anything. -/
structure Underway (net : Network) (initial : List StateId) (c : Stand) (called : List Nat) :
    Prop where
  pending : net.Pending initial c called
  nested : net.Nested false c called

namespace Underway

variable {initial : List StateId} {q : StateId} {σ : List StateId} {called : List Nat}

theorem along (hsec : net.Sectioned) (h : net.Underway initial (q, σ) called)
    (hq : net.isStop q = false) {t : Transition} (ht : t ∈ (net.state q).transitions)
    (heps : t.isEpsilon = true) (hrule : t.isRule = false) :
    net.Underway initial (t.target, σ) called where
  pending := h.pending.along hsec hq ht hrule
  nested := by
    apply h.nested.move
    apply Relation.ReflTransGen.single
    exact .along (fun hs => by simp [hq] at hs) ht (Transition.onward_epsilon heps hrule _ _)

/-- **No call is one of a rule with a pending call.** -/
theorem notMem (hnet : net.Consistent) (hno : net.NoReentryBy false)
    (h : net.Underway initial (q, σ) called) (hq : net.isStop q = false) {target follow : StateId}
    {rule : Nat} {level : Int}
    (ht : .rule target rule follow level ∈ (net.state q).transitions) : rule ∉ called := by
  have hnodup := (h.nested.enter hq ht).nodup hnet hno
  exact (List.nodup_cons.mp hnodup).1

theorem enter (hnet : net.Consistent) (hsec : net.Sectioned) (hno : net.NoReentryBy false)
    (h : net.Underway initial (q, σ) called) (hq : net.isStop q = false) {target follow : StateId}
    {rule : Nat} {level : Int}
    (ht : .rule target rule follow level ∈ (net.state q).transitions) :
    net.Underway initial (target, follow :: σ) (rule :: called) where
  pending := h.pending.enter hnet hsec ht (h.notMem hnet hno hq ht)
  nested := h.nested.enter hq ht

theorem back {r : StateId} (h : net.Underway initial (q, r :: σ) called)
    (hq : net.isStop q = true) :
    net.Underway initial (r, σ) (called.filter (· != (net.state q).rule)) where
  pending := h.pending.back
  nested := h.nested.returned h.pending hq

end Underway

/-! ## The findings of a walk -/

/-- **Nothing was found that is not there.** The symbols found are offered by stands that can be
reached from the first one. -/
structure Found (net : Network) (below : Symbol) (start : Stand) (look : Look) : Prop where
  canonical : look.symbols.Canonical
  reached : ∀ c ∈ look.seen, Relation.ReflTransGen (net.Hop true false) start c
  offered : ∀ v ∈ look.symbols,
    ∃ c, Relation.ReflTransGen (net.Hop true false) start c ∧ net.Offers below c v

/-- **From one finding to the next all that is new was followed up.** -/
structure Explores (net : Network) (below : Symbol) (look look' : Look) : Prop where
  seen : look.seen ⊆ look'.seen
  symbols : ∀ v ∈ look.symbols, v ∈ look'.symbols
  hops : ∀ c ∈ look'.seen, c ∉ look.seen → ∀ d, net.Hop true false c d → d ∈ look'.seen
  offers : ∀ c ∈ look'.seen, c ∉ look.seen → ∀ v, net.Offers below c v → v ∈ look'.symbols

/-- A transition was followed up from under a stack. -/
structure Followed (net : Network) (σ : List StateId) (look : Look) (t : Transition) : Prop where
  hop : ∀ d, t.onward false σ = some d → d ∈ look.seen
  consumed : t.isEpsilon = false → ∀ v ∈ net.consumed t, v ∈ look.symbols

variable {below : Symbol} {start : Stand} {look look' look'' : Look}

namespace Explores

theorem refl (net : Network) (below : Symbol) (look : Look) : net.Explores below look look where
  seen := List.Subset.refl _
  symbols _ hv := hv
  hops _ hc hnot := absurd hc hnot
  offers _ hc hnot := absurd hc hnot

theorem trans (h : net.Explores below look look') (h' : net.Explores below look' look'') :
    net.Explores below look look'' where
  seen := List.Subset.trans h.seen h'.seen
  symbols v hv := h'.symbols v (h.symbols v hv)
  hops c hc hnot d hhop := by
    by_cases hmid : c ∈ look'.seen
    · exact h'.seen (h.hops c hmid hnot d hhop)
    · exact h'.hops c hc hmid d hhop
  offers c hc hnot v hv := by
    by_cases hmid : c ∈ look'.seen
    · exact h'.symbols v (h.offers c hmid hnot v hv)
    · exact h'.offers c hc hmid v hv

/-- A stand was come to, and then followed up. -/
theorem visit {c : Stand}
    (h : net.Explores below { look with seen := c :: look.seen } look')
    (hhops : ∀ d, net.Hop true false c d → d ∈ look'.seen)
    (hoffers : ∀ v, net.Offers below c v → v ∈ look'.symbols) :
    net.Explores below look look' where
  seen := List.Subset.trans (List.subset_cons_self _ _) h.seen
  symbols := h.symbols
  hops d hd hnot := by
    by_cases hdc : d = c
    · rw [hdc]
      exact hhops
    · exact h.hops d hd fun hmem => (List.mem_cons.mp hmem).elim hdc hnot
  offers d hd hnot := by
    by_cases hdc : d = c
    · rw [hdc]
      exact hoffers
    · exact h.offers d hd fun hmem => (List.mem_cons.mp hmem).elim hdc hnot

end Explores

theorem Followed.mono {σ : List StateId} {t : Transition} (h : net.Followed σ look t)
    (hext : net.Explores below look look') : net.Followed σ look' t where
  hop d hd := hext.seen (h.hop d hd)
  consumed heps v hv := hext.symbols v (h.consumed heps v hv)

namespace Found

theorem empty (net : Network) (below : Symbol) (start : Stand) : net.Found below start {} where
  canonical := .empty
  reached _ hc := absurd hc List.not_mem_nil
  offered v hv := absurd hv (SymbolSet.not_mem_empty v)

theorem visit (h : net.Found below start look) {c : Stand}
    (hc : Relation.ReflTransGen (net.Hop true false) start c) :
    net.Found below start { look with seen := c :: look.seen } where
  canonical := h.canonical
  reached := List.forall_mem_cons.mpr ⟨hc, h.reached⟩
  offered := h.offered

/-- The symbols that a stand offers are added. -/
theorem add (h : net.Found below start look) {c : Stand}
    (hc : Relation.ReflTransGen (net.Hop true false) start c) {symbols : SymbolSet}
    (hcanonical : symbols.Canonical)
    (hsymbols : ∀ v ∈ symbols, v ∈ look.symbols ∨ net.Offers below c v) :
    net.Found below start { look with symbols := symbols } where
  canonical := hcanonical
  reached := h.reached
  offered v hv := (hsymbols v hv).elim (h.offered v) fun hoffers => ⟨c, hc, hoffers⟩

end Found

/-! ## The walk -/

section

variable {initial : List StateId}

/-- **What a walk finds** with some amount of fuel, if it returns. -/
private def Lists (net : Network) (below : Symbol) (start : Stand) (initial : List StateId)
    (fuel : Nat) : Prop :=
  ∀ {q : StateId} {σ : List StateId} {called : List Nat} {look look' : Look},
    net.Found below start look → Relation.ReflTransGen (net.Hop true false) start (q, σ) →
      net.Underway initial (q, σ) called → net.walk below fuel q σ called look = some look' →
        net.Found below start look' ∧ net.Explores below look look' ∧ (q, σ) ∈ look'.seen

private theorem walkAlong_finds (hnet : net.Consistent) (hsec : net.Sectioned)
    (hno : net.NoReentryBy false) {fuel : Nat} (hwalk : net.Lists below start initial fuel)
    (hfound : net.Found below start look) {q : StateId} {σ : List StateId} {called : List Nat}
    (hreach : Relation.ReflTransGen (net.Hop true false) start (q, σ))
    (h : net.Underway initial (q, σ) called) (hq : net.isStop q = false) {t : Transition}
    (ht : t ∈ (net.state q).transitions)
    (hrun : net.walkAlong (net.walk below fuel) σ called look t = some look') :
    net.Found below start look' ∧ net.Explores below look look' ∧ net.Followed σ look' t := by
  have hhop : ∀ {d : Stand}, t.onward false σ = some d →
      Relation.ReflTransGen (net.Hop true false) start d := fun hon =>
    hreach.tail (.along (fun hs => by simp [hq] at hs) ht hon)
  cases heps : t.isEpsilon with
  | false =>
    rw [walkAlong_match heps] at hrun
    obtain rfl := Option.some.inj hrun
    refine ⟨hfound.add hreach (hfound.canonical.union _) fun v hv => ?_, ⟨?_, ?_, ?_, ?_⟩, ?_, ?_⟩
    · rcases (SymbolSet.mem_union hfound.canonical).mp hv with hv | hv
      · exact .inl hv
      · exact .inr (.inr ⟨hq, t, ht, heps, hv⟩)
    · exact List.Subset.refl _
    · exact fun v hv => (SymbolSet.mem_union hfound.canonical).mpr (.inl hv)
    · exact fun _ hc hnot => absurd hc hnot
    · exact fun _ hc hnot => absurd hc hnot
    · intro d hd
      rw [Transition.onward_match heps] at hd
      cases hd
    · exact fun _ v hv => (SymbolSet.mem_union hfound.canonical).mpr (.inr hv)
  | true =>
    have hnone : t.isEpsilon = false → ∀ v ∈ net.consumed t, v ∈ look'.symbols := by simp [heps]
    cases hrule : t.isRule with
    | false =>
      have hon := Transition.onward_epsilon heps hrule false σ
      rw [walkAlong_epsilon heps hrule] at hrun
      obtain ⟨hfound', hext, hmem⟩ :=
        hwalk hfound (hhop hon) (h.along hsec hq ht heps hrule) hrun
      refine ⟨hfound', hext, fun d hd => ?_, hnone⟩
      obtain rfl := Option.some.inj (hon.symm.trans hd)
      exact hmem
    | true =>
      cases t with
      | rule target rule follow level =>
        have hnew := h.notMem hnet hno hq ht
        rw [walkAlong_call, if_neg (by simpa using hnew)] at hrun
        obtain ⟨hfound', hext, hmem⟩ :=
          hwalk hfound (hhop rfl) (h.enter hnet hsec hno hq ht) hrun
        refine ⟨hfound', hext, fun d hd => ?_, hnone⟩
        obtain rfl := Option.some.inj hd
        exact hmem
      | _ => cases hrule

private theorem walkAll_finds (hnet : net.Consistent) (hsec : net.Sectioned)
    (hno : net.NoReentryBy false) {fuel : Nat} (hwalk : net.Lists below start initial fuel)
    {q : StateId} {σ : List StateId} {called : List Nat}
    (hreach : Relation.ReflTransGen (net.Hop true false) start (q, σ))
    (h : net.Underway initial (q, σ) called) (hq : net.isStop q = false) {ts : List Transition}
    (hts : ∀ t ∈ ts, t ∈ (net.state q).transitions) (hfound : net.Found below start look)
    (hrun : net.walkAll below fuel ts σ called look = some look') :
    net.Found below start look' ∧ net.Explores below look look' ∧
      ∀ t ∈ ts, net.Followed σ look' t := by
  induction ts generalizing look with
  | nil =>
    rw [walkAll] at hrun
    obtain rfl := Option.some.inj hrun
    exact ⟨hfound, .refl net below look, List.forall_mem_nil _⟩
  | cons t ts ih =>
    obtain ⟨ht, hts⟩ := List.forall_mem_cons.mp hts
    rw [walkAll_cons] at hrun
    obtain ⟨mid, hmid, hrest⟩ := Option.bind_eq_some_iff.mp hrun
    obtain ⟨hfound₁, hext₁, hfollowed⟩ :=
      walkAlong_finds hnet hsec hno hwalk hfound hreach h hq ht hmid
    obtain ⟨hfound₂, hext₂, hall⟩ := ih hts hfound₁ hrest
    exact ⟨hfound₂, hext₁.trans hext₂, List.forall_mem_cons.mpr ⟨hfollowed.mono hext₂, hall⟩⟩

/-- **A walk finds what is there and follows up all that it comes to.** -/
private theorem walk_finds (hnet : net.Consistent) (hsec : net.Sectioned)
    (hno : net.NoReentryBy false) (fuel : Nat) : net.Lists below start initial fuel := by
  -- On the fuel. A stand is seen before the ways on from it are taken, so what they find is found
  -- on top of it; that it is followed up itself is what they answer for.
  induction fuel with
  | zero =>
    intro q σ called look look' _ _ _ hrun
    rw [walk] at hrun
    cases hrun
  | succ fuel ih =>
    intro q σ called look look' hfound hreach h hrun
    rw [walk] at hrun
    split at hrun
    · next hseen =>
      obtain rfl := Option.some.inj hrun
      exact ⟨hfound, .refl net below look, by simpa using hseen⟩
    · dsimp only at hrun
      have hvisited := hfound.visit hreach
      split at hrun
      · next hstop =>
        cases σ with
        | nil =>
          -- Nothing leads on from here, and what comes next is unknown.
          obtain rfl := Option.some.inj hrun
          refine ⟨hvisited.add hreach (hvisited.canonical.insert below) fun v hv => ?_,
            ⟨List.subset_cons_self _ _, fun v hv => ?_, fun c hc hnot d hhop => ?_,
              fun c hc hnot v hv => ?_⟩, List.mem_cons_self ..⟩
          · rcases (SymbolSet.mem_insert hvisited.canonical).mp hv with hv | rfl
            · exact .inl hv
            · exact .inr (.inl ⟨hstop, rfl, rfl⟩)
          · exact (SymbolSet.mem_insert hvisited.canonical).mpr (.inl hv)
          · obtain rfl := (List.mem_cons.mp hc).resolve_right hnot
            rcases hhop.along_or_back with ⟨hq, -⟩ | ⟨-, heq⟩
            · exact absurd (hq.symm.trans hstop) Bool.false_ne_true
            · cases heq
          · obtain rfl := (List.mem_cons.mp hc).resolve_right hnot
            rcases hv with ⟨-, -, rfl⟩ | ⟨hq, -⟩
            · exact (SymbolSet.mem_insert hvisited.canonical).mpr (.inr rfl)
            · exact absurd (hq.symm.trans hstop) Bool.false_ne_true
        | cons r σ =>
          obtain ⟨hfound', hext, hmem⟩ :=
            ih hvisited (hreach.tail (.back hstop)) (h.back hstop) hrun
          refine ⟨hfound', hext.visit (fun d hhop => ?_) (fun v hv => ?_),
            hext.seen (List.mem_cons_self ..)⟩
          · rcases hhop.along_or_back with ⟨hq, -⟩ | ⟨-, heq⟩
            · exact absurd (hq.symm.trans hstop) Bool.false_ne_true
            · obtain ⟨rfl, rfl⟩ := List.cons.inj heq
              exact hmem
          · rcases hv with ⟨-, hnil, -⟩ | ⟨hq, -⟩
            · cases hnil
            · exact absurd (hq.symm.trans hstop) Bool.false_ne_true
      · next hstop =>
        have hq : net.isStop q = false := Bool.eq_false_of_not_eq_true hstop
        obtain ⟨hfound', hext, hall⟩ :=
          walkAll_finds hnet hsec hno ih hreach h hq (fun t ht => ht) hvisited hrun
        refine ⟨hfound', hext.visit (fun d hhop => ?_) (fun v hv => ?_),
          hext.seen (List.mem_cons_self ..)⟩
        · rcases hhop.along_or_back with ⟨-, t, ht, hon⟩ | ⟨hs, -⟩
          · exact (hall t ht).hop d hon
          · exact absurd (hq.symm.trans hs) Bool.false_ne_true
        · rcases hv with ⟨hs, -⟩ | ⟨-, t, ht, heps, hv⟩
          · exact absurd (hq.symm.trans hs) Bool.false_ne_true
          · exact (hall t ht).consumed heps v hv

end

/-! ## Look-ahead -/

/-- The look-ahead from a stand, together with what it has seen. -/
private theorem exists_found (hnet : net.Consistent) (hsec : net.Sectioned)
    (hno : net.NoReentryBy false) (below : Symbol) (q : StateId) (stack : List StateId) :
    ∃ look : Look, net.look below q stack = look.symbols ∧ net.Found below (q, stack) look ∧
      net.Explores below {} look ∧ (q, stack) ∈ look.seen := by
  obtain ⟨look, hrun⟩ := exists_walk hnet hsec below q stack
  refine ⟨look, ?_, ?_⟩
  · rw [Network.look, hrun]
    rfl
  · exact walk_finds hnet hsec hno _ (.empty net below _) .refl
      ⟨.base (List.suffix_refl stack), .base _⟩ hrun

theorem look_canonical (hnet : net.Consistent) (hsec : net.Sectioned)
    (hno : net.NoReentryBy false) (below : Symbol) (q : StateId) (stack : List StateId) :
    (net.look below q stack).Canonical := by
  obtain ⟨look, heq, hfound, -⟩ := exists_found hnet hsec hno below q stack
  rw [heq]
  exact hfound.canonical

/-- **Look-ahead finds just what is offered** where the network comes to without consuming anything. -/
theorem mem_look_iff (hnet : net.Consistent) (hsec : net.Sectioned) (hno : net.NoReentryBy false)
    {below : Symbol} {q : StateId} {stack : List StateId} {v : Symbol} :
    v ∈ net.look below q stack ↔
      ∃ c, Relation.ReflTransGen (net.Hop true false) (q, stack) c ∧ net.Offers below c v := by
  obtain ⟨look, heq, hfound, hext, hmem⟩ := exists_found hnet hsec hno below q stack
  rw [heq]
  have hseen : ∀ {c : Stand}, Relation.ReflTransGen (net.Hop true false) (q, stack) c →
      c ∈ look.seen := by
    intro c hrun
    induction hrun with
    | refl => exact hmem
    | tail _ hhop ih => exact hext.hops _ ih List.not_mem_nil _ hhop
  constructor
  · exact hfound.offered v
  · intro ⟨c, hrun, hv⟩
    exact hext.offers c (hseen hrun) List.not_mem_nil v hv

/-! ## One rule after the other -/

/-- **The symbol can come first** within the rule of the state and the rules it calls. -/
def First (net : Network) (q : StateId) (v : Symbol) : Prop :=
  ∃ c, Relation.ReflTransGen (net.Hop true false) (q, []) c ∧ net.Takes c.1 v

/-- **The end of its rule can be reached** from the state before a symbol is consumed. -/
def CanEnd (net : Network) (q : StateId) : Prop :=
  ∃ s, net.isStop s = true ∧ Relation.ReflTransGen (net.Hop true false) (q, []) (s, [])

/-- Where hops above a call lead: they stay above it, or return from it and go on below. -/
theorem hops_cons {q r : StateId} {ρ : List StateId} {c : Stand}
    (h : Relation.ReflTransGen (net.Hop true false) (q, r :: ρ) c) :
    (∃ τ, c.2 = τ ++ r :: ρ ∧ Relation.ReflTransGen (net.Hop true false) (q, []) (c.1, τ)) ∨
      net.CanEnd q ∧ Relation.ReflTransGen (net.Hop true false) (r, ρ) c := by
  rcases Reads.above_or_returns (σ := []) (Reads.of_hops h) with
    ⟨τ, hτ, hrun⟩ | ⟨s, r', ρ', u, u', hρ, hw, hs, hrun, hrun'⟩
  · exact .inl ⟨τ, hτ, hrun.hops⟩
  · obtain ⟨rfl, rfl⟩ := List.cons.inj hρ
    obtain ⟨rfl, rfl⟩ := List.append_eq_nil_iff.mp hw.symm
    exact .inr ⟨⟨s, hs, hrun.hops⟩, hrun'.hops⟩

/-- What stands for all that comes after the end of a rule, given where its callers go on. -/
def Beyond (net : Network) (below : Symbol) : List StateId → Symbol → Prop
  | [], v => v = below
  | r :: ρ, v => v ∈ net.look below r ρ

/-- **Level by level:** what can come next is what can come first within the rule, or, if its end can
be reached, what comes beyond it. -/
theorem mem_look (hnet : net.Consistent) (hsec : net.Sectioned) (hno : net.NoReentryBy false)
    {below : Symbol} {q : StateId} {stack : List StateId} {v : Symbol} :
    v ∈ net.look below q stack ↔ net.First q v ∨ net.CanEnd q ∧ net.Beyond below stack v := by
  rw [mem_look_iff hnet hsec hno]
  cases stack with
  | nil =>
    constructor
    · intro ⟨c, hrun, hv⟩
      rcases hv with ⟨hstop, hnil, heq⟩ | htakes
      · obtain ⟨s, σ⟩ := c
        obtain rfl : σ = [] := hnil
        exact .inr ⟨⟨s, hstop, hrun⟩, heq⟩
      · exact .inl ⟨c, hrun, htakes⟩
    · intro h
      rcases h with ⟨c, hrun, htakes⟩ | ⟨⟨s, hstop, hrun⟩, heq⟩
      · exact ⟨c, hrun, .inr htakes⟩
      · exact ⟨(s, []), hrun, .inl ⟨hstop, rfl, heq⟩⟩
  | cons r ρ =>
    rw [Beyond, mem_look_iff hnet hsec hno]
    constructor
    · intro ⟨c, hrun, hv⟩
      rcases hops_cons hrun with ⟨τ, hτ, habove⟩ | ⟨hends, hrest⟩
      · -- The stack is not empty, so nothing stands for the rest here.
        rcases hv with ⟨-, hnil, -⟩ | htakes
        · simp [hτ] at hnil
        · exact .inl ⟨_, habove, htakes⟩
      · exact .inr ⟨hends, c, hrest, hv⟩
    · intro h
      rcases h with ⟨c, hrun, htakes⟩ | ⟨⟨s, hstop, hrun⟩, c, hrest, hv⟩
      · exact ⟨_, hops_append hrun (r :: ρ), .inr htakes⟩
      · have hreturn : net.Hop true false (s, r :: ρ) (r, ρ) := .back hstop
        exact ⟨c, ((hops_append hrun (r :: ρ)).tail hreturn).trans hrest, hv⟩

/-! ## The expected symbols -/

/-- **The marker for the end of a rule is no symbol** of the network. -/
def Unmarked (net : Network) : Prop := ∀ q v, net.Takes q v → v ≠ Symbol.ruleEnd

section

variable (hnet : net.Consistent) (hsec : net.Sectioned) (hno : net.NoReentryBy false)
  (hmarker : net.Unmarked)
include hnet hsec hno hmarker

/-- The marker says that the end of the rule can be reached. -/
theorem nextTokens_contains_ruleEnd {q : StateId} :
    (net.nextTokens q).contains Symbol.ruleEnd = true ↔ net.CanEnd q := by
  rw [nextTokens, SymbolSet.contains_iff (look_canonical hnet hsec hno ..),
    mem_look hnet hsec hno]
  constructor
  · intro h
    rcases h with ⟨c, -, htakes⟩ | ⟨hends, -⟩
    · exact absurd rfl (hmarker _ _ htakes)
    · exact hends
  · exact fun hends => .inr ⟨hends, rfl⟩

/-- The other symbols are those that can come first. -/
theorem mem_nextTokens_iff {q : StateId} {v : Symbol} :
    v ∈ net.nextTokens q ∧ v ≠ Symbol.ruleEnd ↔ net.First q v := by
  rw [nextTokens, mem_look hnet hsec hno]
  constructor
  · intro ⟨h, hne⟩
    exact h.resolve_right fun hend => hne hend.2
  · intro hfirst
    obtain ⟨c, -, htakes⟩ := id hfirst
    exact ⟨.inl hfirst, hmarker _ _ htakes⟩

/-- **The climb through the callers** keeps the spans in order and adds what comes beyond the end of
the rule, if that can be reached. -/
private theorem expectedAfter_spec {expected : SymbolSet} (hexpected : expected.Canonical)
    (hunmarked : Symbol.ruleEnd ∉ expected) {q : StateId} {callers : List StateId}
    (hcallers : ∀ c ∈ callers, (net.followOf? c).isSome) :
    (net.expectedAfter expected (net.nextTokens q) callers).Canonical ∧
      ∀ v, v ∈ net.expectedAfter expected (net.nextTokens q) callers ↔
        v ∈ expected ∨
          net.CanEnd q ∧ net.Beyond Symbol.eof (callers.filterMap net.followOf?) v := by
  -- On the callers: each is come to from the end of the rule it called.
  induction callers generalizing expected q with
  | nil =>
    have hcontains := nextTokens_contains_ruleEnd hnet hsec hno hmarker (q := q)
    rw [expectedAfter]
    by_cases hends : net.CanEnd q
    · simp only [hcontains.mpr hends, hends, Bool.not_true, Bool.false_eq_true, if_false,
        List.filterMap_nil, Beyond, true_and]
      exact ⟨hexpected.insert _, fun v => SymbolSet.mem_insert hexpected⟩
    · rw [← hcontains, Bool.not_eq_true] at hends
      simp [hends, ← hcontains, hexpected]
  | cons c callers ih =>
    have hcontains := nextTokens_contains_ruleEnd hnet hsec hno hmarker (q := q)
    obtain ⟨hc, hcallers⟩ := List.forall_mem_cons.mp hcallers
    obtain ⟨r, hr⟩ := Option.isSome_iff_exists.mp hc
    rw [expectedAfter]
    by_cases hends : net.CanEnd q
    · have hunion := hexpected.union (net.nextTokens r)
      have hadded : ∀ v, v ∈ (expected.union (net.nextTokens r)).erase Symbol.ruleEnd ↔
          v ∈ expected ∨ net.First r v := by
        intro v
        rw [SymbolSet.mem_erase, SymbolSet.mem_union hexpected,
          ← mem_nextTokens_iff hnet hsec hno hmarker, or_and_right]
        exact or_congr_left (and_iff_left_of_imp fun hv heq => hunmarked (heq ▸ hv))
      obtain ⟨hcanonical, hmem⟩ := ih (hunion.erase Symbol.ruleEnd)
        (fun hin => (SymbolSet.mem_erase.mp hin).2 rfl) (q := r) hcallers
      simp only [hcontains.mpr hends, hends, Bool.not_true, Bool.false_eq_true, if_false, hr,
        List.filterMap_cons, true_and]
      refine ⟨hcanonical, fun v => ?_⟩
      rw [hmem, hadded, Beyond, mem_look hnet hsec hno, or_assoc]
    · rw [← hcontains, Bool.not_eq_true] at hends
      simp [hends, ← hcontains, hexpected]

/-- **The two ways to look beyond the rule agree:** climbing through the callers finds the same set as
one walk with all the states at which their calls go on. -/
theorem expectedTokens_eq_look {q : StateId} {callers : List StateId}
    (hcallers : ∀ c ∈ callers, (net.followOf? c).isSome) :
    net.expectedTokens q callers = net.nextTokensInContext q callers := by
  have hcontains := nextTokens_contains_ruleEnd hnet hsec hno hmarker (q := q)
  have hnext : (net.nextTokens q).Canonical := look_canonical hnet hsec hno ..
  have hfirst : ∀ v, v ∈ (net.nextTokens q).erase Symbol.ruleEnd ↔ net.First q v := fun v =>
    SymbolSet.mem_erase.trans (mem_nextTokens_iff hnet hsec hno hmarker)
  have hlook : ∀ v, v ∈ net.nextTokensInContext q callers ↔ net.First q v ∨
      net.CanEnd q ∧ net.Beyond Symbol.eof (callers.reverse.filterMap net.followOf?) v := by
    intro v
    rw [nextTokensInContext, mem_look hnet hsec hno, List.filterMap_reverse]
  have hcallers' : ∀ c ∈ callers.reverse, (net.followOf? c).isSome := fun c hc =>
    hcallers c (List.mem_reverse.mp hc)
  obtain ⟨hcanonical, hmem⟩ := expectedAfter_spec hnet hsec hno hmarker
    (hnext.erase Symbol.ruleEnd) (fun hin => (SymbolSet.mem_erase.mp hin).2 rfl) (q := q) hcallers'
  rw [expectedTokens]
  split
  · refine hcanonical.ext (look_canonical hnet hsec hno ..) fun v => ?_
    rw [hmem, hfirst, hlook]
  · next hends =>
    rw [hcontains] at hends
    refine hnext.ext (look_canonical hnet hsec hno ..) fun v => ?_
    rw [hlook, nextTokens, mem_look hnet hsec hno]
    simp [hends]

end

end Network

end AdaptiveLL
