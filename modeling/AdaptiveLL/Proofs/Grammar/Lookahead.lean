import AdaptiveLL.Proofs.Grammar.Shape
import AdaptiveLL.Proofs.Network.Lookahead

/-!
# Look-ahead in compiled networks

The rules of a grammar are sections of its network, whether it describes tokens or texts. If the sets
of symbols in the grammar are canonical, a transition consumes just the symbols that it accepts, so
that what look-ahead finds can be read off the steps of the network: the symbols that can come next
are those accepted where the network comes to without consuming anything.
-/

namespace AdaptiveLL

namespace Transition

/-- Whether the sets of symbols on the transition are canonical. -/
def IsCanonical (t : Transition) : Prop :=
  ∀ s, (∃ p, t = .set p s) ∨ (∃ p, t = .notSet p s) → s.Canonical

/-- **A transition consumes the symbols it accepts.** -/
theorem accepts_iff_mem_consumed {net : Network} {t : Transition} (h : t.IsCanonical) {v : Symbol} :
    t.accepts v net.firstSymbol net.lastSymbol = true ↔ v ∈ net.consumed t := by
  cases t with
  | atom p label =>
    change (label == v) = true ↔ v ∈ SymbolSet.singleton label
    rw [beq_iff_eq, SymbolSet.mem_singleton]
    exact eq_comm
  | range p start stop =>
    change (decide (start ≤ v) && decide (v ≤ stop)) = true ↔ v ∈ SymbolSet.ofRange start stop
    simp [SymbolSet.mem_ofRange]
  | set p s => exact SymbolSet.contains_iff (h s (.inl ⟨p, rfl⟩))
  | notSet p s =>
    have hs := h s (.inr ⟨p, rfl⟩)
    rw [Network.consumed, SymbolSet.mem_complement hs]
    simp [accepts, ← SymbolSet.contains_iff hs]
  | wildcard p =>
    rw [Network.consumed, SymbolSet.mem_ofRange]
    simp [accepts]
  | epsilon | rule | predicate | precedence | action =>
    change false = true ↔ v ∈ SymbolSet.empty
    simp

end Transition

namespace Grammar

/-- **The sets of symbols in the grammar are canonical,** as those made of ranges are. -/
def HasCanonicalSets (g : Grammar) : Prop :=
  ∀ s, Element.set s ∈ g.parts ∨ Element.notSet s ∈ g.parts → s.Canonical

/-- **No element matches the marker** for the end of a rule. -/
def Unmarked (g : Grammar) : Prop := ∀ e ∈ g.parts, e.accepts Symbol.ruleEnd 0 1 = false

end Grammar

namespace Draft.Comes

variable {d : Draft} {rule : Nat} {p : StateId} {e : Element} {t : Transition}

/-- The sets on a transition are those of the element it comes from. -/
theorem isCanonical (h : d.Comes rule p e t)
    (he : ∀ s, e = .set s ∨ e = .notSet s → s.Canonical) : t.IsCanonical := by
  intro s hs
  cases h with
  | leaf hleaf =>
    cases hleaf with
    | set s' =>
      rcases hs with ⟨_, heq⟩ | ⟨_, heq⟩
      · cases heq
        exact he s (.inl rfl)
      · cases heq
    | notSet s' =>
      rcases hs with ⟨_, heq⟩ | ⟨_, heq⟩
      · cases heq
      · cases heq
        exact he s (.inr rfl)
    | _ => rcases hs with ⟨_, heq⟩ | ⟨_, heq⟩ <;> cases heq
  | char => rcases hs with ⟨_, heq⟩ | ⟨_, heq⟩ <;> cases heq
  | call => rcases hs with ⟨_, heq⟩ | ⟨_, heq⟩ <;> cases heq

theorem matchesMarker (h : d.Comes rule p e t) {net : Network}
    (hacc : t.accepts Symbol.ruleEnd net.firstSymbol net.lastSymbol = true) :
    e.accepts Symbol.ruleEnd 0 1 = true := by
  have hneg : t.accepts Symbol.ruleEnd net.firstSymbol net.lastSymbol =
      t.accepts Symbol.ruleEnd 0 1 :=
    Transition.accepts_neg (by decide) net.firstSymbol_nonneg (Int.le_refl 0)
  rw [hneg] at hacc
  cases h with
  | leaf hleaf => cases hleaf <;> exact hacc
  | @char text c =>
    simp [Transition.accepts, Symbol.ruleEnd] at hacc
  | call => cases hacc

end Draft.Comes

namespace Grammar

namespace Built

variable {g : Grammar} {net : Network} {modeStarts : List StateId} {d : Draft}

/-- No way on inside a body leads to the start of a mode, and neither does a call go on there. -/
private theorem kind_inside (h : g.Built net modeStarts d) {q : StateId} {r : Rule} {i : Nat}
    (hinside : Inside g r i d q) {t : Transition} (ht : t ∈ (net.state q).transitions) :
    (t.isRule = false → (net.state t.target).kind ≠ .tokensStart) ∧
      ∀ follow, t.follow? = some follow → (net.state follow).kind ≠ .tokensStart := by
  rw [h.state_eq] at ht
  rcases hinside.wired.ways with hall | ⟨-, t', p, hone, hp, e, -, hcomes⟩
  · obtain ⟨p, rfl, hown⟩ := hall t ht
    exact ⟨fun _ => h.kind_of_owns hown, nofun⟩
  · have ht' : t ∈ d.ways q := ht
    rw [hone, List.mem_singleton] at ht'
    subst ht'
    constructor
    · intro hrule
      rw [hcomes.target_eq hrule]
      exact h.kind_of_owns hp
    · intro follow hfollow
      cases t with
      | rule start callee follow' level =>
        obtain rfl := Option.some.inj hfollow
        obtain ⟨_, -, rfl, -⟩ := hcomes.of_call rfl
        exact h.kind_of_owns hp
      | _ => cases hfollow

/-- The start of a rule leads into its body. -/
private theorem kind_entry (h : g.Built net modeStarts d) {i : Nat} (hi : i < g.rules.length)
    {t : Transition} (ht : t ∈ (net.state (g.startState i)).transitions) :
    (net.state t.target).kind ≠ .tokensStart := by
  obtain ⟨entry, _, hways, hown, -⟩ := h.finished.bodied.body g.rules[i] i
    (List.mem_zipIdx_iff_getElem?.mpr (List.getElem?_eq_getElem hi))
  rw [h.state_eq] at ht
  have ht' : t ∈ d.ways (g.startState i) := ht
  rw [hways, List.mem_singleton] at ht'
  subst ht'
  exact h.kind_of_owns hown

private theorem kind_start (h : g.Built net modeStarts d) {i : Nat} (hi : i < g.rules.length) :
    (net.state (g.startState i)).kind ≠ .tokensStart := by
  rw [h.state_eq, h.framed.start_kind i hi]
  nofun

/-- The rule of a call, and where it goes on. -/
private theorem call_kinds (h : g.Built net modeStarts d) {q start follow : StateId} {callee : Nat}
    {level : Int} (ht : Transition.rule start callee follow level ∈ (net.state q).transitions) :
    (net.state start).rule = callee ∧ (net.state start).kind ≠ .tokensStart ∧
      (net.state follow).rule = (net.state q).rule ∧
        (net.state follow).kind ≠ .tokensStart := by
  obtain ⟨_, _, r', -, hr', -, rfl, hq, hfollow, -⟩ := h.of_call ht
  have hcallee := (List.getElem?_eq_some_iff.mp hr').1
  refine ⟨h.rule_start hcallee, h.kind_start hcallee, hfollow.trans hq.symm, ?_⟩
  rcases h.ways_cases ht with ⟨-, _, -, heq⟩ | ⟨_, -, -, _, hways, -⟩ |
    ⟨_, -, -, -, _, _, _, _, -, heq⟩ | ⟨-, -, _, _, -, hinside⟩
  · cases heq
  · rw [hways, List.mem_singleton] at ht
    cases ht
  · cases heq
  · exact (h.kind_inside hinside ht).2 follow rfl

/-- **The rules of a grammar are sections of its network.** -/
theorem sectioned (h : g.Built net modeStarts d) : net.Sectioned where
  inner q t ht := by
    cases hrule : t.isRule with
    | true =>
      cases t with
      | rule start callee follow level => exact (h.call_kinds ht).2.1
      | _ => cases hrule
    | false =>
      rcases h.ways_cases ht with ⟨-, i, hi, rfl⟩ | ⟨i, hi, rfl, -⟩ |
        ⟨i, hi, rfl, -, p, start, level, follow, hcall, rfl⟩ | ⟨-, -, r, i, -, hinside⟩
      · exact h.kind_start hi
      · exact h.kind_entry hi ht
      · exact (h.call_kinds hcall).2.2.2
      · exact (h.kind_inside hinside ht).1 hrule
  along q hkind hq t ht hrule := by
    rcases h.ways_cases ht with ⟨hm, -⟩ | ⟨i, hi, rfl, entry, hways, hentry⟩ | ⟨i, hi, rfl, -⟩ |
      ⟨-, -, r, i, -, hinside⟩
    · rw [h.state_eq] at hkind
      exact absurd (h.framed.mode_kind q hm) hkind
    · rw [hways, List.mem_singleton] at ht
      subst ht
      exact hentry.trans (h.rule_start hi).symm
    · rw [h.isStop_stop hi] at hq
      cases hq
    · rw [h.rule_inside hinside]
      rcases h.inside_cases hinside ht with ⟨p, rfl, hp⟩ | ⟨-, -, p, hp, _, -, hcomes⟩
      · exact hp
      · rw [hcomes.target_eq hrule]
        exact hp
  call q target rule follow level ht := by
    obtain ⟨hrule, -, hfollow, hkind⟩ := h.call_kinds ht
    exact ⟨hrule, hfollow, hkind⟩

/-- **A way on that consumes a symbol** is inside a rule, and comes from a part of its body. -/
theorem of_match (h : g.Built net modeStarts d) {q : StateId} {t : Transition}
    (ht : t ∈ (net.state q).transitions) (heps : t.isEpsilon = false) :
    net.isStop q = false ∧ ∃ i p e, e ∈ g.parts ∧ d.Comes i p e t := by
  rcases h.ways_cases ht with ⟨-, _, -, rfl⟩ | ⟨_, -, -, _, hways, -⟩ |
    ⟨_, -, -, -, _, _, _, _, -, rfl⟩ | ⟨hge, hlt, r, i, hr, hinside⟩
  · cases heps
  · rw [hways, List.mem_singleton] at ht
    subst ht
    cases heps
  · cases heps
  · rcases h.inside_cases hinside ht with ⟨_, rfl, -⟩ | ⟨-, -, p, -, e, he, hcomes⟩
    · cases heps
    · exact ⟨h.isStop_inside hge hlt, i, p, e, mem_parts (List.mem_of_getElem? hr) he, hcomes⟩

/-- Canonical sets in the grammar are canonical sets in the network. -/
private theorem isCanonical (h : g.Built net modeStarts d) (hsets : g.HasCanonicalSets) {q : StateId}
    {t : Transition} (ht : t ∈ (net.state q).transitions) : t.IsCanonical := by
  intro s hs
  have heps : t.isEpsilon = false := by
    rcases hs with ⟨p, rfl⟩ | ⟨p, rfl⟩
    · rfl
    · rfl
  obtain ⟨-, i, p, e, he, hcomes⟩ := h.of_match ht heps
  refine hcomes.isCanonical (fun s hs => hsets s ?_) s hs
  rcases hs with rfl | rfl
  · exact .inl he
  · exact .inr he

/-- **A state goes on by the symbols that its transitions accept.** -/
private theorem takes_iff (h : g.Built net modeStarts d) (hsets : g.HasCanonicalSets) {q : StateId}
    {v : Symbol} : net.Takes q v ↔
      ∃ t ∈ (net.state q).transitions, t.accepts v net.firstSymbol net.lastSymbol = true := by
  constructor
  · intro ⟨_, t, ht, _, hv⟩
    exact ⟨t, ht, (Transition.accepts_iff_mem_consumed (h.isCanonical hsets ht)).mpr hv⟩
  · intro ⟨t, ht, hacc⟩
    have heps := Transition.isEpsilon_of_accepts hacc
    exact ⟨(h.of_match ht heps).1, t, ht, heps,
      (Transition.accepts_iff_mem_consumed (h.isCanonical hsets ht)).mp hacc⟩

/-- A grammar that leaves the marker alone has a network that does. -/
private theorem unmarked (h : g.Built net modeStarts d) (hsets : g.HasCanonicalSets)
    (hmarker : g.Unmarked) : net.Unmarked := by
  intro q v htakes heq
  obtain ⟨t, ht, hacc⟩ := (h.takes_iff hsets).mp htakes
  obtain ⟨-, i, p, e, he, hcomes⟩ := h.of_match ht (Transition.isEpsilon_of_accepts hacc)
  rw [heq] at hacc
  exact absurd ((hmarker e he).symm.trans (hcomes.matchesMarker hacc)) nofun

end Built

/-- **Look-ahead finds just the symbols that can come first.** From a state of the network of a grammar
whose rules do not re-enter themselves before a symbol is consumed, `nextTokens` finds the symbols
that some transition accepts where the network comes to without consuming anything, calls going on
where they return and never beyond the rule of the state; and it finds the marker just if the end of
that rule can be reached. -/
theorem nextTokens_exact {g : Grammar} {net : Network} (h : g.compile = .ok net)
    (hsets : g.HasCanonicalSets) (hmarker : g.Unmarked) (hno : net.NoReentryBy false) (q : StateId) :
    (∀ v, v ≠ Symbol.ruleEnd → ((net.nextTokens q).contains v = true ↔
      ∃ c, Relation.ReflTransGen (net.Hop true false) (q, []) c ∧
        ∃ t ∈ (net.state c.1).transitions,
          t.accepts v net.firstSymbol net.lastSymbol = true)) ∧
      ((net.nextTokens q).contains Symbol.ruleEnd = true ↔
        ∃ s, net.isStop s = true ∧
          Relation.ReflTransGen (net.Hop true false) (q, []) (s, [])) := by
  obtain ⟨modeStarts, d, hbuilt⟩ := exists_built h
  have hnet := hbuilt.consistent
  have hsec := hbuilt.sectioned
  have hunmarked := hbuilt.unmarked hsets hmarker
  constructor
  · intro v hv
    have hcanonical : (net.nextTokens q).Canonical := Network.look_canonical hnet hsec hno ..
    have hfirst : v ∈ net.nextTokens q ↔ net.First q v := by
      rw [← Network.mem_nextTokens_iff hnet hsec hno hunmarked]
      exact (and_iff_left hv).symm
    rw [SymbolSet.contains_iff hcanonical, hfirst]
    unfold Network.First
    simp only [hbuilt.takes_iff hsets]
  · exact Network.nextTokens_contains_ruleEnd hnet hsec hno hunmarked

/-- **The two ways to look beyond a rule agree.** Under callers each of which makes a call, climbing
through them level by level finds the same set as one walk with the states at which they go on. -/
theorem expectedTokens_eq {g : Grammar} {net : Network} (h : g.compile = .ok net)
    (hsets : g.HasCanonicalSets) (hmarker : g.Unmarked) (hno : net.NoReentryBy false) (q : StateId)
    {callers : List StateId} (hcallers : ∀ c ∈ callers, (net.followOf? c).isSome) :
    net.expectedTokens q callers = net.nextTokensInContext q callers := by
  obtain ⟨modeStarts, d, hbuilt⟩ := exists_built h
  exact Network.expectedTokens_eq_look hbuilt.consistent hbuilt.sectioned hno
    (hbuilt.unmarked hsets hmarker) hcallers

/-- **The expected symbols** are those that some transition accepts where the network comes to without
consuming anything, calls going on where the callers made them; and the end of the input, if the
outermost rule can end. -/
theorem expectedTokens_exact {g : Grammar} {net : Network} (h : g.compile = .ok net)
    (hsets : g.HasCanonicalSets) (hmarker : g.Unmarked) (hno : net.NoReentryBy false) (q : StateId)
    {callers : List StateId} (hcallers : ∀ c ∈ callers, (net.followOf? c).isSome) (v : Symbol) :
    (net.expectedTokens q callers).contains v = true ↔
      ∃ c, Relation.ReflTransGen (net.Hop true false)
          (q, (callers.filterMap net.followOf?).reverse) c ∧
        ((∃ t ∈ (net.state c.1).transitions,
            t.accepts v net.firstSymbol net.lastSymbol = true) ∨
          net.isStop c.1 = true ∧ c.2 = [] ∧ v = Symbol.eof) := by
  obtain ⟨modeStarts, d, hbuilt⟩ := exists_built h
  have hnet := hbuilt.consistent
  have hsec := hbuilt.sectioned
  rw [expectedTokens_eq h hsets hmarker hno q hcallers, Network.nextTokensInContext,
    SymbolSet.contains_iff (Network.look_canonical hnet hsec hno ..),
    Network.mem_look_iff hnet hsec hno]
  simp only [Network.Offers, hbuilt.takes_iff hsets, or_comm]

/-! ## Listings -/

/-- A grammar of nested lists, one of whose rules can be empty:

    list : item* ;
    item : '(' list ')' | ~( '(' | ')' ) ; -/
def listing : Grammar where
  kind := .parser
  name := "listing"
  tokenNames := ["<INVALID>", "LPAREN", "RPAREN", "NAME", "NUMBER"]
  rules :=
    [⟨"list", .star (.ruleRef "item" 0) true, none, 0⟩,
      ⟨"item", .alt [.seq [.token 1, .ruleRef "list" 0, .token 2], .notSet (.ofRange 1 2)], none, 0⟩]

/-- The network of nested lists. -/
def listingNet : Network := listing.compile.toOption.getD default

theorem compile_listing : listing.compile = .ok listingNet := by
  have hok : listing.compile.isOk = true := by decide +kernel
  unfold listingNet
  cases h : listing.compile with
  | ok net => rfl
  | error e => rw [h] at hok; cases hok

theorem listing_hasCanonicalSets : listing.HasCanonicalSets := by
  intro s hs
  have hparts : listing.parts = [.star (.ruleRef "item" 0) true, .ruleRef "item" 0,
      .alt [.seq [.token 1, .ruleRef "list" 0, .token 2], .notSet (.ofRange 1 2)],
      .seq [.token 1, .ruleRef "list" 0, .token 2], .token 1, .ruleRef "list" 0, .token 2,
      .notSet (.ofRange 1 2)] := rfl
  have heq : s = .ofRange 1 2 := by simpa [hparts] using hs
  rw [heq]
  decide

theorem listing_unmarked : listing.Unmarked := by
  unfold Unmarked
  decide +kernel

/-- An item is called only by a list, and a list only behind an opening parenthesis. -/
theorem listing_noReentry : listingNet.NoReentry := by
  let height : StateId → Nat := fun q =>
    if q ∈ [14, 15] then 2 else if q ∈ [0, 4, 5, 6, 7, 8, 9, 10] then 1 else 0
  have hstates : ∀ q < listingNet.states.size, listingNet.isStop q = false →
      ∀ t ∈ (listingNet.state q).transitions, ∀ d ∈ t.onward true [],
        height d.1 + d.2.length ≤ height q ∧ ∀ r ∈ d.2, height r ≤ height q := by
    decide +kernel
  refine Network.noReentry_of_height height fun q hq t ht => ?_
  rcases listingNet.state_cases q with ⟨hlt, -⟩ | ⟨-, hplain⟩
  · exact hstates q hlt hq t ht
  · rw [hplain] at ht
    cases ht

/-- A list may begin with a name, and may end at once. -/
theorem listing_nextTokens :
    (listingNet.nextTokens 8).contains 3 = true ∧
      (listingNet.nextTokens 8).contains Symbol.ruleEnd = true := by
  obtain ⟨hsymbols, hend⟩ := nextTokens_exact compile_listing listing_hasCanonicalSets
    listing_unmarked (listing_noReentry.noReentryBy false) 8
  have hitem : listingNet.Reads (8, []) [] (19, [7]) :=
    Network.reads_of_scripted [0, 0, 0, 0, 1] (by decide +kernel)
  have hstop : listingNet.Reads (8, []) [] (1, []) :=
    Network.reads_of_scripted [1, 0] (by decide +kernel)
  constructor
  · exact (hsymbols 3 (by decide)).mpr
      ⟨_, hitem.hops, .notSet 20 (.ofRange 1 2), by decide +kernel, by decide +kernel⟩
  · exact hend.mpr ⟨1, by decide +kernel, hstop.hops⟩

/-- A list that an item has called, within another list. -/
theorem listing_expectedTokens :
    (∀ c ∈ [6, 15], (listingNet.followOf? c).isSome) ∧
      listingNet.expectedTokens 8 [6, 15] = listingNet.nextTokensInContext 8 [6, 15] := by
  have hcallers : ∀ c ∈ [6, 15], (listingNet.followOf? c).isSome := by decide +kernel
  exact ⟨hcallers, expectedTokens_eq compile_listing listing_hasCanonicalSets listing_unmarked
    (listing_noReentry.noReentryBy false) 8 hcallers⟩

end Grammar

end AdaptiveLL
