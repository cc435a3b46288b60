import AdaptiveLL.Parsing.Walk
import AdaptiveLL.Proofs.Grammar.Lookahead

/-!
# One vocabulary for three readers

Three parts of a parser ask whether a transition consumes a token. A prediction tries the transition
with a vocabulary that begins at 0, the walk of a parse with one that begins at the first token a
grammar may define, and look-ahead lists the symbols instead of trying one. On canonical sets the
last two always agree, and all three agree on every symbol but 0, the type of no token: there a
prediction goes along a transition that is given by what it leaves out, and the walk that follows
the prediction refuses the token.
-/

namespace AdaptiveLL

namespace Transition

/-- Whether the transition consumes all of the vocabulary but what it leaves out. -/
def isOpen : Transition → Bool
  | wildcard _ | notSet .. => true
  | _ => false

/-- **What a prediction accepts** is what the walk accepts, and the type of no token where the
transition is open and does not leave it out. -/
theorem accepts_zero_iff {t : Transition} {v hi : Symbol} :
    t.accepts v 0 hi = true ↔
      t.accepts v Symbol.firstToken hi = true ∨
        t.isOpen = true ∧ v = Symbol.noToken ∧ t.accepts v 0 hi = true := by
  have hbound (hne : v ≠ 0) : (0 ≤ v) = (Symbol.firstToken ≤ v) := by
    have h (a : Int) (ha : a ≠ 0) : (0 ≤ a) = (1 ≤ a) := propext (by omega)
    exact h v hne
  cases t with
  | wildcard | notSet =>
    by_cases hv : v = 0
    · subst hv
      simp [isOpen, Symbol.noToken, accepts, Symbol.firstToken]
    · simp [isOpen, Symbol.noToken, accepts, hv, hbound hv]
  | _ => simp [isOpen, accepts]

/-- **The type of no token** is consumed along no open transition by what begins at the first
token. -/
theorem not_accepts_noToken {t : Transition} (h : t.isOpen = true) (hi : Symbol) :
    t.accepts Symbol.noToken Symbol.firstToken hi = false := by
  cases t with
  | wildcard | notSet => simp [accepts, Symbol.noToken, Symbol.firstToken]
  | _ => cases h

end Transition

namespace Network

variable {net : Network} {q : StateId} {t : Transition}

/-- The look-ahead from a state with one transition, which consumes a symbol. -/
theorem nextTokens_of_single (hstop : net.isStop q = false) (hmatch : t.isEpsilon = false)
    (honly : (net.state q).transitions = [t]) :
    net.nextTokens q = SymbolSet.empty.union (net.consumed t) := by
  have hfuel : ∃ n, net.walkBound 0 = n + 1 := ⟨_, rfl⟩
  obtain ⟨n, hn⟩ := hfuel
  have hrule : (net.state q).isRuleStop = false := hstop
  unfold nextTokens look
  rw [List.length_nil, hn]
  cases t with
  | epsilon | rule | predicate | precedence | action => cases hmatch
  | _ => simp [walk, walkAll, honly, hrule, Transition.isEpsilon]

/-- **What three readers take.** At a state of a network for tokens with one transition, which
consumes a symbol, walk and look-ahead agree on every symbol. A prediction agrees with them unless
the symbol is the type of no token and the transition is open and does not leave it out: then the
prediction goes on, and the two others do not. -/
theorem readers_agree_iff (hparser : net.isLexer = false) (hstop : net.isStop q = false)
    (honly : (net.state q).transitions = [t]) (hcanonical : t.IsCanonical)
    (hmatch : t.isEpsilon = false) (v : Symbol) :
    t.accepts v Symbol.firstToken net.maxTokenType = (net.nextTokens q).contains v ∧
      (t.accepts v 0 net.maxTokenType = t.accepts v Symbol.firstToken net.maxTokenType ↔
        ¬(t.isOpen = true ∧ v = Symbol.noToken ∧ t.accepts v 0 net.maxTokenType = true)) := by
  constructor
  · have hfirst : net.firstSymbol = Symbol.firstToken := by simp [firstSymbol, hparser]
    have hlast : net.lastSymbol = net.maxTokenType := by simp [lastSymbol, hparser]
    have hcontains : (net.nextTokens q).contains v = true ↔ v ∈ net.consumed t := by
      rw [nextTokens_of_single hstop hmatch honly,
        SymbolSet.contains_iff (SymbolSet.Canonical.empty.union _),
        SymbolSet.mem_union SymbolSet.Canonical.empty]
      simp
    rw [Bool.eq_iff_iff, hcontains, ← Transition.accepts_iff_mem_consumed hcanonical, hfirst, hlast]
  · by_cases hlet : t.isOpen = true ∧ v = Symbol.noToken ∧ t.accepts v 0 net.maxTokenType = true
    · obtain ⟨hopen, rfl, hacc⟩ := hlet
      simp [hopen, hacc, Transition.not_accepts_noToken hopen]
    · refine iff_of_true (Bool.eq_iff_iff.mpr ?_) hlet
      exact Transition.accepts_zero_iff.trans (or_iff_left hlet)

end Network

/-- A grammar for one token or two, of any type:

    s : . | . . ; -/
private def Grammar.anyTokens : Grammar where
  kind := .parser
  name := "any"
  tokenNames := ["<INVALID>", "A", "B"]
  rules := [⟨"s", .alt [.wildcard, .seq [.wildcard, .wildcard]], none, 0⟩]

/-- A prediction takes a token of the type of no token, which the walk refuses and look-ahead does
not list. -/
theorem Grammar.anyTokens_readers : ∃ net, anyTokens.compile = .ok net ∧ ∃ q t,
    (net.state q).transitions = [t] ∧ t.isEpsilon = false ∧
      t.accepts Symbol.noToken 0 net.maxTokenType = true ∧
      t.accepts Symbol.noToken Symbol.firstToken net.maxTokenType = false ∧
      (net.nextTokens q).contains Symbol.noToken = false := by
  have hok : anyTokens.compile.isOk = true := by decide +kernel
  have hfacts : (anyTokens.compile.toOption.map fun net =>
      (net.isLexer, net.isStop 6, (net.state 6).transitions, net.maxTokenType)) =
        some (false, false, [.wildcard 7], 2) := by decide +kernel
  cases h : anyTokens.compile with
  | error e =>
    rw [h] at hok
    cases hok
  | ok net =>
    rw [h] at hfacts
    obtain ⟨hparser, hstop, hways, hmax⟩ : net.isLexer = false ∧ net.isStop 6 = false ∧
        (net.state 6).transitions = [.wildcard 7] ∧ net.maxTokenType = 2 := by
      simpa [Except.toOption] using hfacts
    obtain ⟨hlook, hpredict⟩ := Network.readers_agree_iff hparser hstop hways
      (fun s hs => by simp at hs) rfl Symbol.noToken
    have hacc : (Transition.wildcard 7).accepts Symbol.noToken 0 net.maxTokenType = true := by
      rw [hmax]
      decide
    have hne := mt hpredict.mp (not_not_intro ⟨rfl, rfl, hacc⟩)
    have hwalk : (Transition.wildcard 7).accepts Symbol.noToken Symbol.firstToken
        net.maxTokenType = false := by
      simpa [hacc] using hne
    exact ⟨net, rfl, 6, _, hways, rfl, hacc, hwalk, hlook ▸ hwalk⟩

/-- A set out of order, as a file may have it, is searched in vain for a symbol that look-ahead
lists. -/
example :
    let s : SymbolSet := ⟨[⟨3, 3⟩, ⟨1, 1⟩]⟩
    (Transition.set 1 s).accepts 3 1 4 = false ∧ (SymbolSet.empty.union s).contains 3 = true := by
  decide

end AdaptiveLL
