import AdaptiveLL.Proofs.Grammar.Lexers
import AdaptiveLL.Proofs.Lexing.Transparency

/-!
# The longest match

A match in a plain network finds the longest word of the text that a token rule of its mode
recognizes, and among the rules that recognize this word the one declared first. If there is no such
word, the match fails at the first character that no rule can consume after those before it.
-/

namespace AdaptiveLL

/-! ## Words of a text -/

namespace CharStream

variable {text : CharStream} {start p stop : Nat}

/-- The characters from `start` to before `stop`, as symbols. -/
def word (text : CharStream) (start stop : Nat) : List Symbol :=
  (text.chars.extract start stop).toList.map fun c => (c.toNat : Symbol)

@[simp] theorem word_self (text : CharStream) (start : Nat) : text.word start start = [] := by
  simp [word]

theorem word_append (hle : start ≤ p) (hle' : p ≤ stop) :
    text.word start p ++ text.word p stop = text.word start stop := by
  unfold word
  rw [← List.map_append, ← Array.toList_append, Array.extract_append_extract,
    Nat.min_eq_left hle, Nat.max_eq_right hle']

theorem word_succ (hle : start ≤ p) (hlt : p < text.size) :
    text.word start (p + 1) = text.word start p ++ [text.symbolAt p] := by
  have hchar : text.symbolAt p = (text.chars[p].toNat : Symbol) := by
    unfold symbolAt
    rw [Array.getElem?_eq_getElem hlt]
    rfl
  rw [hchar]
  unfold word
  rw [Array.extract_succ_right (Nat.lt_succ_of_le hle) hlt, Array.toList_push, List.map_append]
  rfl

/-- A longer word goes on with the next character. -/
theorem exists_word_eq (hle : start ≤ p) (hlt : p < stop) (hin : stop ≤ text.size) :
    ∃ w, text.word start stop = text.word start p ++ [text.symbolAt p] ++ w := by
  refine ⟨text.word (p + 1) stop, ?_⟩
  rw [← word_succ hle (Nat.lt_of_lt_of_le hlt hin), word_append (Nat.le_succ_of_le hle) hlt]

end CharStream

/-! ## What is to be found -/

namespace Grammar

variable {g : Grammar} {net : Network} {mode : Nat} {w : List Symbol}

/-- **The rule of that number recognizes the word** as a token of the mode. -/
def Recognizes (g : Grammar) (mode : Nat) (w : List Symbol) (i : Nat) (type : Int) : Prop :=
  ∃ r, g.TokenRule mode i r type ∧ g.Denotes Symbol.firstChar Symbol.lastChar r.body w

/-- No token rule of the mode recognizes the word. -/
def Refuses (g : Grammar) (mode : Nat) (w : List Symbol) : Prop :=
  ∀ i type, ¬g.Recognizes mode w i type

/-- **The first rule to recognize the word** as a token of the mode is that one. -/
def Decides (g : Grammar) (mode : Nat) (w : List Symbol) (i : Nat) (type : Int) : Prop :=
  g.Recognizes mode w i type ∧ ∀ j type', g.Recognizes mode w j type' → i ≤ j

/-- **Some token rule of the mode can consume the word,** whether or not it recognizes it. -/
def CanConsume (g : Grammar) (net : Network) (mode : Nat) (w : List Symbol) : Prop :=
  ∃ i r type start c, g.TokenRule mode i r type ∧ net.ruleStarts[i]? = some start ∧
    net.Reads (start, []) w c

/-- **What a match from a position comes to,** and where it leaves the cursor. -/
inductive LongestMatch (g : Grammar) (net : Network) (mode : Nat) (text : CharStream)
    (start : Position) : Except LexError TokenMatch → Nat → Prop where
  /-- The longest word of a token, for the first rule that recognizes it. -/
  | token {stop i : Nat} {type : Int} (hle : start.index ≤ stop) (hin : stop ≤ text.size)
      (hrule : g.Decides mode (text.word start.index stop) i type)
      (hlongest : ∀ stop', stop < stop' → stop' ≤ text.size →
        g.Refuses mode (text.word start.index stop')) :
      LongestMatch g net mode text start (.ok ⟨type, start.index, stop, none⟩) stop
  /-- The end of the input, where not even the empty word is a token. -/
  | atEnd (hnone : g.Refuses mode []) (hend : start.index = text.size) :
      LongestMatch g net mode text start (.ok ⟨Symbol.eof, start.index, start.index, none⟩) start.index
  /-- No word is a token, and there is a first symbol that no rule can consume. -/
  | error {offending : Nat}
      (hnone : ∀ stop, start.index ≤ stop → stop ≤ text.size →
        g.Refuses mode (text.word start.index stop))
      (hstart : start.index < text.size) (hle : start.index ≤ offending) (hin : offending ≤ text.size)
      (hbefore : ∀ p, start.index ≤ p → p < offending →
        g.CanConsume net mode (text.word start.index p ++ [text.symbolAt p]))
      (hfirst : ¬g.CanConsume net mode
        (text.word start.index offending ++ [text.symbolAt offending])) :
      LongestMatch g net mode text start
        (.error (.noViableAlternative start.index offending start.line start.column
          (text.text start.index (offending + 1)))) offending

theorem CanConsume.of_append {w' : List Symbol} (h : g.CanConsume net mode (w ++ w')) :
    g.CanConsume net mode w := by
  obtain ⟨i, r, type, start, c, hr, hstart, hreads⟩ := h
  obtain ⟨b, hb, -⟩ := Network.Reads.append_iff.mp hreads
  exact ⟨i, r, type, start, b, hr, hstart, hb⟩

/-! ## What strands know -/

namespace Built

variable {modeStarts : List StateId} {d : Draft} {fs : List Strand} {type : Int}

/-- The symbols of a network of tokens are the characters. -/
private theorem symbols_eq (h : g.Built net modeStarts d) (hg : g.Tokenizes) :
    net.firstSymbol = Symbol.firstChar ∧ net.lastSymbol = Symbol.lastChar := by
  unfold Network.firstSymbol Network.lastSymbol
  rw [h.isLexer_of_lexer hg.kind_eq]
  exact ⟨rfl, rfl⟩

/-- A rule recognizes the words that are read from its start to its end. -/
private theorem recognizes_iff (h : g.Built net modeStarts d) (hg : g.Tokenizes) {i : Nat} {r : Rule}
    (hr : g.TokenRule mode i r type) : g.Denotes Symbol.firstChar Symbol.lastChar r.body w ↔
      net.Reads (g.startState i, []) w (g.stopState i, []) := by
  rw [← (h.symbols_eq hg).1, ← (h.symbols_eq hg).2]
  exact (h.reads_iff hr.rule_eq).symm

/-- **What begins a token can be consumed.** -/
theorem canConsume_of_recognizes (h : g.Built net modeStarts d) (hg : g.Tokenizes)
    {w' : List Symbol} {i : Nat} (hi : g.Recognizes mode (w ++ w') i type) :
    g.CanConsume net mode w := by
  obtain ⟨r, hr, hdenotes⟩ := hi
  have hstart := h.start_iff.mpr ⟨(List.getElem?_eq_some_iff.mp hr.rule_eq).1, rfl⟩
  have hreads := (h.recognizes_iff hg hr).mp hdenotes
  exact CanConsume.of_append ⟨i, r, type, _, _, hr, hstart, hreads⟩

/-- A strand that has completed its token has read a word that its rule recognizes. -/
private theorem recognizes_of_strand (h : g.Built net modeStarts d) (hg : g.Tokenizes)
    (hmode : mode < g.modeCount) (hfs : net.Holds mode w fs) {u : Strand} (hu : u ∈ fs)
    (hstop : net.isStop u.state = true) : ∃ i k, g.Recognizes mode w i (net.typeOf u) ∧
      (net.state mode).transitions[k]? = some (.epsilon (g.startState i)) ∧ u.alt = k + 1 := by
  obtain ⟨-, hrests, k, step, hstep, halt, hreads⟩ := (hfs.mem_iff u).mp hu
  obtain ⟨i, r, type, hr, rfl⟩ := h.of_alternative hmode (List.mem_of_getElem? hstep)
  unfold Network.Rests at hrests
  rw [if_pos (show net.isStop u.stand.1 = true from hstop)] at hrests
  have hstand : u.stand = (u.state, []) := Prod.ext rfl hrests.1
  rw [hstand] at hreads
  obtain ⟨hstate, hdenotes⟩ := h.of_reads hr.rule_eq hstop hreads
  rw [(h.symbols_eq hg).1, (h.symbols_eq hg).2] at hdenotes
  refine ⟨i, k, ⟨r, ?_, hdenotes⟩, hstep, halt⟩
  unfold Network.typeOf
  rw [hstate, h.ruleTokenType_eq hg.kind_eq hr]
  exact hr

/-- A word that a rule recognizes is read by a strand that has completed its token. -/
private theorem strand_of_recognizes (h : g.Built net modeStarts d) (hg : g.Tokenizes)
    (hmode : mode < g.modeCount) (hfs : net.Holds mode w fs) {i : Nat}
    (hi : g.Recognizes mode w i type) : ∃ u ∈ fs, net.isStop u.state = true ∧ ∃ k,
      (net.state mode).transitions[k]? = some (.epsilon (g.startState i)) ∧ u.alt = k + 1 := by
  obtain ⟨r, hr, hdenotes⟩ := hi
  have hstop := h.isStop_stop (List.getElem?_eq_some_iff.mp hr.rule_eq).1
  obtain ⟨k, hk⟩ := List.mem_iff_getElem?.mp (h.alternative_of_tokenRule hmode hr)
  refine ⟨⟨g.stopState i, k + 1, [], false⟩, (hfs.mem_iff _).mpr ⟨rfl, ?_, k, _, hk, rfl, ?_⟩, hstop,
    k, hk, rfl⟩
  · simp [Network.Rests, Strand.stand, hstop]
  · exact (h.recognizes_iff hg hr).mp hdenotes

/-- **The first strand that has completed its token** has it from the first rule. -/
theorem decides_of_answer (h : g.Built net modeStarts d) (hg : g.Tokenizes)
    (hmode : mode < g.modeCount) (hfs : net.Holds mode w fs) (hanswer : net.answer? fs = some type) :
    ∃ i, g.Decides mode w i type := by
  obtain ⟨u, hu, rfl⟩ := Option.map_eq_some_iff.mp hanswer
  obtain ⟨hstop, before, after, rfl, hbefore⟩ := List.find?_eq_some_iff_append.mp hu
  obtain ⟨i, k, hi, hk, halt⟩ := h.recognizes_of_strand hg hmode hfs
    (List.mem_append_right _ List.mem_cons_self) hstop
  refine ⟨i, hi, fun j type' hj => ?_⟩
  obtain ⟨x, hx, hxstop, k', hk', halt'⟩ := h.strand_of_recognizes hg hmode hfs hj
  refine h.alternatives_ordered hmode hk hk' ?_
  suffices hle : u.alt ≤ x.alt by omega
  rcases List.mem_append.mp hx with hx | hx
  · exact absurd hxstop (by simpa using hbefore x hx)
  · rcases List.mem_cons.mp hx with rfl | hx
    · exact Nat.le_refl _
    · exact (List.pairwise_cons.mp (List.pairwise_append.mp hfs.sorted).2.1).1 x hx

/-- Where no strand has completed a token, no rule recognizes the word. -/
theorem refuses_of_answer (h : g.Built net modeStarts d) (hg : g.Tokenizes)
    (hmode : mode < g.modeCount) (hfs : net.Holds mode w fs) (hanswer : net.answer? fs = none) :
    g.Refuses mode w := by
  intro i type hi
  obtain ⟨u, hu, hstop, -⟩ := h.strand_of_recognizes hg hmode hfs hi
  exact absurd hstop (List.find?_eq_none.mp (Option.map_eq_none_iff.mp hanswer) u hu)

/-- **There are strands** exactly where some rule can consume the word. -/
theorem canConsume_iff (h : g.Built net modeStarts d) (hg : g.Tokenizes)
    (hmode : mode < g.modeCount) (hfs : net.Holds mode w fs) :
    g.CanConsume net mode w ↔ fs ≠ [] := by
  have hplain := h.plain hg
  constructor
  · rintro ⟨i, r, type, start, c, hr, hstart, hreads⟩ rfl
    obtain ⟨-, rfl⟩ := h.start_iff.mp hstart
    -- The run goes on to where a strand rests.
    have hadvances := h.advances_of_reads (fun q t ht => by
      rw [hplain.accepts_eq]
      exact hplain.stopsAtEof q t ht) hr.rule_eq hreads
    have halternative := h.alternative_of_tokenRule hmode hr
    obtain ⟨depth, hdepth⟩ := hfs.shallow _ halternative c hreads
    obtain ⟨e, hhops, hrests⟩ := hadvances depth hdepth
    obtain ⟨k, hk⟩ := List.mem_iff_getElem?.mp halternative
    have hread : net.Reads (g.startState i, []) w e := by
      have := hreads.trans (.of_hops hhops)
      rwa [List.append_nil] at this
    have hmem := (hfs.mem_iff ⟨e.1, k + 1, e.2, false⟩).mpr ⟨rfl, hrests, k, _, hk, rfl, hread⟩
    cases hmem
  · intro hne
    obtain ⟨u, hu⟩ := List.exists_mem_of_ne_nil fs hne
    obtain ⟨-, -, k, step, hstep, -, hreads⟩ := (hfs.mem_iff u).mp hu
    obtain ⟨i, r, type, hr, rfl⟩ := h.of_alternative hmode (List.mem_of_getElem? hstep)
    exact ⟨i, r, type, _, _, hr, h.start_iff.mpr ⟨(List.getElem?_eq_some_iff.mp hr.rule_eq).1, rfl⟩,
      hreads⟩

end Built

/-! ## The way of a match -/

/-- **The best of the words that end before a position:** the longest one that is a token, with the
type that it has from the first rule. -/
def Best (g : Grammar) (mode : Nat) (text : CharStream) (start last : Nat) : Option Completed → Prop
  | none => ∀ stop, start ≤ stop → stop < last → g.Refuses mode (text.word start stop)
  | some m => start ≤ m.position.index ∧ m.position.index < last ∧
      (∃ i, g.Decides mode (text.word start m.position.index) i m.type) ∧
      ∀ stop, m.position.index < stop → stop < last → g.Refuses mode (text.word start stop)

namespace Best

variable {text : CharStream} {start last : Nat} {best : Option Completed}

/-- Words that are no tokens change nothing. -/
private theorem extend (h : g.Best mode text start last best) {last' : Nat} (hle : last ≤ last')
    (hrefuses : ∀ stop, start ≤ stop → last ≤ stop → stop < last' →
      g.Refuses mode (text.word start stop)) : g.Best mode text start last' best := by
  cases best with
  | none =>
    intro stop hstart hlt
    rcases Nat.lt_or_ge stop last with hbefore | hafter
    · exact h stop hstart hbefore
    · exact hrefuses stop hstart hafter hlt
  | some m =>
    obtain ⟨hstart, hlast, hdecides, hlongest⟩ := h
    refine ⟨hstart, Nat.lt_of_lt_of_le hlast hle, hdecides, fun stop hlonger hlt => ?_⟩
    rcases Nat.lt_or_ge stop last with hbefore | hafter
    · exact hlongest stop hlonger hbefore
    · exact hrefuses stop (Nat.le_of_lt (Nat.lt_of_le_of_lt hstart hlonger)) hafter hlt

/-- The strands that have read one more character tell whether there is a longer word. -/
private theorem next {modeStarts : List StateId} {d : Draft} (hbuilt : g.Built net modeStarts d)
    (hg : g.Tokenizes) (hmode : mode < g.modeCount) {fs : List Strand} {p : Position}
    (hle : start ≤ p.index) (hfs : net.Holds mode (text.word start p.index) fs)
    (h : g.Best mode text start p.index best) :
    g.Best mode text start (p.index + 1) (net.standing fs p best).completed := by
  unfold Network.standing
  cases hanswer : net.answer? fs with
  | none =>
    refine h.extend (Nat.le_succ _) fun stop _ hge hlt => ?_
    obtain rfl : stop = p.index := by omega
    exact hbuilt.refuses_of_answer hg hmode hfs hanswer
  | some type =>
    exact ⟨hle, Nat.lt_succ_self _, hbuilt.decides_of_answer hg hmode hfs hanswer,
      fun stop hlonger hlt => absurd hlonger (Nat.not_lt.mpr (Nat.le_of_lt_succ hlt))⟩

end Best

/-- **A match on its way:** its strands have read the word from where it began, and it remembers the
best one so far. -/
private structure Along (g : Grammar) (net : Network) (mode : Nat) (text : CharStream)
    (start : Position) (x : Standing) : Prop where
  le : start.index ≤ x.position.index
  inside : x.position.index ≤ text.size
  holds : net.Holds mode (text.word start.index x.position.index) x.strands
  best : g.Best mode text start.index (x.position.index + 1) x.completed
  consumed : start.index < x.position.index →
    g.CanConsume net mode (text.word start.index x.position.index)

/-- **A match that has come to its end:** it remembers the best word of all, and stands at the first
symbol that no rule can consume. -/
private structure Arrived (g : Grammar) (net : Network) (mode : Nat) (text : CharStream)
    (start : Position) (y : Halt) : Prop where
  le : start.index ≤ y.position.index
  inside : y.position.index ≤ text.size
  best : g.Best mode text start.index (text.size + 1) y.completed
  before : ∀ p, start.index ≤ p → p < y.position.index →
    g.CanConsume net mode (text.word start.index p ++ [text.symbolAt p])
  first : ¬g.CanConsume net mode
    (text.word start.index y.position.index ++ [text.symbolAt y.position.index])

section Way

variable {modeStarts : List StateId} {d : Draft} {host : Host} {text : CharStream} {start : Position}
  {x x' : Standing} {y : Halt} (hbuilt : g.Built net modeStarts d) (hg : g.Tokenizes)
  (hmode : mode < g.modeCount)

include hbuilt hg hmode

/-- A match that began is on its way. -/
private theorem Along.of_begins (hin : start.index ≤ text.size) {fs : List Strand}
    (h : net.Begins host start.index mode fs) :
    Along g net mode text start (net.standing fs start none) := by
  have hholds : net.Holds mode (text.word start.index start.index) fs := by
    rw [CharStream.word_self]
    exact h.holds (hbuilt.plain hg)
  exact ⟨Nat.le_refl _, hin, hholds, Best.next hbuilt hg hmode (Nat.le_refl _) hholds
    fun stop hge hlt => absurd hge (Nat.not_le.mpr hlt), fun hlt => absurd hlt (Nat.lt_irrefl _)⟩

/-- **A step forward** reads one more character. -/
private theorem Along.step (h : Along g net mode text start x)
    (hstep : net.Steps host text x (.inl x')) : Along g net mode text start x' := by
  have hplain := hbuilt.plain hg
  cases hstep with
  | @on fs hafter hne hon =>
    have hv : text.symbolAt x.position.index ≠ Symbol.eof := by
      intro heof
      rw [heof] at hafter
      exact hne (hplain.stopsAtEof.after hafter)
    have hlt := CharStream.lt_size_of_symbolAt hv
    have hpast := x.position.index_past hv
    have hle : start.index ≤ (x.position.past (text.symbolAt x.position.index)).index := by
      rw [hpast]
      exact Nat.le_succ_of_le h.le
    have hholds : net.Holds mode
        (text.word start.index (x.position.past (text.symbolAt x.position.index)).index) fs := by
      rw [hpast, CharStream.word_succ h.le hlt]
      exact hafter.holds hplain h.holds
    refine ⟨hle, hpast ▸ hlt, hholds, Best.next hbuilt hg hmode hle hholds (hpast ▸ h.best), ?_⟩
    exact fun _ => (hbuilt.canConsume_iff hg hmode hholds).mpr hne

/-- **The last step** comes where no rule can consume the next symbol. -/
private theorem Along.halt (h : Along g net mode text start x)
    (hstep : net.Steps host text x (.inr y)) : Arrived g net mode text start y := by
  have hplain := hbuilt.plain hg
  cases hstep with
  | last hafter hanswer heof =>
    rw [heof] at hafter
    rw [hplain.stopsAtEof.after hafter] at hanswer
    cases hanswer
  | stop hafter =>
    have hfirst : ¬g.CanConsume net mode
        (text.word start.index x.position.index ++ [text.symbolAt x.position.index]) := fun hcan =>
      (hbuilt.canConsume_iff hg hmode (hafter.holds hplain h.holds)).mp hcan rfl
    refine ⟨h.le, h.inside, h.best.extend (Nat.succ_le_succ h.inside) fun stop hstart hge hlt => ?_,
      fun p hle hlt => ?_, hfirst⟩
    · -- A longer token would have to go on with that symbol.
      intro i type hi
      obtain ⟨w, hw⟩ := CharStream.exists_word_eq h.le hge (Nat.le_of_lt_succ hlt)
      rw [hw] at hi
      exact hfirst (hbuilt.canConsume_of_recognizes hg hi)
    · obtain ⟨w, hw⟩ := CharStream.exists_word_eq hle hlt h.inside
      have hcan := h.consumed (Nat.lt_of_le_of_lt hle hlt)
      rw [hw] at hcan
      exact hcan.of_append

/-- **Every match that ends** has found the best word. -/
private theorem Along.scans (hscans : net.Scans host text x y) (h : Along g net mode text start x) :
    Arrived g net mode text start y := by
  induction hscans with
  | halt hstep => exact h.halt hbuilt hg hmode hstep
  | step hstep _ ih => exact ih (h.step hbuilt hg hmode hstep)

end Way

/-- **The verdict** on the best word. -/
private theorem Arrived.verdict {text : CharStream} {start : Position} {y : Halt}
    (h : Arrived g net mode text start y) :
    g.LongestMatch net mode text start (y.verdict text start).1 (y.verdict text start).2.index := by
  obtain ⟨p, completed⟩ := y
  unfold Halt.verdict
  cases completed with
  | some m =>
    obtain ⟨hle, hin, ⟨i, hi⟩, hlongest⟩ := h.best
    exact .token hle (Nat.le_of_lt_succ hin) hi fun stop hlonger hle =>
      hlongest stop hlonger (Nat.lt_succ_of_le hle)
  | none =>
    have hle : start.index ≤ p.index := h.le
    have hin : p.index ≤ text.size := h.inside
    have hnone : ∀ stop, start.index ≤ stop → stop ≤ text.size →
        g.Refuses mode (text.word start.index stop) := fun stop hge hle =>
      h.best stop hge (Nat.lt_succ_of_le hle)
    dsimp only
    split
    · next hend =>
      have hsize := CharStream.symbolAt_eq_eof_iff.mp hend.1
      rw [hend.2]
      refine .atEnd ?_ (by omega)
      rw [← text.word_self start.index]
      exact hnone _ (Nat.le_refl _) (hle.trans hin)
    · next hnot =>
      refine .error hnone (Nat.lt_of_not_le fun hsize => hnot ⟨?_, by omega⟩) hle hin h.before h.first
      exact CharStream.symbolAt_eq_eof_iff.mpr (hsize.trans hle)

end Grammar

namespace Scanner

open Grammar

/-- **The longest match wins, and the first rule.** A match of a lexer grammar without conditions,
without lazy options and loops, and without elements for the end of the input finds the longest word
from the cursor on that a token rule of its mode recognizes, with the type that the first such rule
gives it. Without such a word it finds the end of the input where the cursor is there, and fails
elsewhere at the first symbol that no rule can consume. It does so on every cache that earlier
matches have left behind, unless it meets a ceiling. -/
theorem matchToken_longest {g : Grammar} {net : Network} (hcompile : g.compile = .ok net)
    (hg : g.Tokenizes) (hword : net.states.size ≤ emptyReturn) {mode : Nat}
    (hmode : mode < g.modes.length) {host : Host} {s : Scanner} (hworn : s.cache.Worn net) :
    ∃ enough, ∀ fuel, enough ≤ fuel → ∀ settings,
      (matchToken settings host fuel mode).Yields s fun r s' =>
        (∀ e, r ≠ .error (.exceeded e)) →
          g.LongestMatch net mode s.stream s.position (r.map TokenMatch.silent) s'.stream.index := by
  obtain ⟨modeStarts, d, hbuilt⟩ := exists_built hcompile
  have hplain := hbuilt.plain hg
  have hcount : g.modeCount = g.modes.length := if_pos hg.kind_eq
  obtain ⟨nodes, hc⟩ := hworn.lexes hbuilt.consistent hplain.lexer hword
  refine ⟨chaseBound net nodes + s.stream.size + 1, fun fuel hfuel settings => ?_⟩
  refine (matchToken_returns hbuilt.consistent hword hplain.stopsAtEof hc hfuel).mono ?_
  rintro r s' ⟨-, hends⟩ hmet
  have hindex : s'.position.index = s'.stream.index := rfl
  rw [← hindex]
  generalize s'.position = p at hends ⊢
  cases hends with
  | exceeded => exact absurd rfl (hmet _)
  | unknown hnone =>
    cases hnone.symm.trans ((hbuilt.modeStart_iff hg.kind_eq).mpr ⟨hmode, rfl⟩)
  | @found entry y _ _ hentry hfinds hverdict =>
    obtain ⟨-, rfl⟩ := (hbuilt.modeStart_iff hg.kind_eq).mp hentry
    obtain ⟨fs, hbegins, hscans⟩ := hfinds
    have hmode' := hcount ▸ hmode
    have harrived := (Along.of_begins hbuilt hg hmode' s.stream.inside hbegins).scans hbuilt hg hmode'
      hscans
    have := harrived.verdict
    rwa [← hverdict] at this

end Scanner

namespace Grammar

/-- A lexer grammar with a keyword, words and a fragment:

    when : 'if' ;
    word : letter+ ;
    fragment letter : 'a'..'z' ; -/
def words : Grammar where
  kind := .lexer
  name := "words"
  rules :=
    [⟨"when", .literal "if", some 1, 0⟩,
      ⟨"word", .plus (.ruleRef "letter" 0) true, some 2, 0⟩,
      ⟨"letter", .range 97 122, none, 0⟩]

/-- The network of words. -/
def wordsNet : Network := words.compile.toOption.getD default

theorem words_compile : words.compile = .ok wordsNet := by
  have hok : words.compile.isOk = true := by decide +kernel
  unfold wordsNet
  cases h : words.compile with
  | ok net => rfl
  | error e => rw [h] at hok; cases hok

theorem words_tokenizes : words.Tokenizes :=
  ⟨rfl, by unfold Unconditional; decide, by decide, by decide⟩

end Grammar

namespace Scanner

/-- A scanner at the beginning of a text. -/
private def atText (text : String) (cache : Cache) : Scanner := { cache, stream := .ofText text }

/-- Whether the longer word is found on the cache that a match of the keyword has left behind. -/
private def prefers : Bool :=
  match (matchToken {} .permissive 100 0).from? (atText "if" (.new Grammar.wordsNet)) with
  | none => false
  | some (_, s) =>
    match (matchToken {} .permissive 100 0).from? (atText "ifs" s.cache) with
    | some (.ok m, _) => decide (1 < (s.cache.table 0).size) && m.silent == ⟨2, 0, 3, none⟩
    | _ => false

theorem words_longest : ∃ warm : Cache, 1 < (warm.table 0).size ∧
    (∃ m s', (matchToken {} .permissive 100 0).from? (atText "ifs" warm) = some (.ok m, s') ∧
      m.silent = ⟨2, 0, 3, none⟩) ∧
    ∃ enough, ∀ fuel, enough ≤ fuel → ∀ settings,
      (matchToken settings .permissive fuel 0).Yields (atText "ifs" warm) fun r s' =>
        (∀ e, r ≠ .error (.exceeded e)) →
          Grammar.words.LongestMatch Grammar.wordsNet 0 (.ofText "ifs") ⟨0, 1, 0⟩
            (r.map TokenMatch.silent) s'.stream.index := by
  have hprefers : prefers = true := by decide +kernel
  have hcache : ∀ text cache, (atText text cache).cache = cache := fun _ _ => rfl
  unfold prefers at hprefers
  split at hprefers
  · cases hprefers
  · next r s hrun =>
    split at hprefers
    · next m s' hrun' =>
      simp only [Bool.and_eq_true, decide_eq_true_eq, beq_iff_eq] at hprefers
      refine ⟨s.cache, hprefers.1, ⟨m, s', hrun', hprefers.2⟩, ?_⟩
      have hworn : (atText "ifs" s.cache).cache.Worn Grammar.wordsNet := by
        rw [hcache]
        exact .matched (hcache "if" (.new Grammar.wordsNet) ▸ .new _ _) hrun
      exact matchToken_longest (s := atText "ifs" s.cache) Grammar.words_compile
        Grammar.words_tokenizes (by decide +kernel) (by decide) hworn
    · cases hprefers

end Scanner

end AdaptiveLL
