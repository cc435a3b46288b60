import AdaptiveLL.Proofs.Grammar.Bounds
import AdaptiveLL.Proofs.Parsing.Choices
import Mathlib.Data.Finset.Lattice.Fold

/-!
# What a parse accepts

A parse keeps to a run through the network that reads the tokens it has consumed. It cannot go wrong
as long as the rest can be read from where it stands: at a decision it takes an alternative from
which the rest can be read, and elsewhere there is only one way on. It comes to an end since runs
are of a bounded length. So it succeeds on exactly the words of the grammar.
-/

namespace AdaptiveLL

namespace Network

variable {net : Network} {n : Nat} {c d e : Stand} {q stop : StateId} {σ : List StateId}
  {u w : List Symbol}

/-! ## Runs and their last steps -/

theorem Runs.reads (h : net.Runs n c w d) : net.Reads c w d := by
  induction h with
  | refl c => exact .refl c
  | hop hhop _ ih => exact .hop hhop ih
  | eat hstop ht hacc _ ih => exact .eat hstop ht hacc ih

theorem Runs.then_hop (h : net.Runs n c u d) (hhop : net.Hop true false d e) :
    net.Runs (n + 1) c u e := by
  induction h with
  | refl c => exact .hop hhop (.refl e)
  | hop hfirst _ ih => exact .hop hfirst (ih hhop)
  | eat hstop ht hacc _ ih => exact .eat hstop ht hacc (ih hhop)

theorem Runs.then_eat (h : net.Runs n c u (q, σ)) (hstop : net.isStop q = false) {t : Transition}
    (ht : t ∈ (net.state q).transitions) {v : Symbol}
    (hacc : t.accepts v net.firstSymbol net.lastSymbol = true) :
    net.Runs (n + 1) c (u ++ [v]) (t.target, σ) := by
  generalize hd : (q, σ) = d at h
  induction h with
  | refl c =>
    subst hd
    exact .eat hstop ht hacc (.refl _)
  | hop hfirst _ ih => exact .hop hfirst (ih hd)
  | eat hstop' ht' hacc' _ ih => exact .eat hstop' ht' hacc' (ih hd)

/-! ## Ways on -/

/-- **A way on along which the word can be read,** up to the end of the outermost rule. -/
def Continues (net : Network) (stop : StateId) (c : Stand) (w : List Symbol) (t : Transition) :
    Prop :=
  (∃ d, t.onward false c.2 = some d ∧ net.Reads d w (stop, [])) ∨
    ∃ v w', w = v :: w' ∧ t.accepts v net.firstSymbol net.lastSymbol = true ∧
      net.Reads (t.target, c.2) w' (stop, [])

theorem Reads.exists_continues (hstop : net.isStop stop = true) (h : net.Reads c w (stop, []))
    (hc : net.isStop c.1 = false) :
    ∃ t ∈ (net.state c.1).transitions, net.Continues stop c w t := by
  cases h with
  | refl =>
    rw [hstop] at hc
    cases hc
  | hop hhop hrest =>
    rcases hhop.along_or_back with ⟨-, t, ht, hon⟩ | ⟨hback, -⟩
    · exact ⟨t, ht, .inl ⟨_, hon, hrest⟩⟩
    · rw [hback] at hc
      cases hc
  | eat _ ht hacc hrest => exact ⟨_, ht, .inr ⟨_, _, rfl, hacc, hrest⟩⟩

/-- At the end of a rule there is no other way than back. -/
theorem Reads.returns {r : StateId} {ρ : List StateId} (h : net.Reads (q, r :: ρ) w (stop, []))
    (hq : net.isStop q = true) : net.Reads (r, ρ) w (stop, []) := by
  cases h with
  | hop hhop hrest =>
    rcases hhop.along_or_back with ⟨hstop, -⟩ | ⟨-, heq⟩
    · rw [show net.isStop q = false from hstop] at hq
      cases hq
    · obtain ⟨rfl, rfl⟩ := List.cons.inj heq
      exact hrest
  | eat hstop =>
    rw [hstop] at hq
    cases hq

end Network

/-- A parse met a ceiling. -/
def Exhausted {α : Type} (r : Except ParseError α) : Prop :=
  (∃ e, r = .error (.prediction (.exceeded e))) ∨ ∃ n, r = .error (.callStackOverflow n)

namespace Parser

/-- **What a parse relies on:** predictions end, the rules keep apart, nothing follows the end of
the input, and decisions are taken where several plain steps lead on. -/
structure Grounds (net : Network) (top : Nat) (stop : StateId) : Prop where
  quiet : net.Quiet
  orderly : net.Orderly
  closed : net.Closed top stop
  single : ∀ q, net.isStop q = false → (net.state q).decision = none →
    (net.state q).transitions.length ≤ 1
  decisions : ∀ q, (net.state q).decision ≠ none →
    net.isStop q = false ∧ ∀ t ∈ (net.state q).transitions, ∃ p, t = .epsilon p

/-- What is left to read, and where that may be: tokens and then the end of the input, or nothing
before the end of the outermost rule. -/
inductive Input (net : Network) (stop : StateId) (w : Walk) (s : TokenStream) :
    List Symbol → Prop where
  | tokens {v : List Symbol} : s.Ahead v → Input net stop w s (v ++ [Symbol.eof])
  | done : s.Ahead [] → w.follows = [] →
      (w.state = stop ∨
        net.isStop w.state = false ∧ (net.state w.state).transitions = [.epsilon stop]) →
      Input net stop w s []

/-- The current token is the first of what is left. -/
private theorem Input.lookAhead_eq {net : Network} {stop : StateId} {w : Walk} {s : TokenStream}
    {v : Symbol} {rest : List Symbol} (h : Input net stop w s (v :: rest)) :
    s.lookAhead 1 = v := by
  generalize hl : v :: rest = l at h
  cases h with
  | @tokens u hahead =>
    cases u with
    | nil => exact hahead.lookAhead_nil.trans (List.cons.inj hl).1.symm
    | cons a u => exact hahead.lookAhead_cons.1.trans (List.cons.inj hl).1.symm
  | done => cases hl

/-- A parse consumes what the network of a parser reads. -/
theorem accepts_eq {net : Network} (hparser : net.isLexer = false) (t : Transition)
    (v : Symbol) : t.accepts v Symbol.firstToken net.maxTokenType =
      t.accepts v net.firstSymbol net.lastSymbol := by
  simp [Network.firstSymbol, Network.lastSymbol, hparser]

/-- What a parse is about: from where to where it goes, on which stream and for which word. -/
structure Task where
  net : Network
  top : Nat
  start : StateId
  stop : StateId
  nodes : Nat
  stream : TokenStream
  word : List Symbol

namespace Task

/-- What is to be read: the word and then the end of the input. -/
def input (k : Task) : List Symbol := k.word ++ [Symbol.eof]

/-- The word is in the language. -/
def Solvable (k : Task) : Prop := k.net.Reads (k.start, []) k.input (k.stop, [])

end Task

/-- **A parse on its way:** after `n` steps it has read `u`, and `rest` is left. If all can be read,
the rest can be read from where the parse stands. -/
structure Course (k : Task) (n : Nat) (w : Walk) (p : Parser) (u rest : List Symbol) : Prop where
  matched : w.Matched k.net
  linked : k.net.Linked k.top w.state w.follows
  run : k.net.Runs n (k.start, []) u w.stand
  input_eq : k.input = u ++ rest
  stream_eq : p.stream = TokenStream.consume^[u.length] k.stream
  faithful : ∀ mode, p.session.cache.Faithful (k.net.regime mode k.nodes)
  input : Input k.net k.stop w p.stream rest
  completes : k.Solvable → k.net.Reads w.stand rest (k.stop, [])

variable {k : Task} {n : Nat} {setup : ParseSetup} {w w' : Walk} {p p' : Parser}
  {u rest : List Symbol}

namespace Course

/-- **A hop keeps a parse on its way.** -/
theorem hop (hg : Grounds k.net k.top k.stop) (h : Course k n w p u rest)
    (hhop : k.net.Hop true false w.stand w'.stand) (hmatched : w'.Matched k.net)
    (hstream : p'.stream = p.stream)
    (hfaithful : ∀ mode, p'.session.cache.Faithful (k.net.regime mode k.nodes))
    (hcompletes : k.Solvable → k.net.Reads w'.stand rest (k.stop, [])) :
    Course k (n + 1) w' p' u rest where
  matched := hmatched
  linked := h.linked.hop hg.orderly hhop
  run := h.run.then_hop hhop
  input_eq := h.input_eq
  stream_eq := hstream.trans h.stream_eq
  faithful := hfaithful
  completes := hcompletes
  input := by
    cases h.input with
    | tokens hahead => exact .tokens (hstream ▸ hahead)
    | done hahead hfollows hstate =>
      rcases hhop.along_or_back with ⟨hinner, t, ht, hon⟩ | ⟨-, heq⟩
      · rcases hstate with hstate | ⟨-, hways⟩
        · have : k.net.isStop w.state = false := hinner
          rw [hstate, hg.closed.isStop] at this
          cases this
        · change t ∈ (k.net.state w.state).transitions at ht
          rw [hways, List.mem_singleton] at ht
          subst ht
          obtain ⟨hstate', hfollows'⟩ := Prod.mk.inj (Option.some.inj hon)
          exact .done (hstream ▸ hahead) (hfollows'.symm.trans hfollows) (.inl hstate'.symm)
      · rw [show w.stand.2 = [] from hfollows] at heq
        cases heq

/-- **Consuming a token keeps a parse on its way.** -/
theorem eat (hg : Grounds k.net k.top k.stop) (h : Course k n w p u rest) (w' : Walk)
    (hstop : k.net.isStop w.state = false) {t : Transition}
    (ht : t ∈ (k.net.state w.state).transitions)
    (hacc : t.accepts (p.stream.lookAhead 1) Symbol.firstToken k.net.maxTokenType = true)
    (hstand : w'.stand = (t.target, w.follows)) (hmatched : w'.Matched k.net)
    (hstream : p'.stream = p.stream.consume)
    (hfaithful : ∀ mode, p'.session.cache.Faithful (k.net.regime mode k.nodes)) :
    ∃ v rest', rest = v :: rest' ∧
      t.accepts v k.net.firstSymbol k.net.lastSymbol = true ∧
      ((k.Solvable → k.net.Reads (t.target, w.follows) rest' (k.stop, [])) →
        Course k (n + 1) w' p' (u ++ [v]) rest') := by
  have hlinked := h.linked.eat hg.orderly hstop ht hacc
  have hstate : w'.state = t.target := congrArg Prod.fst hstand
  have hfollows : w'.follows = w.follows := congrArg Prod.snd hstand
  have hsymbols := accepts_eq hg.quiet.parser t (p.stream.lookAhead 1)
  have hcourse : ∀ {v rest'}, p.stream.lookAhead 1 = v → k.input = u ++ [v] ++ rest' →
      Input k.net k.stop w' p'.stream rest' →
      (k.Solvable → k.net.Reads (t.target, w.follows) rest' (k.stop, [])) →
        Course k (n + 1) w' p' (u ++ [v]) rest' := by
    rintro v rest' rfl hinput hrest hcompletes
    refine ⟨hmatched, ?_, ?_, hinput, ?_, hfaithful, hrest, hstand ▸ hcompletes⟩
    · rw [hstate, hfollows]
      exact hlinked
    · rw [hstand]
      exact h.run.then_eat hstop ht (hsymbols ▸ hacc)
    · rw [hstream, h.stream_eq, List.length_append, List.length_singleton,
        Function.iterate_succ_apply']
  -- Tokens are ahead, or the end of the input has been matched already.
  cases hinput : h.input with
  | @tokens v hahead =>
    have heq := h.input_eq
    cases v with
    | nil =>
      have heof := hahead.lookAhead_nil
      rw [heof] at hacc hsymbols
      refine ⟨Symbol.eof, [], rfl, hsymbols ▸ hacc, hcourse heof (by simpa using heq) ?_⟩
      -- Only the rule that closes the grammar matches the end of the input, and it ends behind it.
      obtain ⟨hrule, hinner, hways⟩ := hg.closed.eof w.state t ht
        ((Transition.accepts_eof (by decide) (by decide)).symm.trans hacc)
      refine .done (by rw [hstream, TokenStream.consume_of_eof heof]; exact hahead) ?_ (.inr ?_)
      · rw [hfollows]
        exact hlinked.eq_nil hg.closed hrule
      · rw [hstate]
        exact ⟨hinner, hways⟩
    | cons v rest' =>
      obtain ⟨hv, -, hahead'⟩ := hahead.lookAhead_cons
      exact ⟨v, rest' ++ [Symbol.eof], rfl, hv ▸ hsymbols ▸ hacc,
        hcourse hv (by simpa using heq) (.tokens (hstream ▸ hahead'))⟩
  | done _ _ hdone =>
    rcases hdone with hdone | ⟨-, hways⟩
    · rw [hdone, hg.closed.isStop] at hstop
      cases hstop
    · rw [hways, List.mem_singleton] at ht
      subst ht
      cases hacc

end Course

/-! ## Choosing -/

/-- The fuel suffices for the predictions of a parse. -/
def Fueled (setup : ParseSetup) (k : Task) : Prop :=
  ∀ d ∈ k.net.decisions.toList, k.net.enough emptyReturn k.nodes setup.settings d ≤ setup.fuel

/-- What choosing an alternative comes to: the cache stays faithful, and unless a ceiling is met,
the way that is chosen is one along which the rest can be read. -/
private def Chosen (k : Task) (w : Walk) (p : Parser) (rest : List Symbol)
    (r : Except ParseError (Walk × Nat)) (p₁ : Parser) : Prop :=
  p₁.stream = p.stream ∧ (∀ mode, p₁.session.cache.Faithful (k.net.regime mode k.nodes)) ∧
    match r with
    | .error e => k.net.Reads w.stand rest (k.stop, []) → Exhausted (.error e : Except _ Unit)
    | .ok (w₁, alt) => w.Alike w₁ ∧ (k.net.Reads w.stand rest (k.stop, []) →
        ∃ t, (k.net.state w.state).transitions[alt - 1]? = some t ∧
          k.net.Continues k.stop w.stand rest t)

private theorem predict_chosen (hg : Grounds k.net k.top k.stop) (hmode : setup.settings.mode ≠ .sll)
    (hfuel : Fueled setup k) (h : Course k n w p u rest) {d : Nat}
    (hd : (k.net.state w.state).decision = some d)
    (hseveral : 1 < (k.net.state w.state).transitions.length) :
    (predict setup w d).Yields p fun r p₁ => p₁.stream = p.stream ∧
      (∀ mode, p₁.session.cache.Faithful (k.net.regime mode k.nodes)) ∧
        (k.net.Reads w.stand rest (k.stop, []) → Exhausted r ∨ ∃ alt, r = .ok alt ∧
          ∃ t, (k.net.state w.state).transitions[alt - 1]? = some t ∧
            k.net.Continues k.stop w.stand rest t) := by
  obtain ⟨hinner, hways⟩ := hg.decisions w.state (by rw [hd]; nofun)
  have hdecision := hg.quiet.consistent.decision_state _ _ hd
  have hcalls : ∀ t ∈ (k.net.state w.state).transitions, t.isRule = false := by
    intro t ht
    obtain ⟨q, rfl⟩ := hways t ht
    rfl
  have hfollows := h.matched.followsOf_eq
  obtain ⟨res, s', hrun, _, _, -, -, hc', hleast⟩ := Session.predict_least hg.quiet hg.orderly
    hg.closed h.faithful hdecision hinner hcalls (hfollows ▸ h.linked) hmode
    (setup.host.atLevel w.precedence)
    (hfuel _ (Array.mem_toList_iff.mpr (Array.mem_of_getElem? hdecision))) p.stream p.session rfl
  refine ⟨res.mapError .prediction, { p with session := settle s' },
    by rw [predict_from?, hrun]; rfl, rfl, hc', fun hreads => ?_⟩
  -- The rest can be read, so some alternative is viable, and the least one is predicted.
  cases h.input with
  | done _ _ hdone =>
    rcases hdone with hdone | ⟨-, hone⟩
    · rw [hdone, hg.closed.isStop] at hinner
      cases hinner
    · rw [hone] at hseveral
      exact absurd hseveral (Nat.lt_irrefl 1)
  | @tokens v hahead =>
    have hviable : ∃ a, k.net.Viable k.stop w.state (k.net.followsOf w.callers.reverse)
        (v ++ [Symbol.eof]) a := by
      obtain ⟨t, ht, hcontinues⟩ := hreads.exists_continues hg.closed.isStop hinner
      obtain ⟨q, rfl⟩ := hways t ht
      obtain ⟨i, hi⟩ := List.getElem?_of_mem ht
      rcases hcontinues with ⟨c, hon, hrest⟩ | ⟨_, _, -, hacc, -⟩
      · obtain rfl := Option.some.inj hon
        exact ⟨i + 1, i, _, hi, rfl, by rw [hfollows]; exact hrest⟩
      · cases hacc
    classical
    rcases hleast v (Nat.find hviable) hahead (Nat.find_spec hviable)
      fun b hb => Nat.find_min' hviable hb with hok | ⟨e, hspent⟩
    · obtain ⟨i, t, hi, heq, hrest⟩ := Nat.find_spec hviable
      refine .inr ⟨Nat.find hviable, by rw [hok]; rfl, t, by rw [heq]; exact hi, .inl ?_⟩
      obtain ⟨q, rfl⟩ := hways t (List.mem_of_getElem? hi)
      rw [hfollows] at hrest
      exact ⟨_, rfl, hrest⟩
    · exact .inl (.inl ⟨e, by rw [hspent]; rfl⟩)

private theorem choose_chosen (hg : Grounds k.net k.top k.stop) (hmode : setup.settings.mode ≠ .sll)
    (hfuel : Fueled setup k) (h : Course k n w p u rest) (hstop : k.net.isStop w.state = false) :
    (choose setup (k.net.state w.state) w).Yields p (Chosen k w p rest) := by
  -- Where there is no choice, the only transition goes on with the rest if anything does.
  have honly : (k.net.state w.state).transitions.length ≤ 1 →
      (pure (w, 1) : Parsing (Walk × Nat)).Yields p (Chosen k w p rest) := by
    intro hlength
    refine .pure ⟨rfl, h.faithful, ⟨rfl, rfl, rfl⟩, fun hreads => ?_⟩
    obtain ⟨t, ht, hcontinues⟩ := hreads.exists_continues hg.closed.isStop hstop
    change t ∈ (k.net.state w.state).transitions at ht
    match hways : (k.net.state w.state).transitions with
    | [] => rw [hways] at ht; cases ht
    | [t'] =>
      rw [hways, List.mem_singleton] at ht
      exact ⟨t', rfl, ht ▸ hcontinues⟩
    | _ :: _ :: _ =>
      rw [hways] at hlength
      simp at hlength
  unfold choose
  split
  · next d hd =>
    split
    · next hseveral =>
      refine (predict_chosen hg hmode hfuel h hd hseveral).bind ?_ ?_
      · rintro alt p₁ ⟨hstream, hfaithful, hchoice⟩
        refine .get_bind (.pure ⟨hstream, hfaithful, ⟨rfl, rfl, rfl⟩, fun hreads => ?_⟩)
        rcases hchoice hreads with (⟨e, he⟩ | ⟨m, hm⟩) | ⟨_, heq, ht⟩
        · cases he
        · cases hm
        · exact Except.ok.inj heq ▸ ht
      · rintro e p₁ ⟨hstream, hfaithful, hchoice⟩
        refine ⟨hstream, hfaithful, fun hreads => ?_⟩
        rcases hchoice hreads with (⟨e', he⟩ | ⟨m, hm⟩) | ⟨_, heq, -⟩
        · exact .inl ⟨e', congrArg Except.error (Except.error.inj he)⟩
        · exact .inr ⟨m, congrArg Except.error (Except.error.inj hm)⟩
        · cases heq
    · next hfew => exact honly (Nat.le_of_not_lt hfew)
  · next hnone => exact honly (hg.single _ hstop hnone)

/-! ## Whole steps -/

/-- What one step of a parse comes to. -/
private def StepEnds (k : Task) (n : Nat) (r : Except ParseError (Walk ⊕ ParseTrace))
    (p' : Parser) : Prop :=
  match r with
  | .ok (.inl w') => ∃ u rest, Course k (n + 1) w' p' u rest
  | .ok (.inr _) => k.Solvable ∧ p'.stream = TokenStream.consume^[k.word.length] k.stream
  | .error e => k.Solvable → Exhausted (.error e : Except _ Unit)

/-- Nothing is read up to the end of the outermost rule without the end of the input. -/
private def Ended (k : Task) : Prop :=
  ∀ u, k.net.Reads (k.start, []) u (k.stop, []) → Symbol.eof ∈ u

/-- At the end of the outermost rule everything has been read. -/
private theorem Course.finished (hg : Grounds k.net k.top k.stop) (hended : Ended k)
    (hahead : k.stream.Ahead k.word) (h : Course k n w p u rest)
    (hstop : k.net.isStop w.state = true) (hfollows : w.follows = []) :
    k.Solvable ∧ p.stream = TokenStream.consume^[k.word.length] k.stream := by
  have hlinked := h.linked
  rw [hfollows] at hlinked
  have hstate : w.state = k.stop := by
    cases hlinked with
    | base htop => exact hg.closed.only _ hstop htop
  have hreads : k.net.Reads (k.start, []) u (k.stop, []) := by
    have := h.run.reads
    rwa [show w.stand = (k.stop, []) from Prod.ext hstate hfollows] at this
  have heq := h.input_eq
  have hstream := h.stream_eq
  cases h.input with
  | @tokens v _ =>
    -- Only a part of the word was read, and the end of the input is not in it.
    rw [← List.append_assoc] at heq
    have hprefix : k.word = u ++ v := List.append_cancel_right heq
    have hmem : Symbol.eof ∈ k.word := hprefix ▸ List.mem_append_left _ (hended u hreads)
    exact absurd (hahead.firstToken_le _ hmem) (by decide)
  | done =>
    rw [List.append_nil] at heq
    refine ⟨by unfold Task.Solvable; rwa [heq], ?_⟩
    rw [hstream, ← heq, Task.input, List.length_append, List.length_singleton,
      Function.iterate_succ_apply', TokenStream.consume_of_eof hahead.consumed.lookAhead_nil]

private theorem step_ends (hg : Grounds k.net k.top k.stop) (hended : Ended k)
    (hahead : k.stream.Ahead k.word) (hmode : setup.settings.mode ≠ .sll)
    (hfuel : Fueled setup k) (h : Course k n w p u rest) :
    (step setup k.net w).Yields p (StepEnds k n) := by
  cases hstop : k.net.isStop w.state with
  | true =>
    refine (step_leaves h.matched hstop).mono ?_
    rintro r p' ⟨rfl, hleft⟩
    cases hleft with
    | @back w' hhop hmatched =>
      refine ⟨u, rest, h.hop hg hhop hmatched rfl h.faithful fun hsolvable => ?_⟩
      have hreads := h.completes hsolvable
      rcases hhop.along_or_back with ⟨hinner, -⟩ | ⟨-, heq⟩
      · rw [show k.net.isStop w.state = false from hinner] at hstop
        cases hstop
      · rw [show w.stand = (w.state, w'.stand.1 :: w'.stand.2) from Prod.ext rfl heq] at hreads
        exact hreads.returns hstop
    | done hfollows => exact h.finished hg hended hahead hstop hfollows
  | false =>
    refine step_yields hg.orderly h.matched hstop ((choose_chosen hg hmode hfuel h hstop).mono ?_)
    rintro (e | ⟨w₁, alt⟩) p₁ ⟨hstream, hfaithful, hchosen⟩
    · exact fun hsolvable => hchosen (h.completes hsolvable)
    -- A transition was chosen from which the rest can be read, if it can be read from here.
    obtain ⟨hlike, hchosen⟩ := hchosen
    refine ⟨hlike, ?_⟩
    split
    · next hnone =>
      intro e hsolvable
      obtain ⟨t, ht, -⟩ := hchosen (h.completes hsolvable)
      rw [hnone] at ht
      cases ht
    · next t ht =>
      have hmem := List.mem_of_getElem? ht
      have hcontinues : k.Solvable → k.net.Continues k.stop w.stand rest t := by
        intro hsolvable
        obtain ⟨t', ht', hcontinues⟩ := hchosen (h.completes hsolvable)
        rw [ht] at ht'
        exact Option.some.inj ht' ▸ hcontinues
      have hfollows : w₁.follows = w.follows := congrArg Prod.snd hlike.stand_eq
      intro r' p' htaken
      cases htaken with
      | @hop w₂ _ hon hmatched hstream' hcache =>
        rw [hfollows] at hon
        refine ⟨u, rest, h.hop hg (.along (fun hs => by simp [hstop] at hs) hmem hon) hmatched
          (hstream'.trans hstream) (fun mode => hcache ▸ hfaithful mode) fun hsolvable => ?_⟩
        rcases hcontinues hsolvable with ⟨d, hon', hreads⟩ | ⟨_, _, -, hacc, -⟩
        · rw [show w.stand.2 = w.follows from rfl, hon] at hon'
          rwa [← Option.some.inj hon'] at hreads
        · rw [Transition.onward_match (Transition.isEpsilon_of_accepts hacc)] at hon
          cases hon
      | @eat w₂ _ hacc hlike' hstream' hcache =>
        have hfollows' : w₂.follows = w₁.follows := congrArg Prod.snd hlike'.stand_eq
        rw [hstream] at hacc
        obtain ⟨v, rest', rfl, hacc', hcourse⟩ := h.eat hg { w₂ with state := t.target } hstop hmem
          hacc (Prod.ext rfl (hfollows'.trans hfollows))
          (hlike'.matched (hlike.matched h.matched)) (hstream'.trans (congrArg _ hstream))
          fun mode => hcache ▸ hfaithful mode
        refine ⟨u ++ [v], rest', hcourse fun hsolvable => ?_⟩
        rcases hcontinues hsolvable with ⟨d, hon, -⟩ | ⟨_, _, heq, -, hreads⟩
        · rw [Transition.onward_match (Transition.isEpsilon_of_accepts hacc')] at hon
          cases hon
        · obtain ⟨rfl, rfl⟩ := List.cons.inj heq
          exact hreads
      | mismatched heps hacc =>
        intro hsolvable
        rcases hcontinues hsolvable with ⟨d, hon, -⟩ | ⟨v, rest', rfl, hacc', -⟩
        · rw [Transition.onward_match heps] at hon
          cases hon
        · rw [hstream, h.input.lookAhead_eq, accepts_eq hg.quiet.parser, hacc'] at hacc
          cases hacc
      | guarded hguard => exact fun _ => absurd (hg.quiet.unguarded _ _ hmem) hguard
      | overflow => exact fun _ => .inr ⟨_, rfl⟩

/-! ## Whole parses -/

/-- **A parse from the start** reads what the network reads from there. -/
private theorem loop_ends (hg : Grounds k.net k.top k.stop) (hended : Ended k)
    (hahead : k.stream.Ahead k.word) (hmode : setup.settings.mode ≠ .sll) (hfuel : Fueled setup k)
    {bound : Nat} (hbound : ∀ n u d, k.net.Runs n (k.start, []) u d →
      u.length ≤ k.word.length + 1 → n ≤ bound) (hsteps : bound < setup.fuel)
    (h : Course k 0 w p [] k.input) :
    (Run.loop (step setup k.net) setup.fuel w).Yields p fun r p' =>
      match r with
      | .ok _ => k.Solvable ∧ p'.stream = TokenStream.consume^[k.word.length] k.stream
      | .error e => k.Solvable → Exhausted (.error e : Except _ Unit) := by
  refine Run.Yields.loop_counted (fun n w p => ∃ u rest, Course k n w p u rest) bound
    ?_ ?_ ⟨[], _, h⟩ (by omega)
  · rintro n w p ⟨u, rest, h⟩
    refine hbound n u w.stand h.run ?_
    have := congrArg List.length h.input_eq
    rw [Task.input, List.length_append, List.length_append, List.length_singleton] at this
    omega
  · rintro n w p ⟨u, rest, h⟩
    refine (step_ends hg hended hahead hmode hfuel h).mono ?_
    rintro (e | w' | t) p' hends <;> exact hends

/-- What a parse comes to apart from its journal is what its loop comes to. -/
theorem parse_yields {net : Network} (hnet : p.session.cache.net = net) {rule : String}
    {i : Nat} (hi : net.ruleIndex? rule = some i)
    {R : Except ParseError ParseTrace → TokenStream → Prop}
    (h : (Run.loop (step setup net) setup.fuel (begin setup net i p.stream.index)).Yields p
      fun r p' => R r p'.stream) :
    (parse setup rule).Yields p fun r p' => R r p'.stream := by
  obtain ⟨r, p', hrun, hR⟩ := h
  unfold parse
  refine .get_bind ?_
  simp only [hnet, hi]
  refine (Run.Yields.outcome (Q := fun r' p₁ => r' = .ok r ∧ p₁ = p')
    ⟨r, p', hrun, rfl, rfl⟩).bind ?_ fun _ _ heq => nomatch heq.1
  rintro r' _ ⟨heq, rfl⟩
  obtain rfl := Except.ok.inj heq
  cases r' with
  | ok t => exact .modify_bind (.pure hR)
  | error e => exact .modify_bind (.throw hR)

end Parser

namespace Grammar.Built

variable {g : Grammar} {net : Network} {modeStarts : List StateId} {d : Draft}

/-- The network of a grammar that is closed by a rule has what a parse of the rule relies on. -/
theorem grounds (h : g.Built net modeStarts d) (hparser : g.kind = .parser) (hplain : g.Unconditional)
    (hno : net.NoReentry) (hword : net.states.size ≤ emptyReturn) {top : Nat} {r : Rule}
    {es : List Element} (hr : g.rules[top]? = some r) (hclosed : g.ClosedBy r es) :
    Parser.Grounds net top (g.stopState top) where
  quiet := h.quiet hparser hplain hno hword
  orderly := h.orderly hparser
  closed := h.closed hparser hr hclosed
  single _ hstop hq := h.length_le_one hparser hstop hq
  decisions _ hq := h.of_decision hparser hq

/-- What is read up to the end of a rule that closes the grammar ends with the end of the input. -/
theorem reads_closing_iff (h : g.Built net modeStarts d) {top : Nat} {r : Rule} {es : List Element}
    (hr : g.rules[top]? = some r) (hclosed : g.ClosedBy r es) {u : List Symbol} :
    net.Reads (g.startState top, []) u (g.stopState top, []) ↔
      ∃ w, u = w ++ [Symbol.eof] ∧ g.Denotes net.firstSymbol net.lastSymbol (.seq es) w := by
  rw [h.reads_iff hr, hclosed.body_eq, denotes_seq_token]

end Grammar.Built

/-- **A parse succeeds on exactly the words of the grammar.** Let a parser grammar be without
conditions and without re-entry, let every round of its loops consume something, and let it be
closed by a rule, whose body are some elements and then the end of the input. Unless a ceiling is
met, a parse of the rule comes to an end, and it succeeds if and only if the elements stand for the
word ahead. If it does, all of the word has been consumed. Nothing depends on what earlier
predictions have left in the cache. -/
theorem Parser.parse_accepts_language {g : Grammar} {net : Network} (hcompile : g.compile = .ok net)
    (hparser : g.kind = .parser) (hplain : g.Unconditional) (hno : net.NoReentry)
    (hword : net.states.size ≤ emptyReturn)
    (hloops : g.LoopsConsume net.firstSymbol net.lastSymbol) {top : Nat} {r : Rule}
    {es : List Element} (hr : g.rules[top]? = some r) (hclosed : g.ClosedBy r es)
    {settings : PredictionSettings} (hmode : settings.mode ≠ .sll) {s : Session}
    (hused : s.cache.Used net fun _ _ => True) {stream : TokenStream} {w : List Symbol}
    (hahead : stream.Ahead w) (host : Oracle) (maxDepth maxEvents : Nat) :
    ∃ enough, ∀ fuel, enough ≤ fuel →
      (parse (setup settings host fuel maxDepth maxEvents) r.name).Yields ⟨s, stream⟩
        fun res p => Exhausted res ∨
          ((∃ trace, res = .ok trace) ↔ g.Denotes net.firstSymbol net.lastSymbol (.seq es) w) ∧
            ∀ trace, res = .ok trace → p.stream = TokenStream.consume^[w.length] stream := by
  obtain ⟨modeStarts, d, hbuilt⟩ := Grammar.exists_built hcompile
  have hlt := (List.getElem?_eq_some_iff.mp hr).1
  have hgrounds := hbuilt.grounds hparser hplain hno hword hr hclosed
  obtain ⟨nodes, hc⟩ := hused.faithful hgrounds.quiet
  have hnet : s.cache.net = net := (hc .ll).net_eq
  -- A run that reads the word and the end of the input has a bounded length, and the parse keeps to
  -- one; so a larger fuel than that is never used up by its steps.
  obtain ⟨bound, hbound⟩ := hbuilt.ends hno hloops hr (w.length + 1)
  let k : Task := ⟨net, top, g.startState top, g.stopState top, nodes, stream, w⟩
  have hsolvable : k.Solvable ↔ g.Denotes net.firstSymbol net.lastSymbol (.seq es) w := by
    refine (hbuilt.reads_closing_iff hr hclosed).trans ⟨?_, fun hw => ⟨w, rfl, hw⟩⟩
    rintro ⟨v, heq, hv⟩
    rwa [show w = v from List.append_cancel_right heq]
  have hended : Ended k := by
    intro u hu
    obtain ⟨v, rfl, -⟩ := (hbuilt.reads_closing_iff hr hclosed).mp hu
    exact List.mem_append_right _ (List.mem_singleton_self _)
  refine ⟨max (bound + 1) (net.decisions.toList.toFinset.sup
    (net.enough emptyReturn nodes settings)), fun fuel hfuel => ?_⟩
  have hfueled : Fueled (setup settings host fuel maxDepth maxEvents) k := fun d hd =>
    (Finset.le_sup (f := net.enough emptyReturn nodes settings) (List.mem_toFinset.mpr hd)).trans
      ((le_max_right _ _).trans hfuel)
  have hstart : (begin (setup settings host fuel maxDepth maxEvents) net top stream.index).state =
      g.startState top := by
    change net.ruleStarts[top]?.getD 0 = g.startState top
    rw [hbuilt.start_iff.mpr ⟨hlt, rfl⟩]
    rfl
  have hcourse : Course k 0 (begin (setup settings host fuel maxDepth maxEvents) net top
      stream.index) ⟨s, stream⟩ [] k.input := by
    have hstand : (begin (setup settings host fuel maxDepth maxEvents) net top
        stream.index).stand = (g.startState top, []) := Prod.ext hstart rfl
    refine ⟨begin_matched _ _, ?_, ?_, rfl, rfl, hc, .tokens hahead, fun h => ?_⟩
    · rw [hstart]
      exact .base (hbuilt.rule_start hlt)
    · rw [hstand]
      exact .refl _
    · rw [hstand]
      exact h
  have hloop := loop_ends hgrounds hended hahead hmode hfueled hbound
    (Nat.lt_of_succ_le ((le_max_left _ _).trans hfuel)) hcourse
  refine (parse_yields hnet (hbuilt.ruleIndex?_eq hr) (R := fun r s' => match r with
    | .ok _ => k.Solvable ∧ s' = TokenStream.consume^[w.length] stream
    | .error e => k.Solvable → Exhausted (.error e : Except _ Unit)) (hloop.mono ?_)).mono ?_
  · rintro (e | t) p h <;> exact h
  · rintro (e | t) p h
    · by_cases hw : k.Solvable
      · rcases h hw with ⟨e', he⟩ | ⟨m, hm⟩
        · exact .inl (.inl ⟨e', congrArg Except.error (Except.error.inj he)⟩)
        · exact .inl (.inr ⟨m, congrArg Except.error (Except.error.inj hm)⟩)
      · exact .inr ⟨⟨nofun, fun hd => absurd (hsolvable.mpr hd) hw⟩, nofun⟩
    · exact .inr ⟨⟨fun _ => hsolvable.mp h.1, fun _ => ⟨t, rfl⟩⟩, fun _ _ => h.2⟩

/-! ## Nested pairs -/

namespace Grammar

/-- A pair is more than nothing. -/
theorem nested_loopsConsume (lo hi : Symbol) : nested.LoopsConsume lo hi := by
  have hloop : ∀ body greedy, .star body greedy ∈ nested.parts ∨ .plus body greedy ∈ nested.parts →
      body = .seq [.token 1, .ruleRef "pairs" 0, .token 2] := by
    simp [parts, nested, Element.parts, Element.partsOf]
  intro body greedy hmem hnil
  rw [hloop body greedy hmem] at hnil
  generalize hw : ([] : List Symbol) = w at hnil
  cases hnil with
  | symbol h => cases h
  | silent h => cases h
  | seq_cons hfirst =>
    obtain ⟨rfl, -⟩ := List.append_eq_nil_iff.mp hw.symm
    cases hfirst with
    | silent h => cases h

end Grammar

theorem Parser.parse_accepts_nested : ∃ enough, ∀ fuel, enough ≤ fuel →
    (parse (setup {} .permissive fuel) "text").Yields
      ⟨.new (.new Grammar.nestedNet), .ofTypes [1, 1, 2, 2]⟩ fun res p => Exhausted res ∨
        ((∃ trace, res = .ok trace) ↔ Grammar.nested.Denotes Grammar.nestedNet.firstSymbol
          Grammar.nestedNet.lastSymbol (.seq [.ruleRef "pairs" 0]) [1, 1, 2, 2]) ∧
            ∀ trace, res = .ok trace →
              p.stream = TokenStream.consume^[4] (.ofTypes [1, 1, 2, 2]) := by
  have hnew : (Session.new (.new Grammar.nestedNet)).cache = .new Grammar.nestedNet := rfl
  exact parse_accepts_language Grammar.compile_nested rfl Grammar.nested_unconditional
    Grammar.nested_noReentry (by decide +kernel) (Grammar.nested_loopsConsume _ _)
    (show Grammar.nested.rules[0]? = some _ from rfl) Grammar.nested_closedBy
    (show ({} : PredictionSettings).mode ≠ .sll by decide) (hnew ▸ .new _ _)
    (TokenStream.ahead_ofTypes (w := [1, 1, 2, 2]) (by decide)) .permissive _ _

end AdaptiveLL
