import AdaptiveLL.Proofs.Grammar.Lexers
import AdaptiveLL.Proofs.Grammar.Success
import AdaptiveLL.Proofs.Lexing.Ceilings

/-!
# Delimited tokens

A token that begins with one text and ends with another one, with as few characters as possible in
between, has a network of two chains with a loop between them: a state before and after each
character of the two texts, and a lazy decision whether to leave the loop or to pass by one more
character. `Network.Delimits` says so of a network, and `Grammar.Built.exists_delimits` that it
holds of what such a grammar compiles to.
-/

namespace AdaptiveLL

/-! ## Where such a token lies -/

/-- **The states of a delimited token.** Those of the texts are numbered by the characters before
them. -/
structure Stations where
  /-- Where the rule begins. -/
  start : StateId
  opening : Nat → StateId
  closing : Nat → StateId
  /-- Where it is decided whether to leave the loop. -/
  loop : StateId
  /-- Where the loop was left. -/
  left : StateId
  /-- Where one more round begins. -/
  round : StateId
  /-- Before the character of a round. -/
  any : StateId
  /-- After the character of a round. -/
  passed : StateId
  /-- Where a round ends. -/
  ended : StateId
  /-- On the way back to the next round. -/
  back : StateId
  /-- Where the token ends. -/
  stop : StateId

/-- **A delimited token lies in the network,** whose opening text is `a` and whose closing text is
`b`. -/
structure Network.Delimits (net : Network) (a b : List Char) (c : Stations) : Prop where
  start : net.inner c.start = [.epsilon (c.opening 0)]
  opening : ∀ i (hi : i < a.length),
    net.inner (c.opening i) = [.atom (c.opening (i + 1)) a[i].toNat]
  opened : net.inner (c.opening a.length) = [.epsilon c.loop]
  loop : net.inner c.loop = [.epsilon c.left, .epsilon c.round]
  lazy : (net.state c.loop).isLazy = true
  left : net.inner c.left = [.epsilon (c.closing 0)]
  round : net.inner c.round = [.epsilon c.any]
  any : net.inner c.any = [.wildcard c.passed]
  passed : net.inner c.passed = [.epsilon c.ended]
  ended : net.inner c.ended = [.epsilon c.back]
  back : net.inner c.back = [.epsilon c.loop]
  closing : ∀ i (hi : i < b.length),
    net.inner (c.closing i) = [.atom (c.closing (i + 1)) b[i].toNat]
  closed : net.inner (c.closing b.length) = [.epsilon c.stop]
  stop : net.isStop c.stop = true
  stop_ways : (net.state c.stop).transitions = []

/-- One state, and then others. -/
private def stateThen (s : StateId) (q : Nat → StateId) : Nat → StateId
  | 0 => s
  | i + 1 => q i

/-- The states of a text that lies in a chain. -/
theorem LaidText.exists_states {W : StateId → List Transition} {cs : List Char} {s exit : StateId}
    (h : LaidText W s cs exit) : ∃ q : Nat → StateId, q 0 = s ∧ q cs.length = exit ∧
      ∀ i (hi : i < cs.length), W (q i) = [.atom (q (i + 1)) cs[i].toNat] := by
  induction cs generalizing s with
  | nil => exact ⟨fun _ => s, rfl, h, nofun⟩
  | cons c cs ih =>
    obtain ⟨next, hs, hrest⟩ := h
    obtain ⟨q, rfl, hexit, hq⟩ := ih hrest
    refine ⟨stateThen s q, rfl, hexit, fun i hi => ?_⟩
    cases i with
    | zero => exact hs
    | succ i => exact hq i (Nat.lt_of_succ_lt_succ hi)

section Laid

variable {W : StateId → List Transition} {N : String → Nat → StateId → Prop} {rule : Nat}
  {entry exit : StateId}

theorem Laid.of_literal {text : String} (hne : text ≠ "")
    (h : Laid W N rule (.literal text) entry exit) : LaidText W entry text.toList exit := by
  cases h with
  | leaf hleaf =>
    cases hleaf with
    | blank hblank => exact absurd (String.toList_eq_nil_iff.mp hblank) hne
  | text _ hlies => exact hlies

/-- The states of a loop around any character. -/
theorem Laid.of_star_wildcard {greedy : Bool}
    (h : Laid W N rule (.star .wildcard greedy) entry exit) : ∃ round any passed ended back,
      W entry = branchWays greedy round exit ∧ W round = [.epsilon any] ∧
        W any = [.wildcard passed] ∧ W passed = [.epsilon ended] ∧ W ended = [.epsilon back] ∧
          W back = [.epsilon entry] := by
  cases h with
  | leaf hleaf => cases hleaf
  | star halts hround hended hback hentry =>
    obtain _ | ⟨hany, hpassed, hnone⟩ := halts
    obtain _ | _ := hnone
    cases hany with
    | leaf hleaf hany =>
      cases hleaf
      exact ⟨_, _, _, _, _, hentry, hround, hany, hpassed, hended, hback⟩

end Laid

namespace Network.Delimits

variable {net : Network} {a b : List Char} {c : Stations}

/-- **No state of the closing text comes twice.** -/
theorem closing_inj (h : net.Delimits a b c) {i j : Nat} (hi : i ≤ b.length) (hj : j ≤ b.length)
    (heq : c.closing i = c.closing j) : i = j := by
  -- The characters that are still to come are the same.
  induction hrest : b.length - i generalizing i j with
  | zero =>
    obtain rfl : i = b.length := by omega
    rcases Nat.eq_or_lt_of_le hj with rfl | hlt
    · rfl
    · have := h.closing j hlt
      rw [← heq, h.closed] at this
      cases this
  | succ rest ih =>
    have hlt : i < b.length := by omega
    rcases Nat.eq_or_lt_of_le hj with rfl | hlt'
    · have := h.closing i hlt
      rw [heq, h.closed] at this
      cases this
    · have hways := h.closing i hlt
      rw [heq, h.closing j hlt'] at hways
      have hnext : c.closing (i + 1) = c.closing (j + 1) := by
        simp only [List.cons.injEq, Transition.atom.injEq, and_true] at hways
        exact hways.1.symm
      have := ih hlt hlt' hnext (by omega)
      omega

theorem closing_ne_any (h : net.Delimits a b c) {i : Nat} (hi : i < b.length) :
    c.closing i ≠ c.any := by
  intro heq
  have := h.closing i hi
  rw [heq, h.any] at this
  cases this

/-- No state comes twice on the way through a round. -/
theorem nodup_round (h : net.Delimits a b c) (hb : b ≠ []) :
    [c.passed, c.ended, c.back, c.loop, c.left, c.closing 0, c.round, c.any].Nodup := by
  obtain ⟨-, -, -, hloop, -, hleft, hround, hany, hpassed, hended, hback, hclosing, -⟩ := h
  replace hclosing := hclosing 0 (List.length_pos_iff.mpr hb)
  simp only [List.nodup_cons, List.mem_cons, List.not_mem_nil, or_false, not_or, not_false_eq_true,
    List.nodup_nil, and_true]
  and_intros <;> grind

/-- Nor on the way from the opening text into the loop. -/
theorem nodup_enter (h : net.Delimits a b c) (hb : b ≠ []) :
    [c.opening a.length, c.loop, c.left, c.closing 0, c.round, c.any].Nodup := by
  obtain ⟨-, -, hopened, hloop, -, hleft, hround, hany, -, -, -, hclosing, -⟩ := h
  replace hclosing := hclosing 0 (List.length_pos_iff.mpr hb)
  simp only [List.nodup_cons, List.mem_cons, List.not_mem_nil, or_false, not_or, not_false_eq_true,
    List.nodup_nil, and_true]
  and_intros <;> grind

end Network.Delimits

/-! ## How many states there are -/

namespace Layout

variable {d : Draft} {rule : Nat}

private theorem chain_size (cs : List Char) : ∀ {d : Draft} {s : StateId},
    (chain rule s cs).Lays d fun _ d' => d'.size = d.size + cs.length := by
  induction cs with
  | nil => exact .pure rfl
  | cons c cs ih =>
    refine newState_bind (link_bind (ih.mono fun _ d' hsize => ?_))
    rw [hsize, Draft.size_change, Draft.size_add, List.length_cons]
    omega

/-- A text has a state before each of its characters and one after the last one. -/
private theorem literal_size {text : String} (hne : text ≠ "") :
    (literal rule text).Lays d fun _ d' => d'.size = d.size + text.length + 1 := by
  refine require_bind fun _ => ?_
  split
  · next hnil => exact absurd (String.toList_eq_nil_iff.mp hnil) hne
  · refine newState_bind ((chain_size text.toList).bind fun exit d' hsize => .pure ?_)
    rw [hsize, Draft.size_add, String.length_toList]
    omega

private theorem single_size {t : StateId → Transition} :
    (single rule t).Lays d fun _ d' => d'.size = d.size + 2 :=
  newState_bind (newState_bind (link_bind (.pure (by simp))))

/-- A loop around any character has two states for the character, two around it, and three of its
own. -/
private theorem star_wildcard_size {greedy : Bool} :
    (element rule (.star .wildcard greedy)).Lays d fun _ d' => d'.size = d.size + 7 := by
  rw [element_star]
  refine (block_bind (R := fun _ d' => d'.size = d.size + 4) ?_).bind fun b d₁ hsize => ?_
  · simp only [Element.choices, alternatives, element]
    refine single_size.bind fun body d₁ hsize => attach_bind (.pure ?_)
    rw [Draft.size_change, Draft.size_change, hsize, size_opened]
  · refine newState_bind (newState_bind (newState_bind (update_bind (update_bind
      (branch_bind fun t₁ t₂ _ => join_bind (join_bind (decide_bind (.pure ?_))))))))
    simp only [Draft.size_number, Draft.size_change, Draft.size_add, hsize]

private theorem body_size {opening closing : String} (hopening : opening ≠ "")
    (hclosing : closing ≠ "") :
    (element rule (.seq [.literal opening, .star .wildcard false, .literal closing])).Lays d
      fun _ d' => d'.size = d.size + (opening.length + closing.length + 9) := by
  rw [element]
  simp only [sequence, bind_assoc, pure_bind]
  have hloop : ∀ d : Draft, (element rule (.star .wildcard false)).Lays d fun _ d' =>
      d'.size = d.size + 7 := fun _ => star_wildcard_size
  rw [show element rule (.literal opening) = literal rule opening by rw [element],
    show element rule (.literal closing) = literal rule closing by rw [element]]
  refine (literal_size hopening).bind fun first d₁ hfirst => (hloop d₁).bind fun loop d₂ hsecond =>
    (literal_size hclosing).bind fun last d₃ hlast => ?_
  simp only [connect, bind_assoc, pure_bind]
  refine join_bind (join_bind (.pure ?_))
  rw [Draft.size_change, Draft.size_change, hlast, hsecond, hfirst]
  omega

private theorem modeStart_size {name : String} :
    (modeStart name).Lays d fun _ d' => d'.size = d.size + 1 :=
  newState_bind (decide_bind (.pure (by simp)))

private theorem ruleEnds_size : (ruleEnds rule).Lays d fun _ d' => d'.size = d.size + 2 := by
  refine newState_bind (newState_bind (Lays.modifyGet ?_))
  change ((d.add .ruleStart rule).add .ruleStop rule).size = _
  rw [Draft.size_add, Draft.size_add]

private theorem ruleBody_size {r : Rule} {k : Nat}
    (h : (element rule r.body).Lays d fun _ d' => d'.size = d.size + k) :
    (ruleBody rule r).Lays d fun _ d' => d'.size = d.size + k := by
  refine h.bind fun body d₁ hsize => ?_
  refine (Lays.get (Q := fun a d' => a = d₁ ∧ d' = d₁) ⟨rfl, rfl⟩).bind ?_
  rintro _ _ ⟨rfl, rfl⟩
  refine join_bind (Lays.modifyGet ?_)
  change (linked (linked _ _ _) _ _).size = _
  rw [Draft.size_change, Draft.size_change, hsize]

private theorem tokenRule_size {modeStarts : List StateId} {r : Rule} :
    (tokenRule modeStarts rule r).Lays d fun _ d' => d'.size = d.size := by
  unfold tokenRule
  cases r.tokenType with
  | none => exact .pure rfl
  | some type =>
    refine Lays.bind (Q := fun _ d' => d'.size = d.size) rfl fun _ d₁ hsize => ?_
    refine (Lays.get (Q := fun a d' => a = d₁ ∧ d' = d₁) ⟨rfl, rfl⟩).bind ?_
    rintro _ _ ⟨rfl, rfl⟩
    refine Lays.modifyGet ?_
    change (linked _ _ _).size = _
    rw [Draft.size_change, hsize]

end Layout

namespace Grammar

/-! ## The grammar -/

/-- **A grammar of one delimited token:**

    rule : 'opening' .*? 'closing' ; -/
def delimited (name rule opening closing : String) (type : Int) : Grammar where
  kind := .lexer
  name := name
  rules := [⟨rule, .seq [.literal opening, .star .wildcard false, .literal closing], some type, 0⟩]

variable {name rule opening closing : String} {type : Int} {net : Network}

private theorem mem_parts_delimited {e : Element}
    (he : e ∈ (delimited name rule opening closing type).parts) :
    e = .seq [.literal opening, .star .wildcard false, .literal closing] ∨ e = .literal opening ∨
      e = .star .wildcard false ∨ e = .wildcard ∨ e = .literal closing := by
  have hparts : (delimited name rule opening closing type).parts =
      [.seq [.literal opening, .star .wildcard false, .literal closing], .literal opening,
        .star .wildcard false, .wildcard, .literal closing] := rfl
  simpa [hparts] using he

/-- **Such a grammar compiles,** whatever the texts are. -/
theorem exists_compile_delimited (name rule opening closing : String) (type : Int) :
    ∃ net, (delimited name rule opening closing type).compile = .ok net := by
  refine (exists_compile_iff (List.cons_ne_nil _ _)).mpr
    ⟨List.nodup_singleton _, fun r hr e he => ?_⟩
  rcases mem_parts_delimited (mem_parts hr he) with rfl | rfl | rfl | rfl | rfl <;> rfl

open Layout in
/-- **Such a network has a state for each character,** and twelve more. -/
theorem size_of_compile_delimited
    (hcompile : (delimited name rule opening closing type).compile = .ok net)
    (hopening : opening ≠ "") (hclosing : closing ≠ "") :
    net.states.size = opening.length + closing.length + 12 := by
  obtain ⟨_, d, -, hrun, rfl, -⟩ := of_compile hcompile
  suffices hlays : (Layout.grammar (delimited name rule opening closing type)).Lays
      (delimited name rule opening closing type).draft fun _ d' =>
        d'.size = opening.length + closing.length + 12 from hlays.apply hrun
  rw [grammar_eq]
  refine Lays.bind (Q := fun _ d' => d'.size = 1) ?_ fun modes d₁ h₁ => ?_
  · change (List.mapM modeStart ["DEFAULT_MODE"]).Lays _ _
    rw [List.mapM_cons, List.mapM_nil]
    exact modeStart_size.bind fun _ _ hsize => .pure hsize
  refine Lays.bind (Q := fun _ d' => d'.size = 3) ?_ fun _ d₂ h₂ => ?_
  · change (List.forM [0] ruleEnds).Lays _ _
    refine ruleEnds_size.bind fun _ d' hsize => .pure ?_
    rw [hsize, h₁]
  refine Lays.bind (Q := fun _ d' => d'.size = opening.length + closing.length + 12) ?_
    fun _ d₃ h₃ => ?_
  · refine (ruleBody_size (body_size hopening hclosing)).bind fun _ d' hsize => .pure ?_
    rw [hsize, h₂]
    omega
  · refine Lays.bind (Q := fun _ d' => d'.size = d₃.size) ?_ fun _ d' hsize =>
      .pure (hsize.trans h₃)
    exact tokenRule_size.bind fun _ d' hsize => .pure hsize

namespace Built

/-- **A grammar without calls and commands has a network without them.** -/
theorem flat {g : Grammar} {modeStarts : List StateId} {d : Draft}
    (h : g.Built net modeStarts d) (hlexer : g.kind = .lexer)
    (hparts : ∀ e ∈ g.parts, (∀ name level, e ≠ .ruleRef name level) ∧ (∀ a, e ≠ .action a) ∧
      ∀ c, e ≠ .command c) : net.Flat := by
  intro q t ht
  rcases h.lexer_ways hlexer ht with ⟨p, rfl⟩ | ⟨-, i, p, e, he, hcomes⟩
  · rfl
  · obtain ⟨hcall, haction, hcommand⟩ := hparts e he
    cases hcomes with
    | leaf hleaf =>
      cases hleaf with
      | action => exact absurd rfl (haction _)
      | command => exact absurd rfl (hcommand _)
      | _ => rfl
    | char => rfl
    | call => exact absurd rfl (hcall _ _)

variable {modeStarts : List StateId} {d : Draft}
  (h : (delimited name rule opening closing type).Built net modeStarts d)

include h

theorem delimited_flat : net.Flat := by
  refine h.flat rfl fun e he => ?_
  rcases mem_parts_delimited he with rfl | rfl | rfl | rfl | rfl <;> simp

theorem delimited_stopsAtEof : net.StopsAtEof := by
  refine h.stopsAtEof rfl fun e he => ?_
  rcases mem_parts_delimited he with rfl | rfl | rfl | rfl | rfl <;> rfl

/-- The only decision inside the rule is the lazy one of the loop. -/
private theorem isLazy_of_ways {q p p' : StateId}
    (hways : net.inner q = [.epsilon p, .epsilon p']) : (net.state q).isLazy = true := by
  have hstop := Network.not_isStop_of_inner (hways ▸ List.cons_ne_nil _ _)
  rw [Network.inner_of_not_isStop hstop] at hways
  have hlt : q < net.states.size := by
    refine Nat.lt_of_not_le fun hge => ?_
    rw [Network.state, Array.getElem?_eq_none hge] at hways
    cases hways
  -- Only a decision has two ways, and the only part with two ways is the lazy loop.
  have hdecision : (net.state q).decision ≠ none := fun hnone => by
    obtain ⟨t, hone⟩ := h.decided.oneWay q hlt hstop hnone
    rw [hways] at hone
    cases hone
  have hgreedy : (net.state q).nonGreedy = true := by
    rcases h.decided.ways q hlt hdecision with ⟨m, -, hmode⟩ | ⟨i, r, hr, e, he, hat⟩
    · -- The mode has no more alternatives than there are rules.
      have hle : ((delimited name rule opening closing type).tokenStarts m
          (delimited name rule opening closing type).rules.zipIdx).length ≤ 1 :=
        List.length_filterMap_le _ _
      have hlength := congrArg List.length (hways.symm.trans hmode)
      rw [List.length_map] at hlength
      exact absurd hle (hlength ▸ Nat.not_succ_le_self 1)
    · have hpart := mem_parts_delimited (mem_parts (List.mem_of_getElem? hr) he)
      cases hat with
      | choice => simp at hpart
      | option => simp at hpart
      | block hloop hseveral =>
        rcases hloop with rfl | rfl
        · obtain ⟨rfl, -⟩ := by simpa using hpart
          exact absurd hseveral (by decide)
        · simp at hpart
      | round hloop _ _ _ _ hlazy =>
        rcases hloop with rfl | rfl
        · obtain ⟨-, rfl⟩ := by simpa using hpart
          exact hlazy
        · simp at hpart
  unfold State.isLazy State.isDecision
  rw [hgreedy, Bool.and_true]
  exact Option.isSome_iff_ne_none.mpr hdecision

/-- **The token lies in the network,** at the only alternative of the mode. -/
theorem exists_delimits (hopening : opening ≠ "") (hclosing : closing ≠ "") :
    ∃ c, net.Delimits opening.toList closing.toList c ∧
      (net.state 0).transitions = [.epsilon c.start] ∧
        net.ruleTokenTypes[(net.state c.stop).rule]? = some type := by
  have hrule : (delimited name rule opening closing type).rules[0]? = some ⟨rule,
    .seq [.literal opening, .star .wildcard false, .literal closing], some type, 0⟩ := rfl
  obtain ⟨entry, exit, hstart, hlaid, hexit⟩ := h.renders.body hrule
  cases hlaid with
  | leaf hleaf => cases hleaf
  | seq hfirst hrest =>
    obtain _ | ⟨hopened, hloop, hrest⟩ := hrest
    obtain _ | ⟨hleft, hlast, hrest⟩ := hrest
    obtain _ | _ := hrest
    obtain ⟨a, rfl, rfl, hopen⟩ := (hfirst.of_literal hopening).exists_states
    obtain ⟨b, rfl, rfl, hclose⟩ := (hlast.of_literal hclosing).exists_states
    obtain ⟨round, any, passed, ended, back, hbranch, hround, hany, hpassed, hended, hback⟩ :=
      hloop.of_star_wildcard
    have htoken : (delimited name rule opening closing type).TokenRule 0 0 _ type :=
      ⟨hrule, rfl, rfl⟩
    have hstop := h.isStop_stop Nat.zero_lt_one
    refine ⟨⟨_, a, b, _, _, round, any, passed, ended, back, _⟩,
      ⟨hstart, hopen, hopened, hbranch, h.isLazy_of_ways hbranch, hleft, hround, hany, hpassed,
        hended, hback, hclose, hexit, hstop, h.lexer_stop_ways rfl hstop⟩, ?_,
      h.ruleTokenType_eq rfl htoken⟩
    rw [h.state_eq]
    exact h.finished.mode_ways 0 Nat.zero_lt_one

end Built

end Grammar

end AdaptiveLL
