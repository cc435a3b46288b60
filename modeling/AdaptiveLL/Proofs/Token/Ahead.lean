import AdaptiveLL.Token.Stream
import Mathlib.Logic.Function.Iterate

/-!
# The word ahead

What a parser will read from a stream of tokens, up to the end of the input. The stream that is made
of some token types has just these ahead. Every stream that is made of tokens is closed by an end, and
so there is a limit to what can be consumed of it.
-/

namespace AdaptiveLL

namespace TokenStream

/-- **The word ahead of a stream,** up to the end of the input. -/
inductive Ahead : TokenStream → List Symbol → Prop where
  | done {s : TokenStream} : s.lookAhead 1 = Symbol.eof → Ahead s []
  | more {s : TokenStream} {w : List Symbol} :
      Symbol.firstToken ≤ s.lookAhead 1 → Ahead s.consume w → Ahead s (s.lookAhead 1 :: w)

variable {s : TokenStream} {w : List Symbol}

theorem Ahead.lookAhead_nil (h : s.Ahead []) : s.lookAhead 1 = Symbol.eof := by
  cases h with
  | done heof => exact heof

/-- The first symbol of a word ahead is the current one. -/
theorem Ahead.lookAhead_cons {v : Symbol} (h : s.Ahead (v :: w)) :
    s.lookAhead 1 = v ∧ Symbol.firstToken ≤ v ∧ s.consume.Ahead w := by
  cases h with
  | more hv hrest => exact ⟨rfl, hv, hrest⟩

/-- What is ahead are types of tokens. -/
theorem Ahead.firstToken_le (h : s.Ahead w) : ∀ v ∈ w, Symbol.firstToken ≤ v := by
  induction h with
  | done => nofun
  | more hv _ ih =>
    intro v hmem
    rcases List.mem_cons.mp hmem with rfl | hmem
    · exact hv
    · exact ih v hmem

/-- When the word has been consumed, the end of the input is reached. -/
theorem Ahead.consumed (h : s.Ahead w) : (consume^[w.length] s).Ahead [] := by
  induction h with
  | done heof => exact .done heof
  | more _ _ ih => exact ih

/-- At the end of the input a stream stays where it is. -/
theorem consume_of_eof (h : s.lookAhead 1 = Symbol.eof) : s.consume = s := if_pos h

/-! ## Streams with one channel -/

/-- The types of the tokens, in order. -/
private def types (s : TokenStream) : List Symbol := s.tokens.toList.map Token.type

private theorem lookAhead_one (s : TokenStream) :
    s.lookAhead 1 = (s.types[s.index]?).getD Symbol.eof := by
  change (s.tokens[s.index]?.map Token.type).getD Symbol.eof = _
  rw [types, List.getElem?_map, Array.getElem?_toList]

private theorem nextOn_eq {tokens : Array Token} {channel : Int}
    (h : ∀ t ∈ tokens, t.channel = channel) {i : Nat} (hi : i < tokens.size) :
    nextOn tokens channel i = i := by
  unfold nextOn
  dsimp only
  split
  · next hlt =>
    obtain ⟨n, hn⟩ := Nat.exists_eq_add_one_of_ne_zero (Nat.sub_ne_zero_of_lt hlt)
    have hvisible : visible tokens channel i = true := by
      unfold visible onChannel
      rw [Array.getElem?_eq_getElem hi]
      simp [h _ (Array.getElem_mem hi)]
    rw [hn, firstFrom, if_pos hvisible]
  · omega

/-- Where all tokens are on the channel, those after the cursor are ahead. -/
private theorem ahead_of_types (hchannel : ∀ t ∈ s.tokens, t.channel = s.channel)
    (earlier : List Symbol) (htypes : s.types = earlier ++ (w ++ [Symbol.eof]))
    (hindex : s.index = earlier.length) (hw : ∀ v ∈ w, Symbol.firstToken ≤ v) : s.Ahead w := by
  induction w generalizing s earlier with
  | nil =>
    refine .done ?_
    rw [lookAhead_one, htypes, hindex]
    simp
  | cons v w ih =>
    have hv : s.lookAhead 1 = v := by
      rw [lookAhead_one, htypes, hindex]
      simp
    have hge := hw v (List.mem_cons_self ..)
    have hne : s.lookAhead 1 ≠ Symbol.eof := by
      rw [hv]
      rintro rfl
      exact absurd hge (by decide)
    have hsize : s.tokens.size = earlier.length + (w.length + 2) := by
      have := congrArg List.length htypes
      simpa [types] using this
    have hnext : s.consume = s.seek (s.index + 1) := if_neg hne
    have hmoved : (s.seek (s.index + 1)).index = s.index + 1 := nextOn_eq hchannel (by omega)
    refine hv ▸ .more (hv.symm ▸ hge) ?_
    rw [hnext]
    refine ih hchannel (earlier ++ [v]) ?_ ?_ fun u hu => hw u (List.mem_cons_of_mem _ hu)
    · simpa [types, seek] using htypes
    · rw [hmoved, hindex, List.length_append]
      rfl

/-- What does not ask for the position of a token does not see the numbering. -/
private theorem map_numbered {β : Type} (f : Token → β)
    (hf : ∀ (t : Token) (i : Nat), f { t with index := i } = f t) (tokens : List Token) :
    (numbered tokens).toList.map f = tokens.map f := by
  unfold numbered
  calc
    _ = tokens.zipIdx.map (f ∘ Prod.fst) := by
      rw [List.toList_toArray, List.map_map]
      exact List.map_congr_left fun ⟨t, i⟩ _ => hf t i
    _ = tokens.map f := by rw [← List.map_map, List.zipIdx_map_fst]

private theorem closed_eq {tokens : List Token} (h : ∀ t ∈ tokens, t.isEof = false) :
    ∃ position, closed tokens = tokens ++ [.endOfInput position 1 0] := by
  unfold closed
  split
  · next t ht =>
    rw [if_neg (by simp [h t (List.mem_of_getLast? ht)])]
    exact ⟨_, rfl⟩
  · next hnone =>
    obtain rfl := List.getLast?_eq_none_iff.mp hnone
    exact ⟨_, rfl⟩

/-! ## Closed streams -/

/-- **The last token ends the input.** -/
def Closed (s : TokenStream) : Prop := s.typeAt (s.size - 1) = Symbol.eof

/-- How many positions there are after the cursor. -/
def remaining (s : TokenStream) : Nat := s.size - 1 - s.index

private theorem closed_getLast? (tokens : List Token) :
    (closed tokens).getLast?.map Token.type = some Symbol.eof := by
  unfold closed
  split
  · next t ht =>
    split
    · next heof =>
      rw [ht]
      exact congrArg some (beq_iff_eq.mp heof)
    · rw [List.getLast?_concat]
      rfl
  · rfl

/-- **A stream that is made of tokens is closed.** -/
theorem ofTokens_closed (tokens : List Token) (channel : Int) (name : String) :
    (ofTokens tokens channel name).Closed := by
  have htypes : ((numbered (closed tokens)).toList.map Token.type).getLast? = some Symbol.eof := by
    rw [map_numbered _ (fun _ _ => rfl), List.getLast?_map]
    exact closed_getLast? tokens
  rw [List.getLast?_eq_getElem?, List.getElem?_map, List.length_map, Array.length_toList,
    Array.getElem?_toList] at htypes
  change ((numbered (closed tokens))[(numbered (closed tokens)).size - 1]?.map Token.type).getD _ = _
  rw [htypes]
  rfl

theorem Closed.consume (h : s.Closed) : s.consume.Closed := by
  unfold TokenStream.consume
  split
  · exact h
  · exact h

theorem le_firstFrom (p : Nat → Bool) (n i : Nat) : i ≤ firstFrom p n i := by
  induction n generalizing i with
  | zero => exact Nat.le_refl i
  | succ n ih =>
    unfold firstFrom
    split
    · exact Nat.le_refl i
    · exact Nat.le_of_succ_le (ih (i + 1))

/-- **Consuming a token moves on,** except at the end of the input. -/
theorem Closed.remaining_consume_lt (h : s.Closed) (hne : s.lookAhead 1 ≠ Symbol.eof) :
    s.consume.remaining < s.remaining := by
  have hinside := s.inside
  have hindex : s.index ≠ s.size - 1 := fun heq => hne (by
    change s.typeAt s.index = Symbol.eof
    rw [heq]
    exact h)
  have hmoved : s.index + 1 ≤ nextOn s.tokens s.channel (s.index + 1) := by
    unfold nextOn
    dsimp only
    split
    · exact le_firstFrom ..
    · unfold size at hindex
      omega
  unfold TokenStream.consume remaining
  rw [if_neg hne]
  change s.tokens.size - 1 - nextOn s.tokens s.channel (s.index + 1) < s.tokens.size - 1 - s.index
  unfold size at hindex
  omega

/-- The cursor of a closed stream moves on, except at the end of the input. -/
theorem Closed.index_lt_consume (h : s.Closed) (hne : s.lookAhead 1 ≠ Symbol.eof) :
    s.index < s.consume.index := by
  have hlt := h.remaining_consume_lt hne
  have hsize : s.consume.size = s.size := by
    unfold TokenStream.consume
    rw [if_neg hne]
    rfl
  unfold remaining at hlt
  omega

theorem Closed.index_le_consume (h : s.Closed) : s.index ≤ s.consume.index := by
  by_cases heof : s.lookAhead 1 = Symbol.eof
  · exact Nat.le_of_eq (congrArg TokenStream.index (consume_of_eof heof).symm)
  · exact Nat.le_of_lt (h.index_lt_consume heof)

/-! ## Streams of types -/

/-- **A stream of token types has them ahead.** -/
theorem ahead_ofTypes (hw : ∀ v ∈ w, Symbol.firstToken ≤ v) : (ofTypes w).Ahead w := by
  obtain ⟨tokens, htokens⟩ :
    ∃ tokens, tokens = w.zipIdx.map fun (type, i) => Token.ofType type i := ⟨_, rfl⟩
  have hplain : ∀ t ∈ tokens, t.isEof = false ∧ t.channel = defaultChannel := by
    intro t ht
    rw [htokens] at ht
    obtain ⟨⟨v, i⟩, hv, rfl⟩ := List.mem_map.mp ht
    refine ⟨?_, rfl⟩
    have hge := hw v (List.fst_mem_of_mem_zipIdx hv)
    simp only [Token.isEof, Token.ofType, beq_eq_false_iff_ne]
    rintro rfl
    exact absurd hge (by decide)
  have htypes : tokens.map Token.type = w := by
    rw [htokens, List.map_map]
    exact List.zipIdx_map_fst 0 w
  obtain ⟨position, hclosed⟩ := closed_eq fun t ht => (hplain t ht).1
  have hstream : (ofTypes w).tokens = numbered (closed tokens) := by rw [htokens]; rfl
  have hchannel : ∀ t ∈ (ofTypes w).tokens, t.channel = defaultChannel := by
    intro t ht
    have hmem := List.mem_map_of_mem (f := Token.channel) (Array.mem_toList_iff.mpr ht)
    rw [hstream, map_numbered _ (fun _ _ => rfl), hclosed, List.map_append] at hmem
    rcases List.mem_append.mp hmem with hmem | hmem
    · obtain ⟨t', ht', heq⟩ := List.mem_map.mp hmem
      rw [← heq, (hplain t' ht').2]
    · exact List.mem_singleton.mp hmem
  refine ahead_of_types hchannel [] ?_ ?_ hw
  · rw [types, hstream, map_numbered _ (fun _ _ => rfl), hclosed, List.map_append, htypes]
    rfl
  · exact nextOn_eq hchannel (Nat.zero_lt_of_lt (ofTypes w).inside)

end TokenStream

/-! ## Where the cursor rests

The cursor of a stream is moved to tokens that can be seen, and the last token, which ends the
input, can be seen on every channel. So the cursor rests on a visible token wherever a stream is
made or moved, and consuming a token passes just that one: what stands between it and the next
resting place cannot be seen.
-/

namespace TokenStream

/-- **A stream at rest.** The last token ends the input, and the cursor is on a token that can be
seen. -/
structure AtRest (s : TokenStream) : Prop where
  closed : s.Closed
  seen : visible s.tokens s.channel s.index = true

/-- The stream `s'` is the stream `s` further on. -/
structure Reaches (s s' : TokenStream) : Prop where
  tokens_eq : s'.tokens = s.tokens
  channel_eq : s'.channel = s.channel
  index_le : s.index ≤ s'.index

/-- **The tokens between two cursors:** the type and the position of every token that can be seen
from the cursor of `s` on, up to the cursor of `s'` but without the one there. -/
def between (s s' : TokenStream) : List (Symbol × Nat) :=
  ((List.range' s.index (s'.index - s.index)).filter (visible s.tokens s.channel)).map fun i =>
    (s.typeAt i, i)

variable {s s' : TokenStream}

theorem Reaches.refl (s : TokenStream) : s.Reaches s := ⟨rfl, rfl, Nat.le_refl _⟩

theorem between_self (s : TokenStream) : s.between s = [] := by
  unfold between
  rw [Nat.sub_self]
  rfl

/-! ## Searching for a visible token -/

/-- The search passes over nothing that can be seen, and ends at what can be seen or at the end. -/
private theorem firstFrom_passes (p : Nat → Bool) (n i : Nat) :
    (∀ j, i ≤ j → j < firstFrom p n i → p j = false) ∧
      (p (firstFrom p n i) = true ∨ firstFrom p n i = i + n) := by
  induction n generalizing i with
  | zero => exact ⟨fun j hle hlt => absurd hle (Nat.not_le.mpr hlt), .inr rfl⟩
  | succ n ih =>
    unfold firstFrom
    split
    · next hi => exact ⟨fun j hle hlt => absurd hle (Nat.not_le.mpr hlt), .inl hi⟩
    · next hi =>
      obtain ⟨hpassed, hends⟩ := ih (i + 1)
      refine ⟨fun j hle hlt => ?_, hends.imp_right fun heq => heq.trans (by omega)⟩
      rcases Nat.eq_or_lt_of_le hle with rfl | hlt'
      · exact eq_false_of_ne_true hi
      · exact hpassed j hlt' hlt

/-- The token that ends the input can be seen on every channel. -/
theorem Closed.visible_last (h : s.Closed) : visible s.tokens s.channel (s.size - 1) = true := by
  have hlast : s.size - 1 < s.tokens.size :=
    Nat.sub_lt (Nat.zero_lt_of_lt s.inside) Nat.zero_lt_one
  unfold Closed typeAt at h
  unfold visible onChannel
  rw [Array.getElem?_eq_getElem hlast] at h ⊢
  simp only [Option.map_some, Option.getD_some] at h ⊢
  simp [Token.isEof, h]

/-- Where the cursor comes to rest from a position, and that nothing in between can be seen. -/
theorem Closed.nextOn_spec (h : s.Closed) {i : Nat} (hi : i ≤ s.size - 1) :
    i ≤ nextOn s.tokens s.channel i ∧
      visible s.tokens s.channel (nextOn s.tokens s.channel i) = true ∧
      ∀ j, i ≤ j → j < nextOn s.tokens s.channel i → visible s.tokens s.channel j = false := by
  obtain ⟨hpassed, hends⟩ :=
    firstFrom_passes (visible s.tokens s.channel) (s.tokens.size - 1 - i) i
  have hlast : visible s.tokens s.channel (s.tokens.size - 1) = true := h.visible_last
  unfold size at hi
  unfold nextOn
  dsimp only
  split
  · refine ⟨le_firstFrom .., ?_, hpassed⟩
    rcases hends with hseen | heq
    · exact hseen
    · rw [heq, show i + (s.tokens.size - 1 - i) = s.tokens.size - 1 by omega]
      exact hlast
  · exact ⟨hi, hlast, fun j hle hlt => absurd hle (by omega)⟩

/-! ## Moving the cursor -/

/-- **A stream that is made of tokens is at rest.** -/
theorem ofTokens_atRest (tokens : List Token) (channel : Int) (name : String) :
    (ofTokens tokens channel name).AtRest where
  closed := ofTokens_closed tokens channel name
  seen := ((ofTokens_closed tokens channel name).nextOn_spec (Nat.zero_le _)).2.1

/-- Moving the cursor of a stream brings it to rest. -/
theorem AtRest.seek (h : s.AtRest) (i : Nat) : (s.seek i).AtRest where
  closed := h.closed
  seen := by
    rcases Nat.le_total i (s.size - 1) with hi | hi
    · exact (h.closed.nextOn_spec hi).2.1
    · change visible s.tokens s.channel (nextOn s.tokens s.channel i) = true
      unfold nextOn
      dsimp only
      rw [if_neg (by unfold size at hi; omega)]
      exact h.closed.visible_last

theorem AtRest.consume (h : s.AtRest) : s.consume.AtRest := by
  unfold TokenStream.consume
  split
  · exact h
  · exact h.seek _

/-- **Consuming a token passes just that one,** of all that can be seen. -/
theorem Reaches.consume (hreach : s.Reaches s') (hrest : s'.AtRest) :
    s.Reaches s'.consume ∧ s.between s'.consume = s.between s' ++
      if s'.lookAhead 1 = Symbol.eof then [] else [(s'.lookAhead 1, s'.index)] := by
  obtain ⟨htokens, hchannel, hle⟩ := hreach
  split
  · next heof =>
    rw [consume_of_eof heof, List.append_nil]
    exact ⟨⟨htokens, hchannel, hle⟩, rfl⟩
  · next heof =>
    have hlast : s'.index + 1 ≤ s'.size - 1 := by
      have hinside := s'.inside
      have hne : s'.index ≠ s'.size - 1 := fun heq => heof (by
        change s'.typeAt s'.index = Symbol.eof
        rw [heq]
        exact hrest.closed)
      unfold size at hne ⊢
      omega
    have hconsume : s'.consume = s'.seek (s'.index + 1) := if_neg heof
    obtain ⟨hnext, -, hskipped⟩ := hrest.closed.nextOn_spec hlast
    rw [hconsume]
    refine ⟨⟨htokens, hchannel, Nat.le_trans hle (Nat.le_trans (Nat.le_succ _) hnext)⟩, ?_⟩
    have hseen := hrest.seen
    change s.between (s'.seek (s'.index + 1)) =
      s.between s' ++ [(s'.typeAt s'.index, s'.index)]
    unfold between
    rw [htokens, hchannel] at hskipped hseen hnext
    have hindex : (s'.seek (s'.index + 1)).index = nextOn s.tokens s.channel (s'.index + 1) := by
      rw [← htokens, ← hchannel]
      rfl
    rw [hindex]
    generalize nextOn s.tokens s.channel (s'.index + 1) = n at hnext hskipped
    -- The positions up to the cursor, the cursor itself, and those that cannot be seen.
    have hsplit : List.range' s.index (n - s.index) =
        List.range' s.index (s'.index - s.index) ++
          (s'.index :: List.range' (s'.index + 1) (n - (s'.index + 1))) := by
      rw [show n - s.index = (s'.index - s.index) + (n - (s'.index + 1) + 1) by omega,
        ← List.range'_append_1, show s.index + (s'.index - s.index) = s'.index by omega]
      rfl
    have hnone : (List.range' (s'.index + 1) (n - (s'.index + 1))).filter
        (visible s.tokens s.channel) = [] := by
      refine List.filter_eq_nil_iff.mpr fun j hj => ?_
      have hj' := List.mem_range'_1.mp hj
      simp [hskipped j hj'.1 (by omega)]
    rw [hsplit, List.filter_append, List.filter_cons, if_pos hseen, hnone, List.map_append]
    unfold typeAt
    rw [htokens]
    rfl

/-! ## The tokens ahead -/

/-- **The number of tokens ahead,** from the cursor up to the next one that ends the input. -/
def tokensAhead (s : TokenStream) : Nat :=
  (((List.range' s.index (s.size - s.index)).filter (visible s.tokens s.channel)).takeWhile
    fun i => s.typeAt i != Symbol.eof).length

/-- **Consuming a token leaves one less ahead.** -/
theorem AtRest.tokensAhead_consume (h : s.AtRest) (hne : s.lookAhead 1 ≠ Symbol.eof) :
    s.tokensAhead = s.consume.tokensAhead + 1 := by
  have hlast : s.index + 1 ≤ s.size - 1 := by
    have hinside := s.inside
    have hindex : s.index ≠ s.size - 1 := fun heq => hne (by
      change s.typeAt s.index = Symbol.eof
      rw [heq]
      exact h.closed)
    unfold size at hindex ⊢
    omega
  have hconsume : s.consume = s.seek (s.index + 1) := if_neg hne
  obtain ⟨hnext, -, hskipped⟩ := h.closed.nextOn_spec hlast
  have hmoved : (s.seek (s.index + 1)).index = nextOn s.tokens s.channel (s.index + 1) := rfl
  have hinside := (s.seek (s.index + 1)).inside
  rw [hconsume]
  unfold tokensAhead
  rw [hmoved] at hinside ⊢
  change _ < s.size at hinside
  generalize nextOn s.tokens s.channel (s.index + 1) = n at hnext hskipped hinside
  -- The cursor itself, the positions that cannot be seen, and those from the next cursor on.
  have hsplit : List.range' s.index (s.size - s.index) =
      s.index :: (List.range' (s.index + 1) (n - (s.index + 1)) ++ List.range' n (s.size - n)) := by
    rw [show s.size - s.index = (n - (s.index + 1) + (s.size - n)) + 1 by omega,
      List.range'_succ, ← List.range'_append_1, show s.index + 1 + (n - (s.index + 1)) = n by omega]
  have hnone : (List.range' (s.index + 1) (n - (s.index + 1))).filter
      (visible s.tokens s.channel) = [] := by
    refine List.filter_eq_nil_iff.mpr fun j hj => ?_
    have hj' := List.mem_range'_1.mp hj
    simp [hskipped j hj'.1 (by omega)]
  have hfirst : (s.typeAt s.index != Symbol.eof) = true := bne_iff_ne.mpr hne
  rw [hsplit, List.filter_cons, if_pos h.seen, List.filter_append, hnone, List.nil_append,
    List.takeWhile_cons, if_pos hfirst, List.length_cons]
  rfl

end TokenStream

end AdaptiveLL
