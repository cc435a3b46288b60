import AdaptiveLL.Proofs.Token.Ahead

/-!
# Looking ahead and behind

A stream is read in two ways: by moving the cursor, and by looking from where the cursor is. Both
search for tokens that can be seen, but each by a loop of its own, and they treat an end of the
input differently: looking ahead stops there, looking behind passes over it, and the cursor can be
set after it. That the two agree is what a prediction relies on, which reads ahead and then sets the
cursor back.

The cursor of a stream that is made of tokens stays at rest whatever moves are made. From a stream
at rest one move ahead passes just the token at the cursor, so it shifts what is seen ahead by one
and what is seen behind by one the other way; the statements on several moves follow by induction on
their number.
-/

namespace AdaptiveLL

namespace TokenStream

variable {s : TokenStream}

/-! ## Moves -/

/-- A move of the cursor. -/
inductive Move where
  | consume
  | seek (i : Nat)

/-- Makes a move. -/
def Move.perform (s : TokenStream) : Move → TokenStream
  | consume => s.consume
  | seek i => s.seek i

/-- Makes moves one after the other. -/
def performAll (s : TokenStream) (moves : List Move) : TokenStream := moves.foldl Move.perform s

/-- The stream shows the same tokens; the cursor may be elsewhere. -/
structure SameTokens (s s' : TokenStream) : Prop where
  tokens_eq : s'.tokens = s.tokens
  channel_eq : s'.channel = s.channel

theorem SameTokens.trans {s s' s'' : TokenStream} (h : SameTokens s s') (h' : SameTokens s' s'') :
    SameTokens s s'' :=
  ⟨h'.tokens_eq.trans h.tokens_eq, h'.channel_eq.trans h.channel_eq⟩

theorem sameTokens_consume (s : TokenStream) : SameTokens s s.consume := by
  unfold TokenStream.consume
  split <;> exact ⟨rfl, rfl⟩

/-- A move leaves the tokens alone and the cursor at rest. -/
theorem AtRest.perform (h : s.AtRest) (m : Move) :
    SameTokens s (m.perform s) ∧ (m.perform s).AtRest := by
  cases m with
  | consume => exact ⟨sameTokens_consume s, h.consume⟩
  | seek i => exact ⟨⟨rfl, rfl⟩, h.seek i⟩

/-- **Any moves leave the tokens alone and the cursor at rest.** -/
theorem AtRest.performAll (h : s.AtRest) (moves : List Move) :
    SameTokens s (s.performAll moves) ∧ (s.performAll moves).AtRest := by
  induction moves generalizing s with
  | nil => exact ⟨⟨rfl, rfl⟩, h⟩
  | cons m moves ih =>
    obtain ⟨hsame, hrest⟩ := h.perform m
    obtain ⟨hsame', hrest'⟩ := ih hrest
    exact ⟨hsame.trans hsame', hrest'⟩

/-- At rest the cursor is on a token of the channel or on an end. -/
theorem AtRest.current_seen (h : s.AtRest) :
    s.get? s.index = some s.current ∧
      (s.current.channel = s.channel ∨ s.current.type = Symbol.eof) := by
  have hget : s.tokens[s.index]? = some s.current := Array.getElem?_eq_getElem s.inside
  have hseen := h.seen
  unfold visible at hseen
  rw [hget] at hseen
  exact ⟨hget, by simpa [onChannel, Token.isEof] using hseen⟩

/-- **Setting the cursor to where it rests changes nothing.** -/
theorem AtRest.seek_index (h : s.AtRest) : s.seek s.index = s := by
  have hseen := h.seen
  have hinside := s.inside
  have hindex : nextOn s.tokens s.channel s.index = s.index := by
    unfold nextOn
    dsimp only
    split
    · next hlt =>
      obtain ⟨n, hn⟩ := Nat.exists_eq_add_one_of_ne_zero (Nat.sub_ne_zero_of_lt hlt)
      rw [hn, firstFrom, if_pos hseen]
    · omega
  unfold TokenStream.seek
  cases s
  simp only [mk.injEq, true_and]
  exact hindex

/-! ## Looking ahead -/

/-- What is ahead of a position does not depend on the cursor. -/
theorem SameTokens.typeAhead_eq {s' : TokenStream} (h : SameTokens s s') (n i : Nat) :
    s'.typeAhead n i = s.typeAhead n i := by
  have htype : ∀ i, s'.typeAt i = s.typeAt i := fun i => by rw [typeAt, typeAt, h.tokens_eq]
  induction n generalizing i with
  | zero => exact htype i
  | succ n ih => rw [typeAhead, typeAhead, htype, ih, after, after, h.tokens_eq, h.channel_eq]

/-- One move ahead shifts what is ahead by one. -/
theorem lookAhead_consume (s : TokenStream) (n : Nat) :
    s.consume.lookAhead (n + 1) = s.lookAhead (n + 2) := by
  change s.consume.typeAhead n s.consume.index = s.typeAhead (n + 1) s.index
  rw [(sameTokens_consume s).typeAhead_eq, typeAhead]
  by_cases heof : s.typeAt s.index = Symbol.eof
  · -- At an end nothing moves, and looking ahead does not get any further either.
    rw [if_pos heof, consume_of_eof heof]
    cases n with
    | zero => rfl
    | succ n => rw [typeAhead, if_pos heof]
  · have hconsume : s.consume = s.seek (s.index + 1) := if_neg heof
    rw [if_neg heof, hconsume]
    rfl

/-- **Looking ahead sees what moving ahead would read.** -/
theorem lookAhead_iterate (s : TokenStream) (n : Nat) :
    s.lookAhead (n + 1) = (consume^[n] s).lookAhead 1 := by
  induction n generalizing s with
  | zero => rfl
  | succ n ih =>
    rw [Function.iterate_succ_apply, ← ih s.consume, lookAhead_consume]
    rfl

/-! ## Looking behind -/

/-- The last position that satisfies `p`, with only others after it. -/
private theorem lastUpTo_eq {p : Nat → Bool} {i j : Nat} (hi : p i = true) (hij : i ≤ j)
    (hafter : ∀ k, i < k → k ≤ j → p k = false) : lastUpTo p j = some i := by
  induction j with
  | zero =>
    obtain rfl := Nat.le_zero.mp hij
    rw [lastUpTo, if_pos hi]
  | succ j ih =>
    rw [lastUpTo]
    rcases Nat.eq_or_lt_of_le hij with rfl | hlt
    · rw [if_pos hi]
    · rw [hafter (j + 1) hlt (Nat.le_refl _), if_neg Bool.false_ne_true]
      exact ih (Nat.le_of_lt_succ hlt) fun k hk hkj => hafter k hk (Nat.le_succ_of_le hkj)

/-- What is behind a position does not depend on the cursor. -/
theorem SameTokens.typeBehind_eq {s' : TokenStream} (h : SameTokens s s') (n i : Nat) :
    s'.typeBehind n i = s.typeBehind n i := by
  induction n generalizing i with
  | zero => rw [typeBehind, typeBehind, typeAt, typeAt, h.tokens_eq]
  | succ n ih =>
    cases i with
    | zero => rfl
    | succ i =>
      rw [typeBehind, typeBehind, h.tokens_eq, h.channel_eq]
      simp only [ih]

/-- **A move that gets on shifts what is behind by one:** the last token seen before the new place
of the cursor is the one at the old place. -/
theorem AtRest.typeBehind_consume (h : s.AtRest) (hmoved : s.consume.index ≠ s.index) (n : Nat) :
    s.consume.typeBehind (n + 1) s.consume.index = s.typeBehind n s.index := by
  have hne : s.lookAhead 1 ≠ Symbol.eof := fun heof =>
    hmoved (congrArg TokenStream.index (consume_of_eof heof))
  have hlast : s.index + 1 ≤ s.size - 1 := by
    have hlt := h.closed.index_lt_consume hne
    have hinside := s.consume.inside
    rw [(sameTokens_consume s).tokens_eq] at hinside
    unfold size
    omega
  have hindex : s.consume.index = nextOn s.tokens s.channel (s.index + 1) := by
    rw [TokenStream.consume, if_neg hne]
    rfl
  obtain ⟨hnext, -, hskipped⟩ := h.closed.nextOn_spec hlast
  rw [(sameTokens_consume s).typeBehind_eq, hindex]
  obtain ⟨j, hj⟩ := Nat.exists_eq_add_one_of_ne_zero (Nat.ne_of_gt (Nat.zero_lt_of_lt hnext))
  rw [hj] at hnext hskipped ⊢
  have hfound : lastUpTo (visible s.tokens s.channel) j = some s.index :=
    lastUpTo_eq h.seen (Nat.le_of_succ_le_succ hnext) fun k hk hkj =>
      hskipped k hk (Nat.lt_succ_of_le hkj)
  rw [typeBehind, hfound]

/-- **Looking behind sees what was read,** if every move got on. -/
theorem AtRest.typeBehind_iterate (h : s.AtRest) (n : Nat)
    (hmoved : ∀ k < n, (TokenStream.consume^[k + 1] s).index ≠ (TokenStream.consume^[k] s).index) :
    (TokenStream.consume^[n] s).typeBehind n (TokenStream.consume^[n] s).index = s.lookAhead 1 := by
  induction n with
  | zero => rfl
  | succ n ih =>
    have hlast := hmoved n (Nat.lt_succ_self n)
    rw [Function.iterate_succ_apply'] at hlast ⊢
    have hrest : (TokenStream.consume^[n] s).AtRest :=
      Function.Iterate.rec AtRest h (fun _ h => h.consume) n
    rw [hrest.typeBehind_consume hlast]
    exact ih fun k hk => hmoved k (Nat.lt_succ_of_lt hk)

/-! ## Streams that are made of tokens -/

/-- **A stream presents one channel faithfully.** Whatever tokens it is made of and however its
cursor is moved, the tokens stay what they were and the cursor is inside, on a token of the channel
or on an end; setting it to where it is changes nothing; looking ahead sees what moving ahead would
read; and looking behind sees what was read before moves that all got on. -/
theorem performAll_faithful (tokens : List Token) (channel : Int) (name : String)
    (moves : List Move) :
    let s := (ofTokens tokens channel name).performAll moves
    (s.tokens = numbered (closed tokens) ∧ s.channel = channel ∧ s.index < s.size ∧
        s.get? s.index = some s.current ∧
        (s.current.channel = channel ∨ s.current.type = Symbol.eof)) ∧
      s.seek s.index = s ∧
      (∀ n : Nat, s.lookAhead (n + 1) = (consume^[n] s).lookAhead 1) ∧
      ∀ n : Nat, 1 ≤ n → (∀ k < n, (consume^[k + 1] s).index ≠ (consume^[k] s).index) →
        (consume^[n] s).lookAhead (-n) = s.lookAhead 1 := by
  intro s
  obtain ⟨hsame, hrest⟩ := (ofTokens_atRest tokens channel name).performAll moves
  have hcurrent := hrest.current_seen
  rw [hsame.channel_eq] at hcurrent
  refine ⟨⟨hsame.tokens_eq, hsame.channel_eq, s.inside, hcurrent⟩, hrest.seek_index,
    lookAhead_iterate s, fun n hn hmoved => ?_⟩
  obtain ⟨n, rfl⟩ := Nat.exists_eq_add_one_of_ne_zero (Nat.ne_of_gt hn)
  exact hrest.typeBehind_iterate (n + 1) hmoved

/-- Tokens of two channels with an end between them and none at the end: the cursor is set behind
the first end and moves on twice, over a token of the other channel. -/
theorem performAll_faithful_ends :
    let token (type channel : Int) : Token := { type, channel, text := "" }
    let tokens := [token 9 1, token 1 0, token Symbol.eof 1, token 9 1, token 2 0, token 9 1,
      token 3 0]
    let s := (ofTokens tokens 0 "").performAll [.consume, .consume, .seek 3]
    (∀ k < 2, (consume^[k + 1] s).index ≠ (consume^[k] s).index) ∧
      (consume^[2] s).lookAhead (-2) = s.lookAhead 1 ∧ s.lookAhead 1 = 2 ∧
      s.lookAhead 3 = Symbol.eof := by
  intro token tokens s
  obtain ⟨-, -, -, hbehind⟩ := performAll_faithful tokens 0 "" [.consume, .consume, .seek 3]
  have hmoved : ∀ k < 2, (consume^[k + 1] s).index ≠ (consume^[k] s).index := by decide
  exact ⟨hmoved, hbehind 2 (by decide) hmoved, by decide, by decide⟩

end TokenStream

end AdaptiveLL
