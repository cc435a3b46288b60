import AdaptiveLL.Token.Basic

/-!
# Token streams

A parser reads tokens from a stream that presents one channel: tokens of other channels are passed
over, while a token that ends the input counts on every channel. The stream ends with such a token.
Its cursor is an absolute position and rests on a token of the channel or on an end.
-/

namespace AdaptiveLL

/-- A stream of tokens with a cursor, which is always inside. -/
structure TokenStream where
  tokens : Array Token
  channel : Int
  name : String
  index : Nat
  inside : index < tokens.size

namespace TokenStream

/-! ## Searching -/

/-- Whether a token can be seen on the channel. -/
def onChannel (channel : Int) (t : Token) : Bool := t.channel == channel || t.isEof

/-- Whether the token at a position can be seen on the channel. -/
def visible (tokens : Array Token) (channel : Int) (i : Nat) : Bool :=
  (tokens[i]?.map (onChannel channel)).getD false

/-- The first of `n` positions from `i` on that satisfies `p`; the one after them if none does. -/
def firstFrom (p : Nat → Bool) : Nat → Nat → Nat
  | 0, i => i
  | n + 1, i => if p i then i else firstFrom p n (i + 1)

/-- The last position up to `i` that satisfies `p`. -/
def lastUpTo (p : Nat → Bool) : Nat → Option Nat
  | 0 => if p 0 then some 0 else none
  | i + 1 => if p (i + 1) then some (i + 1) else lastUpTo p i

/-- The first position at or after `i` with a token of the channel; the last position if there is
none. -/
def nextOn (tokens : Array Token) (channel : Int) (i : Nat) : Nat :=
  let last := tokens.size - 1
  if i < last then firstFrom (visible tokens channel) (last - i) i else last

theorem firstFrom_le (p : Nat → Bool) (n i : Nat) : firstFrom p n i ≤ i + n := by
  induction n generalizing i with
  | zero => simp [firstFrom]
  | succ n ih =>
    unfold firstFrom
    split
    · omega
    · have := ih (i + 1)
      omega

theorem nextOn_lt {tokens : Array Token} (h : 0 < tokens.size) (channel : Int) (i : Nat) :
    nextOn tokens channel i < tokens.size := by
  simp only [nextOn]
  split
  · have := firstFrom_le (visible tokens channel) (tokens.size - 1 - i) i
    omega
  · omega

/-! ## Making streams -/

/-- The tokens with an end after them, unless they end with one. It stands where the last token
stops. -/
def closed (tokens : List Token) : List Token :=
  match tokens.getLast? with
  | some t => if t.isEof then tokens else tokens ++ [.endOfInput t.stop 1 0]
  | none => [.endOfInput 0 1 0]

theorem closed_ne_nil (tokens : List Token) : closed tokens ≠ [] := by
  unfold closed
  split
  · next t h =>
    split
    · intro hnil
      simp [hnil] at h
    · simp
  · simp

/-- Tokens that know their positions. -/
def numbered (tokens : List Token) : Array Token :=
  (tokens.zipIdx.map fun (t, i) => { t with index := i }).toArray

theorem size_numbered (tokens : List Token) : (numbered tokens).size = tokens.length := by
  simp [numbered]

theorem size_numbered_closed_pos (tokens : List Token) : 0 < (numbered (closed tokens)).size := by
  rw [size_numbered]
  exact List.length_pos_iff.2 (closed_ne_nil tokens)

/-- **The stream of some tokens,** which are numbered and closed. The cursor starts at the first
token of the channel. -/
def ofTokens (tokens : List Token) (channel : Int := defaultChannel) (name : String := "<tokens>") :
    TokenStream where
  tokens := numbered (closed tokens)
  channel := channel
  name := name
  index := nextOn (numbered (closed tokens)) channel 0
  inside := nextOn_lt (size_numbered_closed_pos tokens) channel 0

/-- The stream of tokens with these types and nothing else. -/
def ofTypes (types : List Int) : TokenStream :=
  ofTokens (types.zipIdx.map fun (type, i) => .ofType type i)

instance : Inhabited TokenStream := ⟨ofTokens []⟩

/-! ## Reading -/

/-- The number of tokens, the end included. -/
def size (s : TokenStream) : Nat := s.tokens.size

/-- The token at a position, whatever its channel. -/
def get? (s : TokenStream) (i : Nat) : Option Token := s.tokens[i]?

/-- The token at the cursor. -/
def current (s : TokenStream) : Token :=
  have := s.inside
  s.tokens[s.index]

/-- The type of the token at a position. -/
def typeAt (s : TokenStream) (i : Nat) : Symbol := (s.tokens[i]?.map Token.type).getD Symbol.eof

/-- The position of the next token of the channel after position `i`. -/
def after (s : TokenStream) (i : Nat) : Nat := nextOn s.tokens s.channel (i + 1)

/-- The type of the token that stands `n` tokens ahead of position `i`; the end is never passed. -/
def typeAhead (s : TokenStream) : Nat → Nat → Symbol
  | 0, i => s.typeAt i
  | n + 1, i =>
    if s.typeAt i = Symbol.eof then s.typeAt i else typeAhead s n (s.after i)

/-- The type of the token that stands `n` tokens before position `i`. -/
def typeBehind (s : TokenStream) : Nat → Nat → Symbol
  | 0, i => s.typeAt i
  | n + 1, i =>
    match i with
    | 0 => Symbol.eof
    | i + 1 =>
      match lastUpTo (visible s.tokens s.channel) i with
      | some j => typeBehind s n j
      | none => Symbol.eof

/-- **The symbol at an offset from the cursor:** `1` is the current token, `-1` the one before it,
and `Symbol.eof` what lies past either end. At offset `0` there is none. -/
def lookAhead (s : TokenStream) (offset : Int) : Symbol :=
  match offset with
  | .ofNat 0 => 0
  | .ofNat (n + 1) => s.typeAhead n s.index
  | .negSucc n => s.typeBehind (n + 1) s.index

/-! ## Moving -/

/-- The stream with its cursor at a position, or at the next token of the channel after it. -/
def seek (s : TokenStream) (i : Nat) : TokenStream :=
  { s with
    index := nextOn s.tokens s.channel i
    inside := nextOn_lt (Nat.zero_lt_of_lt s.inside) s.channel i }

/-- The stream after its current token, which stays at an end. -/
def consume (s : TokenStream) : TokenStream :=
  if s.lookAhead 1 = Symbol.eof then s else s.seek (s.index + 1)

end TokenStream

end AdaptiveLL
