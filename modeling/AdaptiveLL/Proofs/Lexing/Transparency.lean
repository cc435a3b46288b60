import AdaptiveLL.Grammar.Compile
import AdaptiveLL.Proofs.Lexing.Matches
import AdaptiveLL.Proofs.Network.Passing

/-!
# Tokens do not depend on the cache

A match reads and writes the table of its mode. Whatever matches were made before on the cache, and
whether its tables are used at all: a match that returns finds the same token, or fails with the same
error, and leaves the cursor at the same place.
-/

namespace AdaptiveLL

/-- **A cache as earlier matches have left it:** made new, used for matches of any kind, whether they
succeeded or failed, and perhaps cleared in between. -/
inductive Cache.Worn (net : Network) : Cache → Prop where
  | new (maxNodes maxDepth : Nat) : Worn net (.new net maxNodes maxDepth)
  | clear {c : Cache} : Worn net c → Worn net c.clear.1
  | matched {s s' : Scanner} {settings : LexerSettings} {host : Host} {fuel mode : Nat}
      {r : Except LexError TokenMatch} :
      Worn net s.cache → (Scanner.matchToken settings host fuel mode).from? s = some (r, s') →
      Worn net s'.cache

namespace Cache

variable {net : Network} {c : Cache}

/-- The tables of a new cache have no rows. -/
private theorem modeTable_new (hlexer : net.isLexer = true) {maxNodes maxDepth mode : Nat}
    {entry : StateId} (hentry : net.modeStarts.toArray[mode]? = some entry) :
    (Cache.new net maxNodes maxDepth).table mode = Table.ofMode mode entry := by
  have hentry' : net.modeStarts[mode]? = some entry := by
    rw [← hentry]
    exact List.getElem?_toArray.symm
  unfold table new freshTables
  rw [if_pos hlexer]
  simp [hentry']

/-- A new cache tells the truth: it tells nothing. -/
private theorem lexes_new (hlexer : net.isLexer = true) (maxNodes maxDepth : Nat) :
    (Cache.new net maxNodes maxDepth).Lexes net (max maxNodes 1) := by
  refine .new rfl ?_ fun mode entry hentry => ?_
  · unfold freshTables
    rw [if_pos hlexer]
    simp
  · rw [modeTable_new hlexer hentry]
    exact ⟨rfl, rfl, rfl⟩

/-- **Every cache that matches leave behind tells the truth.** -/
theorem Worn.lexes (hnet : net.Consistent) (hlexer : net.isLexer = true)
    (hword : net.states.size ≤ emptyReturn) (hc : c.Worn net) : ∃ nodes, c.Lexes net nodes := by
  induction hc with
  | new maxNodes maxDepth => exact ⟨_, lexes_new hlexer maxNodes maxDepth⟩
  | @clear c _ ih =>
    obtain ⟨nodes, hc⟩ := ih
    refine ⟨nodes, hc.restart ?_⟩
    rw [← hc.room_eq]
    exact lexes_new hlexer _ _
  | matched _ hrun ih =>
    obtain ⟨nodes, hc⟩ := ih
    exact ⟨nodes, (Scanner.matchToken_ends hnet hword hc hrun).1⟩

end Cache

namespace Scanner

/-- **Tokens do not depend on the cache.** Let a match return without meeting a ceiling, on whatever
cache earlier matches have left behind. On any other such cache, be it new or used, and with tables
used or not, the same match returns too; and unless it meets a ceiling, it has the same type and the
same ends, or fails with the same error, and the cursor is at the same position. -/
theorem matchToken_transparent {net : Network} (hcheck : net.check = .ok ())
    (hlexer : net.isLexer = true) (hword : net.states.size ≤ emptyReturn)
    {settings : LexerSettings} {host : Host} {fuel mode : Nat} {s s' t : Scanner}
    {r : Except LexError TokenMatch} (hs : s.cache.Worn net) (ht : t.cache.Worn net)
    (hstream : t.stream = s.stream) (hposition : t.position = s.position)
    (hrun : (matchToken settings host fuel mode).from? s = some (r, s'))
    (hmet : ∀ e, r ≠ .error (.exceeded e)) :
    ∃ enough, ∀ fuel', enough ≤ fuel' → ∀ settings',
      (matchToken settings' host fuel' mode).Yields t fun r' t' =>
        (∀ e, r' ≠ .error (.exceeded e)) →
          r'.map TokenMatch.silent = r.map TokenMatch.silent ∧ t'.position = s'.position := by
  have hnet := Network.consistent_of_check hcheck
  obtain ⟨nodes, hcs⟩ := hs.lexes hnet hlexer hword
  obtain ⟨nodes', hct⟩ := ht.lexes hnet hlexer hword
  obtain ⟨-, hends⟩ := matchToken_ends hnet hword hcs hrun
  generalize s'.position = p at hends ⊢
  cases hends with
  | exceeded => exact absurd rfl (hmet _)
  | unknown hmode =>
    refine ⟨0, fun fuel' _ settings' => ⟨_, t, matchToken_unknown ?_ _, fun _ => ⟨rfl, hposition⟩⟩⟩
    rw [hct.size_eq]
    exact List.getElem?_eq_none_iff.mp hmode
  | @found entry y _ _ hentry hfinds hverdict =>
    have hfinds' : net.Finds host t.stream entry t.position y := hstream ▸ hposition ▸ hfinds
    obtain ⟨enough, henough⟩ := exists_enough hnet hword hentry hfinds' hct
    refine ⟨enough, fun fuel' hfuel settings' => ?_⟩
    obtain ⟨r', t', hrun', -, hends'⟩ := henough fuel' hfuel settings'
    refine ⟨r', t', hrun', fun hmet' => ?_⟩
    generalize t'.position = p' at hends' ⊢
    cases hends' with
    | exceeded => exact absurd rfl (hmet' _)
    | unknown hmode => cases hentry.symm.trans hmode
    | found hentry' hfinds'' hverdict' =>
      obtain rfl := Option.some.inj (hentry.symm.trans hentry')
      obtain rfl := hfinds'.unique hfinds''
      rw [hstream, hposition, ← hverdict] at hverdict'
      exact ⟨congrArg Prod.fst hverdict', congrArg Prod.snd hverdict'⟩

end Scanner

namespace Grammar

/-- A lexer grammar with a guard, a lazy loop and an action:

    mark : {p}? 'm' ;
    quote : 'q' .*? 'q' {act} ; -/
def quotes : Grammar where
  kind := .lexer
  name := "quotes"
  rules :=
    [⟨"mark", .seq [.predicate 0 false, .literal "m"], some 1, 0⟩,
      ⟨"quote", .seq [.literal "q", .star .wildcard false, .literal "q", .action 0], some 2, 0⟩]

/-- The network of marks and quotes. -/
def quotesNet : Network := quotes.compile.toOption.getD default

theorem quotesNet_check : quotesNet.check = .ok () := by
  have hok : quotesNet.check.isOk = true := by decide +kernel
  cases h : quotesNet.check with
  | ok => rfl
  | error e => rw [h] at hok; cases hok

end Grammar

namespace Scanner

/-- A scanner at the beginning of a quote. -/
private def atQuote (cache : Cache) : Scanner := { cache, stream := .ofText "qmq" }

/-- Whether the quote is found on the cache that a match of it has left behind, which has rows for
it. -/
private def warms : Bool :=
  match (matchToken {} .permissive 100 0).from? (atQuote (.new Grammar.quotesNet)) with
  | none => false
  | some (_, s) =>
    match (matchToken {} .permissive 100 0).from? (atQuote s.cache) with
    | some (.ok m, s') => decide (1 < (s.cache.table 0).size) && m.silent == ⟨2, 0, 3, none⟩ &&
        s'.position == ⟨3, 1, 3⟩
    | _ => false

theorem quotes_transparent : ∃ warm : Scanner, 1 < (warm.cache.table 0).size ∧
    ∃ m s', (matchToken {} .permissive 100 0).from? warm = some (.ok m, s') ∧
    ∃ enough, ∀ fuel', enough ≤ fuel' → ∀ settings',
      (matchToken settings' .permissive fuel' 0).Yields (atQuote (.new Grammar.quotesNet))
        fun r' t' => (∀ e, r' ≠ .error (.exceeded e)) →
          r'.map TokenMatch.silent = .ok ⟨2, 0, 3, none⟩ ∧ t'.position = ⟨3, 1, 3⟩ := by
  have hwarms : warms = true := by decide +kernel
  have hcache : ∀ cache, (atQuote cache).cache = cache := fun _ => rfl
  have hcursor : ∀ cache, (atQuote cache).stream = .ofText "qmq" ∧
      (atQuote cache).position = ⟨0, 1, 0⟩ := fun _ => ⟨rfl, rfl⟩
  have hnew : (atQuote (.new Grammar.quotesNet)).cache.Worn Grammar.quotesNet := .new _ _
  unfold warms at hwarms
  split at hwarms
  · cases hwarms
  · next r s hrun =>
    split at hwarms
    · next m s' hrun' =>
      simp only [Bool.and_eq_true, decide_eq_true_eq, beq_iff_eq] at hwarms
      refine ⟨atQuote s.cache, hwarms.1.1, m, s', hrun', ?_⟩
      have hworn : (atQuote s.cache).cache.Worn Grammar.quotesNet := by
        rw [hcache]
        exact .matched hnew hrun
      have htransparent := matchToken_transparent (s := atQuote s.cache)
        (t := atQuote (.new Grammar.quotesNet)) Grammar.quotesNet_check (by decide +kernel)
        (by decide +kernel) hworn hnew ((hcursor (.new _)).1.trans (hcursor s.cache).1.symm)
        ((hcursor (.new _)).2.trans (hcursor s.cache).2.symm) hrun' nofun
      rw [show Except.map TokenMatch.silent (.ok m : Except LexError TokenMatch) =
        .ok ⟨2, 0, 3, none⟩ from congrArg Except.ok hwarms.1.2, hwarms.2] at htransparent
      exact htransparent
    · cases hwarms

end Scanner

end AdaptiveLL
