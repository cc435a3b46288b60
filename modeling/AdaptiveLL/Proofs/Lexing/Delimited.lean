import AdaptiveLL.Proofs.Grammar.Delimited
import AdaptiveLL.Proofs.Lexing.Words

/-!
# Where delimited tokens end

In a lazy loop many beginnings of the closing text may be under way at once, one for each position
at which it may have begun. They are strands in the order of their age, and after them comes the
strand that goes through the loop. The first one that comes to an end silences the others, which
are younger.
-/

namespace AdaptiveLL

/-! ## Steps of a chase -/

namespace Vantage

variable {v : Vantage} {t : Strand} {rest found seen : List Strand} {q q' : StateId}
  {finished : Bool}

private theorem pursue_first (hnew : t ∉ seen) :
    v.pursue ⟨t :: rest, found, seen, finished, false⟩ =
      some (v.visit t ⟨rest, found, t :: seen, finished, false⟩) := if_neg hnew

private theorem pursue_hop (hnew : t ∉ seen) (hways : v.net.inner t.state = [.epsilon q]) :
    v.pursue ⟨t :: rest, found, seen, finished, false⟩ =
      some ⟨v.net.lead t q t.stack :: rest, found, t :: seen, finished, false⟩ := by
  have hstop := Network.not_isStop_of_inner (hways ▸ List.cons_ne_nil _ _)
  rw [Network.inner_of_not_isStop hstop] at hways
  rw [pursue_first hnew, visit, hstop]
  simp [nexts, hways, onward, Transition.target, State.onlyEpsilon, State.hasPredicate,
    Transition.isEpsilon]

private theorem pursue_fork (hnew : t ∉ seen)
    (hways : v.net.inner t.state = [.epsilon q, .epsilon q']) :
    v.pursue ⟨t :: rest, found, seen, finished, false⟩ =
      some ⟨v.net.lead t q t.stack :: v.net.lead t q' t.stack :: rest, found, t :: seen, finished,
        false⟩ := by
  have hstop := Network.not_isStop_of_inner (hways ▸ List.cons_ne_nil _ _)
  rw [Network.inner_of_not_isStop hstop] at hways
  rw [pursue_first hnew, visit, hstop]
  simp [nexts, hways, onward, Transition.target, State.onlyEpsilon, State.hasPredicate,
    Transition.isEpsilon]

/-- A strand that can only consume a character is collected. -/
private theorem pursue_rest {step : Transition} (hon : v.atEof = false) (hnew : t ∉ seen)
    (hways : v.net.inner t.state = [step])
    (hstep : (∃ p x, step = .atom p x) ∨ ∃ p, step = .wildcard p) :
    v.pursue ⟨t :: rest, found, seen, false, false⟩ =
      some ⟨rest, found ++ [t], t :: seen, false, false⟩ := by
  have hstop := Network.not_isStop_of_inner (hways ▸ List.cons_ne_nil _ _)
  rw [Network.inner_of_not_isStop hstop] at hways
  rw [pursue_first hnew, visit, hstop]
  rcases hstep with ⟨p, x, rfl⟩ | ⟨p, rfl⟩ <;>
    simp [nexts, hways, onward, hon, State.onlyEpsilon, State.hasPredicate, Transition.isEpsilon]

private theorem pursue_stop (hnew : t ∉ seen) (hstop : v.net.isStop t.state = true)
    (hstack : t.stack = []) :
    v.pursue ⟨t :: rest, found, seen, finished, false⟩ =
      some ⟨rest, found ++ [t], t :: seen, true, false⟩ := by
  rw [pursue_first hnew, visit, hstop, hstack]
  rfl

end Vantage

/-! ## Strands of a delimited token -/

/-- A strand of the only rule that went through the loop. -/
def Strand.lazily (q : StateId) : Strand := ⟨q, 1, [], true⟩

@[simp] theorem Strand.lazily_stack (q : StateId) : (lazily q).stack = [] := rfl

@[simp] theorem Strand.lazily_inj {q p : StateId} : lazily q = lazily p ↔ q = p := by
  simp [lazily]

/-- Having gone through the loop, a strand stays lazy. -/
@[simp] theorem Network.lead_lazily (net : Network) (q p : StateId) :
    net.lead (.lazily q) p [] = .lazily p := by
  simp [lead, Strand.lazily]

namespace Network.Delimits

open Strand

variable {net : Network} {a b : List Char} {c : Stations}

/-- **Entering the loop,** a strand may begin the closing text or pass by a character. -/
private theorem chases_loop (h : net.Delimits a b c) (hb : b ≠ []) (host : Host) (position : Nat)
    {seen : List Strand}
    (hseen : ∀ t ∈ seen, t.state ∉ [c.loop, c.left, c.closing 0, c.round, c.any]) :
    ∃ e, (net.outlook host position false).Chases ⟨[lazily c.loop], [], seen, false, false⟩ e ∧
      e.found = [lazily (c.closing 0), lazily c.any] ∧ e.finished = false := by
  have hfirst := h.closing 0 (List.length_pos_iff.mpr hb)
  have hnew : ∀ q ∈ [c.loop, c.left, c.closing 0, c.round, c.any], lazily q ∉ seen :=
    fun q hq hmem => hseen _ hmem hq
  have hnodup := (List.nodup_cons.mp (h.nodup_enter hb)).2
  simp only [List.nodup_cons, List.mem_cons, List.not_mem_nil, or_false, not_or] at hnodup
  simp only [List.forall_mem_cons] at hnew
  refine ⟨_, .step (Vantage.pursue_fork hnew.1 h.loop) (.step (Vantage.pursue_hop ?_ h.left)
    (.step (Vantage.pursue_rest rfl ?_ hfirst (.inl ⟨_, _, rfl⟩))
      (.step (Vantage.pursue_hop ?_ h.round)
        (.step (Vantage.pursue_rest rfl ?_ h.any (.inr ⟨_, rfl⟩)) (.done rfl))))), ?_, rfl⟩
  all_goals simp_all [eq_comm]

/-- **After the opening text** the loop is entered. -/
private theorem chases_enter (h : net.Delimits a b c) (hb : b ≠ []) (host : Host) (position : Nat)
    {t : Strand} (halt : t.alt = 1)
    (hstate : t.state = c.opening a.length) (hstack : t.stack = []) :
    ∃ e, (net.outlook host position false).Chases (Vantage.begin t false) e ∧
      e.found = [lazily (c.closing 0), lazily c.any] ∧ e.finished = false := by
  have hnot := (List.nodup_cons.mp (h.nodup_enter hb)).1
  obtain ⟨e, hchases, he⟩ := h.chases_loop hb host position fun u (hu : u ∈ [t]) =>
    List.mem_singleton.mp hu ▸ hstate ▸ hnot
  have hlead : net.lead t c.loop t.stack = lazily c.loop := by
    simp [lead, lazily, h.lazy, halt, hstack]
  refine ⟨e, .step (Vantage.pursue_hop List.not_mem_nil (hstate ▸ h.opened)) ?_, he⟩
  exact hlead ▸ hchases

/-- **After a character of the loop** there is one more round. -/
private theorem chases_round (h : net.Delimits a b c) (hb : b ≠ []) (host : Host) (position : Nat) :
    ∃ e, (net.outlook host position false).Chases (Vantage.begin (lazily c.passed) false) e ∧
      e.found = [lazily (c.closing 0), lazily c.any] ∧ e.finished = false := by
  have hnodup := h.nodup_round hb
  have hseen : ∀ t ∈ [lazily c.back, lazily c.ended, lazily c.passed],
      t.state ∉ [c.loop, c.left, c.closing 0, c.round, c.any] := by simp_all [lazily]
  simp only [List.nodup_cons, List.mem_cons, not_or] at hnodup
  obtain ⟨⟨hended, hback, -⟩, ⟨hback', -⟩, -⟩ := hnodup
  obtain ⟨e, hchases, he⟩ := h.chases_loop hb host position hseen
  refine ⟨e, .step (Vantage.pursue_hop List.not_mem_nil h.passed)
    (.step (Vantage.pursue_hop ?_ h.ended) (.step (Vantage.pursue_hop ?_ h.back) ?_)), he⟩
  · simpa using Ne.symm hended
  · simpa using ⟨Ne.symm hback', Ne.symm hback⟩
  · simpa using hchases

/-- Before a character of a text a strand stays where it is. -/
private theorem chases_rest (host : Host) (position : Nat) {t : Strand} {p : StateId} {x : Symbol}
    (hways : net.inner t.state = [.atom p x]) :
    ∃ e, (net.outlook host position false).Chases (Vantage.begin t false) e ∧ e.found = [t] ∧
      e.finished = false :=
  ⟨_, .step (Vantage.pursue_rest rfl List.not_mem_nil hways (.inl ⟨_, _, rfl⟩)) (.done rfl), rfl,
    rfl⟩

/-- **After the closing text** the token is finished. -/
private theorem chases_stop (h : net.Delimits a b c) (host : Host) (position : Nat) :
    ∃ e, (net.outlook host position false).Chases
      (Vantage.begin (lazily (c.closing b.length)) false) e ∧ e.found = [lazily c.stop] ∧
        e.finished = true := by
  have hne : c.stop ≠ c.closing b.length := fun heq => by
    have hstop := Network.not_isStop_of_inner (h.closed ▸ List.cons_ne_nil _ _)
    rw [← heq, h.stop] at hstop
    cases hstop
  refine ⟨_, .step (Vantage.pursue_hop List.not_mem_nil h.closed)
    (.step (Vantage.pursue_stop ?_ h.stop rfl) (.done rfl)), ?_, rfl⟩
  · simpa using hne
  · simp

/-! ### Characters -/

private theorem state_ways {q : StateId} {t : Transition} {ts : List Transition}
    (hways : net.inner q = t :: ts) : (net.state q).transitions = t :: ts :=
  Network.inner_of_not_isStop (Network.not_isStop_of_inner (hways ▸ List.cons_ne_nil _ _)) ▸ hways

private theorem accepts_atom {p : StateId} {x y : Char} :
    (Transition.atom p x.toNat).accepts y.toNat Symbol.firstChar Symbol.lastChar =
      decide (x = y) := by
  rw [Bool.eq_iff_iff, decide_eq_true_iff]
  simp [Transition.accepts, Char.toNat_inj]

/-- The strands of the beginnings of a closing text, by how much of it was read. -/
def strands (c : Stations) (is : List Nat) : List Strand := is.map fun i => lazily (c.closing i)

theorem strands_append (c : Stations) (is js : List Nat) :
    strands c (is ++ js) = strands c is ++ strands c js := List.map_append

/-- **A beginning of the closing text** goes on with the character that comes next in it. -/
private theorem consumes_closing (h : net.Delimits a b c) (host : Host) (position : Nat) {i : Nat}
    (hi : i < b.length) (x : Char) :
    ∃ k, (net.outlook host position false).Consumes x.toNat (lazily (c.closing i)) false
        (net.state (c.closing i)).transitions k ∧
      k.found = (if b[i]? = some x then
        [lazily (if i + 1 = b.length then c.stop else c.closing (i + 1))] else []) ∧
      k.done = decide (b[i]? = some x ∧ i + 1 = b.length) := by
  rw [state_ways (h.closing i hi), List.getElem?_eq_getElem hi]
  by_cases hx : b[i] = x
  · have hacc : (Transition.atom (c.closing (i + 1)) b[i].toNat).accepts x.toNat Symbol.firstChar
        Symbol.lastChar = true := by rw [accepts_atom, decide_eq_true hx]
    by_cases hlast : i + 1 = b.length
    · obtain ⟨e, hchases, hfound, hfinished⟩ := h.chases_stop host position
      rw [← hlast, ← net.lead_lazily (c.closing i)] at hchases
      refine ⟨_, .last hacc hchases hfinished, ?_, ?_⟩
      · simp [hx, hlast, hfound]
      · simp [hx, hlast]
    · have hnext : i + 1 < b.length := by omega
      obtain ⟨e, hchases, hfound, hfinished⟩ := chases_rest host position
        (t := lazily (c.closing (i + 1))) (h.closing (i + 1) hnext)
      rw [← net.lead_lazily (c.closing i)] at hchases
      refine ⟨_, .next hacc hchases hfinished .nil, ?_, ?_⟩
      · simp [hx, hlast, hfound]
      · simp [hx, hlast]
  · refine ⟨_, .skip ?_ .nil, ?_, ?_⟩
    · rw [accepts_atom, decide_eq_false hx]
    · simp [hx]
    · simp [hx]

private theorem accepts_wildcard {p : StateId} {x : Char} :
    (Transition.wildcard p).accepts x.toNat Symbol.firstChar Symbol.lastChar = true := by
  have hvalid := x.valid
  simp only [UInt32.isValidChar, Nat.isValidChar] at hvalid
  have hle : x.toNat ≤ 0x10FFFF := by
    change x.val.toNat ≤ _
    omega
  unfold Transition.accepts Symbol.firstChar Symbol.lastChar
  rw [Bool.and_eq_true, decide_eq_true_iff, decide_eq_true_iff]
  exact ⟨Int.natCast_nonneg _, Int.ofNat_le.mpr hle⟩

/-- **The strand of the loop** passes by any character, and the closing text may begin there. -/
private theorem consumes_any (h : net.Delimits a b c) (hb : b ≠ []) (host : Host) (position : Nat)
    (x : Char) :
    ∃ k, (net.outlook host position false).Consumes x.toNat (lazily c.any) false
        (net.state c.any).transitions k ∧
      k.found = [lazily (c.closing 0), lazily c.any] ∧ k.done = false := by
  obtain ⟨e, hchases, hfound, hfinished⟩ := h.chases_round hb host position
  rw [← net.lead_lazily c.any] at hchases
  rw [state_ways h.any]
  exact ⟨_, .next accepts_wildcard hchases hfinished .nil, by simp [hfound], rfl⟩

/-- The beginnings go on with a character, if none comes to an end. -/
private theorem reaches_strands (h : net.Delimits a b c) (host : Host) (position : Nat) {x : Char}
    {is : List Nat} (his : ∀ i ∈ is, i < b.length)
    (hopen : ¬∃ i ∈ is, i + 1 = b.length ∧ b[i]? = some x) :
    ∃ guarded, (net.outlook host position false).Reaches x.toNat (strands c is)
      (strands c ((is.filter fun i => b[i]? = some x).map (· + 1))) guarded noAlternative := by
  -- Strands are followed one after the other, and each adds to what those before it have reached.
  induction is using List.reverseRecOn with
  | nil => exact ⟨_, .nil⟩
  | append_singleton is i ih =>
    simp only [List.forall_mem_append, List.forall_mem_singleton] at his
    obtain ⟨guarded, hreaches⟩ := ih his.1 fun ⟨j, hj, hlast⟩ =>
      hopen ⟨j, List.mem_append_left _ hj, hlast⟩
    obtain ⟨k, hk, hfound, hdone⟩ := h.consumes_closing host position his.2 x
    have hnot : ¬(b[i]? = some x ∧ i + 1 = b.length) := fun hlast =>
      hopen ⟨i, List.mem_append_right _ (List.mem_singleton_self i), hlast.2, hlast.1⟩
    rw [decide_eq_false hnot] at hdone
    have hnext : k.found = strands c (([i].filter fun i => b[i]? = some x).map (· + 1)) := by
      rw [hfound]
      by_cases hx : b[i]? = some x
      · have hlast : i + 1 ≠ b.length := fun hlast => hnot ⟨hx, hlast⟩
        simp [strands, hx, hlast]
      · simp [strands, hx]
    have htake := Vantage.Reaches.take hreaches (t := lazily (c.closing i)) nofun hk
    rw [hdone, hnext, ← strands_append, ← List.map_append, ← List.filter_append] at htake
    rw [strands_append]
    exact ⟨_, htake⟩

/-- What comes after a strand that has finished the token is dropped. -/
private theorem reaches_dropped {v : Vantage} {symbol : Symbol} {fs found : List Strand}
    {guarded : Bool} (h : v.Reaches symbol fs found guarded 1) :
    ∀ {rest : List Strand}, (∀ t ∈ rest, ∃ q, t = lazily q) →
      v.Reaches symbol (fs ++ rest) found guarded 1 := by
  intro rest
  induction rest using List.reverseRecOn with
  | nil => exact fun _ => (List.append_nil fs).symm ▸ h
  | append_singleton rest t ih =>
    intro hrest
    simp only [List.forall_mem_append, List.forall_mem_singleton] at hrest
    obtain ⟨q, rfl⟩ := hrest.2
    rw [← List.append_assoc]
    exact .drop (ih hrest.1) rfl rfl

private theorem char_ne_eof (x : Char) : ((x.toNat : Symbol) == Symbol.eof) = false := by
  simp [Symbol.eof]

/-- **A character that ends no beginning** leads to those that go on with it and to a new one. -/
theorem after_further (h : net.Delimits a b c) (hb : b ≠ []) (host : Host) (position : Nat)
    {x : Char} {is : List Nat} (his : ∀ i ∈ is, i < b.length)
    (hopen : ¬∃ i ∈ is, i + 1 = b.length ∧ b[i]? = some x)
    (hfurther : ∀ i ∈ CharStream.further b is x, i < b.length)
    (hnodup : (CharStream.further b is x).Nodup) :
    net.After host position x.toNat (strands c is ++ [lazily c.any])
      (strands c (CharStream.further b is x) ++ [lazily c.any]) := by
  obtain ⟨guarded, hreaches⟩ := h.reaches_strands host position his hopen
  obtain ⟨k, hk, hfound, hdone⟩ := h.consumes_any hb host position x
  have htake := Vantage.Reaches.take hreaches (t := lazily c.any) nofun hk
  rw [hdone, hfound] at htake
  unfold Network.After
  rw [char_ne_eof]
  refine ⟨_, _, _, htake, ?_⟩
  have heq : strands c ((is.filter fun i => b[i]? = some x).map (· + 1)) ++
      [lazily (c.closing 0), lazily c.any] =
        strands c (CharStream.further b is x) ++ [lazily c.any] := by
    simp [CharStream.further, strands]
  rw [heq]
  refine firsts_of_nodup (List.nodup_append.mpr ⟨?_, List.nodup_singleton _, ?_⟩)
  · refine hnodup.map_on fun i hi j hj heq => ?_
    exact h.closing_inj (hfurther i hi).le (hfurther j hj).le (lazily_inj.mp heq)
  · intro t ht u hu
    obtain ⟨i, hi, rfl⟩ := List.mem_map.mp ht
    rw [List.mem_singleton.mp hu, ne_eq, lazily_inj]
    exact h.closing_ne_any (hfurther i hi)

/-- **A character that ends the oldest beginning** finishes the token, and the others are
dropped. -/
theorem after_closes (h : net.Delimits a b c) (host : Host) (position : Nat) {x : Char} {i : Nat}
    (is : List Nat) (hlast : i + 1 = b.length) (hx : b[i]? = some x) :
    net.After host position x.toNat (strands c (i :: is) ++ [lazily c.any]) [lazily c.stop] := by
  obtain ⟨k, hk, hfound, hdone⟩ := h.consumes_closing host position (i := i) (by omega) x
  rw [if_pos hx, if_pos hlast] at hfound
  have htake := Vantage.Reaches.take .nil (t := lazily (c.closing i)) nofun hk
  rw [hdone, decide_eq_true ⟨hx, hlast⟩, hfound] at htake
  unfold Network.After
  rw [char_ne_eof]
  have hyounger : ∀ t ∈ strands c is ++ [lazily c.any], ∃ q, t = lazily q := by
    intro t ht
    rcases List.mem_append.mp ht with ht | ht
    · obtain ⟨j, -, rfl⟩ := List.mem_map.mp ht
      exact ⟨_, rfl⟩
    · exact ⟨_, List.mem_singleton.mp ht⟩
  exact ⟨_, _, _, reaches_dropped htake hyounger, firsts_of_nodup (List.nodup_singleton _)⟩

/-- After the token nothing follows. -/
theorem after_stop (h : net.Delimits a b c) (host : Host) (position : Nat) (x : Char) :
    net.After host position x.toNat [lazily c.stop] [] := by
  have hk : ∀ v : Vantage, v.Consumes x.toNat (lazily c.stop) false
      (net.state c.stop).transitions ⟨[], false, false⟩ := fun v => h.stop_ways ▸ .nil
  exact ⟨_, _, _, Vantage.Reaches.take .nil (t := lazily c.stop) nofun (hk _), rfl⟩

private theorem after_atom {host : Host} {position : Nat} {x : Char} {t : Strand} {p : StateId}
    (halt : t.alt = 1) (hways : net.inner t.state = [.atom p x.toNat]) {e : Pursuit}
    (hchases : (net.outlook host position false).Chases
      (Vantage.begin (net.lead t p t.stack) false) e)
    (hfinished : e.finished = false) : net.After host position x.toNat [t] (firsts e.found) := by
  have hacc : (Transition.atom p x.toNat).accepts x.toNat Symbol.firstChar Symbol.lastChar =
      true := by
    rw [accepts_atom, decide_eq_true rfl]
  have hk : (net.outlook host position false).Consumes x.toNat t (t.alt == noAlternative)
      (net.state t.state).transitions ⟨e.found ++ [], false, e.guarded || false⟩ := by
    rw [state_ways hways, halt]
    exact .next hacc hchases hfinished .nil
  have htake := Vantage.Reaches.take .nil (fun hdrop => by simp [halt, noAlternative] at hdrop) hk
  unfold Network.After
  rw [char_ne_eof]
  exact ⟨_, _, _, htake, by simp⟩

/-- **A character of the opening text** leads to the next one. -/
theorem after_opening (h : net.Delimits a b c) (host : Host) (position : Nat) {x : Char} {i : Nat}
    (flag : Bool) (hx : a[i]? = some x) (hlt : i + 1 < a.length) :
    ∃ flag', net.After host position x.toNat [⟨c.opening i, 1, [], flag⟩]
      [⟨c.opening (i + 1), 1, [], flag'⟩] := by
  obtain ⟨hi, rfl⟩ := List.getElem?_eq_some_iff.mp hx
  obtain ⟨e, hchases, hfound, hfinished⟩ := chases_rest host position
    (t := net.lead ⟨c.opening i, 1, [], flag⟩ (c.opening (i + 1)) []) (h.opening (i + 1) hlt)
  have hafter := after_atom rfl (h.opening i hi) hchases hfinished
  rw [hfound, firsts_of_nodup (List.nodup_singleton _)] at hafter
  exact ⟨_, hafter⟩

/-- **The last character of the opening text** leads into the loop. -/
theorem after_opened (h : net.Delimits a b c) (hb : b ≠ []) (host : Host) (position : Nat)
    {x : Char} {i : Nat} (flag : Bool) (hx : a[i]? = some x) (hlast : i + 1 = a.length) :
    net.After host position x.toNat [⟨c.opening i, 1, [], flag⟩]
      (strands c [0] ++ [lazily c.any]) := by
  obtain ⟨hi, rfl⟩ := List.getElem?_eq_some_iff.mp hx
  obtain ⟨e, hchases, hfound, hfinished⟩ := h.chases_enter hb host position
    (t := net.lead ⟨c.opening i, 1, [], flag⟩ (c.opening (i + 1)) []) rfl (hlast ▸ rfl) rfl
  have hafter := after_atom rfl (h.opening i hi) hchases hfinished
  have hne := h.closing_ne_any (List.length_pos_iff.mpr hb)
  rwa [hfound, firsts_of_nodup (by simpa using hne)] at hafter

/-- Beginnings that are under way have completed nothing. -/
theorem answer_strands (h : net.Delimits a b c) {is : List Nat} (his : ∀ i ∈ is, i < b.length) :
    net.answer? (strands c is ++ [lazily c.any]) = none := by
  unfold answer? winner?
  rw [Option.map_eq_none_iff, List.find?_eq_none]
  intro t ht
  rcases List.mem_append.mp ht with ht | ht
  · obtain ⟨i, hi, rfl⟩ := List.mem_map.mp ht
    have hways := h.closing i (his i hi)
    exact Bool.eq_false_iff.mp (Network.not_isStop_of_inner (hways ▸ List.cons_ne_nil _ _))
  · rw [List.mem_singleton.mp ht]
    exact Bool.eq_false_iff.mp (Network.not_isStop_of_inner (h.any ▸ List.cons_ne_nil _ _))

end Network.Delimits

/-! ## The way of the match -/

/-- **The only token of the network is a delimited one,** from the text `o` to the text `w`. -/
structure Network.OnlyToken (net : Network) (o w : String) (type : Int) (c : Stations) : Prop
    extends net.Delimits o.toList w.toList c where
  opening_pos : 0 < o.length
  closing_pos : 0 < w.length
  stopsAtEof : net.StopsAtEof
  entry : (net.state 0).transitions = [.epsilon c.start]
  type_eq : net.ruleTokenTypes[(net.state c.stop).rule]? = some type

/-- **Where the match of a delimited token stands:** in the opening text, behind it, or after the
token. -/
inductive Reading (c : Stations) (text : CharStream) (start : Position) (o w : String)
    (type : Int) : Standing → Prop where
  | opening {i : Nat} {p : Position} {flag : Bool} (hi : i < o.length)
      (hp : p.index = start.index + i) :
      Reading c text start o w type ⟨[⟨c.opening i, 1, [], flag⟩], p, none⟩
  | within {is : List Nat} {p : Position} (hle : start.index + o.length ≤ p.index)
      (hin : p.index ≤ text.size) (hlacks : text.Lacks (start.index + o.length) p.index w)
      (hunder : text.Underway (start.index + o.length) p.index w is) :
      Reading c text start o w type
        ⟨Network.Delimits.strands c is ++ [.lazily c.any], p, none⟩
  | closed {q : Nat} {p : Position} (hq : text.ClosesAt (start.index + o.length) w q)
      (hp : p.index = q + w.length) :
      Reading c text start o w type ⟨[.lazily c.stop], p, some ⟨p, type⟩⟩

/-- **How the match of a delimited token ends.** -/
inductive Read (text : CharStream) (start : Position) (o w : String) (type : Int) :
    Halt → Prop where
  | closed {q : Nat} {p : Position} (hq : text.ClosesAt (start.index + o.length) w q)
      (hp : p.index = q + w.length) : Read text start o w type ⟨p, some ⟨p, type⟩⟩
  | unclosed {p : Position} (hnever : ∀ q, start.index + o.length ≤ q → ¬text.Continues q w)
      (hp : p.index = text.size) : Read text start o w type ⟨p, none⟩

theorem Read.index_cases {text : CharStream} {start : Position} {o w : String} {type : Int}
    {y : Halt} (h : Read text start o w type y) :
    (∃ q, text.ClosesAt (start.index + o.length) w q ∧ y.position.index = q + w.length) ∨
      y.position.index = text.size := by
  cases h with
  | closed hq hp => exact .inl ⟨_, hq, hp⟩
  | unclosed _ hp => exact .inr hp

namespace Reading

open Network.Delimits Strand

variable {net : Network} {c : Stations} {text : CharStream} {start : Position} {o w : String}
  {type : Int} {host : Host} {x x' : Standing} {y : Halt}

/-- One step on, by a character. -/
structure Onward (net : Network) (host : Host) (text : CharStream) (x x' : Standing) : Prop where
  after : net.After host (x.position.index + 1) (text.symbolAt x.position.index) x.strands
    x'.strands
  ne_nil : x'.strands ≠ []
  on : text.symbolAt x.position.index ≠ Symbol.eof
  standing_eq : x' = net.standing x'.strands
    (x.position.past (text.symbolAt x.position.index)) x.completed

namespace Onward

theorem steps (h : Onward net host text x x') : net.Steps host text x (.inl x') := by
  have hstep := Network.Steps.on h.after h.ne_nil fun heof => absurd heof h.on
  rwa [← h.standing_eq] at hstep

/-- A character that leads to strands leads on. -/
private theorem of_char {a : Char} {fs fs' : List Strand} {p : Position} {before : Option Completed}
    (hchar : text.chars[p.index]? = some a)
    (hafter : net.After host (p.index + 1) a.toNat fs fs') (hne : fs' ≠ []) :
    Onward net host text ⟨fs, p, before⟩ (net.standing fs' (p.past a.toNat) before) := by
  have hsymbol := CharStream.symbolAt_of_char hchar
  refine ⟨hsymbol.symm ▸ hafter, hne, ?_, ?_⟩
  · rw [hsymbol]
    simp [Symbol.eof]
  · rw [hsymbol]
    rfl

end Onward

private theorem index_past {p : Position} {a : Char} : (p.past a.toNat).index = p.index + 1 :=
  p.index_past (by simp [Symbol.eof])

/-- Strands of which none is at the end of the rule complete nothing. -/
private theorem standing_eq {fs : List Strand} {p : Position} (h : net.answer? fs = none) :
    net.standing fs p none = ⟨fs, p, none⟩ := by
  rw [Network.standing, h]
  rfl

section Next

variable (h : net.OnlyToken o w type c)

include h

private theorem closing_ne : w.toList ≠ [] := by
  rw [← List.length_pos_iff, String.length_toList]
  exact h.closing_pos

private theorem answer_opening {i : Nat} (hi : i < o.length) (flag : Bool) :
    net.answer? [⟨c.opening i, 1, [], flag⟩] = none := by
  have hstop := Network.not_isStop_of_inner
    (h.opening i (String.length_toList ▸ hi) ▸ List.cons_ne_nil _ _)
  simp [Network.answer?, Network.winner?, hstop]

private theorem answer_within {is : List Nat} (his : ∀ i ∈ is, i < w.length) :
    net.answer? (strands c is ++ [lazily c.any]) = none :=
  h.answer_strands fun i hi => String.length_toList ▸ his i hi

private theorem answer_closed : net.answer? [lazily c.stop] = some type := by
  have hstop : net.isStop (lazily c.stop).state = true := h.stop
  have htype : net.ruleTokenTypes[(net.state (lazily c.stop).state).rule]? = some type := h.type_eq
  simp [Network.answer?, Network.winner?, Network.typeOf, hstop, htype]

/-- A step in the opening text. -/
private theorem next_opening (hopen : text.Continues start.index o) {i : Nat} {p : Position}
    (flag : Bool) (hi : i < o.length) (hp : p.index = start.index + i) :
    ∃ x', Onward net host text ⟨[⟨c.opening i, 1, [], flag⟩], p, none⟩ x' ∧
      Reading c text start o w type x' := by
  have hi' : i < o.toList.length := String.length_toList ▸ hi
  have hget := List.getElem?_eq_getElem hi'
  have hchar : text.chars[p.index]? = some o.toList[i] := by
    rw [hp, CharStream.continues_iff.mp hopen i hi, hget]
  rcases Nat.eq_or_lt_of_le hi with hlast | hlt
  · have hafter := h.after_opened (closing_ne h) host (p.index + 1) flag hget
      (String.length_toList ▸ hlast)
    have hindex : (p.past o.toList[i].toNat).index = start.index + o.length := by
      rw [index_past, hp, ← hlast, Nat.succ_eq_add_one, Nat.add_assoc]
    refine ⟨_, .of_char hchar hafter (by simp), ?_⟩
    rw [standing_eq (answer_within h (by simpa using h.closing_pos))]
    refine .within hindex.ge (hindex ▸ hopen.le h.opening_pos) (fun q hq hend => ?_) ?_
    · have := h.closing_pos
      omega
    · exact hindex ▸ .begins h.closing_pos
  · obtain ⟨flag', hafter⟩ := h.after_opening host (p.index + 1) flag hget
      (String.length_toList ▸ hlt)
    refine ⟨_, .of_char hchar hafter (List.cons_ne_nil _ _), ?_⟩
    rw [standing_eq (answer_opening h hlt flag')]
    exact .opening hlt (by rw [index_past, hp, Nat.add_assoc])

/-- A step behind the opening text. -/
private theorem next_within {is : List Nat} {p : Position} {a : Char}
    (hle : start.index + o.length ≤ p.index) (hchar : text.chars[p.index]? = some a)
    (hlacks : text.Lacks (start.index + o.length) p.index w)
    (hunder : text.Underway (start.index + o.length) p.index w is) :
    ∃ x', Onward net host text ⟨strands c is ++ [lazily c.any], p, none⟩ x' ∧
      Reading c text start o w type x' := by
  have hlength : w.toList.length = w.length := String.length_toList
  have his : ∀ i ∈ is, i < w.length := fun i hi => ((hunder.mem_iff i).mp hi).1
  by_cases hcloses : ∃ i ∈ is, i + 1 = w.length ∧ w.toList[i]? = some a
  · obtain ⟨q, hq, hend, hcont⟩ := (hunder.closes_iff h.closing_pos hchar).mp hcloses
    obtain ⟨i, hi, hlast, hx⟩ := hcloses
    -- The beginning of which the most was read is the oldest one.
    obtain ⟨rest, rfl⟩ : ∃ rest, is = i :: rest := by
      cases is with
      | nil => cases hi
      | cons j rest =>
        rcases List.mem_cons.mp hi with rfl | hi
        · exact ⟨rest, rfl⟩
        · have := his j List.mem_cons_self
          have := List.rel_of_pairwise_cons hunder.sorted hi
          omega
    have hafter := h.after_closes host (p.index + 1) rest (hlast.trans hlength.symm) hx
    refine ⟨_, .of_char hchar hafter (List.cons_ne_nil _ _), ?_⟩
    -- It was not completed before, so the closing text stands here first.
    have hindex : (p.past a.toNat).index = q + w.length := index_past.trans hend.symm
    rw [Network.standing, answer_closed h]
    refine .closed ⟨⟨hq, hcont⟩, fun q' hq' => ?_⟩ hindex
    by_contra hlt
    exact hlacks q' hq'.1 (by omega) hq'.2
  · -- Those that the character does not continue are given up, and a new beginning comes last.
    have hstep := hunder.step h.closing_pos hle hchar hcloses
    have hfurther := fun i hi => ((hstep.mem_iff i).mp hi).1
    have hafter := h.after_further (closing_ne h) host (p.index + 1)
      (fun i hi => hlength ▸ his i hi) (hlength ▸ hcloses) (fun i hi => hlength ▸ hfurther i hi)
      hstep.nodup
    refine ⟨_, .of_char hchar hafter (by simp), ?_⟩
    rw [standing_eq (answer_within h hfurther)]
    refine .within ?_ ?_ ?_ ?_
    · rw [index_past]
      omega
    · rw [index_past]
      exact (Array.getElem?_eq_some_iff.mp hchar).1
    · rw [index_past]
      intro q hq hend hcont
      rcases Nat.eq_or_lt_of_le hend with hend | hend
      · exact hcloses ((hunder.closes_iff h.closing_pos hchar).mpr ⟨q, hq, hend, hcont⟩)
      · exact hlacks q hq (Nat.le_of_lt_succ hend) hcont
    · rw [index_past]
      exact hstep

/-- **From where the match stands it goes on,** or it has come to its end. -/
theorem next (hopen : text.Continues start.index o) (hx : Reading c text start o w type x) :
    (∃ x', Onward net host text x x' ∧ Reading c text start o w type x' ∧
      text.Lacks (start.index + o.length) x.position.index w) ∨
    (net.After host (x.position.index + 1) (text.symbolAt x.position.index) x.strands [] ∧
      Read text start o w type ⟨x.position, x.completed⟩) := by
  cases hx with
  | @opening i p flag hi hp =>
    obtain ⟨x', hon, hx'⟩ := next_opening h hopen flag hi hp
    refine .inl ⟨x', hon, hx', fun q hq hend => ?_⟩
    dsimp only at hend
    omega
  | @within is p hle hin hlacks hunder =>
    rcases Nat.eq_or_lt_of_le hin with hend | hlt
    · refine .inr ⟨?_, .unclosed (fun q hq hcont => ?_) hend⟩
      · rw [show text.symbolAt p.index = Symbol.eof from CharStream.symbolAt_eq_eof_iff.mpr hend.ge]
        exact h.stopsAtEof.exists_after _ _ _
      · exact hlacks q hq (hend ▸ hcont.le h.closing_pos) hcont
    · obtain ⟨x', hon, hx'⟩ := next_within h hle (Array.getElem?_eq_getElem hlt) hlacks hunder
      exact .inl ⟨x', hon, hx', hlacks⟩
  | @closed q p hq hp =>
    refine .inr ⟨?_, .closed hq hp⟩
    rcases hchar : text.chars[p.index]? with _ | a
    · rw [show text.symbolAt p.index = Symbol.eof by rw [CharStream.symbolAt, hchar]; rfl]
      exact h.stopsAtEof.exists_after _ _ _
    · rw [CharStream.symbolAt_of_char hchar]
      exact h.after_stop host _ a

/-- **The match begins** before the opening text. -/
theorem exists_begins (host : Host) (position : Nat) :
    ∃ flag, net.Begins host position 0 [⟨c.opening 0, 1, [], flag⟩] := by
  have hfirst := h.opening 0 (String.length_toList ▸ h.opening_pos)
  have hne : c.opening 0 ≠ c.start := fun heq => by
    rw [heq, h.start] at hfirst
    cases hfirst
  have hstarts : net.starts 0 = [net.lead ⟨c.start, 1, [], false⟩ c.start []] := by
    rw [Network.starts, h.entry]
    rfl
  have hchases : (net.outlook host position false).Chases
      (Vantage.begin (net.lead ⟨c.start, 1, [], false⟩ c.start []) false) _ :=
    .step (Vantage.pursue_hop List.not_mem_nil h.start) (.step (Vantage.pursue_rest rfl
      (fun hmem => hne (congrArg Strand.state (List.mem_singleton.mp hmem))) hfirst
        (.inl ⟨_, _, rfl⟩)) (.done rfl))
  unfold Network.Begins
  rw [hstarts]
  exact ⟨_, _, _, .next .nil hchases, firsts_of_nodup (List.nodup_singleton _)⟩

theorem of_begins {fs : List Strand} (hbegins : net.Begins host start.index 0 fs) :
    fs.length = 1 ∧ Reading c text start o w type (net.standing fs start none) := by
  obtain ⟨flag, hfirst⟩ := exists_begins h host start.index
  obtain rfl := hbegins.unique hfirst
  refine ⟨rfl, ?_⟩
  rw [standing_eq (answer_opening h h.opening_pos flag)]
  exact .opening h.opening_pos rfl

variable (hopen : text.Continues start.index o)

include hopen

/-- **A step leads from one standing to another one.** -/
theorem step (hx : Reading c text start o w type x) (hstep : net.Steps host text x (.inl x')) :
    Reading c text start o w type x' := by
  rcases next h hopen hx with ⟨x₁, hon, hx₁, -⟩ | ⟨hafter, -⟩
  · exact Sum.inl.inj (hstep.unique hon.steps) ▸ hx₁
  · cases hstep.unique (.stop hafter)

theorem stepsTo (hx : Reading c text start o w type x) (hsteps : net.StepsTo host text x x') :
    Reading c text start o w type x' := by
  induction hsteps with
  | refl => exact hx
  | tail _ hstep ih => exact step h hopen ih hstep

/-- **Where the match ends** the closing text has come to its end, or it does not come. -/
theorem scans (hscans : net.Scans host text x y) (hx : Reading c text start o w type x) :
    Read text start o w type y := by
  induction hscans with
  | halt hstep =>
    rcases next h hopen hx with ⟨x₁, hon, -⟩ | ⟨hafter, hread⟩
    · cases hstep.unique hon.steps
    · exact Sum.inr.inj (hstep.unique (.stop hafter)) ▸ hread
  | step hstep _ ih => exact ih (step h hopen hx hstep)

/-- **The match comes to every position** before the end of the closing text. -/
theorem exists_stepsTo (hx : Reading c text start o w type x)
    (hstart : x.position.index = start.index) {k : Nat} (hin : start.index + k ≤ text.size)
    (hlacks : text.Lacks (start.index + o.length) (start.index + k) w) :
    ∃ x', net.StepsTo host text x x' ∧ Reading c text start o w type x' ∧
      x'.position.index = start.index + k := by
  induction k with
  | zero => exact ⟨x, .refl, hx, hstart⟩
  | succ k ih =>
    have hbefore : text.Lacks (start.index + o.length) (start.index + k) w := fun q hq hend =>
      hlacks q hq (Nat.le_succ_of_le hend)
    obtain ⟨x₁, hsteps, hx₁, hindex⟩ := ih (by omega) hbefore
    rcases next h hopen hx₁ with ⟨x₂, hon, hx₂, -⟩ | ⟨-, hread⟩
    · refine ⟨x₂, hsteps.tail hon.steps, hx₂, ?_⟩
      rw [hon.standing_eq]
      exact (x₁.position.index_past hon.on).trans (by rw [hindex, Nat.add_assoc])
    · rcases hread.index_cases with ⟨q, hq, hp⟩ | hp
      · exact absurd hq.1.2 (hbefore q hq.1.1 (hp.symm.trans hindex).le)
      · exact absurd (hp.symm.trans hindex) (Nat.ne_of_gt hin)

end Next

/-! ### Ceilings -/

theorem le_index (hx : Reading c text start o w type x) : start.index ≤ x.position.index := by
  cases hx with
  | opening _ hp => exact hp ▸ Nat.le_add_right _ _
  | within hle => exact (Nat.le_add_right _ _).trans hle
  | closed hq hp =>
    have := hq.1.1
    dsimp only
    omega

section Ceilings

variable (h : net.OnlyToken o w type c) (hopen : text.Continues start.index o)
  {settings : LexerSettings}
  (hlength : ∀ p < text.size, text.Lacks (start.index + o.length) p w →
    p < start.index + settings.maxTokenLength)

include h hopen hlength

/-- **The only ceiling that is met** is that on the members of a set. -/
private theorem meets {e : Exceeded} (hx : Reading c text start o w type x)
    (hmeets : net.Meets host settings text start.index x e) :
    text.Throngs (start.index + o.length) w ∧ e = .tooMany Limits.configsPerSet := by
  cases hmeets with
  | tooMany hmany =>
    refine ⟨?_, rfl⟩
    rcases next h hopen hx with ⟨x₁, hon, hx₁, -⟩ | ⟨hafter, -⟩
    · have hlt := hmany _ hon.after
      have hone : ¬Limits.configsPerSet < 1 := by decide
      cases hx₁ with
      | opening => exact absurd hlt hone
      | @within is p hle hin hlacks hunder =>
        refine ⟨p.index, hle, hin, hlacks, ?_⟩
        rw [← hunder.card_eq hin]
        simpa [strands, Nat.lt_succ_iff] using hlt
      | closed => exact absurd hlt hone
    · exact absurd (hmany _ hafter) (Nat.not_lt_zero _)
  | tooLong hafter hne hon hlong =>
    rcases next h hopen hx with ⟨x₁, -, -, hlacks⟩ | ⟨hnone, -⟩
    · have := hlength _ (CharStream.lt_size_of_symbolAt hon) hlacks
      have := hx.le_index
      omega
    · exact absurd (hafter.unique hnone) hne

/-- **Without too many beginnings** no ceiling is met. -/
theorem spared {r : Except LexError TokenMatch}
    (hroom : ¬text.Throngs (start.index + o.length) w)
    (hweathers : net.Weathers host settings text 0 start r) (e : Exceeded) :
    r ≠ .error (.exceeded e) := by
  cases hweathers with
  | atOnce hmany =>
    obtain ⟨flag, hbegins⟩ := exists_begins h host start.index
    exact absurd (hmany _ hbegins) (show ¬Limits.configsPerSet < 1 by decide)
  | later hbegins hsteps hmeets =>
    have hx := stepsTo h hopen (of_begins h hbegins).2 hsteps
    exact absurd (meets h hopen hlength hx hmeets).1 hroom
  | spared _ _ hr => exact hr e

/-- **With too many beginnings** the match fails at the ceiling on the members of a set. -/
theorem exceeds {r : Except LexError TokenMatch}
    (hthrongs : text.Throngs (start.index + o.length) w)
    (hweathers : net.Weathers host settings text 0 start r) :
    r = .error (.exceeded (.tooMany Limits.configsPerSet)) := by
  cases hweathers with
  | atOnce hmany => rfl
  | later hbegins hsteps hmeets =>
    have hx := stepsTo h hopen (of_begins h hbegins).2 hsteps
    rw [(meets h hopen hlength hx hmeets).2]
  | spared hbegins hroom =>
    obtain ⟨p, hle, hin, hlacks, hcard⟩ := hthrongs
    -- The match would come to the position of the throng, where it has too many strands.
    obtain ⟨k, rfl⟩ := Nat.exists_eq_add_of_le ((Nat.le_add_right _ _).trans hle)
    obtain ⟨x', hsteps, hx', hindex⟩ :=
      exists_stepsTo h hopen (of_begins h hbegins).2 rfl hin hlacks
    have hle' := hroom x' hsteps
    cases hx' with
    | opening hi hp =>
      dsimp only at hindex
      omega
    | @within is p _ hin' _ hunder =>
      have hindex : p.index = start.index + k := hindex
      have hsize : (strands c is ++ [lazily c.any]).length ≤ Limits.configsPerSet := hle'
      rw [List.length_append, strands, List.length_map, hunder.card_eq hin', hindex] at hsize
      exact absurd hcard (Nat.not_le.mpr hsize)
    | closed hq hp => exact absurd hq.1.2 (hlacks _ hq.1.1 (hp.symm.trans hindex).le)

end Ceilings

end Reading

/-! ## What is answered -/

/-- **What a match of a delimited token answers:** the token up to the end of the first closing text
behind the opening one. Without a closing text the match fails at the end of the input. -/
inductive Delimited (text : CharStream) (start : Position) (o w : String) (type : Int) :
    Except LexError TokenMatch → Prop where
  | closed {q : Nat} (hq : text.ClosesAt (start.index + o.length) w q) :
      Delimited text start o w type (.ok ⟨type, start.index, q + w.length, none⟩)
  | unclosed (hnever : ∀ q, start.index + o.length ≤ q → ¬text.Continues q w) :
      Delimited text start o w type (.error (.noViableAlternative start.index text.size start.line
        start.column (text.text start.index (text.size + 1))))

/-- Where the closing text stands is where the token ends. -/
theorem Delimited.eq_ok {text : CharStream} {start : Position} {o w : String} {type : Int}
    {r : Except LexError TokenMatch} (h : Delimited text start o w type r) {q : Nat}
    (hq : text.ClosesAt (start.index + o.length) w q) :
    r = .ok ⟨type, start.index, q + w.length, none⟩ := by
  cases h with
  | closed hq' => rw [hq.unique hq']
  | unclosed hnever => exact absurd hq.1.2 (hnever q hq.1.1)

private theorem Read.verdict {text : CharStream} {start : Position} {o w : String} {type : Int}
    {y : Halt} (h : Read text start o w type y) (hopen : text.Continues start.index o)
    (ho : 0 < o.length) : Delimited text start o w type (y.verdict text start).1 := by
  cases h with
  | closed hq hp =>
    have : Delimited text start o w type _ := .closed hq
    rwa [← hp] at this
  | @unclosed p hnever hp =>
    have hle := hopen.le ho
    have hnot : ¬(text.symbolAt p.index = Symbol.eof ∧ p.index = start.index) := fun hend => by
      omega
    unfold Halt.verdict
    dsimp only
    rw [if_neg hnot, hp]
    exact .unclosed hnever

namespace Grammar

variable {name rule o w : String} {type : Int} {net : Network} {modeStarts : List StateId}
  {d : Draft}

private theorem length_pos {t : String} (h : t ≠ "") : 0 < t.length := by
  rw [← String.length_toList]
  exact List.length_pos_iff.mpr (mt String.toList_eq_nil_iff.mp h)

theorem Built.exists_onlyToken (h : (delimited name rule o w type).Built net modeStarts d)
    (ho : o ≠ "") (hw : w ≠ "") : ∃ c, net.OnlyToken o w type c := by
  obtain ⟨c, hdelimits, hentry, htype⟩ := h.exists_delimits ho hw
  exact ⟨c, hdelimits, length_pos ho, length_pos hw, h.delimited_stopsAtEof, hentry, htype⟩

end Grammar

namespace Scanner

open Grammar

/-- A match of a delimited token comes to an end, and fares with the ceilings as its strands do. -/
private theorem matchToken_weathers {name rule o w : String} {type : Int} {net : Network}
    (hcompile : (delimited name rule o w type).compile = .ok net) (ho : o ≠ "") (hw : w ≠ "")
    (hword : net.states.size ≤ emptyReturn) {s : Scanner} (hworn : s.cache.Worn net) :
    ∃ c, net.OnlyToken o w type c ∧ ∃ enough, ∀ fuel, enough ≤ fuel → ∀ settings (host : Host),
      (matchToken settings host fuel 0).Yields s fun r _ =>
        net.Weathers host settings s.stream 0 s.position r ∧
          ((∀ e, r ≠ .error (.exceeded e)) → ∃ y, net.Finds host s.stream 0 s.position y ∧
            r.map TokenMatch.silent = (y.verdict s.stream s.position).1) := by
  obtain ⟨modeStarts, d, hbuilt⟩ := exists_built hcompile
  obtain ⟨c, htoken⟩ := hbuilt.exists_onlyToken ho hw
  have hlexer := hbuilt.isLexer_of_lexer rfl
  have hentry : net.modeStarts[0]? = some 0 :=
    (hbuilt.modeStart_iff rfl).mpr ⟨Nat.zero_lt_one, rfl⟩
  obtain ⟨nodes, hc⟩ := hworn.lexes hbuilt.consistent hlexer hword
  refine ⟨c, htoken, chaseBound net nodes + s.stream.size + 1, fun fuel hfuel settings host => ?_⟩
  have hreturns : (matchToken settings host fuel 0).Yields s _ :=
    matchToken_returns hbuilt.consistent hword htoken.stopsAtEof hc hfuel
  obtain ⟨r, s', hrun, -, hends⟩ := hreturns
  have hweathers := matchToken_ceilings hbuilt.consistent hlexer hword hbuilt.delimited_flat hworn
    hentry settings host fuel r s' hrun
  refine ⟨r, s', hrun, hweathers, fun hmet => ?_⟩
  generalize s'.position = p at hends
  cases hends with
  | exceeded => exact absurd rfl (hmet _)
  | unknown hnone => cases hnone.symm.trans hentry
  | found hentry' hfinds hverdict =>
    obtain rfl := Option.some.inj (hentry'.symm.trans hentry)
    exact ⟨_, hfinds, congrArg Prod.fst hverdict⟩

/-- **A lazy loop stops at the first closing text.** Where the text goes on with the opening text,
the lexer of a delimited token matches up to the end of the first closing text behind it, and fails
at the end of the input if there is none, on every cache that earlier matches have left behind and
as long as the token does not become too long. Only if more beginnings of the closing text are under
way at once than a set has room for, it fails at that ceiling instead. -/
theorem matchToken_delimited {name rule o w : String} {type : Int} {net : Network}
    (hcompile : (delimited name rule o w type).compile = .ok net) (ho : o ≠ "") (hw : w ≠ "")
    (hword : net.states.size ≤ emptyReturn) {s : Scanner} (hworn : s.cache.Worn net)
    (hopen : s.stream.Continues s.position.index o) :
    ∃ enough, ∀ fuel, enough ≤ fuel → ∀ settings (host : Host),
      (∀ p < s.stream.size, s.stream.Lacks (s.position.index + o.length) p w →
        p < s.position.index + settings.maxTokenLength) →
      (matchToken settings host fuel 0).Yields s fun r _ =>
        (¬s.stream.Throngs (s.position.index + o.length) w →
          Delimited s.stream s.position o w type (r.map TokenMatch.silent)) ∧
        (s.stream.Throngs (s.position.index + o.length) w →
          r = .error (.exceeded (.tooMany Limits.configsPerSet))) := by
  obtain ⟨c, htoken, enough, hruns⟩ := matchToken_weathers hcompile ho hw hword hworn
  refine ⟨enough, fun fuel hfuel settings host hlength => (hruns fuel hfuel settings host).mono ?_⟩
  rintro r - ⟨hweathers, hfinds⟩
  refine ⟨fun hroom => ?_, fun hthrongs => Reading.exceeds htoken hopen hlength hthrongs hweathers⟩
  obtain ⟨y, ⟨fs, hbegins, hscans⟩, hverdict⟩ :=
    hfinds (Reading.spared htoken hopen hlength hroom hweathers)
  have hread := Reading.scans htoken hopen hscans (Reading.of_begins htoken hbegins).2
  rw [hverdict]
  exact hread.verdict hopen htoken.opening_pos

theorem matchToken_comment : ∃ net, (delimited "Comments" "comment" "/*" "*/" 1).compile = .ok net ∧
    ∃ enough, ∀ fuel, enough ≤ fuel →
      (matchToken {} .permissive fuel 0).Yields
        { cache := .new net, stream := .ofText "/***/ */" } fun r _ =>
          r.map TokenMatch.silent = .ok ⟨1, 0, 5, none⟩ := by
  obtain ⟨net, hnet⟩ := exists_compile_delimited "Comments" "comment" "/*" "*/" 1
  have hsize := size_of_compile_delimited hnet (by decide) (by decide)
  have hopen : (CharStream.ofText "/***/ */").Continues 0 "/*" := by decide
  have hcloses : (CharStream.ofText "/***/ */").ClosesAt 2 "*/" 3 := by
    refine ⟨⟨by decide, by decide⟩, fun q ⟨hq, hcont⟩ => ?_⟩
    by_contra hlt
    obtain rfl : q = 2 := by omega
    exact absurd hcont (by decide)
  have hroom : ¬(CharStream.ofText "/***/ */").Throngs 2 "*/" := fun hthrongs =>
    absurd hthrongs.le_length (by decide)
  obtain ⟨enough, hruns⟩ := matchToken_delimited hnet (by decide) (by decide) (hsize ▸ by decide)
    (s := { cache := .new net, stream := .ofText "/***/ */" }) (.new _ _) hopen
  have hlength : (CharStream.ofText "/***/ */").size ≤ Limits.tokenLength := by decide
  refine ⟨net, hnet, enough, fun fuel hfuel => (hruns fuel hfuel {} .permissive ?_).mono ?_⟩
  · exact fun p hp _ => Nat.lt_of_lt_of_le hp (hlength.trans (Nat.le_add_left _ _))
  · rintro r - ⟨hdelimited, -⟩
    exact (hdelimited hroom).eq_ok hcloses

/-! ### Too many beginnings -/

/-- One letter, several times. -/
def repeated (n : Nat) : String := String.ofList (List.replicate n 'a')

/-- The letter, several times, after an opening bracket. -/
def bracketed (n : Nat) : CharStream := .ofText ("(" ++ repeated n)

private theorem length_repeated (n : Nat) : (repeated n).length = n := by
  simp [repeated]

private theorem chars_bracketed (n : Nat) :
    (bracketed n).chars = ('(' :: List.replicate n 'a').toArray := by
  simp [bracketed, repeated, CharStream.ofText]

private theorem get_bracketed {n k : Nat} :
    (bracketed n).chars[k + 1]? = (repeated n).toList[k]? := by
  simp [chars_bracketed, repeated]

private theorem continues_bracketed (n : Nat) : (bracketed n).Continues 1 (repeated n) := by
  refine CharStream.continues_iff.mpr fun j _ => ?_
  rw [Nat.add_comm, get_bracketed]

/-- **When the last letter but one was read** the word may have begun at each of the letters. -/
private theorem throngs_bracketed {n : Nat} (hn : Limits.configsPerSet ≤ n) :
    (bracketed n).Throngs 1 (repeated n) := by
  have hlength := length_repeated n
  have hin : n ≤ (bracketed n).size := by simp [CharStream.size, chars_bracketed]
  have hpos : 0 < n := Nat.lt_of_lt_of_le (by decide) hn
  refine ⟨n, hpos, hin, fun q hq hend => by omega, ?_⟩
  suffices hall : (bracketed n).begun 1 n (repeated n) = Finset.range n by
    rwa [hall, Finset.card_range]
  ext i
  rw [CharStream.mem_begun hin, Finset.mem_range, hlength]
  refine and_iff_left_of_imp fun hi => ⟨by omega, fun j hj => ?_⟩
  obtain ⟨k, hk⟩ := Nat.exists_eq_add_of_lt hi
  rw [show n - i + j = (k + j) + 1 by omega, get_bracketed]
  simp only [repeated, String.toList_ofList, List.getElem?_replicate]
  rw [if_pos (by omega), if_pos (by omega)]

private theorem closesAt_bracketed (n : Nat) : (bracketed n).ClosesAt 1 (repeated n) 1 :=
  ⟨⟨Nat.le_refl 1, continues_bracketed n⟩, fun _ hq => hq.1⟩

private theorem size_bracketed (n : Nat) : (bracketed n).size = n + 1 := by
  simp [CharStream.size, chars_bracketed]

private theorem opens_bracketed (n : Nat) : (bracketed n).Continues 0 "(" := by
  simp [CharStream.Continues, chars_bracketed]

/-- A closing text of one letter only can be too long. -/
private theorem matchToken_bracketed {n : Nat} (hn : Limits.configsPerSet ≤ n)
    (hlength : n < Limits.tokenLength) {net : Network}
    (hnet : (delimited "Throng" "token" "(" (repeated n) 1).compile = .ok net) :
    ∃ enough, ∀ fuel, enough ≤ fuel →
      (matchToken {} .permissive fuel 0).Yields { cache := .new net, stream := bracketed n }
        fun r _ => r = .error (.exceeded (.tooMany Limits.configsPerSet)) := by
  have hletters : repeated n ≠ "" := fun hempty => by
    have := length_repeated n
    rw [hempty] at this
    exact absurd (this ▸ hn) (by decide)
  have hsize := size_of_compile_delimited hnet (by decide) hletters
  rw [length_repeated] at hsize
  have hword : net.states.size ≤ emptyReturn := by
    have hbound : 1 + Limits.tokenLength + 12 ≤ emptyReturn := by decide
    have hbracket : "(".length = 1 := rfl
    omega
  obtain ⟨c, htoken, enough, hruns⟩ := matchToken_weathers hnet (by decide) hletters hword
    (s := { cache := .new net, stream := bracketed n }) (.new _ _)
  refine ⟨enough, fun fuel hfuel => (hruns fuel hfuel {} .permissive).mono ?_⟩
  rintro r - ⟨hweathers, -⟩
  refine Reading.exceeds htoken (opens_bracketed n) (fun p hp _ => ?_) (throngs_bracketed hn)
    hweathers
  have hp : p < n + 1 := size_bracketed n ▸ hp
  exact Nat.lt_of_lt_of_le (by omega) (Nat.le_add_left Limits.tokenLength _)

/-- **A closing text that is too long:** it stands right behind the opening one in a text that is
not too long for a token, and the match fails at the ceiling on the members of a set. -/
theorem matchToken_throng : ∃ net,
    (delimited "Throng" "token" "(" (repeated Limits.configsPerSet) 1).compile = .ok net ∧
      (bracketed Limits.configsPerSet).Continues 0 "(" ∧
      (bracketed Limits.configsPerSet).ClosesAt 1 (repeated Limits.configsPerSet) 1 ∧
      (bracketed Limits.configsPerSet).size ≤ Limits.tokenLength ∧
      ∃ enough, ∀ fuel, enough ≤ fuel → (matchToken {} .permissive fuel 0).Yields
        { cache := .new net, stream := bracketed Limits.configsPerSet } fun r _ =>
          r = .error (.exceeded (.tooMany Limits.configsPerSet)) ∧
            r.map TokenMatch.silent ≠ .ok ⟨1, 0, 1 + Limits.configsPerSet, none⟩ := by
  obtain ⟨net, hnet⟩ :=
    exists_compile_delimited "Throng" "token" "(" (repeated Limits.configsPerSet) 1
  have hlength : Limits.configsPerSet < Limits.tokenLength := by decide
  obtain ⟨enough, hruns⟩ := matchToken_bracketed (Nat.le_refl _) hlength hnet
  refine ⟨net, hnet, opens_bracketed _, closesAt_bracketed _, size_bracketed _ ▸ hlength, enough,
    fun fuel hfuel => (hruns fuel hfuel).mono ?_⟩
  rintro _ - rfl
  exact ⟨rfl, nofun⟩

end Scanner

end AdaptiveLL
