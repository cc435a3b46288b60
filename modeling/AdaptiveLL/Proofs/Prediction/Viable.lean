import AdaptiveLL.Proofs.Network.Orderly
import AdaptiveLL.Proofs.Prediction.Reach

/-!
# Viable alternatives

An alternative is viable if the rest of the input can be read from it, up to the end of the
outermost rule. Threads *keep* such an alternative: one of them shadows a stand from which the rest
can be read. Every symbol preserves that, whether stacks are exact or not.

With exact stacks the converse holds as well: a thread from which the rest can be read speaks for a
viable alternative.
-/

namespace AdaptiveLL

open StackGraph (Begins)

theorem trim_trim (wild : Bool) (T : Set Thread) : trim wild (trim wild T) = trim wild T := by
  rw [← trim_spread, spread_trim, trim_spread]

namespace Network

variable {net : Network} {top : Nat} {stop : StateId} {full : Bool} {T U : Set Thread} {a : Nat}
  {v : Symbol} {w : List Symbol}

/-! ## Keeping an alternative -/

/-- **The threads keep an alternative:** one of them shadows a stand from which the word can be
read. -/
def Keeps (net : Network) (top : Nat) (stop : StateId) (full : Bool) (T : Set Thread) (a : Nat)
    (w : List Symbol) : Prop :=
  ∃ t ∈ T, t.1.1 = a ∧ ∃ c, Shadows full t.2 c ∧ net.Linked top c.1 c.2 ∧
    net.Reads c w (stop, [])

/-- A stand that consumes the first symbol of a word at once and can read the rest. -/
def Consumes (net : Network) (stop : StateId) (c : Stand) (w : List Symbol) : Prop :=
  ∃ v w' t, w = v :: w' ∧ net.isStop c.1 = false ∧ t ∈ (net.state c.1).transitions ∧
    t.accepts v net.firstSymbol net.lastSymbol = true ∧ net.Reads (t.target, c.2) w' (stop, [])

/-- **The threads await a word for an alternative:** one of them shadows a stand that consumes the
first symbol of it and can read the rest. -/
def Awaits (net : Network) (top : Nat) (stop : StateId) (full : Bool) (T : Set Thread) (a : Nat)
    (w : List Symbol) : Prop :=
  ∃ t ∈ T, t.1.1 = a ∧ ∃ c, Shadows full t.2 c ∧ net.Linked top c.1 c.2 ∧ net.Consumes stop c w

theorem Consumes.reads {c : Stand} (h : net.Consumes stop c w) : net.Reads c w (stop, []) := by
  obtain ⟨v, w', t, rfl, hstop, ht, hacc, hreads⟩ := h
  exact .eat hstop ht hacc hreads

theorem Awaits.keeps (h : net.Awaits top stop full T a w) : net.Keeps top stop full T a w := by
  obtain ⟨t, ht, halt, c, hshadow, hlinked, hcons⟩ := h
  exact ⟨t, ht, halt, c, hshadow, hlinked, hcons.reads⟩

theorem Awaits.mono (h : net.Awaits top stop full T a w) (hTU : T ⊆ U) :
    net.Awaits top stop full U a w := by
  obtain ⟨t, ht, hrest⟩ := h
  exact ⟨t, hTU ht, hrest⟩

theorem Keeps.exists_alt (h : net.Keeps top stop full T a w) : ∃ t ∈ T, t.1.1 = a := by
  obtain ⟨t, ht, halt, _⟩ := h
  exact ⟨t, ht, halt⟩

/-- A thread that is trimmed away leaves a shadow of itself. -/
theorem exists_shadow {t : Thread} (ht : t ∈ T) {c : Stand} (hc : Shadows full t.2 c) :
    ∃ u ∈ trim (!full) T, u.1 = t.1 ∧ Shadows full u.2 c := by
  have hspread : t ∈ spread (!full) (trim (!full) T) := by
    rw [spread_trim]
    exact subset_spread _ _ ht
  obtain ⟨σ, hσ, hbegins⟩ := hspread
  refine ⟨_, hσ, rfl, hc.1, ?_⟩
  obtain ⟨ρ, hρ, hfull⟩ := hc.2
  obtain ⟨τ, hτ⟩ := hbegins.isPrefix
  refine ⟨τ ++ ρ, by rw [hρ, ← hτ, List.append_assoc], fun h => ?_⟩
  have hσt : σ = t.2.2 := by
    rw [h] at hbegins
    exact hbegins
  rw [hσt] at hτ
  rw [hfull h, List.append_nil]
  simpa using hτ

theorem Keeps.trim (h : net.Keeps top stop full T a w) :
    net.Keeps top stop full (trim (!full) T) a w := by
  obtain ⟨t, ht, halt, c, hshadow, hlinked, hreads⟩ := h
  obtain ⟨u, hu, htag, hshadow'⟩ := exists_shadow ht hshadow
  exact ⟨u, hu, htag ▸ halt, c, hshadow', hlinked, hreads⟩

theorem Awaits.trim (h : net.Awaits top stop full T a w) :
    net.Awaits top stop full (trim (!full) T) a w := by
  obtain ⟨t, ht, halt, c, hshadow, hlinked, hcons⟩ := h
  obtain ⟨u, hu, htag, hshadow'⟩ := exists_shadow ht hshadow
  exact ⟨u, hu, htag ▸ halt, c, hshadow', hlinked, hcons⟩

/-! ## One symbol -/

/-- The symbols a prediction is made for. -/
def Legible (v : Symbol) : Prop := Symbol.firstToken ≤ v ∨ v = Symbol.eof

theorem ne_eof (hv : Symbol.firstToken ≤ v) : v ≠ Symbol.eof := by
  rintro rfl
  exact absurd hv (by decide)

/-- A prediction consumes what the network reads. -/
theorem accepts_eq (hparser : net.isLexer = false) (hv : Legible v) (t : Transition) :
    t.accepts v 0 net.maxTokenType = t.accepts v net.firstSymbol net.lastSymbol := by
  have hlast : net.lastSymbol = net.maxTokenType := by simp [lastSymbol, hparser]
  have hfirst : net.firstSymbol = Symbol.firstToken := by simp [firstSymbol, hparser]
  rw [hlast, hfirst]
  rcases hv with hv | rfl
  · exact Transition.accepts_of_le (Int.le_trans (by decide) hv) hv
  · exact Transition.accepts_eof le_rfl (by decide)

/-- **Consuming a symbol keeps an alternative.** -/
theorem Awaits.moved (hnet : net.Orderly) (hparser : net.isLexer = false) (hv : Legible v)
    (h : net.Awaits top stop full T a (v :: w)) :
    net.Keeps top stop full (net.movedOn v T) a w := by
  obtain ⟨⟨tag, p, σ⟩, ht, halt, ⟨q, ρ⟩, ⟨hpq, hshadow⟩, hlinked, v', w', t, hw, hstop, htq, hacc,
    hreads⟩ := h
  obtain ⟨rfl, rfl⟩ := List.cons.inj hw
  change p = q at hpq
  subst hpq
  refine ⟨(tag, t.target, σ), ⟨p, t, ht, hstop, htq, ?_, rfl⟩, halt, (t.target, ρ),
    ⟨rfl, hshadow⟩, hlinked.eat hnet hstop htq hacc, hreads⟩
  rw [accepts_eq hparser hv]
  exact hacc

theorem onlyEpsilon_of_accepts {q : StateId} {t : Transition} {lo hi : Symbol}
    (ht : t ∈ (net.state q).transitions) (hacc : t.accepts v lo hi = true) :
    (net.state q).onlyEpsilon = false := by
  have heps := Transition.isEpsilon_of_accepts hacc
  by_contra hall
  rw [State.onlyEpsilon, Bool.not_eq_false, Bool.and_eq_true, List.all_eq_true] at hall
  rw [hall.2 t ht] at heps
  cases heps

/-- **A closure keeps an alternative** and makes its thread stand where the next symbol is
consumed. -/
theorem Keeps.closed (hnet : net.Orderly) (atEof : Bool)
    (h : net.Keeps top stop full T a (v :: w)) :
    net.Awaits top stop full (net.closureOf { full, atEof } T) a (v :: w) := by
  obtain ⟨t, ht, halt, c, hshadow, hlinked, hreads⟩ := h
  obtain ⟨q, ρ, t', hhops, hstop, ht', hacc, hreads'⟩ := Reads.cons_iff.mp hreads
  obtain ⟨s, hs, hrun⟩ := hshadow.hops hnet hlinked hhops
  refine ⟨(t.1, s), ⟨⟨t.2, ht, ?_⟩, ?_⟩, halt, (q, ρ), hs, hlinked.hops hnet hhops,
    v, w, t', rfl, hstop, ht', hacc, hreads'⟩
  · refine Relation.ReflTransGen.mono (fun _ _ hhop => ?_) _ _ hrun
    cases atEof
    · exact hhop
    · exact hhop.atEnd
  · have hsq : s.1 = q := hs.1
    unfold Rests
    rw [hsq, hstop]
    exact onlyEpsilon_of_accepts ht' hacc

/-- At the end of the input a kept alternative has a thread at the end of the outermost rule. -/
theorem Keeps.closed_nil (hnet : net.Orderly) (hclosed : net.Closed top stop)
    (h : net.Keeps top stop full T a []) :
    ∃ t ∈ net.closureOf { full, atEof := true } T, t.1.1 = a ∧ t.2 = (stop, []) := by
  obtain ⟨t, ht, halt, c, hshadow, hlinked, hreads⟩ := h
  obtain ⟨⟨p, σ⟩, ⟨hp, ρ, hρ, _⟩, hrun⟩ := hshadow.hops hnet hlinked hreads.hops
  change p = stop at hp
  obtain rfl : σ = [] := (List.append_eq_nil_iff.mp hρ.symm).1
  subst hp
  refine ⟨(t.1, p, []), ⟨⟨t.2, ht, Relation.ReflTransGen.mono (fun _ _ => Hop.atEnd) _ _ hrun⟩, ?_⟩,
    halt, rfl⟩
  unfold Rests
  rw [if_pos hclosed.isStop]
  exact ⟨rfl, .inr (by simp [State.onlyEpsilon, hclosed.ends])⟩

/-- Before the end of the input either one alternative alone moves on, or what moves on is closed,
and perhaps joined by what waits. -/
theorem reachOf_cases (net : Network) (full : Bool) (T : Set Thread)
    (heof : v ≠ Symbol.eof) :
    (∃ b, Speaks (net.reachOf full v T) b ∧
        net.reachOf full v T = AdaptiveLL.trim (!full) (net.movedOn v T)) ∨
      ∃ next, next = AdaptiveLL.trim (!full)
          (net.closureOf { full } (AdaptiveLL.trim (!full) (net.movedOn v T))) ∧
        (net.reachOf full v T = next ∨
          net.reachOf full v T = AdaptiveLL.trim (!full) (next ∪ net.waitingOf full v T)) := by
  have hbeq : (v == Symbol.eof) = false := by simpa using heof
  unfold reachOf advanceOf
  dsimp only
  rw [if_neg heof, hbeq]
  by_cases hone : net.waitingOf full v T = ∅ ∧ v ≠ Symbol.eof ∧
      ∃ b, Speaks (AdaptiveLL.trim (!full) (net.movedOn v T)) b
  · rw [if_pos hone]
    obtain ⟨hwaiting, _, b, hb⟩ := hone
    rw [hwaiting, Set.union_empty, trim_trim, ite_self]
    exact .inl ⟨b, hb, rfl⟩
  · rw [if_neg hone]
    refine .inr ⟨_, rfl, ?_⟩
    split
    · exact .inl rfl
    · exact .inr rfl

/-- **A symbol before the end keeps an alternative,** or leaves nothing but it. -/
theorem Awaits.reach (hnet : net.Orderly) (hparser : net.isLexer = false)
    (hv : Symbol.firstToken ≤ v) (h : net.Awaits top stop full T a (v :: w)) (hw : w ≠ []) :
    Speaks (net.reachOf full v T) a ∨ net.Awaits top stop full (net.reachOf full v T) a w := by
  have hmoved := (h.moved hnet hparser (.inl hv)).trim
  rcases reachOf_cases net full T (ne_eof hv) with
    ⟨b, hb, heq⟩ | ⟨next, hnext, heq⟩
  · -- One alternative alone moves on, so it is the one that is kept.
    obtain ⟨t, ht, halt⟩ := hmoved.exists_alt
    rw [← heq] at ht
    obtain rfl : a = b := halt.symm.trans (hb.2 t ht)
    exact .inl hb
  · obtain ⟨u, w', rfl⟩ := List.exists_cons_of_ne_nil hw
    have hawaits : net.Awaits top stop full next a (u :: w') := by
      rw [hnext]
      exact (hmoved.closed hnet false).trim
    refine .inr ?_
    rcases heq with heq | heq
    · rwa [heq]
    · rw [heq]
      exact (hawaits.mono Set.subset_union_left).trim

/-- The threads that read the end of the input take the kept alternative to the end of the outermost
rule. -/
private theorem Awaits.advance_eof (hnet : net.Orderly) (hclosed : net.Closed top stop)
    (hparser : net.isLexer = false) (h : net.Awaits top stop full T a [Symbol.eof]) :
    ∃ t ∈ net.advanceOf full Symbol.eof T, t.1.1 = a ∧ t.2 = (stop, []) := by
  have hmoved := (h.moved hnet hparser (.inr rfl)).trim
  obtain ⟨t, ht, halt, hstand⟩ := hmoved.closed_nil hnet hclosed
  refine ⟨t, ?_, halt, hstand⟩
  unfold advanceOf
  dsimp only
  rw [if_pos rfl, if_neg fun hone => hone.2.1 rfl]
  refine ⟨⟨ht, fun σ _ hbegins => ?_⟩, ?_⟩
  · rw [hstand] at hbegins ⊢
    exact List.eq_nil_of_prefix_nil hbegins.isPrefix
  · rw [hstand]
    exact hclosed.isStop

/-- **At the end of the input** a kept alternative has a thread at the end of the outermost rule. -/
theorem Awaits.reach_eof (hnet : net.Orderly) (hclosed : net.Closed top stop)
    (hparser : net.isLexer = false) (h : net.Awaits top stop full T a [Symbol.eof]) :
    ∃ t ∈ net.reachOf full Symbol.eof T, t.1.1 = a ∧ t.2 = (stop, []) := by
  obtain ⟨t, ht, halt, hstand⟩ := h.advance_eof hnet hclosed hparser
  refine ⟨t, ?_, halt, hstand⟩
  unfold reachOf
  dsimp only
  split
  · exact ht
  · refine ⟨.inl ht, fun σ _ hbegins => ?_⟩
    rw [hstand] at hbegins ⊢
    exact List.eq_nil_of_prefix_nil hbegins.isPrefix

/-- After the end of the input every thread has finished its rule. -/
theorem isStop_of_mem_reachOf_eof {t : Thread} (ht : t ∈ net.reachOf full Symbol.eof T) :
    net.isStop t.2.1 = true := by
  have hadvance : ∀ t ∈ net.advanceOf full Symbol.eof T, net.isStop t.2.1 = true := by
    intro t ht
    unfold advanceOf at ht
    dsimp only at ht
    rw [if_pos rfl] at ht
    exact ht.2
  unfold reachOf at ht
  dsimp only at ht
  split at ht
  · exact hadvance t ht
  · rcases trim_subset _ _ ht with ht | ht
    · exact hadvance t ht
    · exact ht.1.2

/-! ## Honest threads -/

/-- **Threads with exact stacks are honest about a word:** their stacks were built by calls, they
have finished no rule but the outermost, and those from which the word can be read speak for
alternatives with `P`. -/
structure Honest (net : Network) (top : Nat) (stop : StateId) (P : Nat → Prop) (T : Set Thread)
    (w : List Symbol) : Prop where
  linked : ∀ t ∈ T, net.Linked top t.2.1 t.2.2
  ended : ∀ t ∈ T, net.isStop t.2.1 = true → t.2 = (stop, [])
  tells : ∀ t ∈ T, net.Reads t.2 w (stop, []) → P t.1.1

variable {P : Nat → Prop}

/-- Where the outermost rule ends nothing more can be read. -/
theorem not_reads_of_isStop (hstop : net.isStop stop = true) (hw : w ≠ []) :
    ¬net.Reads (stop, []) w (stop, []) := by
  intro h
  obtain ⟨v, w, rfl⟩ := List.exists_cons_of_ne_nil hw
  obtain ⟨q, σ, t, hhops, hq, _⟩ := Reads.cons_iff.mp h
  rcases Relation.ReflTransGen.cases_head hhops with heq | ⟨d, hhop, _⟩
  · rw [← (Prod.mk.inj heq).1, hstop] at hq
    cases hq
  · rcases hhop.along_or_back with ⟨hfalse, _⟩ | ⟨_, hnil⟩
    · rw [hstop] at hfalse
      cases hfalse
    · cases hnil

/-- A thread that rests at the end of a rule rests at the end of the outermost one. -/
private theorem eq_of_rests (hclosed : net.Closed top stop) {d : Stand} (hrests : net.Rests true d)
    (hlinked : net.Linked top d.1 d.2) (hstop : net.isStop d.1 = true) : d = (stop, []) := by
  unfold Rests at hrests
  rw [if_pos hstop] at hrests
  obtain ⟨p, ρ⟩ := d
  obtain rfl : ρ = [] := hrests.1
  cases hlinked with
  | base htop => rw [hclosed.only p hstop htop]

/-- **A closure is honest** if its threads are. -/
theorem Honest.closed (hnet : net.Orderly) (hclosed : net.Closed top stop)
    (hlinked : ∀ t ∈ T, net.Linked top t.2.1 t.2.2)
    (htells : ∀ t ∈ T, net.Reads t.2 w (stop, []) → P t.1.1) :
    net.Honest top stop P (net.closureOf { full := true } T) w := by
  have hlinks : ∀ t ∈ net.closureOf { full := true } T, net.Linked top t.2.1 t.2.2 := by
    rintro t ⟨⟨c, hc, hrun⟩, _⟩
    exact (hlinked _ hc).hops hnet hrun
  refine ⟨hlinks, fun t ht hs => eq_of_rests hclosed ht.2 (hlinks t ht) hs, ?_⟩
  rintro t ⟨⟨c, hc, hrun⟩, _⟩ hreads
  exact htells (t.1, c) hc ((Reads.of_hops hrun).trans hreads)

private theorem Honest.linked_moved (hnet : net.Orderly) (h : net.Honest top stop P T w) :
    ∀ t ∈ net.movedOn v T, net.Linked top t.2.1 t.2.2 := by
  rintro ⟨tag, p, σ⟩ ⟨q, t, ht, hstop, htq, hacc, hp⟩
  obtain rfl : p = t.target := hp
  exact (h.linked _ ht).eat hnet hstop htq hacc

/-- **A symbol before the end keeps threads honest,** unless they speak for one alternative. -/
theorem Honest.reach (hnet : net.Orderly) (hclosed : net.Closed top stop)
    (hparser : net.isLexer = false) (hv : Symbol.firstToken ≤ v)
    (h : net.Honest top stop P T (v :: w)) (hw : w ≠ [])
    (hone : ¬∃ b, Speaks (net.reachOf true v T) b) :
    net.Honest top stop P (net.reachOf true v T) w := by
  have htells : ∀ t ∈ net.movedOn v T, net.Reads t.2 w (stop, []) → P t.1.1 := by
    rintro ⟨tag, p, σ⟩ ⟨q, t, ht, hstop, htq, hacc, hp⟩ hreads
    obtain rfl : p = t.target := hp
    rw [accepts_eq hparser (.inl hv)] at hacc
    exact h.tells (tag, q, σ) ht (.eat hstop htq hacc hreads)
  have hwait : ∀ t ∈ net.waitingOf true v T, t.2 = (stop, []) := fun t ht =>
    h.ended t ht.1.1 ht.1.2
  rcases reachOf_cases net true T (ne_eof hv) with
    ⟨b, hb, _⟩ | ⟨next, hnext, heq⟩
  · exact absurd ⟨b, hb⟩ hone
  · rw [Bool.not_true, trim_false, trim_false] at hnext
    have hclosure : net.Honest top stop P next w :=
      hnext ▸ Honest.closed hnet hclosed (h.linked_moved hnet) htells
    rcases heq with heq | heq
    · rwa [heq]
    · rw [heq, Bool.not_true, trim_false]
      refine ⟨?_, ?_, ?_⟩
      · rintro t (ht | ht)
        · exact hclosure.linked t ht
        · exact h.linked t ht.1.1
      · rintro t (ht | ht)
        · exact hclosure.ended t ht
        · exact fun _ => hwait t ht
      · rintro t (ht | ht) hreads
        · exact hclosure.tells t ht hreads
        · rw [hwait t ht] at hreads
          exact absurd hreads (not_reads_of_isStop hclosed.isStop hw)

/-- **A symbol before the end** leaves a kept alternative alone, or keeps it among honest threads. -/
theorem Awaits.reach_honest (hnet : net.Orderly) (hclosed : net.Closed top stop)
    (hparser : net.isLexer = false) (hv : Symbol.firstToken ≤ v)
    (hkept : net.Awaits top stop true T a (v :: w)) (h : net.Honest top stop P T (v :: w))
    (hw : w ≠ []) : Speaks (net.reachOf true v T) a ∨
      net.Awaits top stop true (net.reachOf true v T) a w ∧
        net.Honest top stop P (net.reachOf true v T) w := by
  rcases hkept.reach hnet hparser hv hw with hone | hnext
  · exact .inl hone
  · by_cases hone : ∃ b, Speaks (net.reachOf true v T) b
    · obtain ⟨b, hb⟩ := hone
      obtain ⟨t, ht, halt⟩ := hnext.keeps.exists_alt
      obtain rfl : a = b := halt.symm.trans (hb.2 t ht)
      exact .inl hb
    · exact .inr ⟨hnext, h.reach hnet hclosed hparser hv hw hone⟩

/-- At the end of the input honest threads are left at the end of the outermost rule alone. -/
theorem Honest.ended_reach_eof (hnet : net.Orderly) (hclosed : net.Closed top stop)
    (h : net.Honest top stop P T w) : ∀ t ∈ net.reachOf true Symbol.eof T, t.2 = (stop, []) := by
  have hadvance : ∀ t ∈ net.advanceOf true Symbol.eof T, t.2 = (stop, []) := by
    intro t ht
    unfold advanceOf at ht
    dsimp only at ht
    rw [if_pos rfl, if_neg fun hone => hone.2.1 rfl] at ht
    obtain ⟨ht, hstop⟩ := ht
    obtain ⟨⟨c, hc, hrun⟩, hrests⟩ := trim_subset _ _ ht
    exact eq_of_rests hclosed hrests
      ((h.linked_moved hnet _ (trim_subset _ _ hc)).hops hnet hrun) hstop
  intro t ht
  unfold reachOf at ht
  dsimp only at ht
  split at ht
  · exact hadvance t ht
  · rcases trim_subset _ _ ht with ht | ht
    · exact hadvance t ht
    · exact h.ended t ht.1.1 ht.1.2

/-- **At the end of the input** honest threads speak for alternatives with `P` alone. -/
theorem Honest.reach_eof (hnet : net.Orderly) (hclosed : net.Closed top stop)
    (hparser : net.isLexer = false) (h : net.Honest top stop P T [Symbol.eof])
    (hkept : net.Awaits top stop true T a [Symbol.eof]) :
    ∀ t ∈ net.reachOf true Symbol.eof T, t.2 = (stop, []) ∧ P t.1.1 := by
  have hsome : (net.stopped (net.advanceOf true Symbol.eof T)).Nonempty := by
    obtain ⟨t, ht, _, hstand⟩ := hkept.advance_eof hnet hclosed hparser
    exact ⟨t, ht, by rw [hstand]; exact hclosed.isStop⟩
  intro t ht
  have hleft := ht
  unfold reachOf at ht
  dsimp only at ht
  rw [if_pos ⟨rfl, hsome⟩] at ht
  unfold advanceOf at ht
  dsimp only at ht
  rw [if_pos rfl, if_neg fun hone => hone.2.1 rfl] at ht
  obtain ⟨ht, hstop⟩ := ht
  obtain ⟨⟨⟨p, σ⟩, hc, hrun⟩, hrests⟩ := trim_subset _ _ ht
  have hc := trim_subset _ _ hc
  refine ⟨h.ended_reach_eof hnet hclosed t hleft, ?_⟩
  -- The thread has just matched the end of the input, and only the end of the rule was before it.
  have hlinked := h.linked_moved hnet _ hc
  obtain ⟨q, t', hq, hqstop, ht', hacc, hp⟩ := hc
  obtain rfl : p = t'.target := hp
  have hacc' : t'.accepts Symbol.eof 0 1 = true := by
    rwa [Transition.accepts_eof le_rfl le_rfl]
  obtain ⟨hrule, hnotStop, hends⟩ := hclosed.eof q t' ht' hacc'
  obtain rfl : σ = [] := hlinked.eq_nil hclosed hrule
  rw [accepts_eq hparser (.inr rfl)] at hacc
  refine h.tells (t.1, q, []) hq (.eat hqstop ht' hacc (.hop ?_ (.refl _)))
  refine .along (t := .epsilon stop) (fun hs => ?_) (by rw [hends]; exact List.mem_singleton.mpr rfl)
    rfl
  rw [hnotStop] at hs
  cases hs

end Network

end AdaptiveLL
