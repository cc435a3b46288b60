import AdaptiveLL.Proofs.Grammar.Reading

/-!
# How long runs can be

In the network of a grammar a run cannot go on for ever, if every round of a loop reads something
and the calls cannot be nested without bound. What has to be read and what bounds the calls is said
by a *gauge*. There are two of them. Where no rule re-enters itself, every symbol counts, and what
bounds the calls is the number of rules. Where rules may re-enter themselves, but no more than some
calls can be active, all symbols but the end of the input count.

That runs into an element end is shown for runs that go on behind it: they end if those do that come
out of the element. This is by induction on how much the runs read, then on how many further calls
can be nested, and last on the size of the element. A round of a loop lowers the first of these, a
call lowers the second one.
-/

namespace AdaptiveLL

/-! ## Gauges -/

/-- **A gauge on the runs of a network:** which symbols count, under which calls a run may stand,
and how many further calls can be nested where it stands as long as it reads nothing that counts. -/
structure Gauge (net : Network) where
  counts : Symbol → Bool
  allows : List StateId → Prop
  room : Nat → Stand → Prop
  /-- There is never more room than this. -/
  most : Nat
  room_most : ∀ c, room most c
  room_read : ∀ {k q p σ u}, room k (q, σ) → net.Reads (q, []) u (p, []) → u.countP counts = 0 →
    room k (p, σ)
  room_call : ∀ {k q σ target rule follow level}, room k (q, σ) → net.isStop q = false →
    .rule target rule follow level ∈ (net.state q).transitions → allows (follow :: σ) →
      ∃ k' < k, room k' (target, follow :: σ)

namespace Gauge

variable {net : Network} {G : Gauge net} {L k : Nat} {q p : StateId} {σ : List StateId}
  {c : Stand} {u w : List Symbol} {v : Symbol}

/-- What a word weighs: the number of its symbols that count. -/
def weight (G : Gauge net) (u : List Symbol) : Nat := u.countP G.counts

@[simp] theorem weight_nil : G.weight [] = 0 := rfl

@[simp] theorem weight_append : G.weight (u ++ w) = G.weight u + G.weight w := List.countP_append ..

theorem weight_cons : G.weight (v :: u) = G.weight [v] + G.weight u :=
  weight_append (u := [v])

private theorem weight_singleton (G : Gauge net) (v : Symbol) : G.weight [v] ∈ [0, 1] := by
  unfold weight
  rw [List.countP_singleton]
  split <;> simp

/-- **A run that the gauge allows,** with the number of its steps. -/
inductive Runs (G : Gauge net) : Nat → Stand → List Symbol → Stand → Prop
  | refl (c : Stand) : Runs G 0 c [] c
  | hop {n : Nat} {c d e : Stand} {w : List Symbol} :
      net.Hop true false c d → G.allows d.2 → Runs G n d w e → Runs G (n + 1) c w e
  | eat {n : Nat} {q : StateId} {σ : List StateId} {t : Transition} {v : Symbol} {w : List Symbol}
      {e : Stand} :
      net.isStop q = false → t ∈ (net.state q).transitions →
      t.accepts v net.firstSymbol net.lastSymbol = true →
      Runs G n (t.target, σ) w e → Runs G (n + 1) (q, σ) (v :: w) e

/-- Runs that read words of a weight up to `L` make no more than `bound` steps. -/
def Lasts (G : Gauge net) (bound L : Nat) (c : Stand) : Prop :=
  ∀ n u d, G.Runs n c u d → G.weight u ≤ L → n ≤ bound

/-- **Runs come to an end:** those that read words of a weight up to `L` are of a bounded length. -/
def Ends (G : Gauge net) (L : Nat) (c : Stand) : Prop := ∃ bound, G.Lasts bound L c

/-- After a hop there is a step less to make. -/
theorem Lasts.hop {bound : Nat} {d : Stand} (h : G.Lasts bound L c) (hhop : net.Hop true false c d)
    (hallows : G.allows d.2) : 1 ≤ bound ∧ G.Lasts (bound - 1) L d := by
  refine ⟨h 1 [] d (.hop hhop hallows (.refl d)) (Nat.zero_le L), fun n u e hrun hu => ?_⟩
  have := h (n + 1) u e (.hop hhop hallows hrun) hu
  omega

/-- When a symbol has been read there is a step less to make, and less to read if it counts. -/
theorem Lasts.eat {bound L' : Nat} {t : Transition} (h : G.Lasts bound L (q, σ))
    (hq : net.isStop q = false) (ht : t ∈ (net.state q).transitions)
    (hacc : t.accepts v net.firstSymbol net.lastSymbol = true) (hle : L' + G.weight [v] ≤ L) :
    1 ≤ bound ∧ G.Lasts (bound - 1) L' (t.target, σ) := by
  refine ⟨h 1 [v] _ (.eat hq ht hacc (.refl _)) (by omega), fun n u e hrun hu => ?_⟩
  have := h (n + 1) (v :: u) e (.eat hq ht hacc hrun) (by rw [weight_cons]; omega)
  omega

/-! ## One step -/

private theorem exists_bound {α : Type} {P : α → Nat → Prop}
    (hmono : ∀ a m n, m ≤ n → P a m → P a n) :
    ∀ {l : List α}, (∀ a ∈ l, ∃ n, P a n) → ∃ n, ∀ a ∈ l, P a n
  | [], _ => ⟨0, nofun⟩
  | a :: l, h => by
    obtain ⟨m, hm⟩ := h a (List.mem_cons_self ..)
    obtain ⟨n, hn⟩ := exists_bound hmono (l := l) fun b hb => h b (List.mem_cons_of_mem _ hb)
    refine ⟨max m n, fun b hb => ?_⟩
    rcases List.mem_cons.mp hb with rfl | hb
    · exact hmono _ _ _ (Nat.le_max_left ..) hm
    · exact hmono _ _ _ (Nat.le_max_right ..) (hn b hb)

/-- There is a bound for what follows a symbol, whichever symbol that is: all that matters of it is
whether it counts. -/
private theorem exists_bound_eaten {t : Transition}
    (h : ∀ v, t.accepts v net.firstSymbol net.lastSymbol = true → G.weight [v] ≤ L →
      G.Ends (L - G.weight [v]) (t.target, σ)) :
    ∃ bound, ∀ v, t.accepts v net.firstSymbol net.lastSymbol = true →
      ∀ n u e, G.Runs n (t.target, σ) u e → G.weight (v :: u) ≤ L → n ≤ bound := by
  obtain ⟨bound, hbound⟩ : ∃ bound, ∀ x ∈ [0, 1], ∀ v,
      t.accepts v net.firstSymbol net.lastSymbol = true → G.weight [v] = x →
        ∀ n u e, G.Runs n (t.target, σ) u e → x + G.weight u ≤ L → n ≤ bound := by
    refine exists_bound (fun x m n hle h v hacc hx k u e hrun hu =>
      Nat.le_trans (h v hacc hx k u e hrun hu) hle) fun x _ => ?_
    by_cases hsome : ∃ v, t.accepts v net.firstSymbol net.lastSymbol = true ∧ G.weight [v] = x ∧
      x ≤ L
    · obtain ⟨v, hacc, rfl, hx⟩ := hsome
      obtain ⟨bound, hbound⟩ := h v hacc hx
      exact ⟨bound, fun _ _ _ n u e hrun hu => hbound n u e hrun (by omega)⟩
    · exact ⟨0, fun v hacc hx _ u _ _ hu => absurd ⟨v, hacc, hx, by omega⟩ hsome⟩
  refine ⟨bound, fun v hacc n u e hrun hu => ?_⟩
  exact hbound _ (G.weight_singleton v) v hacc rfl n u e hrun (weight_cons ▸ hu)

/-- **Runs end if all do that are one step further.** A state has finitely many ways on. -/
theorem ends_of_ways (hq : net.isStop q = false)
    (hhop : ∀ t ∈ (net.state q).transitions, ∀ d, t.onward false σ = some d → G.allows d.2 →
      G.Ends L d)
    (heat : ∀ t ∈ (net.state q).transitions, ∀ v,
      t.accepts v net.firstSymbol net.lastSymbol = true → G.weight [v] ≤ L →
        G.Ends (L - G.weight [v]) (t.target, σ)) : G.Ends L (q, σ) := by
  obtain ⟨hops, hhops⟩ : ∃ bound, ∀ t ∈ (net.state q).transitions, ∀ d,
      t.onward false σ = some d → G.allows d.2 → ∀ n u e, G.Runs n d u e → G.weight u ≤ L →
        n ≤ bound := by
    refine exists_bound (fun t m n hle h d hon hd k u e hrun hu =>
      Nat.le_trans (h d hon hd k u e hrun hu) hle) fun t ht => ?_
    cases hon : t.onward false σ with
    | none => exact ⟨0, nofun⟩
    | some d =>
      by_cases hd : G.allows d.2
      · obtain ⟨bound, h⟩ := hhop t ht d hon hd
        exact ⟨bound, fun d' heq _ => Option.some.inj heq ▸ h⟩
      · exact ⟨0, fun d' heq hd' => absurd (Option.some.inj heq ▸ hd') hd⟩
  obtain ⟨eats, heats⟩ : ∃ bound, ∀ t ∈ (net.state q).transitions, ∀ v,
      t.accepts v net.firstSymbol net.lastSymbol = true →
        ∀ n u e, G.Runs n (t.target, σ) u e → G.weight (v :: u) ≤ L → n ≤ bound :=
    exists_bound (fun t m n hle h v hacc k u e hrun hu =>
      Nat.le_trans (h v hacc k u e hrun hu) hle) fun t ht => exists_bound_eaten (heat t ht)
  refine ⟨max hops eats + 1, fun n u d hrun hu => ?_⟩
  cases hrun with
  | refl => exact Nat.zero_le _
  | hop hhop hallows hrun =>
    rcases hhop.along_or_back with ⟨-, t, ht, hon⟩ | ⟨hback, -⟩
    · have := hhops t ht _ hon hallows _ _ _ hrun hu
      omega
    · rw [show net.isStop q = true from hback] at hq
      cases hq
  | eat _ ht hacc hrun =>
    have := heats _ ht _ hacc _ _ _ hrun hu
    omega

/-- At the end of a rule runs end if those do that return from it. -/
theorem ends_back (hq : net.isStop q = true) (h : ∀ r ρ, σ = r :: ρ → G.Ends L (r, ρ)) :
    G.Ends L (q, σ) := by
  obtain ⟨bound, h⟩ : ∃ bound, ∀ r ρ, σ = r :: ρ → ∀ n u e, G.Runs n (r, ρ) u e →
      G.weight u ≤ L → n ≤ bound := by
    cases σ with
    | nil => exact ⟨0, nofun⟩
    | cons r ρ =>
      obtain ⟨bound, h⟩ := h r ρ rfl
      exact ⟨bound, fun r' ρ' heq => by obtain ⟨rfl, rfl⟩ := List.cons.inj heq; exact h⟩
  refine ⟨bound + 1, fun n u d hrun hu => ?_⟩
  cases hrun with
  | refl => exact Nat.zero_le _
  | @hop n _ c _ _ hhop _ hrun =>
    rcases hhop.along_or_back with ⟨hstop, -⟩ | ⟨-, heq⟩
    · rw [show net.isStop q = false from hstop] at hq
      cases hq
    · exact Nat.succ_le_succ (h c.1 c.2 heq _ _ _ hrun hu)
  | eat hstop =>
    rw [hstop] at hq
    cases hq

theorem ends_inner {t : Transition} (hq : net.inner q = [t])
    (hhop : ∀ d, t.onward false σ = some d → G.allows d.2 → G.Ends L d)
    (heat : ∀ v, t.accepts v net.firstSymbol net.lastSymbol = true → G.weight [v] ≤ L →
      G.Ends (L - G.weight [v]) (t.target, σ)) : G.Ends L (q, σ) := by
  have hstop := Network.not_isStop_of_inner (q := q) (by rw [hq]; exact List.cons_ne_nil _ _)
  rw [Network.inner_of_not_isStop hstop] at hq
  refine ends_of_ways hstop (fun t' ht => ?_) fun t' ht => ?_
  · rw [hq, List.mem_singleton] at ht
    exact ht ▸ hhop
  · rw [hq, List.mem_singleton] at ht
    exact ht ▸ heat

theorem ends_epsilons {targets : List StateId} (hq : net.inner q = targets.map .epsilon)
    (hne : targets ≠ []) (h : ∀ p ∈ targets, G.Ends L (p, σ)) : G.Ends L (q, σ) := by
  have hstop := Network.not_isStop_of_inner (q := q) (by rw [hq]; simpa using hne)
  rw [Network.inner_of_not_isStop hstop] at hq
  refine ends_of_ways hstop (fun t ht d hon _ => ?_) fun t ht v hacc => ?_
  · rw [hq, List.mem_map] at ht
    obtain ⟨p, hp, rfl⟩ := ht
    exact Option.some.inj hon ▸ h p hp
  · rw [hq, List.mem_map] at ht
    obtain ⟨p, -, rfl⟩ := ht
    cases hacc

theorem ends_epsilon (hq : net.inner q = [.epsilon p]) (h : G.Ends L (p, σ)) :
    G.Ends L (q, σ) :=
  ends_epsilons (show net.inner q = [p].map .epsilon from hq) (List.cons_ne_nil _ _)
    fun _ hp => List.mem_singleton.mp hp ▸ h

/-! ## Passages -/

variable {P Q : List Symbol → Prop} {entry exit : StateId}

/-- Runs that enter at `entry` end if those do that come out at `exit`, having read a word with `P`.
Further calls can be nested `k` deep. -/
def Passage (G : Gauge net) (L k : Nat) (entry exit : StateId) (P : List Symbol → Prop) : Prop :=
  ∀ ⦃σ⦄, G.room k (entry, σ) →
    (∀ u, P u → G.weight u ≤ L → G.Ends (L - G.weight u) (exit, σ)) → G.Ends L (entry, σ)

/-- **A passage for words of a weight up to `L`:** for words that weigh less no matter how deep the
calls are nested. -/
structure Leads (G : Gauge net) (L k : Nat) (entry exit : StateId) (P : List Symbol → Prop) :
    Prop where
  now : G.Passage L k entry exit P
  later : ∀ L' < L, ∀ k', G.Passage L' k' entry exit P

/-- A plain step takes no room. -/
private theorem room_epsilon (h : G.room k (q, σ)) (hq : .epsilon p ∈ net.inner q) :
    G.room k (p, σ) :=
  G.room_read h (.hop (Network.hop_epsilon hq) (.refl _)) rfl

namespace Leads

theorem of_forall (h : ∀ L k, G.Passage L k entry exit P) : G.Leads L k entry exit P :=
  ⟨h L k, fun L' _ k' => h L' k'⟩

theorem lower {L' k' : Nat} (h : G.Leads L k entry exit P) (hL : L' < L) :
    G.Leads L' k' entry exit P :=
  ⟨h.later L' hL k', fun L'' hL'' k'' => h.later L'' (Nat.lt_trans hL'' hL) k''⟩

theorem mono (h : G.Leads L k entry exit P) (himp : ∀ u, P u → Q u) :
    G.Leads L k entry exit Q :=
  ⟨fun _ hroom hexit => h.now hroom fun u hu => hexit u (himp u hu),
    fun L' hL k' _ hroom hexit => h.later L' hL k' hroom fun u hu => hexit u (himp u hu)⟩

/-- What follows after a word was read: if nothing in it counts, there is as much room for calls as
before. -/
private theorem after (h : G.Leads L k q exit P) (hu : G.weight u ≤ L)
    (hroom : G.weight u = 0 → G.room k (q, σ))
    (hexit : ∀ v, P v → G.weight v ≤ L - G.weight u →
      G.Ends (L - G.weight u - G.weight v) (exit, σ)) : G.Ends (L - G.weight u) (q, σ) := by
  rcases Nat.eq_zero_or_pos (G.weight u) with hzero | hpos
  · rw [hzero, Nat.sub_zero] at hexit ⊢
    exact h.now (hroom hzero) hexit
  · exact h.later _ (by omega) G.most (G.room_most _) hexit

private theorem trans_now {mid : StateId} (h : G.Leads L k entry mid P)
    (h' : G.Leads L k mid exit Q) (hreads : ∀ u, P u → net.Reads (entry, []) u (mid, [])) :
    G.Passage L k entry exit fun w => ∃ u v, w = u ++ v ∧ P u ∧ Q v := by
  intro σ hroom hexit
  refine h.now hroom fun u hu hle => ?_
  refine h'.after hle (fun hzero => G.room_read hroom (hreads u hu) hzero) fun v hv hle' => ?_
  have hsum := hexit (u ++ v) ⟨u, v, rfl, hu, hv⟩ (by rw [weight_append]; omega)
  rwa [weight_append, ← Nat.sub_sub] at hsum

/-- **Two passages in a row.** -/
theorem trans {mid : StateId} (h : G.Leads L k entry mid P) (h' : G.Leads L k mid exit Q)
    (hreads : ∀ u, P u → net.Reads (entry, []) u (mid, [])) :
    G.Leads L k entry exit fun w => ∃ u v, w = u ++ v ∧ P u ∧ Q v :=
  ⟨trans_now h h' hreads, fun _ hL _ => trans_now (h.lower hL) (h'.lower hL) hreads⟩

/-- **A passage along one of some plain steps.** -/
theorem epsilons {targets : List StateId} (hq : net.inner q = targets.map .epsilon)
    (hne : targets ≠ []) (h : ∀ p ∈ targets, G.Leads L k p exit P) : G.Leads L k q exit P := by
  have hmove : ∀ {σ k p}, G.room k (q, σ) → p ∈ targets → G.room k (p, σ) := fun hroom hp =>
    room_epsilon hroom (Network.mem_epsilons hq hp)
  refine ⟨fun _ hroom hexit => ?_, fun L' hL k' _ hroom hexit => ?_⟩
  · exact ends_epsilons hq hne fun p hp => (h p hp).now (hmove hroom hp) hexit
  · exact ends_epsilons hq hne fun p hp => (h p hp).later L' hL k' (hmove hroom hp) hexit

theorem epsilon (hq : net.inner q = [.epsilon p]) (h : G.Leads L k p exit P) :
    G.Leads L k q exit P :=
  epsilons (show net.inner q = [p].map .epsilon from hq) (List.cons_ne_nil _ _)
    fun _ hp => List.mem_singleton.mp hp ▸ h

/-- The passage to where one stands already. -/
theorem refl (h : P []) : G.Leads L k q q P :=
  of_forall fun _ _ _ _ hexit => hexit [] h (Nat.zero_le _)

/-- A plain step out of a passage. -/
theorem then_epsilon (h : G.Leads L k entry q P) (hq : net.inner q = [.epsilon exit]) :
    G.Leads L k entry exit P :=
  ⟨fun _ hroom hexit => h.now hroom fun u hu hle => ends_epsilon hq (hexit u hu hle),
    fun L' hL k' _ hroom hexit =>
      h.later L' hL k' hroom fun u hu hle => ends_epsilon hq (hexit u hu hle)⟩

end Leads

end Gauge

/-! ## Elements -/

namespace Grammar

/-- **Every round of a loop consumes something:** the body of none stands for the empty word. -/
def LoopsConsume (g : Grammar) (lo hi : Symbol) : Prop :=
  ∀ body greedy, .star body greedy ∈ g.parts ∨ .plus body greedy ∈ g.parts →
    ¬g.Denotes lo hi body []

/-- **Every round of a loop reads something that counts:** the body of none stands for a word in
which nothing does. -/
def LoopsRead (g : Grammar) (lo hi : Symbol) (counts : Symbol → Bool) : Prop :=
  ∀ body greedy, .star body greedy ∈ g.parts ∨ .plus body greedy ∈ g.parts →
    ∀ w, g.Denotes lo hi body w → ∃ v ∈ w, counts v = true

theorem LoopsConsume.loopsRead {g : Grammar} {lo hi : Symbol} (h : g.LoopsConsume lo hi) :
    g.LoopsRead lo hi fun _ => true := by
  intro body greedy hmem w hw
  obtain ⟨v, hv⟩ := List.exists_mem_of_ne_nil w fun hnil => h body greedy hmem (hnil ▸ hw)
  exact ⟨v, hv, rfl⟩

end Grammar

namespace Gauge

variable {g : Grammar} {net : Network} {G : Gauge net} {N : String → Nat → StateId → Prop}
  {L k : Nat}

/-- A word of an element, over the vocabulary of the network. -/
private abbrev Word (g : Grammar) (net : Network) (e : Element) (w : List Symbol) : Prop :=
  g.Denotes net.firstSymbol net.lastSymbol e w

/-- There are passages through the element, wherever it lies. -/
private def Through (g : Grammar) (G : Gauge net) (N : String → Nat → StateId → Prop) (L k : Nat)
    (e : Element) : Prop :=
  ∀ ⦃rule entry exit⦄, Laid net.inner N rule e entry exit →
    G.Passage L k entry exit (Word g net e)

/-- The passages through the element lead on, wherever it lies. -/
private def LeadsThrough (g : Grammar) (G : Gauge net) (N : String → Nat → StateId → Prop)
    (L k : Nat) (e : Element) : Prop :=
  ∀ ⦃rule entry exit⦄, Laid net.inner N rule e entry exit →
    G.Leads L k entry exit (Word g net e)

private theorem leaf_through {rule : Nat} {e : Element} {t : StateId → Transition}
    {entry exit : StateId} (hleaf : e.Leaf rule t) (hentry : net.inner entry = [t exit]) :
    G.Passage L k entry exit (Word g net e) := by
  intro σ _ hexit
  refine ends_inner hentry (fun d hon _ => ?_) fun v hacc hle => ?_
  · obtain ⟨rfl, hnil⟩ : d = (exit, σ) ∧ Word g net e [] := hleaf.denotes_nil hon
    exact hexit [] hnil (Nat.zero_le _)
  · rw [hleaf.accepts_eq] at hacc
    rw [hleaf.target_eq]
    exact hexit [v] (.symbol hacc) hle

private theorem text_ends {exit : StateId} {σ : List StateId} : ∀ {cs : List Char} {q : StateId}
    {L : Nat}, LaidText net.inner q cs exit →
      (∀ u, u = cs.map (fun c => (c.toNat : Symbol)) → G.weight u ≤ L →
        G.Ends (L - G.weight u) (exit, σ)) → G.Ends L (q, σ)
  | [], q, L, hlaid, hexit => by
    rw [show q = exit from hlaid]
    exact hexit [] rfl (Nat.zero_le _)
  | c :: cs, q, L, ⟨next, hways, hrest⟩, hexit => by
    refine ends_inner (t := .atom next c.toNat) hways nofun fun v hacc hle => ?_
    obtain rfl : (c.toNat : Symbol) = v := by simpa [Transition.accepts] using hacc
    refine text_ends hrest fun u hu hle' => ?_
    have hsum := hexit ((c.toNat : Symbol) :: u) (by rw [hu]; rfl) (by rw [weight_cons]; omega)
    rwa [weight_cons, ← Nat.sub_sub] at hsum

private theorem alts_lead {es : List Element} {rule : Nat} {exit : StateId}
    {targets : List StateId}
    (hes : ∀ e ∈ es, LeadsThrough g G N L k e)
    (halts : LaidAlts net.inner N rule exit es targets) :
    ∀ target ∈ targets, G.Leads L k target exit fun w => ∃ e ∈ es, Word g net e w := by
  induction targets generalizing es with
  | nil => nofun
  | cons target targets ih =>
    cases halts with
    | @cons e es _ last _ _ hlaid hlast hrest =>
      intro target' ht
      rcases List.mem_cons.mp ht with rfl | ht
      · exact ((hes e (List.mem_cons_self ..) hlaid).then_epsilon hlast).mono fun u hu =>
          ⟨e, List.mem_cons_self .., hu⟩
      · refine (ih (fun e' he' => hes e' (List.mem_cons_of_mem _ he')) hrest target' ht).mono ?_
        rintro u ⟨e', he', hu⟩
        exact ⟨e', List.mem_cons_of_mem _ he', hu⟩

/-- A passage through the alternatives of an element leads through the element. -/
private theorem choices_lead {e : Element} {rule : Nat} {exit : StateId} {targets : List StateId}
    (he : ∀ e' ∈ e.choices, LeadsThrough g G N L k e')
    (halts : LaidAlts net.inner N rule exit e.choices targets) :
    ∀ target ∈ targets, G.Leads L k target exit (Word g net e) := by
  intro target ht
  refine (alts_lead he halts target ht).mono ?_
  rintro u ⟨e', he', hu⟩
  exact .of_mem_choices he' hu

private theorem rest_leads (hg : g.Renders net N) {es : List Element} {rule : Nat}
    {before exit : StateId}
    (hes : ∀ e ∈ es, LeadsThrough g G N L k e)
    (hrest : LaidRest net.inner N rule before es exit) :
    G.Leads L k before exit (Word g net (.seq es)) := by
  induction es generalizing before with
  | nil =>
    cases hrest
    exact .refl .seq_nil
  | cons e es ih =>
    cases hrest with
    | cons hbefore hlaid hrest =>
      refine .epsilon hbefore (((hes e (List.mem_cons_self ..) hlaid).trans
        (ih (fun e' he' => hes e' (List.mem_cons_of_mem _ he')) hrest)
        fun u hu => Network.reads_of_denotes hg hu hlaid []).mono ?_)
      rintro w ⟨u, v, rfl, hu, hv⟩
      exact .seq_cons hu hv

/-- A call leads through the body of the rule it calls, one call deeper. -/
private theorem call_through (hg : g.Renders net N) {r : Rule} {callee : Nat} {level : Int}
    {entry exit : StateId} (hr : g.rules[callee]? = some r)
    (hentry : net.inner entry = [.rule (g.startState callee) callee exit level])
    (hbody : ∀ k' < k, Through g G N L k' r.body) :
    G.Passage L k entry exit (Word g net (.ruleRef r.name level)) := by
  obtain ⟨first, last, hstart, hlaid, hlast⟩ := hg.body hr
  have hlt := (List.getElem?_eq_some_iff.mp hr).1
  intro σ hroom hexit
  refine ends_inner hentry (fun d hon hallows => ?_) nofun
  obtain rfl := Option.some.inj hon
  have hstop := Network.not_isStop_of_inner (q := entry) (by rw [hentry]; exact List.cons_ne_nil _ _)
  have hmem := List.mem_singleton_self (Transition.rule (g.startState callee) callee exit level)
  rw [← hentry, Network.inner_of_not_isStop hstop] at hmem
  obtain ⟨k', hk', hcalled⟩ := G.room_call hroom hstop hmem hallows
  refine ends_epsilon hstart (hbody k' hk' hlaid (room_epsilon hcalled (Network.mem_only hstart))
    fun u hu hle => ends_epsilon hlast (ends_back (hg.isStop hlt) fun p ρ heq => ?_))
  obtain ⟨rfl, rfl⟩ := List.cons.inj heq
  exact hexit u (.ruleRef (List.mem_of_getElem? hr) hu) hle

/-- Another round of a loop comes to an end, since the last one has read something that counts. -/
private theorem again_ends {Q : List Symbol → Prop} {entry exit : StateId} {σ : List StateId}
    {u : List Symbol} (hu : ∃ v ∈ u, G.counts v = true) (hle : G.weight u ≤ L)
    (hagain : ∀ L' < L, ∀ k', G.Passage L' k' entry exit Q)
    (hexit : ∀ v, Q v → G.weight (u ++ v) ≤ L → G.Ends (L - G.weight (u ++ v)) (exit, σ)) :
    G.Ends (L - G.weight u) (entry, σ) := by
  have hpos : 0 < G.weight u := List.countP_pos_iff.mpr hu
  refine hagain (L - G.weight u) (by omega) G.most (G.room_most _) fun v hv hle' => ?_
  have := hexit v hv (by rw [weight_append]; omega)
  rwa [weight_append, ← Nat.sub_sub] at this

/-- Words that weigh less, fewer calls and smaller elements are enough. -/
private theorem through_step (hg : g.Renders net N)
    (hloops : g.LoopsRead net.firstSymbol net.lastSymbol G.counts) {e : Element}
    (he : e.parts ⊆ g.parts)
    (hless : ∀ L' < L, ∀ k' e, e.parts ⊆ g.parts → Through g G N L' k' e)
    (hdeep : ∀ k' < k, ∀ e, e.parts ⊆ g.parts → Through g G N L k' e)
    (hsmall : ∀ e', sizeOf e' < sizeOf e → e'.parts ⊆ g.parts → Through g G N L k e') :
    Through g G N L k e := by
  have hleads : ∀ e', sizeOf e' < sizeOf e → e'.parts ⊆ e.parts →
      LeadsThrough g G N L k e' :=
    fun e' hlt hparts _ _ _ hlaid => ⟨hsmall e' hlt (fun _ hx => he (hparts hx)) hlaid,
      fun L' hL k' => hless L' hL k' e' (fun _ hx => he (hparts hx)) hlaid⟩
  have hchoices : ∀ body : Element, sizeOf body < sizeOf e → body.parts ⊆ e.parts →
      ∀ e' ∈ body.choices, LeadsThrough g G N L k e' :=
    fun body hlt hparts e' he' => hleads e'
      (Nat.lt_of_le_of_lt (Element.sizeOf_le_of_mem_choices he') hlt)
      fun _ hx => hparts (Element.partsOf_choices_subset body (Element.parts_subset_partsOf he' hx))
  intro rule entry exit hlaid
  cases hlaid with
  | leaf hleaf hentry => exact leaf_through hleaf hentry
  | @text text _ _ _ htext =>
    intro σ _ hexit
    exact text_ends htext fun u hu => hexit u (hu ▸ .literal text)
  | @call name level callee start _ _ hname hentry =>
    obtain ⟨r, hr, rfl, rfl⟩ := hg.names hname
    refine call_through hg hr hentry fun k' hk => hdeep k' hk r.body ?_
    exact fun x hx => List.mem_flatMap.mpr ⟨r, List.mem_of_getElem? hr, hx⟩
  | @seq e₁ rest _ next _ hfirst hrest =>
    have hparts : ∀ e' ∈ e₁ :: rest, e'.parts ⊆ (Element.seq (e₁ :: rest)).parts :=
      fun e' he' _ hx => List.mem_cons_of_mem _ (Element.parts_subset_partsOf he' hx)
    refine ((hleads e₁ (Element.sizeOf_lt_of_mem_seq List.mem_cons_self) (hparts e₁ (List.mem_cons_self ..)) hfirst).trans
      (rest_leads hg (fun e' he' => hleads e' ?_ (hparts e' (List.mem_cons_of_mem _ he'))) hrest)
      fun u hu => Network.reads_of_denotes hg hu hfirst []).mono ?_ |>.now
    · exact Element.sizeOf_lt_of_mem_seq (List.mem_cons_of_mem _ he')
    · rintro w ⟨u, v, rfl, hu, hv⟩
      exact .seq_cons hu hv
  | @only e' _ _ hlaid =>
    refine ((hleads e' (Element.sizeOf_lt_of_mem_alt List.mem_cons_self) ?_ hlaid).mono fun u hu =>
      .alt (List.mem_singleton_self _) hu).now
    exact fun _ hx =>
      List.mem_cons_of_mem _ (Element.parts_subset_partsOf (List.mem_singleton_self _) hx)
  | @alt es _ _ targets hne halts hentry =>
    refine (Leads.epsilons hentry (halts.targets_ne_nil hne)
      (alts_lead (fun e' he' => hleads e' ?_ ?_) halts)).mono ?_ |>.now
    · exact Element.sizeOf_lt_of_mem_alt he'
    · exact fun _ hx => List.mem_cons_of_mem _ (Element.parts_subset_partsOf he' hx)
    · rintro u ⟨e', he', hu⟩
      exact .alt he' hu
  | @optional body greedy _ _ targets halts hentry =>
    have hways : net.inner entry = (if greedy then targets ++ [exit] else exit :: targets).map
        Transition.epsilon := by
      rw [hentry, optionWays]
      split <;> simp
    refine (Leads.epsilons hways (by split <;> simp) fun p hp => ?_).now
    have hp : p ∈ targets ∨ p = exit := by split at hp <;> simp at hp <;> tauto
    rcases hp with hp | rfl
    · have hlead := choices_lead (hchoices body (Element.sizeOf_lt_optional body greedy)
        (List.subset_cons_self _ _)) halts p hp
      exact hlead.mono fun u hu => .optional hu
    · exact .refl .skip
  | @star body greedy _ _ first last back targets halts hfirst hlast hback hentry =>
    have hloop := hloops body greedy (.inl (he (List.mem_cons_self ..)))
    have hround := Leads.epsilons hfirst (halts.targets_ne_nil body.choices_ne_nil)
      (choices_lead (hchoices body (Element.sizeOf_lt_star body greedy)
        (List.subset_cons_self _ _)) halts)
    intro σ hroom hexit
    have hways : net.inner entry = (if greedy then [first, exit] else [exit, first]).map
        Transition.epsilon := by
      rw [hentry, branchWays]
      split <;> simp
    refine ends_epsilons hways (by split <;> simp) fun p hp => ?_
    have hp : p = first ∨ p = exit := by split at hp <;> simp at hp <;> tauto
    rcases hp with rfl | rfl
    · have hin : G.room k (p, σ) := room_epsilon hroom (by
        rw [hentry]
        exact mem_branchWays_block _ _ _)
      refine hround.now hin fun u hu hle => ends_epsilon hlast (ends_epsilon hback ?_)
      exact again_ends (hloop u hu) hle
        (fun L' hL k' => hless L' hL k' _ he (.star halts hfirst hlast hback hentry))
        fun v hv => hexit (u ++ v) (.star_cons hu hv)
    · exact hexit [] .star_nil (Nat.zero_le _)
  | @plus body greedy _ _ last back targets halts hentry hlast hback =>
    have hloop := hloops body greedy (.inr (he (List.mem_cons_self ..)))
    have hround := Leads.epsilons hentry (halts.targets_ne_nil body.choices_ne_nil)
      (choices_lead (hchoices body (Element.sizeOf_lt_plus body greedy)
        (List.subset_cons_self _ _)) halts)
    intro σ hroom hexit
    refine hround.now hroom fun u hu hle => ends_epsilon hlast ?_
    have hways : net.inner back = (if greedy then [entry, exit] else [exit, entry]).map
        Transition.epsilon := by
      rw [hback, branchWays]
      split <;> simp
    refine ends_epsilons hways (by split <;> simp) fun p hp => ?_
    have hp : p = entry ∨ p = exit := by split at hp <;> simp at hp <;> tauto
    rcases hp with rfl | rfl
    · refine again_ends (hloop u hu) hle
        (fun L' hL k' => hless L' hL k' _ he (.plus halts hentry hlast hback)) fun v hv => ?_
      exact hexit (u ++ v) (.plus hu (.of_plus hv))
    · have hone : Word g net (.plus body greedy) (u ++ []) := .plus hu .star_nil
      rw [List.append_nil] at hone
      exact hexit u hone hle

/-- **There are passages through every element.** -/
private theorem through (hg : g.Renders net N)
    (hloops : g.LoopsRead net.firstSymbol net.lastSymbol G.counts) (L k : Nat) (e : Element)
    (he : e.parts ⊆ g.parts) : Through g G N L k e := by
  induction L using Nat.strong_induction_on generalizing k e with
  | _ L hless =>
    induction k using Nat.strong_induction_on generalizing e with
    | _ k hdeep =>
      induction hsize : sizeOf e using Nat.strong_induction_on generalizing e with
      | _ n hsmall =>
        exact through_step hg hloops he (fun L' hL k' e he => hless L' hL k' e he)
          (fun k' hk e he => hdeep k' hk e he)
          fun e' hlt he' => hsmall (sizeOf e') (hsize ▸ hlt) e' he' rfl

end Gauge

/-- **The runs through a rule are of a bounded length,** if they read words of a bounded weight. -/
theorem Grammar.Built.runs_end {g : Grammar} {net : Network} {modeStarts : List StateId} {d : Draft}
    (h : g.Built net modeStarts d) (G : Gauge net)
    (hloops : g.LoopsRead net.firstSymbol net.lastSymbol G.counts) {i : Nat} {r : Rule}
    (hr : g.rules[i]? = some r) (L : Nat) : G.Ends L (g.startState i, []) := by
  have hlt := (List.getElem?_eq_some_iff.mp hr).1
  obtain ⟨first, last, hstart, hlaid, hlast⟩ := h.renders.body hr
  have hparts : r.body.parts ⊆ g.parts := fun _ hx =>
    List.mem_flatMap.mpr ⟨r, List.mem_of_getElem? hr, hx⟩
  refine Gauge.ends_epsilon hstart (Gauge.through h.renders hloops L G.most r.body hparts hlaid
    (G.room_most _) fun u _ _ => ?_)
  exact Gauge.ends_epsilon hlast (Gauge.ends_back (h.isStop_stop hlt) nofun)

/-! ## Without re-entry -/

namespace Network

variable {net : Network} {L : Nat} {c : Stand}

/-- **Runs come to an end:** those that read words of length up to `L` are of a bounded length. -/
def Ends (net : Network) (L : Nat) (c : Stand) : Prop :=
  ∃ bound, ∀ n u d, net.Runs n c u d → u.length ≤ L → n ≤ bound

/-- Without re-entry every symbol counts, and as long as none is read calls nest no deeper than there
are rules. -/
def gauge (hnet : net.Consistent) (hno : net.NoReentry) : Gauge net where
  counts _ := true
  allows _ := True
  room k c := ∃ rules, net.Nested false c rules ∧ net.ruleCount ≤ rules.length + k
  most := net.ruleCount
  room_most c := ⟨[], .base c, by simp⟩
  room_read := by
    rintro k q p σ u ⟨rules, hnest, hcount⟩ hreads hzero
    obtain rfl : u = [] := by simpa using hzero
    exact ⟨rules, hnest.move hreads.hops, hcount⟩
  room_call := by
    rintro k q σ target rule follow level ⟨rules, hnest, hcount⟩ hstop hmem -
    have hcall := hnest.enter hstop hmem
    have hdeep := hcall.length_le hnet (hno.noReentryBy false)
    rw [List.length_cons] at hdeep
    exact ⟨k - 1, by omega, rule :: rules, hcall, by rw [List.length_cons]; omega⟩

private theorem Runs.gauged {n : Nat} {c d : Stand} {u : List Symbol} (hnet : net.Consistent)
    (hno : net.NoReentry) (h : net.Runs n c u d) : (net.gauge hnet hno).Runs n c u d := by
  induction h with
  | refl c => exact .refl c
  | hop hhop _ ih => exact .hop hhop trivial ih
  | eat hstop ht hacc _ ih => exact .eat hstop ht hacc ih

end Network

/-- **The runs through a rule are of a bounded length** without re-entry, if they read words of a
bounded length. -/
theorem Grammar.Built.ends {g : Grammar} {net : Network} {modeStarts : List StateId} {d : Draft}
    (h : g.Built net modeStarts d) (hno : net.NoReentry)
    (hloops : g.LoopsConsume net.firstSymbol net.lastSymbol) {i : Nat} {r : Rule}
    (hr : g.rules[i]? = some r) (L : Nat) : net.Ends L (g.startState i, []) := by
  obtain ⟨bound, hbound⟩ := h.runs_end (Network.gauge h.consistent hno) hloops.loopsRead hr L
  refine ⟨bound, fun n u d hrun hu => hbound n u d (hrun.gauged h.consistent hno) ?_⟩
  exact List.countP_le_length.trans hu

/-! ## With a limit on the calls -/

/-- **With no more than `depth` active calls** all symbols but the end of the input count. -/
def Gauge.limited (net : Network) (depth : Nat) : Gauge net where
  counts v := v != Symbol.eof
  allows σ := σ.length ≤ depth
  room k c := depth ≤ c.2.length + k
  most := depth
  room_most _ := Nat.le_add_left ..
  room_read hroom _ _ := hroom
  room_call {k _ _ _ _ _ _} hroom _ _ hallows :=
    ⟨k - 1, by simp only [List.length_cons] at hroom hallows; omega, by
      simp only [List.length_cons] at hroom hallows ⊢; omega⟩

end AdaptiveLL
