import AdaptiveLL.Proofs.Grammar.Bounds
import AdaptiveLL.Proofs.Prediction.Sweep

/-!
# Runs never get stuck

In the network of a grammar no run comes to a place from which no symbol can ever be asked for: hops
lead on to a state that consumes a symbol, or to the end of the outermost rule, unless they nest calls
without end. Where they do not, an element is either passed by hops alone, or hops from its entry come
to such a place inside it; this is by induction on how many further calls can be nested, and for calls
of one depth by the size of the element. Without re-entry calls nest nowhere without end.

That this goes for every stand a run comes to is shown for runs that go on behind an element, by
induction on their length.
-/

namespace AdaptiveLL

namespace Network

variable {net : Network} {q p : StateId} {σ : List StateId} {c d : Stand}

/-- **Hops lead on** to where a symbol is consumed, or to the end of the outermost rule. -/
def Live (net : Network) (c : Stand) : Prop :=
  ∃ d, Relation.ReflTransGen (net.Hop true false) c d ∧ net.Rests true d

theorem Live.of_hops (h : net.Live d) (hrun : Relation.ReflTransGen (net.Hop true false) c d) :
    net.Live c := by
  obtain ⟨e, hrun', hrests⟩ := h
  exact ⟨e, hrun.trans hrun', hrests⟩

/-- A state that consumes symbols is alive. -/
private theorem live_of_consumes {t : Transition} (hq : net.inner q = [t])
    (ht : t.isEpsilon = false) : net.Live (q, σ) := by
  have hstop := not_isStop_of_inner (q := q) (by rw [hq]; exact List.cons_ne_nil _ _)
  refine ⟨(q, σ), .refl, ?_⟩
  rw [inner_of_not_isStop hstop] at hq
  unfold Rests
  rw [show net.isStop q = false from hstop]
  simp [State.onlyEpsilon, hq, ht]

/-- **Hops nest calls no deeper** than that. -/
def Shallow (net : Network) (depth : Nat) (c : Stand) : Prop :=
  ∀ d, Relation.ReflTransGen (net.Hop true false) c d → d.2.length ≤ depth

theorem Shallow.of_hops {depth : Nat} (h : net.Shallow depth c)
    (hrun : Relation.ReflTransGen (net.Hop true false) c d) : net.Shallow depth d :=
  fun e hrun' => h e (hrun.trans hrun')

/-- Without re-entry hops nest calls no deeper than there are rules, above those there are. -/
theorem shallow_of_noReentry (hnet : net.Consistent) (hno : net.NoReentry) (c : Stand) :
    net.Shallow (c.2.length + net.ruleCount) c := by
  -- The stack is that of `c`, or what is left of it, under the calls that were made since.
  have hnested : ∀ d, Relation.ReflTransGen (net.Hop true false) c d → ∃ rules ρ,
      net.Nested false d rules ∧ d.2.length = rules.length + ρ ∧ ρ ≤ c.2.length := by
    intro d hrun
    induction hrun with
    | refl => exact ⟨[], c.2.length, .base c, by simp, Nat.le_refl _⟩
    | @tail d e _ hhop ih =>
      obtain ⟨rules, ρ, hnest, hlength, hle⟩ := ih
      rcases hhop.along_or_back with ⟨hstop, t, ht, hon⟩ | ⟨hstop, heq⟩
      · rcases Transition.onward_eq hon with rfl | ⟨rule, follow, level, hcall, rfl⟩
        · exact ⟨rules, ρ, hnest.move (.single (.along (fun hs => by simp [hstop] at hs) ht
            (Transition.onward_any hon []))), hlength, hle⟩
        · rw [hcall] at ht
          refine ⟨rule :: rules, ρ, hnest.enter hstop ht, ?_, hle⟩
          rw [List.length_cons, List.length_cons, hlength]
          omega
      · cases rules with
        | nil =>
          refine ⟨[], e.2.length, .base e, by simp, ?_⟩
          rw [heq, List.length_cons, List.length_nil] at hlength
          omega
        | cons rule rules =>
          obtain ⟨q, σ⟩ := d
          obtain rfl : σ = e.1 :: e.2 := heq
          refine ⟨rules, ρ, hnest.back hstop, ?_, hle⟩
          rw [List.length_cons, List.length_cons] at hlength
          omega
  intro d hrun
  obtain ⟨rules, ρ, hnest, hlength, hle⟩ := hnested d hrun
  have hdeep := hnest.length_le hnet (hno.noReentryBy false)
  omega

/-- **Hops lead on,** or they nest calls without end. -/
def Advances (net : Network) (c : Stand) : Prop := ∀ depth, net.Shallow depth c → net.Live c

theorem Advances.of_hops (h : net.Advances d)
    (hrun : Relation.ReflTransGen (net.Hop true false) c d) : net.Advances c :=
  fun depth hdepth => (h depth (hdepth.of_hops hrun)).of_hops hrun

private theorem Advances.of_hop (h : net.Advances d) (hhop : net.Hop true false c d) :
    net.Advances c :=
  h.of_hops (.single hhop)

private theorem Advances.of_epsilon (h : net.Advances (p, σ)) (hq : .epsilon p ∈ net.inner q) :
    net.Advances (q, σ) :=
  h.of_hop (hop_epsilon hq)

private theorem advances_of_consumes {t : Transition} (hq : net.inner q = [t])
    (ht : t.isEpsilon = false) : net.Advances (q, σ) :=
  fun _ _ => live_of_consumes hq ht

/-! ## Through elements -/

variable {g : Grammar} {N : String → Nat → StateId → Prop} {k : Nat}

/-- Hops from `entry` lead to `exit`, or to a symbol on the way. Further calls can be nested `k`
deep. -/
private def Crosses (net : Network) (k : Nat) (entry exit : StateId) : Prop :=
  ∀ ⦃σ depth⦄, net.Shallow depth (entry, σ) → depth ≤ σ.length + k →
    net.Live (entry, σ) ∨ Relation.ReflTransGen (net.Hop true false) (entry, []) (exit, [])

private theorem Crosses.advances {entry exit : StateId} (h : ∀ k, net.Crosses k entry exit)
    (hexit : net.Advances (exit, σ)) : net.Advances (entry, σ) := by
  intro depth hdepth
  rcases h depth hdepth (Nat.le_add_left _ _) with hlive | hhops
  · exact hlive
  · exact hexit.of_hops (hops_append hhops σ) depth hdepth

private theorem Crosses.trans {entry mid exit : StateId} (h : net.Crosses k entry mid)
    (h' : net.Crosses k mid exit) : net.Crosses k entry exit := by
  intro σ depth hdepth hle
  rcases h hdepth hle with hlive | hhops
  · exact .inl hlive
  · rcases h' (hdepth.of_hops (hops_append hhops σ)) hle with hlive | hhops'
    · exact .inl (hlive.of_hops (hops_append hhops σ))
    · exact .inr (hhops.trans hhops')

private theorem Crosses.refl : net.Crosses k q q := fun _ _ _ _ => .inr .refl

private theorem Crosses.epsilon (hq : .epsilon p ∈ net.inner q) : net.Crosses k q p :=
  fun _ _ _ _ => .inr (.single (hop_epsilon hq))

/-- The element is passed, wherever it lies. -/
private def CrossesThrough (net : Network) (N : String → Nat → StateId → Prop) (k : Nat)
    (e : Element) : Prop :=
  ∀ ⦃rule entry exit⦄, Laid net.inner N rule e entry exit → net.Crosses k entry exit

private theorem leaf_crosses {rule : Nat} {e : Element} {t : StateId → Transition}
    {entry exit : StateId} (hleaf : e.Leaf rule t) (hentry : net.inner entry = [t exit]) :
    net.Crosses k entry exit := by
  intro σ depth _ _
  cases heps : (t exit).isEpsilon with
  | false => exact .inl (live_of_consumes hentry heps)
  | true =>
    refine .inr (.single (hop_inner (t := t exit) (by rw [hentry]; exact List.mem_singleton_self _) ?_))
    cases hleaf <;> first | rfl | cases heps

private theorem rest_crosses {es : List Element} {rule : Nat} {before exit : StateId}
    (hes : ∀ e ∈ es, CrossesThrough net N k e)
    (hrest : LaidRest net.inner N rule before es exit) : net.Crosses k before exit := by
  induction es generalizing before with
  | nil =>
    cases hrest
    exact .refl
  | cons e es ih =>
    cases hrest with
    | cons hbefore hlaid hrest =>
      have hnext := hes e (List.mem_cons_self ..) hlaid
      have hothers := ih (fun e' he' => hes e' (List.mem_cons_of_mem _ he')) hrest
      exact (Crosses.epsilon (mem_only hbefore)).trans (hnext.trans hothers)

private theorem alts_cross {es : List Element} {rule : Nat} {exit : StateId}
    {targets : List StateId} (hes : ∀ e ∈ es, CrossesThrough net N k e) (hne : es ≠ [])
    (halts : LaidAlts net.inner N rule exit es targets) :
    ∃ target ∈ targets, net.Crosses k target exit := by
  obtain ⟨e, he⟩ := List.exists_mem_of_ne_nil es hne
  obtain ⟨target, ht, last, hlaid, hlast⟩ := halts.exists_of_mem he
  exact ⟨target, ht, (hes e he hlaid).trans (.epsilon (mem_only hlast))⟩

/-- A call is passed if the body of the rule it calls is, one call deeper. -/
private theorem call_crosses (hg : g.Renders net N) {r : Rule} {callee : Nat} {level : Int}
    {entry exit : StateId} (hr : g.rules[callee]? = some r)
    (hentry : net.inner entry = [.rule (g.startState callee) callee exit level])
    (hbody : ∀ k' < k, CrossesThrough net N k' r.body) : net.Crosses k entry exit := by
  obtain ⟨first, last, hstart, hlaid, hlast⟩ := hg.body hr
  have hlt := (List.getElem?_eq_some_iff.mp hr).1
  have hmem : .rule (g.startState callee) callee exit level ∈ net.inner entry := by
    rw [hentry]
    exact List.mem_singleton_self _
  have hin : ∀ τ, net.Hop true false (entry, τ) (g.startState callee, exit :: τ) := fun τ =>
    hop_inner hmem rfl
  have hfirst : ∀ τ, Relation.ReflTransGen (net.Hop true false) (entry, τ) (first, exit :: τ) :=
    fun τ => .tail (.single (hin τ)) (hop_epsilon (mem_only hstart))
  intro σ depth hdepth hle
  have hdeep := hdepth _ (hfirst σ)
  rw [List.length_cons] at hdeep
  have hpass := hbody (k - 1) (by omega) hlaid (hdepth.of_hops (hfirst σ))
    (by rw [List.length_cons]; omega)
  rcases hpass with hlive | hhops
  · exact .inl (hlive.of_hops (hfirst σ))
  · -- The body is passed by hops alone, and its end returns to the caller.
    refine .inr ((hfirst []).trans ?_)
    have hend : net.Hop true false (g.stopState callee, [exit]) (exit, []) := .back (hg.isStop hlt)
    exact ((hops_append hhops [exit]).tail (hop_epsilon (mem_only hlast))).tail hend

/-- Fewer calls and smaller elements are enough. -/
private theorem crosses_step (hg : g.Renders net N) {e : Element}
    (hdeep : ∀ k' < k, ∀ e, CrossesThrough net N k' e)
    (hsmall : ∀ e', sizeOf e' < sizeOf e → CrossesThrough net N k e') :
    CrossesThrough net N k e := by
  have hchoices : ∀ body : Element, sizeOf body < sizeOf e → ∀ e' ∈ body.choices,
      CrossesThrough net N k e' := fun body hlt e' he' =>
    hsmall e' (Nat.lt_of_le_of_lt (Element.sizeOf_le_of_mem_choices he') hlt)
  -- An element with an empty way through it is crossed by that way; any other waits for a symbol.
  intro rule entry exit hlaid
  cases hlaid with
  | leaf hleaf hentry => exact leaf_crosses hleaf hentry
  | @text text _ _ hne htext =>
    intro σ depth _ _
    obtain ⟨c, cs, hcs⟩ := List.exists_cons_of_ne_nil hne
    rw [hcs] at htext
    obtain ⟨next, hways, -⟩ := htext
    exact .inl (live_of_consumes hways rfl)
  | call hname hentry =>
    obtain ⟨r, hr, rfl, rfl⟩ := hg.names hname
    exact call_crosses hg hr hentry fun k' hk => hdeep k' hk r.body
  | @seq e₁ rest _ next _ hfirst hrest =>
    refine (hsmall e₁ (Element.sizeOf_lt_of_mem_seq List.mem_cons_self) hfirst).trans
      (rest_crosses (fun e' he' => hsmall e' ?_) hrest)
    exact Element.sizeOf_lt_of_mem_seq (List.mem_cons_of_mem _ he')
  | only hlaid => exact hsmall _ (Element.sizeOf_lt_of_mem_alt List.mem_cons_self) hlaid
  | @alt es _ _ targets hne halts hentry =>
    obtain ⟨target, ht, hpass⟩ :=
      alts_cross (fun e' he' => hsmall e' (Element.sizeOf_lt_of_mem_alt he')) hne halts
    exact (Crosses.epsilon (mem_epsilons hentry ht)).trans hpass
  | optional _ hentry =>
    refine .epsilon ?_
    rw [hentry]
    exact mem_optionWays_exit _ _ _
  | star _ _ _ _ hentry =>
    refine .epsilon ?_
    rw [hentry]
    exact mem_branchWays_exit _ _ _
  | @plus body greedy _ _ last back targets halts hentry hlast hback =>
    obtain ⟨target, ht, hpass⟩ := alts_cross
      (hchoices body (Element.sizeOf_lt_plus body greedy)) body.choices_ne_nil halts
    have hround := (Crosses.epsilon (mem_epsilons hentry ht)).trans hpass
    have hout : .epsilon exit ∈ net.inner back := by
      rw [hback]
      exact mem_branchWays_exit _ _ _
    exact hround.trans ((Crosses.epsilon (mem_only hlast)).trans (.epsilon hout))

/-- **Every element is passed,** or something is consumed on the way. -/
private theorem crosses_through (hg : g.Renders net N) (k : Nat) (e : Element) :
    CrossesThrough net N k e := by
  induction k using Nat.strong_induction_on generalizing e with
  | _ k hdeep =>
    induction hsize : sizeOf e using Nat.strong_induction_on generalizing e with
    | _ n hsmall =>
      exact crosses_step hg hdeep fun e' hlt => hsmall (sizeOf e') (hsize ▸ hlt) e' rfl

/-! ## On the way -/

/-- **A run that does not match the end of the input,** with the number of its steps. -/
inductive Strolls (net : Network) : Nat → Stand → Stand → Prop
  | refl (c : Stand) : Strolls net 0 c c
  | hop {n : Nat} {c d e : Stand} :
      net.Hop true false c d → Strolls net n d e → Strolls net (n + 1) c e
  | eat {n : Nat} {q : StateId} {σ : List StateId} {t : Transition} {v lo hi : Symbol} {e : Stand} :
      t ∈ net.inner q → t.accepts v lo hi = true → v ≠ Symbol.eof →
      Strolls net n (t.target, σ) e → Strolls net (n + 1) (q, σ) e

/-- What is asked of a stand on the way: it is alive, what is consumed there does not lead to the
end of a rule, and the outermost rule has not come to its end. -/
structure Fine (net : Network) (c : Stand) : Prop where
  live : net.Live c
  inner : ∀ t ∈ net.inner c.1, ∀ v lo hi, t.accepts v lo hi = true → net.isStop t.target = false
  unended : net.isStop c.1 = true → c.2 ≠ []

/-- The same where calls may nest without end. -/
structure Fit (net : Network) (c : Stand) : Prop where
  advances : net.Advances c
  inner : ∀ t ∈ net.inner c.1, ∀ v lo hi, t.accepts v lo hi = true → net.isStop t.target = false
  unended : net.isStop c.1 = true → c.2 ≠ []

/-- Without re-entry what is fit is fine. -/
private theorem Fit.fine (hnet : net.Consistent) (hno : net.NoReentry) (h : net.Fit c) :
    net.Fine c :=
  ⟨h.advances _ (shallow_of_noReentry hnet hno c), h.inner, h.unended⟩

private theorem Fit.of_inner {t : Transition} (hq : net.isStop q = false)
    (hadv : net.Advances (q, σ)) (hone : ∀ t' ∈ net.inner q, t' = t)
    (ht : ∀ v lo hi, t.accepts v lo hi = true → net.isStop t.target = false) : net.Fit (q, σ) where
  advances := hadv
  inner t' ht' := hone t' ht' ▸ ht
  unended hstop := by
    rw [show net.isStop q = true from hstop] at hq
    cases hq

/-- Every run of up to `n` steps comes to a stand that is fit. -/
private def Steady (net : Network) (n : Nat) (c : Stand) : Prop :=
  ∀ m ≤ n, ∀ d, net.Strolls m c d → net.Fit d

variable {n : Nat}

private theorem Steady.fit (h : net.Steady n c) : net.Fit c :=
  h 0 (Nat.zero_le n) c (.refl c)

private theorem Steady.mono {m : Nat} (h : net.Steady n c) (hle : m ≤ n) : net.Steady m c :=
  fun k hk => h k (Nat.le_trans hk hle)

/-- **Runs are steady if those are that are one step further.** -/
private theorem steady_of_ways (hq : net.isStop q = false) (hfit : net.Fit (q, σ))
    (hhop : ∀ t ∈ net.inner q, ∀ d, t.onward false σ = some d → ∀ m < n, net.Steady m d)
    (heat : ∀ t ∈ net.inner q, ∀ v lo hi, t.accepts v lo hi = true → v ≠ Symbol.eof →
      ∀ m < n, net.Steady m (t.target, σ)) : net.Steady n (q, σ) := by
  intro m hm d hrun
  cases hrun with
  | refl => exact hfit
  | hop hhop' hrun =>
    rcases hhop'.along_or_back with ⟨-, t, ht, hon⟩ | ⟨hback, -⟩
    · exact hhop t (inner_of_not_isStop hq ▸ ht) _ hon _ hm _ (Nat.le_refl _) _ hrun
    · rw [show net.isStop q = true from hback] at hq
      cases hq
  | eat ht hacc hv hrun => exact heat _ ht _ _ _ hacc hv _ hm _ (Nat.le_refl _) _ hrun

private theorem steady_epsilons {targets : List StateId}
    (hq : net.inner q = targets.map .epsilon) (hadv : net.Advances (q, σ)) (hne : targets ≠ [])
    (h : ∀ p ∈ targets, ∀ m < n, net.Steady m (p, σ)) : net.Steady n (q, σ) := by
  have hstop := not_isStop_of_inner (q := q) (by rw [hq]; simpa using hne)
  have hways : ∀ t ∈ net.inner q, ∃ p ∈ targets, t = .epsilon p := by
    intro t ht
    rw [hq, List.mem_map] at ht
    obtain ⟨p, hp, rfl⟩ := ht
    exact ⟨p, hp, rfl⟩
  refine steady_of_ways hstop ⟨hadv, fun t ht v lo hi hacc => ?_, fun hend => ?_⟩
    (fun t ht d hon => ?_) fun t ht v lo hi hacc => ?_
  · obtain ⟨p, -, rfl⟩ := hways t ht
    cases hacc
  · rw [show net.isStop q = true from hend] at hstop
    cases hstop
  · obtain ⟨p, hp, rfl⟩ := hways t ht
    exact Option.some.inj hon ▸ h p hp
  · obtain ⟨p, -, rfl⟩ := hways t ht
    cases hacc

private theorem steady_epsilon (hq : net.inner q = [.epsilon p]) (hadv : net.Advances (p, σ))
    (h : ∀ m < n, net.Steady m (p, σ)) : net.Steady n (q, σ) :=
  steady_epsilons (show net.inner q = [p].map .epsilon from hq) (hadv.of_epsilon (mem_only hq))
    (List.cons_ne_nil _ _) fun _ hp => List.mem_singleton.mp hp ▸ h

/-- At the end of a called rule runs are steady if those are that return from it. -/
private theorem steady_back {r : StateId} (hq : net.isStop q = true) (hadv : net.Advances (r, σ))
    (h : ∀ m < n, net.Steady m (r, σ)) : net.Steady n (q, r :: σ) := by
  have hnone : net.inner q = [] := by rw [inner, if_pos hq]
  intro m hm d hrun
  cases hrun with
  | refl =>
    refine ⟨hadv.of_hop (.back hq), fun t ht => ?_, fun _ => List.cons_ne_nil _ _⟩
    rw [hnone] at ht
    cases ht
  | hop hhop hrun =>
    rcases hhop.along_or_back with ⟨hstop, -⟩ | ⟨-, heq⟩
    · rw [show net.isStop q = false from hstop] at hq
      cases hq
    · obtain ⟨rfl, rfl⟩ := List.cons.inj heq
      exact h _ hm _ (Nat.le_refl _) _ hrun
  | eat ht =>
    rw [hnone] at ht
    cases ht

/-! ## On the way through elements -/

/-- Runs that enter the element are steady if those are that come out of it. -/
private def SteadyThrough (net : Network) (N : String → Nat → StateId → Prop) (n : Nat)
    (e : Element) : Prop :=
  ∀ ⦃rule entry exit σ⦄, Laid net.inner N rule e entry exit → net.isStop exit = false →
    net.Steady n (exit, σ) → net.Steady n (entry, σ)

private theorem leaf_steady {rule : Nat} {e : Element} {t : StateId → Transition}
    {entry exit : StateId} (hleaf : e.Leaf rule t) (hentry : net.inner entry = [t exit])
    (hstop : net.isStop exit = false) (hexit : net.Steady n (exit, σ)) :
    net.Steady n (entry, σ) := by
  have hways : ∀ t' ∈ net.inner entry, t' = t exit := by
    intro t' ht
    rwa [hentry, List.mem_singleton] at ht
  have hentered := not_isStop_of_inner (q := entry) (by rw [hentry]; exact List.cons_ne_nil _ _)
  have hadv := Crosses.advances (fun _ => leaf_crosses hleaf hentry) hexit.fit.advances
  have hfit : net.Fit (entry, σ) :=
    .of_inner hentered hadv hways fun v lo hi _ => by
      rw [hleaf.target_eq]
      exact hstop
  refine steady_of_ways hentered hfit ?_ ?_
  · intro t' ht d hon m hm
    rw [hways t' ht] at hon
    rcases Transition.onward_eq hon with rfl | ⟨_, _, _, hcall, -⟩
    · rw [hleaf.target_eq]
      exact hexit.mono (Nat.le_of_lt hm)
    · cases hleaf <;> cases hcall
  · intro t' ht v lo hi _ _ m hm
    rw [hways t' ht, hleaf.target_eq]
    exact hexit.mono (Nat.le_of_lt hm)

private theorem text_steady {exit : StateId} : ∀ {cs : List Char} {q : StateId} {n : Nat},
    LaidText net.inner q cs exit → net.isStop exit = false → net.Steady n (exit, σ) →
      net.Steady n (q, σ) ∧ net.isStop q = false
  | [], q, n, hlaid, hstop, hexit => by
    rw [show q = exit from hlaid]
    exact ⟨hexit, hstop⟩
  | c :: cs, q, n, ⟨next, hways, hrest⟩, hstop, hexit => by
    have hone : ∀ t ∈ net.inner q, t = .atom next c.toNat := by
      intro t ht
      rwa [hways, List.mem_singleton] at ht
    have hentered := not_isStop_of_inner (q := q) (by rw [hways]; exact List.cons_ne_nil _ _)
    have hnext : ∀ m ≤ n, net.Steady m (next, σ) ∧ net.isStop next = false := fun m hm =>
      text_steady hrest hstop (hexit.mono hm)
    have hfit : net.Fit (q, σ) := .of_inner hentered (advances_of_consumes hways rfl) hone
      fun v lo hi _ => (hnext n (Nat.le_refl n)).2
    refine ⟨steady_of_ways hentered hfit ?_ ?_, hentered⟩
    · intro t ht d hon
      rw [hone t ht] at hon
      cases hon
    · intro t ht v lo hi _ _ m hm
      rw [hone t ht]
      exact (hnext m (Nat.le_of_lt hm)).1

private theorem rest_steady {es : List Element} {rule : Nat} {before exit : StateId}
    (hes : ∀ e ∈ es, SteadyThrough net N n e) (hstop : net.isStop exit = false)
    (hrest : LaidRest net.inner N rule before es exit) (hexit : net.Steady n (exit, σ)) :
    net.Steady n (before, σ) ∧ net.isStop before = false := by
  induction es generalizing before with
  | nil =>
    cases hrest
    exact ⟨hexit, hstop⟩
  | cons e es ih =>
    cases hrest with
    | cons hbefore hlaid hrest =>
      obtain ⟨hnext, hnext_stop⟩ := ih (fun e' he' => hes e' (List.mem_cons_of_mem _ he')) hrest
      have hentry := hes e (List.mem_cons_self ..) hlaid hnext_stop hnext
      exact ⟨steady_epsilon hbefore hentry.fit.advances fun m hm => hentry.mono (Nat.le_of_lt hm),
        not_isStop_of_inner (by rw [hbefore]; exact List.cons_ne_nil _ _)⟩

private theorem alts_steady {es : List Element} {rule : Nat} {exit : StateId}
    {targets : List StateId} (hes : ∀ e ∈ es, SteadyThrough net N n e)
    (hexit : net.Steady n (exit, σ))
    (halts : LaidAlts net.inner N rule exit es targets) :
    ∀ target ∈ targets, net.Steady n (target, σ) := by
  induction targets generalizing es with
  | nil => nofun
  | cons target targets ih =>
    cases halts with
    | cons hlaid hlast hrest =>
      intro target' ht
      rcases List.mem_cons.mp ht with rfl | ht
      · refine hes _ (List.mem_cons_self ..) hlaid
          (not_isStop_of_inner (by rw [hlast]; exact List.cons_ne_nil _ _)) ?_
        exact steady_epsilon hlast hexit.fit.advances fun m hm => hexit.mono (Nat.le_of_lt hm)
      · exact ih (fun e' he' => hes e' (List.mem_cons_of_mem _ he')) hrest target' ht

/-- A block of alternatives is steady if its end is. -/
private theorem block_steady {es : List Element} {rule : Nat} {block exit : StateId}
    {targets : List StateId} (hes : ∀ e ∈ es, SteadyThrough net N n e) (hne : es ≠ [])
    (hexit : net.Steady n (exit, σ)) (hblock : net.inner block = targets.map .epsilon)
    (halts : LaidAlts net.inner N rule exit es targets) : net.Steady n (block, σ) := by
  have htargets := alts_steady hes hexit halts
  obtain ⟨target, ht⟩ := List.exists_mem_of_ne_nil _ (halts.targets_ne_nil hne)
  exact steady_epsilons hblock ((htargets target ht).fit.advances.of_epsilon (mem_epsilons hblock ht))
    (halts.targets_ne_nil hne) fun p hp m hm => (htargets p hp).mono (Nat.le_of_lt hm)

/-- A call is steady if the body of the rule it calls is, for shorter runs. -/
private theorem call_steady (hg : g.Renders net N) {r : Rule} {callee : Nat} {level : Int}
    {entry exit : StateId} (hadv : net.Advances (entry, σ)) (hr : g.rules[callee]? = some r)
    (hentry : net.inner entry = [.rule (g.startState callee) callee exit level])
    (hbody : ∀ m < n, SteadyThrough net N m r.body) (hexit : net.Steady n (exit, σ)) :
    net.Steady n (entry, σ) := by
  obtain ⟨first, last, hstart, hbodylaid, hlast⟩ := hg.body hr
  have hlt := (List.getElem?_eq_some_iff.mp hr).1
  have hone : ∀ t ∈ net.inner entry, t = .rule (g.startState callee) callee exit level := by
    intro t ht
    rwa [hentry, List.mem_singleton] at ht
  have hentered := not_isStop_of_inner (q := entry) (by rw [hentry]; exact List.cons_ne_nil _ _)
  refine steady_of_ways hentered (.of_inner hentered hadv hone nofun) (fun t ht d hon m hm => ?_)
    fun t ht v lo hi hacc => ?_
  · rw [hone t ht] at hon
    obtain rfl := Option.some.inj hon
    -- Behind the body the run returns to the caller.
    have hend : net.Steady m (g.stopState callee, exit :: σ) :=
      steady_back (hg.isStop hlt) hexit.fit.advances fun m' hm' =>
        hexit.mono (Nat.le_of_lt (Nat.lt_trans hm' hm))
    have hfirst := hbody m hm hbodylaid
      (not_isStop_of_inner (by rw [hlast]; exact List.cons_ne_nil _ _))
      (steady_epsilon hlast hend.fit.advances fun m' hm' => hend.mono (Nat.le_of_lt hm'))
    exact steady_epsilon hstart hfirst.fit.advances fun m' hm' => hfirst.mono (Nat.le_of_lt hm')
  · rw [hone t ht] at hacc
    cases hacc

/-- Shorter runs and smaller elements are enough. -/
private theorem steady_step (hg : g.Renders net N) {e : Element}
    (hless : ∀ m < n, ∀ e, SteadyThrough net N m e)
    (hsmall : ∀ e', sizeOf e' < sizeOf e → SteadyThrough net N n e') :
    SteadyThrough net N n e := by
  intro rule entry exit σ hlaid hstop hexit
  have hadv := Crosses.advances (fun k => crosses_through hg k _ hlaid) hexit.fit.advances
  cases hlaid with
  | leaf hleaf hentry => exact leaf_steady hleaf hentry hstop hexit
  | text _ htext => exact (text_steady htext hstop hexit).1
  | call hname hentry =>
    obtain ⟨r, hr, rfl, rfl⟩ := hg.names hname
    exact call_steady hg hadv hr hentry (fun m hm => hless m hm r.body) hexit
  | @seq e₁ rest _ next _ hfirst hrest =>
    obtain ⟨hnext, hnext_stop⟩ := rest_steady (fun e' he' =>
      hsmall e' (Element.sizeOf_lt_of_mem_seq (List.mem_cons_of_mem _ he'))) hstop hrest hexit
    exact hsmall e₁ (Element.sizeOf_lt_of_mem_seq List.mem_cons_self) hfirst hnext_stop hnext
  | only hlaid => exact hsmall _ (Element.sizeOf_lt_of_mem_alt List.mem_cons_self) hlaid hstop hexit
  | alt hne halts hentry =>
    exact block_steady (fun e' he' => hsmall e' (Element.sizeOf_lt_of_mem_alt he')) hne hexit hentry
      halts
  | @optional body greedy _ _ targets halts hentry =>
    have hways : net.inner entry = (if greedy then targets ++ [exit] else exit :: targets).map
        Transition.epsilon := by
      rw [hentry, optionWays]
      split <;> simp
    refine steady_epsilons hways hadv (by split <;> simp) fun p hp m hm => ?_
    have hp : p ∈ targets ∨ p = exit := by split at hp <;> simp at hp <;> tauto
    rcases hp with hp | rfl
    · exact alts_steady (fun e' _ => hless m hm e') (hexit.mono (Nat.le_of_lt hm)) halts p hp
    · exact hexit.mono (Nat.le_of_lt hm)
  -- Coming back to the entry of a loop costs a hop, so it is the same element after a shorter run.
  | @star body greedy _ _ first last back targets halts hfirst hlast hback hentry =>
    have hways : net.inner entry = (if greedy then [first, exit] else [exit, first]).map
        Transition.epsilon := by
      rw [hentry, branchWays]
      split <;> simp
    refine steady_epsilons hways hadv (by split <;> simp) fun p hp m hm => ?_
    have hp : p = first ∨ p = exit := by split at hp <;> simp at hp <;> tauto
    rcases hp with rfl | rfl
    · have hagain : net.Steady m (entry, σ) :=
        hless m hm _ (.star halts hfirst hlast hback hentry) hstop (hexit.mono (Nat.le_of_lt hm))
      have hout : net.Steady m (back, σ) :=
        steady_epsilon hback hadv fun m' hm' => hagain.mono (Nat.le_of_lt hm')
      exact block_steady (fun e' _ => hless m hm e') body.choices_ne_nil
        (steady_epsilon hlast hout.fit.advances fun m' hm' => hout.mono (Nat.le_of_lt hm')) hfirst halts
    · exact hexit.mono (Nat.le_of_lt hm)
  | @plus body greedy _ _ last back targets halts hentry hlast hback =>
    have hways : net.inner back = (if greedy then [entry, exit] else [exit, entry]).map
        Transition.epsilon := by
      rw [hback, branchWays]
      split <;> simp
    have hout : net.Advances (back, σ) := hexit.fit.advances.of_epsilon (by
      rw [hback]
      exact mem_branchWays_exit _ _ _)
    have hround : net.Steady n (back, σ) := by
      refine steady_epsilons hways hout (by split <;> simp) fun p hp m hm => ?_
      have hp : p = entry ∨ p = exit := by split at hp <;> simp at hp <;> tauto
      rcases hp with rfl | rfl
      · exact hless m hm _ (.plus halts hentry hlast hback) hstop (hexit.mono (Nat.le_of_lt hm))
      · exact hexit.mono (Nat.le_of_lt hm)
    refine block_steady (fun e' he' => hsmall e' ?_) body.choices_ne_nil
      (steady_epsilon hlast hout fun m hm => hround.mono (Nat.le_of_lt hm)) hentry halts
    exact Nat.lt_of_le_of_lt (Element.sizeOf_le_of_mem_choices he')
      (Element.sizeOf_lt_plus body greedy)

private theorem steady_through (hg : g.Renders net N) (n : Nat) (e : Element) :
    SteadyThrough net N n e := by
  induction n using Nat.strong_induction_on generalizing e with
  | _ n hless =>
    induction hsize : sizeOf e using Nat.strong_induction_on generalizing e with
    | _ k hsmall =>
      exact steady_step hg hless fun e' hlt => hsmall (sizeOf e') (hsize ▸ hlt) e' rfl

/-- Where the end of the input is asked for, runs that do not match it are over. -/
private theorem eof_steady {rule : Nat} {next : StateId}
    (hlaid : Laid net.inner N rule (.token Symbol.eof) q next) (hnext : net.isStop next = false) :
    net.Steady n (q, σ) ∧ net.isStop q = false := by
  cases hlaid with
  | leaf hleaf hways =>
    cases hleaf
    have hone : ∀ t ∈ net.inner q, t = .atom next Symbol.eof := by
      intro t ht
      rwa [hways, List.mem_singleton] at ht
    have hq := not_isStop_of_inner (q := q) (by rw [hways]; exact List.cons_ne_nil _ _)
    refine ⟨steady_of_ways hq (.of_inner hq (advances_of_consumes hways rfl) hone fun _ _ _ _ => hnext)
      (fun t ht d hon => ?_) fun t ht v lo hi hacc hv => ?_, hq⟩
    · rw [hone t ht] at hon
      cases hon
    · rw [hone t ht] at hacc
      exact absurd (by simpa [Transition.accepts] using hacc) hv.symm

private theorem rest_closed_steady {es : List Element} {rule : Nat} {before exit : StateId}
    (hes : ∀ e, SteadyThrough net N n e) (hstop : net.isStop exit = false)
    (hrest : LaidRest net.inner N rule before (es ++ [.token Symbol.eof]) exit) :
    net.Steady n (before, σ) ∧ net.isStop before = false := by
  induction es generalizing before with
  | nil =>
    cases hrest with
    | cons hbefore hlaid hrest =>
      cases hrest
      obtain ⟨hentry, -⟩ := eof_steady (σ := σ) hlaid hstop
      exact ⟨steady_epsilon hbefore hentry.fit.advances fun m hm => hentry.mono (Nat.le_of_lt hm),
        not_isStop_of_inner (by rw [hbefore]; exact List.cons_ne_nil _ _)⟩
  | cons e es ih =>
    cases hrest with
    | cons hbefore hlaid hrest =>
      obtain ⟨hnext, hnext_stop⟩ := ih hrest
      have hentry := hes e hlaid hnext_stop hnext
      exact ⟨steady_epsilon hbefore hentry.fit.advances fun m hm => hentry.mono (Nat.le_of_lt hm),
        not_isStop_of_inner (by rw [hbefore]; exact List.cons_ne_nil _ _)⟩

/-- Runs that enter a body with the end of the input as its last element are steady. -/
private theorem closed_steady {es : List Element} {rule : Nat} {entry exit : StateId}
    (hes : ∀ e, SteadyThrough net N n e) (hstop : net.isStop exit = false)
    (hlaid : Laid net.inner N rule (.seq (es ++ [.token Symbol.eof])) entry exit) :
    net.Steady n (entry, σ) := by
  cases es with
  | nil =>
    cases hlaid with
    | seq hfirst hrest =>
      cases hrest
      exact (eof_steady hfirst hstop).1
    | leaf hleaf => cases hleaf
  | cons e es =>
    cases hlaid with
    | seq hfirst hrest =>
      obtain ⟨hnext, hnext_stop⟩ := rest_closed_steady (σ := σ) hes hstop hrest
      exact hes e hfirst hnext_stop hnext
    | leaf hleaf => cases hleaf

/-- **Where runs come to** that do not match the end of the input. -/
def Comes (net : Network) (c d : Stand) : Prop := ∃ n, net.Strolls n c d

theorem Comes.refl (c : Stand) : net.Comes c c := ⟨0, .refl c⟩

theorem Comes.trans {e : Stand} (h : net.Comes c d) (h' : net.Comes d e) : net.Comes c e := by
  obtain ⟨n, hn⟩ := h
  obtain ⟨m, hm⟩ := h'
  induction hn with
  | refl => exact ⟨m, hm⟩
  | hop hhop _ ih =>
    obtain ⟨k, hk⟩ := ih hm
    exact ⟨k + 1, .hop hhop hk⟩
  | eat ht hacc hv _ ih =>
    obtain ⟨k, hk⟩ := ih hm
    exact ⟨k + 1, .eat ht hacc hv hk⟩

theorem Comes.hop {e : Stand} (h : net.Comes c d) (hhop : net.Hop true false d e) :
    net.Comes c e :=
  h.trans ⟨1, .hop hhop (.refl e)⟩

theorem Comes.hops {e : Stand} (h : net.Comes c d)
    (hrun : Relation.ReflTransGen (net.Hop true false) d e) : net.Comes c e := by
  induction hrun with
  | refl => exact h
  | tail _ hhop ih => exact ih.hop hhop

theorem Comes.eat {t : Transition} {v lo hi : Symbol} (h : net.Comes c (q, σ))
    (ht : t ∈ net.inner q) (hacc : t.accepts v lo hi = true) (hv : v ≠ Symbol.eof) :
    net.Comes c (t.target, σ) :=
  h.trans ⟨1, .eat ht hacc hv (.refl _)⟩

end Network

/-- **A parse never gets stuck.** Wherever runs come to from the start of a rule that closes the
grammar, short of matching the end of the input, hops lead on to where a symbol is consumed. -/
theorem Grammar.Built.fine_of_comes {g : Grammar} {net : Network} {modeStarts : List StateId}
    {d : Draft} (h : g.Built net modeStarts d) (hno : net.NoReentry) {i : Nat} {r : Rule}
    {es : List Element} (hr : g.rules[i]? = some r) (hbody : r.body = .seq (es ++ [.token Symbol.eof]))
    {c : Stand} (hrun : net.Comes (g.startState i, []) c) : net.Fine c := by
  obtain ⟨n, hrun⟩ := hrun
  obtain ⟨first, last, hstart, hlaid, hlast⟩ := h.renders.body hr
  rw [hbody] at hlaid
  have hfirst : net.Steady n (first, []) :=
    Network.closed_steady (Network.steady_through h.renders n)
      (Network.not_isStop_of_inner (by rw [hlast]; exact List.cons_ne_nil _ _)) hlaid
  have hall : net.Steady n (g.startState i, []) :=
    Network.steady_epsilon hstart hfirst.fit.advances fun m hm => hfirst.mono (Nat.le_of_lt hm)
  exact (hall n (Nat.le_refl n) c hrun).fine h.consistent hno

/-! ## Rules by themselves -/

namespace Network

variable {net : Network} {n : Nat} {c d : Stand} {w : List Symbol} {r : StateId}

private theorem Reads.strolls
    (heof : ∀ q, ∀ t ∈ (net.state q).transitions,
      t.accepts Symbol.eof net.firstSymbol net.lastSymbol = false)
    (h : net.Reads c w d) : ∃ n, net.Strolls n c d := by
  induction h with
  | refl c => exact ⟨0, .refl c⟩
  | hop hhop _ ih =>
    obtain ⟨n, hn⟩ := ih
    exact ⟨n + 1, .hop hhop hn⟩
  | @eat q σ t v w e hstop ht hacc _ ih =>
    obtain ⟨n, hn⟩ := ih
    have hv : v ≠ Symbol.eof := by
      rintro rfl
      exact absurd (hacc.symm.trans (heof q t ht)) nofun
    exact ⟨n + 1, .eat (inner_of_not_isStop hstop ▸ ht) hacc hv hn⟩

/-- No state outside of the network ends a rule or has a way on. -/
private theorem outside (h : net.states.size ≤ r) : net.isStop r = false ∧ net.inner r = [] := by
  have hstate : net.state r = default := by simp [state, h]
  have hstop : net.isStop r = false := by
    unfold isStop
    rw [hstate]
    rfl
  refine ⟨hstop, ?_⟩
  rw [inner_of_not_isStop hstop, hstate]
  rfl

private theorem hops_outside (h : net.states.size ≤ r)
    (hrun : Relation.ReflTransGen (net.Hop true false) (r, []) d) : d = (r, []) := by
  obtain ⟨hstop, hinner⟩ := outside h
  induction hrun with
  | refl => rfl
  | tail _ hhop ih =>
    rw [ih] at hhop
    rcases hhop.along_or_back with ⟨-, t, ht, -⟩ | ⟨hback, -⟩
    · rw [← inner_of_not_isStop hstop, hinner] at ht
      cases ht
    · exact absurd (hstop.symm.trans hback) nofun

/-- Runs from outside of the network are steady: there are none. -/
private theorem steady_outside (h : net.states.size ≤ r) : net.Steady n (r, []) := by
  obtain ⟨hstop, hinner⟩ := outside h
  have hways : ∀ t, t ∉ net.inner r := by simp [hinner]
  have hrests : net.Rests true (r, []) := by
    have honly : (net.state r).onlyEpsilon = false := by
      rw [inner_of_not_isStop hstop] at hinner
      simp [State.onlyEpsilon, hinner]
    simp [Rests, hstop, honly]
  refine steady_of_ways hstop ⟨fun _ _ => ⟨_, .refl, hrests⟩, fun t ht => absurd ht (hways t),
    fun hend => ?_⟩ (fun t ht => absurd ht (hways t)) fun t ht => absurd ht (hways t)
  exact absurd (hstop.symm.trans hend) nofun

/-- Hops above a caller outside of the network are hops without it, or have returned to it. -/
private theorem hops_above (h : net.states.size ≤ r)
    (hrun : Relation.ReflTransGen (net.Hop true false) (c.1, c.2 ++ [r]) d) :
    (∃ τ, d.2 = τ ++ [r] ∧ Relation.ReflTransGen (net.Hop true false) c (d.1, τ)) ∨
      d = (r, []) ∧ ∃ s, net.isStop s = true ∧
        Relation.ReflTransGen (net.Hop true false) c (s, []) := by
  rcases (Reads.of_hops hrun).above_or_returns with
    ⟨τ, hτ, hreads⟩ | ⟨s, r', ρ', u, u', hr, hw, hs, hreads, hreads'⟩
  · exact .inl ⟨τ, hτ, hreads.hops⟩
  · obtain ⟨rfl, rfl⟩ := List.cons.inj hr
    obtain ⟨rfl, rfl⟩ := List.append_eq_nil_iff.mp hw.symm
    exact .inr ⟨hops_outside h hreads'.hops, s, hs, hreads.hops⟩

/-- **What is alive under a caller** outside of the network is alive without it. -/
private theorem Advances.of_above (hr : net.states.size ≤ r)
    (h : net.Advances (c.1, c.2 ++ [r])) : net.Advances c := by
  intro depth hdepth
  have habove : net.Shallow (depth + 1) (c.1, c.2 ++ [r]) := by
    intro d hrun
    rcases hops_above hr hrun with ⟨τ, hτ, hrun'⟩ | ⟨rfl, -⟩
    · rw [hτ, List.length_append]
      exact Nat.succ_le_succ (hdepth _ hrun')
    · exact Nat.zero_le _
  obtain ⟨d, hrun, hrests⟩ := h _ habove
  rcases hops_above hr hrun with ⟨τ, hτ, hrun'⟩ | ⟨-, s, hs, hrun'⟩
  · refine ⟨_, hrun', ?_⟩
    unfold Rests at hrests ⊢
    split at hrests
    · rw [hτ] at hrests
      exact absurd hrests.1 (List.append_ne_nil_of_right_ne_nil _ (List.cons_ne_nil _ _))
    · next hstop =>
      rw [if_neg hstop]
      exact hrests
  · exact ⟨_, hrun', by simp [Rests, hs]⟩

end Network

/-- **A token never gets stuck.** Wherever runs come to from the start of a rule, short of matching the
end of the input, hops lead on to where a symbol is consumed or to the end of the rule, unless they
nest calls without end. -/
theorem Grammar.Built.advances_of_reads {g : Grammar} {net : Network} {modeStarts : List StateId}
    {d : Draft} (h : g.Built net modeStarts d)
    (heof : ∀ q, ∀ t ∈ (net.state q).transitions,
      t.accepts Symbol.eof net.firstSymbol net.lastSymbol = false)
    {i : Nat} {r : Rule} (hr : g.rules[i]? = some r) {w : List Symbol} {c : Stand}
    (hrun : net.Reads (g.startState i, []) w c) : net.Advances c := by
  -- The rule is called from outside of the network, so that its end is not the end of the run.
  have houtside := Nat.le_refl net.states.size
  obtain ⟨n, hstroll⟩ := (hrun.append [net.states.size]).strolls heof
  obtain ⟨first, last, hstart, hlaid, hlast⟩ := h.renders.body hr
  have hcaller : net.Steady n (net.states.size, []) := Network.steady_outside houtside
  have hend : net.Steady n (g.stopState i, [net.states.size]) :=
    Network.steady_back (h.isStop_stop (List.getElem?_eq_some_iff.mp hr).1) hcaller.fit.advances
      fun m hm => hcaller.mono (Nat.le_of_lt hm)
  have hfirst := Network.steady_through h.renders n r.body hlaid
    (Network.not_isStop_of_inner (by rw [hlast]; exact List.cons_ne_nil _ _))
    (Network.steady_epsilon hlast hend.fit.advances fun m hm => hend.mono (Nat.le_of_lt hm))
  have hall := Network.steady_epsilon hstart hfirst.fit.advances
    fun m hm => hfirst.mono (Nat.le_of_lt hm)
  exact (hall n (Nat.le_refl n) _ hstroll).advances.of_above houtside

end AdaptiveLL
