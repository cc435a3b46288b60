import AdaptiveLL.Proofs.Grammar.Compiled

/-!
# Networks read the language of their grammar

A run from the start to the end of a rule reads exactly the words that the body of the rule stands
for. What an element stands for is read between the two states it lies between, by induction on how
the word is made up. Conversely a run that gets to the end of its rule comes through the exit of
every element it enters: this is by induction on the length of the run, and for runs of one length
by the size of the element, since loops and calls come back to elements that are not smaller.
-/

namespace AdaptiveLL

variable {g : Grammar} {net : Network} {N : String → Nat → StateId → Prop}

/-! ## Leaves -/

namespace Element.Leaf

variable {rule : Nat} {e : Element} {t : StateId → Transition}

theorem target_eq (h : e.Leaf rule t) (p : StateId) : (t p).target = p := by
  cases h <;> rfl

theorem accepts_eq (h : e.Leaf rule t) (p : StateId) (v lo hi : Symbol) :
    (t p).accepts v lo hi = e.accepts v lo hi := by
  cases h <;> rfl

/-- What a leaf does without consuming a symbol stands for the empty word. -/
theorem denotes_nil (h : e.Leaf rule t) {p : StateId} {σ : List StateId} {c : Stand} {lo hi : Symbol}
    (hon : (t p).onward false σ = some c) : c = (p, σ) ∧ g.Denotes lo hi e [] := by
  cases h <;> simp only [Transition.onward, Bool.false_and, Bool.false_eq_true, if_false,
    Option.some.injEq, reduceCtorEq] at hon
  case blank text hnil =>
    refine ⟨hon.symm, ?_⟩
    have htext : g.Denotes lo hi (.literal text) (text.toList.map fun c => (c.toNat : Symbol)) :=
      .literal text
    rwa [hnil] at htext
  case seq => exact ⟨hon.symm, .seq_nil⟩
  case alt => exact ⟨hon.symm, .alt_nil⟩
  all_goals exact ⟨hon.symm, .silent rfl⟩

/-- What a leaf stands for is one symbol it accepts, or nothing at all. -/
theorem of_denotes (h : e.Leaf rule t) {w : List Symbol} {lo hi : Symbol} (hw : g.Denotes lo hi e w) :
    (∃ v, w = [v] ∧ e.accepts v lo hi = true) ∨
      (w = [] ∧ ∀ p σ, (t p).onward false σ = some (p, σ)) := by
  cases hw with
  | symbol hacc => exact .inl ⟨_, rfl, hacc⟩
  | silent hsilent =>
    refine .inr ⟨rfl, fun p σ => ?_⟩
    cases h <;> first | rfl | cases hsilent
  | literal text =>
    cases h with
    | blank hnil => exact .inr ⟨by rw [hnil]; rfl, fun _ _ => rfl⟩
  | seq_nil => exact .inr ⟨rfl, fun p σ => by cases h; rfl⟩
  | alt_nil => exact .inr ⟨rfl, fun p σ => by cases h; rfl⟩
  | alt he => cases h; cases he
  | _ => cases h

end Element.Leaf

/-! ## Steps inside rules -/

namespace Network

theorem not_isStop_of_inner {q : StateId} (h : net.inner q ≠ []) : net.isStop q = false := by
  refine Bool.eq_false_of_not_eq_true fun hq => h ?_
  rw [inner, if_pos hq]

theorem hop_inner {q : StateId} {σ : List StateId} {t : Transition} {c : Stand}
    (ht : t ∈ net.inner q) (hon : t.onward false σ = some c) : net.Hop true false (q, σ) c := by
  have hq := not_isStop_of_inner (List.ne_nil_of_mem ht)
  rw [inner_of_not_isStop hq] at ht
  exact .along (fun hs => by simp [hq] at hs) ht hon

theorem hop_epsilon {q p : StateId} {σ : List StateId} (ht : .epsilon p ∈ net.inner q) :
    net.Hop true false (q, σ) (p, σ) := hop_inner ht rfl

/-- A run with the number of its steps. -/
inductive Runs (net : Network) : Nat → Stand → List Symbol → Stand → Prop
  | refl (c : Stand) : Runs net 0 c [] c
  | hop {n : Nat} {c d e : Stand} {w : List Symbol} :
      net.Hop true false c d → Runs net n d w e → Runs net (n + 1) c w e
  | eat {n : Nat} {q : StateId} {σ : List StateId} {t : Transition} {v : Symbol} {w : List Symbol}
      {e : Stand} :
      net.isStop q = false → t ∈ (net.state q).transitions →
      t.accepts v net.firstSymbol net.lastSymbol = true →
      Runs net n (t.target, σ) w e → Runs net (n + 1) (q, σ) (v :: w) e

theorem Reads.exists_runs {c e : Stand} {w : List Symbol} (h : net.Reads c w e) :
    ∃ n, net.Runs n c w e := by
  induction h with
  | refl c => exact ⟨0, .refl c⟩
  | hop hhop _ ih =>
    obtain ⟨n, hn⟩ := ih
    exact ⟨n + 1, .hop hhop hn⟩
  | eat hstop ht hacc _ ih =>
    obtain ⟨n, hn⟩ := ih
    exact ⟨n + 1, .eat hstop ht hacc hn⟩

/-- **The first step of a run** from a state inside a rule to the end of the outermost one. -/
theorem Runs.first {n : Nat} {q s : StateId} {σ : List StateId} {w : List Symbol}
    (h : net.Runs n (q, σ) w (s, [])) (hs : net.isStop s = true) (hq : net.inner q ≠ []) :
    ∃ m, n = m + 1 ∧ ∃ t ∈ net.inner q,
      (∃ c, t.onward false σ = some c ∧ net.Runs m c w (s, [])) ∨
        ∃ v w', w = v :: w' ∧ t.accepts v net.firstSymbol net.lastSymbol = true ∧
          net.Runs m (t.target, σ) w' (s, []) := by
  have hstop := not_isStop_of_inner hq
  rw [inner_of_not_isStop hstop]
  cases h with
  | refl => rw [hs] at hstop; cases hstop
  | hop hhop hrun =>
    rcases hhop.along_or_back with ⟨-, t, ht, hon⟩ | ⟨hback, -⟩
    · exact ⟨_, rfl, t, ht, .inl ⟨_, hon, hrun⟩⟩
    · rw [hstop] at hback; cases hback
  | eat _ ht hacc hrun => exact ⟨_, rfl, _, ht, .inr ⟨_, _, rfl, hacc, hrun⟩⟩

/-- A run goes on along one of some plain steps. -/
theorem Runs.first_epsilon {n : Nat} {q s : StateId} {σ : List StateId} {w : List Symbol}
    {targets : List StateId} (h : net.Runs n (q, σ) w (s, [])) (hs : net.isStop s = true)
    (hq : net.inner q = targets.map Transition.epsilon) (hne : targets ≠ []) :
    ∃ m < n, ∃ p ∈ targets, net.Runs m (p, σ) w (s, []) := by
  obtain ⟨m, rfl, t, ht, h⟩ := h.first hs (by simpa [hq] using hne)
  rw [hq, List.mem_map] at ht
  obtain ⟨p, hp, rfl⟩ := ht
  rcases h with ⟨c, hon, hrun⟩ | ⟨v, w', -, hacc, -⟩
  · cases hon
    exact ⟨m, Nat.lt_succ_self m, p, hp, hrun⟩
  · cases hacc

end Network

/-! ## Words of elements are read -/

theorem LaidAlts.exists_of_mem {W : StateId → List Transition} {rule : Nat} {exit : StateId}
    {es : List Element} {targets : List StateId} (h : LaidAlts W N rule exit es targets)
    {e : Element} (he : e ∈ es) :
    ∃ target ∈ targets, ∃ last, Laid W N rule e target last ∧ W last = [.epsilon exit] := by
  induction targets generalizing es with
  | nil => cases h; cases he
  | cons target targets ih =>
    cases h with
    | cons hlaid hlast hrest =>
      rcases List.mem_cons.mp he with rfl | he
      · exact ⟨target, List.mem_cons_self .., _, hlaid, hlast⟩
      · obtain ⟨target', ht', hfound⟩ := ih hrest he
        exact ⟨target', List.mem_cons_of_mem _ ht', hfound⟩

theorem LaidAlts.targets_ne_nil {W : StateId → List Transition} {rule : Nat} {exit : StateId}
    {es : List Element} {targets : List StateId} (h : LaidAlts W N rule exit es targets)
    (hne : es ≠ []) : targets ≠ [] := by
  cases h with
  | nil => exact absurd rfl hne
  | cons => exact List.cons_ne_nil _ _

theorem mem_branchWays_block (greedy : Bool) (block exit : StateId) :
    .epsilon block ∈ branchWays greedy block exit := by
  cases greedy <;> simp [branchWays]

theorem mem_branchWays_exit (greedy : Bool) (block exit : StateId) :
    .epsilon exit ∈ branchWays greedy block exit := by
  cases greedy <;> simp [branchWays]

theorem mem_optionWays_exit (greedy : Bool) (targets : List StateId) (exit : StateId) :
    .epsilon exit ∈ optionWays greedy targets exit := by
  cases greedy <;> simp [optionWays]

namespace Network

private theorem Reads.epsilon {q p : StateId} {σ : List StateId} {w : List Symbol} {c : Stand}
    (ht : .epsilon p ∈ net.inner q) (h : net.Reads (p, σ) w c) : net.Reads (q, σ) w c :=
  .hop (hop_epsilon ht) h

private theorem Reads.then_epsilon {q p : StateId} {σ : List StateId} {w : List Symbol} {c : Stand}
    (h : net.Reads c w (q, σ)) (ht : .epsilon p ∈ net.inner q) : net.Reads c w (p, σ) := by
  have := h.trans (.epsilon ht (.refl (p, σ)))
  rwa [List.append_nil] at this

private theorem leaf_reads {rule : Nat} {e : Element} {t : StateId → Transition}
    {entry exit : StateId} {w : List Symbol} (hleaf : e.Leaf rule t)
    (hentry : net.inner entry = [t exit]) (σ : List StateId)
    (hw : g.Denotes net.firstSymbol net.lastSymbol e w) : net.Reads (entry, σ) w (exit, σ) := by
  have hmem : t exit ∈ net.inner entry := by rw [hentry]; exact List.mem_singleton_self _
  rcases hleaf.of_denotes hw with ⟨v, rfl, hacc⟩ | ⟨rfl, hon⟩
  · have hstop := not_isStop_of_inner (List.ne_nil_of_mem hmem)
    rw [inner_of_not_isStop hstop] at hmem
    refine .eat hstop hmem (by rw [hleaf.accepts_eq]; exact hacc) ?_
    rw [hleaf.target_eq]
    exact .refl _
  · exact .hop (hop_inner hmem (hon exit σ)) (.refl _)

private theorem text_reads (σ : List StateId) {exit : StateId} : ∀ {cs : List Char}
    {s : StateId}, LaidText net.inner s cs exit →
      net.Reads (s, σ) (cs.map fun c => (c.toNat : Symbol)) (exit, σ)
  | [], s, h => by
    rw [show s = exit from h]
    exact .refl _
  | c :: cs, s, ⟨next, hways, hrest⟩ => by
    have hstop := not_isStop_of_inner (q := s) (by rw [hways]; exact List.cons_ne_nil _ _)
    rw [inner_of_not_isStop hstop] at hways
    exact .eat (t := .atom next c.toNat) hstop (by rw [hways]; exact List.mem_singleton_self _)
      (by simp [Transition.accepts]) (text_reads σ hrest)

/-- What is read of an element, of what is left of a sequence, of the alternatives of an element,
and of further rounds of a loop that is run at least once. -/
private structure ReadAs (net : Network) (N : String → Nat → StateId → Prop) (e : Element)
    (w : List Symbol) : Prop where
  lies : ∀ rule entry exit σ, Laid net.inner N rule e entry exit →
    net.Reads (entry, σ) w (exit, σ)
  rest : ∀ es, e = .seq es → ∀ rule before exit σ, LaidRest net.inner N rule before es exit →
    net.Reads (before, σ) w (exit, σ)
  choice : ∀ rule exit targets σ, LaidAlts net.inner N rule exit e.choices targets →
    ∃ target ∈ targets, net.Reads (target, σ) w (exit, σ)
  rounds : ∀ body greedy, e = .star body greedy → ∀ rule entry last back exit targets σ,
    LaidAlts net.inner N rule last body.choices targets →
      net.inner entry = targets.map Transition.epsilon → net.inner last = [.epsilon back] →
        net.inner back = branchWays greedy entry exit → net.Reads (back, σ) w (exit, σ)

/-- An element that is no choice is its own only alternative. -/
private theorem choice_of_lies {e : Element} {w : List Symbol} (hchoices : e.choices = [e])
    (h : ∀ rule entry exit σ, Laid net.inner N rule e entry exit →
      net.Reads (entry, σ) w (exit, σ)) (rule : Nat) (exit : StateId) (targets : List StateId)
    (σ : List StateId) (halts : LaidAlts net.inner N rule exit e.choices targets) :
    ∃ target ∈ targets, net.Reads (target, σ) w (exit, σ) := by
  rw [hchoices] at halts
  obtain ⟨target, ht, last, hlaid, hlast⟩ := halts.exists_of_mem (List.mem_singleton_self e)
  exact ⟨target, ht, (h rule target last σ hlaid).then_epsilon
    (by rw [hlast]; exact List.mem_singleton_self _)⟩

private theorem of_alts {e : Element} {w : List Symbol} {rule : Nat}
    {entry exit : StateId} {targets : List StateId} {σ : List StateId} (h : ReadAs net N e w)
    (halts : LaidAlts net.inner N rule exit e.choices targets)
    (hentry : ∀ target ∈ targets, .epsilon target ∈ net.inner entry) :
    net.Reads (entry, σ) w (exit, σ) := by
  obtain ⟨target, ht, hrun⟩ := h.choice rule exit targets σ halts
  exact .epsilon (hentry target ht) hrun

theorem mem_epsilons {q target : StateId} {targets : List StateId}
    (hq : net.inner q = targets.map Transition.epsilon) (ht : target ∈ targets) :
    .epsilon target ∈ net.inner q := by
  rw [hq]
  exact List.mem_map_of_mem ht

theorem mem_only {q target : StateId} (hq : net.inner q = [.epsilon target]) :
    .epsilon target ∈ net.inner q := by
  rw [hq]
  exact List.mem_singleton_self _

private theorem mem_optionWays {greedy : Bool} {targets : List StateId} {exit target : StateId}
    (ht : target ∈ targets) : Transition.epsilon target ∈ optionWays greedy targets exit := by
  unfold optionWays
  cases greedy <;> simp [ht]

/-- An element that is neither a sequence nor a loop. -/
private theorem ReadAs.of_lies {e : Element} {w : List Symbol} (hchoices : e.choices = [e])
    (hseq : ∀ es, e ≠ .seq es) (hstar : ∀ body greedy, e ≠ .star body greedy)
    (h : ∀ rule entry exit σ, Laid net.inner N rule e entry exit →
      net.Reads (entry, σ) w (exit, σ)) : ReadAs net N e w where
  lies := h
  rest es he := absurd he (hseq es)
  choice := choice_of_lies hchoices h
  rounds body greedy he := absurd he (hstar body greedy)

/-- **What an element stands for is read.** -/
private theorem readAs (hg : g.Renders net N) {e : Element} {w : List Symbol}
    (hw : g.Denotes net.firstSymbol net.lastSymbol e w) : ReadAs net N e w := by
  induction hw with
  | @symbol e v hacc =>
    have hchoices : e.choices = [e] := by
      unfold Element.choices
      split
      · cases hacc
      · rfl
    refine .of_lies hchoices (by rintro es rfl; cases hacc) (by rintro body greedy rfl; cases hacc)
      fun rule entry exit σ hlaid => ?_
    cases hlaid with
    | leaf hleaf hentry => exact leaf_reads (g := g) hleaf hentry σ (.symbol hacc)
    | _ => cases hacc
  | @silent e hsilent =>
    have hchoices : e.choices = [e] := by
      unfold Element.choices
      split
      · cases hsilent
      · rfl
    refine .of_lies hchoices (by rintro es rfl; cases hsilent)
      (by rintro body greedy rfl; cases hsilent) fun rule entry exit σ hlaid => ?_
    cases hlaid with
    | leaf hleaf hentry => exact leaf_reads (g := g) hleaf hentry σ (.silent hsilent)
    | _ => cases hsilent
  | literal text =>
    refine .of_lies rfl nofun nofun fun rule entry exit σ hlaid => ?_
    cases hlaid with
    | leaf hleaf hentry => exact leaf_reads (g := g) hleaf hentry σ (.literal text)
    | text _ htext => exact text_reads σ htext
  | @ruleRef r level w hr _ ih =>
    refine .of_lies rfl nofun nofun fun rule entry exit σ hlaid => ?_
    cases hlaid with
    | leaf hleaf => cases hleaf
    | @call _ _ callee start _ _ hn hentry =>
      obtain ⟨r', hr', hname, rfl⟩ := hg.names hn
      obtain rfl := hg.names_inj r' (List.mem_of_getElem? hr') r hr hname
      obtain ⟨first, last, hstart, hbody, hlast⟩ := hg.body hr'
      have hlt := (List.getElem?_eq_some_iff.mp hr').1
      have hcall : net.Hop true false (entry, σ) (g.startState callee, exit :: σ) :=
        hop_inner (t := .rule (g.startState callee) callee exit level)
          (by rw [hentry]; exact List.mem_singleton_self _) rfl
      have hrun := ih.lies callee first last (exit :: σ) hbody
      have hback : net.Hop true false (g.stopState callee, exit :: σ) (exit, σ) :=
        .back (hg.isStop hlt)
      have := (hrun.then_epsilon (mem_only hlast)).trans (.hop hback (.refl _))
      rw [List.append_nil] at this
      exact .hop hcall (.epsilon (mem_only hstart) this)
  | seq_nil =>
    have hlies : ∀ rule entry exit σ, Laid net.inner N rule (.seq []) entry exit →
        net.Reads (entry, σ) [] (exit, σ) := by
      intro rule entry exit σ hlaid
      cases hlaid with
      | leaf hleaf hentry => exact leaf_reads (g := g) hleaf hentry σ .seq_nil
    refine ⟨hlies, ?_, choice_of_lies rfl hlies, nofun⟩
    rintro es hes rule before exit σ hrest
    cases hes
    cases hrest
    exact .refl _
  | @seq_cons e es u w _ _ ih₁ ih₂ =>
    have hlies : ∀ rule entry exit σ, Laid net.inner N rule (.seq (e :: es)) entry exit →
        net.Reads (entry, σ) (u ++ w) (exit, σ) := by
      intro rule entry exit σ hlaid
      cases hlaid with
      | leaf hleaf => cases hleaf
      | seq hfirst hrest =>
        exact (ih₁.lies _ _ _ σ hfirst).trans (ih₂.rest es rfl _ _ _ σ hrest)
    refine ⟨hlies, ?_, choice_of_lies rfl hlies, nofun⟩
    rintro es' hes rule before exit σ hrest
    cases hes
    cases hrest with
    | cons hbefore hfirst hrest =>
      exact .epsilon (mem_only hbefore)
        ((ih₁.lies _ _ _ σ hfirst).trans (ih₂.rest es rfl _ _ _ σ hrest))
  | alt_nil =>
    refine .of_lies rfl nofun nofun fun rule entry exit σ hlaid => ?_
    cases hlaid with
    | leaf hleaf hentry => exact leaf_reads (g := g) hleaf hentry σ .alt_nil
    | alt hne => exact absurd rfl hne
  | @alt e es w he _ ih =>
    have hchoice : ∀ rule exit targets σ, LaidAlts net.inner N rule exit es targets →
        ∃ target ∈ targets, net.Reads (target, σ) w (exit, σ) := by
      intro rule exit targets σ halts
      obtain ⟨target, ht, last, hlaid, hlast⟩ := halts.exists_of_mem he
      exact ⟨target, ht, (ih.lies _ _ _ σ hlaid).then_epsilon (mem_only hlast)⟩
    refine ⟨fun rule entry exit σ hlaid => ?_, nofun, fun rule exit targets σ halts => ?_, nofun⟩
    · cases hlaid with
      | leaf hleaf => cases hleaf; cases he
      | only hlaid =>
        obtain rfl := List.mem_singleton.mp he
        exact ih.lies _ _ _ σ hlaid
      | alt _ halts hentry =>
        obtain ⟨target, ht, hrun⟩ := hchoice rule exit _ σ halts
        exact .epsilon (mem_epsilons hentry ht) hrun
    · cases es with
      | nil => cases he
      | cons e' rest => exact hchoice rule exit targets σ halts
  | skip =>
    refine .of_lies rfl nofun nofun fun rule entry exit σ hlaid => ?_
    cases hlaid with
    | leaf hleaf => cases hleaf
    | optional _ hentry =>
      refine .epsilon (p := exit) ?_ (.refl _)
      rw [hentry]
      unfold optionWays
      split <;> simp
  | optional _ ih =>
    refine .of_lies rfl nofun nofun fun rule entry exit σ hlaid => ?_
    cases hlaid with
    | leaf hleaf => cases hleaf
    | optional halts hentry =>
      exact of_alts ih halts fun target ht => by rw [hentry]; exact mem_optionWays ht
  | @star_nil e greedy =>
    have hlies : ∀ rule entry exit σ, Laid net.inner N rule (.star e greedy) entry exit →
        net.Reads (entry, σ) [] (exit, σ) := by
      intro rule entry exit σ hlaid
      cases hlaid with
      | leaf hleaf => cases hleaf
      | star _ _ _ _ hentry =>
        exact .epsilon (by rw [hentry]; exact mem_branchWays_exit _ _ _) (.refl _)
    refine ⟨hlies, nofun, choice_of_lies rfl hlies, ?_⟩
    rintro body greedy' he rule entry last back exit targets σ _ _ _ hback
    exact .epsilon (by rw [hback]; exact mem_branchWays_exit _ _ _) (.refl _)
  | @star_cons e greedy u w _ _ ih₁ ih₂ =>
    have hlies : ∀ rule entry exit σ, Laid net.inner N rule (.star e greedy) entry exit →
        net.Reads (entry, σ) (u ++ w) (exit, σ) := by
      intro rule entry exit σ hlaid
      cases hlaid with
      | leaf hleaf => cases hleaf
      | star halts hfirst hlast hback hentry =>
        have hround := of_alts (σ := σ) ih₁ halts fun target ht => mem_epsilons hfirst ht
        have hagain := ih₂.lies _ _ _ σ (.star halts hfirst hlast hback hentry)
        exact .epsilon (by rw [hentry]; exact mem_branchWays_block _ _ _)
          (((hround.then_epsilon (mem_only hlast)).then_epsilon (mem_only hback)).trans hagain)
    refine ⟨hlies, nofun, choice_of_lies rfl hlies, ?_⟩
    rintro body greedy' he rule entry last back exit targets σ halts hentry hlast hback
    obtain ⟨rfl, rfl⟩ := Element.star.inj he
    have hround := of_alts (σ := σ) ih₁ halts fun target ht => mem_epsilons hentry ht
    exact .epsilon (by rw [hback]; exact mem_branchWays_block _ _ _)
      ((hround.then_epsilon (mem_only hlast)).trans
        (ih₂.rounds _ _ rfl rule entry last back exit targets σ halts hentry hlast hback))
  | plus _ _ ih₁ ih₂ =>
    refine .of_lies rfl nofun nofun fun rule entry exit σ hlaid => ?_
    cases hlaid with
    | leaf hleaf => cases hleaf
    | @plus _ _ _ _ last back targets halts hentry hlast hback =>
      have hround := of_alts (σ := σ) ih₁ halts fun target ht => mem_epsilons hentry ht
      exact (hround.then_epsilon (mem_only hlast)).trans
        (ih₂.rounds _ _ rfl rule entry last back exit targets σ halts hentry hlast hback)

/-- **What an element stands for is read** where it lies. -/
theorem reads_of_denotes (hg : g.Renders net N) {e : Element} {w : List Symbol}
    (hw : g.Denotes net.firstSymbol net.lastSymbol e w) {rule : Nat} {entry exit : StateId}
    (hlaid : Laid net.inner N rule e entry exit) (σ : List StateId) :
    net.Reads (entry, σ) w (exit, σ) :=
  (readAs hg hw).lies rule entry exit σ hlaid

/-! ## What is read are words of elements -/

/-- **Runs of some length that enter the element come out at its exit,** and have read a word of it.
The run is on its way to the end of the outermost rule. -/
private def Passes (g : Grammar) (net : Network) (N : String → Nat → StateId → Prop) (n : Nat)
    (e : Element) : Prop :=
  ∀ {rule entry exit σ w s}, net.isStop s = true → Laid net.inner N rule e entry exit →
    net.Runs n (entry, σ) w (s, []) → ∃ m ≤ n, ∃ u v, w = u ++ v ∧
      g.Denotes net.firstSymbol net.lastSymbol e u ∧ net.Runs m (exit, σ) v (s, [])

private theorem Runs.first_optionWays {n : Nat} {q s exit : StateId} {σ : List StateId}
    {w : List Symbol} {greedy : Bool} {targets : List StateId} (h : net.Runs n (q, σ) w (s, []))
    (hs : net.isStop s = true) (hq : net.inner q = optionWays greedy targets exit) :
    ∃ m < n, ∃ p, (p ∈ targets ∨ p = exit) ∧ net.Runs m (p, σ) w (s, []) := by
  have hways : net.inner q = (if greedy then targets ++ [exit] else exit :: targets).map
      Transition.epsilon := by
    rw [hq, optionWays]
    split <;> simp
  obtain ⟨m, hm, p, hp, hrun⟩ := h.first_epsilon hs hways (by split <;> simp)
  refine ⟨m, hm, p, ?_, hrun⟩
  split at hp <;> simp at hp <;> tauto

private theorem Runs.first_branchWays {n : Nat} {q s block exit : StateId} {σ : List StateId}
    {w : List Symbol} {greedy : Bool} (h : net.Runs n (q, σ) w (s, [])) (hs : net.isStop s = true)
    (hq : net.inner q = branchWays greedy block exit) :
    ∃ m < n, ∃ p, (p = block ∨ p = exit) ∧ net.Runs m (p, σ) w (s, []) := by
  have hways : net.inner q = (if greedy then [block, exit] else [exit, block]).map
      Transition.epsilon := by
    rw [hq, branchWays]
    split <;> simp
  obtain ⟨m, hm, p, hp, hrun⟩ := h.first_epsilon hs hways (by split <;> simp)
  refine ⟨m, hm, p, ?_, hrun⟩
  split at hp <;> simp at hp <;> tauto

private theorem Runs.only {n : Nat} {q p s : StateId} {σ : List StateId} {w : List Symbol}
    (h : net.Runs n (q, σ) w (s, [])) (hs : net.isStop s = true)
    (hq : net.inner q = [.epsilon p]) : ∃ m < n, net.Runs m (p, σ) w (s, []) := by
  obtain ⟨m, hm, p', hp', hrun⟩ :=
    h.first_epsilon hs (show net.inner q = [p].map .epsilon from hq) (List.cons_ne_nil _ _)
  exact ⟨m, hm, List.mem_singleton.mp hp' ▸ hrun⟩

/-- A run that enters one of several alternatives comes out behind them. -/
private theorem alts_pass {n : Nat} {es : List Element} {rule : Nat} {exit s : StateId}
    {targets : List StateId} (hes : ∀ e ∈ es, Passes g net N n e) (hs : net.isStop s = true)
    (halts : LaidAlts net.inner N rule exit es targets) {target : StateId}
    (ht : target ∈ targets) {σ : List StateId} {w : List Symbol}
    (h : net.Runs n (target, σ) w (s, [])) : ∃ m ≤ n, ∃ u v, w = u ++ v ∧
      (∃ e ∈ es, g.Denotes net.firstSymbol net.lastSymbol e u) ∧
        net.Runs m (exit, σ) v (s, []) := by
  induction targets generalizing es with
  | nil => cases ht
  | cons target' targets ih =>
    cases halts with
    | @cons e es _ last _ _ hlaid hlast hrest =>
      rcases List.mem_cons.mp ht with rfl | ht
      · obtain ⟨m, hm, u, v, rfl, hu, hrun⟩ := hes e (List.mem_cons_self ..) hs hlaid h
        obtain ⟨m', hm', hrun'⟩ := hrun.only hs hlast
        exact ⟨m', Nat.le_trans (Nat.le_of_lt hm') hm, u, v, rfl, ⟨e, List.mem_cons_self .., hu⟩,
          hrun'⟩
      · obtain ⟨m, hm, u, v, hw, ⟨e', he', hu⟩, hrun⟩ :=
          ih (fun e' he' => hes e' (List.mem_cons_of_mem _ he')) hrest ht
        exact ⟨m, hm, u, v, hw, ⟨e', List.mem_cons_of_mem _ he', hu⟩, hrun⟩

/-- A run through what is left of a sequence comes out at its end. -/
private theorem rest_pass {es : List Element} {n : Nat} {rule : Nat} {before exit s : StateId}
    (hes : ∀ e ∈ es, ∀ m ≤ n, Passes g net N m e) (hs : net.isStop s = true)
    (hrest : LaidRest net.inner N rule before es exit) {σ : List StateId} {w : List Symbol}
    (h : net.Runs n (before, σ) w (s, [])) : ∃ m ≤ n, ∃ u v, w = u ++ v ∧
      g.Denotes net.firstSymbol net.lastSymbol (.seq es) u ∧ net.Runs m (exit, σ) v (s, []) := by
  induction es generalizing n before w with
  | nil =>
    cases hrest
    exact ⟨n, Nat.le_refl n, [], w, rfl, .seq_nil, h⟩
  | cons e es ih =>
    cases hrest with
    | cons hbefore hlaid hrest =>
      obtain ⟨n₁, hn₁, hrun₁⟩ := h.only hs hbefore
      obtain ⟨n₂, hn₂, u, v, rfl, hu, hrun₂⟩ :=
        hes e (List.mem_cons_self ..) n₁ (Nat.le_of_lt hn₁) hs hlaid hrun₁
      have hle : n₂ ≤ n := Nat.le_trans hn₂ (Nat.le_of_lt hn₁)
      obtain ⟨m, hm, u', v', rfl, hu', hrun⟩ := ih
        (fun e' he' m hm => hes e' (List.mem_cons_of_mem _ he') m (Nat.le_trans hm hle)) hrest hrun₂
      exact ⟨m, Nat.le_trans hm hle, u ++ u', v', (List.append_assoc ..).symm, .seq_cons hu hu',
        hrun⟩

private theorem text_pass {s exit : StateId} {σ : List StateId} (hs : net.isStop s = true) :
    ∀ {cs : List Char} {q : StateId} {n : Nat} {w : List Symbol}, LaidText net.inner q cs exit →
      net.Runs n (q, σ) w (s, []) → ∃ m ≤ n, ∃ v,
        w = (cs.map fun c => (c.toNat : Symbol)) ++ v ∧ net.Runs m (exit, σ) v (s, [])
  | [], q, n, w, hlaid, h => by
    rw [show q = exit from hlaid] at h
    exact ⟨n, Nat.le_refl n, w, rfl, h⟩
  | c :: cs, q, n, w, ⟨next, hways, hrest⟩, h => by
    obtain ⟨m, rfl, t, ht, hstep⟩ := h.first hs (by rw [hways]; exact List.cons_ne_nil _ _)
    rw [hways, List.mem_singleton] at ht
    subst ht
    rcases hstep with ⟨c', hon, -⟩ | ⟨v, w', rfl, hacc, hrun⟩
    · cases hon
    · obtain ⟨m', hm', v', rfl, hrun'⟩ := text_pass hs hrest hrun
      have hv : (c.toNat : Symbol) = v := by simpa [Transition.accepts] using hacc
      exact ⟨m', Nat.le_succ_of_le hm', v', by rw [← hv]; rfl, hrun'⟩

private theorem leaf_passes {n : Nat} {rule : Nat} {e : Element} {t : StateId → Transition}
    {entry exit s : StateId} {σ : List StateId} {w : List Symbol} (hleaf : e.Leaf rule t)
    (hentry : net.inner entry = [t exit]) (hs : net.isStop s = true)
    (h : net.Runs n (entry, σ) w (s, [])) : ∃ m ≤ n, ∃ u v, w = u ++ v ∧
      g.Denotes net.firstSymbol net.lastSymbol e u ∧ net.Runs m (exit, σ) v (s, []) := by
  obtain ⟨m, rfl, t', ht, hstep⟩ := h.first hs (by rw [hentry]; exact List.cons_ne_nil _ _)
  rw [hentry, List.mem_singleton] at ht
  subst ht
  rcases hstep with ⟨c, hon, hrun⟩ | ⟨v, w', rfl, hacc, hrun⟩
  · obtain ⟨rfl, hnil⟩ : c = (exit, σ) ∧ g.Denotes net.firstSymbol net.lastSymbol e [] :=
      hleaf.denotes_nil hon
    exact ⟨m, Nat.le_succ m, [], w, rfl, hnil, hrun⟩
  · rw [hleaf.target_eq] at hrun
    rw [hleaf.accepts_eq] at hacc
    exact ⟨m, Nat.le_succ m, [v], w', rfl, .symbol hacc, hrun⟩

/-- Shorter runs, and runs of the same length through smaller elements, are enough. -/
private theorem passes_step (hg : g.Renders net N) {n : Nat} {e : Element}
    (hn : ∀ m < n, ∀ e, Passes g net N m e) (he : ∀ e', sizeOf e' < sizeOf e → Passes g net N n e') :
    Passes g net N n e := by
  have hle : ∀ e', sizeOf e' < sizeOf e → ∀ m ≤ n, Passes g net N m e' := by
    intro e' hlt m hm
    rcases Nat.lt_or_eq_of_le hm with hm | rfl
    · exact hn m hm e'
    · exact he e' hlt
  intro rule entry exit σ w s hs hlaid h
  cases hlaid with
  | leaf hleaf hentry => exact leaf_passes hleaf hentry hs h
  | @text text _ _ _ htext =>
    obtain ⟨m, hm, v, rfl, hrun⟩ := text_pass hs htext h
    exact ⟨m, hm, _, v, rfl, .literal text, hrun⟩
  | @call name level callee start _ _ hname hentry =>
    obtain ⟨r, hr, rfl, rfl⟩ := hg.names hname
    obtain ⟨first, last, hstart, hbody, hlast⟩ := hg.body hr
    have hlt := (List.getElem?_eq_some_iff.mp hr).1
    obtain ⟨n₁, rfl, t, ht, hstep⟩ := h.first hs (by rw [hentry]; exact List.cons_ne_nil _ _)
    rw [hentry, List.mem_singleton] at ht
    subst ht
    rcases hstep with ⟨c, hon, hrun⟩ | ⟨v, w', -, hacc, -⟩
    · cases hon
      obtain ⟨n₂, hn₂, hrun₂⟩ := hrun.only hs hstart
      obtain ⟨n₃, hn₃, u, v, rfl, hu, hrun₃⟩ := hn n₂ (by omega) r.body hs hbody hrun₂
      obtain ⟨n₄, hn₄, hrun₄⟩ := hrun₃.only hs hlast
      -- The run is above the place of the call, so it goes on there.
      cases hrun₄ with
      | hop hhop hrun₅ =>
        rcases hhop.along_or_back with ⟨hstop, -⟩ | ⟨-, heq⟩
        · rw [hg.isStop hlt] at hstop; cases hstop
        · obtain ⟨rfl, rfl⟩ := List.cons.inj heq
          exact ⟨_, by omega, u, v, rfl, .ruleRef (List.mem_of_getElem? hr) hu, hrun₅⟩
      | eat hstop => rw [hg.isStop hlt] at hstop; cases hstop
    · cases hacc
  | @seq e rest _ next _ hfirst hrest =>
    obtain ⟨n₁, hn₁, u, v, rfl, hu, hrun₁⟩ :=
      he e (Element.sizeOf_lt_of_mem_seq List.mem_cons_self) hs hfirst h
    obtain ⟨m, hm, u', v', rfl, hu', hrun⟩ := rest_pass (fun e' he' m hm => hle e'
      (Element.sizeOf_lt_of_mem_seq (List.mem_cons_of_mem _ he')) m (Nat.le_trans hm hn₁)) hs hrest
      hrun₁
    exact ⟨m, Nat.le_trans hm hn₁, u ++ u', v', (List.append_assoc ..).symm, .seq_cons hu hu', hrun⟩
  | only hlaid =>
    obtain ⟨m, hm, u, v, rfl, hu, hrun⟩ :=
      he _ (Element.sizeOf_lt_of_mem_alt List.mem_cons_self) hs hlaid h
    exact ⟨m, hm, u, v, rfl, .alt (List.mem_singleton_self _) hu, hrun⟩
  | @alt es _ _ targets hne halts hentry =>
    obtain ⟨n₁, hn₁, target, ht, hrun₁⟩ := h.first_epsilon hs hentry (halts.targets_ne_nil hne)
    obtain ⟨m, hm, u, v, rfl, ⟨e', he', hu⟩, hrun⟩ :=
      alts_pass (fun e' _ => hn n₁ hn₁ e') hs halts ht hrun₁
    exact ⟨m, by omega, u, v, rfl, .alt he' hu, hrun⟩
  | @optional body greedy _ _ targets halts hentry =>
    obtain ⟨n₁, hn₁, target, ht, hrun₁⟩ := h.first_optionWays hs hentry
    rcases ht with ht | rfl
    · obtain ⟨m, hm, u, v, rfl, ⟨e', he', hu⟩, hrun⟩ :=
        alts_pass (fun e' _ => hn n₁ hn₁ e') hs halts ht hrun₁
      exact ⟨m, by omega, u, v, rfl, .optional (.of_mem_choices he' hu), hrun⟩
    · exact ⟨n₁, by omega, [], w, rfl, .skip, hrun₁⟩
  | @star body greedy _ _ first last back targets halts hfirst hlast hback hentry =>
    obtain ⟨n₁, hn₁, target, ht, hrun₁⟩ := h.first_branchWays hs hentry
    rcases ht with rfl | rfl
    · obtain ⟨n₂, hn₂, target, ht, hrun₂⟩ :=
        hrun₁.first_epsilon hs hfirst (halts.targets_ne_nil body.choices_ne_nil)
      obtain ⟨n₃, hn₃, u, v, rfl, ⟨e', he', hu⟩, hrun₃⟩ :=
        alts_pass (fun e' _ => hn n₂ (by omega) e') hs halts ht hrun₂
      obtain ⟨n₄, hn₄, hrun₄⟩ := hrun₃.only hs hlast
      obtain ⟨n₅, hn₅, hrun₅⟩ := hrun₄.only hs hback
      obtain ⟨m, hm, u', v', rfl, hu', hrun⟩ :=
        hn n₅ (by omega) _ hs (.star halts hfirst hlast hback hentry) hrun₅
      exact ⟨m, by omega, u ++ u', v', (List.append_assoc ..).symm,
        .star_cons (.of_mem_choices he' hu) hu', hrun⟩
    · exact ⟨n₁, by omega, [], w, rfl, .star_nil, hrun₁⟩
  | @plus body greedy _ _ last back targets halts hentry hlast hback =>
    obtain ⟨n₁, hn₁, target, ht, hrun₁⟩ :=
      h.first_epsilon hs hentry (halts.targets_ne_nil body.choices_ne_nil)
    obtain ⟨n₂, hn₂, u, v, rfl, ⟨e', he', hu⟩, hrun₂⟩ :=
      alts_pass (fun e' _ => hn n₁ hn₁ e') hs halts ht hrun₁
    obtain ⟨n₃, hn₃, hrun₃⟩ := hrun₂.only hs hlast
    obtain ⟨n₄, hn₄, target', ht', hrun₄⟩ := hrun₃.first_branchWays hs hback
    rcases ht' with rfl | rfl
    · -- Another round is a run through the same loop.
      obtain ⟨m, hm, u', v', rfl, hu', hrun⟩ :=
        hn n₄ (by omega) _ hs (.plus halts hentry hlast hback) hrun₄
      refine ⟨m, by omega, u ++ u', v', (List.append_assoc ..).symm,
        .plus (.of_mem_choices he' hu) ?_, hrun⟩
      cases hu' with
      | symbol hacc => cases hacc
      | silent hsilent => cases hsilent
      | plus h₁ h₂ => exact .star_cons h₁ h₂
    · refine ⟨n₄, by omega, u, v, rfl, ?_, hrun₄⟩
      have hone : g.Denotes net.firstSymbol net.lastSymbol (.plus body greedy) (u ++ []) :=
        .plus (.of_mem_choices he' hu) .star_nil
      rwa [List.append_nil] at hone

/-- **What is read on the way through an element is a word of it.** -/
private theorem passes (hg : g.Renders net N) (n : Nat) (e : Element) : Passes g net N n e := by
  induction n using Nat.strong_induction_on generalizing e with
  | _ n hn =>
    induction hsize : sizeOf e using Nat.strong_induction_on generalizing e with
    | _ k he => exact passes_step hg hn fun e' hlt => he (sizeOf e') (hsize ▸ hlt) e' rfl

end Network

/-! ## Rules -/

/-- A run that is at the end of the outermost rule is over. -/
private theorem Network.Runs.at_end {n : Nat} {s : StateId} {w : List Symbol} {c : Stand}
    (h : net.Runs n (s, []) w c) (hs : net.isStop s = true) : w = [] ∧ c = (s, []) := by
  cases h with
  | refl => exact ⟨rfl, rfl⟩
  | hop hhop =>
    rcases hhop.along_or_back with ⟨hstop, -⟩ | ⟨-, heq⟩
    · rw [hs] at hstop; cases hstop
    · cases heq
  | eat hstop => rw [hs] at hstop; cases hstop

namespace Grammar

/-- A run through a rule that has come to an end, under no calls, has come to the end of the rule, and
has read a word of its body. -/
theorem Built.of_reads {modeStarts : List StateId} {d : Draft} (h : g.Built net modeStarts d)
    {i : Nat} {r : Rule} (hr : g.rules[i]? = some r) {w : List Symbol} {s : StateId}
    (hs : net.isStop s = true) (hreads : net.Reads (g.startState i, []) w (s, [])) :
    s = g.stopState i ∧ g.Denotes net.firstSymbol net.lastSymbol r.body w := by
  have hstop := h.isStop_stop (List.getElem?_eq_some_iff.mp hr).1
  obtain ⟨first, last, hstart, hbody, hlast⟩ := h.renders.body hr
  obtain ⟨n, hrun⟩ := hreads.exists_runs
  obtain ⟨n₁, -, hrun₁⟩ := hrun.only hs hstart
  obtain ⟨n₂, -, u, v, rfl, hu, hrun₂⟩ := Network.passes h.renders n₁ r.body hs hbody hrun₁
  obtain ⟨n₃, -, hrun₃⟩ := hrun₂.only hs hlast
  obtain ⟨rfl, hend⟩ := hrun₃.at_end hstop
  rw [List.append_nil]
  exact ⟨congrArg Prod.fst hend, hu⟩

/-- **The run through a rule reads the words of its body.** -/
theorem Built.reads_iff {modeStarts : List StateId} {d : Draft} (h : g.Built net modeStarts d)
    {i : Nat} {r : Rule} (hr : g.rules[i]? = some r) {w : List Symbol} :
    net.Reads (g.startState i, []) w (g.stopState i, []) ↔
      g.Denotes net.firstSymbol net.lastSymbol r.body w := by
  obtain ⟨first, last, hstart, hbody, hlast⟩ := h.renders.body hr
  constructor
  · exact fun hreads => (h.of_reads hr (h.isStop_stop (List.getElem?_eq_some_iff.mp hr).1) hreads).2
  · intro hw
    have hreads := (Network.readAs h.renders hw).lies i first last [] hbody
    exact .epsilon (Network.mem_only hstart) (hreads.then_epsilon (Network.mem_only hlast))

/-- **Compiling preserves the language.** Every rule of a grammar that compiles has a start and an
end in the network, and the runs between them read exactly the words its body stands for. -/
theorem compile_preserves_language (h : g.compile = .ok net) {i : Nat} {r : Rule}
    (hr : g.rules[i]? = some r) :
    ∃ start stop, net.ruleStarts[i]? = some start ∧ net.ruleStops[i]? = some stop ∧
      ∀ w, net.Reads (start, []) w (stop, []) ↔
        g.Denotes net.firstSymbol net.lastSymbol r.body w := by
  obtain ⟨modeStarts, d, hbuilt⟩ := exists_built h
  have hlt := (List.getElem?_eq_some_iff.mp hr).1
  exact ⟨g.startState i, g.stopState i, hbuilt.start_iff.mpr ⟨hlt, rfl⟩,
    hbuilt.stop_iff.mpr ⟨hlt, rfl⟩, fun w => hbuilt.reads_iff hr⟩

/-- Nested pairs of parentheses, up to the end of the input. -/
def nested : Grammar where
  kind := .parser
  name := "nested"
  tokenNames := ["<INVALID>", "LPAREN", "RPAREN"]
  rules :=
    [⟨"text", .seq [.ruleRef "pairs" 0, .token Symbol.eof], none, 0⟩,
      ⟨"pairs", .star (.seq [.token 1, .ruleRef "pairs" 0, .token 2]) true, none, 0⟩]

theorem exists_nested : ∃ net, nested.compile = .ok net := by
  have hok : nested.compile.isOk = true := by decide +kernel
  cases h : nested.compile with
  | ok net => exact ⟨net, rfl⟩
  | error e => rw [h] at hok; cases hok

theorem nested_preserves_language : ∃ net, nested.compile = .ok net ∧
    ∃ start stop, net.ruleStarts[1]? = some start ∧ net.ruleStops[1]? = some stop ∧
      ∀ w, net.Reads (start, []) w (stop, []) ↔ nested.Denotes net.firstSymbol net.lastSymbol
        (.star (.seq [.token 1, .ruleRef "pairs" 0, .token 2]) true) w := by
  obtain ⟨net, h⟩ := exists_nested
  exact ⟨net, h, compile_preserves_language h (i := 1) rfl⟩

end Grammar

end AdaptiveLL
