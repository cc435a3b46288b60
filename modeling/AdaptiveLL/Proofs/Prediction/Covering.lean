import AdaptiveLL.Proofs.Grammar.Progress
import AdaptiveLL.Proofs.Prediction.Opening

/-!
# What the table covers

Without the call stack a prediction follows more threads than with it. Its threads *cover* those
with the call stack: where one of these can consume a symbol, a thread of the same alternative
shadows it. Every symbol before the end of the input preserves that, as long as several alternatives
are left. So if one alternative alone is left without the call stack, no other one is left with it.

This needs that threads do not get stuck. Otherwise an alternative could be lost in the closure of
the one prediction, while the other one has left that closure to its next step.
-/

namespace AdaptiveLL

namespace Network

/-- **The network is sealed** by the rule `top`, which begins at `start` and ends at `stop`: the
runs from there stay fine, short of matching the end of the input. -/
structure Sealed (net : Network) (top : Nat) (start stop : StateId) : Prop where
  orderly : net.Orderly
  closed : net.Closed top stop
  parser : net.isLexer = false
  start_rule : (net.state start).rule = top
  fine : ∀ c, net.Comes (start, []) c → net.Fine c

variable {net : Network} {top : Nat} {start stop entry : StateId} {T F : Set Thread} {v : Symbol}
  {c d : Stand} {σ : List StateId}

theorem Comes.linked (hnet : net.Orderly) (hc : net.Linked top c.1 c.2) (h : net.Comes c d) :
    net.Linked top d.1 d.2 := by
  obtain ⟨n, hrun⟩ := h
  induction hrun with
  | refl => exact hc
  | hop hhop _ ih => exact ih (Linked.hop hnet hc hhop)
  | @eat n q σ t v lo hi e ht hacc _ _ ih =>
    have hq := not_isStop_of_inner (List.ne_nil_of_mem ht)
    exact ih (Linked.eat hnet hc hq (inner_of_not_isStop hq ▸ ht) hacc)

theorem Sealed.linked (hnet : net.Sealed top start stop) (h : net.Comes (start, []) c) :
    net.Linked top c.1 c.2 :=
  h.linked hnet.orderly (.base hnet.start_rule)

/-- **The threads `T` cover the threads `F`,** which have exact stacks and do not stand at the end
of a rule. -/
structure Covers (net : Network) (start : StateId) (T F : Set Thread) : Prop where
  comes : ∀ u ∈ F, net.Comes (start, []) u.2
  inner : ∀ u ∈ F, net.isStop u.2.1 = false
  shadowed : ∀ u ∈ F, (net.state u.2.1).onlyEpsilon = false →
    ∃ t ∈ T, t.1.1 = u.1.1 ∧ Shadows false t.2 u.2

/-- The threads `T` speak for all alternatives that the threads `F` speak for. -/
def Outspeaks (T F : Set Thread) : Prop := ∀ u ∈ F, ∃ t ∈ T, t.1.1 = u.1.1

theorem Outspeaks.of_speaks {a : Nat} (h : Outspeaks T F) (hT : Speaks T a) :
    ∀ u ∈ F, u.1.1 = a := by
  intro u hu
  obtain ⟨t, ht, halt⟩ := h u hu
  exact halt.symm.trans (hT.2 t ht)

/-! ## Closures -/

/-- Each of the threads has a shadow of the same alternative. -/
private def Shadowed (T F : Set Thread) : Prop :=
  ∀ u ∈ F, ∃ t ∈ T, t.1.1 = u.1.1 ∧ Shadows false t.2 u.2

private theorem Shadowed.trim (h : Shadowed T F) : Shadowed (AdaptiveLL.trim true T) F := by
  intro u hu
  obtain ⟨t, ht, halt, hshadow⟩ := h u hu
  obtain ⟨t', ht', htag, hshadow'⟩ := exists_shadow ht hshadow
  exact ⟨t', ht', htag ▸ halt, hshadow'⟩

/-- Where a run comes to rests only what can consume a symbol. -/
private theorem rests_inner (hnet : net.Sealed top start stop) (hd : net.Comes (start, []) d)
    (hrests : net.Rests true d) :
    net.isStop d.1 = false ∧ (net.state d.1).onlyEpsilon = false := by
  unfold Rests at hrests
  split at hrests
  · next hstop => exact absurd hrests.1 ((hnet.fine d hd).unended hstop)
  · next hstop => exact ⟨Bool.eq_false_of_not_eq_true hstop, hrests⟩

/-- A shadow of a stand that can consume a symbol rests in a closure. -/
private theorem rests_of_shadows {s : Stand} (hs : Shadows false s d)
    (hstop : net.isStop d.1 = false) (honly : (net.state d.1).onlyEpsilon = false) :
    net.Rests false s := by
  unfold Rests
  rw [hs.1, hstop]
  exact honly

/-- **The closure of shadows covers** what the threads lead to. -/
private theorem Shadowed.closed (hnet : net.Sealed top start stop) {U : Set Thread}
    (hF : ∀ u ∈ F, net.Comes (start, []) u.2) (h : Shadowed T F)
    (hU : ∀ u ∈ U, net.isStop u.2.1 = false ∧ ∃ m ∈ F, m.1 = u.1 ∧
      Relation.ReflTransGen (net.Hop true false) m.2 u.2) :
    net.Covers start (AdaptiveLL.trim true (net.closureOf { full := false } T)) U := by
  refine ⟨fun u hu => ?_, fun u hu => (hU u hu).1, fun u hu honly => ?_⟩
  · obtain ⟨-, m, hm, -, hhops⟩ := hU u hu
    exact (hF m hm).hops hhops
  · obtain ⟨hstop, m, hm, htag, hhops⟩ := hU u hu
    obtain ⟨t, ht, halt, hshadow⟩ := h m hm
    obtain ⟨s, hs, hrun⟩ := hshadow.hops hnet.orderly (hnet.linked (hF m hm)) hhops
    have hmem : (t.1, s) ∈ net.closureOf { full := false } T :=
      ⟨⟨t.2, ht, hrun⟩, rests_of_shadows hs hstop honly⟩
    obtain ⟨t', ht', htag', hshadow'⟩ := exists_shadow hmem hs
    exact ⟨t', ht', by rw [htag', halt, htag], hshadow'⟩

/-- The closure of shadows speaks for every alternative, since no thread gets stuck. -/
private theorem Shadowed.outspeaks (hnet : net.Sealed top start stop)
    (hF : ∀ u ∈ F, net.Comes (start, []) u.2) (h : Shadowed T F) :
    Outspeaks (AdaptiveLL.trim true (net.closureOf { full := false } T)) F := by
  intro u hu
  obtain ⟨d, hhops, hrests⟩ := (hnet.fine u.2 (hF u hu)).live
  obtain ⟨hstop, honly⟩ := rests_inner hnet ((hF u hu).hops hhops) hrests
  have hcovers := h.closed hnet hF (U := {(u.1, d)}) fun u' hu' => by
    obtain rfl := Set.mem_singleton_iff.mp hu'
    exact ⟨hstop, u, hu, rfl, hhops⟩
  obtain ⟨t, ht, halt, -⟩ := hcovers.shadowed (u.1, d) rfl honly
  exact ⟨t, ht, halt⟩

/-! ## The beginning -/

/-- **At the beginning the threads without the call stack cover those with it.** -/
theorem covers_opening (hnet : net.Sealed top start stop) (hcomes : net.Comes (start, []) (entry, σ))
    (hstop : net.isStop entry = false)
    (hways : ∀ t ∈ (net.state entry).transitions, ∃ p, t = .epsilon p) :
    net.Covers start (net.openingOf entry false []) (net.openingOf entry true σ) := by
  have hstarts : ∀ u ∈ net.startsOf entry σ, net.Comes (start, []) u.2 := by
    rintro u ⟨i, tr, htr, rfl⟩
    have hmem := List.mem_of_getElem? htr
    obtain ⟨p, rfl⟩ := hways tr hmem
    exact hcomes.hop (.along (fun hs => by simp [hstop] at hs) hmem rfl)
  have hshadowed : Shadowed (net.startsOf entry []) (net.startsOf entry σ) := by
    rintro u ⟨i, tr, htr, rfl⟩
    exact ⟨_, ⟨i, tr, htr, rfl⟩, rfl, rfl, σ, rfl, nofun⟩
  unfold openingOf
  rw [Bool.not_true, trim_false]
  refine hshadowed.closed hnet hstarts ?_
  rintro u ⟨⟨c, hc, hhops⟩, hrests⟩
  exact ⟨(rests_inner hnet ((hstarts _ hc).hops hhops) hrests).1, (u.1, c), hc, rfl, hhops⟩

/-! ## One symbol -/

namespace Covers

/-- **What moves on is shadowed** by what moves on without the call stack. -/
private theorem moved (hnet : net.Sealed top start stop) (h : net.Covers start T F)
    (heof : v ≠ Symbol.eof) :
    Shadowed (AdaptiveLL.trim true (net.movedOn v T)) (net.movedOn v F) ∧
      ∀ u ∈ net.movedOn v F, net.Comes (start, []) u.2 ∧ net.isStop u.2.1 = false := by
  refine ⟨Shadowed.trim fun u hu => ?_, fun u hu => ?_⟩
  · obtain ⟨q, tr, hq, hstop, htr, hacc, hp⟩ := hu
    obtain ⟨t, ht, halt, hsame, hbelow⟩ := h.shadowed _ hq (onlyEpsilon_of_accepts htr hacc)
    obtain rfl : t.2.1 = q := hsame
    exact ⟨(t.1, tr.target, t.2.2), ⟨t.2.1, tr, ht, hstop, htr, hacc, rfl⟩, halt, hp.symm, hbelow⟩
  · obtain ⟨q, tr, hq, hstop, htr, hacc, hp⟩ := hu
    have hcomes := h.comes _ hq
    have htr' : tr ∈ net.inner q := by rwa [inner_of_not_isStop hstop]
    have hu : u.2 = (tr.target, u.2.2) := Prod.ext hp rfl
    rw [hu]
    exact ⟨hcomes.eat htr' hacc heof, (hnet.fine _ hcomes).inner tr htr' v _ _ hacc⟩

/-- Nothing waits with exact stacks, since nothing stands at the end of a rule. -/
private theorem waiting_eq (h : net.Covers start T F) : net.waitingOf true v F = ∅ := by
  refine Set.eq_empty_iff_forall_notMem.mpr ?_
  rintro u ⟨⟨hu, hstop⟩, -⟩
  rw [h.inner u hu] at hstop
  cases hstop

/-- What is left with exact stacks comes from what moves on. -/
private theorem of_reach (hnet : net.Sealed top start stop) (h : net.Covers start T F)
    (heof : v ≠ Symbol.eof) {u : Thread} (hu : u ∈ net.reachOf true v F) :
    net.isStop u.2.1 = false ∧ ∃ m ∈ net.movedOn v F, m.1 = u.1 ∧
      Relation.ReflTransGen (net.Hop true false) m.2 u.2 := by
  obtain ⟨-, hmoved⟩ := h.moved hnet heof
  have hclosed : ∀ u ∈ net.closureOf { full := true } (net.movedOn v F),
      net.isStop u.2.1 = false ∧ ∃ m ∈ net.movedOn v F, m.1 = u.1 ∧
        Relation.ReflTransGen (net.Hop true false) m.2 u.2 := by
    rintro u ⟨⟨c, hc, hhops⟩, hrests⟩
    exact ⟨(rests_inner hnet ((hmoved _ hc).1.hops hhops) hrests).1, (u.1, c), hc, rfl, hhops⟩
  rcases reachOf_cases net true F heof with ⟨b, -, heq⟩ | ⟨next, hnext, heq⟩
  · rw [heq, Bool.not_true, trim_false] at hu
    exact ⟨(hmoved u hu).2, u, hu, rfl, .refl⟩
  · rw [Bool.not_true, trim_false, trim_false] at hnext
    have hu : u ∈ next := by
      rcases heq with heq | heq
      · rwa [heq] at hu
      · rwa [heq, Bool.not_true, trim_false, h.waiting_eq, Set.union_empty] at hu
    exact hclosed u (hnext ▸ hu)

/-- What is left without the call stack is what moves on, or its closure. -/
private theorem reach_eq (net : Network) (T : Set Thread) (heof : v ≠ Symbol.eof) :
    (∃ b, Speaks (net.reachOf false v T) b ∧
        net.reachOf false v T = AdaptiveLL.trim true (net.movedOn v T)) ∨
      net.reachOf false v T = AdaptiveLL.trim true
        (net.closureOf { full := false } (AdaptiveLL.trim true (net.movedOn v T))) := by
  have hwaiting : net.waitingOf false v T = ∅ := by
    refine Set.eq_empty_iff_forall_notMem.mpr ?_
    rintro u ⟨-, hfull | hv⟩
    · cases hfull
    · exact heof hv
  rcases reachOf_cases net false T heof with ⟨b, hb, heq⟩ | ⟨next, hnext, heq⟩
  · exact .inl ⟨b, hb, heq⟩
  · refine .inr ?_
    rcases heq with heq | heq
    · rw [heq, hnext]
      rfl
    · rw [heq, hwaiting, Set.union_empty, hnext, Bool.not_false, trim_trim]

/-- **After a symbol before the end** every alternative that is left with the call stack is left
without it. -/
theorem outspeaks (hnet : net.Sealed top start stop) (h : net.Covers start T F)
    (heof : v ≠ Symbol.eof) : Outspeaks (net.reachOf false v T) (net.reachOf true v F) := by
  intro u hu
  obtain ⟨hshadowed, hmoved⟩ := h.moved hnet heof
  obtain ⟨-, m, hm, htag, -⟩ := h.of_reach hnet heof hu
  rw [← htag]
  rcases reach_eq net T heof with ⟨b, -, heq⟩ | heq
  · obtain ⟨t, ht, halt, -⟩ := hshadowed m hm
    exact ⟨t, heq ▸ ht, halt⟩
  · rw [heq]
    exact hshadowed.outspeaks hnet (fun u hu => (hmoved u hu).1) m hm

/-- **A symbol before the end preserves the covering,** unless one alternative alone is left. -/
theorem reach (hnet : net.Sealed top start stop) (h : net.Covers start T F)
    (heof : v ≠ Symbol.eof) (hone : ¬∃ b, Speaks (net.reachOf false v T) b) :
    net.Covers start (net.reachOf false v T) (net.reachOf true v F) := by
  obtain ⟨hshadowed, hmoved⟩ := h.moved hnet heof
  rcases reach_eq net T heof with ⟨b, hb, -⟩ | heq
  · exact absurd ⟨b, hb⟩ hone
  · rw [heq]
    exact hshadowed.closed hnet (fun u hu => (hmoved u hu).1) fun u hu => h.of_reach hnet heof hu

/-- What is left with exact stacks at the end of the input has matched it. -/
private theorem exists_moved_of_eof (h : net.Covers start T F) {u : Thread}
    (hu : u ∈ net.reachOf true Symbol.eof F) : ∃ m ∈ net.movedOn Symbol.eof F, m.1 = u.1 := by
  have hadvance : ∀ u ∈ net.advanceOf true Symbol.eof F,
      ∃ m ∈ net.movedOn Symbol.eof F, m.1 = u.1 := by
    intro u hu
    unfold advanceOf at hu
    dsimp only at hu
    rw [if_pos rfl, if_neg fun hone => hone.2.1 rfl, Bool.not_true, trim_false, trim_false] at hu
    obtain ⟨⟨⟨c, hc, -⟩, -⟩, -⟩ := hu
    exact ⟨(u.1, c), hc, rfl⟩
  unfold reachOf at hu
  dsimp only at hu
  split at hu
  · exact hadvance u hu
  · rw [Bool.not_true, trim_false, h.waiting_eq, Set.union_empty] at hu
    exact hadvance u hu

/-- **After the end of the input** every alternative that is left with the call stack is left
without it. -/
theorem outspeaks_eof (hnet : net.Sealed top start stop) (h : net.Covers start T F) :
    Outspeaks (net.reachOf false Symbol.eof T) (net.reachOf true Symbol.eof F) := by
  intro u hu
  obtain ⟨m, ⟨q, tr, hq, hstop, htr, hacc, hp⟩, htag⟩ := h.exists_moved_of_eof hu
  obtain ⟨t, ht, halt, hshadow⟩ := h.shadowed _ hq (onlyEpsilon_of_accepts htr hacc)
  have hlinked := hnet.linked (h.comes _ hq)
  -- Behind the end of the input there is only the end of the outermost rule.
  have hacc' : tr.accepts Symbol.eof 0 1 = true := by
    rwa [Transition.accepts_eof le_rfl le_rfl]
  obtain ⟨hrule, hnotStop, hends⟩ := hnet.closed.eof q tr htr hacc'
  have hnil : m.2.2 = [] :=
    (hlinked.eat hnet.orderly hstop htr hacc).eq_nil hnet.closed hrule
  have hend : net.Reads (tr.target, m.2.2) [] (stop, []) := by
    rw [hnil]
    refine .hop (.along (t := .epsilon stop) (fun hs => ?_) ?_ rfl) (.refl _)
    · rw [hnotStop] at hs
      cases hs
    · rw [hends]
      exact List.mem_singleton_self _
  have hawaits : net.Awaits top stop false T u.1.1 [Symbol.eof] := by
    refine ⟨t, ht, halt.trans (congrArg Prod.fst htag), _, hshadow, hlinked, Symbol.eof, [], tr, rfl,
      hstop, htr, ?_, hend⟩
    rw [← accepts_eq hnet.parser (.inr rfl)]
    exact hacc
  obtain ⟨t', ht', halt', -⟩ := hawaits.reach_eof hnet.orderly hnet.closed hnet.parser
  exact ⟨t', ht', halt'⟩

end Covers

/-! ## Guidance -/

/-- **The threads `T` are a guide to the threads `F`:** they cover them, unless there is one
alternative anyway. -/
def Guides (net : Network) (start : StateId) (T F : Set Thread) : Prop :=
  net.Covers start T F ∨ ∃ a, (∀ t ∈ T, t.1.1 = a) ∧ ∀ u ∈ F, u.1.1 = a

/-- A symbol keeps to the alternatives there are. -/
private theorem alt_of_reach {a : Nat} {full : Bool} (h : ∀ t ∈ T, t.1.1 = a) :
    ∀ t ∈ net.reachOf full v T, t.1.1 = a := by
  intro t ht
  obtain ⟨d, hd⟩ := tag_of_mem_reachOf ht
  exact h (t.1, d) hd

/-- A symbol before the end preserves the guidance, unless one alternative alone is left. -/
theorem Guides.reach (hnet : net.Sealed top start stop) (h : net.Guides start T F)
    (heof : v ≠ Symbol.eof) (hone : ¬∃ b, Speaks (net.reachOf false v T) b) :
    net.Guides start (net.reachOf false v T) (net.reachOf true v F) := by
  rcases h with hcovers | ⟨a, hT, hF⟩
  · exact .inl (hcovers.reach hnet heof hone)
  · exact .inr ⟨a, alt_of_reach hT, alt_of_reach hF⟩

/-- **If the guides speak for one alternative,** so does what they are a guide to. -/
theorem Guides.speaks (hnet : net.Sealed top start stop) (h : net.Guides start T F) {a : Nat}
    (ha : Speaks (net.reachOf false v T) a) : ∀ u ∈ net.reachOf true v F, u.1.1 = a := by
  rcases h with hcovers | ⟨b, hT, hF⟩
  · by_cases heof : v = Symbol.eof
    · subst heof
      exact (hcovers.outspeaks_eof hnet).of_speaks ha
    · exact (hcovers.outspeaks hnet heof).of_speaks ha
  · obtain ⟨t, ht⟩ := ha.1
    obtain rfl : b = a := (alt_of_reach hT t ht).symm.trans (ha.2 t ht)
    exact alt_of_reach hF

end Network

end AdaptiveLL
