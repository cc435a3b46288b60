import AdaptiveLL.Proofs.Config.Insertion
import AdaptiveLL.Proofs.Config.Observed
import AdaptiveLL.Proofs.Probe

/-!
# Twins

Configurations under two graphs that differ in the numbers of their stacks alone are twins, and so
are sets that hold twins one beside the other. What is added to two such sets alike leaves two such
sets, and if there is room for it in one of them, then in both.
-/

namespace AdaptiveLL

open StackGraph (Grows Grown Sound)

variable {wild : Bool} {g g' h h' : StackGraph}

/-- **Twins:** configurations under two graphs that differ in the numbers of their stacks alone. -/
structure Config.Twin (wild : Bool) (g g' : StackGraph) (c c' : Config) : Prop where
  held : c.Held g wild
  held' : c'.Held g' wild
  state_eq : c.state = c'.state
  tag_eq : c.tag = c'.tag
  outer_eq : c.outer = c'.outer
  stacks_eq : g.stackSet c.stack = g'.stackSet c'.stack

namespace Config.Twin

variable {c c' d d' : Config}

theorem grown (hg : g.Sound) (hg' : g'.Sound) (hh : g.Grown h) (hh' : g'.Grown h')
    (hc : c.Twin wild g g' c') : c.Twin wild h h' c' where
  held := hc.held.grown hg hh
  held' := hc.held'.grown hg' hh'
  state_eq := hc.state_eq
  tag_eq := hc.tag_eq
  outer_eq := hc.outer_eq
  stacks_eq := by
    rw [hh.stackSet_eq hg hc.held.stack_lt, hh'.stackSet_eq hg' hc.held'.stack_lt, hc.stacks_eq]

theorem alt_eq (hc : c.Twin wild g g' c') : c.alt = c'.alt := congrArg Prod.fst hc.tag_eq

theorem guard_eq (hc : c.Twin wild g g' c') : c.guard = c'.guard := congrArg Prod.snd hc.tag_eq

theorem threads_eq (hc : c.Twin wild g g' c') : c.threads g = c'.threads g' := by
  ext t
  have hstack : g.HasStack c.stack t.2.2 ↔ g'.HasStack c'.stack t.2.2 :=
    Set.ext_iff.mp hc.stacks_eq t.2.2
  simp only [threads, Set.mem_ofPred_eq, hc.tag_eq, hc.state_eq, hstack]

theorem stack_eq_empty_iff (hg : g.Sound) (hg' : g'.Sound) (hc : c.Twin wild g g' c') :
    c.stack = StackId.empty ↔ c'.stack = StackId.empty := by
  have hstacks := hc.stacks_eq
  constructor
  · intro h
    rw [h, hg.stackSet_empty, ← hg'.stackSet_empty] at hstacks
    exact (hg'.eq_of_stackSet_eq hg'.empty_lt hc.held'.stack_lt hstacks).symm
  · intro h
    rw [h, hg'.stackSet_empty, ← hg.stackSet_empty] at hstacks
    exact hg.eq_of_stackSet_eq hc.held.stack_lt hg.empty_lt hstacks

theorem moveTo (hc : c.Twin wild g g' c') (q : StateId) :
    (c.moveTo q).Twin wild g g' (c'.moveTo q) :=
  ⟨hc.held.congr rfl rfl rfl, hc.held'.congr rfl rfl rfl, rfl, hc.tag_eq, hc.outer_eq,
    hc.stacks_eq⟩

/-- Twins move under stacks that are the same. -/
theorem moveUnder (hc : c.Twin wild g g' c') {q : StateId} {a b : StackId} (ha : a < g.size)
    (hb : b < g'.size) (hopen : wild = true → g.Open a ∧ g'.Open b)
    (hab : g.stackSet a = g'.stackSet b) :
    (c.moveUnder q a).Twin wild g g' (c'.moveUnder q b) :=
  ⟨⟨ha, fun hw => (hopen hw).1, hc.held.routine_eq, hc.held.greedy⟩,
    ⟨hb, fun hw => (hopen hw).2, hc.held'.routine_eq, hc.held'.greedy⟩, rfl, hc.tag_eq,
    hc.outer_eq, hab⟩

/-- Twins come to the bottom of their stacks. -/
theorem toBottom (hg : g.Sound) (hg' : g'.Sound) (hc : c.Twin wild g g' c') :
    ({ c with stack := StackId.empty } : Config).Twin wild g g' { c' with stack := StackId.empty } :=
  ⟨hc.held.toBottom hg, hc.held'.toBottom hg', hc.state_eq, hc.tag_eq, hc.outer_eq,
    hg.stackSet_empty.trans hg'.stackSet_empty.symm⟩

theorem withGuard (hc : c.Twin wild g g' c') (x : Guard) :
    ({ c with guard := c.guard.and x } : Config).Twin wild g g'
      { c' with guard := c'.guard.and x } :=
  ⟨hc.held.congr rfl rfl rfl, hc.held'.congr rfl rfl rfl, hc.state_eq,
    Prod.ext hc.alt_eq (congrArg (·.and x) hc.guard_eq), hc.outer_eq, hc.stacks_eq⟩

theorem withOuter (hc : c.Twin wild g g' c') {n n' : Nat} (hn : n = n') :
    ({ c with outer := n } : Config).Twin wild g g' { c' with outer := n' } :=
  ⟨hc.held.congr rfl rfl rfl, hc.held'.congr rfl rfl rfl, hc.state_eq, hc.tag_eq, hn,
    hc.stacks_eq⟩

private theorem eq_of_twin (hg' : g'.Sound) (hc : c.Twin wild g g' c') (hd : d.Twin wild g g' d')
    (heq : c.identity = d.identity) : c'.identity = d'.identity := by
  simp only [identity, Config.mk.injEq] at heq ⊢
  obtain ⟨hstate, halt, hstack, hguard, -, -, -⟩ := heq
  have hstacks : g'.stackSet c'.stack = g'.stackSet d'.stack := by
    rw [← hc.stacks_eq, ← hd.stacks_eq, hstack]
  refine ⟨?_, ?_, ?_, ?_, trivial, ?_, ?_⟩
  · rw [← hc.state_eq, ← hd.state_eq, hstate]
  · rw [← hc.alt_eq, ← hd.alt_eq, halt]
  · exact hg'.eq_of_stackSet_eq hc.held'.stack_lt hd.held'.stack_lt hstacks
  · rw [← hc.guard_eq, ← hd.guard_eq, hguard]
  · rw [hc.held'.routine_eq, hd.held'.routine_eq]
  · rw [hc.held'.greedy, hd.held'.greedy]

theorem symm (hc : c.Twin wild g g' c') : c'.Twin wild g' g c :=
  ⟨hc.held', hc.held, hc.state_eq.symm, hc.tag_eq.symm, hc.outer_eq.symm, hc.stacks_eq.symm⟩

/-- Twins tell configurations apart alike. -/
theorem identity_eq_iff (hg : g.Sound) (hg' : g'.Sound) (hc : c.Twin wild g g' c')
    (hd : d.Twin wild g g' d') : c.identity = d.identity ↔ c'.identity = d'.identity :=
  ⟨eq_of_twin hg' hc hd, eq_of_twin hg hc.symm hd.symm⟩

end Config.Twin

/-! ## Sets -/

/-- Where a configuration stands in a set: its place, and how far it has come out of the rule it began
in. -/
def Config.standing (c : Config) : (StateId × Tag) × Nat := (c.place, c.outer)

/-- What one more configuration makes of the standings in a set: it takes the last place, or shares
the one that it finds. -/
def enlist (l : List ((StateId × Tag) × Nat)) (x : (StateId × Tag) × Nat) :
    List ((StateId × Tag) × Nat) :=
  if x.1 ∈ l.map Prod.fst then l.map fun y => if y.1 = x.1 then (y.1, max y.2 x.2) else y
  else l ++ [x]

theorem standings_insert {s s' : ConfigSet} {c : Config} (hs : s.Tidy g)
    (h : (s.insert c).run g = .ok s' g') :
    s'.toList.map Config.standing = enlist (s.toList.map Config.standing) c.standing := by
  have hplaces : (s.toList.map Config.standing).map Prod.fst = s.toList.map Config.place := by
    rw [List.map_map]
    rfl
  obtain ⟨isNew, hadd⟩ := ConfigSet.add_of_insert h
  unfold enlist
  rw [hplaces]
  rcases ConfigSet.add_of_ok hs.unordered hadd with
    ⟨hnew, -, rfl⟩ | ⟨i, hi, id, hplace, -, rfl⟩
  · rw [if_neg (show c.standing.1 ∉ s.toList.map Config.place from hnew)]
    refine (congrArg (List.map Config.standing) (ConfigSet.toList_pushed s c)).trans ?_
    rw [List.map_append, List.map_singleton]
  · have hmem : c.place ∈ s.toList.map Config.place := by
      rw [← hplace]
      exact List.mem_map_of_mem (by simp [ConfigSet.toList])
    -- The other configurations are at other places, so their standings stay as they are.
    have hother : ∀ d ∈ s.toList.take i ++ s.toList.drop (i + 1),
        (if d.standing.1 = c.standing.1 then (d.standing.1, max d.standing.2 c.standing.2)
          else d.standing) = d.standing := fun d hd =>
      if_neg fun heq => ConfigSet.place_ne_of_distinct hs.distinct hi hd (heq.trans hplace.symm)
    rw [if_pos (show c.standing.1 ∈ s.toList.map Config.place from hmem), List.map_map]
    refine (congrArg (List.map Config.standing) (ConfigSet.toList_absorbed hi c id)).trans ?_
    conv_rhs => rw [ConfigSet.toList_eq hi]
    rw [List.map_append, List.map_append, List.map_cons, List.map_cons]
    congr 1
    · exact List.map_congr_left fun d hd => (hother d (List.mem_append_left _ hd)).symm
    · congr 1
      · exact (if_pos hplace).symm
      · exact List.map_congr_left fun d hd => (hother d (List.mem_append_right _ hd)).symm

/-- **Sets of twins:** in the same order they stand at the same places, for the same threads. -/
structure ConfigSet.Twin (full : Bool) (g g' : StackGraph) (s s' : ConfigSet) : Prop where
  tidy : s.Tidy g
  tidy' : s'.Tidy g'
  continues : (ConfigSet.forParser full).Continues s
  continues' : (ConfigSet.forParser full).Continues s'
  standings_eq : s.toList.map Config.standing = s'.toList.map Config.standing
  spread_eq : spread (!full) (s.threads g) = spread (!full) (s'.threads g')

namespace ConfigSet.Twin

variable {full : Bool} {s s' : ConfigSet}

theorem empty (full : Bool) (g g' : StackGraph) :
    (ConfigSet.forParser full).Twin full g g' (ConfigSet.forParser full) :=
  ⟨ConfigSet.tidy_forParser _ _, ConfigSet.tidy_forParser _ _, .refl _, .refl _, rfl, by
    rw [ConfigSet.threads_forParser, ConfigSet.threads_forParser]⟩

theorem grown (hg : g.Sound) (hg' : g'.Sound) (hh : g.Grown h) (hh' : g'.Grown h')
    (hs : s.Twin full g g' s') : s.Twin full h h' s' where
  tidy := hs.tidy.grown hg hh
  tidy' := hs.tidy'.grown hg' hh'
  continues := hs.continues
  continues' := hs.continues'
  standings_eq := hs.standings_eq
  spread_eq := by rw [hs.tidy.threads_eq hg hh, hs.tidy'.threads_eq hg' hh', hs.spread_eq]

theorem threads_eq (hg : g.Sound) (hg' : g'.Sound) (hs : s.Twin full g g' s') :
    s.threads g = s'.threads g' := by
  have hfull : s.fullContext = full := hs.continues.fullContext_eq
  have hfull' : s'.fullContext = full := hs.continues'.fullContext_eq
  have htrim := hs.tidy.threads_eq_trim hg (hfull.symm ▸ hs.spread_eq)
  have htrim' := hs.tidy'.trim_threads hg'
  rw [hfull] at htrim
  rw [hfull'] at htrim'
  exact htrim.trans htrim'

/-- The stacks of a configuration of a tidy set are those of its set's threads at its place. -/
private theorem hasStack_iff (hs : s.Tidy g) {c : Config} (hc : c ∈ s.toList) (γ : List StateId) :
    g.HasStack c.stack γ ↔ (c.tag, c.state, γ) ∈ s.threads g := by
  constructor
  · exact ConfigSet.mem_threads_of_mem hc
  · rintro ⟨d, hd, htag, hstate, hγ⟩
    obtain rfl := hs.eq_of_place hc hd (Prod.ext hstate htag)
    exact hγ

/-- **Sets of twins hold twins,** one beside the other. -/
theorem forall₂ (hg : g.Sound) (hg' : g'.Sound) (hs : s.Twin full g g' s') :
    List.Forall₂ (Config.Twin (!full) g g') s.toList s'.toList := by
  have hlength : s.toList.length = s'.toList.length := by
    simpa using congrArg List.length hs.standings_eq
  refine List.forall₂_iff_get.mpr ⟨hlength, fun i hi hi' => ?_⟩
  have hstanding : (s.toList.get ⟨i, hi⟩).standing = (s'.toList.get ⟨i, hi'⟩).standing := by
    have hget := congrArg (·[i]?) hs.standings_eq
    simpa [List.getElem?_eq_getElem hi, List.getElem?_eq_getElem hi'] using hget
  generalize hc : s.toList.get ⟨i, hi⟩ = c at hstanding
  generalize hc' : s'.toList.get ⟨i, hi'⟩ = c' at hstanding
  have hmem : c ∈ s.toList := hc ▸ List.get_mem _ _
  have hmem' : c' ∈ s'.toList := hc' ▸ List.get_mem _ _
  obtain ⟨hplace, houter⟩ := Prod.mk.inj hstanding
  obtain ⟨hstate, htag⟩ := Prod.mk.inj hplace
  have hheld := hs.tidy.held c hmem
  have hheld' := hs.tidy'.held c' hmem'
  rw [show s.fullContext = full from hs.continues.fullContext_eq] at hheld
  rw [show s'.fullContext = full from hs.continues'.fullContext_eq] at hheld'
  refine ⟨hheld, hheld', hstate, htag, houter, ?_⟩
  ext γ
  change g.HasStack c.stack γ ↔ g'.HasStack c'.stack γ
  rw [hasStack_iff hs.tidy hmem, hasStack_iff hs.tidy' hmem', hs.threads_eq hg hg', htag, hstate]

/-- Marks on the sets do not matter. -/
theorem dips (hs : s.Twin full g g' s') :
    ConfigSet.Twin full g g' { s with dipsOut := true } { s' with dipsOut := true } where
  tidy := ⟨hs.tidy.unordered, hs.tidy.distinct, hs.tidy.held, hs.tidy.guards_iff, hs.tidy.room⟩
  tidy' := ⟨hs.tidy'.unordered, hs.tidy'.distinct, hs.tidy'.held, hs.tidy'.guards_iff,
    hs.tidy'.room⟩
  continues := ⟨hs.continues.1, hs.continues.2, hs.continues.3, hs.continues.4⟩
  continues' := ⟨hs.continues'.1, hs.continues'.2, hs.continues'.3, hs.continues'.4⟩
  standings_eq := hs.standings_eq
  spread_eq := hs.spread_eq

/-- Twins are added alike. -/
theorem insert_beside {quiet : Bool} {c c' : Config} {tr tr' : Trail} (hg : tr.graph.Sound)
    (hg' : tr'.graph.Sound) (hs : s.Twin full tr.graph tr'.graph s')
    (hc : c.Twin (!full) tr.graph tr'.graph c') :
    Probe.Beside quiet (Probe.grow (s.insert c)) (Probe.grow (s'.insert c')) tr tr'
      fun u g u' g' => u.Twin full g g' u' := by
  have hfull : s.fullContext = full := hs.continues.fullContext_eq
  have hfull' : s'.fullContext = full := hs.continues'.fullContext_eq
  have hheld := hc.held
  have hheld' := hc.held'
  rw [← hfull] at hheld
  rw [← hfull'] at hheld'
  have hsize : s'.maxSize = s.maxSize := hs.continues'.maxSize_eq.trans hs.continues.maxSize_eq.symm
  have hboth : spread (!full) (s.threads tr.graph ∪ c.threads tr.graph) =
      spread (!full) (s'.threads tr'.graph ∪ c'.threads tr'.graph) := by
    rw [spread_union, spread_union, hs.spread_eq, hc.threads_eq]
  have hstanding : c.standing = c'.standing :=
    Prod.ext (Prod.ext hc.state_eq hc.tag_eq) hc.outer_eq
  -- Both sets come to the same threads, so they have room for them alike. Only nodes may be wanting
  -- on one side alone.
  refine (Probe.Beside.grow
    ((ConfigSet.insert_grows hg hs.tidy hheld).giving fun _ _ => standings_insert hs.tidy)
    ((ConfigSet.insert_grows hg' hs.tidy' hheld').giving fun _ _ => standings_insert hs.tidy')
    ?_ ?_ ?_).mono ?_
  · rintro a h e hgrown ⟨⟨htidy, hcont, hspread⟩, -⟩ he -
    rw [hfull, hboth] at hspread
    rw [hsize, ← hcont.maxSize_eq] at he
    exact htidy.nodes_of_room hgrown.sound hspread he
  · rintro a h e hgrown ⟨⟨htidy, hcont, hspread⟩, -⟩ he -
    rw [hfull', ← hboth] at hspread
    rw [← hsize, ← hcont.maxSize_eq] at he
    exact htidy.nodes_of_room hgrown.sound hspread he
  · rintro e e' (hnodes | ⟨-, rfl⟩) (hnodes' | ⟨-, rfl⟩)
    · exact .inl fun _ => hnodes
    · exact .inl fun _ => hnodes
    · exact .inr (.inl fun _ => hnodes')
    · exact .inr (.inr fun _ => by rw [hsize])
  · rintro u h u' h' hgrown hgrown' ⟨⟨⟨htidy, hcont, hspread⟩, hstands⟩, ⟨htidy', hcont', hspread'⟩,
      hstands'⟩
    rw [hfull] at hspread
    rw [hfull'] at hspread'
    refine ⟨htidy, htidy', hs.continues.trans hcont, hs.continues'.trans hcont', ?_, ?_⟩
    · rw [hstands, hstands', hs.standings_eq, hstanding]
    · rw [hspread, hspread', hboth]

/-- Any number of twins are added alike. -/
theorem insertAll_beside {quiet : Bool} {cs cs' : List Config} {tr tr' : Trail} (hg : tr.graph.Sound)
    (hg' : tr'.graph.Sound) (hs : s.Twin full tr.graph tr'.graph s')
    (hcs : List.Forall₂ (Config.Twin (!full) tr.graph tr'.graph) cs cs') :
    Probe.Beside quiet (Probe.grow (cs.foldlM ConfigSet.insert s))
      (Probe.grow (cs'.foldlM ConfigSet.insert s')) tr tr' fun u g u' g' => u.Twin full g g' u' := by
  induction cs generalizing cs' s s' tr tr' with
  | nil =>
    cases hcs
    exact .pure hg hg' hs
  | cons c cs ih =>
    obtain _ | ⟨hc, hrest⟩ := hcs
    rw [List.foldlM_cons, List.foldlM_cons, Probe.grow_bind, Probe.grow_bind]
    refine (hs.insert_beside hg hg' hc).bind fun u t u' t' hgrown hgrown' htwin => ?_
    exact ih hgrown.sound hgrown'.sound htwin (hrest.imp fun _ _ h => h.grown hg hg' hgrown hgrown')

/-- What is asked of the states and the alternatives of twins is answered alike. -/
theorem map_eq {α : Type} (hs : s.Twin full g g' s') (f : (StateId × Tag) × Nat → α) :
    s.toList.map (fun c => f c.standing) = s'.toList.map fun c => f c.standing := by
  have hmap := congrArg (List.map f) hs.standings_eq
  rwa [List.map_map, List.map_map] at hmap

theorem size_eq (hs : s.Twin full g g' s') : s.size = s'.size := by
  simpa [ConfigSet.toList, ConfigSet.size] using congrArg List.length hs.standings_eq

theorem isEmpty_eq (hs : s.Twin full g g' s') : s.isEmpty = s'.isEmpty := by
  have hsize := hs.size_eq
  unfold ConfigSet.size at hsize
  rw [ConfigSet.isEmpty, ConfigSet.isEmpty, Array.isEmpty, Array.isEmpty, hsize]

theorem commonAlt_eq (hs : s.Twin full g g' s') : s.commonAlt = s'.commonAlt := by
  have halts : s.toList.map Config.alt = s'.toList.map Config.alt := hs.map_eq fun x => x.1.2.1
  unfold ConfigSet.commonAlt
  generalize s.toList = l, s'.toList = l' at halts
  match l, l' with
  | [], [] => rfl
  | [], _ :: _ => cases halts
  | _ :: _, [] => cases halts
  | c :: l, c' :: l' =>
    obtain ⟨halt, hrest⟩ := List.cons_eq_cons.mp halts
    have hall : ∀ (k : List Config) (a : Nat),
        k.all (·.alt == a) = (k.map Config.alt).all (· == a) := by
      intro k a
      rw [List.all_map]
      rfl
    have hrest' : l.map Config.alt = l'.map Config.alt := hrest
    dsimp only
    rw [hall, hall, hrest', show c.alt = c'.alt from halt]

theorem allAtRuleStop_eq (hs : s.Twin full g g' s') (net : Network) :
    s.allAtRuleStop net = s'.allAtRuleStop net := by
  have hstops := hs.map_eq fun x => (net.state x.1.1).isRuleStop
  have hall : ∀ t : ConfigSet, t.allAtRuleStop net =
      (t.toList.map fun c => (net.state c.state).isRuleStop).all id := by
    intro t
    rw [List.all_map, ConfigSet.allAtRuleStop, ← Array.all_toList]
    rfl
  rw [hall, hall]
  exact congrArg (List.all · id) hstops

theorem someAtRuleStop_eq (hs : s.Twin full g g' s') (net : Network) :
    s.someAtRuleStop net = s'.someAtRuleStop net := by
  have hstops := hs.map_eq fun x => (net.state x.1.1).isRuleStop
  have hany : ∀ t : ConfigSet, t.someAtRuleStop net =
      (t.toList.map fun c => (net.state c.state).isRuleStop).any id := by
    intro t
    rw [List.any_map, ConfigSet.someAtRuleStop, ← Array.any_toList]
    rfl
  rw [hany, hany]
  exact congrArg (List.any · id) hstops

/-- Those twins of two sets that meet a condition on the states. -/
theorem filter (hg : g.Sound) (hg' : g'.Sound) (hs : s.Twin full g g' s') (p : StateId → Bool) :
    List.Forall₂ (Config.Twin (!full) g g') (s.toList.filter (p ·.state))
      (s'.toList.filter (p ·.state)) := by
  have hconfigs := hs.forall₂ hg hg'
  generalize s.toList = l, s'.toList = l' at hconfigs
  induction hconfigs with
  | nil => exact .nil
  | @cons c c' l l' hc _ ih =>
    rw [List.filter_cons, List.filter_cons, ← hc.state_eq]
    split
    · exact .cons hc ih
    · exact ih

end ConfigSet.Twin

end AdaptiveLL
