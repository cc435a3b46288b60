import AdaptiveLL.Proofs.Prediction.Sweep
import Mathlib.Algebra.GroupWithZero.Nat
import Mathlib.Algebra.Order.BigOperators.Group.List
import Mathlib.Data.Fintype.Prod
import Mathlib.Data.Finset.Card

/-!
# Closures end

A closure notes every configuration that a transition leads to, and follows none twice. There are
only so many: states are bounded, the graph of stacks has a ceiling, and the tags come from a finite
stock. Only returns from rules are not noted, but each of them goes to a parent in the graph,
which is older. A visit is therefore weighed by the age of its node, so that it outweighs the
visits its returns lead to.
-/

namespace AdaptiveLL

open StackGraph (Grows Grown Sound)

/-! ## Weights

The numbers of states, return states included, lie below a bound `words`. -/

/-- The weight of a visit. A node has fewer frames than `words + 2`. -/
def Visit.weight (words : Nat) (v : Visit) : Nat :=
  (words + 2) ^ (2 * v.config.stack + if v.checkStop then 1 else 0)

/-- The greatest weight of a visit in a graph of at most `nodes` nodes. -/
def visitWeight (words nodes : Nat) : Nat := (words + 2) ^ (2 * nodes + 1)

/-- The keys of the visits there can be, with tags of a stock. -/
def visitKeys (words : Nat) (tags : Finset Tag) (nodes : Nat) : Finset VisitKey :=
  ((Finset.range words ×ˢ tags ×ˢ Finset.range nodes) ×ˢ
      (Finset.univ : Finset (Bool × Bool))).image fun k =>
    ({ state := k.1.1, alt := k.1.2.1.1, guard := k.1.2.1.2, stack := k.1.2.2 }, k.2)

/-- **The steps after which a closure has ended,** given the number of tags. -/
def sweepBound (words tags nodes : Nat) : Nat :=
  (words * (tags * nodes) * 4 + 1) * visitWeight words nodes

theorem card_visitKeys_le (words : Nat) (tags : Finset Tag) (nodes : Nat) :
    (visitKeys words tags nodes).card ≤ words * (tags.card * nodes) * 4 := by
  unfold visitKeys
  refine Finset.card_image_le.trans ?_
  simp [Finset.card_product]

theorem sweepBound_mono {words a b nodes : Nat} (h : a ≤ b) :
    sweepBound words a nodes ≤ sweepBound words b nodes := by
  unfold sweepBound
  exact Nat.mul_le_mul_right _ (Nat.succ_le_succ (Nat.mul_le_mul_right _
    (Nat.mul_le_mul_left _ (Nat.mul_le_mul_right _ h))))

/-- What a sweep still has to do at most. -/
def Sweep.weight (words : Nat) (tags : Finset Tag) (nodes : Nat) (s : Sweep) : Nat :=
  (s.work.map (Visit.weight words)).sum +
    ((visitKeys words tags nodes).card - s.seen.length) * visitWeight words nodes

/-- A node has few frames. -/
theorem length_frames_lt {g : StackGraph} (hg : g.Sound) {words : Nat} (hword : emptyReturn ≤ words)
    (id : StackId) : (g.frames id).length < words + 2 := by
  have hnodup : ((g.frames id).map Frame.ret).Nodup := by
    refine List.Pairwise.map _ (fun a b hab => Nat.ne_of_lt hab) (hg.ascending id)
  have hsub : (g.frames id).map Frame.ret ⊆ List.range (emptyReturn + 1) := by
    intro r hr
    obtain ⟨f, hf, rfl⟩ := List.mem_map.mp hr
    have hle := hg.ret_le id f hf
    exact List.mem_range.mpr (by omega)
  have hle := (hnodup.subperm hsub).length_le
  rw [List.length_map, List.length_range] at hle
  omega

/-! ## The invariant -/

/-- The ceilings that a closure may meet at all. -/
abbrev Exceeded.Ordinary : Nat → Exceeded → Prop := Exceeded.Meets (fun _ => True) True

theorem Exceeded.Meets.ordinary {long : Nat → Prop} {crowded : Prop} {depth : Nat} {e : Exceeded}
    (h : e.Meets long crowded depth) : Exceeded.Ordinary depth e :=
  h.mono (fun _ => trivial) fun _ => trivial

/-- A configuration with a tag of the stock. -/
structure Config.Within (words : Nat) (tags : Finset Tag) (full : Bool) (g : StackGraph) (c : Config) :
    Prop where
  held : c.Held g (!full)
  state_lt : c.state < words
  tag_mem : c.tag ∈ tags

theorem Config.Within.grown {words : Nat} {tags : Finset Tag} {full : Bool} {g g' : StackGraph}
    {c : Config} (hg : g.Sound) (h : g.Grown g') (hc : c.Within words tags full g) :
    c.Within words tags full g' :=
  ⟨hc.held.grown hg h, hc.state_lt, hc.tag_mem⟩

theorem Config.Within.moveTo {words : Nat} {tags : Finset Tag} {full : Bool} {g : StackGraph}
    {c : Config} (hc : c.Within words tags full g) {q : StateId} (hq : q < words) :
    (c.moveTo q).Within words tags full g :=
  ⟨hc.held.congr rfl rfl rfl, hq, hc.tag_mem⟩

/-- **What bounds a sweep.** -/
structure Bounded (words : Nat) (tags : Finset Tag) (collecting full : Bool) (nodes : Nat)
    (s : Sweep) (g : StackGraph) : Prop where
  nodes_eq : g.maxNodes = nodes
  tidy : s.configs.Tidy g
  continues : (ConfigSet.forParser full).Continues s.configs
  nodup : s.seen.Nodup
  seen : ∀ k ∈ s.seen, k ∈ visitKeys words tags nodes
  within : ∀ v ∈ s.work, v.config.Within words tags full g
  collects : ∀ v ∈ s.work, v.collect = true → collecting = true
  tagged : ∀ t ∈ s.configs.threads g, t.1 ∈ tags

/-- The guards met on the way lead to no tag outside the stock. -/
def Stocked (net : Network) (tags : Finset Tag) (collecting : Bool) : Prop :=
  collecting = true → ∀ tag ∈ tags, ∀ q, ∀ t ∈ (net.state q).transitions, ∀ a,
    t.guard? = some a → (tag.1, tag.2.and a) ∈ tags

namespace Bounded

variable {words : Nat} {tags : Finset Tag} {collecting full : Bool} {nodes : Nat} {s : Sweep}
  {g g' : StackGraph}

theorem full_eq (hs : Bounded words tags collecting full nodes s g) :
    s.configs.fullContext = full :=
  hs.continues.fullContext_eq

theorem grown (hg : g.Sound) (h : g.Grown g') (hs : Bounded words tags collecting full nodes s g) :
    Bounded words tags collecting full nodes s g' where
  nodes_eq := h.maxNodes_eq.trans hs.nodes_eq
  tidy := hs.tidy.grown hg h
  continues := hs.continues
  nodup := hs.nodup
  seen := hs.seen
  within v hv := (hs.within v hv).grown hg h
  collects := hs.collects
  tagged := by
    rw [hs.tidy.threads_eq hg h]
    exact hs.tagged

theorem stack_lt (hg : g.Sound) (hs : Bounded words tags collecting full nodes s g) {c : Config}
    (hc : c.Within words tags full g) : c.stack < nodes :=
  hs.nodes_eq ▸ Nat.lt_of_lt_of_le hc.held.stack_lt hg.layered.size_le

theorem visit_weight_le (hg : g.Sound) (hs : Bounded words tags collecting full nodes s g) {v : Visit}
    (hv : v.config.Within words tags full g) : v.weight words ≤ visitWeight words nodes := by
  have hlt := hs.stack_lt hg hv
  refine Nat.pow_le_pow_right (Nat.succ_pos _) ?_
  have hbit : (if v.checkStop = true then 1 else 0) ≤ 1 := by split <;> omega
  have hnat : 2 * v.config.stack ≤ 2 * nodes := Nat.mul_le_mul_left 2 (Nat.le_of_lt hlt)
  exact Nat.add_le_add hnat hbit

theorem key_mem (hg : g.Sound) (hs : Bounded words tags collecting full nodes s g) {c : Config}
    (hc : c.Within words tags full g) (o b : Bool) :
    (c.identity, o, b) ∈ visitKeys words tags nodes := by
  unfold visitKeys
  refine Finset.mem_image.mpr ⟨((c.state, c.tag, c.stack), o, b), ?_, ?_⟩
  · simp only [Finset.mem_product, Finset.mem_range, Finset.mem_univ, and_true]
    exact ⟨hc.state_lt, hc.tag_mem, hs.stack_lt hg hc⟩
  · refine Prod.ext ?_ rfl
    simp only [Config.identity, Config.tag]
    rw [← hc.held.routine_eq, ← hc.held.greedy]

theorem push {v : Visit} (hs : Bounded words tags collecting full nodes s g)
    (hv : v.config.Within words tags full g) (hcollect : v.collect = true → collecting = true) :
    Bounded words tags collecting full nodes (s.push v) g where
  nodes_eq := hs.nodes_eq
  tidy := hs.tidy
  continues := hs.continues
  nodup := hs.nodup
  seen := hs.seen
  within u hu := (List.mem_cons.mp hu).elim (fun h => h ▸ hv) (hs.within u)
  collects u hu := (List.mem_cons.mp hu).elim (fun h => h ▸ hcollect) (hs.collects u)
  tagged := hs.tagged

theorem weight_push (v : Visit) (s : Sweep) :
    (s.push v).weight words tags nodes = v.weight words + s.weight words tags nodes := by
  simp [Sweep.weight, Sweep.push, Nat.add_assoc]

theorem note {key : VisitKey} (hs : Bounded words tags collecting full nodes s g)
    (hkey : key ∈ visitKeys words tags nodes) (hnew : key ∉ s.seen) :
    Bounded words tags collecting full nodes { s with seen := key :: s.seen } g where
  nodes_eq := hs.nodes_eq
  tidy := hs.tidy
  continues := hs.continues
  nodup := List.nodup_cons.mpr ⟨hnew, hs.nodup⟩
  seen k hk := (List.mem_cons.mp hk).elim (fun h => h ▸ hkey) (hs.seen k)
  within := hs.within
  collects := hs.collects
  tagged := hs.tagged

theorem dips (hs : Bounded words tags collecting full nodes s g) :
    Bounded words tags collecting full nodes
      { s with configs := { s.configs with dipsOut := true } } g :=
  ⟨hs.nodes_eq, ⟨hs.tidy.unordered, hs.tidy.distinct, hs.tidy.held, hs.tidy.guards_iff,
    hs.tidy.room⟩, ⟨hs.continues.fullContext_eq, hs.continues.uniqueAlt_eq,
      hs.continues.conflicting_eq, hs.continues.maxSize_eq⟩, hs.nodup, hs.seen, hs.within,
    hs.collects, hs.tagged⟩

/-- A noted key pays for a visit. -/
theorem weight_note {key : VisitKey} (hs : Bounded words tags collecting full nodes s g)
    (hkey : key ∈ visitKeys words tags nodes) (hnew : key ∉ s.seen) :
    Sweep.weight words tags nodes { s with seen := key :: s.seen } + visitWeight words nodes =
      s.weight words tags nodes := by
  have hlen : (key :: s.seen).length ≤ (visitKeys words tags nodes).card := by
    have hnodup : (key :: s.seen).Nodup := List.nodup_cons.mpr ⟨hnew, hs.nodup⟩
    rw [← List.toFinset_card_of_nodup hnodup]
    refine Finset.card_le_card fun k hk => ?_
    rcases List.mem_cons.mp (List.mem_toFinset.mp hk) with rfl | hk
    · exact hkey
    · exact hs.seen k hk
  unfold Sweep.weight
  rw [List.length_cons] at hlen ⊢
  obtain ⟨n, hn⟩ : ∃ n, (visitKeys words tags nodes).card = n + (s.seen.length + 1) :=
    ⟨_, (Nat.sub_add_cancel hlen).symm⟩
  have hless : (visitKeys words tags nodes).card - (s.seen.length + 1) = n := by omega
  have hmore : (visitKeys words tags nodes).card - s.seen.length = n + 1 := by omega
  rw [hless, hmore, Nat.add_mul, Nat.one_mul, Nat.add_assoc]

/-- Collecting a configuration costs nothing. -/
theorem collect {c : Config} {tr : Trail} (hg : tr.graph.Sound)
    (hc : c.Within words tags full tr.graph)
    (hs : Bounded words tags collecting full nodes s tr.graph) :
    Probe.Ends false (s.collect c) tr (fun s' g' =>
      Bounded words tags collecting full nodes s' g' ∧
        s'.weight words tags nodes = s.weight words tags nodes)
      Exceeded.Ordinary := by
  refine (Probe.Ends.grow ((ConfigSet.insert_grows hg hs.tidy (hs.full_eq ▸ hc.held)).failing
    ?_)).bind fun configs t' hext ⟨htidy, hcont, hspread⟩ => .pure hext.sound ?_
  · rintro e (hnodes | ⟨-, he⟩)
    · exact .inl hnodes
    · exact .inr (.inr ⟨trivial, by rw [he, hs.continues.maxSize_eq]; rfl⟩)
  have hs' := hs.grown hg hext.grown
  refine ⟨⟨hs'.nodes_eq, htidy, hs.continues.trans hcont, hs'.nodup, hs'.seen,
    hs'.within, hs'.collects, fun t ht => ?_⟩, rfl⟩
  have hmem : t ∈ spread (!s.configs.fullContext) (s.configs.threads tr.graph ∪
      c.threads tr.graph) := hspread ▸ subset_spread _ _ ht
  obtain ⟨σ, hσ | ⟨htag, -⟩, -⟩ := hmem
  · exact hs.tagged (t.1, t.2.1, σ) hσ
  · rw [show t.1 = c.tag from htag]
    exact hc.tag_mem

end Bounded

/-! ## Steps -/

namespace Question

variable {q : Question} {m : Manner} {words : Nat} {tags : Finset Tag} {collecting : Bool}
  {nodes : Nat}

private theorem guarded_within (hstock : Stocked q.net tags collecting) {full evaluate : Bool}
    (heval : evaluate = true → collecting = true) {c : Config} {target p : StateId} {a : Guard}
    {t : Transition} (ht : t ∈ (q.net.state p).transitions) (ha : t.guard? = some a)
    (htarget : target < words) {tr : Trail} (hg : tr.graph.Sound)
    (hc : c.Within words tags full tr.graph) :
    Probe.Ends false (q.guarded full evaluate c target a) tr
      (fun next g' => ∀ n, next = some n → n.Within words tags full g') Exceeded.Ordinary := by
  have hmove : (c.moveTo target).Within words tags full tr.graph := hc.moveTo htarget
  unfold guarded
  cases heval' : evaluate with
  | false => exact .pure hg fun n hn => Option.some.inj hn ▸ hmove
  | true =>
    cases hfull : full with
    | false =>
      rw [hfull] at hmove
      refine .pure hg fun n hn => ?_
      rw [← Option.some.inj hn]
      exact ⟨hmove.held.congr rfl rfl rfl, htarget, hstock (heval heval') _ hc.tag_mem p t ht a ha⟩
    | true =>
      rw [hfull] at hmove
      refine Probe.Ends.bind (Q := fun _ g => g = tr.graph) ?_ fun b t' hext hgraph => ?_
      · exact .of_eq rfl ⟨⟨.refl hg, nofun, nofun⟩, fun _ _ => rfl, nofun⟩
      · rw [← hgraph] at hmove
        cases b with
        | true => exact .pure hext.sound fun n hn => Option.some.inj hn ▸ hmove
        | false => exact .pure hext.sound nofun

/-- Following a transition leads within the bounds. -/
private theorem follow_within (hnet : q.net.Consistent) (hword : q.net.states.size ≤ emptyReturn)
    (hwords : emptyReturn ≤ words) (hstock : Stocked q.net tags collecting)
    {collect inside : Bool} (hcollect : collect = true → collecting = true) {c : Config}
    {p : StateId} {t : Transition} (ht : t ∈ (q.net.state p).transitions) {tr : Trail}
    (hg : tr.graph.Sound) (hc : c.Within words tags m.full tr.graph) :
    Probe.Ends false (q.follow m collect inside c t) tr
      (fun next g' => ∀ n, next = some n → n.Within words tags m.full g') Exceeded.Ordinary := by
  have htarget : t.target < words :=
    Nat.lt_of_lt_of_le (hnet.target_lt p t ht) (hword.trans hwords)
  have hmove : ∀ target, t.target = target → ∀ n, some (c.moveTo target) = some n →
      n.Within words tags m.full tr.graph := by
    intro target heq n hn
    rw [← Option.some.inj hn]
    exact hc.moveTo (heq ▸ htarget)
  -- The transitions that consume a symbol are followed at the end of the input only.
  have hmatch : ∀ (b : Bool) target, t.target = target → Probe.Ends false
      (pure (if b then some (c.moveTo target) else none) : Probe (Option Config)) tr
      (fun next g' => ∀ n, next = some n → n.Within words tags m.full g') Exceeded.Ordinary := by
    intro b target heq
    cases b with
    | true => exact .pure hg (hmove target heq)
    | false => exact .pure hg nofun
  cases t with
  | epsilon target => exact .pure hg (hmove target rfl)
  | action target rule action contextual => exact .pure hg (hmove target rfl)
  | predicate target rule pred contextual =>
    exact guarded_within hstock (fun h => hcollect (Bool.and_eq_true_iff.mp h).1) ht rfl htarget hg
      hc
  | precedence target level =>
    exact guarded_within hstock (fun h => hcollect (Bool.and_eq_true_iff.mp h).1) ht rfl htarget hg
      hc
  | rule target rule follow level =>
    have hfollow : follow < emptyReturn :=
      Nat.lt_of_lt_of_le (hnet.follow_lt p _ _ _ _ ht) hword
    refine (Probe.Ends.grow ((StackGraph.push_grows hg hc.held.stack_lt hfollow).failing ?_)).bind
      fun id t' hext ⟨hid, hframes⟩ => .pure hext.sound fun n hn => ?_
    · rintro e (hnodes | ⟨-, he⟩)
      · exact .inl hnodes
      · exact .inr (.inl ⟨trivial, he⟩)
    rw [← Option.some.inj hn]
    refine ⟨⟨hid, fun hw => ?_, hc.held.routine_eq, hc.held.greedy⟩, htarget, hc.tag_mem⟩
    exact StackGraph.open_of_frames_singleton hfollow hframes
      ((hc.held.isOpen hw).grown hg hext.grown hc.held.stack_lt)
  | atom target label => exact hmatch _ target rfl
  | range target start stop => exact hmatch _ target rfl
  | set target s => exact hmatch _ target rfl
  | notSet target s => exact .pure hg nofun
  | wildcard target => exact .pure hg nofun

/-- **Entering a configuration** costs nothing: the visit is paid for by its key. -/
private theorem enter_bounded {v : Visit} {state : State} {t : Transition} {collect : Bool}
    {next : Config} {s : Sweep} {tr : Trail} (hg : tr.graph.Sound)
    (hcollect : collect = true → collecting = true)
    (hnext : next.Within words tags m.full tr.graph)
    (hs : Bounded words tags collecting m.full nodes s tr.graph) :
    Probe.Ends false (q.enter v state t collect next s) tr
      (fun s' g' => Bounded words tags collecting m.full nodes s' g' ∧
        s'.weight words tags nodes ≤ s.weight words tags nodes) Exceeded.Ordinary := by
  unfold enter
  generalize hn : (if state.isRuleStop = true then { next with outer := next.outer + 1 }
    else next) = n
  have hwithin : n.Within words tags m.full tr.graph := by
    rw [← hn]
    split
    · exact ⟨hnext.held.congr rfl rfl rfl, hnext.state_lt, hnext.tag_mem⟩
    · exact hnext
  by_cases hseen : s.seen.contains (n.identity, decide (0 < n.outer), collect) = true
  · simp only [hseen, if_true]
    exact .pure hg ⟨hs, Nat.le_refl _⟩
  simp only [if_neg hseen]
  have hnew : (n.identity, decide (0 < n.outer), collect) ∉ s.seen := by
    simpa [List.contains_iff_mem] using hseen
  have hkey := hs.key_mem hg hwithin (decide (0 < n.outer)) collect
  -- A key that is new is struck off the keys that are left, which pays for the visit.
  have hpush : ∀ depth : Int, ∀ s' : Sweep, s'.work = s.work → s'.seen = s.seen →
      Bounded words tags collecting m.full nodes s' tr.graph →
      Bounded words tags collecting m.full nodes
        (({ s' with seen := (n.identity, decide (0 < n.outer), collect) :: s'.seen } :
          Sweep).push { config := n, depth, collect }) tr.graph ∧
      (({ s' with seen := (n.identity, decide (0 < n.outer), collect) :: s'.seen } :
          Sweep).push { config := n, depth, collect }).weight words tags nodes ≤
        s.weight words tags nodes := by
    intro depth s' hwork hseen' hs'
    have hnew' : (n.identity, decide (0 < n.outer), collect) ∉ s'.seen := hseen' ▸ hnew
    refine ⟨(hs'.note hkey hnew').push hwithin hcollect, ?_⟩
    rw [Bounded.weight_push]
    have hpaid := hs'.weight_note hkey hnew'
    have hle := hs.visit_weight_le (v := { config := n, depth, collect }) hg hwithin
    have hsame : s'.weight words tags nodes = s.weight words tags nodes := by
      simp [Sweep.weight, hwork, hseen']
    omega
  by_cases hstop : state.isRuleStop = true
  · rw [if_pos hstop]
    exact .pure hg (hpush _ { s with configs := { s.configs with dipsOut := true } } rfl rfl hs.dips)
  rw [if_neg hstop]
  by_cases hcall : (t.isRule && decide (0 ≤ v.depth)) = true
  · rw [if_pos hcall]
    by_cases hdeep : (q.net.ruleCount : Int) < v.depth + 1
    · rw [if_pos hdeep]
      have hcut := hs.note hkey hnew
      have hpaid := hs.weight_note hkey hnew
      by_cases hreported : s.reported = true
      · rw [if_pos hreported]
        exact .pure hg ⟨hcut, by omega⟩
      · rw [if_neg hreported]
        refine Probe.Ends.bind (Q := fun _ g => g = tr.graph) ?_ fun _ t' hext hgraph => ?_
        · exact .of_eq rfl ⟨⟨.refl hg, nofun, nofun⟩, fun _ _ => rfl, nofun⟩
        · refine .pure hext.sound ⟨?_, ?_⟩
          · rw [← hgraph] at hcut
            exact ⟨hcut.nodes_eq, hcut.tidy, hcut.continues, hcut.nodup, hcut.seen, hcut.within,
              hcut.collects, hcut.tagged⟩
          · change Sweep.weight words tags nodes { s with seen := _ :: s.seen } ≤ _
            omega
    · rw [if_neg hdeep]
      exact .pure hg (hpush _ s rfl rfl hs)
  · rw [if_neg hcall]
    exact .pure hg (hpush _ s rfl rfl hs)

private theorem expand_bounded (hnet : q.net.Consistent)
    (hword : q.net.states.size ≤ emptyReturn) (hwords : emptyReturn ≤ words)
    (hstock : Stocked q.net tags collecting) {v : Visit} {p : StateId} {t : Transition}
    (ht : t ∈ (q.net.state p).transitions) {s : Sweep} {tr : Trail} (hg : tr.graph.Sound)
    (hv : v.config.Within words tags m.full tr.graph) (hcollect : v.collect = true → collecting = true)
    (hs : Bounded words tags collecting m.full nodes s tr.graph) :
    Probe.Ends false (q.expand m v (q.net.state p) s t) tr
      (fun s' g' => Bounded words tags collecting m.full nodes s' g' ∧
        s'.weight words tags nodes ≤ s.weight words tags nodes) Exceeded.Ordinary := by
  have hcollect' : (v.collect && !t.isAction) = true → collecting = true := fun h =>
    hcollect (Bool.and_eq_true_iff.mp h).1
  refine (follow_within hnet hword hwords hstock hcollect' ht hg hv).bind
    fun next t' hext hnext => ?_
  cases next with
  | none => exact .pure hext.sound ⟨hs.grown hg hext.grown, Nat.le_refl _⟩
  | some n => exact enter_bounded hext.sound hcollect' (hnext n rfl) (hs.grown hg hext.grown)

private theorem expandAll_bounded (hnet : q.net.Consistent)
    (hword : q.net.states.size ≤ emptyReturn) (hwords : emptyReturn ≤ words)
    (hstock : Stocked q.net tags collecting) {v : Visit} {p : StateId} {s : Sweep} {tr : Trail}
    (hg : tr.graph.Sound) (hv : v.config.Within words tags m.full tr.graph)
    (hcollect : v.collect = true → collecting = true)
    (hs : Bounded words tags collecting m.full nodes s tr.graph) :
    Probe.Ends false (q.expandAll m v (q.net.state p) s) tr
      (fun s' g' => Bounded words tags collecting m.full nodes s' g' ∧
        s'.weight words tags nodes ≤ s.weight words tags nodes) Exceeded.Ordinary := by
  rw [expandAll_eq]
  have hcollected : Probe.Ends false
      (if (q.net.state p).onlyEpsilon = true then pure s else s.collect v.config) tr
      (fun s' g' => Bounded words tags collecting m.full nodes s' g' ∧
        s'.weight words tags nodes = s.weight words tags nodes) Exceeded.Ordinary := by
    split
    · exact .pure hg ⟨hs, rfl⟩
    · exact hs.collect hg hv
  refine hcollected.bind fun s₁ tr₁ hext₁ ⟨hs₁, hweight₁⟩ => ?_
  refine (Probe.Ends.foldlM (fun ts s' g' => (∀ t ∈ ts, t ∈ (q.net.state p).transitions) ∧
      v.config.Within words tags m.full g' ∧ Bounded words tags collecting m.full nodes s' g' ∧
      s'.weight words tags nodes ≤ s.weight words tags nodes) ?_ hext₁.sound
    ⟨fun t ht => List.mem_reverse.mp ht, hv.grown hg hext₁.grown, hs₁, Nat.le_of_eq hweight₁⟩).mono
    fun s' g' _ ⟨_, _, hs', hle⟩ => ⟨hs', hle⟩
  rintro t ts s₂ tr₂ hext₂ ⟨hts, hv₂, hs₂, hle₂⟩
  refine (expand_bounded hnet hword hwords hstock (hts t List.mem_cons_self) hext₂.sound hv₂
    hcollect hs₂).mono fun s' g' hgrown ⟨hs', hle⟩ =>
      ⟨fun t' ht' => hts t' (List.mem_cons_of_mem _ ht'), hv₂.grown hext₂.sound hgrown, hs',
        hle.trans hle₂⟩

private theorem double_succ_le {a b : Nat} (h : a < b) : 2 * a + 1 ≤ 2 * b := by omega

/-- A return adds at most the weight of a visit without its last look at the stop state. -/
private theorem leave_bounded (hwords : emptyReturn ≤ words) {v : Visit} {f : Frame} {s : Sweep}
    {tr : Trail} (hg : tr.graph.Sound) (hv : v.config.Within words tags m.full tr.graph)
    (hne : v.config.stack ≠ StackId.empty) (hf : f ∈ tr.graph.frames v.config.stack)
    (hcollect : v.collect = true → collecting = true)
    (hs : Bounded words tags collecting m.full nodes s tr.graph) :
    Probe.Ends false (leave m v s f) tr
      (fun s' g' => Bounded words tags collecting m.full nodes s' g' ∧
        s'.weight words tags nodes ≤
          s.weight words tags nodes + (words + 2) ^ (2 * v.config.stack)) Exceeded.Ordinary := by
  unfold leave
  cases hbot : f.isBottom with
  | true =>
    cases hfull : m.full with
    | true =>
      simp only [if_true]
      rw [hfull] at hs hv
      refine (hs.collect hg (c := { v.config with stack := StackId.empty })
        ⟨hv.held.toBottom hg, hv.state_lt, hv.tag_mem⟩).mono
        fun s' g' _ ⟨hs', hweight⟩ => ⟨hs', ?_⟩
      rw [hweight]
      exact Nat.le_add_right _ _
    | false =>
      -- Without the callers no stack but the empty one has a bottom.
      have hopen := hv.held.isOpen (by simp [hfull])
      simp [hopen.not_isBottom hne f hf] at hbot
  | false =>
    simp only [Bool.false_eq_true, if_false]
    have hparent : f.parent < v.config.stack := hg.parent_lt _ f hf hbot
    have hret : f.ret < emptyReturn := by
      have hle := hg.ret_le _ f hf
      have hneq : f.ret ≠ emptyReturn := by simpa [Frame.isBottom] using hbot
      omega
    have hwithin : (v.config.moveUnder f.ret f.parent).Within words tags m.full tr.graph :=
      ⟨⟨hparent.trans hv.held.stack_lt, fun hw => (hv.held.isOpen hw).parent hne f hf,
        hv.held.routine_eq, hv.held.greedy⟩, Nat.lt_of_lt_of_le hret hwords, hv.tag_mem⟩
    refine .pure hg ⟨hs.push hwithin hcollect, ?_⟩
    rw [Bounded.weight_push, Nat.add_comm]
    -- The parent has a smaller number, so the visit below it weighs less.
    refine Nat.add_le_add_left (Nat.pow_le_pow_right (Nat.succ_pos _) ?_) _
    exact double_succ_le hparent

private theorem leaveAll_bounded (hwords : emptyReturn ≤ words) {v : Visit} {s : Sweep}
    {tr : Trail} (hg : tr.graph.Sound) (hv : v.config.Within words tags m.full tr.graph)
    (hne : v.config.stack ≠ StackId.empty) (hcollect : v.collect = true → collecting = true)
    (hs : Bounded words tags collecting m.full nodes s tr.graph) :
    Probe.Ends false ((tr.graph.frames v.config.stack).reverse.foldlM (leave m v) s) tr
      (fun s' g' => Bounded words tags collecting m.full nodes s' g' ∧
        s'.weight words tags nodes < s.weight words tags nodes +
          (words + 2) ^ (2 * v.config.stack + 1)) Exceeded.Ordinary := by
  refine (Probe.Ends.foldlM (fun fs s' g' => tr.graph.Grown g' ∧
      (∀ f ∈ fs, f ∈ tr.graph.frames v.config.stack) ∧
      Bounded words tags collecting m.full nodes s' g' ∧
      s'.weight words tags nodes + fs.length * (words + 2) ^ (2 * v.config.stack) ≤
        s.weight words tags nodes +
          (tr.graph.frames v.config.stack).length * (words + 2) ^ (2 * v.config.stack)) ?_ hg
    ⟨.refl hg, fun f hf => List.mem_reverse.mp hf, hs, by rw [List.length_reverse]⟩).mono ?_
  · rintro f fs s₁ tr₁ _ ⟨hgrown, hfs, hs₁, hle⟩
    have hf := hfs f List.mem_cons_self
    refine (leave_bounded hwords hgrown.sound (hv.grown hg hgrown) hne
      (by rw [hgrown.keeps _ hv.held.stack_lt]; exact hf) hcollect hs₁).mono
      fun s₂ g₂ hgrown₂ ⟨hs₂, hle₂⟩ => ⟨hgrown.trans hgrown₂,
        fun f' hf' => hfs f' (List.mem_cons_of_mem _ hf'), hs₂, ?_⟩
    rw [List.length_cons, Nat.succ_mul] at hle
    omega
  · rintro s' g' _ ⟨_, _, hs', hle⟩
    refine ⟨hs', ?_⟩
    rw [List.length_nil, Nat.zero_mul, Nat.add_zero] at hle
    refine hle.trans_lt (Nat.add_lt_add_left ?_ _)
    rw [Nat.pow_succ, Nat.mul_comm]
    exact Nat.mul_lt_mul_of_pos_left (length_frames_lt hg hwords _) (Nat.pow_pos (Nat.succ_pos _))

/-- **Following a visit lowers the weight of the sweep.** -/
theorem perform_bounded (hnet : q.net.Consistent) (hword : q.net.states.size ≤ emptyReturn)
    (hwords : emptyReturn ≤ words) (hstock : Stocked q.net tags collecting) {v : Visit}
    {rest : List Visit} {s : Sweep} {tr : Trail} (hg : tr.graph.Sound) (hwork : s.work = v :: rest)
    (hs : Bounded words tags collecting m.full nodes s tr.graph) :
    Probe.Ends false (q.perform m v { s with work := rest }) tr
      (fun s' g' => Bounded words tags collecting m.full nodes s' g' ∧
        s'.weight words tags nodes < s.weight words tags nodes) Exceeded.Ordinary := by
  have hv := hs.within v (by simp [hwork])
  have hcollect := hs.collects v (by simp [hwork])
  have hpop : Bounded words tags collecting m.full nodes { s with work := rest } tr.graph :=
    ⟨hs.nodes_eq, hs.tidy, hs.continues, hs.nodup, hs.seen,
      fun u hu => hs.within u (by simp [hwork, hu]), fun u hu => hs.collects u (by simp [hwork, hu]),
      hs.tagged⟩
  -- Taking the visit from the stack sets its weight free, and what is pushed weighs less.
  have hweight : s.weight words tags nodes =
      v.weight words + ({ s with work := rest } : Sweep).weight words tags nodes := by
    simp [Sweep.weight, hwork, Nat.add_assoc]
  have hpos : 0 < v.weight words := Nat.pow_pos (Nat.succ_pos _)
  have hall : Probe.Ends false (q.expandAll m v (q.net.state v.config.state) { s with work := rest })
      tr (fun s' g' => Bounded words tags collecting m.full nodes s' g' ∧
        s'.weight words tags nodes < s.weight words tags nodes) Exceeded.Ordinary :=
    (expandAll_bounded hnet hword hwords hstock hg hv hcollect hpop).mono
      fun s' g' _ ⟨hs', hle⟩ => ⟨hs', by omega⟩
  unfold perform
  by_cases hstop : (v.checkStop && (q.net.state v.config.state).isRuleStop) = true
  · simp only [if_pos hstop]
    by_cases hne : v.config.stack ≠ StackId.empty
    · rw [if_pos hne]
      refine .bind_get ((leaveAll_bounded hwords hg hv hne hcollect hpop).mono
        fun s' g' _ ⟨hs', hlt⟩ => ⟨hs', ?_⟩)
      have hheavy : v.weight words = (words + 2) ^ (2 * v.config.stack + 1) := by
        simp [Visit.weight, (Bool.and_eq_true_iff.mp hstop).1]
      omega
    · rw [if_neg hne]
      cases hfull : m.full with
      | false =>
        simp only [Bool.false_eq_true, if_false]
        rw [hfull] at hall
        exact hall
      | true =>
        simp only [if_true]
        rw [hfull] at hpop hv
        refine (hpop.collect hg hv).mono fun s' g' _ ⟨hs', hw⟩ => ⟨hs', by omega⟩
  · simp only [if_neg hstop]
    exact hall

end Question

end AdaptiveLL
