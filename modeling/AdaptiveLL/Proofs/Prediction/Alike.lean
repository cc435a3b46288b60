import AdaptiveLL.Proofs.Cache.Calls
import AdaptiveLL.Proofs.InStep
import AdaptiveLL.Proofs.Lookups.Sets
import AdaptiveLL.Proofs.Prediction.Agreement
import AdaptiveLL.Proofs.Prediction.Marks

/-!
# Sets that are interchangeable

How often a thread has left the rule of the decision counts for nothing when sets are compared, but
whether it has done so at all tells visits apart, marks the sets it comes into, and lets a dead end
recover. So sets that are the same are interchangeable if they agree on that of each thread, and
above all if no thread has left the rule: from alike sets a symbol leads to alike sets
(`reach_alike`), and a dead end gives one answer (`deadEnd_alike`).
-/

namespace AdaptiveLL

open Run (InStep)

/-! ## Alike configurations -/

/-- **Alike configurations:** the same but for how often they have left the rule of the decision, if
they have left it at all. -/
structure Config.Alike (c d : Config) : Prop where
  identity_eq : c.identity = d.identity
  outer_iff : 0 < c.outer ↔ 0 < d.outer

namespace Config.Alike

variable {c d c' d' : Config}

theorem refl (c : Config) : c.Alike c := ⟨rfl, Iff.rfl⟩

theorem exists_outer (h : c.Alike d) :
    ∃ n, d = { c with outer := n } ∧ (0 < c.outer ↔ 0 < n) := by
  refine ⟨d.outer, ?_, h.outer_iff⟩
  have hfields := h.identity_eq
  simp only [identity, Config.mk.injEq] at hfields
  obtain ⟨hstate, halt, hstack, hguard, -, hroutine, hgreedy⟩ := hfields
  cases c
  cases d
  simp_all

theorem of_outer {n : Nat} (h : 0 < c.outer ↔ 0 < n) : c.Alike { c with outer := n } := ⟨rfl, h⟩

/-- What is merged stays alike. -/
theorem absorb (h : c.Alike d) (h' : c'.Alike d') (id : StackId) :
    (ConfigSet.absorb c c' id).Alike (ConfigSet.absorb d d' id) := by
  obtain ⟨n, rfl, hn⟩ := h.exists_outer
  obtain ⟨k, rfl, hk⟩ := h'.exists_outer
  refine ⟨rfl, ?_⟩
  simp only [ConfigSet.absorb, lt_max_iff, hn, hk]

end Config.Alike

section Lists

variable {α β : Type} {P : α → β → Prop}

private theorem forall₂_map_eq {γ : Type} {f : α → γ} {f' : β → γ} {l : List α} {l' : List β}
    (h : List.Forall₂ P l l') (hf : ∀ a b, P a b → f a = f' b) : l.map f = l'.map f' := by
  induction h with
  | nil => rfl
  | cons hab _ ih => rw [List.map_cons, List.map_cons, hf _ _ hab, ih]

private theorem forall₂_modify {f : α → α} {f' : β → β} {l : List α} {l' : List β}
    (h : List.Forall₂ P l l') (hf : ∀ a b, P a b → P (f a) (f' b)) (i : Nat) :
    List.Forall₂ P (l.modify i f) (l'.modify i f') := by
  induction h generalizing i with
  | nil => simp
  | cons hab hrest ih =>
    cases i with
    | zero => exact .cons (hf _ _ hab) hrest
    | succ i => exact .cons hab (ih i)

private theorem findIdx?_eq {p : α → Bool} {p' : β → Bool} {l : List α} {l' : List β}
    (h : List.Forall₂ P l l') (hp : ∀ a b, P a b → p a = p' b) :
    l.findIdx? p = l'.findIdx? p' := by
  induction h with
  | nil => rfl
  | cons hab _ ih => rw [List.findIdx?_cons, List.findIdx?_cons, hp _ _ hab, ih]

end Lists

/-! ## Alike sets -/

/-- **Alike sets:** they agree on everything but their configurations, which are alike in turn. -/
structure ConfigSet.Alike (s t : ConfigSet) : Prop where
  configs : List.Forall₂ Config.Alike s.toList t.toList
  rest_eq : { s with configs := t.configs } = t

namespace ConfigSet.Alike

variable {s t : ConfigSet} {c d : Config}

theorem refl (s : ConfigSet) : s.Alike s := ⟨List.forall₂_same.mpr fun c _ => .refl c, rfl⟩

theorem exists_configs (h : s.Alike t) : ∃ cs : Array Config,
    t = { s with configs := cs } ∧ List.Forall₂ Config.Alike s.configs.toList cs.toList :=
  ⟨t.configs, h.rest_eq.symm, h.configs⟩

theorem size_eq (h : s.Alike t) : s.size = t.size := by
  have hlength := h.configs.length_eq
  simpa [toList, size] using hlength

/-- What does not hang on how often threads have left the rule is the same in both sets. -/
theorem map_eq {γ : Type} {f : Config → γ} (h : s.Alike t) (hf : ∀ c n, f { c with outer := n } = f c) :
    s.toList.map f = t.toList.map f := by
  refine forall₂_map_eq h.configs fun c d hcd => ?_
  obtain ⟨n, rfl, -⟩ := hcd.exists_outer
  exact (hf c n).symm

theorem filter {p : Config → Bool} (h : s.Alike t) (hp : ∀ c n, p { c with outer := n } = p c) :
    List.Forall₂ Config.Alike (s.toList.filter p) (t.toList.filter p) := by
  refine List.rel_filter (fun c d hcd => ?_) h.configs
  obtain ⟨n, rfl, -⟩ := hcd.exists_outer
  exact (congrArg (· = true) (hp c n)).to_iff.symm

theorem isEmpty_eq (h : s.Alike t) : s.isEmpty = t.isEmpty := by
  have hsize := h.size_eq
  simp only [size] at hsize
  simp only [isEmpty, Array.isEmpty, hsize]

theorem any_eq {p : Config → Bool} (h : s.Alike t) (hp : ∀ c n, p { c with outer := n } = p c) :
    s.configs.any p = t.configs.any p := by
  have hmap := congrArg (List.any · id) (h.map_eq hp)
  simpa [toList, List.any_map] using hmap

theorem all_eq {p : Config → Bool} (h : s.Alike t) (hp : ∀ c n, p { c with outer := n } = p c) :
    s.configs.all p = t.configs.all p := by
  have hmap := congrArg (List.all · id) (h.map_eq hp)
  simpa [toList, List.all_map] using hmap

theorem commonAlt_eq (h : s.Alike t) : s.commonAlt = t.commonAlt := by
  have hmap := h.map_eq (f := Config.alt) fun _ _ => rfl
  unfold commonAlt
  cases hs : s.toList with
  | nil =>
    rw [hs, List.map_nil, eq_comm, List.map_eq_nil_iff] at hmap
    rw [hmap]
  | cons c cs =>
    rw [hs, List.map_cons, eq_comm, List.map_eq_cons_iff] at hmap
    obtain ⟨d, ds, ht, halt, hrest⟩ := hmap
    have hall : ds.all (·.alt == d.alt) = cs.all (·.alt == c.alt) := by
      simpa [halt, Function.comp_def] using congrArg (List.all · (· == c.alt)) hrest
    rw [ht]
    dsimp only
    rw [hall, halt]

theorem mark (h : s.Alike t) (hcd : c.Alike d) : (s.mark c).Alike (t.mark d) := by
  obtain ⟨cs, rfl, hcs⟩ := h.exists_configs
  obtain ⟨n, rfl, hn⟩ := hcd.exists_outer
  refine ⟨hcs, ?_⟩
  simp only [ConfigSet.mark, hn]

/-- **Alike configurations are added to alike sets** in step. -/
theorem insert (h : s.Alike t) (hcd : c.Alike d) :
    InStep ConfigSet.Alike (s.insert c).toRun (t.insert d).toRun := by
  have hmark := h.mark hcd
  obtain ⟨cs, rfl, hcs⟩ := h.exists_configs
  -- Keys leave the count out, so the same configuration is met in both sets.
  have hfind : (s.configs.findIdx? fun x => s.key x = s.key c) =
      cs.findIdx? fun x => ({ s with configs := cs } : ConfigSet).key x =
        ({ s with configs := cs } : ConfigSet).key d := by
    refine ((List.findIdx?_toArray _ s.configs.toList).trans ?_).trans
      (List.findIdx?_toArray _ cs.toList).symm
    refine findIdx?_eq hcs fun x y hxy => ?_
    obtain ⟨n, rfl, -⟩ := hxy.exists_outer
    obtain ⟨k, rfl, -⟩ := hcd.exists_outer
    rfl
  rw [insert_toRun, insert_toRun, ← hfind]
  have hsize : s.configs.size = cs.size := by simpa using hcs.length_eq
  cases s.configs.findIdx? fun x => s.key x = s.key c with
  | none =>
    dsimp only
    rw [hsize]
    refine .ite (fun _ => .throw _) fun _ => .pure ⟨?_, ?_⟩
    · simpa [toList] using List.rel_append hcs (.cons hcd .nil)
    · obtain ⟨n, rfl, hn⟩ := hcd.exists_outer
      simp only [ConfigSet.mark, hn]
  | some i =>
    dsimp only
    refine .ite (fun _ => .pure hmark) fun _ => ?_
    have hstacks : (s.configs[i]?).map Config.stack = (cs[i]?).map Config.stack := by
      have hmap : s.configs.toList.map Config.stack = cs.toList.map Config.stack := by
        refine forall₂_map_eq hcs fun x y hxy => ?_
        obtain ⟨n, rfl, -⟩ := hxy.exists_outer
        rfl
      simpa using congrArg (fun l => l[i]?) hmap
    have hstack : (s.configs[i]?.getD default).stack = (cs[i]?.getD default).stack := by
      cases hs : s.configs[i]? <;> cases ht : cs[i]? <;> simp_all
    have hstack' : c.stack = d.stack := by
      obtain ⟨n, rfl, -⟩ := hcd.exists_outer
      rfl
    rw [hstack, hstack']
    refine .after fun id => .pure ⟨?_, ?_⟩
    · rw [toList, toList, Array.toList_modify, Array.toList_modify]
      exact forall₂_modify hcs (fun x y hxy => hxy.absorb hcd id) i
    · obtain ⟨n, rfl, hn⟩ := hcd.exists_outer
      simp only [ConfigSet.mark, hn]

/-- Alike sets are the same. -/
theorem same (h : s.Alike t) : s.same t = true := by
  have hmap := h.map_eq (f := Config.identity) fun _ _ => rfl
  obtain ⟨cs, rfl, -⟩ := h.exists_configs
  exact ConfigSet.same_iff.mpr ⟨congrArg (Prod.mk _) hmap, rfl, rfl, rfl, rfl⟩

theorem dips (h : s.Alike t) :
    ({ s with dipsOut := true } : ConfigSet).Alike { t with dipsOut := true } := by
  obtain ⟨cs, rfl, hcs⟩ := h.exists_configs
  exact ⟨hcs, rfl⟩

/-- Alike configurations are added one after the other. -/
theorem insertAll {l l' : List Config} (h : s.Alike t) (hl : List.Forall₂ Config.Alike l l') :
    InStep ConfigSet.Alike (Probe.grow (l.foldlM ConfigSet.insert s))
      (Probe.grow (l'.foldlM ConfigSet.insert t)) := by
  rw [Probe.grow_eq, Probe.grow_eq, Growing.toRun_foldlM, Growing.toRun_foldlM]
  exact .zoom (.foldlM (fun _ _ _ _ hab hxy => hab.insert hxy) hl h)

end ConfigSet.Alike

namespace ConfigSet

variable {s t : ConfigSet}

/-- What diagnostics tell of a set is what sets are compared by. -/
theorem summary_of_same (h : s.same t = true) : s.summary = t.summary := by
  obtain ⟨hfull, hidentity⟩ := Prod.mk.inj (same_iff.mp h).1
  have hsize : s.size = t.size := by
    simpa [toList, size] using congrArg List.length hidentity
  have halts : s.toList.map Config.alt = t.toList.map Config.alt := by
    simpa [Function.comp_def, Config.identity] using congrArg (List.map Config.alt) hidentity
  simp only [summary, alts, hsize, halts, hfull]

/-- **A set that knows whether a thread has left** the rule of the decision. -/
structure KnowsOuter (s : ConfigSet) : Prop where
  unordered : s.ordered = false
  maxSize_eq : s.maxSize = Limits.configsPerSet
  outer_eq : s.dipsOut = false → ∀ c ∈ s.toList, c.outer = 0

/-- Adding configurations, a set keeps knowing it. -/
theorem additive_knowsOuter : Additive KnowsOuter where
  empty _ := ⟨rfl, rfl, nofun⟩
  insert := by
    intro s s' c g g' hs h
    obtain ⟨isNew, hadd⟩ := add_of_insert h
    have hmark : (s.mark c).dipsOut = false → s.dipsOut = false ∧ c.outer = 0 := by
      simp [mark]
    rcases add_of_ok hs.unordered hadd with ⟨-, -, rfl⟩ | ⟨i, hi, id, -, -, rfl⟩
    · refine ⟨hs.unordered, hs.maxSize_eq, fun hdips d hd => ?_⟩
      obtain ⟨hdips, hc⟩ := hmark hdips
      have hd : d ∈ s.toList ∨ d = c := by simpa [toList] using hd
      exact hd.elim (hs.outer_eq hdips d) fun heq => heq ▸ hc
    · refine ⟨hs.unordered, hs.maxSize_eq, fun hdips d hd => ?_⟩
      obtain ⟨hdips, hc⟩ := hmark hdips
      have hd : d ∈ s.toList.modify i (absorb · c id) := by simpa [toList] using hd
      obtain ⟨j, hj, rfl⟩ := List.getElem_of_mem hd
      rw [List.length_modify] at hj
      have hold := hs.outer_eq hdips _ (List.getElem_mem hj)
      rw [List.getElem_modify]
      split
      · simp [absorb, hold, hc]
      · exact hold
  dips hs := ⟨hs.unordered, hs.maxSize_eq, nofun⟩

/-- **Sets that are the same are alike** if no thread has left the rule of the decision. -/
theorem alike_of_same (hs : s.KnowsOuter) (ht : t.KnowsOuter) (h : s.same t = true)
    (hdips : s.dipsOut = false) : s.Alike t := by
  obtain ⟨hcontent, halt, hconflict, hguards, hdipsEq⟩ := same_iff.mp h
  obtain ⟨hfull, hidentity⟩ := Prod.mk.inj hcontent
  have hpairs : List.Forall₂ (fun c d : Config => c.identity = d.identity) s.toList t.toList := by
    have hmap := List.forall₂_eq_eq_eq ▸ hidentity
    rwa [List.forall₂_map_left_iff, List.forall₂_map_right_iff] at hmap
  constructor
  · refine List.forall₂_iff_zip.mpr ⟨hpairs.length_eq, fun {c d} hcd => ?_⟩
    obtain ⟨hc, hd⟩ := List.of_mem_zip hcd
    refine ⟨(List.forall₂_iff_zip.mp hpairs).2 hcd, ?_⟩
    rw [hs.outer_eq hdips c hc, ht.outer_eq (hdipsEq ▸ hdips) d hd]
  · have hordered := hs.unordered.trans ht.unordered.symm
    have hroom := hs.maxSize_eq.trans ht.maxSize_eq.symm
    cases s
    cases t
    simp_all

end ConfigSet

/-! ## Closures of alike configurations -/

/-- Alike visits. -/
structure Visit.Alike (v w : Visit) : Prop where
  config : v.config.Alike w.config
  rest_eq : { v with config := w.config } = w

namespace Visit.Alike

variable {v w : Visit}

theorem exists_config (h : v.Alike w) : ∃ d, w = { v with config := d } ∧ v.config.Alike d :=
  ⟨w.config, h.rest_eq.symm, h.config⟩

end Visit.Alike

/-- Alike sweeps: what is still to be visited is alike, and the visits noted are the same. -/
structure Sweep.Alike (s t : Sweep) : Prop where
  work : List.Forall₂ Visit.Alike s.work t.work
  configs : s.configs.Alike t.configs
  seen_eq : s.seen = t.seen
  reported_eq : s.reported = t.reported

theorem Sweep.Alike.push {s t : Sweep} {v w : Visit} (h : s.Alike t) (hvw : v.Alike w) :
    (s.push v).Alike (t.push w) :=
  ⟨.cons hvw h.work, h.configs, h.seen_eq, h.reported_eq⟩

theorem Sweep.Alike.collect {s t : Sweep} {c d : Config} (h : s.Alike t) (hcd : c.Alike d) :
    InStep Sweep.Alike (s.collect c) (t.collect d) := by
  unfold Sweep.collect
  rw [Probe.grow_eq, Probe.grow_eq]
  exact (h.configs.insert hcd).zoom.bind fun _ _ hconfigs =>
    .pure ⟨h.work, hconfigs, h.seen_eq, h.reported_eq⟩

namespace Question

variable (q : Question) {m : Manner} {v w : Visit} {s t : Sweep} {c d : Config}

private theorem guarded_alike (full evaluate : Bool) (h : c.Alike d) (target : StateId) (g : Guard) :
    InStep (Option.Rel Config.Alike) (q.guarded full evaluate c target g)
      (q.guarded full evaluate d target g) := by
  obtain ⟨n, rfl, hn⟩ := h.exists_outer
  unfold guarded
  refine .ite (fun _ => .pure (.some (.of_outer hn))) fun _ => .ite (fun _ => ?_) fun _ =>
    .pure (.some (.of_outer hn))
  exact .after fun holds => .ite (fun _ => .pure (.some (.of_outer hn))) fun _ => .pure .none

private theorem follow_alike (m : Manner) (collect inside : Bool) (h : c.Alike d) (t : Transition) :
    InStep (Option.Rel Config.Alike) (q.follow m collect inside c t)
      (q.follow m collect inside d t) := by
  have hself := h
  obtain ⟨n, rfl, hn⟩ := h.exists_outer
  cases t with
  | rule target callee follow level => exact .after fun stack => .pure (.some (.of_outer hn))
  | predicate target rule pred contextual => exact q.guarded_alike _ _ hself _ _
  | precedence target level => exact q.guarded_alike _ _ hself _ _
  | epsilon target => exact .pure (.some (.of_outer hn))
  | action target rule index contextual => exact .pure (.some (.of_outer hn))
  | notSet target set => exact .pure .none
  | wildcard target => exact .pure .none
  | _ =>
    unfold follow
    refine .pure ?_
    split
    · exact .some (.of_outer hn)
    · exact .none

private theorem enter_alike (hvw : v.Alike w) (state : State) (tr : Transition) (collect : Bool)
    (hcd : c.Alike d) (h : s.Alike t) :
    InStep Sweep.Alike (q.enter v state tr collect c s) (q.enter w state tr collect d t) := by
  obtain ⟨e, rfl, -⟩ := hvw.exists_config
  -- A thread that leaves has left afterwards on both sides, however often it had done so before.
  have hnext : Config.Alike (if state.isRuleStop then { c with outer := c.outer + 1 } else c)
      (if state.isRuleStop then { d with outer := d.outer + 1 } else d) := by
    split
    · exact ⟨hcd.identity_eq, by simp⟩
    · exact hcd
  unfold enter
  dsimp only
  generalize (if state.isRuleStop then { c with outer := c.outer + 1 } else c) = c' at hnext ⊢
  generalize (if state.isRuleStop then { d with outer := d.outer + 1 } else d) = d' at hnext ⊢
  -- Visits are told apart by the identity and by whether the thread has left: the keys are one.
  rw [hnext.identity_eq, decide_eq_decide.mpr hnext.outer_iff, h.seen_eq, h.reported_eq]
  refine .ite (fun _ => .pure h) fun _ => .ite (fun _ => .pure ?_) fun _ =>
    .ite (fun _ => .ite (fun _ => .ite (fun _ => .pure ?_) fun _ => .after fun _ => .pure ?_)
      fun _ => .pure ?_) fun _ => .pure ?_
  · exact ⟨.cons ⟨hnext, rfl⟩ h.work, h.configs.dips, rfl, rfl⟩
  · exact ⟨h.work, h.configs, rfl, rfl⟩
  · exact ⟨h.work, h.configs, rfl, rfl⟩
  · exact ⟨.cons ⟨hnext, rfl⟩ h.work, h.configs, rfl, rfl⟩
  · exact ⟨.cons ⟨hnext, rfl⟩ h.work, h.configs, rfl, rfl⟩

private theorem expand_alike (m : Manner) (hvw : v.Alike w) (state : State) (h : s.Alike t)
    (tr : Transition) : InStep Sweep.Alike (q.expand m v state s tr) (q.expand m w state t tr) := by
  obtain ⟨d, rfl, hcd⟩ := hvw.exists_config
  unfold expand
  refine (q.follow_alike m _ _ hcd tr).bind fun x y hxy => ?_
  cases hxy with
  | none => exact .pure h
  | some hcd => exact q.enter_alike hvw state tr _ hcd h

private theorem leave_alike (m : Manner) (hvw : v.Alike w) (h : s.Alike t) (f : Frame) :
    InStep Sweep.Alike (leave m v s f) (leave m w t f) := by
  obtain ⟨d, rfl, hcd⟩ := hvw.exists_config
  obtain ⟨n, rfl, hn⟩ := hcd.exists_outer
  unfold leave
  refine .ite (fun _ => .ite (fun _ => h.collect (.of_outer hn)) fun _ => .pure (h.push ?_)) fun _ =>
    .pure (h.push ?_)
  · exact ⟨.of_outer hn, rfl⟩
  · exact ⟨.of_outer hn, rfl⟩

private theorem expandAll_alike (m : Manner) (hvw : v.Alike w) (state : State) (h : s.Alike t) :
    InStep Sweep.Alike (q.expandAll m v state s) (q.expandAll m w state t) := by
  have hall : ∀ s t : Sweep, s.Alike t →
      InStep Sweep.Alike (state.transitions.reverse.foldlM (q.expand m v state) s)
        (state.transitions.reverse.foldlM (q.expand m w state) t) :=
    fun _ _ h => .foldlM_same (fun _ _ tr hst => q.expand_alike m hvw state hst tr) h
  unfold expandAll
  exact .ite (fun _ => hall _ _ h) fun _ => (h.collect hvw.config).bind hall

private theorem perform_alike (m : Manner) (hvw : v.Alike w) (h : s.Alike t) :
    InStep Sweep.Alike (q.perform m v s) (q.perform m w t) := by
  have hself := hvw
  obtain ⟨d, rfl, hcd⟩ := hvw.exists_config
  obtain ⟨n, rfl, hn⟩ := hcd.exists_outer
  unfold perform
  refine .ite (fun _ => .ite (fun _ => .after fun trail => ?_) fun _ => .ite (fun _ => ?_) fun _ => ?_)
    fun _ => ?_
  · exact .foldlM_same (fun _ _ f hst => leave_alike m hself hst f) h
  · exact h.collect hcd
  · exact q.expandAll_alike m hself _ h
  · exact q.expandAll_alike m hself _ h

/-- **The closures of alike configurations** are alike, and the visits on the way are the same. -/
private theorem closure_alike (m : Manner) (collect : Bool) {acc acc' : ConfigSet × List VisitKey}
    (hacc : acc.1.Alike acc'.1 ∧ acc.2 = acc'.2) (hcd : c.Alike d) :
    InStep (fun x y => x.1.Alike y.1 ∧ x.2 = y.2) (q.closure m collect acc c)
      (q.closure m collect acc' d) := by
  -- The invariant of the two loops is that their sweeps are alike, so they end together.
  refine .loop (R := Sweep.Alike) (fun s t h => ?_) q.fuel
    ⟨.cons ⟨hcd, rfl⟩ .nil, hacc.1, hacc.2, rfl⟩
  obtain ⟨work, configs, seen, reported⟩ := s
  obtain ⟨work', configs', seen', reported'⟩ := t
  obtain ⟨hwork, hconfigs, hseen, hreported⟩ := h
  dsimp only at hwork hconfigs hseen hreported
  cases hwork with
  | nil => exact .pure (Sum.LiftRel.inr ⟨hconfigs, hseen⟩)
  | @cons v w work work' hvw hwork =>
    have hrest : Sweep.Alike ⟨work, configs, seen, reported⟩ ⟨work', configs', seen', reported'⟩ :=
      ⟨hwork, hconfigs, hseen, hreported⟩
    exact (q.perform_alike m hvw hrest).bind fun _ _ h => .pure (Sum.LiftRel.inl h)

end Question

/-! ## Symbols and dead ends -/

namespace Question

variable (q : Question) {s t : ConfigSet}

private theorem consume_alike (v : Symbol) (full : Bool) (h : s.Alike t) :
    InStep ConfigSet.Alike (q.consume v full s) (q.consume v full t) := by
  unfold consume
  rw [Probe.grow_eq, Probe.grow_eq, Growing.toRun_foldlM, Growing.toRun_foldlM]
  refine .zoom (.foldlM (fun _ _ c d hab hcd => ?_) (h.filter fun _ _ => rfl) (.refl _))
  obtain ⟨n, rfl, hn⟩ := hcd.exists_outer
  rw [Growing.toRun_foldlM, Growing.toRun_foldlM]
  exact .foldlM_same (fun _ _ tr hab => hab.insert (.of_outer hn)) hab

private theorem closeAll_alike (m : Manner) (h : s.Alike t) :
    InStep ConfigSet.Alike (q.closeAll m s) (q.closeAll m t) := by
  unfold closeAll
  refine InStep.bind (R := fun x y => x.1.Alike y.1 ∧ x.2 = y.2) ?_ fun _ _ hacc => .pure hacc.1
  exact .foldlM (P := Config.Alike) (fun _ _ _ _ hacc hcd => q.closure_alike m false hacc hcd)
    h.configs ⟨.refl _, rfl⟩

private theorem finished_alike (h : s.Alike t) :
    InStep ConfigSet.Alike (q.finished s) (q.finished t) := by
  have hall : s.allAtRuleStop q.net = t.allAtRuleStop q.net :=
    h.all_eq fun _ _ => rfl
  have hfull : s.fullContext = t.fullContext := by
    obtain ⟨cs, rfl, -⟩ := h.exists_configs
    rfl
  unfold finished
  rw [hall, hfull]
  exact .ite (fun _ => .pure h) fun _ => (ConfigSet.Alike.refl _).insertAll (h.filter fun _ _ => rfl)

private theorem addWaiting_alike (full : Bool) {l l' : List Config}
    (hl : List.Forall₂ Config.Alike l l') (h : s.Alike t) :
    InStep ConfigSet.Alike (q.addWaiting full l s) (q.addWaiting full l' t) := by
  have hsome : s.someAtRuleStop q.net = t.someAtRuleStop q.net :=
    h.any_eq fun _ _ => rfl
  unfold addWaiting
  rw [hsome]
  exact .ite (fun _ => .pure h) fun _ => h.insertAll hl

/-- **From alike sets a symbol leads to alike sets,** or to none from either. -/
theorem reach_alike (v : Symbol) (full : Bool) (h : s.Alike t) :
    InStep (Option.Rel ConfigSet.Alike) (q.reach v full s) (q.reach v full t) := by
  have hwaiting : List.Forall₂ Config.Alike (q.waiting v full s) (q.waiting v full t) := by
    unfold waiting
    split
    · exact h.filter fun _ _ => rfl
    · exact .nil
  have hempty : (q.waiting v full s).isEmpty = (q.waiting v full t).isEmpty := by
    rw [← List.isEmpty_map (f := Config.state), ← List.isEmpty_map (f := Config.state)]
    refine congrArg _ (forall₂_map_eq hwaiting fun c d hcd => ?_)
    obtain ⟨n, rfl, -⟩ := hcd.exists_outer
    rfl
  rw [reach_eq, reach_eq, hempty]
  refine (q.consume_alike v full h).bind fun moved moved' hmoved => ?_
  -- Whether the closure is left out hangs on the size and the alternatives alone.
  rw [hmoved.size_eq, hmoved.commonAlt_eq]
  refine InStep.bind (R := ConfigSet.Alike) ?_ fun _ _ hnext => ?_
  · exact .ite (fun _ => .pure hmoved) fun _ => q.closeAll_alike _ hmoved
  refine InStep.bind (R := ConfigSet.Alike) ?_ fun _ _ hnext => ?_
  · exact .ite (fun _ => q.finished_alike hnext) fun _ => .pure hnext
  refine (q.addWaiting_alike full hwaiting hnext).bind fun last last' hlast => .pure ?_
  rw [hlast.isEmpty_eq]
  split
  · exact .none
  · exact .some hlast

/-- From alike sets some symbols lead to alike sets. -/
theorem reachAll_alike (full : Bool) (w : List Symbol) (h : s.Alike t) :
    InStep (Option.Rel ConfigSet.Alike) (q.reachAll full w s) (q.reachAll full w t) := by
  induction w generalizing s t with
  | nil => exact .pure (.some h)
  | cons v w ih =>
    refine (q.reach_alike v full h).bind fun next next' hnext => ?_
    cases hnext with
    | none => exact .pure .none
    | some h => exact ih h

end Question

namespace Request

variable (r : Request) {s t : ConfigSet}

private theorem partition_alike {l l' : List Config} (h : List.Forall₂ Config.Alike l l') :
    InStep (fun x y => List.Forall₂ Config.Alike x.1 y.1 ∧ List.Forall₂ Config.Alike x.2 y.2)
      (r.partition l) (r.partition l') := by
  induction h with
  | nil => exact .pure ⟨.nil, .nil⟩
  | @cons c d cs ds hcd _ ih =>
    have hsides : ∀ passes : Bool,
        InStep (fun x y => List.Forall₂ Config.Alike x.1 y.1 ∧ List.Forall₂ Config.Alike x.2 y.2)
          (r.partition cs >>= fun parts =>
            pure (if passes then (c :: parts.1, parts.2) else (parts.1, c :: parts.2)))
          (r.partition ds >>= fun parts =>
            pure (if passes then (d :: parts.1, parts.2) else (parts.1, d :: parts.2))) := by
      refine fun passes => ih.bind fun _ _ hparts => .pure ?_
      cases passes with
      | false => exact ⟨hparts.1, .cons hcd hparts.2⟩
      | true => exact ⟨.cons hcd hparts.1, hparts.2⟩
    have hguard : c.guard = d.guard := by
      obtain ⟨n, rfl, -⟩ := hcd.exists_outer
      rfl
    unfold partition
    rw [hguard]
    exact .ite (fun _ => hsides true) fun _ => .after hsides

private theorem finishedAlt?_eq {l l' : List Config} (h : List.Forall₂ Config.Alike l l')
    (g : StackGraph) : r.finishedAlt? g l = r.finishedAlt? g l' := by
  have hfilter : List.Forall₂ Config.Alike (l.filter (r.finishedRule g))
      (l'.filter (r.finishedRule g)) := by
    refine List.rel_filter (fun c d hcd => ?_) h
    obtain ⟨n, rfl, hn⟩ := hcd.exists_outer
    -- Only whether the thread has left is asked here, not how often.
    simp only [finishedRule, Question.atRuleStop, decide_eq_decide.mpr hn]
  refine congrArg List.min? (forall₂_map_eq hfilter fun c d hcd => ?_)
  obtain ⟨n, rfl, -⟩ := hcd.exists_outer
  rfl

/-- The error of a dead end tells nothing that sets are not compared by. -/
private theorem noViable_of_same (h : s.same t = true) (offending : Nat) :
    r.noViable offending s = r.noViable offending t := by
  unfold noViable
  rw [ConfigSet.summary_of_same h]

/-- **Where dead ends do not recover,** sets that are the same are answered the same error. -/
theorem deadEnd_of_same (hrecover : r.settings.recoverAtRuleEnd = false) (h : s.same t = true)
    (stream : TokenStream) : r.deadEnd s stream = r.deadEnd t stream := by
  unfold deadEnd
  rw [hrecover, r.noViable_of_same h]
  rfl

/-- **A dead end gives one answer** at sets that are alike. -/
theorem deadEnd_alike (h : s.Alike t) (stream : TokenStream) :
    r.deadEnd s stream = r.deadEnd t stream := by
  unfold deadEnd
  rw [r.noViable_of_same h.same]
  refine InStep.eq (.ite (fun _ => .throw _) fun _ => ?_)
  refine (r.partition_alike h.configs).bind ?_
  rintro ⟨valid, invalid⟩ ⟨valid', invalid'⟩ ⟨hvalid, hinvalid⟩
  refine .after fun session => ?_
  dsimp only
  rw [r.finishedAlt?_eq hvalid, r.finishedAlt?_eq hinvalid]
  exact .refl _

end Request

/-! ## Sets that are the same -/

namespace Question

variable {q : Question} {s t : ConfigSet}

/-- A set that a symbol leads to knows whether a thread has left the rule of the decision. -/
private theorem reach_knowsOuter (v : Symbol) (full : Bool) (s : ConfigSet) :
    (q.reach v full s).Gives fun next => ∀ s', next = some s' → s'.KnowsOuter :=
  reach_additive ConfigSet.additive_knowsOuter v full s

/-- From sets that are the same, and that no thread has left the rule in, what follows leads to sets
that are the same, and dead ends are answered alike. -/
private theorem reachAll_of_same (hs : s.KnowsOuter) (ht : t.KnowsOuter) (h : s.same t = true)
    (hdips : s.dipsOut = false) (full : Bool) (w : List Symbol) :
    InStep (Option.Rel fun s' t' => s'.same t' = true ∧
        ∀ r : Request, ∀ stream, r.deadEnd s' stream = r.deadEnd t' stream)
      (q.reachAll full w s) (q.reachAll full w t) := by
  refine (q.reachAll_alike full w (ConfigSet.alike_of_same hs ht h hdips)).mono fun _ _ hnext => ?_
  cases hnext with
  | none => exact .none
  | some h => exact .some ⟨h.same, fun r stream => r.deadEnd_alike h stream⟩

/-- **Sets that are the same are interchangeable** as far as possible. Of the sets that symbols lead
to, those that are the same lead on to sets that are the same and have the same dead ends, if no
thread has left the rule of the decision. Where no dead end recovers, they have the same dead ends in
any case. -/
theorem interchangeable (q : Question) :
    (∀ v full s, (q.reach v full s).Gives fun next => ∀ s', next = some s' → s'.KnowsOuter) ∧
    ∀ s t : ConfigSet, s.KnowsOuter → t.KnowsOuter → s.same t = true →
      (s.dipsOut = false → ∀ full w,
        InStep (Option.Rel fun s' t' => s'.same t' = true ∧
            ∀ r : Request, ∀ stream, r.deadEnd s' stream = r.deadEnd t' stream)
          (q.reachAll full w s) (q.reachAll full w t)) ∧
      ∀ r : Request, r.settings.recoverAtRuleEnd = false → ∀ stream,
        r.deadEnd s stream = r.deadEnd t stream :=
  ⟨reach_knowsOuter, fun _ _ hs ht h => ⟨reachAll_of_same hs ht h,
    fun r hrecover stream => r.deadEnd_of_same hrecover h stream⟩⟩

end Question

/-- A set of two threads, of which one has left the rule of the decision. -/
private def oneLeft (alt : Nat) : ConfigSet :=
  { configs := #[{ state := 0, alt := 1, stack := StackId.empty, outer := if alt = 1 then 1 else 0 },
      { state := 0, alt := 2, stack := StackId.empty, outer := if alt = 2 then 1 else 0 }]
    dipsOut := true }

/-- **Where a thread has left the rule, sets that are the same need not be interchangeable:** a dead
end that recovers goes by which thread it was. -/
theorem exists_same_deadEnd_ne : ∃ (r : Request) (s t : ConfigSet), s.KnowsOuter ∧ t.KnowsOuter ∧
    s.same t = true ∧ r.deadEnd s r.stream ≠ r.deadEnd t r.stream := by
  refine ⟨{ (default : Request) with settings := { recoverAtRuleEnd := true } }, oneLeft 1,
    oneLeft 2, ⟨rfl, rfl, nofun⟩, ⟨rfl, rfl, nofun⟩, rfl, fun h => ?_⟩
  have hanswers := congrArg (fun m => (m.from? default).map fun x => x.1.toOption) h
  have hanswer : some (some 1) = some (some 2) := hanswers
  cases hanswer

end AdaptiveLL
