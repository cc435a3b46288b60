import AdaptiveLL.Proofs.Lexing.Places
import AdaptiveLL.Proofs.Lexing.Transparency
import AdaptiveLL.Proofs.Lookups.Caches

/-!
# Which ceilings a match meets

In a lexer whose rules call no rules and give no commands, a thread is nothing but its strand: no
stack has to be stored, and no set holds a strand twice. So a set of threads has as many members as
there are strands, and the only ceilings that a match can meet are those on the members of a set and
on the length of a token. `Scanner.matchToken_ceilings` says when it meets them.
-/

namespace AdaptiveLL

/-! ## Strands as threads -/

/-- **The thread of a strand** in which nothing was called and no command given. -/
def Strand.thread (t : Strand) : Config :=
  { state := t.state, alt := t.alt, stack := StackId.empty, nonGreedy := t.nonGreedy }

@[simp] theorem Strand.thread_state (t : Strand) : t.thread.state = t.state := rfl

@[simp] theorem Strand.thread_alt (t : Strand) : t.thread.alt = t.alt := rfl

@[simp] theorem Strand.thread_nonGreedy (t : Strand) : t.thread.nonGreedy = t.nonGreedy := rfl

/-- Whether the transition neither calls a rule nor gives a command. -/
def Transition.isFlat : Transition → Bool
  | .rule .. | .action .. => false
  | _ => true

/-- **A network without calls and commands.** -/
def Network.Flat (net : Network) : Prop := ∀ q, ∀ t ∈ (net.state q).transitions, t.isFlat = true

/-- Nothing was called on the way of the strands. -/
def Uncalled (l : List Strand) : Prop := ∀ t ∈ l, t.stack = []

/-- There are more strands than a set may have members. -/
def Overfull (l : List Strand) : Prop := Limits.configsPerSet < (firsts l).length

/-- **A result with `Q`, unless a set is full:** then the ceiling on its members is met. -/
abbrev UnlessFull {α : Type} (Q : α → Prop) (full : Prop) : Except Exceeded α → Prop
  | .ok a => Q a
  | .error e => e = .tooMany Limits.configsPerSet ∧ full

section Strands

variable {t u : Strand} {l m : List Strand}

/-- Strands in which nothing was called are told apart by their threads. -/
theorem Strand.eq_of_threadKey (ht : t.stack = []) (hu : u.stack = [])
    (h : t.thread.threadKey = u.thread.threadKey) : t = u := by
  obtain ⟨state, alt, stack, nonGreedy⟩ := t
  obtain ⟨state', alt', stack', nonGreedy'⟩ := u
  obtain ⟨rfl, rfl, rfl⟩ : state = state' ∧ alt = alt' ∧ nonGreedy = nonGreedy' := by
    simpa [Strand.thread, Config.threadKey] using h
  rw [show stack = stack' from ht.trans hu.symm]

theorem Uncalled.append (hl : Uncalled l) (hm : Uncalled m) : Uncalled (l ++ m) := fun t ht =>
  (List.mem_append.mp ht).elim (hl t) (hm t)

theorem Uncalled.concat (hl : Uncalled l) (ht : t.stack = []) : Uncalled (l ++ [t]) :=
  hl.append fun _ hu => List.mem_singleton.mp hu ▸ ht

theorem firsts_prefix_append (l m : List Strand) : firsts l <+: firsts (l ++ m) := by
  induction m using List.reverseRecOn with
  | nil => rw [List.append_nil]
  | append_singleton m a ih =>
    rw [← List.append_assoc]
    by_cases ha : a ∈ l ++ m
    · rwa [firsts_concat_of_mem ha]
    · rw [firsts_concat_of_notMem ha]
      exact ih.trans (List.prefix_append _ _)

/-- More strands do not make room. -/
theorem Overfull.of_begins (h : Overfull l) (hm : l <+: m) : Overfull m := by
  obtain ⟨more, rfl⟩ := hm
  exact Nat.lt_of_lt_of_le h (firsts_prefix_append l more).length_le

end Strands

/-! ## Sets -/

/-- **The set lists strands:** its members are their threads, each at its first place. -/
structure ConfigSet.Lists (s : ConfigSet) (l : List Strand) : Prop where
  members : s.toList = (firsts l).map Strand.thread
  uncalled : Uncalled l
  room : ¬Overfull l

/-- **A lexer's set in the making,** which lists strands. -/
structure ConfigSet.Collects (s : ConfigSet) (l : List Strand) : Prop extends s.Lists l where
  ordered : s.ordered = true
  maxSize_eq : s.maxSize = Limits.configsPerSet

theorem ConfigSet.Lists.size_eq {s : ConfigSet} {l : List Strand} (h : s.Lists l) :
    s.configs.size = (firsts l).length := by
  rw [← Array.length_toList, ← List.length_map (f := Strand.thread), ← h.members]
  rfl

namespace ConfigSet.Collects

variable {s : ConfigSet} {l : List Strand} {t : Strand}

theorem forLexer : ConfigSet.forLexer.Collects [] := ⟨⟨rfl, nofun, Nat.not_lt_zero _⟩, rfl, rfl⟩

/-- Whether guards were met is nothing that is listed. -/
theorem setGuards (h : s.Collects l) (b : Bool) :
    ({ s with hasGuards := b } : ConfigSet).Collects l :=
  ⟨⟨h.members, h.uncalled, h.room⟩, h.ordered, h.maxSize_eq⟩

/-- The set tells threads apart as strands are. -/
private theorem mem_iff (h : s.Collects l) (ht : t.stack = []) :
    (∃ c ∈ s.toList, s.key c = s.key t.thread) ↔ t ∈ l := by
  rw [h.members]
  constructor
  · rintro ⟨c, hc, hkey⟩
    obtain ⟨u, hu, rfl⟩ := List.mem_map.mp hc
    unfold ConfigSet.key at hkey
    simp only [h.ordered, if_true, ConfigKey.mk.injEq, Option.some.injEq, Prod.mk.injEq] at hkey
    have hthread : u.thread.threadKey = t.thread.threadKey := by
      simp only [Config.threadKey, hkey]
    have hu := mem_firsts.mp hu
    exact Strand.eq_of_threadKey (h.uncalled u hu) ht hthread ▸ hu
  · exact fun hmem => ⟨_, List.mem_map_of_mem (mem_firsts.mpr hmem), rfl⟩

/-- **Adding the thread of a strand** adds the strand, if there is room for it. -/
theorem insert_ensures (h : s.Collects l) (ht : t.stack = []) (tr : Trail) :
    (Probe.grow (s.insert t.thread)).Ensures tr fun r _ =>
      UnlessFull (·.Collects (l ++ [t])) (Overfull (l ++ [t])) r := by
  refine .of_eq (Run.from?_ofStep _ tr) ?_
  rw [insert_run]
  -- A strand that is there already takes no room; a new one takes one place.
  cases hfind : s.configs.findIdx? fun d => s.key d = s.key t.thread with
  | some i =>
    obtain ⟨hi, hkey, -⟩ := Array.findIdx?_eq_some_iff_getElem.mp hfind
    have hmem : t ∈ l := (h.mem_iff ht).mp
      ⟨_, Array.getElem_mem_toList hi, of_decide_eq_true hkey⟩
    have hfirsts := firsts_concat_of_mem hmem
    simp only [h.ordered, if_true]
    refine ⟨⟨h.members.trans (by rw [hfirsts]), h.uncalled.concat ht, ?_⟩, h.ordered,
      h.maxSize_eq⟩
    rw [Overfull, hfirsts]
    exact h.room
  | none =>
    have hnot : t ∉ l := fun hmem => by
      obtain ⟨c, hc, hkey⟩ := (h.mem_iff ht).mpr hmem
      have := Array.findIdx?_eq_none_iff.mp hfind c (Array.mem_toList_iff.mp hc)
      exact absurd hkey (of_decide_eq_false this)
    have hlength : (firsts (l ++ [t])).length = (firsts l).length + 1 := by
      rw [firsts_concat_of_notMem hnot, List.length_append, List.length_singleton]
    dsimp only
    rw [h.maxSize_eq, h.size_eq]
    by_cases hfull : Limits.configsPerSet ≤ (firsts l).length
    · have hsize : (firsts l).length = Limits.configsPerSet :=
        Nat.le_antisymm (Nat.le_of_not_lt h.room) hfull
      rw [if_pos hfull, hsize]
      refine ⟨rfl, ?_⟩
      rw [Overfull, hlength]
      exact Nat.lt_succ_of_le hfull
    · rw [if_neg hfull]
      refine ⟨⟨?_, h.uncalled.concat ht, ?_⟩, h.ordered, h.maxSize_eq⟩
      · change (s.configs.push t.thread).toList = _
        rw [Array.toList_push, firsts_concat_of_notMem hnot, List.map_append]
        exact congrArg (· ++ _) h.members
      · rw [Overfull, hlength]
        omega

end ConfigSet.Collects

/-! ## Closures -/

/-- **A chase of threads follows a chase of strands** and adds what it finds to a set that lists
`l`. -/
structure Chase.Follows (l : List Strand) (s : Chase) (p : Pursuit) : Prop where
  work_eq : s.work = p.work.map Strand.thread
  seen_eq : s.seen = p.seen.map fun t => t.thread.threadKey
  configs : s.configs.Collects (l ++ p.found)
  finished_eq : s.finished = p.finished
  work_uncalled : Uncalled p.work
  seen_uncalled : Uncalled p.seen

namespace Vantage

variable {v : Vantage} {l : List Strand} {s : Chase} {p e : Pursuit} {t : Strand}
  (hhost : v.host.Steady)

/-- A chase loses nothing that was found. -/
theorem Chases.found_begins (h : v.Chases p e) : p.found <+: e.found := by
  refine h.keeps (fun q => p.found <+: q.found) (fun _ _ _ hq _ _ => hq) (fun q t rest hq _ _ => ?_)
    (List.prefix_refl _)
  unfold visit
  split
  · split
    · exact hq.trans (List.prefix_append _ _)
    · exact hq
  · dsimp only
    split
    · exact hq
    · exact hq.trans (List.prefix_append _ _)

/-- There is one way for a chase to go. -/
theorem Chases.of_pursue {p' : Pursuit} (h : v.Chases p e) (hstep : v.pursue p = some p') :
    v.Chases p' e := by
  cases h with
  | done hnone => cases hnone.symm.trans hstep
  | step hstep' h => exact Option.some.inj (hstep'.symm.trans hstep) ▸ h

include hhost in
/-- A transition leads a thread where it leads its strand. -/
private theorem follow_flat {step : Transition} (hstep : step.isFlat = true) (tr : Trail) :
    (v.follow t.thread step).Ensures tr fun r _ =>
      r = .ok ((v.onward t step).map Strand.thread) := by
  cases step with
  | rule => cases hstep
  | action => cases hstep
  | predicate target rule pred contextual =>
    have hholds : (Probe.holds v.host v.position (.predicate rule pred contextual)).Ensures tr
        fun r _ => r = .ok ((Guard.predicate rule pred contextual).holds v.host.now v.position) :=
      .of_eq (Probe.from?_holds hhost _ _ tr) rfl
    refine hholds.bind (fun b tr₁ hb => ?_) nofun
    rw [onward, ← Except.ok.inj hb]
    cases b with
    | true => exact .pure rfl
    | false => exact .pure rfl
  | atom =>
    refine .pure ?_
    unfold onward
    split <;> rfl
  | range =>
    refine .pure ?_
    unfold onward
    split <;> rfl
  | set =>
    refine .pure ?_
    unfold onward
    split <;> rfl
  | epsilon => exact .pure rfl
  | precedence => exact .pure rfl
  | notSet => exact .pure rfl
  | wildcard => exact .pure rfl

include hhost in
private theorem followAll_flat {steps : List Transition}
    (hsteps : ∀ step ∈ steps, step.isFlat = true) (tr : Trail) :
    (v.followAll t.thread steps).Ensures tr fun r _ =>
      r = .ok ((steps.filterMap (v.onward t)).map Strand.thread) := by
  induction steps generalizing tr with
  | nil => exact .pure rfl
  | cons step steps ih =>
    refine (follow_flat hhost (hsteps step List.mem_cons_self) tr).bind (fun next tr₁ hnext => ?_) nofun
    refine (ih (fun x hx => hsteps x (List.mem_cons_of_mem _ hx)) tr₁).bind
      (fun others tr₂ hothers => .pure ?_) nofun
    obtain rfl := Except.ok.inj hnext
    obtain rfl := Except.ok.inj hothers
    rw [List.filterMap_cons]
    cases v.onward t step <;> rfl

/-- Where nothing is called, a transition leads to where nothing was called. -/
private theorem uncalled_onward {step : Transition} {u : Strand} (hstep : step.isFlat = true)
    (ht : t.stack = []) (h : v.onward t step = some u) : u.stack = [] := by
  cases step <;> simp only [onward, Option.ite_none_right_eq_some, Option.some.injEq,
    reduceCtorEq] at h
  case rule => cases hstep
  case action => cases hstep
  case epsilon => exact h ▸ ht
  all_goals exact h.2 ▸ ht

/-! ### Steps of a chase -/

private theorem collect_flat (hs : s.Follows l p) (ht : t.stack = []) (tr : Trail) :
    (s.collect t.thread).Ensures tr fun r _ =>
      UnlessFull (·.Follows l { p with found := p.found ++ [t] })
        (Overfull (l ++ (p.found ++ [t]))) r := by
  rw [← List.append_assoc]
  refine (hs.configs.insert_ensures ht tr).bind (fun configs tr₁ hconfigs => .pure ?_) fun _ _ => id
  exact ⟨hs.work_eq, hs.seen_eq, by rwa [← List.append_assoc], hs.finished_eq, hs.work_uncalled,
    hs.seen_uncalled⟩

/-- A thread that ends its rule has finished its token. -/
private theorem leave_flat (hs : s.Follows l p) (ht : t.stack = [])
    (hstop : v.net.isStop t.state = true) (tr : Trail) :
    (v.leave t.thread s).Ensures tr fun r _ =>
      UnlessFull (·.Follows l (v.visit t p)) (Overfull (l ++ (v.visit t p).found)) r := by
  unfold leave visit
  rw [if_pos hstop, ht, if_pos (show t.thread.stack = StackId.empty from rfl)]
  refine (collect_flat hs ht tr).bind (fun s₁ tr₁ hs₁ => .pure ?_) fun _ _ => id
  exact ⟨hs₁.work_eq, hs₁.seen_eq, hs₁.configs, rfl, hs₁.work_uncalled, hs₁.seen_uncalled⟩

include hhost in
private theorem expand_flat (hflat : v.net.Flat) (hs : s.Follows l p) (ht : t.stack = [])
    (hstop : v.net.isStop t.state = false) (tr : Trail) :
    (v.expand t.thread s).Ensures tr fun r _ =>
      UnlessFull (·.Follows l (v.visit t p)) (Overfull (l ++ (v.visit t p).found)) r := by
  unfold expand visit
  rw [hstop, if_neg Bool.false_ne_true, hs.finished_eq]
  dsimp only
  rw [← apply_ite (· >>= _)]
  have hcollect : Run.Ensures
      (if ((v.net.state t.state).onlyEpsilon || (p.finished && t.nonGreedy)) = true then pure s
        else s.collect t.thread : Probe Chase) tr fun r _ =>
          let found := if (v.net.state t.state).onlyEpsilon || (p.finished && t.nonGreedy)
            then p.found else p.found ++ [t]
          UnlessFull (·.Follows l { p with found }) (Overfull (l ++ found)) r := by
    split
    · exact .pure hs
    · exact collect_flat hs ht tr
  refine hcollect.bind (fun s₁ tr₁ hs₁ => ?_) fun _ _ => id
  refine (followAll_flat hhost (hflat t.state) tr₁).bind (fun next tr₂ hnext => .pure ?_) nofun
  obtain rfl := Except.ok.inj hnext
  refine ⟨?_, hs₁.seen_eq, hs₁.configs.setGuards _, hs₁.finished_eq, ?_, hs₁.seen_uncalled⟩
  · rw [List.map_append, hs₁.work_eq]
    rfl
  · refine Uncalled.append (fun u hu => ?_) hs₁.work_uncalled
    obtain ⟨step, hstep, hon⟩ := List.mem_filterMap.mp hu
    exact uncalled_onward (hflat t.state step hstep) ht hon

include hhost in
/-- **One step of a chase** goes as the chase of strands does. -/
private theorem chaseStep_flat (hflat : v.net.Flat) (hs : s.Follows l p) (tr : Trail) :
    (v.chaseStep s).Ensures tr fun r _ =>
      match r with
      | .ok (.inl s') => ∃ p', v.pursue p = some p' ∧ s'.Follows l p'
      | .ok (.inr (configs, done)) =>
        v.pursue p = none ∧ configs.Collects (l ++ p.found) ∧ done = p.finished
      | .error e => e = .tooMany Limits.configsPerSet ∧
        ∃ p', v.pursue p = some p' ∧ Overfull (l ++ p'.found) := by
  unfold chaseStep
  rw [hs.work_eq]
  cases hwork : p.work with
  | nil =>
    refine .pure ⟨?_, hs.configs, hs.finished_eq⟩
    rw [pursue, hwork]
  | cons t rest =>
    have hstep := pursue_cons (v := v) hwork
    have huncalled : Uncalled (t :: rest) := hwork ▸ hs.work_uncalled
    have ht : t.stack = [] := huncalled t List.mem_cons_self
    have hrest : Uncalled rest := fun u hu => huncalled u (List.mem_cons_of_mem _ hu)
    -- The threads that were seen are kept by their keys, which tell strands without calls apart.
    have hseen : s.seen.contains t.thread.threadKey = decide (t ∈ p.seen) := by
      rw [Bool.eq_iff_iff, List.contains_iff_mem, decide_eq_true_iff, hs.seen_eq]
      constructor
      · intro hmem
        obtain ⟨u, hu, hkey⟩ := List.mem_map.mp hmem
        exact Strand.eq_of_threadKey (hs.seen_uncalled u hu) ht hkey ▸ hu
      · exact fun hmem => List.mem_map_of_mem hmem
    rw [List.map_cons]
    dsimp only
    rw [hseen]
    by_cases hmem : t ∈ p.seen
    · rw [if_pos hmem] at hstep
      rw [decide_eq_true hmem, if_pos rfl]
      exact .pure ⟨_, hstep, rfl, hs.seen_eq, hs.configs, hs.finished_eq, hrest, hs.seen_uncalled⟩
    · rw [if_neg hmem] at hstep
      rw [decide_eq_false hmem, if_neg Bool.false_ne_true, ← bind_pure_comp]
      have hs₀ : Chase.Follows l
          { s with work := rest.map Strand.thread, seen := t.thread.threadKey :: s.seen }
          { p with work := rest, seen := t :: p.seen } := by
        refine ⟨rfl, ?_, hs.configs, hs.finished_eq, hrest, ?_⟩
        · rw [hs.seen_eq, List.map_cons]
        · exact List.forall_mem_cons.mpr ⟨ht, hs.seen_uncalled⟩
      refine Run.Ensures.bind (Q := fun r _ =>
        UnlessFull (·.Follows l (v.visit t { p with work := rest, seen := t :: p.seen }))
          (Overfull (l ++ (v.visit t { p with work := rest, seen := t :: p.seen }).found)) r) ?_
        (fun s₁ tr₁ hs₁ => .pure ⟨_, hstep, hs₁⟩) fun e tr₁ hmet => ⟨hmet.1, _, hstep, hmet.2⟩
      cases hstop : v.net.isStop t.state with
      | true =>
        rw [if_pos (show (v.net.state t.thread.state).isRuleStop = true from hstop)]
        exact leave_flat hs₀ ht hstop tr
      | false =>
        have hgoes : (v.net.state t.thread.state).isRuleStop = false := hstop
        rw [hgoes, if_neg Bool.false_ne_true]
        exact expand_flat hhost hflat hs₀ ht hstop tr

include hhost in
/-- **The closure of a thread** adds what the chase of its strand finds, if there is room for it. -/
theorem closure_flat (hflat : v.net.Flat) {configs : ConfigSet} (hs : configs.Collects l)
    (finished : Bool) (ht : t.stack = []) (tr : Trail) :
    (v.closure configs finished t.thread).Ensures tr fun r _ =>
      UnlessFull
        (fun r => ∃ e, v.Chases (begin t finished) e ∧ r.1.Collects (l ++ e.found) ∧
          r.2 = e.finished)
        (∀ e, v.Chases (begin t finished) e → Overfull (l ++ e.found)) r := by
  -- In every round the chase of threads follows one of strands that comes to the same end as the
  -- first one did.
  refine .loop (fun s _ => ∃ p, s.Follows l p ∧
    ∀ e, v.Chases p e ↔ v.Chases (begin t finished) e) ?_
    ⟨begin t finished, ⟨rfl, rfl, ?_, rfl, ?_, nofun⟩, fun _ => .rfl⟩
  · rintro s tr' ⟨p, hs', hends⟩
    refine (chaseStep_flat hhost hflat hs' tr').mono ?_
    rintro (x | (s₁ | ⟨configs', done⟩)) tr₁ h
    · obtain ⟨hx, p', hstep, hfull⟩ := h
      refine ⟨hx, fun e he => ?_⟩
      have hfound := (((hends e).mpr he).of_pursue hstep).found_begins
      exact hfull.of_begins ((List.prefix_append_right_inj l).mpr hfound)
    · obtain ⟨p', hstep, hs₁⟩ := h
      exact ⟨p', hs₁, fun e => ⟨fun he => (hends e).mp (.step hstep he),
        fun he => ((hends e).mpr he).of_pursue hstep⟩⟩
    · obtain ⟨hnone, hconfigs, hdone⟩ := h
      exact ⟨p, (hends p).mp (.done hnone), hconfigs, hdone⟩
  · rw [List.append_nil]
    exact hs
  · exact fun u hu => List.mem_singleton.mp hu ▸ ht

/-! ### Characters -/

variable {symbol : Symbol} {configs : ConfigSet} {finished : Bool}

include hhost in
private theorem consumeAll_flat (hflat : v.net.Flat) (hs : configs.Collects l) (ht : t.stack = [])
    (steps : List Transition) (tr : Trail) :
    (v.consumeAll symbol none finished t.thread configs steps).Ensures tr fun r _ =>
      UnlessFull
        (fun r => ∃ k, v.Consumes symbol t finished steps k ∧ r.1.Collects (l ++ k.found) ∧
          r.2 = k.done)
        (∀ k, v.Consumes symbol t finished steps k → Overfull (l ++ k.found)) r := by
  induction steps generalizing tr configs l with
  | nil => exact .pure ⟨_, .nil, by rwa [List.append_nil], rfl⟩
  | cons step rest ih =>
    unfold consumeAll
    cases hacc : step.accepts symbol Symbol.firstChar Symbol.lastChar with
    | false =>
      rw [if_neg Bool.false_ne_true]
      refine (ih hs tr).mono ?_
      rintro (x | ⟨configs', done⟩) tr₁ h
      · refine ⟨h.1, fun k hk => ?_⟩
        cases hk with
        | skip _ hk => exact h.2 k hk
        | last hacc' => cases hacc.symm.trans hacc'
        | next hacc' => cases hacc.symm.trans hacc'
      · obtain ⟨k, hk, h⟩ := h
        exact ⟨k, .skip hacc hk, h⟩
    | true =>
      rw [if_pos rfl]
      refine (closure_flat hhost hflat hs finished (t := v.net.lead t step.target t.stack) ht tr).bind
        (fun r tr₁ h => ?_) fun x tr₁ h => ?_
      · obtain ⟨e, he, hconfigs, hdone⟩ := h
        dsimp only
        cases hfinished : r.2 with
        | true =>
          rw [if_pos rfl]
          exact .pure ⟨_, .last hacc he (hdone.symm.trans hfinished), hconfigs, rfl⟩
        | false =>
          rw [if_neg Bool.false_ne_true]
          have hnot : e.finished = false := hdone.symm.trans hfinished
          refine (ih hconfigs tr₁).mono ?_
          rintro (x | ⟨configs', done⟩) tr₂ h
          · refine ⟨h.1, fun k hk => ?_⟩
            -- A chase has one end only, so the strands cannot have stopped here either.
            cases hk with
            | skip hno => cases hno.symm.trans hacc
            | last _ he' hfinished' => cases (he.unique he' ▸ hnot).symm.trans hfinished'
            | next _ he' _ hk =>
              rw [← he.unique he', ← List.append_assoc]
              exact h.2 _ hk
          · obtain ⟨k, hk, hconfigs', hdone'⟩ := h
            exact ⟨_, .next hacc he hnot hk, by rwa [← List.append_assoc], hdone'⟩
      · refine ⟨h.1, fun k hk => ?_⟩
        cases hk with
        | skip hno => cases hno.symm.trans hacc
        | last _ he => exact h.2 _ he
        | next _ he =>
          refine (h.2 _ he).of_begins ?_
          rw [← List.append_assoc]
          exact List.prefix_append _ _

/-- What the last of some strands adds. -/
private theorem Reaches.of_concat {l found : List Strand} {guarded : Bool} {done : Nat}
    (h : v.Reaches symbol (l ++ [t]) found guarded done) :
    ∃ found₀ guarded₀ done₀, v.Reaches symbol l found₀ guarded₀ done₀ ∧
      ((t.alt = done₀ ∧ t.nonGreedy = true) ∧ found = found₀ ∨
        ¬(t.alt = done₀ ∧ t.nonGreedy = true) ∧
          ∃ k, v.Consumes symbol t (t.alt == done₀) (v.net.state t.state).transitions k ∧
            found = found₀ ++ k.found) := by
  generalize hl : l ++ [t] = m at h
  cases h with
  | nil => cases List.append_ne_nil_of_right_ne_nil _ (List.cons_ne_nil _ _) hl
  | drop h halt hlazy =>
    obtain ⟨rfl, ht⟩ := List.append_inj' hl rfl
    obtain rfl := List.singleton_inj.mp ht
    exact ⟨_, _, _, h, .inl ⟨⟨halt, hlazy⟩, rfl⟩⟩
  | take h hnot hk =>
    obtain ⟨rfl, ht⟩ := List.append_inj' hl rfl
    obtain rfl := List.singleton_inj.mp ht
    exact ⟨_, _, _, h, .inr ⟨hnot, _, hk, rfl⟩⟩

/-- What some strands reach comes first in what they and others reach. -/
private theorem Reaches.of_append {l m found : List Strand} {guarded : Bool} {done : Nat}
    (h : v.Reaches symbol (l ++ m) found guarded done) :
    ∃ found₀ guarded₀ done₀, v.Reaches symbol l found₀ guarded₀ done₀ ∧ found₀ <+: found := by
  induction m using List.reverseRecOn generalizing found guarded done with
  | nil => exact ⟨found, guarded, done, by rwa [List.append_nil] at h, List.prefix_refl _⟩
  | append_singleton m a ih =>
    rw [← List.append_assoc] at h
    obtain ⟨found₁, _, _, h₁, ⟨-, rfl⟩ | ⟨-, k, -, rfl⟩⟩ := h.of_concat
    · exact ih h₁
    · obtain ⟨found₀, _, _, h₀, hprefix⟩ := ih h₁
      exact ⟨found₀, _, _, h₀, hprefix.trans (List.prefix_append _ _)⟩

include hhost in
/-- The threads after a character are those of the strands after it. The strands of `pre` have been
followed already. -/
private theorem reachFrom_from_flat (hflat : v.net.Flat) {pre found : List Strand} {guarded : Bool}
    {done : Nat} (hpre : v.Reaches symbol pre found guarded done) (hs : configs.Collects found)
    {ts : List Strand} (hts : Uncalled ts) (length : Nat) (tr : Trail) :
    (v.reachFrom symbol length done configs (ts.map Strand.thread)).Ensures tr fun r _ =>
      UnlessFull
        (fun configs' => ∃ found guarded done,
          v.Reaches symbol (pre ++ ts) found guarded done ∧ configs'.Collects found)
        (∀ found guarded done, v.Reaches symbol (pre ++ ts) found guarded done → Overfull found)
        r := by
  induction ts generalizing tr pre found guarded done configs with
  | nil =>
    rw [List.append_nil]
    exact .pure ⟨found, guarded, done, hpre, hs⟩
  | cons t ts ih =>
    obtain ⟨ht, hrest⟩ := List.forall_mem_cons.mp hts
    rw [List.append_cons, List.map_cons]
    unfold reachFrom
    rw [Strand.thread_alt, Strand.thread_nonGreedy, Strand.thread_state]
    dsimp only
    by_cases hdrop : t.alt = done ∧ t.nonGreedy = true
    · rw [if_pos (Bool.and_eq_true _ _ ▸ ⟨beq_iff_eq.mpr hdrop.1, hdrop.2⟩)]
      exact ih (.drop hpre hdrop.1 hdrop.2) hs hrest tr
    · rw [if_neg fun h => hdrop ⟨beq_iff_eq.mp (Bool.and_eq_true _ _ ▸ h).1,
        (Bool.and_eq_true _ _ ▸ h).2⟩]
      refine (consumeAll_flat hhost hflat hs ht _ tr).bind (fun r tr₁ h => ?_) fun x tr₁ h => ?_
      · obtain ⟨k, hk, hconfigs, hdone⟩ := h
        have hnext := Reaches.take hpre hdrop hk
        rw [← hdone] at hnext
        exact ih hnext hconfigs hrest tr₁
      · refine ⟨h.1, fun found' guarded' done' hall => ?_⟩
        -- What this strand adds to the others' finds is the beginning of what all of them find.
        obtain ⟨found₁, _, _, h₁, hprefix⟩ := hall.of_append
        obtain ⟨found₀, _, _, h₀, hcases⟩ := h₁.of_concat
        obtain ⟨rfl, -, rfl⟩ := hpre.unique h₀
        rcases hcases with ⟨hdrop', -⟩ | ⟨-, k, hk, rfl⟩
        · exact absurd hdrop' hdrop
        · exact (h.2 k hk).of_begins hprefix

include hhost in
/-- **The threads after a character** are those of the strands after it, if there is room for
them. -/
theorem reachFrom_flat (hflat : v.net.Flat) {ts : List Strand} (hts : Uncalled ts) (length : Nat)
    (tr : Trail) :
    (v.reachFrom symbol length noAlternative ConfigSet.forLexer
      (ts.map Strand.thread)).Ensures tr fun r _ =>
        UnlessFull
          (fun configs' => ∃ found guarded done,
            v.Reaches symbol ts found guarded done ∧ configs'.Collects found)
          (∀ found guarded done, v.Reaches symbol ts found guarded done → Overfull found) r :=
  reachFrom_from_flat hhost hflat .nil .forLexer hts length tr

/-! ### Beginnings -/

private theorem Opens.of_concat {l found : List Strand} {guarded : Bool}
    (h : v.Opens (l ++ [t]) found guarded) :
    ∃ found₀ guarded₀ e, v.Opens l found₀ guarded₀ ∧ v.Chases (begin t false) e ∧
      found = found₀ ++ e.found := by
  generalize hl : l ++ [t] = m at h
  cases h with
  | nil => cases List.append_ne_nil_of_right_ne_nil _ (List.cons_ne_nil _ _) hl
  | next h he =>
    obtain ⟨rfl, ht⟩ := List.append_inj' hl rfl
    obtain rfl := List.singleton_inj.mp ht
    exact ⟨_, _, _, h, he, rfl⟩

private theorem Opens.of_append {l m found : List Strand} {guarded : Bool}
    (h : v.Opens (l ++ m) found guarded) :
    ∃ found₀ guarded₀, v.Opens l found₀ guarded₀ ∧ found₀ <+: found := by
  induction m using List.reverseRecOn generalizing found guarded with
  | nil => exact ⟨found, guarded, by rwa [List.append_nil] at h, List.prefix_refl _⟩
  | append_singleton m a ih =>
    rw [← List.append_assoc] at h
    obtain ⟨found₁, _, e, h₁, -, rfl⟩ := h.of_concat
    obtain ⟨found₀, _, h₀, hprefix⟩ := ih h₁
    exact ⟨found₀, _, h₀, hprefix.trans (List.prefix_append _ _)⟩

include hhost in
/-- The threads in which a mode begins, from one of its rules on. -/
private theorem startSet_from_flat (hflat : v.net.Flat) {pre found : List Strand} {guarded : Bool}
    (hpre : v.Opens pre found guarded) (hs : configs.Collects found)
    (rules : List (Transition × Nat)) (tr : Trail) :
    (rules.foldlM (fun (s : ConfigSet) (x : Transition × Nat) => (do
      let c : Config := { state := x.1.target, alt := x.2 + 1, stack := StackId.empty }
      let (s, _) ← v.closure s false (v.net.advance c x.1.target StackId.empty none)
      pure s : Probe ConfigSet)) configs).Ensures tr fun r _ =>
        let l := pre ++ rules.map fun x : Transition × Nat =>
          v.net.lead ⟨x.1.target, x.2 + 1, [], false⟩ x.1.target []
        UnlessFull
          (fun configs' => ∃ found guarded, v.Opens l found guarded ∧ configs'.Collects found)
          (∀ found guarded, v.Opens l found guarded → Overfull found) r := by
  induction rules generalizing tr pre found guarded configs with
  | nil =>
    rw [List.map_nil, List.append_nil]
    exact .pure ⟨found, guarded, hpre, hs⟩
  | cons x rules ih =>
    rw [List.map_cons, List.append_cons, List.foldlM_cons]
    dsimp only
    rw [bind_assoc]
    refine (closure_flat hhost hflat hs false
      (t := v.net.lead ⟨x.1.target, x.2 + 1, [], false⟩ x.1.target []) rfl tr).bind
        (fun r tr₁ h => ?_) fun e tr₁ h => ?_
    · obtain ⟨e, he, hconfigs, -⟩ := h
      rw [pure_bind]
      exact ih (.next hpre he) hconfigs tr₁
    · refine ⟨h.1, fun found' guarded' hall => ?_⟩
      obtain ⟨found₁, _, h₁, hprefix⟩ := hall.of_append
      obtain ⟨found₀, _, e, h₀, he, rfl⟩ := h₁.of_concat
      obtain ⟨rfl, -⟩ := hpre.unique h₀
      exact (h.2 e he).of_begins hprefix

include hhost in
/-- **The threads in which a mode begins** are those of the strands in which it begins, if there is
room for them. -/
theorem startSet_flat (hflat : v.net.Flat) (entry : StateId) (tr : Trail) :
    (v.startSet entry).Ensures tr fun r _ =>
      UnlessFull
        (fun configs' => ∃ found guarded, v.Opens (v.net.starts entry) found guarded ∧
          configs'.Collects found)
        (∀ found guarded, v.Opens (v.net.starts entry) found guarded → Overfull found) r :=
  startSet_from_flat hhost hflat .nil .forLexer _ tr

end Vantage

/-! ## Rows -/

/-- **The row lists strands.** -/
def Row.Flat (r : Row) : Prop := ∃ l, r.configs.Lists l

namespace Row

theorem essential_flat : Row.Essential Row.Flat where
  default := ⟨[], rfl, nofun, Nat.not_lt_zero _⟩
  of_bare h hbare := h.imp fun _ hl => configs_eq_of_bare hbare ▸ hl

/-- What a row lists is what it tells. -/
theorem Tells.firsts_eq {net : Network} {fs l : List Strand} {r : Row} {g : StackGraph}
    (hg : g.Sound) (hr : r.Tells net fs g) (hl : r.configs.Lists l) : firsts l = fs := by
  obtain ⟨l', hspells, -, rfl⟩ := hr.spelled
  have hthreads : ∀ ts : List Strand, Uncalled ts →
      List.Forall₂ (Config.Spells g) (ts.map Strand.thread) ts := by
    intro ts hts
    induction ts with
    | nil => exact .nil
    | cons t ts ih =>
      obtain ⟨ht, hrest⟩ := List.forall_mem_cons.mp hts
      refine .cons ⟨⟨rfl, rfl, ?_, rfl⟩, rfl⟩ (ih hrest)
      rw [ht]
      exact StackGraph.spells_empty hg
  have hlisted : r.configs.Spells g (firsts l) := by
    refine ⟨hspells.ordered, ?_⟩
    rw [hl.members]
    exact hthreads _ fun t ht => hl.uncalled t (mem_firsts.mp ht)
  -- Both lists are spelled by the same set, so they are one.
  rw [← hlisted.unique hspells, firsts_firsts]

/-- A row that lists strands has room for those it tells. -/
theorem Tells.length_le {net : Network} {fs : List Strand} {r : Row} {g : StackGraph}
    (hg : g.Sound) (hr : r.Tells net fs g) (hflat : r.Flat) : fs.length ≤ Limits.configsPerSet := by
  obtain ⟨l, hl⟩ := hflat
  rw [← hr.firsts_eq hg hl]
  exact Nat.le_of_not_lt hl.room

end Row

/-! ## Scanning -/

namespace Scan

variable {α : Type} {c : Scan} {s : Scanner}

/-- What following threads ensures. The tables stay. -/
private theorem probe_ensures {m : Probe α} {Q : Except Exceeded α → Trail → Prop}
    (h : m.Ensures { graph := s.cache.graph, past := s.callbacks } Q) :
    (probe m).Ensures s fun r s' => s'.cache.tables = s.cache.tables ∧
      ∃ r₀ t, r = r₀.mapError .exceeded ∧ Q r₀ t := by
  intro r s' hrun
  rw [from?_probe] at hrun
  obtain ⟨⟨r₀, t⟩, hm, heq⟩ := Option.map_eq_some_iff.mp hrun
  obtain ⟨rfl, rfl⟩ := Prod.mk.inj heq
  exact ⟨rfl, r₀, t, rfl, h _ _ hm⟩

private theorem table_bind_ensures {f : Table → Scanning α} {Q : Except LexError α → Scanner → Prop}
    (h : (f (s.cache.table c.mode)).Ensures s Q) : (c.table >>= f).Ensures s Q := by
  unfold Scan.table
  rw [bind_assoc]
  refine .get_bind ?_
  rw [pure_bind]
  exact h

/-- A table whose rows list strands is put in the place of another one. -/
private theorem setTable_bind_flat {f : Unit → Scanning α} {Q : Except LexError α → Scanner → Prop}
    (hs : s.cache.All Row.Flat) {t : Table} (ht : t.All Row.Flat)
    (h : ∀ s' : Scanner, s'.cache.All Row.Flat → (f ⟨⟩).Ensures s' Q) :
    (c.setTable t >>= f).Ensures s Q :=
  .modify_bind (h _ (hs.setTable ht c.mode))

private theorem install_flat (hs : s.cache.All Row.Flat) {configs : ConfigSet} {l : List Strand}
    (hl : configs.Lists l) :
    (c.install configs).Ensures s fun r s' => s'.cache.All Row.Flat ∧
      ∃ p, r = .ok p ∧ p.All Row.Flat := by
  have hrow : (c.rowOf configs).Flat := by
    refine ⟨l, ?_⟩
    unfold rowOf
    split <;> exact hl
  unfold install
  dsimp only
  split
  · refine .pure ⟨hs, _, rfl, fun r hr => ?_⟩
    obtain rfl := Place.loose.inj hr
    exact hrow
  · refine table_bind_ensures ?_
    obtain ⟨hplace, htable⟩ := (hs c.mode).install Row.essential_flat hrow
    generalize (s.cache.table c.mode).install (c.rowOf configs) = res at hplace htable
    obtain ⟨place, event, t⟩ := res
    refine setTable_bind_flat hs htable fun s₁ hs₁ => ?_
    cases event with
    | none => exact .pure ⟨hs₁, place, rfl, hplace⟩
    | some e => exact .modify_bind (.pure ⟨hs₁, place, rfl, hplace⟩)

/-- **Where a match begins,** unless there are too many strands. -/
private theorem startPlace_flat (hhost : c.host.Steady) (hflat : c.net.Flat) (hs : s.cache.All Row.Flat) :
    c.startPlace.Ensures s fun r s' => s'.cache.All Row.Flat ∧
      match r with
      | .ok p => p.All Row.Flat
      | .error e => e = .exceeded (.tooMany Limits.configsPerSet) ∧
        ∀ fs, c.net.Begins c.host.now s.stream.index (s.cache.table c.mode).start fs →
          Limits.configsPerSet < fs.length := by
  unfold startPlace
  refine table_bind_ensures ?_
  split
  · exact .pure ⟨hs, Place.all_row _ _⟩
  · refine .get_bind ?_
    refine (probe_ensures (Vantage.startSet_flat (v := c.vantage s.stream.index false) hhost hflat _
      _)).bind ?_ ?_
    · rintro configs s₁ ⟨htables, r₀, t, hr, h⟩
      cases r₀ with
      | error e => cases hr
      | ok configs' =>
        obtain rfl := Except.ok.inj hr
        -- There was room for all strands, so the set lists them and is installed.
        obtain ⟨found, guarded, -, hconfigs⟩ := h
        have hs₁ := hs.of_tables htables
        refine (install_flat hs₁ (hconfigs.setGuards false).toLists).bind ?_ ?_
        · rintro place s₂ ⟨hs₂, p, hp, hplace⟩
          obtain rfl := Except.ok.inj hp
          split
          · exact .pure ⟨hs₂, hplace⟩
          · refine table_bind_ensures ?_
            obtain ⟨hfirst, hstart⟩ := (hs₂ c.mode).setStart hplace
            exact setTable_bind_flat hs₂ hstart fun s₃ hs₃ => .pure ⟨hs₃, hfirst⟩
        · rintro e s₂ ⟨-, p, hp, -⟩
          cases hp
    · rintro e s₁ ⟨htables, r₀, t, hr, h⟩
      cases r₀ with
      | ok configs => cases hr
      | error x =>
        obtain rfl := Except.error.inj hr
        refine ⟨hs.of_tables htables, congrArg LexError.exceeded h.1, ?_⟩
        -- What the match can begin with does not depend on where in the text the question is asked.
        rintro fs ⟨found, guarded, hopens, rfl⟩
        exact h.2 found guarded (hopens.elsewhere ⟨rfl, rfl, fun _ => ⟨rfl, rfl⟩⟩)

/-- The strands of a place that lists strands. -/
private theorem target_flat (hhost : c.host.Steady) (hflat : c.net.Flat) (hs : s.cache.All Row.Flat) {p : Place}
    (hp : p.All Row.Flat) (v : Symbol) :
    (c.target p v).Ensures s fun r s' => s'.cache.All Row.Flat ∧
      match r with
      | .ok next => ∀ q ∈ next, q.All Row.Flat
      | .error e => e = .exceeded (.tooMany Limits.configsPerSet) ∧
        ∃ l, ((s.cache.table c.mode).row p).configs.Lists l ∧
          ∀ fs, c.net.After c.host.now (s.stream.index + 1) v (firsts l) fs →
            Limits.configsPerSet < fs.length := by
  obtain ⟨l, hl⟩ := (hs c.mode).row hp
  unfold target
  refine .get_bind (table_bind_ensures ?_)
  dsimp only
  -- The set lists strands, so following its configurations is following the strands.
  rw [hl.members]
  refine (probe_ensures (Vantage.reachFrom_flat
    (v := c.vantage (s.stream.index + 1) (v == Symbol.eof)) hhost hflat
    (fun t ht => hl.uncalled t (mem_firsts.mp ht)) _ _)).bind ?_ ?_
  · rintro configs s₁ ⟨htables, r₀, t, hr, h⟩
    cases r₀ with
    | error e => cases hr
    | ok configs' =>
      obtain rfl := Except.ok.inj hr
      obtain ⟨found, guarded, done, -, hconfigs⟩ := h
      have hs₁ := hs.of_tables htables
      have hnone : ∀ q ∈ (none : Option Place), q.All Row.Flat := fun q hq =>
        absurd hq (Option.not_mem_none q)
      split
      · split
        · have htable := (hs₁ c.mode).write Row.essential_flat p v .dead
          exact table_bind_ensures (setTable_bind_flat hs₁ htable fun s₂ hs₂ => .pure ⟨hs₂, hnone⟩)
        · exact .pure ⟨hs₁, hnone⟩
      · refine (install_flat hs₁ (hconfigs.setGuards false).toLists).bind ?_ ?_
        · rintro place s₂ ⟨hs₂, q, hq, hplace⟩
          obtain rfl := Except.ok.inj hq
          have hsome : ∀ q ∈ some place, q.All Row.Flat := fun q hq => Option.some.inj hq ▸ hplace
          split
          · have htable := (hs₂ c.mode).link Row.essential_flat p v place
            exact table_bind_ensures (setTable_bind_flat hs₂ htable fun s₃ hs₃ =>
              .pure ⟨hs₃, hsome⟩)
          · exact .pure ⟨hs₂, hsome⟩
        · rintro e s₂ ⟨-, q, hq, -⟩
          cases hq
  · rintro e s₁ ⟨htables, r₀, t, hr, h⟩
    cases r₀ with
    | ok configs => cases hr
    | error x =>
      obtain rfl := Except.error.inj hr
      refine ⟨hs.of_tables htables, congrArg LexError.exceeded h.1, l, hl, ?_⟩
      rintro fs ⟨found, guarded, done, hreaches, rfl⟩
      exact h.2 found guarded done (hreaches.elsewhere ⟨rfl, rfl, fun _ => ⟨rfl, rfl⟩⟩)

end Scan

/-! ## Matches -/

namespace Network

/-- **The match goes on** from one standing to another one. -/
abbrev StepsTo (net : Network) (host : Host) (text : CharStream) : Standing → Standing → Prop :=
  Relation.ReflTransGen fun x x' => net.Steps host text x (.inl x')

/-- **A ceiling that is met** where a match stands whose token began at `start`: the strands after
the next symbol are too many for a set, or its character makes the token too long. -/
inductive Meets (net : Network) (host : Host) (settings : LexerSettings) (text : CharStream)
    (start : Nat) (x : Standing) : Exceeded → Prop where
  | tooMany
      (hmany : ∀ fs, net.After host (x.position.index + 1) (text.symbolAt x.position.index)
        x.strands fs → Limits.configsPerSet < fs.length) :
      Meets net host settings text start x (.tooMany Limits.configsPerSet)
  | tooLong {fs : List Strand}
      (hafter : net.After host (x.position.index + 1) (text.symbolAt x.position.index) x.strands fs)
      (hne : fs ≠ []) (hon : text.symbolAt x.position.index ≠ Symbol.eof)
      (hlong : settings.maxTokenLength < x.position.index - start + 1) :
      Meets net host settings text start x
        ⟨.tokenLength, settings.maxTokenLength, x.position.index - start + 1⟩

/-- **How a match fares with the ceilings.** It meets one where it begins or where it stands later,
or there is room for all strands on its way. -/
inductive Weathers (net : Network) (host : Host) (settings : LexerSettings) (text : CharStream)
    (entry : StateId) (start : Position) : Except LexError TokenMatch → Prop where
  | atOnce
      (hmany : ∀ fs, net.Begins host start.index entry fs → Limits.configsPerSet < fs.length) :
      Weathers net host settings text entry start
        (.error (.exceeded (.tooMany Limits.configsPerSet)))
  | later {fs : List Strand} {x : Standing} {e : Exceeded}
      (hbegins : net.Begins host start.index entry fs)
      (hsteps : net.StepsTo host text (net.standing fs start none) x)
      (hmeets : net.Meets host settings text start.index x e) :
      Weathers net host settings text entry start (.error (.exceeded e))
  | spared {fs : List Strand} {r : Except LexError TokenMatch}
      (hbegins : net.Begins host start.index entry fs)
      (hroom : ∀ x, net.StepsTo host text (net.standing fs start none) x →
        x.strands.length ≤ Limits.configsPerSet)
      (hr : ∀ e, r ≠ .error (.exceeded e)) :
      Weathers net host settings text entry start r

end Network

namespace Scan

variable {net : Network} {nodes : Nat} {text : CharStream} {entry : StateId} {c : Scan}
  {s : Scanner} {point : Point} {x : Standing}

/-- There is room for the strands of a place that lists strands. -/
private theorem Stands.length_le (h : Stands net nodes text c.mode x point s)
    (hs : s.cache.All Row.Flat) (hp : point.place.All Row.Flat) :
    x.strands.length ≤ Limits.configsPerSet :=
  h.shows.tells.length_le h.lexes.sound ((hs c.mode).row hp)

/-- **The place that a symbol leads to,** unless it leads to too many strands. -/
private theorem next_flat (hhost : c.host.Steady) (hflat : c.net.Flat) (hnet : c.net = net)
    (h : Stands net nodes text c.mode x point s)
    (hs : s.cache.All Row.Flat) (hp : point.place.All Row.Flat) (v : Symbol) :
    (c.next point.place v).Ensures s fun r s' => s'.cache.All Row.Flat ∧
      match r with
      | .ok next => ∀ q ∈ next, q.All Row.Flat
      | .error e => e = .exceeded (.tooMany Limits.configsPerSet) ∧
        ∀ fs, net.After c.host.now (s.stream.index + 1) v x.strands fs →
          Limits.configsPerSet < fs.length := by
  unfold next
  refine table_bind_ensures ?_
  split
  · refine .pure ⟨hs, fun q hq => ?_⟩
    obtain rfl := Option.some.inj hq
    exact Place.all_row _ _
  · have hnone : ∀ q ∈ (none : Option Place), q.All Row.Flat := fun q hq =>
      absurd hq (Option.not_mem_none q)
    exact .pure ⟨hs, hnone⟩
  · refine (target_flat hhost hflat hs hp v).mono ?_
    rintro (e | next) s' ⟨hs', hr⟩
    · obtain ⟨he, l, hl, hmany⟩ := hr
      rw [h.shows.tells.firsts_eq h.lexes.sound hl, hnet] at hmany
      exact ⟨hs', he, hmany⟩
    · exact ⟨hs', hr⟩

/-- **One step of a match:** it fails only at the ceilings. -/
private theorem step_flat (hF : c.Fits net nodes entry) (hflat : net.Flat)
    (h : Stands net nodes text c.mode x point s) (hs : s.cache.All Row.Flat)
    (hp : point.place.All Row.Flat) :
    (c.step point).Ensures s fun r s' => s'.cache.All Row.Flat ∧
      match r with
      | .ok (.inl point') => point'.place.All Row.Flat
      | .ok (.inr _) => True
      | .error e => ∃ e', e = .exceeded e' ∧
        net.Meets c.host.now c.settings text c.start.index x e' := by
  unfold step
  refine .get_bind ?_
  rw [h.cursor.lookAhead_eq]
  have hacts := Run.Yields.ensures (next_acts hF h.lexes h.shows (text.symbolAt x.position.index))
  have hnext := next_flat hF.steady (hF.net_eq ▸ hflat) hF.net_eq h hs hp (text.symbolAt x.position.index)
  rw [h.cursor.index_eq] at hacts hnext
  refine (hacts.and hnext).bind ?_ ?_
  · rintro next s₁ ⟨⟨-, -, hstays, hleads⟩, hs₁, hplaces⟩
    cases next with
    | none => exact .pure ⟨hs₁, trivial⟩
    | some place =>
      obtain ⟨_, hok, fs, hafter, hleads⟩ := hleads.resolve_left nofun
      obtain rfl := Except.ok.inj hok
      have hne : fs ≠ [] := hleads.1
      have hplace : place.All Row.Flat := hplaces place rfl
      have hcursor := h.cursor.stays hstays
      -- What follows the symbol reads the row only.
      have hrow : ∀ {s₂ : Scanner}, s₂.cache.All Row.Flat → ((do
          let row := (← c.table).row place
          let accepted := remember (← get) row point.accepted
          if row.accepting ∧ text.symbolAt x.position.index = Symbol.eof then
            pure (.inr (accepted, text.symbolAt x.position.index))
          else pure (.inl ⟨place, accepted⟩) :
            Scanning (Point ⊕ (Option Accepted × Symbol)))).Ensures s₂ fun r s' =>
              s'.cache.All Row.Flat ∧
              match r with
              | .ok (.inl point') => point'.place.All Row.Flat
              | .ok (.inr _) => True
              | .error e => ∃ e', e = .exceeded e' ∧
                net.Meets c.host.now c.settings text c.start.index x e' := by
        intro s₂ hs₂
        refine table_bind_ensures (.get_bind ?_)
        dsimp only
        split
        · exact .pure ⟨hs₂, trivial⟩
        · exact .pure ⟨hs₂, hplace⟩
      dsimp only
      split
      · next hv =>
        unfold checkLength
        rw [bind_assoc]
        refine .get_bind ?_
        dsimp only
        rw [hcursor.index_eq]
        split
        · next hlong => exact .throw ⟨hs₁, _, rfl, .tooLong hafter hne hv hlong⟩
        · rw [pure_bind]
          exact .modify_bind (hrow (s₁.cache_advance ▸ hs₁))
      · exact hrow hs₁
  · rintro e s₁ ⟨-, hs₁, he, hmany⟩
    exact ⟨hs₁, _, he, .tooMany hmany⟩

/-- **The rounds of a match:** they fail only at the ceilings, and if they do not, every standing
that the match passes has room in a set. -/
private theorem loop_flat (hF : c.Fits net nodes entry) (hflat : net.Flat)
    (h : Stands net nodes text c.mode x point s) (hs : s.cache.All Row.Flat)
    (hp : point.place.All Row.Flat) (fuel : Nat) :
    (Run.loop c.step fuel point).Ensures s fun r s' => s'.cache.All Row.Flat ∧
      match r with
      | .ok _ => ∀ x', net.StepsTo c.host.now text x x' → x'.strands.length ≤ Limits.configsPerSet
      | .error e => ∃ x' e', net.StepsTo c.host.now text x x' ∧ e = .exceeded e' ∧
        net.Meets c.host.now c.settings text c.start.index x' e' := by
  -- The match has come to `x₁`, and every standing is still ahead of it or had room.
  refine .loop (fun point s => s.cache.All Row.Flat ∧ point.place.All Row.Flat ∧
    ∃ x₁, net.StepsTo c.host.now text x x₁ ∧ Stands net nodes text c.mode x₁ point s ∧
      ∀ x', net.StepsTo c.host.now text x x' → net.StepsTo c.host.now text x₁ x' ∨
        x'.strands.length ≤ Limits.configsPerSet) ?_
    ⟨hs, hp, x, .refl, h, fun _ => .inl⟩
  rintro point s ⟨hs, hp, x₁, hpassed, h, hroom⟩
  refine ((step_yields hF h).ensures.and (step_flat hF hflat h hs hp)).mono ?_
  rintro (e | (point' | last)) s' ⟨⟨-, hsteps⟩, hs', hr⟩
  · obtain ⟨e', he, hmeets⟩ := hr
    exact ⟨hs', x₁, e', hpassed, he, hmeets⟩
  · obtain ⟨x₂, hstep, hstands⟩ := hsteps
    refine ⟨hs', hr, x₂, hpassed.tail hstep, hstands, fun x' hx' => ?_⟩
    rcases hroom x' hx' with hx' | hle
    · rcases hx'.cases_head with rfl | ⟨x₃, hstep', hx'⟩
      · exact .inr (h.length_le hs hp)
      · exact .inl (Sum.inl.inj (hstep.unique hstep') ▸ hx')
    · exact .inr hle
  · obtain ⟨y, hstep, -⟩ := hsteps
    refine ⟨hs', fun x' hx' => ?_⟩
    rcases hroom x' hx' with hx' | hle
    · rcases hx'.cases_head with rfl | ⟨x₃, hstep', -⟩
      · exact h.length_le hs hp
      · cases hstep.unique hstep'
    · exact hle

/-- Returning to the last complete token meets no ceiling. -/
private theorem conclude_flat (hs : s.cache.All Row.Flat) (accepted : Option Accepted)
    (v : Symbol) : (c.conclude accepted v).Ensures s fun r s' => s'.cache.All Row.Flat ∧
      ∀ e, r ≠ .error (.exceeded e) := by
  cases accepted with
  | some a => exact .modify_bind (.pure ⟨hs, nofun⟩)
  | none =>
    refine .get_bind ?_
    dsimp only
    split
    · exact .pure ⟨hs, nofun⟩
    · exact .throw ⟨hs, nofun⟩

private theorem run_flat (hF : c.Fits net nodes entry) (hflat : net.Flat)
    (hc : s.cache.Lexes net nodes) (hs : s.cache.All Row.Flat) (hstart : c.start = s.position) :
    c.run.Ensures s fun r s' => s'.cache.All Row.Flat ∧
      net.Weathers c.host.now c.settings s.stream entry c.start r := by
  have hplace := (startPlace_acts hF hc).ensures.and (startPlace_flat hF.steady (hF.net_eq ▸ hflat) hs)
  have hindex : s.stream.index = c.start.index := hstart ▸ rfl
  rw [hF.net_eq, (hc.tables c.mode entry hF.entry_eq).start_eq, hindex] at hplace
  unfold run
  refine hplace.bind ?_ ?_
  · rintro place s₁ ⟨⟨hc₁, -, hstays, hbegun⟩, hs₁, hplace⟩
    obtain ⟨_, hok, fs, hbegins, hshows⟩ := hbegun.resolve_left nofun
    obtain rfl := Except.ok.inj hok
    have hcursor : s₁.At s.stream c.start := hstart ▸ (Scanner.At.here s).stays hstays
    have hstands := Stands.of_shows hc₁ hcursor hshows
      (rfl : Option.map Accepted.completed none = none) nofun
    refine .get_bind (table_bind_ensures ?_)
    refine (loop_flat hF hflat hstands hs₁ hplace c.fuel).bind ?_ ?_
    · rintro ⟨accepted, v⟩ s₂ ⟨hs₂, hroom⟩
      exact (conclude_flat hs₂ accepted v).mono fun r s₃ ⟨hs₃, hr⟩ =>
        ⟨hs₃, .spared hbegins hroom hr⟩
    · rintro e s₂ ⟨hs₂, x, e', hsteps, rfl, hmeets⟩
      exact ⟨hs₂, .later hbegins hsteps hmeets⟩
  · rintro e s₁ ⟨-, hs₁, rfl, hmany⟩
    exact ⟨hs₁, .atOnce hmany⟩

end Scan

/-! ## Ceilings -/

namespace Scanner

variable {net : Network} {nodes : Nat} {s : Scanner}

private theorem matchToken_flat (hnet : net.Consistent) (hword : net.states.size ≤ emptyReturn)
    (hflat : net.Flat) (hc : s.cache.Lexes net nodes) (hs : s.cache.All Row.Flat)
    (settings : LexerSettings) (host : Host) (fuel mode : Nat) :
    (matchToken settings host fuel mode).Ensures s fun r s' => s'.cache.All Row.Flat ∧
      ∀ entry, net.modeStarts[mode]? = some entry →
        net.Weathers host settings s.stream entry s.position r := by
  intro r s' hrun
  -- More fuel makes no difference to a match that ends.
  have hrun :=
    matchToken_within settings host (Nat.le_max_left fuel (chaseBound net nodes)) mode s _ hrun
  rcases mode_cases hc mode with ⟨hnone, hmode⟩ | ⟨entry, hentry, hmode⟩
  · obtain ⟨rfl, rfl⟩ : .error (.unknownMode mode) = r ∧ s = s' := by
      simpa using (matchToken_unknown hmode _).symm.trans hrun
    exact ⟨hs, fun entry hentry => by cases hnone.symm.trans hentry⟩
  · have hF : (s.scan settings host (max fuel (chaseBound net nodes)) mode).Fits net nodes entry :=
      fits_scan hnet hword hc (Nat.le_max_right _ _) hentry
    rw [matchToken_from hmode] at hrun
    obtain ⟨⟨r₁, s₁⟩, hscan, hlast⟩ := Option.map_eq_some_iff.mp hrun
    obtain ⟨hs₁, hweathers⟩ := Scan.run_flat hF hflat hc hs rfl _ _ hscan
    have hall : ∀ entry', net.modeStarts[mode]? = some entry' →
        net.Weathers host settings s.stream entry' s.position r₁ := fun entry' hentry' =>
      Option.some.inj (hentry.symm.trans hentry') ▸ hweathers
    cases r₁ with
    | ok m =>
      obtain ⟨rfl, rfl⟩ := Prod.mk.inj hlast
      exact ⟨hs₁, hall⟩
    | error e =>
      obtain ⟨rfl, rfl⟩ := Prod.mk.inj hlast
      exact ⟨hs₁, hall⟩

end Scanner

/-- **The rows that matches leave behind** list strands. -/
theorem Cache.Worn.flat {net : Network} {c : Cache} (hnet : net.Consistent)
    (hlexer : net.isLexer = true) (hword : net.states.size ≤ emptyReturn) (hflat : net.Flat)
    (hc : c.Worn net) : c.All Row.Flat := by
  have hnew : ∀ net maxNodes maxDepth, (Cache.new net maxNodes maxDepth).All Row.Flat := by
    intro net maxNodes maxDepth d n
    rw [Table.row_default (size_table_new net maxNodes maxDepth d ▸ Nat.zero_le n)]
    exact Row.essential_flat.default
  induction hc with
  | new maxNodes maxDepth => exact hnew net maxNodes maxDepth
  | @clear c _ _ => exact (hnew c.net c.maxNodes c.maxDepth).of_tables rfl
  | matched hworn hrun ih =>
    obtain ⟨nodes, hlexes⟩ := hworn.lexes hnet hlexer hword
    exact (Scanner.matchToken_flat hnet hword hflat hlexes ih _ _ _ _ _ _ hrun).1

/-- **The ceilings that a match meets.** In a lexer whose rules call no rules and give no commands,
a match on any cache that earlier matches have left behind fails at a ceiling only where there are
more strands than a set may have members, or where a character that leads on makes the token too
long; and if it does not fail at one, it has passed no standing with too many strands. -/
theorem Scanner.matchToken_ceilings {net : Network} {s : Scanner} (hnet : net.Consistent)
    (hlexer : net.isLexer = true) (hword : net.states.size ≤ emptyReturn) (hflat : net.Flat)
    (hworn : s.cache.Worn net) {mode : Nat} {entry : StateId}
    (hentry : net.modeStarts[mode]? = some entry) (settings : LexerSettings) (host : Host)
    (fuel : Nat) :
    (matchToken settings host fuel mode).Ensures s fun r _ =>
      net.Weathers host settings s.stream entry s.position r := by
  obtain ⟨nodes, hc⟩ := hworn.lexes hnet hlexer hword
  exact (matchToken_flat hnet hword hflat hc (hworn.flat hnet hlexer hword hflat) settings host fuel
    mode).mono fun _ _ h => h.2 entry hentry

end AdaptiveLL
