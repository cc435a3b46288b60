import AdaptiveLL.Proofs.Prediction.Covering
import AdaptiveLL.Proofs.Prediction.Fuel
import AdaptiveLL.Proofs.Prediction.Used
import AdaptiveLL.Proofs.Prediction.Verdict
import AdaptiveLL.Proofs.Token.Ahead

/-!
# The table agrees with the call stack

A prediction may come to an answer along its table, without the call stack and without a conflict.
The same symbols, followed with the call stack from the beginning, then leave nothing or the same
alternative alone. So the call stack is needed for conflicts only.
-/

namespace AdaptiveLL

/-- The next symbols of a stream. -/
def TokenStream.next (s : TokenStream) : Nat → List Symbol
  | 0 => []
  | n + 1 => s.lookAhead 1 :: s.consume.next n

namespace Network

/-- The threads after some symbols. -/
noncomputable def reachAllOf (net : Network) (full : Bool) : List Symbol → Set Thread → Set Thread
  | [], T => T
  | v :: w, T => net.reachAllOf full w (net.reachOf full v T)

theorem reachAllOf_append (net : Network) (full : Bool) (w w' : List Symbol) (T : Set Thread) :
    net.reachAllOf full (w ++ w') T = net.reachAllOf full w' (net.reachAllOf full w T) := by
  induction w generalizing T with
  | nil => rfl
  | cons v w ih => exact ih _

end Network

namespace Question

/-- The set after some symbols, if any thread is left. -/
def reachAll (q : Question) (full : Bool) : List Symbol → ConfigSet → Probe (Option ConfigSet)
  | [], s => pure (some s)
  | v :: w, s => do
    match ← q.reach v full s with
    | none => pure none
    | some next => q.reachAll full w next

variable {q : Question} {words : Nat}

/-- **What some symbols lead to** depends on the threads alone. -/
theorem reachAll_ends (hnet : q.net.Consistent) (hword : q.net.states.size ≤ emptyReturn)
    (hno : q.net.NoReentry) (hwords : emptyReturn ≤ words) {full : Bool} {w : List Symbol}
    {T : Set Thread} {s : ConfigSet} {tr : Trail} (hg : tr.graph.Sound)
    (hfuel : sweepBound words Limits.configsPerSet tr.graph.maxNodes < q.fuel)
    (hs : Stage full T s tr.graph) (hT : Proper T) :
    Probe.Ends true (q.reachAll full w s) tr fun next g' =>
      ∀ s', next = some s' → Stage full (q.net.reachAllOf full w T) s' g' := by
  induction w generalizing T s tr with
  | nil =>
    refine .pure hg ?_
    rintro s' hs'
    obtain rfl := Option.some.inj hs'
    exact hs
  | cons v w ih =>
    refine (reach_ends (v := v) hnet hword hno hwords hg hfuel hs hT).anyhow.bind ?_
    rintro next tr' hext ⟨-, hnext⟩
    cases next with
    | none => exact .pure hext.sound nofun
    | some s' => exact ih hext.sound (hext.grown.maxNodes_eq ▸ hfuel) hnext.2 (hT.reachOf full v)

end Question

namespace Request

variable {r : Request} {R : Regime} {F : Set Thread} {asked₀ : List Callback} {words : Nat}

/-- **Follows some symbols with the call stack,** from the beginning of the decision. -/
def withCallers (r : Request) (w : List Symbol) : Probe (Option ConfigSet) := do
  let stack ← Probe.grow (StackGraph.ofCallers r.net r.callers)
  let start ← r.startSet true stack
  r.reachAll true w start

/-- **A prediction along the table goes on** from one point to another one, in a session that goes
on as well. -/
inductive Goes (r : Request) : Point → Session → Point → Session → Prop where
  | refl (p : Point) (s : Session) : Goes r p s p s
  | step {p p' p'' : Point} {s s' s'' : Session} :
      (r.step p).from? s = some (.ok (.inl p'), s') → Goes r p' s' p'' s'' → Goes r p s p'' s''

/-- **The table settles the decision** for an alternative after some symbols: the prediction along
it comes to a row that answers, and needs no call stack. -/
def Settles (r : Request) (s : Session) (n a : Nat) (s' : Session) : Prop :=
  ∃ first s₀ p s₁ place,
    r.startPlace.from? s = some (.ok first, s₀) ∧ r.Goes ⟨first, r.stream, 0⟩ s₀ p s₁ ∧
      (r.next p.place (p.stream.lookAhead 1)).from? s₁ = some (.ok (some place), s') ∧
        n = p.read + 1 ∧ ((s'.cache.table r.decision).row place).accepting = true ∧
          ((s'.cache.table r.decision).row place).needsContext = false ∧
            ((s'.cache.table r.decision).row place).prediction = a

/-- Whether the first symbol settles the decision for an alternative. -/
def settlesAtOnce (r : Request) (s : Session) (a : Nat) : Bool :=
  match r.startPlace.from? s with
  | some (.ok first, s₀) =>
    match (r.next first (r.stream.lookAhead 1)).from? s₀ with
    | some (.ok (some place), s') =>
      let row := (s'.cache.table r.decision).row place
      row.accepting && !row.needsContext && row.prediction == a
    | _ => false
  | _ => false

variable {top : Nat} {start stop : StateId} {T U : Set Thread} {p p' : Point} {s s' : Session}

theorem settles_of_settlesAtOnce {a : Nat} (h : r.settlesAtOnce s a = true) :
    ∃ s', r.Settles s 1 a s' := by
  unfold settlesAtOnce at h
  split at h
  · next first s₀ hfirst =>
    split at h
    · next place s' hnext =>
      simp only [Bool.and_eq_true, Bool.not_eq_true', beq_iff_eq] at h
      exact ⟨s', first, s₀, ⟨first, r.stream, 0⟩, s₀, place, hfirst, .refl _ _, hnext, rfl,
        h.1.1, h.1.2, h.2⟩
    · cases h
  · cases h

private theorem Goes.fueled {fuel : Nat} (hfuel : r.fuel ≤ fuel) (h : r.Goes p s p' s') :
    (r.fueled fuel).Goes p s p' s' := by
  induction h with
  | refl p s => exact .refl p s
  | step hstep _ ih => exact .step (step_within hfuel _ _ _ hstep) ih

theorem request_fueled (s : Session) (settings : PredictionSettings) (host : Oracle)
    (fuel fuel' : Nat) (stream : TokenStream) (decision : Nat) (callers : List StateId) :
    (s.request settings host fuel stream decision callers).fueled fuel' =
      s.request settings host fuel' stream decision callers :=
  rfl

/-- What a prediction settles, it settles with more fuel as well. -/
theorem Settles.fueled {n a fuel : Nat} (hfuel : r.fuel ≤ fuel) (h : r.Settles s n a s') :
    (r.fueled fuel).Settles s n a s' := by
  obtain ⟨first, s₀, p, s₁, place, hfirst, hgoes, hnext, hrest⟩ := h
  exact ⟨first, s₀, p, s₁, place, startPlace_within hfuel _ _ hfirst, hgoes.fueled hfuel,
    next_within hfuel _ _ _ _ hnext, hrest⟩

/-- **The guidance is preserved** while a prediction along the table goes on: the symbols it reads are
not the end of the input, and leave several alternatives. -/
private theorem Goes.guides (hU : r.Under R F asked₀ words) (hnet : r.net.Sealed top start stop)
    (hgoes : r.Goes p s p' s') (hc : s.cache.Faithful R) (hp : r.Stands R s.cache p.place T)
    (hguides : r.net.Guides start T U) :
    s'.cache.Faithful R ∧ ∃ T' w, r.Stands R s'.cache p'.place T' ∧
      r.net.Guides start T' (r.net.reachAllOf true w U) ∧ p'.read = p.read + w.length ∧
        ∀ m, p.stream.next (w.length + m) = w ++ p'.stream.next m := by
  induction hgoes generalizing T U with
  | refl p s => exact ⟨hc, T, [], hp, hguides, rfl, fun m => by rw [List.length_nil, Nat.zero_add]; rfl⟩
  | @step p p₁ _ s s₁ _ hstep _ ih =>
    obtain ⟨hc₁, -, -, hstepped⟩ := (step_goes hU hc hp).apply rfl hstep
    obtain ⟨hstream, hread, hp₁, hseveral, hopen⟩ := hstepped p₁ rfl
    have heof : p.stream.lookAhead 1 ≠ Symbol.eof := by
      intro heof
      rw [heof] at hopen
      exact hopen (.inl fun t ht => Network.isStop_of_mem_reachOf_eof ht)
    obtain ⟨hc', T', w, hp', hguides', hread', hnext⟩ :=
      ih hc₁ hp₁ (hguides.reach hnet heof hseveral)
    refine ⟨hc', T', p.stream.lookAhead 1 :: w, hp', hguides', ?_, fun m => ?_⟩
    · rw [hread', hread, List.length_cons]
      omega
    · rw [List.length_cons, Nat.succ_add, TokenStream.next, ← hstream, hnext m]
      rfl

/-- **Where the table settles a decision** for an alternative, the call stack leaves none but it. -/
theorem Settles.agrees (hU : r.Under R F asked₀ words) (hnet : r.net.Sealed top start stop)
    (hplain : Guardless (R.start r.decision))
    (hguides : r.net.Guides start (R.start r.decision) F) {n a : Nat} (hc : s.cache.Faithful R)
    (h : r.Settles s n a s') :
    s'.cache.Faithful R ∧ ∀ u ∈ r.net.reachAllOf true (r.stream.next n) F, u.1.1 = a := by
  obtain ⟨first, s₀, p, s₁, place, hfirst, hgoes, hnext, rfl, haccepting, hcontext, rfl⟩ := h
  obtain ⟨hc₀, -, -, first', hfirst', -, -, -, hstands⟩ := (startPlace_acts hU hc).apply rfl hfirst
  obtain rfl := Except.ok.inj hfirst'
  obtain ⟨hc₁, T, w, hp, hguides', hread, hsymbols⟩ := hgoes.guides hU hnet hc₀ hstands hguides
  obtain ⟨hc', -, -, place', hplace, -, -, -, hcomes⟩ := (next_acts hU hc₁ hp).apply rfl hnext
  obtain rfl := Except.ok.inj hplace
  refine ⟨hc', ?_⟩
  have hT : Guardless T := hp.met.guardless hplain
  have hspeaks := hcomes.shows.holds.speaks hc'.sound (hT.reachOf false _) hcomes.found haccepting
    hcontext
  have hall : r.stream.next (p.read + 1) = w ++ [p.stream.lookAhead 1] := by
    rw [show p.read = w.length by simpa using hread]
    exact hsymbols 1
  rw [hall, Network.reachAllOf_append]
  exact hguides'.speaks hnet hspeaks

/-- **What the call stack leaves** after some symbols, unless the host changes it. -/
theorem withCallers_ends (hU : r.Under R F asked₀ words) (hhost : r.Steady true) {c : Cache}
    (hc : c.Faithful R) (w : List Symbol) (past : List Callback) :
    (r.withCallers w).Yields { graph := c.graph, past } fun res tr => ∀ next,
      res = .ok (some next) →
        Question.Stage true (r.net.reachAllOf true w F) next tr.graph ∧ tr.graph.Sound := by
  have hgrow : Probe.Ends true (Probe.grow (StackGraph.ofCallers r.net r.callers))
      { graph := c.graph, past } _ :=
    .grow (ofCallers_grows hU.consistent hU.word r.callers hc.sound).anyhow
  refine Run.Yields.bind hgrow ?_ fun _ _ _ => nofun
  rintro stack tr ⟨hext, hstack, -⟩
  obtain ⟨hlt, hset⟩ := hstack stack rfl
  have hnodes : tr.graph.maxNodes = R.nodes := hext.grown.maxNodes_eq.trans hc.nodes_eq
  refine Run.Yields.bind (hU.opensFull tr stack hext.sound hnodes hlt hset) ?_ fun _ _ _ => nofun
  rintro configs tr' ⟨hgrown, hstart, -⟩
  obtain ⟨hstage, -⟩ := (hstart configs rfl).2 hhost
  have hends := Question.reachAll_ends (w := w) hU.consistent hU.word hU.noReentry hU.words_le
    hgrown.sound (by rw [hgrown.maxNodes_eq, hnodes]; exact hU.fuel) hstage hU.properFull
  refine Run.Yields.mono hends ?_
  rintro res tr'' ⟨hext'', hend, -⟩ next rfl
  exact ⟨hend _ rfl next rfl, hext''.sound⟩

end Request

end AdaptiveLL
