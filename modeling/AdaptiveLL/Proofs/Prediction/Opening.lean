import AdaptiveLL.Proofs.Prediction.Told
import AdaptiveLL.Proofs.Prediction.Viable

/-!
# How decisions begin

Where no guards count, a decision begins with one thread for each alternative, at the target of its
transition and under the stack at hand, and with all that these lead to. So without the call stack
it keeps every alternative that is viable under some stack, and with the call stack it is honest
about the word ahead.
-/

namespace AdaptiveLL

namespace Network

variable {net : Network} {entry : StateId} {full : Bool} {σ ρ : List StateId} {top : Nat}
  {stop : StateId} {w : List Symbol}

/-- The threads of the alternatives. -/
def startsOf (net : Network) (entry : StateId) (σ : List StateId) : Set Thread :=
  {t | ∃ i tr, (net.state entry).transitions[i]? = some tr ∧
    t = ((i + 1, Guard.always), tr.target, σ)}

/-- **The threads with which a decision begins** under a stack. -/
def openingOf (net : Network) (entry : StateId) (full : Bool) (σ : List StateId) : Set Thread :=
  trim (!full) (net.closureOf { full } (net.startsOf entry σ))

private theorem tag_of_mem_openingOf {t : Thread} (ht : t ∈ net.openingOf entry full σ) :
    ∃ i, t.1 = (i + 1, Guard.always) := by
  obtain ⟨⟨c, ⟨i, tr, _, heq⟩, _⟩, _⟩ := trim_subset _ _ ht
  exact ⟨i, (Prod.mk.inj heq).1⟩

theorem openingOf_proper : Proper (net.openingOf entry full σ) := by
  intro t ht
  obtain ⟨i, htag⟩ := tag_of_mem_openingOf ht
  rw [htag]
  exact Nat.succ_ne_zero i

theorem openingOf_guardless : Guardless (net.openingOf entry full σ) := by
  intro t ht
  obtain ⟨i, htag⟩ := tag_of_mem_openingOf ht
  rw [htag]

/-- **An alternative can be continued** under a stack of calls to a derivation of the word. -/
def Viable (net : Network) (stop entry : StateId) (ρ : List StateId) (w : List Symbol) (a : Nat) :
    Prop :=
  ∃ i tr, (net.state entry).transitions[i]? = some tr ∧ a = i + 1 ∧
    net.Reads (tr.target, ρ) w (stop, [])

/-- The ways on from a state that make no call stay under its stack. -/
private theorem linked_target (hnet : net.Orderly) (hstop : net.isStop entry = false)
    (hcalls : ∀ t ∈ (net.state entry).transitions, t.isRule = false)
    (hlinked : net.Linked top entry ρ) {i : Nat} {tr : Transition}
    (htr : (net.state entry).transitions[i]? = some tr) : net.Linked top tr.target ρ :=
  have hmem := List.mem_of_getElem? htr
  hlinked.congr (hnet.along entry hstop tr hmem (hcalls tr hmem))

/-- **A viable alternative is kept** at the beginning, whether the call stack is known or not. -/
theorem Viable.awaits (hnet : net.Orderly) (hstop : net.isStop entry = false)
    (hcalls : ∀ t ∈ (net.state entry).transitions, t.isRule = false)
    (hlinked : net.Linked top entry ρ) {v : Symbol} {a : Nat}
    (h : net.Viable stop entry ρ (v :: w) a) (hσ : σ = ρ ∨ full = false ∧ σ = []) :
    net.Awaits top stop full (net.openingOf entry full σ) a (v :: w) := by
  obtain ⟨i, tr, htr, rfl, hreads⟩ := h
  have hkeeps : net.Keeps top stop full (net.startsOf entry σ) (i + 1) (v :: w) := by
    refine ⟨_, ⟨i, tr, htr, rfl⟩, rfl, (tr.target, ρ), ⟨rfl, ?_⟩,
      linked_target hnet hstop hcalls hlinked htr, hreads⟩
    rcases hσ with rfl | ⟨rfl, rfl⟩
    · exact ⟨[], by simp, fun _ => rfl⟩
    · exact ⟨ρ, rfl, nofun⟩
  exact (hkeeps.closed hnet false).trim

/-- **With the call stack a decision begins honestly.** -/
theorem honest_opening (hnet : net.Orderly) (hclosed : net.Closed top stop)
    (hstop : net.isStop entry = false)
    (hcalls : ∀ t ∈ (net.state entry).transitions, t.isRule = false)
    (hlinked : net.Linked top entry ρ) :
    net.Honest top stop (net.Viable stop entry ρ w) (net.openingOf entry true ρ) w := by
  unfold openingOf
  rw [Bool.not_true, trim_false]
  refine Honest.closed hnet hclosed ?_ ?_
  · rintro t ⟨i, tr, htr, rfl⟩
    exact linked_target hnet hstop hcalls hlinked htr
  · rintro t ⟨i, tr, htr, rfl⟩ hreads
    exact ⟨i, tr, htr, rfl, hreads⟩

end Network

namespace Question

variable {q : Question} {words : Nat}

/-- The configurations of the alternatives. -/
def starts (q : Question) (stack : StackId) : List Config :=
  (q.net.state q.entry).transitions.zipIdx.map fun (t, i) =>
    { state := t.target, alt := i + 1, stack }

theorem mem_starts {stack : StackId} {c : Config} :
    c ∈ q.starts stack ↔ ∃ i t, (q.net.state q.entry).transitions[i]? = some t ∧
      c = { state := t.target, alt := i + 1, stack } := by
  constructor
  · intro hc
    obtain ⟨⟨t, i⟩, hti, rfl⟩ := List.mem_map.mp hc
    exact ⟨i, t, List.mem_zipIdx_iff_getElem?.mp hti, rfl⟩
  · rintro ⟨i, t, hti, rfl⟩
    exact List.mem_map.mpr ⟨(t, i), List.mem_zipIdx_iff_getElem?.mpr hti, rfl⟩

/-- Under a known stack, these stand for the threads of the alternatives. -/
theorem starts_threads {g : StackGraph} {stack : StackId} {σ : List StateId}
    (hset : g.stackSet stack = {σ}) :
    {t | ∃ c ∈ q.starts stack, t ∈ c.threads g} = q.net.startsOf q.entry σ := by
  have hstacks : ∀ γ, g.HasStack stack γ ↔ γ = σ := fun γ => Set.ext_iff.mp hset γ
  ext ⟨tag, p, γ⟩
  constructor
  · rintro ⟨c, hc, htag, hp, hγ⟩
    obtain ⟨i, t, hti, rfl⟩ := mem_starts.mp hc
    obtain rfl : γ = σ := (hstacks γ).mp hγ
    exact ⟨i, t, hti, Prod.ext htag (Prod.ext hp rfl)⟩
  · rintro ⟨i, t, hti, heq⟩
    obtain ⟨htag, heq⟩ := Prod.mk.inj heq
    obtain ⟨rfl, rfl⟩ := Prod.mk.inj heq
    exact ⟨_, mem_starts.mpr ⟨i, t, hti, rfl⟩, htag, rfl, (hstacks _).mpr rfl⟩

/-- **A decision begins with its opening,** where the network has no guards. -/
theorem opens (hnet : q.net.Consistent) (hword : q.net.states.size ≤ emptyReturn)
    (hno : q.net.NoReentry) (hguards : q.net.Unguarded) (hwords : emptyReturn ≤ words)
    {full : Bool} {σ : List StateId} (hσ : full = false → σ = []) {nodes : Nat}
    (hfuel : sweepBound words (q.net.state q.entry).transitions.length nodes < q.fuel) :
    q.Opens full σ nodes (q.net.openingOf q.entry full σ) [] := by
  intro tr stack hg hnodes hstack hset
  have hcard : ((q.starts stack).map Config.tag).toFinset.card ≤
      (q.net.state q.entry).transitions.length := by
    refine (List.toFinset_card_le _).trans (le_of_eq ?_)
    simp [starts]
  have hempty : full = false → stack = StackId.empty := by
    intro hfull
    refine hg.eq_of_stackSet_eq hstack hg.empty_lt ?_
    rw [hset, hσ hfull, hg.stackSet_empty]
  have hcollect : Visit.Plain q.net true := fun _ => hguards
  -- The sweep over the ways on: bounded by how many ways there are, and true to the threads.
  have hclosures := closures_ends (m := { full }) hnet hword (hno.noReentryBy _) hwords hcollect
    ((q.starts stack).map Config.tag).toFinset (q.starts stack) hg
    (by rw [hnodes]; exact (sweepBound_mono hcard).trans_lt hfuel) ?_
  · have hstart : Probe.Ends true (q.startSet full stack) tr
        (Stage full (q.net.openingOf q.entry full σ)) Exceeded.Ordinary := by
      refine (hclosures.failing fun _ => .ordinary).bind
        fun acc tr' hext ⟨htidy, hcont, hacc, _⟩ => ?_
      exact .pure hext.sound ⟨htidy, hcont, by rw [hacc, starts_threads hset]; rfl⟩
    refine Run.Yields.mono hstart ?_
    rintro r tr' ⟨hext, hstage, hmeets⟩
    refine ⟨hext.grown, fun s hs => ⟨⟨_, Network.openingOf_proper, hstage s hs⟩, fun _ => ?_⟩,
      hmeets⟩
    exact ⟨hstage s hs, by rw [hext.asked_eq rfl, List.append_nil]⟩
  · intro c hc
    have hmem := hc
    obtain ⟨i, t, hti, rfl⟩ := mem_starts.mp hc
    refine ⟨⟨hstack, fun hwild => ?_, rfl, rfl⟩, ?_, ?_⟩
    · have hfull : full = false := by simpa using hwild
      change tr.graph.Open stack
      rw [hempty hfull]
      exact .empty
    · exact Nat.lt_of_lt_of_le (hnet.target_lt _ t (List.mem_of_getElem? hti)) (hword.trans hwords)
    · exact List.mem_toFinset.mpr (List.mem_map_of_mem hmem)

end Question

end AdaptiveLL
