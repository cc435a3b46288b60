import AdaptiveLL.Proofs.Grammar.Progress
import AdaptiveLL.Proofs.Lexing.Matches

/-!
# Plain lexer networks

In a *plain* network nothing but the characters decides what is matched: there are no guards and no
lazy decisions, nothing consumes the end of the input, and a state that consumes a character has no
other way on. There the strands after a word are all those whose runs have read the word and come to
rest: what a chase visits is closed under hops, so nothing that a run can reach is left out, and no
strand keeps another one from being followed.
-/

namespace AdaptiveLL

namespace Strand

/-- Where the strand stands. -/
def stand (t : Strand) : Stand := (t.state, t.stack)

/-- The strand moved elsewhere. -/
def movedTo (t : Strand) (d : Stand) : Strand := { t with state := d.1, stack := d.2 }

variable (t : Strand) (d : Stand)

@[simp] theorem stand_movedTo : (t.movedTo d).stand = d := rfl

@[simp] theorem alt_movedTo : (t.movedTo d).alt = t.alt := rfl

@[simp] theorem nonGreedy_movedTo : (t.movedTo d).nonGreedy = t.nonGreedy := rfl

@[simp] theorem movedTo_movedTo (d' : Stand) : (t.movedTo d).movedTo d' = t.movedTo d' := rfl

@[simp] theorem movedTo_stand : t.movedTo t.stand = t := rfl

end Strand

namespace Network

/-- **The network is plain.** -/
structure Plain (net : Network) : Prop where
  lexer : net.isLexer = true
  unguarded : net.Unguarded
  greedy : ∀ q, (net.state q).isLazy = false
  stopsAtEof : net.StopsAtEof
  single : ∀ q, ∀ t ∈ (net.state q).transitions, t.isEpsilon = false →
    (net.state q).transitions = [t]
  stop_ways : ∀ q, net.isStop q = true → (net.state q).transitions = []

variable {net : Network} {v : Vantage} {t u : Strand} {finished : Bool} {s e : Pursuit}

/-! ## Chases -/

namespace Plain

theorem lead_eq (hnet : net.Plain) (t : Strand) (d : Stand) : net.lead t d.1 d.2 = t.movedTo d := by
  unfold Network.lead Strand.movedTo
  rw [hnet.greedy, Bool.or_false]

/-- A transition leads a strand where it leads a run. -/
private theorem onward_eq (hnet : net.Plain) (hv : v.net = net) {step : Transition}
    (hstep : step ∈ (net.state t.state).transitions) :
    v.onward t step = (step.onward false t.stack).map t.movedTo := by
  have hguard := hnet.unguarded _ step hstep
  have heof := hnet.stopsAtEof _ step hstep
  have hlead : ∀ q σ, v.net.lead t q σ = t.movedTo (q, σ) := fun q σ => hv ▸ hnet.lead_eq t (q, σ)
  unfold Vantage.onward Transition.onward
  cases step with
  | predicate => cases hguard
  | precedence => cases hguard
  | atom => simp [heof]
  | range => simp [heof]
  | set => simp [heof]
  | _ => simp [hlead, Transition.target]

end Plain

/-- **What a chase of the strand has swept.** Wherever a strand that was seen can hop has been seen or
is on the work list. -/
private structure Swept (net : Network) (t : Strand) (s : Pursuit) : Prop where
  begun : t ∈ s.seen ∨ t ∈ s.work
  reached : ∀ u, u ∈ s.seen ∨ u ∈ s.work →
    ∃ d, Relation.ReflTransGen (net.Hop true false) t.stand d ∧ u = t.movedTo d
  closed : ∀ u ∈ s.seen, ∀ d, net.Hop true false u.stand d →
    u.movedTo d ∈ s.seen ∨ u.movedTo d ∈ s.work
  found_iff : ∀ u, u ∈ s.found ↔ u ∈ s.seen ∧ net.Rests true u.stand

namespace Swept

private theorem skip {rest : List Strand} (hs : net.Swept t s) (hwork : s.work = u :: rest)
    (hseen : u ∈ s.seen) : net.Swept t { s with work := rest } := by
  have hmem : ∀ x, x ∈ s.seen ∨ x ∈ s.work → x ∈ s.seen ∨ x ∈ rest := by
    rintro x (hx | hx)
    · exact .inl hx
    · rw [hwork] at hx
      rcases List.mem_cons.mp hx with rfl | hx
      · exact .inl hseen
      · exact .inr hx
  refine ⟨hmem t hs.begun, fun x hx => hs.reached x (hx.imp_right fun hx => ?_),
    fun x hx d hhop => hmem _ (hs.closed x hx d hhop), hs.found_iff⟩
  rw [hwork]
  exact List.mem_cons_of_mem _ hx

/-- A strand is visited whose hops are those to some strands, which are put on the work list. -/
private theorem visit {rest : List Strand} {s' : Pursuit} (hs : net.Swept t s)
    (next : List Strand)
    (hwork : s.work = u :: rest)
    (hnext : ∀ x, x ∈ next ↔ ∃ d, net.Hop true false u.stand d ∧ x = u.movedTo d)
    (hwork' : s'.work = next ++ rest) (hseen' : s'.seen = u :: s.seen)
    (hfound' : ∀ x, x ∈ s'.found ↔ x ∈ s.found ∨ (x = u ∧ net.Rests true u.stand)) :
    net.Swept t s' := by
  obtain ⟨d, hrun, hu⟩ := hs.reached u (.inr (hwork ▸ List.mem_cons_self))
  have hstand : u.stand = d := by rw [hu, Strand.stand_movedTo]
  have hmem : ∀ x, x ∈ s.seen ∨ x ∈ s.work → x ∈ s'.seen ∨ x ∈ s'.work := by
    rw [hwork, hwork', hseen']
    intro x hx
    simp only [List.mem_cons, List.mem_append] at hx ⊢
    tauto
  refine ⟨hmem t hs.begun, fun x hx => ?_, fun x hx d' hhop => ?_, fun x => ?_⟩
  · rw [hwork', hseen'] at hx
    rcases hx with hx | hx
    · rcases List.mem_cons.mp hx with rfl | hx
      · exact ⟨d, hrun, hu⟩
      · exact hs.reached x (.inl hx)
    · rcases List.mem_append.mp hx with hx | hx
      · obtain ⟨d', hhop, rfl⟩ := (hnext x).mp hx
        exact ⟨d', hrun.tail (hstand ▸ hhop), by rw [hu, Strand.movedTo_movedTo]⟩
      · exact hs.reached x (.inr (hwork ▸ List.mem_cons_of_mem _ hx))
  · rw [hseen'] at hx
    rcases List.mem_cons.mp hx with rfl | hx
    · rw [hwork']
      exact .inr (List.mem_append_left _ ((hnext _).mpr ⟨d', hhop, rfl⟩))
    · exact hmem _ (hs.closed x hx d' hhop)
  · rw [hfound', hs.found_iff, hseen', List.mem_cons]
    constructor
    · rintro (⟨hx, hrests⟩ | ⟨rfl, hrests⟩)
      · exact ⟨.inr hx, hrests⟩
      · exact ⟨.inl rfl, hrests⟩
    · rintro ⟨rfl | hx, hrests⟩
      · exact .inr ⟨rfl, hrests⟩
      · exact .inl ⟨hx, hrests⟩

end Swept

namespace Plain

/-- A visit sweeps where the strand can hop. -/
private theorem swept_visit (hnet : net.Plain) (hv : v.net = net) (ht : t.nonGreedy = false)
    {rest : List Strand} (hs : net.Swept t s) (hwork : s.work = u :: rest) :
    net.Swept t (v.visit u { s with work := rest, seen := u :: s.seen }) := by
  have hlazy : u.nonGreedy = false := by
    obtain ⟨d, -, rfl⟩ := hs.reached u (.inr (hwork ▸ List.mem_cons_self))
    exact ht
  obtain ⟨q, alt, σ, nonGreedy⟩ := u
  unfold Vantage.visit
  rw [hv]
  cases hstop : net.isStop q with
  | true =>
    rw [if_pos rfl]
    cases σ with
    | nil =>
      -- The token is complete: there are no hops from here.
      refine hs.visit [] hwork (fun x => ?_) rfl rfl fun x => ?_
      · refine ⟨nofun, fun ⟨d, hhop, _⟩ => ?_⟩
        rcases hhop.along_or_back with ⟨hno, -⟩ | ⟨-, heq⟩
        · exact absurd (hstop.symm.trans hno) nofun
        · cases heq
      · have hrests : net.Rests true (q, []) := by simp [Rests, hstop]
        simp [Strand.stand, hrests]
    | cons r σ =>
      refine hs.visit [net.lead ⟨q, alt, r :: σ, nonGreedy⟩ r σ] hwork
        (fun x => ?_) rfl rfl fun x => ?_
      · rw [List.mem_singleton, hnet.lead_eq _ (r, σ)]
        constructor
        · rintro rfl
          exact ⟨_, .back hstop, rfl⟩
        · rintro ⟨d, hhop, rfl⟩
          rcases hhop.along_or_back with ⟨hno, -⟩ | ⟨-, heq⟩
          · exact absurd (hstop.symm.trans hno) nofun
          · obtain ⟨rfl, rfl⟩ := List.cons.inj heq
            rfl
      · have hrests : ¬net.Rests true (q, r :: σ) := by simp [Rests, hstop]
        simp [Strand.stand, hrests]
  | false =>
    rw [if_neg Bool.false_ne_true]
    refine hs.visit (v.nexts ⟨q, alt, σ, nonGreedy⟩) hwork (fun x => ?_) rfl rfl
      fun x => ?_
    · unfold Vantage.nexts
      rw [hv, List.mem_filterMap]
      constructor
      · rintro ⟨step, hstep, hon⟩
        rw [hnet.onward_eq hv hstep] at hon
        obtain ⟨d, hd, rfl⟩ := Option.map_eq_some_iff.mp hon
        exact ⟨d, .along (fun h => absurd (hstop.symm.trans h) Bool.false_ne_true) hstep hd, rfl⟩
      · rintro ⟨d, hhop, rfl⟩
        rcases hhop.along_or_back with ⟨-, step, hstep, hd⟩ | ⟨hback, -⟩
        · refine ⟨step, hstep, ?_⟩
          rw [hnet.onward_eq hv hstep]
          exact Option.map_eq_some_iff.mpr ⟨d, hd, rfl⟩
        · exact absurd (hstop.symm.trans hback) Bool.false_ne_true
    · have hrests : net.Rests true (q, σ) ↔ (net.state q).onlyEpsilon = false := by
        simp [Rests, hstop]
      rw [show (Strand.mk q alt σ nonGreedy).nonGreedy = false from hlazy, Bool.and_false,
        Bool.or_false, show (Strand.mk q alt σ nonGreedy).stand = (q, σ) from rfl, hrests]
      cases (net.state q).onlyEpsilon <;> simp

/-- **A chase finds all strands that hops lead to** and that come to rest. As it ends, hops nest calls
only so deep. -/
theorem chases (hnet : net.Plain) (hv : v.net = net) (ht : t.nonGreedy = false)
    (h : v.Chases (Vantage.begin t finished) e) :
    (∀ u, u ∈ e.found ↔ ∃ d, Relation.ReflTransGen (net.Hop true false) t.stand d ∧
      net.Rests true d ∧ u = t.movedTo d) ∧ ∃ depth, net.Shallow depth t.stand := by
  have hswept : net.Swept t e := h.keeps (net.Swept t) (fun _ _ _ hs hwork hseen => hs.skip hwork hseen)
    (fun _ _ _ hs hwork _ => hnet.swept_visit hv ht hs hwork)
    ⟨.inr List.mem_cons_self, fun u hu => ⟨t.stand, .refl, by simpa using hu⟩, nofun, by simp⟩
  have hwork : ∀ u, u ∉ e.work := by simp [h.work_eq]
  have hseen : ∀ d, Relation.ReflTransGen (net.Hop true false) t.stand d → t.movedTo d ∈ e.seen := by
    intro d hrun
    induction hrun with
    | refl => exact hswept.begun.resolve_right (hwork t)
    | tail _ hhop ih => exact (hswept.closed _ ih _ hhop).resolve_right (hwork _)
  refine ⟨fun u => ?_, (e.seen.map fun u => u.stack.length).sum, fun d hrun => ?_⟩
  · rw [hswept.found_iff]
    constructor
    · rintro ⟨hu, hrests⟩
      obtain ⟨d, hrun, rfl⟩ := hswept.reached u (.inl hu)
      exact ⟨d, hrun, hrests, rfl⟩
    · rintro ⟨d, hrun, hrests, rfl⟩
      exact ⟨hseen d hrun, hrests⟩
  · exact List.le_sum_of_mem (List.mem_map.mpr ⟨_, hseen d hrun, rfl⟩)

/-! ## Characters -/

variable {symbol : Symbol} {l found : List Strand} {guarded : Bool} {done : Nat}

/-- The strands to which a character leads a strand. -/
private def Yields (net : Network) (symbol : Symbol) (t u : Strand) : Prop :=
  ∃ step ∈ (net.state t.state).transitions,
    step.accepts symbol Symbol.firstChar Symbol.lastChar = true ∧
      ∃ d, Relation.ReflTransGen (net.Hop true false) (step.target, t.stack) d ∧
        net.Rests true d ∧ u = t.movedTo d

/-- Behind a character that the strand consumes hops nest calls only so deep. -/
private def Settles (net : Network) (symbol : Symbol) (t : Strand) : Prop :=
  ∀ step ∈ (net.state t.state).transitions,
    step.accepts symbol Symbol.firstChar Symbol.lastChar = true →
      ∃ depth, net.Shallow depth (step.target, t.stack)

private theorem consumes (hnet : net.Plain) (hv : v.net = net) (ht : t.nonGreedy = false) {k : Catch}
    (h : v.Consumes symbol t finished (net.state t.state).transitions k) :
    (∀ u, u ∈ k.found ↔ Yields net symbol t u) ∧ Settles net symbol t := by
  by_cases hacc : ∃ step ∈ (net.state t.state).transitions,
      step.accepts symbol Symbol.firstChar Symbol.lastChar = true
  · obtain ⟨step, hstep, hacc⟩ := hacc
    -- What consumes the character is the only way on.
    have hone := hnet.single _ step hstep (by cases step <;> first | rfl | cases hacc)
    have hchase : ∀ {e : Pursuit},
        v.Chases (Vantage.begin (v.net.lead t step.target t.stack) finished) e →
          (∀ u, u ∈ e.found ↔ Yields net symbol t u) ∧ Settles net symbol t := by
      intro e he
      rw [hv, hnet.lead_eq t (step.target, t.stack)] at he
      obtain ⟨hfound, hdepth⟩ := hnet.chases hv (by exact ht) he
      unfold Yields Settles
      rw [hone]
      refine ⟨fun u => ?_, fun step' hstep' _ => List.mem_singleton.mp hstep' ▸ hdepth⟩
      rw [hfound]
      exact ⟨fun ⟨d, hd⟩ => ⟨step, List.mem_singleton_self _, hacc, d, hd⟩,
        fun ⟨step', hstep', _, d, hd⟩ => ⟨d, List.mem_singleton.mp hstep' ▸ hd⟩⟩
    rw [hone] at h
    cases h with
    | skip hno => cases hno.symm.trans hacc
    | last _ he => exact hchase he
    | next _ he _ hrest =>
      rw [hrest.found_eq_nil fun _ hx => absurd hx List.not_mem_nil, List.append_nil]
      exact hchase he
  · have hnone : ∀ step ∈ (net.state t.state).transitions,
        step.accepts symbol Symbol.firstChar Symbol.lastChar = false := fun step hstep =>
      Bool.eq_false_of_not_eq_true fun h => hacc ⟨step, hstep, h⟩
    rw [h.found_eq_nil hnone]
    refine ⟨fun u => ⟨nofun, fun ⟨step, hstep, hyes, _⟩ => ?_⟩, fun step hstep hyes => ?_⟩
    · exact absurd ⟨step, hstep, hyes⟩ hacc
    · exact absurd ⟨step, hstep, hyes⟩ hacc

private theorem reaches (hnet : net.Plain) (hv : v.net = net) (hl : ∀ t ∈ l, t.nonGreedy = false)
    (h : v.Reaches symbol l found guarded done) :
    (∀ u, u ∈ found ↔ ∃ t ∈ l, Yields net symbol t u) ∧ ∀ t ∈ l, Settles net symbol t := by
  induction h with
  | nil => exact ⟨by simp, nofun⟩
  | @drop l _ _ _ t _ _ hlazy =>
    exact absurd (hl t (List.mem_append_right _ (List.mem_singleton_self t))) (by simp [hlazy])
  | @take l found _ _ t k _ _ hconsumes ih =>
    obtain ⟨hfound, hsettles⟩ := ih fun x hx => hl x (List.mem_append_left _ hx)
    obtain ⟨hk, hsettle⟩ := hnet.consumes hv
      (hl t (List.mem_append_right _ (List.mem_singleton_self t))) (hv ▸ hconsumes)
    refine ⟨fun u => ?_, fun x hx => ?_⟩
    · rw [List.mem_append, hfound, hk]
      simp only [List.mem_append, List.mem_singleton, or_and_right, exists_or, exists_eq_left]
    · rcases List.mem_append.mp hx with hx | hx
      · exact hsettles x hx
      · exact List.mem_singleton.mp hx ▸ hsettle

private theorem opens (hnet : net.Plain) (hv : v.net = net) (hl : ∀ t ∈ l, t.nonGreedy = false)
    (h : v.Opens l found guarded) :
    (∀ u, u ∈ found ↔ ∃ t ∈ l, ∃ d, Relation.ReflTransGen (net.Hop true false) t.stand d ∧
      net.Rests true d ∧ u = t.movedTo d) ∧ ∀ t ∈ l, ∃ depth, net.Shallow depth t.stand := by
  induction h with
  | nil => exact ⟨by simp, nofun⟩
  | @next t l found _ e _ hchases ih =>
    obtain ⟨hfound, hdepths⟩ := ih fun x hx => hl x (List.mem_append_left _ hx)
    obtain ⟨he, hdepth⟩ := hnet.chases hv
      (hl t (List.mem_append_right _ (List.mem_singleton_self t))) hchases
    refine ⟨fun u => ?_, fun x hx => ?_⟩
    · rw [List.mem_append, hfound, he]
      simp only [List.mem_append, List.mem_singleton, or_and_right, exists_or, exists_eq_left]
    · rcases List.mem_append.mp hx with hx | hx
      · exact hdepths x hx
      · exact List.mem_singleton.mp hx ▸ hdepth

end Plain

/-! ## Words -/

/-- **The strands after a word:** those whose runs have read it from where their alternative begins,
and have come to rest. -/
structure Holds (net : Network) (entry : StateId) (w : List Symbol) (fs : List Strand) : Prop where
  sorted : Vantage.Sorted fs
  mem_iff : ∀ u, u ∈ fs ↔ u.nonGreedy = false ∧ net.Rests true u.stand ∧
    ∃ i step, (net.state entry).transitions[i]? = some step ∧ u.alt = i + 1 ∧
      net.Reads (step.target, []) w u.stand
  shallow : ∀ step ∈ (net.state entry).transitions, ∀ c, net.Reads (step.target, []) w c →
    ∃ depth, net.Shallow depth c

variable {host : Host} {position : Nat} {entry : StateId} {symbol : Symbol} {w : List Symbol}
  {fs fs' : List Strand}

private theorem mem_starts (hnet : net.Plain) : t ∈ net.starts entry ↔
    t.nonGreedy = false ∧ t.stack = [] ∧ ∃ i step,
      (net.state entry).transitions[i]? = some step ∧ t.alt = i + 1 ∧ t.state = step.target := by
  unfold Network.starts
  rw [List.mem_map]
  constructor
  · rintro ⟨⟨step, i⟩, hmem, rfl⟩
    rw [hnet.lead_eq _ (step.target, [])]
    exact ⟨rfl, rfl, i, step, List.mem_zipIdx_iff_getElem?.mp hmem, rfl, rfl⟩
  · rintro ⟨hlazy, hnil, i, step, hstep, halt, hstate⟩
    refine ⟨(step, i), List.mem_zipIdx_iff_getElem?.mpr hstep, ?_⟩
    rw [hnet.lead_eq _ (step.target, [])]
    obtain ⟨q, alt, σ, nonGreedy⟩ := t
    simp_all [Strand.movedTo]

/-- A run that reads one more symbol consumes it somewhere, and hops on. -/
theorem reads_concat_iff {c d : Stand} : net.Reads c (w ++ [symbol]) d ↔ ∃ q σ, ∃ step,
    net.Reads c w (q, σ) ∧ net.isStop q = false ∧ step ∈ (net.state q).transitions ∧
      step.accepts symbol net.firstSymbol net.lastSymbol = true ∧
        Relation.ReflTransGen (net.Hop true false) (step.target, σ) d := by
  rw [Reads.append_iff]
  constructor
  · rintro ⟨b, hb, hd⟩
    obtain ⟨q, σ, step, hhops, hstop, hstep, hacc, hlast⟩ := Reads.cons_iff.mp hd
    have hq := hb.trans (.of_hops hhops)
    rw [List.append_nil] at hq
    exact ⟨q, σ, step, hq, hstop, hstep, hacc, hlast.hops⟩
  · rintro ⟨q, σ, step, hq, hstop, hstep, hacc, hhops⟩
    exact ⟨(q, σ), hq, .eat hstop hstep hacc (.of_hops hhops)⟩

namespace Plain

theorem accepts_eq (hnet : net.Plain) (step : Transition) (symbol : Symbol) :
    step.accepts symbol net.firstSymbol net.lastSymbol =
      step.accepts symbol Symbol.firstChar Symbol.lastChar := by
  unfold firstSymbol lastSymbol
  rw [if_pos hnet.lexer, if_pos hnet.lexer]

/-- A run that is about to consume a character rests. -/
private theorem rests {q : StateId} {σ : List StateId} (hstop : net.isStop q = false)
    {step : Transition} (hstep : step ∈ (net.state q).transitions) {lo hi : Symbol}
    (hacc : step.accepts symbol lo hi = true) : net.Rests true (q, σ) := by
  have heps : step.isEpsilon = false := by cases step <;> first | rfl | cases hacc
  have honly : (net.state q).onlyEpsilon = false := by
    unfold State.onlyEpsilon
    rw [Bool.and_eq_false_iff, List.all_eq_false]
    exact .inr ⟨step, hstep, by simp [heps]⟩
  simp [Rests, hstop, honly]

end Plain

/-- **At the beginning no character was read.** -/
theorem Begins.holds (hnet : net.Plain) (h : net.Begins host position entry fs) :
    net.Holds entry [] fs := by
  obtain ⟨found, guarded, hopens, rfl⟩ := h
  obtain ⟨hfound, hdepth⟩ := hnet.opens (v := net.outlook host position false) rfl
    (fun t ht => ((mem_starts hnet).mp ht).1) hopens
  have hstart : ∀ i step, (net.state entry).transitions[i]? = some step →
      (⟨step.target, i + 1, [], false⟩ : Strand) ∈ net.starts entry := fun i step hstep =>
    (mem_starts hnet).mpr ⟨rfl, rfl, i, step, hstep, rfl, rfl⟩
  refine ⟨(hopens.sorted (net.sorted_starts entry)).1.sublist (firsts_sublist _), fun u => ?_,
    fun step hstep c hreads => ?_⟩
  · rw [mem_firsts, hfound]
    constructor
    · rintro ⟨t, ht, d, hhops, hrests, rfl⟩
      obtain ⟨hlazy, hnil, i, step, hstep, halt, hstate⟩ := (mem_starts hnet).mp ht
      refine ⟨hlazy, hrests, i, step, hstep, halt, .of_hops ?_⟩
      rwa [show t.stand = (step.target, []) from Prod.ext hstate hnil] at hhops
    · rintro ⟨hlazy, hrests, i, step, hstep, halt, hreads⟩
      refine ⟨_, hstart i step hstep, u.stand, hreads.hops, hrests, ?_⟩
      rw [← halt, ← hlazy]
      rfl
  · obtain ⟨i, hi⟩ := List.mem_iff_getElem?.mp hstep
    obtain ⟨depth, hdepth⟩ := hdepth _ (hstart i step hi)
    exact ⟨depth, hdepth.of_hops hreads.hops⟩

/-- **A character makes the word longer.** -/
theorem After.holds (hnet : net.Plain) (hfs : net.Holds entry w fs)
    (h : net.After host position symbol fs fs') : net.Holds entry (w ++ [symbol]) fs' := by
  obtain ⟨found, guarded, done, hreaches, rfl⟩ := h
  obtain ⟨hfound, hsettles⟩ := hnet.reaches rfl (fun t ht => ((hfs.mem_iff t).mp ht).1) hreaches
  -- A run that consumes the character was at rest before, so there is a strand of it.
  have hbefore : ∀ i start q σ step, (net.state entry).transitions[i]? = some start →
      net.Reads (start.target, []) w (q, σ) → net.isStop q = false →
      step ∈ (net.state q).transitions →
      step.accepts symbol net.firstSymbol net.lastSymbol = true →
      (⟨q, i + 1, σ, false⟩ : Strand) ∈ fs := fun i start q σ step hi hreads hstop hstep hacc =>
    (hfs.mem_iff _).mpr ⟨rfl, Plain.rests hstop hstep hacc, i, start, hi, rfl, hreads⟩
  refine ⟨(hreaches.sorted hfs.sorted).1.sublist (firsts_sublist _), fun u => ?_,
    fun start hstart c hreads => ?_⟩
  · rw [mem_firsts, hfound]
    constructor
    · rintro ⟨t, ht, step, hstep, hacc, d, hhops, hrests, rfl⟩
      obtain ⟨hlazy, -, i, start, hi, halt, hreads⟩ := (hfs.mem_iff t).mp ht
      have hstop : net.isStop t.state = false := by
        refine Bool.eq_false_of_not_eq_true fun hstop => ?_
        rw [hnet.stop_ways _ hstop] at hstep
        cases hstep
      rw [← hnet.accepts_eq] at hacc
      exact ⟨hlazy, hrests, i, start, hi, halt,
        reads_concat_iff.mpr ⟨_, _, step, hreads, hstop, hstep, hacc, hhops⟩⟩
    · rintro ⟨hlazy, hrests, i, start, hi, halt, hreads⟩
      obtain ⟨q, σ, step, hreads, hstop, hstep, hacc, hhops⟩ := reads_concat_iff.mp hreads
      refine ⟨_, hbefore i start q σ step hi hreads hstop hstep hacc, step, hstep,
        hnet.accepts_eq step symbol ▸ hacc, u.stand, hhops, hrests, ?_⟩
      rw [← halt, ← hlazy]
      rfl
  · obtain ⟨i, hi⟩ := List.mem_iff_getElem?.mp hstart
    obtain ⟨q, σ, step, hreads, hstop, hstep, hacc, hhops⟩ := reads_concat_iff.mp hreads
    obtain ⟨depth, hdepth⟩ := hsettles _ (hbefore i start q σ step hi hreads hstop hstep hacc) step
      hstep (hnet.accepts_eq step symbol ▸ hacc)
    exact ⟨depth, hdepth.of_hops hhops⟩

end Network

end AdaptiveLL
