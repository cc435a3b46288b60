import AdaptiveLL.Proofs.Grammar.Laid
import Mathlib.Data.List.Forall2
import Mathlib.Data.List.Nodup

/-!
# Putting pieces together

Pieces of a layout are joined one after the other or side by side, and blocks of alternatives are
made optional or repeated. Whatever is joined keeps its place: an exit without ways on gets a plain
step to what comes next, and so its state stays wired.
-/

namespace AdaptiveLL

namespace Draft

variable {d : Draft} {rule : Nat} {parts : List Element} {q : StateId}

/-- Whether the state has nothing but plain steps within the rule. -/
def Plain (d : Draft) (rule : Nat) (q : StateId) : Prop :=
  ∀ t ∈ d.ways q, ∃ p, t = .epsilon p ∧ d.Owns rule p

theorem Plain.of_nil (h : d.ways q = []) : d.Plain rule q := by
  rw [Plain, h]
  nofun

/-- A state with plain steps may get another one and other marks. -/
theorem Wired.of_plain {d' : Draft} {touched : StateId → Prop} (h : d.Wired rule parts q)
    (hadds : d.Adds touched d') (hq : q < d.size) (hplain : d'.Plain rule q)
    (hsingle : (d'.state q).decision = none → (d'.ways q).length ≤ 1)
    (hgreedy : (d'.state q).nonGreedy = true → ∃ e ∈ parts, e.isLazy = true) :
    d'.Wired rule parts q where
  rule_eq := (hadds.rule_eq q hq).trans h.rule_eq
  inner := hadds.kind_eq q hq ▸ h.inner
  greedy := hgreedy
  plain := hsingle
  ways := .inl hplain

end Draft

namespace Layout

open Draft

variable {d : Draft} {rule : Nat}

/-! ## Joining an exit -/

/-- What joining an exit to a state does. -/
private structure Joined (d : Draft) (exit target : StateId) (d' : Draft) : Prop where
  adds : d.Adds (· = exit) d'
  size_eq : d'.size = d.size
  ways_eq : d'.ways exit = d.ways exit ++ [.epsilon target]
  state_eq : d'.state exit = { d.state exit with
    transitions := (d.state exit).transitions ++ [.epsilon target] }

private theorem joined {exit : StateId} (target : StateId) (hexit : exit < d.size) :
    Joined d exit target (linked d exit (.epsilon target)) := by
  have hstate : (linked d exit (.epsilon target)).state exit = { d.state exit with
      transitions := (d.state exit).transitions ++ [.epsilon target] } := by
    rw [state_change, if_pos ⟨rfl, hexit⟩]
  exact ⟨Adds.change d exit (fun _ => rfl) fun _ => rfl, size_change, by rw [ways, hstate]; rfl,
    hstate⟩

/-- An exit without ways on stays wired when it is joined to a state of its rule, and so does every
other state. -/
private theorem Joined.wired {d' : Draft} {exit target q : StateId} {parts : List Element}
    (h : Joined d exit target d') (hexit : d.ways exit = []) (htarget : d.Owns rule target)
    (hq : q < d.size) (hwired : d.Wired rule parts q) : d'.Wired rule parts q := by
  by_cases heq : q = exit
  · subst heq
    have hways := h.ways_eq
    rw [hexit, List.nil_append] at hways
    refine hwired.of_plain h.adds hq ?_ (fun _ => by rw [hways]; exact Nat.le_refl _)
      (by rw [h.state_eq]; exact hwired.greedy)
    rw [Plain, hways]
    intro t ht
    exact ⟨target, List.mem_singleton.mp ht, htarget.adds h.adds⟩
  · exact hwired.adds h.adds hq heq

/-! ## Alternatives -/

/-- **Elements were laid out side by side,** as alternatives of a block. -/
structure Beside (rule : Nat) (es : List Element) (b : Fragment) (d : Draft)
    (targets : List StateId) (d' : Draft) : Prop where
  adds : d.Adds (· = b.entry) d'
  entry_eq : d'.state b.entry = { d.state b.entry with
    transitions := (d.state b.entry).transitions ++ targets.map .epsilon }
  owns : ∀ p ∈ targets, d'.Owns rule p
  wired : ∀ q, d.size ≤ q → q < d'.size → d'.Wired rule (Element.partsOf es) q
  laid : ∀ W : StateId → List Transition, (∀ q, d.size ≤ q → q < d'.size → W q = d'.ways q) →
    LaidAlts W d.Names rule b.exit es targets

/-- What laying out an element has to do. -/
abbrev Lies (rule : Nat) (e : Element) : Prop :=
  ∀ d : Draft, (element rule e).Lays d (Piece rule e d)

theorem alternatives_lays {es : List Element} (hes : ∀ e ∈ es, Lies rule e) :
    ∀ {d : Draft} {b : Fragment}, b.entry < d.size → d.Owns rule b.exit → b.entry ≠ b.exit →
      (alternatives rule es b).Lays d fun _ d' => ∃ targets, Beside rule es b d targets d' := by
  induction es with
  | nil =>
    intro d b _ _ _
    refine .pure ⟨[], .refl _ d, by simp, nofun, fun q hge hlt => ?_, fun _ _ => .nil⟩
    exact absurd hlt (Nat.not_lt.mpr hge)
  | cons e es ih =>
    intro d b hentry hexit hne
    refine (hes e (List.mem_cons_self ..) d).bind fun body d₁ hpiece => ?_
    have hle₁ := hpiece.adds.size_le
    have hentry₁ : b.entry < d₁.size := Nat.lt_of_lt_of_le hentry hle₁
    have hlt : b.entry < body.exit := Nat.lt_of_lt_of_le hentry hpiece.exit_ge
    refine attach_bind ?_
    -- The alternative is reached from the block, and then leads to its end.
    have hin := joined body.entry hentry₁
    generalize linked d₁ b.entry (.epsilon body.entry) = d₂ at hin ⊢
    have hbody₂ : body.exit < d₂.size := hin.size_eq ▸ hpiece.exit_lt
    have hways₂ : d₂.ways body.exit = [] :=
      (hin.adds.ways_eq hpiece.exit_lt (Nat.ne_of_gt hlt)).trans hpiece.exit_ways
    have hout := joined b.exit hbody₂
    generalize linked d₂ body.exit (.epsilon b.exit) = d₃ at hout ⊢
    have hsize₃ : d₃.size = d₁.size := hout.size_eq.trans hin.size_eq
    have hadds : d.Adds (· = b.entry) d₃ :=
      ((hpiece.adds.mono fun _ _ h => h.elim).trans hin.adds fun _ _ h => h).trans hout.adds
        fun q hq h => absurd (h : q = body.exit)
          (Nat.ne_of_lt (Nat.lt_of_lt_of_le hq hpiece.exit_ge))
    have hentry₃ : d₃.state b.entry = { d.state b.entry with
        transitions := (d.state b.entry).transitions ++ [.epsilon body.entry] } := by
      rw [hout.adds.keeps _ (hin.size_eq ▸ hentry₁) (Nat.ne_of_lt hlt), hin.state_eq,
        hpiece.adds.keeps _ hentry not_false]
    have hkeep₃ : ∀ q, d.size ≤ q → q < d₁.size → q ≠ body.exit → d₃.ways q = d₁.ways q := by
      intro q hge hq hqne
      rw [hout.adds.ways_eq (hin.size_eq ▸ hq) hqne,
        hin.adds.ways_eq hq (Nat.ne_of_gt (Nat.lt_of_lt_of_le hentry hge))]
    have hwired₃ : ∀ q, d.size ≤ q → q < d₁.size → d₃.Wired rule e.parts q := by
      intro q hge hq
      refine hout.wired hways₂ ((hexit.adds hpiece.adds).adds hin.adds) (hin.size_eq ▸ hq) ?_
      exact (hpiece.wired q hge hq).adds hin.adds hq
        (Nat.ne_of_gt (Nat.lt_of_lt_of_le hentry hge))
    have hexit₃ : d₃.ways body.exit = [.epsilon b.exit] := by
      rw [hout.ways_eq, hways₂, List.nil_append]
    refine Lays.mono (ih (fun e' he' => hes e' (List.mem_cons_of_mem _ he')) (d := d₃)
      (Nat.lt_of_lt_of_le hentry hadds.size_le) (hexit.adds hadds) hne) ?_
    rintro _ d' ⟨targets, hbeside⟩
    have hentry_new : ∀ q, d.size ≤ q → q ≠ b.entry := fun q hge =>
      Nat.ne_of_gt (Nat.lt_of_lt_of_le hentry hge)
    refine ⟨body.entry :: targets, hadds.trans hbeside.adds fun _ _ h => h, ?_, ?_, ?_, ?_⟩
    · rw [hbeside.entry_eq, hentry₃]
      simp
    · intro p hp
      rcases List.mem_cons.mp hp with rfl | hp
      · have hown : d₃.Owns rule body.entry :=
          (hwired₃ _ hpiece.entry_ge hpiece.entry_lt).owns (hsize₃ ▸ hpiece.entry_lt)
        exact hown.adds hbeside.adds
      · exact hbeside.owns p hp
    · intro q hge hq
      rw [Element.partsOf]
      by_cases hq₃ : q < d₃.size
      · exact ((hwired₃ q hge (hsize₃ ▸ hq₃)).adds hbeside.adds hq₃ (hentry_new q hge)).mono
          (List.subset_append_left _ _)
      · exact (hbeside.wired q (Nat.not_lt.mp hq₃) hq).mono (List.subset_append_right _ _)
    · intro W hW
      have hold : ∀ q, d.size ≤ q → q < d₁.size → W q = d₃.ways q := by
        intro q hge hq
        have hq₃ : q < d₃.size := hsize₃ ▸ hq
        rw [hW q hge (Nat.lt_of_lt_of_le hq₃ hbeside.adds.size_le),
          hbeside.adds.ways_eq hq₃ (hentry_new q hge)]
      refine .cons (hpiece.laid W fun q hge hq hqne => ?_) ?_ ?_
      · rw [hold q hge hq, hkeep₃ q hge hq hqne]
      · rw [hold _ hpiece.exit_ge hpiece.exit_lt, hexit₃]
      · rw [← hadds.names]
        exact hbeside.laid W fun q hge hq => hW q (Nat.le_trans hadds.size_le hge) hq

/-! ## Sequences -/

/-- **Elements were laid out** to be joined one after the other. -/
structure Row (rule : Nat) (es : List Element) (d : Draft) (fs : List Fragment) (d' : Draft) :
    Prop where
  adds : d.Adds untouched d'
  wired : ∀ q, d.size ≤ q → q < d'.size → d'.Wired rule (Element.partsOf es) q
  bounds : ∀ f ∈ fs, d.size ≤ f.entry ∧ f.entry < d'.size ∧ d.size ≤ f.exit ∧ f.exit < d'.size
  ends : ∀ f ∈ fs, d'.ways f.exit = []
  nodup : (fs.map Fragment.exit).Nodup
  laid : ∀ W : StateId → List Transition,
    (∀ q, d.size ≤ q → q < d'.size → q ∉ fs.map Fragment.exit → W q = d'.ways q) →
      List.Forall₂ (fun e f => Laid W d.Names rule e f.entry f.exit) es fs

theorem sequence_lays {es : List Element} (hes : ∀ e ∈ es, Lies rule e) :
    ∀ {d : Draft}, (sequence rule es).Lays d (Row rule es d) := by
  induction es with
  | nil =>
    intro d
    exact .pure ⟨.refl _ d, fun q hge hlt => absurd hlt (Nat.not_lt.mpr hge), nofun, nofun, .nil,
      fun _ _ => .nil⟩
  | cons e es ih =>
    intro d
    refine (hes e (List.mem_cons_self ..) d).bind fun f d₁ hpiece => ?_
    refine (ih (fun e' he' => hes e' (List.mem_cons_of_mem _ he')) (d := d₁)).bind
      fun fs d₂ hrow => .pure ?_
    have hle := hrow.adds.size_le
    have hbefore : ∀ q < d₁.size, q ∉ fs.map Fragment.exit := by
      intro q hq hmem
      obtain ⟨f', hf', rfl⟩ := List.mem_map.mp hmem
      exact absurd hq (Nat.not_lt.mpr (hrow.bounds f' hf').2.2.1)
    refine ⟨hpiece.adds.trans hrow.adds fun _ _ h => h, ?_, ?_, ?_, ?_, ?_⟩
    · intro q hge hq
      rw [Element.partsOf]
      by_cases hq₁ : q < d₁.size
      · exact ((hpiece.wired q hge hq₁).adds hrow.adds hq₁ not_false).mono
          (List.subset_append_left _ _)
      · exact (hrow.wired q (Nat.not_lt.mp hq₁) hq).mono (List.subset_append_right _ _)
    · intro f' hf'
      rcases List.mem_cons.mp hf' with rfl | hf'
      · exact ⟨hpiece.entry_ge, Nat.lt_of_lt_of_le hpiece.entry_lt hle, hpiece.exit_ge,
          Nat.lt_of_lt_of_le hpiece.exit_lt hle⟩
      · obtain ⟨h₁, h₂, h₃, h₄⟩ := hrow.bounds f' hf'
        exact ⟨Nat.le_trans hpiece.adds.size_le h₁, h₂, Nat.le_trans hpiece.adds.size_le h₃, h₄⟩
    · intro f' hf'
      rcases List.mem_cons.mp hf' with rfl | hf'
      · rw [hrow.adds.ways_eq hpiece.exit_lt not_false, hpiece.exit_ways]
      · exact hrow.ends f' hf'
    · rw [List.map_cons, List.nodup_cons]
      exact ⟨hbefore _ hpiece.exit_lt, hrow.nodup⟩
    · intro W hW
      refine .cons (hpiece.laid W fun q hge hq hne => ?_) ?_
      · rw [hW q hge (Nat.lt_of_lt_of_le hq hle), hrow.adds.ways_eq hq not_false]
        rw [List.map_cons, List.mem_cons]
        rintro (h | h)
        · exact hne h
        · exact hbefore q hq h
      · rw [← hpiece.adds.names]
        refine hrow.laid W fun q hge hq hmem => hW q (Nat.le_trans hpiece.adds.size_le hge) hq ?_
        rw [List.map_cons, List.mem_cons]
        rintro (rfl | h)
        · exact absurd hpiece.exit_lt (Nat.not_lt.mpr hge)
        · exact hmem h

/-- Fragments are joined one after the other. -/
def Chained (W : StateId → List Transition) : StateId → List Fragment → StateId → Prop
  | s, [], exit => s = exit
  | s, f :: fs, exit => W s = [.epsilon f.entry] ∧ Chained W f.exit fs exit

/-- What joining fragments one after the other does. -/
structure Connects (rule : Nat) (s : StateId) (fs : List Fragment) (d : Draft)
    (exit : StateId) (d' : Draft) : Prop where
  adds : d.Adds (· ∈ s :: fs.map Fragment.exit) d'
  size_eq : d'.size = d.size
  exit_mem : exit ∈ s :: fs.map Fragment.exit
  exit_eq : exit = (fs.map Fragment.exit).getLastD s
  exit_ways : d'.ways exit = []
  wired : ∀ q < d.size, ∀ parts, d.Wired rule parts q → d'.Wired rule parts q
  chained : ∀ W : StateId → List Transition,
    (∀ q ∈ s :: fs.map Fragment.exit, q ≠ exit → W q = d'.ways q) → Chained W s fs exit

theorem connect_lays : ∀ {fs : List Fragment} {d : Draft} {s : StateId},
    (∀ q ∈ s :: fs.map Fragment.exit, q < d.size ∧ d.ways q = []) →
    (∀ f ∈ fs, d.Owns rule f.entry) → (s :: fs.map Fragment.exit).Nodup →
      (connect s fs).Lays d (Connects rule s fs d)
  | [], d, s, hends, _, _ =>
    .pure ⟨.refl _ d, rfl, List.mem_cons_self .., rfl, (hends s (List.mem_cons_self ..)).2,
      fun _ _ _ h => h, fun _ _ => rfl⟩
  | f :: fs, d, s, hends, howns, hnodup => by
    refine join_bind ?_
    obtain ⟨hs, hways⟩ := hends s (List.mem_cons_self ..)
    have hjoin := joined f.entry hs
    generalize linked d s (.epsilon f.entry) = d₁ at hjoin ⊢
    obtain ⟨hnot, hnodup'⟩ := List.nodup_cons.mp hnodup
    have hends₁ : ∀ q ∈ f.exit :: fs.map Fragment.exit, q < d₁.size ∧ d₁.ways q = [] := by
      intro q hq
      obtain ⟨hlt, hnil⟩ := hends q (List.mem_cons_of_mem _ hq)
      have hne : q ≠ s := fun h => hnot (h ▸ hq)
      exact ⟨hjoin.size_eq ▸ hlt, (hjoin.adds.ways_eq hlt hne).trans hnil⟩
    refine Lays.mono (connect_lays hends₁
      (fun f' hf' => (howns f' (List.mem_cons_of_mem _ hf')).adds hjoin.adds) hnodup') ?_
    intro exit d' hrest
    have hs' : d'.ways s = [.epsilon f.entry] := by
      rw [hrest.adds.ways_eq (hjoin.size_eq ▸ hs) hnot, hjoin.ways_eq, hways, List.nil_append]
    have hexit_ne : s ≠ exit := fun h => hnot (h ▸ hrest.exit_mem)
    refine ⟨?_, hrest.size_eq.trans hjoin.size_eq, List.mem_cons_of_mem _ hrest.exit_mem,
      by rw [hrest.exit_eq, List.map_cons, List.getLastD_cons], hrest.exit_ways,
      fun q hq parts hwired => ?_, fun W hW => ⟨?_, ?_⟩⟩
    · exact (hjoin.adds.mono fun q _ h => List.mem_cons.mpr (.inl h)).trans hrest.adds
        fun q _ h => List.mem_cons_of_mem _ h
    · exact hrest.wired q (hjoin.size_eq ▸ hq) parts
        (hjoin.wired hways (howns f (List.mem_cons_self ..)) hq hwired)
    · rw [hW s (List.mem_cons_self ..) hexit_ne, hs']
    · exact hrest.chained W fun q hq hne => hW q (List.mem_cons_of_mem _ hq) hne

private theorem laidRest_of_chained {W : StateId → List Transition}
    {N : String → Nat → StateId → Prop} {es : List Element} {fs : List Fragment}
    (h : List.Forall₂ (fun e f => Laid W N rule e f.entry f.exit) es fs) :
    ∀ {s exit : StateId}, Chained W s fs exit → LaidRest W N rule s es exit := by
  induction h with
  | nil =>
    rintro s exit rfl
    exact .nil
  | cons hlaid _ ih =>
    rintro s exit ⟨hways, hrest⟩
    exact .cons hways hlaid (ih hrest)

/-- **A sequence is laid out** by joining its elements. -/
theorem seq_lays {e : Element} {rest : List Element} (he : Lies rule e)
    (hrest : ∀ e' ∈ rest, Lies rule e') : Lies rule (.seq (e :: rest)) := by
  intro d
  unfold element
  refine (he d).bind fun first d₁ hpiece => ?_
  refine (sequence_lays hrest).bind fun others d₂ hrow => ?_
  have hle := hrow.adds.size_le
  have hadds := hpiece.adds.trans hrow.adds fun _ _ h => h
  have hbefore : first.exit ∉ others.map Fragment.exit := by
    intro hmem
    obtain ⟨f, hf, hfe⟩ := List.mem_map.mp hmem
    exact absurd (hfe ▸ hpiece.exit_lt) (Nat.not_lt.mpr (hrow.bounds f hf).2.2.1)
  have hwired : ∀ q, d.size ≤ q → q < d₂.size →
      d₂.Wired rule (Element.partsOf (e :: rest)) q := by
    intro q hge hq
    rw [Element.partsOf]
    by_cases hq₁ : q < d₁.size
    · exact ((hpiece.wired q hge hq₁).adds hrow.adds hq₁ not_false).mono (List.subset_append_left _ _)
    · exact (hrow.wired q (Nat.not_lt.mp hq₁) hq).mono (List.subset_append_right _ _)
  have hnew : ∀ q ∈ first.exit :: others.map Fragment.exit, d.size ≤ q ∧ q < d₂.size := by
    intro q hq
    rcases List.mem_cons.mp hq with rfl | hq
    · exact ⟨hpiece.exit_ge, Nat.lt_of_lt_of_le hpiece.exit_lt hle⟩
    · obtain ⟨f, hf, rfl⟩ := List.mem_map.mp hq
      exact ⟨Nat.le_trans hpiece.adds.size_le (hrow.bounds f hf).2.2.1, (hrow.bounds f hf).2.2.2⟩
  have hends : ∀ q ∈ first.exit :: others.map Fragment.exit, q < d₂.size ∧ d₂.ways q = [] := by
    intro q hq
    refine ⟨(hnew q hq).2, ?_⟩
    rcases List.mem_cons.mp hq with rfl | hq
    · rw [hrow.adds.ways_eq hpiece.exit_lt not_false, hpiece.exit_ways]
    · obtain ⟨f, hf, rfl⟩ := List.mem_map.mp hq
      exact hrow.ends f hf
  have howns : ∀ f ∈ others, d₂.Owns rule f.entry := fun f hf =>
    (hrow.wired _ (hrow.bounds f hf).1 (hrow.bounds f hf).2.1).owns (hrow.bounds f hf).2.1
  refine (connect_lays hends howns (List.nodup_cons.mpr ⟨hbefore, hrow.nodup⟩)).bind
    fun exit d₃ hconnect => .pure ?_
  have hsize := hconnect.size_eq
  refine ⟨hadds.trans hconnect.adds fun q hq hmem => ?_, hpiece.entry_ge, ?_,
    (hnew exit hconnect.exit_mem).1, hsize ▸ (hnew exit hconnect.exit_mem).2, hconnect.exit_ways,
    fun q hge hq => ?_, fun W hW => ?_⟩
  · exact absurd hq (Nat.not_lt.mpr (hnew q hmem).1)
  · exact hsize ▸ Nat.lt_of_lt_of_le hpiece.entry_lt hle
  · rw [hsize] at hq
    exact (hconnect.wired q hq _ (hwired q hge hq)).mono (List.subset_cons_self _ _)
  · have hold : ∀ q, d.size ≤ q → q < d₂.size → q ∉ first.exit :: others.map Fragment.exit →
        W q = d₂.ways q := by
      intro q hge hq hmem
      rw [hW q hge (hsize ▸ hq) fun h => hmem (h ▸ hconnect.exit_mem), hconnect.adds.ways_eq hq hmem]
    refine .seq (hpiece.laid W fun q hge hq hne => ?_) (laidRest_of_chained ?_
      (hconnect.chained W fun q hq hne => hW q (hnew q hq).1 (hsize ▸ (hnew q hq).2) hne))
    · rw [hold q hge (Nat.lt_of_lt_of_le hq hle), hrow.adds.ways_eq hq not_false]
      rw [List.mem_cons]
      rintro (h | h)
      · exact hne h
      · obtain ⟨f, hf, rfl⟩ := List.mem_map.mp h
        exact absurd hq (Nat.not_lt.mpr (hrow.bounds f hf).2.2.1)
    · rw [← hpiece.adds.names]
      refine hrow.laid W fun q hge hq hmem => hold q (Nat.le_trans hpiece.adds.size_le hge) hq ?_
      rw [List.mem_cons]
      rintro (rfl | h)
      · exact absurd hpiece.exit_lt (Nat.not_lt.mpr hge)
      · exact hmem h

end Layout

end AdaptiveLL
