import AdaptiveLL.Proofs.Lookups.Predictions
import AdaptiveLL.Proofs.Prediction.Answers
import AdaptiveLL.Proofs.Prediction.Transparency
import AdaptiveLL.Proofs.Prediction.Used

/-!
# Tables of fair rows

Whatever a cache was used for, the rows in its tables are fair: those with which decisions start
answer nothing yet, and every other one was made of the set that a symbol leads to. So a prediction
that comes to an accepting row is answered by the guards of that set, no matter whether the row was
computed just now, found in the table, or kept out of it.
-/

namespace AdaptiveLL

open Run (Untouched)

/-! ## Fair caches -/

namespace Cache

/-- **A fair cache:** it is in range, and all rows of its tables are fair. -/
structure Fair (net : Network) (c : Cache) : Prop where
  inRange : c.InRange net
  rows : c.All Row.Fair

variable {net : Network} {c : Cache}

theorem new_fair (net : Network) (maxNodes maxDepth : Nat) :
    (Cache.new net maxNodes maxDepth).Fair net := by
  refine ⟨new_inRange net maxNodes maxDepth, fun d n => ?_⟩
  rw [Table.row_default (size_table_new net maxNodes maxDepth d ▸ Nat.zero_le n)]
  exact Row.essential_fair.default

theorem Fair.restart (h : c.Fair net) : c.restart.Fair net :=
  ⟨h.inRange.restart, (new_fair c.net c.maxNodes c.maxDepth).rows⟩

end Cache

namespace Prediction

variable {α : Type} {m : Prediction α} {q : Question} {c : Cache}

/-- A part that from every cache comes back to the same one. -/
theorem Does.untouched (h : ∀ c, m.Does c fun _ _ _ c' => c' = c) :
    Untouched Session.cache m fun _ => True := by
  intro s r t hrun
  obtain ⟨_, _, -, -, hcache⟩ := (h s.cache s rfl).apply hrun
  exact ⟨hcache, fun _ _ => trivial⟩

/-- What leaves the cache as it is leaves its tables as they are. -/
theorem tables_untouched {P : α → Prop} (h : Untouched Session.cache m P) :
    Untouched Session.tables m P :=
  fun s => (h s).mono fun _ _ ⟨ht, ha⟩ => ⟨congrArg Cache.tables ht, ha⟩

/-- What following configurations gives comes from a probe in the graph of the cache. -/
theorem probe_ensures (m : Probe α) (s : Session) :
    (probe q m).Ensures s fun r _ => ∀ a, r = .ok a →
      ∃ trail, m.from? { graph := s.cache.graph, past := s.callbacks } = some (.ok a, trail) := by
  intro r t hrun a ha
  rw [from?_probe] at hrun
  obtain ⟨⟨r₁, trail⟩, hm, heq⟩ := Option.map_eq_some_iff.mp hrun
  obtain ⟨rfl, -⟩ := Prod.mk.inj heq
  cases r₁ with
  | error e => cases ha
  | ok b =>
    obtain rfl : b = a := Except.ok.inj ha
    exact ⟨trail, hm⟩

/-- Putting a row into the table of the decision. -/
theorem install_does (row : Row) :
    (install q row).Does c fun res _ _ c' =>
      res = .ok ((c.table q.decision).install row).1 ∧
        c' = c.setTable q.decision ((c.table q.decision).install row).2.2 := by
  rw [Request.install_eq]
  refine .after .table (.after .setTable ?_)
  cases ((c.table q.decision).install row).2.1 with
  | none => exact .after (a := ⟨⟩) (.pure ⟨rfl, rfl, rfl, rfl⟩) (.pure ⟨rfl, rfl⟩)
  | some event => exact .after .note (.pure ⟨rfl, rfl⟩)

end Prediction

namespace Request

open Prediction (tables_untouched)

variable {r : Request} {s : Session} {c : Cache} {p : Place} {v : Symbol}

/-! ## What leaves the tables as they are -/

private theorem predictFull_tables (start : ConfigSet) :
    Untouched Session.tables (r.predictFull start) fun _ => True := by
  rw [predictFull_eq]
  refine (Untouched.loop fullStep_untouched).bind fun last _ => ?_
  cases last with
  | inl dead => exact deadEnd_untouched _
  | inr e => exact (tables_untouched (concludeFull_untouched e)).mono fun _ _ => trivial

private theorem escalate_tables (row : Row) (stream : TokenStream) :
    Untouched Session.tables (r.escalate row stream) fun _ => True := by
  have hpassing : Untouched Session.cache (r.passingOf row) fun _ => True := by
    unfold passingOf
    split
    · exact Prediction.Does.untouched fun c =>
        (r.passing_does _ c).mono fun _ _ _ _ ⟨_, _, hc, _⟩ => hc
    · exact .pure trivial
  rw [escalate_eq]
  refine (tables_untouched hpassing).bind fun passing _ => ?_
  unfold turn
  split
  · exact .pure trivial
  · refine (Prediction.count_untouched _).bind fun _ _ => ?_
    refine (tables_untouched (Prediction.deliver_untouched _)).bind fun _ _ => ?_
    refine (Prediction.grow_untouched _).bind fun stack _ => ?_
    exact (Prediction.probe_untouched _).bind fun start _ => predictFull_tables start

private theorem conclude_tables (row : Row) (stream : TokenStream) :
    Untouched Session.tables (r.conclude row stream) fun _ => True := by
  have hanswer : Untouched Session.cache (.inr <$> r.answer row stream : Prediction (Point ⊕ Nat))
      fun _ => True :=
    .map (g := Sum.inr) (Prediction.Does.untouched fun c =>
      (r.answer_does row stream c).mono fun _ _ _ _ ⟨_, hc, _⟩ => hc)
  unfold conclude
  split
  · exact (tables_untouched (reportAmbiguity_untouched _ _ _ _)).bind fun _ _ =>
      tables_untouched hanswer
  · exact Untouched.bind (P := fun _ => True) (.pure trivial) fun _ _ => tables_untouched hanswer

/-! ## Keeping a row -/

/-- **A fair row is kept:** the tables have fair rows as before, and at the place that comes back
stands this row or one of the same set. -/
private theorem keepRow_does (hc : c.All Row.Fair) (hd : r.decision < c.tables.size) {t : Table}
    (ht : t.All Row.Fair) {found : Option Row} (hfound : ∀ row, found = some row → row.Fair) :
    (r.keepRow p v t found).Does c fun next _ _ c' => c'.All Row.Fair ∧
      ∀ place, next = .ok (some place) → ∃ row, found = some row ∧
        ((c'.table r.decision).row place).Fair ∧
        (((c'.table r.decision).row place).configs = row.configs ∨
          ((c'.table r.decision).row place).configs.same row.configs = true) := by
  cases found with
  | none =>
    have hdead : (t.linkDead p v).2.All Row.Fair := ht.write Row.essential_fair p v .dead
    unfold keepRow
    dsimp only
    split
    · exact .after .setTable (.pure ⟨hc.setTable hdead _, fun _ h => nomatch h⟩)
    · exact .pure ⟨hc, fun _ h => nomatch h⟩
  | some row =>
    have hrow := hfound row rfl
    unfold keepRow
    dsimp only
    split
    · refine .pure ⟨hc, fun place hplace => ?_⟩
      obtain rfl : .loose row = place := by simpa using hplace
      exact ⟨row, rfl, hrow, .inl rfl⟩
    -- The row is installed first, and the table that this leaves behind gets the link.
    obtain ⟨hall, hfair, hconfigs⟩ := (hc r.decision).install_link Row.essential_fair hrow p v
    refine (Prediction.install_does row).bind ?_ fun _ _ _ _ ⟨he, _⟩ => nomatch he
    intro place _ _ c₁ ⟨hres, hc₁⟩
    obtain rfl := Except.ok.inj hres
    obtain ⟨-, hinstalled⟩ := (hc r.decision).install Row.essential_fair hrow
    have hd₁ : r.decision < c₁.tables.size := by simpa [hc₁, Cache.setTable] using hd
    have htable : c₁.table r.decision = ((c.table r.decision).install row).2.2 := by
      rw [hc₁]
      exact (Cache.table_setTable hd).trans (if_pos rfl)
    refine .after .table (.after .setTable (.pure ?_))
    rw [htable]
    refine ⟨(hc₁ ▸ hc.setTable hinstalled _ : c₁.All Row.Fair).setTable hall _, fun place h => ?_⟩
    obtain rfl : ((c.table r.decision).install row).1 = place := by simpa using h
    rw [Cache.table_setTable hd₁, if_pos rfl]
    exact ⟨row, rfl, hfair, hconfigs⟩

/-- The row with which a decision starts is kept: it answers nothing. -/
private theorem keepStart_does (hc : c.All Row.Fair) (configs : ConfigSet) :
    (r.keepStart configs).Does c fun _ _ _ c' => c'.All Row.Fair := by
  unfold keepStart
  split
  · exact .pure hc
  obtain ⟨hplace, hinstalled⟩ :=
    (hc r.decision).install Row.essential_fair (Row.fair_open configs)
  refine (Prediction.install_does _).bind ?_ fun _ _ _ _ ⟨he, _⟩ => nomatch he
  intro place _ _ c₁ ⟨hres, hc₁⟩
  obtain rfl := Except.ok.inj hres
  have hall₁ : c₁.All Row.Fair := hc₁ ▸ hc.setTable hinstalled _
  exact .after .table (.after .setTable (.pure (hall₁.setTable ((hall₁ _).setStart hplace).2 _)))

/-! ## Along the table -/

/-- **The row that a symbol leads to is a row of the set** that it leads to. -/
private theorem targetRow_represents (hr : r.Sound) (hs : s.cache.InRange r.net) {S : ConfigSet}
    (hS : S.InRange r.extent s.cache.graph.size) (v : Symbol) :
    (r.targetRow S v).Ensures s fun found _ => ∀ row, found = .ok (some row) →
      ∃ C trail, (r.reach v false S).from? { graph := s.cache.graph, past := s.callbacks } =
        some (.ok (some C), trail) ∧
        row.Represents C := by
  rw [targetRow_eq]
  refine (((strictReach_safe hr hs hS v false).ensures).and (Prediction.probe_ensures _ s)).bind
    (fun next t ⟨⟨_, _, halive⟩, hreach⟩ => ?_) fun _ _ _ _ h => nomatch h
  cases next with
  | none => exact .pure fun _ h => nomatch h
  | some C =>
    obtain ⟨trail, htrail⟩ := hreach _ rfl
    have hmarked : C.Marked := r.reach_marked v false S _ _ _ htrail C rfl
    refine .after Session.tables (stopsAt_untouched C) (fun ends u _ => .pure ?_)
      fun _ _ _ _ h => nomatch h
    intro row hrow
    obtain rfl : Row.classify C ends r.altCount = row := by simpa using hrow
    exact ⟨C, trail, htrail, Row.classify_represents hmarked (halive _ rfl C rfl) ends⟩

/-- **The row at the place that a symbol leads to is a row of the set** that it leads to, and all rows
stay fair. -/
private theorem target_represents (hr : r.Sound) (hs : s.cache.Fair r.net)
    (hp : p.InRange r.extent s.cache.graph.size) (v : Symbol) :
    (r.target p v).Ensures s fun next t => t.cache.All Row.Fair ∧
      ∀ place, next = .ok (some place) →
        ∃ C trail, (r.reach v false ((s.cache.table r.decision).row p).configs).from?
          { graph := s.cache.graph, past := s.callbacks } = some (.ok (some C), trail) ∧
          ((t.cache.table r.decision).row place).Represents C := by
  have hS := ((hs.inRange.table hr.entry_eq).row hp).configs
  rw [target_eq]
  refine .bind (Q := fun t s' => t = .ok (s.cache.table r.decision) ∧ s' = s)
    (.of_eq rfl ⟨rfl, rfl⟩) (fun t s' ht => ?_) fun _ _ ⟨h, _⟩ => nomatch h
  obtain ⟨ht, rfl⟩ := ht
  obtain rfl := Except.ok.inj ht
  have htables : Untouched Session.tables
      (r.targetRow ((s'.cache.table r.decision).row p).configs v) fun _ => True :=
    targetRow_untouched _ v
  refine (((strictTargetRow_safe hr hs.inRange hS v).ensures.and (htables s')).and
    (targetRow_represents hr hs.inRange hS v)).bind
      (fun found u ⟨⟨⟨hu, _, _⟩, htables, _⟩, hrow⟩ => ?_) ?_
  · have hall : u.cache.All Row.Fair := hs.rows.of_tables htables
    have hd : r.decision < u.cache.tables.size := hu.lt_size hr.entry_eq
    have hfound : ∀ row, found = some row → row.Fair := fun row h =>
      (hrow row (congrArg _ h)).elim fun C ⟨_, _, hC⟩ => hC.fair
    have hkept := keepRow_does (p := p) (v := v) hall hd (hs.rows r.decision) hfound u rfl
    refine hkept.ensures.mono fun next w ⟨_, _, _, _, hall', hplace⟩ => ⟨hall', ?_⟩
    intro place hnext
    obtain ⟨row, hrow', hfair, hsame⟩ := hplace place hnext
    obtain ⟨C, trail, htrail, hC⟩ := hrow row (congrArg _ hrow')
    exact ⟨C, trail, htrail, hC.of_same hfair hsame⟩
  · intro e u ⟨⟨_, htables, _⟩, _⟩
    exact ⟨hs.rows.of_tables htables, fun _ h => nomatch h⟩

/-- Only a cell that has to be computed changes the tables. -/
private theorem next_rows (hr : r.Sound) (hs : s.cache.Fair r.net)
    (hp : p.InRange r.extent s.cache.graph.size) (v : Symbol) :
    (r.next p v).Ensures s fun _ t => t.cache.All Row.Fair := by
  rw [next_eq]
  refine .after Session.cache Prediction.table_untouched (fun t s₁ h₁ => ?_)
    fun _ _ h₁ => h₁ ▸ hs.rows
  cases (if r.settings.useCache then t.cell? p v else none) with
  | some c => exact (hit_untouched c s₁).mono fun _ _ ⟨h₂, _⟩ => h₂.trans h₁ ▸ hs.rows
  | none =>
    refine .after Session.cache (Prediction.count_untouched _) (fun _ s₂ h₂ => ?_)
      fun _ _ h₂ => h₂.trans h₁ ▸ hs.rows
    refine .after Session.cache (logMiss_untouched p v) (fun _ s₃ h₃ => ?_)
      fun _ _ h₃ => h₃.trans (h₂.trans h₁) ▸ hs.rows
    have hsame : s₃.cache = s.cache := h₃.trans (h₂.trans h₁)
    exact (target_represents hr (hsame ▸ hs) (hsame ▸ hp) v).mono fun _ _ ⟨hrows, _⟩ => hrows

/-- **A step along the table keeps the cache fair.** -/
private theorem step_fair (hr : r.Sound) (hs : s.cache.Fair r.net) {p : Point}
    (hp : p.place.InRange r.extent s.cache.graph.size) :
    (r.step p).Ensures s fun _ t => t.cache.Fair r.net := by
  have hrows : (r.step p).Ensures s fun _ t => t.cache.All Row.Fair := by
    rw [step_eq]
    refine .after Session.cache (checkLookahead_untouched _) (fun _ s₁ h₁ => ?_)
      fun _ _ h₁ => h₁ ▸ hs.rows
    refine .bind (next_rows hr (h₁ ▸ hs) (h₁ ▸ hp) _) (fun next s₂ hs₂ => ?_) fun _ _ h => h
    -- Once the place is known, the tables are only read.
    have hrest : ∀ {m : Prediction (Point ⊕ Nat)}, Untouched Session.tables m (fun _ => True) →
        m.Ensures s₂ fun _ t => t.cache.All Row.Fair :=
      fun h => (h s₂).mono fun _ _ ⟨ht, _⟩ => hs₂.of_tables ht
    cases next with
    | none =>
      exact hrest ((Prediction.count_untouched _).bind fun _ _ =>
        Prediction.table_untouched.bind fun t _ => .map (g := Sum.inr) (deadEnd_untouched _))
    | some place =>
      refine hrest (Prediction.table_untouched.bind fun t _ => ?_)
      split
      · exact (Prediction.count_untouched _).bind fun _ _ =>
          .map (g := Sum.inr) (escalate_tables _ _)
      split
      · exact (Prediction.count_untouched _).bind fun _ _ => conclude_tables _ _
      · exact .pure trivial
  exact ((strictStep_safe hr hs.inRange hp).ensures.and hrows).mono
    fun _ _ ⟨⟨hinrange, _⟩, hrows⟩ => ⟨hinrange, hrows⟩

private theorem startPlace_fair (hr : r.Sound) (hs : s.cache.Fair r.net) :
    r.startPlace.Ensures s fun _ t => t.cache.Fair r.net := by
  have hrows : r.startPlace.Ensures s fun _ t => t.cache.All Row.Fair := by
    rw [startPlace_eq]
    refine .after Session.cache Prediction.table_untouched (fun t s₁ h₁ => ?_)
      fun _ _ h₁ => h₁ ▸ hs.rows
    cases (if r.settings.useCache then t.startRow else none) with
    | some n => exact .pure (h₁ ▸ hs.rows)
    | none =>
      have hrows₁ : s₁.cache.All Row.Fair := h₁ ▸ hs.rows
      refine .after Session.tables (Prediction.probe_untouched _) (fun configs s₂ h₂ => ?_)
        fun _ _ h₂ => hrows₁.of_tables h₂
      exact (keepStart_does (hrows₁.of_tables h₂) configs s₂ rfl).ensures.mono
        fun _ _ ⟨_, _, _, _, h⟩ => h
  exact ((strictStartPlace_safe hr hs.inRange).ensures.and hrows).mono
    fun _ _ ⟨⟨hinrange, _⟩, hrows⟩ => ⟨hinrange, hrows⟩

/-- What holds at each point of an attempt: the cache is fair, and the point is in range. -/
private def Fairly (r : Request) (p : Point) (s : Session) : Prop :=
  s.cache.Fair r.net ∧ p.place.InRange r.extent s.cache.graph.size

private theorem start_fairly (hr : r.Sound) (hs : s.cache.Fair r.net) (stream : TokenStream) :
    r.startPlace.Ensures s fun res t => t.cache.Fair r.net ∧
      ∀ place, res = .ok place → Fairly r ⟨place, stream, 0⟩ t :=
  ((strictStartPlace_safe hr hs.inRange).ensures.and (startPlace_fair hr hs)).mono
    fun _ _ ⟨⟨_, _, hplace⟩, hfair⟩ => ⟨hfair, fun place h => ⟨hfair, hplace place h⟩⟩

private theorem step_fairly (hr : r.Sound) {p : Point} (hp : Fairly r p s) :
    (r.step p).Ensures s fun res t => t.cache.Fair r.net ∧
      ∀ p', res = .ok (.inl p') → Fairly r p' t :=
  ((strictStep_safe hr hp.1.inRange hp.2).ensures.and (step_fair hr hp.1 hp.2)).mono
    fun _ _ ⟨⟨_, _, hnext⟩, hfair⟩ => ⟨hfair, fun _ h => ⟨hfair, hnext _ h⟩⟩

private theorem attempt_fair (hr : ∀ entry, r.net.entries[r.decision]? = some entry → r.Sound)
    (hs : s.cache.Fair r.net) : r.attempt.Ensures s fun _ t => t.cache.Fair r.net := by
  rw [attempt_eq]
  refine .get_bind ?_
  split
  · exact .throw hs
  next hd =>
  have hr := hr _ (hs.inRange.entry_eq (Nat.lt_of_not_le hd))
  refine (start_fairly hr hs r.stream).bind (fun place t ⟨_, hplace⟩ => ?_) fun _ _ h => h.1
  refine .loop (Fairly r) (fun p u hp => (step_fairly hr hp).mono ?_) (hplace place rfl)
  rintro (e | (p' | a)) w ⟨hfair, hnext⟩
  · exact hfair
  · exact hnext p' rfl
  · exact hfair

end Request

/-! ## Predictions -/

namespace Session

variable {net : Network} {s : Session} {decision : Nat} {stream : TokenStream}

private theorem renew_fair (hs : s.cache.Fair net) (seen : Nat) :
    (s.renew seen).cache.Fair net := by
  unfold renew Cache.renew
  by_cases hgeneration : s.cache.generation = seen
  · rw [if_pos hgeneration]
    exact hs.restart
  · rw [if_neg hgeneration]
    exact hs

private theorem outcome_fair {r : Request}
    (hr : ∀ entry, r.net.entries[r.decision]? = some entry → r.Sound) (hs : s.cache.Fair r.net) :
    r.attempt.outcome.Ensures s fun _ t => t.cache.Fair r.net :=
  .outcome (Request.attempt_fair hr hs)

private theorem again_fair {r : Request}
    (hr : ∀ entry, r.net.entries[r.decision]? = some entry → r.Sound) (hs : s.cache.Fair r.net)
    (seen : Nat) (first : Except PredictionError Nat) :
    (again r seen first).Ensures s fun _ t => t.cache.Fair r.net := by
  unfold again
  cases first with
  | ok a => exact .pure hs
  | error e =>
    dsimp only
    split
    · exact .modify_bind (outcome_fair hr (renew_fair hs seen))
    · exact .pure hs

/-- **A prediction keeps the cache fair.** -/
theorem predict_fair (hnet : net.Consistent) (hindexed : net.Indexed) (hs : s.cache.Fair net)
    (settings : PredictionSettings) (host : Oracle) (fuel : Nat) (stream : TokenStream)
    (decision : Nat) (callers : List StateId) :
    (predict settings host fuel stream decision callers).Ensures s
      fun _ t => t.cache.Fair net := by
  rw [predict_eq]
  refine .bind (Q := fun _ t => t.cache.Fair net) (.of_eq rfl hs)
    (fun _ s₁ hs₁ => .get_bind (.get_bind ?_)) fun _ _ h => h
  obtain rfl : s₁.cache.net = net := hs₁.inRange.net_eq
  have hr := request_sound hnet hindexed hs₁.inRange settings host fuel stream decision callers
  refine .bind (outcome_fair (r := s₁.request settings host fuel stream decision callers) hr hs₁)
    (fun first s₂ hs₂ => ?_) fun _ _ h => h
  refine .bind (again_fair hr hs₂ _ first) (fun result s₃ hs₃ => ?_) fun _ _ h => h
  exact (close_untouched (P := fun _ => True) stream (fun _ _ => trivial) s₃).mono
    fun _ _ ⟨h, _⟩ => h ▸ hs₃

end Session

variable {net : Network}

/-- **Used caches are fair.** -/
theorem Cache.Used.fair (hnet : net.Consistent) (hindexed : net.Indexed)
    {allowed : PredictionSettings → Oracle → Prop} {c : Cache} (h : c.Used net allowed) :
    c.Fair net := by
  induction h with
  | new maxNodes maxDepth => exact Cache.new_fair net maxNodes maxDepth
  | clear _ ih => exact ih.restart
  | predict _ _ hrun ih => exact Session.predict_fair hnet hindexed ih _ _ _ _ _ _ _ _ hrun

/-! ## Rows that predictions compute -/

namespace Request

variable {r r' : Request} {C : ConfigSet} {row : Row}

/-- **The sessions in which a prediction is attempted:** with a cache as others have left it, or with
a renewed one after an attempt that failed. -/
inductive Begins (net : Network) (r : Request) : Session → Prop where
  | first {s : Session} (used : s.cache.Used net fun _ _ => True)
      (request_eq : r = s.request r.settings r.host r.fuel r.stream r.decision r.callers) :
      Begins net r s
  | again {s s' : Session} {e : PredictionError} (seen : Nat) (begins : Begins net r s)
      (failed : r.attempt.from? s = some (.error e, s')) : Begins net r (s'.renew seen)

/-- **A row that a prediction computes for the set `C`.** An attempt has come to a point from which a
symbol leads to `C`, and has found a place for it, where the row stands. What was counted and
journaled since the last step does not matter. -/
inductive Computes (net : Network) (r : Request) (C : ConfigSet) (row : Row) : Prop where
  | intro {s s₁ s₂ t t' : Session} {start place : Place} {p : Point} {v : Symbol} {trail : Trail}
      (begins : r.Begins net s) (known : r.decision < s.cache.tables.size)
      (starts : r.startPlace.from? s = some (.ok start, s₁))
      (comes : Relation.ReflTransGen (Run.Rounds r.step) (⟨start, r.stream, 0⟩, s₁) (p, s₂))
      (cache_eq : t.cache = s₂.cache)
      (reaches : (r.reach v false ((t.cache.table r.decision).row p.place).configs).from?
        { graph := t.cache.graph, past := t.callbacks } = some (.ok (some C), trail))
      (finds : (r.target p.place v).from? t = some (.ok (some place), t'))
      (row_eq : (t'.cache.table r.decision).row place = row)

/-- Every attempt begins in a fair cache, with a request that fits the network. -/
private theorem Begins.fair (hcheck : net.check = .ok ()) {s : Session} (h : r.Begins net s) :
    s.cache.Fair r.net ∧ ∀ entry, r.net.entries[r.decision]? = some entry → r.Sound := by
  have hnet := Network.consistent_of_check hcheck
  have hindexed := Network.indexed_of_check hcheck
  induction h with
  | @first s used request_eq =>
    have hs := used.fair hnet hindexed
    obtain rfl : s.cache.net = net := hs.inRange.net_eq
    have hsound := Session.request_sound hnet hindexed hs.inRange r.settings r.host r.fuel
      r.stream r.decision r.callers
    rw [← request_eq] at hsound
    have hr : r.net = s.cache.net := by rw [request_eq]; rfl
    exact ⟨hr ▸ hs, fun entry hentry => hsound entry (hr ▸ hentry)⟩
  | again seen _ failed ih =>
    obtain ⟨hs, hr⟩ := ih
    exact ⟨Session.renew_fair (attempt_fair hr hs _ _ failed) seen, hr⟩

/-- **An attempt stays fair,** by induction on the rounds it has made. -/
private theorem rounds_fairly (hr : r.Sound) {x y : Point × Session} (hx : Fairly r x.1 x.2)
    (h : Relation.ReflTransGen (Run.Rounds r.step) x y) : Fairly r y.1 y.2 := by
  induction h with
  | refl => exact hx
  | tail _ hround ih => exact (step_fairly hr ih _ _ hround).2 _ rfl

/-- A row that a prediction computes for a set is a row of the set. -/
private theorem Computes.represents (hcheck : net.check = .ok ()) (h : r.Computes net C row) :
    row.Represents C := by
  cases h with
  | @intro s s₁ s₂ t t' start place p v trail begins known starts comes cache_eq reaches finds
      row_eq =>
  subst row_eq
  obtain ⟨hs, hr⟩ := begins.fair hcheck
  have hsound := hr _ (hs.inRange.entry_eq known)
  obtain ⟨-, hstart⟩ := start_fairly hsound hs r.stream _ _ starts
  have hp := rounds_fairly hsound (hstart start rfl) comes
  obtain ⟨-, hrow⟩ := target_represents hsound (cache_eq ▸ hp.1 : t.cache.Fair r.net)
    (cache_eq ▸ hp.2) v _ _ finds
  -- The set that was followed to and the one that the row was made of come from the same run.
  obtain ⟨C', trail', hC', hrepresents⟩ := hrow place rfl
  obtain ⟨rfl, -⟩ : C = C' ∧ trail = trail' := by simpa using reaches.symm.trans hC'
  exact hrepresents

/-- **A row that answers chooses the least alternative whose guard holds.** If a prediction computes
an accepting row for a set, then every prediction with a host that puts precedences to a threshold,
where it comes to that row, is answered by the guards of the set: the answer is the least
alternative of a configuration whose guard holds, and no alternative is viable exactly if there is
none. -/
theorem computed_answers (hcheck : net.check = .ok ()) (h : r.Computes net C row)
    (haccepting : row.accepting = true) (hhost : r'.host.Graded) (stream : TokenStream)
    (u : Session) :
    (r'.answer row stream).Yields u fun result _ => r'.AnswersBy C stream result :=
  answer_represents hhost (h.represents hcheck) haccepting stream u

/-- The prediction of an item in a new cache. -/
def itemRequest : Request :=
  (Session.new (.new Grammar.itemsNet)).request {} .permissive 100 (.ofTypes [1]) 0 []

/-- A host that refuses every predicate and lets operators of level 2 continue. -/
def refusing : Host := Host.atLevel ⟨fun _ _ _ => false, fun _ => false⟩ 2

/-- The set that an item leads to, with the row that is computed for it. -/
private def itemRow? : Option (ConfigSet × Row) :=
  match itemRequest.startPlace.from? (.new (.new Grammar.itemsNet)) with
  | some (.ok start, s₁) =>
    match (itemRequest.reach 1 false ((s₁.cache.table 0).row start).configs).from?
      { graph := s₁.cache.graph, past := s₁.callbacks }, (itemRequest.target start 1).from? s₁ with
    | some (.ok (some C), _), some (.ok (some place), t) => some (C, (t.cache.table 0).row place)
    | _, _ => none
  | _ => none

private theorem itemRow_computes (h : itemRow? = some (C, row)) :
    itemRequest.Computes Grammar.itemsNet C row := by
  have hnew : (Session.new (.new Grammar.itemsNet)).cache = .new Grammar.itemsNet := rfl
  unfold itemRow? at h
  split at h
  · next start s₁ hstart =>
    split at h
    · next C' trail place t hreach htarget =>
      obtain ⟨rfl, rfl⟩ : C' = C ∧ (t.cache.table 0).row place = row := by simpa using h
      exact .intro (.first (hnew ▸ .new _ _) rfl) (by decide +kernel) hstart .refl rfl hreach
        htarget rfl
    · cases h
  · cases h

/-- Whether the row of an item answers under guards, and the second alternative is the least one
that the refusing host lets pass. -/
private def findsSecond : Bool :=
  match itemRow? with
  | some (C, row) => row.accepting && row.choices.isSome &&
      C.toList.any (fun c => c.alt == 2 && c.guard.holds refusing itemRequest.start) &&
      C.toList.all fun c => !c.guard.holds refusing itemRequest.start || decide (2 ≤ c.alt)
  | none => false

theorem items_computed_answers : ∃ C row, itemRequest.Computes Grammar.itemsNet C row ∧
    row.accepting = true ∧ row.choices.isSome = true ∧
    ∀ u, (answer { itemRequest with host := refusing } row (.ofTypes [1])).Yields u
      fun result _ => result = .ok 2 := by
  have hfinds : findsSecond = true := by decide +kernel
  have hhost : (refusing : Oracle).Graded := ⟨Oracle.steady_coe _, Host.graded_atLevel _ 2⟩
  unfold findsSecond at hfinds
  split at hfinds
  · next C row hrow =>
    simp only [Bool.and_eq_true, List.any_eq_true, List.all_eq_true, beq_iff_eq] at hfinds
    obtain ⟨⟨⟨haccepting, hchoices⟩, ⟨c, hc, hpasses⟩⟩, hall⟩ := hfinds
    have hcomputes := itemRow_computes hrow
    refine ⟨C, row, hcomputes, haccepting, hchoices, fun u => ?_⟩
    refine (computed_answers Grammar.itemsNet_check hcomputes haccepting hhost (.ofTypes [1])
      u).mono fun result _ hanswer => (hanswer.least 2).mpr ⟨⟨c, hc, hpasses⟩, ?_⟩
    intro a ⟨d, hd, halt, hholds⟩
    have hleast := hall d hd
    rw [show d.guard.holds refusing itemRequest.start = true from hholds] at hleast
    simpa [halt] using hleast
  · cases hfinds

end Request

end AdaptiveLL
