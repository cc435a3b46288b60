import Mathlib
import AdaptiveLL.Proofs.Prediction.Abreast
import AdaptiveLL.Proofs.Prediction.Local
import AdaptiveLL.Proofs.Prediction.Transparency

/-!
# A full graph fails only the prediction that fills it

The graph of stacks has a ceiling, and what earlier predictions have left in it counts. A prediction
that finds it full begins again on a renewed cache, so it fails for want of nodes only if it does so
on a new cache. The other way around there is no such rule: what earlier predictions have left in
the tables need not be computed again, and may spare a prediction nodes that a new cache lacks.
-/

namespace AdaptiveLL

/-- A prediction at a decision comes to a symbol beyond both ceilings. -/
def Network.TornFrom (net : Network) (mode : PredictionMode) (depth decision : Nat)
    (stream : TokenStream) : Prop :=
  ∃ entry, net.decisions[decision]? = some entry ∧
    net.Torn mode depth ((net.questionAt entry).beginning false []) stream

namespace Session

variable {net : Network} {settings : PredictionSettings} {host : Oracle} {stream : TokenStream}
  {decision : Nat} {callers : List StateId}

/-- The attempts at a prediction on a used cache and on a new one. -/
private theorem exists_attempts (hhost : host.Steady) (stream : TokenStream)
    (callers : List StateId) (hnet : net.Tame) (hrecover : settings.recoverAtRuleEnd = false) {entry : StateId}
    (hd : net.decisions[decision]? = some entry) {s t : Session} {nodes : Nat}
    (hc : s.cache.Faithful (net.guardedRegime settings.mode nodes))
    (ht : t.cache = .new net s.cache.maxNodes s.cache.maxDepth) {fuel : Nat}
    (hfuel : net.ample nodes settings entry ≤ fuel) :
    ∃ r, requestOn s.cache settings host fuel stream decision callers = r ∧
      requestOn t.cache settings host fuel stream decision callers = r ∧
      ∃ used s₁ fresh t₁, r.attempt.from? (s.called decision) = some (used, s₁) ∧
        r.attempt.from? (t.called decision) = some (fresh, t₁) ∧
        match used, fresh with
        | .ok alt, .ok alt' => alt = alt'
        | .ok _, .error e => e.isFullGraph = true
        | .error e, .ok _ => e.isFullGraph = true
        | .error e, .error e' => e.isFullGraph = true ∨ e'.isFullGraph = true ∨ e = e' ∨
          net.TornFrom settings.mode s.cache.maxDepth decision stream ∧
            e.Kindred s.cache.maxDepth e' := by
  obtain ⟨F, asked, hunder⟩ := hnet.exists_under hd settings host stream callers
  have hc' : t.cache.Faithful (net.guardedRegime settings.mode nodes) :=
    ht ▸ Cache.new_faithful (R := net.guardedRegime settings.mode nodes) hnet.parser hc.room_eq
  have hU := hunder nodes s.cache hc fuel settings.useCache hfuel
  have hlevel : s.cache.Level (net.guardedRegime settings.mode nodes) s.cache.maxDepth t.cache := by
    refine ⟨hc, hc', hc.depth_eq, ?_⟩
    rw [hc'.depth_eq, ht]
    rfl
  have hstart : (net.guardedRegime settings.mode nodes).start decision =
      (net.questionAt entry).beginning false [] := by
    simp [Network.guardedRegime, hd]
  have hfrank : Frank ((net.guardedRegime settings.mode nodes).start decision) := by
    rw [hstart]
    exact Question.beginning_frank (q := net.questionAt entry) hnet.consistent hnet.word
      fun _ => rfl
  -- The request is read off the network, so the two caches give one request.
  have hrequest : requestOn t.cache settings host fuel stream decision callers =
      requestOn s.cache settings host fuel stream decision callers := by
    have hentry : (t.cache.table decision).start = (s.cache.table decision).start :=
      (hc'.tables decision entry hd).start_eq.trans (hc.tables decision entry hd).start_eq.symm
    change ({ net := t.cache.net, host, decision, entry := (t.cache.table decision).start,
              start := stream.index, fuel, settings, callers, stream } : Request) =
      { net := s.cache.net, host, decision, entry := (s.cache.table decision).start,
        start := stream.index, fuel, settings, callers, stream }
    rw [hentry, hc'.net_eq, hc.net_eq]
  obtain ⟨used, s₁, hrun, -⟩ := Request.attempt_acts hU hc (s.called decision) rfl
  obtain ⟨fresh, t₁, hrun', -⟩ := Request.attempt_acts hU hc' (t.called decision) rfl
  refine ⟨_, rfl, hrequest, used, s₁, fresh, t₁, hrun, hrun', ?_⟩
  -- The two attempts side by side.
  have hends := Request.attempt_abreast hU hhost hrecover hfrank hlevel (s.called decision)
    (t.called decision) rfl rfl used s₁ fresh t₁ hrun hrun'
  cases used with
  | ok =>
    cases fresh with
    | ok => exact hends.2
    | error => exact hends
  | error e =>
    cases fresh with
    | ok => exact hends
    | error e' =>
      rcases hends with h | h | h | ⟨htorn, hkindred⟩
      · exact .inl h
      · exact .inr (.inl h)
      · exact .inr (.inr (.inl h))
      · refine .inr (.inr (.inr ⟨⟨entry, hd, ?_⟩, hkindred⟩))
        have hnet_eq : (requestOn s.cache settings host fuel stream decision callers).net = net :=
          hc.net_eq
        have hdecision : (requestOn s.cache settings host fuel stream decision callers).decision =
            decision := rfl
        rwa [hnet_eq, hdecision, hstart] at htorn

/-- **A full graph fails only the prediction that fills it.** In a parser's network that passes the
check and has no re-entry, let a session have a cache that earlier predictions in one mode have used
in any way, and another one a new cache with the same ceilings. A prediction with recovery at the
end of a rule switched off, by a host that answers by the arguments alone, ends in both. If it fails
for want of nodes on the used cache, it does so on the new one. If it does not fail for want of nodes
on the new cache, it gives the same answer or the same error on the used one; only where it comes to
a symbol beyond both the ceilings of stacks and of sets may the one stand for the other. -/
theorem predict_renews (hcheck : net.check = .ok ()) (hparser : net.isLexer = false)
    (hno : net.NoReentry) (hword : net.states.size ≤ emptyReturn) (settings : PredictionSettings)
    (hrecover : settings.recoverAtRuleEnd = false) (host : Host) (stream : TokenStream)
    (decision : Nat) (callers : List StateId) {s t : Session}
    (hused : s.cache.Used net fun earlier _ => earlier.mode = settings.mode)
    (hnew : t.cache = .new net s.cache.maxNodes s.cache.maxDepth) :
    ∃ enough, ∀ fuel, enough ≤ fuel →
      (predict settings host fuel stream decision callers).Yields s fun used _ =>
      (predict settings host fuel stream decision callers).Yields t fun fresh _ =>
        (∀ e, used = .error e → e.isFullGraph = true → fresh = .error e) ∧
        ((∀ e, fresh = .error e → e.isFullGraph = false) →
          used = fresh ∨ net.TornFrom settings.mode s.cache.maxDepth decision stream ∧
            ∃ e e', used = .error e ∧ fresh = .error e' ∧ e.Kindred s.cache.maxDepth e') := by
  have hnet : net.Tame := ⟨Network.consistent_of_check hcheck, hparser, hword, hno⟩
  have hhost := Oracle.steady_coe host
  obtain ⟨nodes, hc⟩ := hused.faithful_guarded hnet
  cases hd : net.decisions[decision]? with
  | none =>
    -- Both refuse the decision.
    have hsize : s.cache.tables.size = net.decisions.size := hc.size_eq
    have hsize' : t.cache.tables.size = net.decisions.size := by
      rw [hnew]
      simp [Cache.new, Cache.freshTables, hparser]
    have hunknown : net.decisions.size ≤ decision := Array.getElem?_eq_none_iff.mp hd
    refine ⟨0, fun fuel _ => ?_⟩
    refine (predict_unknown (hsize.le.trans hunknown) s rfl).mono ?_
    rintro used s' ⟨_, _, -, -, rfl, -⟩
    refine (predict_unknown (hsize'.le.trans hunknown) t rfl).mono ?_
    rintro fresh t' ⟨_, _, -, -, rfl, -⟩
    rw [hsize, hsize']
    exact ⟨fun e he _ => he, fun _ => .inl rfl⟩
  | some entry =>
    refine ⟨net.ample nodes settings entry, fun fuel hfuel => ?_⟩
    obtain ⟨r, hr, hr', used, s₁, fresh, t₁, hrun, hrun', hends⟩ :=
      exists_attempts hhost stream callers hnet hrecover hd hc hnew hfuel
    obtain ⟨t', hfresh⟩ := predict_of_new (s := t) hhost hnew (hr'.symm ▸ hrun')
    by_cases hfull : ∃ e, used = .error e ∧ e.isFullGraph = true
    · -- The prediction begins again, as on the new cache.
      obtain ⟨e, rfl, hfull⟩ := hfull
      have hnet_eq : s.cache.net = net := hc.net_eq
      obtain ⟨s', hsecond⟩ := predict_of_full (s := s) (t := t.called decision) hhost
        (hr.symm ▸ hrun) hfull (hnet_eq.symm ▸ hnew) (hr.symm ▸ hrun')
      refine .of_eq hsecond (.of_eq hfresh ?_)
      exact ⟨fun e he _ => he, fun _ => .inl rfl⟩
    · have hroom : ∀ e, used = .error e → e.isFullGraph = false := fun e he =>
        Bool.eq_false_of_not_eq_true fun h => hfull ⟨e, he, h⟩
      obtain ⟨s', hfirst⟩ := predict_of_attempt (s := s) (hr.symm ▸ hrun) hroom
      refine .of_eq hfirst (.of_eq hfresh ⟨fun e he h => ?_, fun hfresh => ?_⟩)
      · rw [hroom e he] at h
        cases h
      · cases used with
        | ok alt =>
          cases fresh with
          | ok alt' => exact .inl (congrArg _ hends)
          | error e => exact absurd hends (by simp [hfresh e rfl])
        | error e =>
          cases fresh with
          | ok => exact absurd hends (by simp [hroom e rfl])
          | error e' =>
            rcases hends with h | h | rfl | ⟨htorn, hkindred⟩
            · exact absurd h (by simp [hroom e rfl])
            · exact absurd h (by simp [hfresh e' rfl])
            · exact .inl rfl
            · exact .inr ⟨htorn, e, e', rfl, rfl, hkindred⟩

end Session

/-! ## A history that spares nodes -/

namespace Network

/-- A decision between the tokens 1 and 2, after which the ways on are many: each of the calls behind
the third token makes a stack of its own. -/
def sparing : Network where
  kind := .parser
  name := "sparing"
  maxTokenType := 3
  states := #[⟨0, .ruleStart, 0, [.epsilon 2], none, false, none⟩,
    ⟨1, .ruleStop, 0, [.epsilon 7], none, false, none⟩,
    ⟨2, .blockStart, 0, [.epsilon 3, .epsilon 4], some 0, false, none⟩,
    ⟨3, .basic, 0, [.atom 13 1, .atom 5 2], none, false, none⟩,
    ⟨4, .basic, 0, [.range 11 1 2], none, false, none⟩,
    ⟨5, .basic, 0, [.atom 6 3], none, false, none⟩,
    ⟨6, .basic, 0, [.epsilon 8, .epsilon 7], none, false, none⟩,
    ⟨7, .basic, 0, [.rule 10 1 5 0], none, false, none⟩,
    ⟨8, .basic, 0, [.rule 10 1 3 0, .rule 12 2 3 0, .epsilon 1, .rule 10 1 4 0, .rule 12 2 4 0],
      none, false, none⟩,
    ⟨9, .basic, 0, [.atom 14 3], none, false, none⟩,
    ⟨10, .ruleStart, 1, [.atom 11 1], none, false, none⟩,
    ⟨11, .ruleStop, 1, [.epsilon 9], none, false, none⟩,
    ⟨12, .ruleStart, 2, [.atom 13 1], none, false, none⟩,
    ⟨13, .ruleStop, 2, [.epsilon 5], none, false, none⟩,
    ⟨14, .basic, 0, [.atom 14 3], none, false, none⟩]
  decisions := #[2]
  ruleNames := ["d", "q", "p"]
  ruleStarts := #[0, 10, 12]
  ruleStops := #[1, 11, 13]

private theorem sparing_check : sparing.check = .ok () := by
  have hok : sparing.check.isOk = true := by decide +kernel
  cases h : sparing.check with
  | ok => rfl
  | error e => rw [h] at hok; cases hok

/-- The called rules begin with a token, and so do the states behind the calls. -/
private theorem sparing_noReentry : sparing.NoReentry := by
  have hstates : ∀ q < sparing.states.size, sparing.isStop q = false →
      ∀ t ∈ (sparing.state q).transitions, ∀ d ∈ t.onward true [],
        (if d.1 ∈ [6, 7, 8] then 1 else 0) + d.2.length ≤ (if q ∈ [6, 7, 8] then 1 else 0) ∧
          ∀ r ∈ d.2, (if r ∈ [6, 7, 8] then 1 else 0) ≤ (if q ∈ [6, 7, 8] then 1 else 0) := by
    decide +kernel
  refine noReentry_of_height (fun q => if q ∈ [6, 7, 8] then 1 else 0) fun q hstop t ht d hd => ?_
  rcases sparing.state_cases q with ⟨hlt, -⟩ | ⟨-, hplain⟩
  · exact hstates q hlt hstop t ht d hd
  · rw [hplain] at ht
    cases ht

end Network

namespace Session

/-- What a prediction before the tokens 2, 3 and 3 comes to on a new cache with room for six nodes,
and on one that was used for a prediction before 1, 3 and 3. -/
private def spares : Bool :=
  match (predict {} .permissive 200 (.ofTypes [1, 3, 3]) 0 []).from?
      (.new (.new Network.sparing 6 100)),
    (predict {} .permissive 200 (.ofTypes [2, 3, 3]) 0 []).from?
      (.new (.new Network.sparing 6 100)) with
  | some (_, warm), some (.error e, _) =>
    decide (e = .exceeded ⟨.arenaNodes, 6, 7⟩) &&
      decide (warm.cache.maxNodes = 6) && decide (warm.cache.maxDepth = 100) &&
      match (predict {} .permissive 200 (.ofTypes [2, 3, 3]) 0 []).from? warm with
      | some (.ok alt, _) => alt == 2
      | _ => false
  | _, _ => false

/-- A prediction that succeeds on a used cache, and fails for want of nodes on a new one. -/
private theorem exists_spared : ∃ earlier warm,
    (predict {} .permissive 200 (.ofTypes [1, 3, 3]) 0 []).from?
        (.new (.new Network.sparing 6 100)) = some (earlier, warm) ∧
      (warm.cache.maxNodes = 6 ∧ warm.cache.maxDepth = 100) ∧
      (predict {} .permissive 200 (.ofTypes [2, 3, 3]) 0 []).Yields warm
        (fun result _ => result = .ok 2) ∧
      (predict {} .permissive 200 (.ofTypes [2, 3, 3]) 0 []).Yields
        (.new (.new Network.sparing 6 100))
        fun result _ => result = .error (.exceeded ⟨.arenaNodes, 6, 7⟩) := by
  have hspares : spares = true := by decide +kernel
  unfold spares at hspares
  split at hspares
  · next warm e _ hearlier hfails =>
    split at hspares
    · next alt _ hspared =>
      simp only [Bool.and_eq_true, decide_eq_true_eq, beq_iff_eq] at hspares
      obtain ⟨⟨⟨rfl, hnodes⟩, hdepth⟩, rfl⟩ := hspares
      exact ⟨_, warm, hearlier, ⟨hnodes, hdepth⟩, .of_eq hspared rfl, .of_eq hfails rfl⟩
    · simp at hspares
  · cases hspares

theorem sparing_renews : ∃ warm : Session, warm.cache.maxNodes = 6 ∧ ∃ enough, ∀ fuel, enough ≤ fuel →
    (predict {} .permissive fuel (.ofTypes [1, 3, 3]) 0 []).Yields warm fun used _ =>
    (predict {} .permissive fuel (.ofTypes [1, 3, 3]) 0 []).Yields
        (.new (.new Network.sparing 6 100)) fun fresh _ =>
      (∀ e, used = .error e → e.isFullGraph = true → fresh = .error e) ∧
      ((∀ e, fresh = .error e → e.isFullGraph = false) →
        used = fresh ∨ Network.sparing.TornFrom .ll warm.cache.maxDepth 0 (.ofTypes [1, 3, 3]) ∧
          ∃ e e', used = .error e ∧ fresh = .error e' ∧ e.Kindred warm.cache.maxDepth e') := by
  obtain ⟨earlier, warm, hearlier, ⟨hnodes, hdepth⟩, -⟩ := exists_spared
  have hnew : (Session.new (.new Network.sparing 6 100)).cache =
      .new Network.sparing warm.cache.maxNodes warm.cache.maxDepth := by
    rw [hnodes, hdepth]
    rfl
  have hempty : (Session.new (.new Network.sparing 6 100)).cache.Used Network.sparing
      fun earlier _ => earlier.mode = ({} : PredictionSettings).mode := .new 6 100
  exact ⟨warm, hnodes, predict_renews Network.sparing_check rfl Network.sparing_noReentry
    (by decide +kernel) {} rfl .permissive (.ofTypes [1, 3, 3]) 0 [] (.predict hempty rfl hearlier)
    hnew⟩

end Session

/-! ## A history that changes which ceiling is met

Rows that differ only in how often their threads have left the rule of the decision are one row, and
the one that was found first is kept. How often that was tells visits apart, so it may change which
of two ways is followed first.
-/

namespace Network

/-- The states of a network but for its hub and its spokes. The decision is between the tokens 1 and
2. The threads of the first alternative are at the end of its rule once more before they come to the
third token, after which a way leads to the hub and another one to a call. -/
def wheelTrunk : List State := [
  ⟨0, .ruleStart, 0, [.epsilon 2], none, false, none⟩,
  ⟨1, .ruleStop, 0, [.epsilon 7], none, false, none⟩,
  ⟨2, .blockStart, 0, [.epsilon 3, .epsilon 4], some 0, false, none⟩,
  ⟨3, .basic, 0, [.epsilon 6, .epsilon 1], none, false, none⟩,
  ⟨4, .basic, 0, [.range 8 1 2], none, false, none⟩,
  ⟨5, .basic, 0, [.epsilon 9, .epsilon 1], none, false, none⟩,
  ⟨6, .basic, 0, [.atom 5 1], none, false, none⟩,
  ⟨7, .basic, 0, [.atom 5 2], none, false, none⟩,
  ⟨8, .basic, 0, [.atom 15 3, .atom 15 4], none, false, none⟩,
  ⟨9, .basic, 0, [.atom 12 3], none, false, none⟩,
  ⟨10, .ruleStart, 1, [.epsilon 12], none, false, none⟩,
  ⟨11, .ruleStop, 1, [.epsilon 12, .epsilon 13], none, false, none⟩,
  ⟨12, .basic, 1, [.epsilon 11, .epsilon 16], none, false, none⟩,
  ⟨13, .basic, 0, [.rule 14 2 15 0], none, false, none⟩,
  ⟨14, .ruleStart, 2, [.atom 15 1], none, false, none⟩,
  ⟨15, .ruleStop, 2, [.epsilon 9], none, false, none⟩]

/-- The hub has a way to each of the spokes. -/
def hub (n : Nat) : State :=
  ⟨16, .basic, 0, (List.range n).map fun i => .epsilon (17 + i), none, false, none⟩

/-- A spoke waits for a token. -/
def spoke (i : Nat) : State := ⟨17 + i, .basic, 2, [.atom 15 3], none, false, none⟩

/-- A network with a hub and as many spokes around it as one likes. -/
def wheel (n : Nat) : Network where
  kind := .parser
  name := "wheel"
  maxTokenType := 4
  states := ⟨wheelTrunk ++ hub n :: (List.range n).map spoke⟩
  decisions := #[2]
  ruleNames := ["d", "q", "p"]
  ruleStarts := #[0, 10, 14]
  ruleStops := #[1, 11, 15]

variable {n : Nat}

private theorem wheelTrunk_length : wheelTrunk.length = 16 := rfl

private theorem wheel_size (n : Nat) : (wheel n).states.size = 17 + n := by
  simp only [wheel, List.size_toArray, List.length_append, List.length_cons, List.length_map,
    List.length_range, wheelTrunk_length]
  omega

/-- A state of the wheel is one of the trunk, the hub, or a spoke. -/
private theorem wheel_cases {q : StateId} {s : State} (h : (wheel n).states[q]? = some s) :
    (s, q) ∈ wheelTrunk.zipIdx ∨ (q = 16 ∧ s = hub n) ∨ ∃ i < n, q = 17 + i ∧ s = spoke i := by
  have hget : (wheelTrunk ++ hub n :: (List.range n).map spoke)[q]? = some s := by
    rwa [← Array.getElem?_toList] at h
  rcases Nat.lt_trichotomy q 16 with hq | rfl | hq
  · rw [List.getElem?_append_left (wheelTrunk_length ▸ hq)] at hget
    exact .inl (List.mem_zipIdx_iff_getElem?.mpr hget)
  · exact .inr (.inl ⟨rfl, (Option.some.inj hget).symm⟩)
  · obtain ⟨i, rfl⟩ := Nat.exists_eq_add_of_le hq
    rw [List.getElem?_append_right (by rw [wheelTrunk_length]; omega), wheelTrunk_length,
      show 16 + 1 + i - 16 = i + 1 by omega, List.getElem?_cons_succ, List.getElem?_map,
      Option.map_eq_some_iff] at hget
    obtain ⟨j, hj, rfl⟩ := hget
    obtain ⟨hi, rfl⟩ := List.getElem?_eq_some_iff.mp hj
    rw [List.length_range] at hi
    exact .inr (.inr ⟨i, hi, rfl, by rw [List.getElem_range]⟩)

private theorem wheel_state_spoke {i : Nat} (hi : i < n) : (wheel n).state (17 + i) = spoke i := by
  have hlt : 17 + i < (wheel n).states.size := by
    rw [wheel_size]
    exact Nat.add_lt_add_left hi 17
  have hget := Array.getElem?_eq_getElem hlt
  rw [state, hget]
  rcases wheel_cases hget with h | ⟨h, -⟩ | ⟨j, -, hj, heq⟩
  · have hlt : 17 + i < 0 + wheelTrunk.length := List.snd_lt_of_mem_zipIdx h
    exact absurd hlt (Nat.not_lt.mpr (Nat.le_add_right_of_le (by decide)))
  · exact absurd h (ne_of_gt (Nat.lt_add_right i (by decide)))
  · rw [Option.getD_some, heq, Nat.add_left_cancel hj]

private theorem wheel_check (n : Nat) : (wheel n).check = .ok () := by
  have hstates : (wheel n).states.toList.zipIdx.forM
      (fun x => (wheel n).checkState x.2 x.1) = .ok () := by
    refine forM_eq_ok_iff.mpr fun ⟨s, q⟩ hmem => ?_
    rw [List.mem_zipIdx_iff_getElem?, Array.getElem?_toList] at hmem
    rcases wheel_cases hmem with h | ⟨rfl, rfl⟩ | ⟨i, hi, rfl, rfl⟩
    · have htrunk : wheelTrunk.zipIdx.forM
          (fun x => (wheel n).checkState x.2 x.1) = .ok () := rfl
      exact forM_eq_ok_iff.mp htrunk _ h
    · refine checkState_iff.mpr ⟨rfl, fun _ => (by decide : 0 < 3), nofun, fun t ht => ?_⟩
      obtain ⟨i, hi, rfl⟩ := List.mem_map.mp ht
      exact ⟨by rw [wheel_size]; exact Nat.add_lt_add_left (List.mem_range.mp hi) 17, trivial⟩
    · refine checkState_iff.mpr ⟨rfl, fun _ => (by decide : 2 < 3), nofun, fun t ht => ?_⟩
      obtain rfl := List.mem_singleton.mp ht
      exact ⟨by rw [wheel_size]; exact Nat.lt_add_right _ (by decide : 15 < 17), trivial⟩
  change ((wheel n).states.toList.zipIdx.forM (fun x => (wheel n).checkState x.2 x.1) >>=
    fun _ => _) = _
  rw [hstates]
  rfl

/-- Only one state makes a call, and no way without a token leads back to it within its rule. -/
private theorem wheel_noReentry (n : Nat) : (wheel n).NoReentry := by
  refine noReentry_of_height (fun q => if q = 13 then 1 else 0) fun q hstop t ht d hd => ?_
  rcases (wheel n).state_cases q with ⟨hlt, heq⟩ | ⟨-, hplain⟩
  · have hget := Array.getElem?_eq_getElem hlt
    rw [heq] at ht
    rcases wheel_cases hget with h | ⟨rfl, h⟩ | ⟨i, hi, rfl, h⟩
    · have htrunk : ∀ x ∈ wheelTrunk.zipIdx, x.1.isRuleStop = false → ∀ t ∈ x.1.transitions,
          ∀ d ∈ t.onward true [],
            (if d.1 = 13 then 1 else 0) + d.2.length ≤ (if x.2 = 13 then 1 else 0) ∧
            ∀ r ∈ d.2, (if r = 13 then 1 else 0) ≤ (if x.2 = 13 then 1 else 0) := by
        decide
      exact htrunk _ h (by rw [← heq]; exact hstop) t ht d hd
    · rw [h] at ht
      obtain ⟨i, hi, rfl⟩ := List.mem_map.mp ht
      obtain rfl := Option.some.inj hd
      have hspoke : 17 + i ≠ 13 := ne_of_gt (Nat.lt_add_right i (by decide))
      exact ⟨by simp [hspoke], nofun⟩
    · rw [h] at ht
      obtain rfl := List.mem_singleton.mp ht
      cases hd
  · rw [hplain] at ht
    cases ht

end Network

/-! ### The way to the hub -/

namespace Question

open Network

variable {q : Question} {n : Nat} {tr : Trail} {v : Visit}

/-- The visit of a spoke that a visit of the hub leads to. -/
private def spokeVisit (v : Visit) (i : Nat) : Visit :=
  { v with config := v.config.moveTo (17 + i), checkStop := true }

/-- What the visit of a spoke is told apart by. -/
private def spokeKey (v : Visit) (i : Nat) : VisitKey :=
  ((v.config.moveTo (17 + i)).identity, decide (0 < v.config.outer), v.collect)

private theorem expand_hub (v : Visit) (s : Sweep) {i : Nat} (hnew : spokeKey v i ∉ s.seen) :
    q.expand { full := false } v (hub n) s (.epsilon (17 + i)) =
      pure { s with work := spokeVisit v i :: s.work, seen := spokeKey v i :: s.seen } := by
  have hseen : s.seen.contains (spokeKey v i) = false := by
    rwa [← Bool.not_eq_true, List.contains_iff_mem]
  have hcollect : (v.collect && !(Transition.epsilon (17 + i)).isAction) = v.collect :=
    Bool.and_true _
  unfold expand
  rw [hcollect]
  change (if s.seen.contains (spokeKey v i) = true then _ else _) = _
  rw [hseen]
  rfl

/-- The ways from the hub put the visits of the spokes ahead of the others. -/
private theorem expand_spokes (v : Visit) (k : Nat) (s : Sweep)
    (hseen : ∀ key ∈ s.seen, key.1.state < 17 ∨ 17 + k ≤ key.1.state) :
    ∃ seen, ((List.range k).map fun i => Transition.epsilon (17 + i)).reverse.foldlM
      (q.expand { full := false } v (hub n)) s =
        pure { s with work := (List.range k).map (spokeVisit v) ++ s.work, seen } := by
  induction k generalizing s with
  | zero => exact ⟨s.seen, rfl⟩
  | succ k ih =>
    have hnew : spokeKey v k ∉ s.seen := fun hmem => by
      have hkey : 17 + k < 17 ∨ 17 + (k + 1) ≤ 17 + k := hseen _ hmem
      omega
    obtain ⟨seen, hrest⟩ := ih { s with
        work := spokeVisit v k :: s.work, seen := spokeKey v k :: s.seen } fun key hkey => by
      rcases List.mem_cons.mp hkey with rfl | hkey
      · exact .inr le_rfl
      · exact (hseen key hkey).imp_right Nat.le_of_succ_le
    refine ⟨seen, ?_⟩
    -- The last way is followed first.
    rw [List.range_succ, List.map_append, List.reverse_append, List.map_append, List.append_assoc]
    change List.foldlM _ s (Transition.epsilon (17 + k) ::
      ((List.range k).map fun i => Transition.epsilon (17 + i)).reverse) = _
    rw [List.foldlM_cons, expand_hub v s hnew, pure_bind, hrest]
    rfl

private theorem perform_hub (hq : q.net = wheel n) (hn : 0 < n) (hv : v.config.state = 16)
    (s : Sweep) (hseen : ∀ key ∈ s.seen, key.1.state < 17) :
    ∃ seen, q.perform { full := false } v s =
      pure { s with work := (List.range n).map (spokeVisit v) ++ s.work, seen } := by
  obtain ⟨seen, hspokes⟩ :=
    expand_spokes (q := q) (n := n) v n s fun key hkey => .inl (hseen key hkey)
  have hstate : q.net.state v.config.state = hub n := by
    rw [hq, hv]
    rfl
  have honly : (hub n).onlyEpsilon = true := by
    simp [State.onlyEpsilon, hub, hn.ne', Transition.isEpsilon]
  have hstop : (v.checkStop && (hub n).isRuleStop) = false := Bool.and_false _
  refine ⟨seen, ?_⟩
  unfold perform
  rw [hstate]
  dsimp only
  rw [hstop]
  change q.expandAll { full := false } v (hub n) s = _
  unfold expandAll
  rw [honly]
  exact hspokes

/-- A configuration at a state of its own is collected, if there is room. -/
private theorem collect_new {s : Sweep} {c : Config}
    (hnew : ∀ d ∈ s.configs.toList, d.state ≠ c.state) :
    s.collect c =
      if s.configs.maxSize ≤ s.configs.size then
        throw ⟨.configSetSize, s.configs.maxSize, s.configs.size + 1⟩
      else pure { s with
        configs := { s.configs.mark c with configs := s.configs.configs.push c } } := by
  have hfind : (s.configs.configs.findIdx? fun d => s.configs.key d = s.configs.key c) = none :=
    Array.findIdx?_eq_none_iff.mpr fun d hd => decide_eq_false fun hkey =>
      hnew d (Array.mem_toList_iff.mpr hd) (congrArg ConfigKey.state hkey)
  refine Run.eq_of_from? fun t => ?_
  rw [Sweep.collect, Run.from?_bind, Probe.grow, Run.from?_ofStep, ConfigSet.insert_run, hfind]
  dsimp only
  by_cases hfull : s.configs.maxSize ≤ s.configs.configs.size
  · rw [if_pos hfull, if_pos (show s.configs.maxSize ≤ s.configs.size from hfull)]
    rfl
  · rw [if_neg hfull, if_neg (show ¬s.configs.maxSize ≤ s.configs.size from hfull)]
    rfl

private theorem perform_spoke (hq : q.net = wheel n) (v : Visit) {i : Nat} (hi : i < n)
    (s : Sweep) :
    q.perform { full := false } (spokeVisit v i) s = s.collect (v.config.moveTo (17 + i)) := by
  have hspoke : q.net.state (spokeVisit v i).config.state = spoke i := by
    rw [hq]
    exact wheel_state_spoke hi
  unfold perform
  rw [hspoke]
  exact bind_pure _

/-- Where there are more spokes ahead than a set has room for, their visits fill it. -/
private theorem sweep_spokes (hq : q.net = wheel n) (v : Visit) (rest : List Visit)
    (seen : List VisitKey) (reported : Bool) (k : Nat) {j fuel : Nat} (s : ConfigSet)
    (hk : j + k ≤ n) (hfuel : k ≤ fuel) (hbelow : ∀ d ∈ s.toList, d.state < 17 + j)
    (hroom : s.size ≤ s.maxSize) (hcrowd : s.maxSize < s.size + k) :
    (Run.loop (q.sweepStep { full := false }) fuel
      ⟨(List.range' j k).map (spokeVisit v) ++ rest, s, seen, reported⟩).from? tr =
      some (.error (.tooMany s.maxSize), tr) := by
  induction k generalizing j fuel s with
  | zero => omega
  | succ k ih =>
    obtain ⟨fuel, rfl⟩ : ∃ m, fuel = m + 1 := ⟨fuel - 1, by omega⟩
    -- Each spoke ends in a state of its own, so its configuration is new to the set.
    let c := v.config.moveTo (17 + j)
    let next : Sweep := ⟨(List.range' (j + 1) k).map (spokeVisit v) ++ rest, s, seen, reported⟩
    have hstep : q.sweepStep { full := false }
        ⟨(List.range' j (k + 1)).map (spokeVisit v) ++ rest, s, seen, reported⟩ =
          next.collect c >>= fun s => pure (.inl s) := by
      rw [← perform_spoke hq v (by omega)]
      rfl
    have hcollect := collect_new (s := next) (c := c) fun d hd => (hbelow d hd).ne
    -- This spoke finds the set full, or one of the spokes behind it does.
    by_cases hfull : s.maxSize ≤ s.size
    · have hexceeded : (⟨.configSetSize, s.maxSize, s.size + 1⟩ : Exceeded) = .tooMany s.maxSize := by
        rw [hroom.antisymm hfull, Exceeded.tooMany]
      rw [if_pos (show next.configs.maxSize ≤ next.configs.size from hfull)] at hcollect
      refine Run.from?_loop_of_error ?_
      rw [hstep, hcollect, ← hexceeded]
      rfl
    · rw [if_neg (show ¬next.configs.maxSize ≤ next.configs.size from hfull)] at hcollect
      let s' : ConfigSet := { s.mark c with configs := s.configs.push c }
      have hsize : s'.size = s.size + 1 := Array.size_push ..
      have hround : (q.sweepStep { full := false }
          ⟨(List.range' j (k + 1)).map (spokeVisit v) ++ rest, s, seen, reported⟩).from? tr =
            some (.ok (.inl { next with configs := s' }), tr) := by
        rw [hstep, hcollect]
        rfl
      refine (Run.from?_loop_of_round hround).trans (ih s' (by omega) (by omega) ?_ ?_ ?_)
      · intro d hd
        rw [ConfigSet.toList, Array.toList_push, List.mem_append, List.mem_singleton] at hd
        rcases hd with hd | rfl
        · exact Nat.lt_succ_of_lt (hbelow d hd)
        · exact Nat.lt_succ_self _
      · rw [hsize]
        exact Nat.lt_of_not_le hfull
      · rw [hsize]
        change s.maxSize < _
        omega

/-- **Where the hub is visited next,** the set is filled. -/
private theorem sweep_hub (hq : q.net = wheel n) (hv : v.config.state = 16) (rest : List Visit)
    (s : ConfigSet) {seen : List VisitKey} (reported : Bool) {fuel : Nat}
    (hseen : ∀ key ∈ seen, key.1.state < 17) (hempty : s.toList = []) (hcrowd : s.maxSize < n)
    (hfuel : n ≤ fuel) :
    (Run.loop (q.sweepStep { full := false }) (fuel + 1) ⟨v :: rest, s, seen, reported⟩).from? tr =
      some (.error (.tooMany s.maxSize), tr) := by
  obtain ⟨seen', hhub⟩ := perform_hub hq (by omega) hv ⟨rest, s, seen, reported⟩ hseen
  have hround : (q.sweepStep { full := false } ⟨v :: rest, s, seen, reported⟩).from? tr =
      some (.ok (.inl ⟨(List.range' 0 n).map (spokeVisit v) ++ rest, s, seen', reported⟩), tr) := by
    change (q.perform { full := false } v ⟨rest, s, seen, reported⟩ >>= _).from? tr = _
    rw [hhub, List.range_eq_range']
    rfl
  have hsize : s.size = 0 := by
    rw [ConfigSet.size, ← Array.length_toList]
    exact List.length_eq_zero_iff.mpr hempty
  exact (Run.from?_loop_of_round hround).trans (sweep_spokes hq v rest seen' reported n s (by omega)
    hfuel (fun d hd => absurd hd (by simp [hempty])) (by omega) (by omega))

/-- A question about the wheel. -/
private def ofWheel (n fuel : Nat) : Question :=
  { net := wheel n, host := .permissive, decision := 0, entry := 2, start := 0, fuel }

private def firstAlt (state outer : Nat) : Config := { state, alt := 1, stack := 0, outer }

private def secondAlt (state : Nat) : Config := { state, alt := 2, stack := 0 }

private def firstVisit (state outer : Nat) (depth : Int) : Visit :=
  { config := firstAlt state outer, depth, collect := false }

private def firstKey (state : Nat) (left : Bool) : VisitKey := (firstAlt state 0, left, false)

/-- A trail in a graph with no room for a call. -/
private def shallow : Trail := { graph := .withLimits 100 0 }

set_option maxRecDepth 10000 in
/-- A thread that was in the rule of the decision comes to the hub before it comes to the call. -/
private theorem closure_wheel (hn : Limits.configsPerSet < n) {fuel : Nat} (hfuel : n ≤ fuel) :
    ((ofWheel n (fuel + 5)).closure { full := false } false (.forParser false, [])
      (firstAlt 12 0)).from? shallow = some (.error (.tooMany Limits.configsPerSet), shallow) := by
  let outside : ConfigSet := { ConfigSet.forParser false with dipsOut := true }
  have h₁ : ((ofWheel n (fuel + 5)).sweepStep { full := false }
      ⟨[firstVisit 12 0 0], .forParser false, [], false⟩).from? shallow =
    some (.ok (.inl ⟨[firstVisit 11 0 0, firstVisit 16 0 0], .forParser false,
      [firstKey 11 false, firstKey 16 false], false⟩), shallow) := by cbv
  have h₂ : ((ofWheel n (fuel + 5)).sweepStep { full := false }
      ⟨[firstVisit 11 0 0, firstVisit 16 0 0], .forParser false,
        [firstKey 11 false, firstKey 16 false], false⟩).from? shallow =
    some (.ok (.inl ⟨[firstVisit 12 1 (-1), firstVisit 13 1 (-1), firstVisit 16 0 0], outside,
      [firstKey 12 true, firstKey 13 true, firstKey 11 false, firstKey 16 false], false⟩),
      shallow) := by cbv
  have h₃ : ((ofWheel n (fuel + 5)).sweepStep { full := false }
      ⟨[firstVisit 12 1 (-1), firstVisit 13 1 (-1), firstVisit 16 0 0], outside,
        [firstKey 12 true, firstKey 13 true, firstKey 11 false, firstKey 16 false],
        false⟩).from? shallow =
    some (.ok (.inl ⟨[firstVisit 11 1 (-1), firstVisit 16 1 (-1), firstVisit 13 1 (-1),
      firstVisit 16 0 0], outside, [firstKey 11 true, firstKey 16 true, firstKey 12 true,
      firstKey 13 true, firstKey 11 false, firstKey 16 false], false⟩), shallow) := by cbv
  -- What the end of the rule leads to was noted before.
  have h₄ : ((ofWheel n (fuel + 5)).sweepStep { full := false }
      ⟨[firstVisit 11 1 (-1), firstVisit 16 1 (-1), firstVisit 13 1 (-1), firstVisit 16 0 0],
        outside, [firstKey 11 true, firstKey 16 true, firstKey 12 true, firstKey 13 true,
        firstKey 11 false, firstKey 16 false], false⟩).from? shallow =
    some (.ok (.inl ⟨[firstVisit 16 1 (-1), firstVisit 13 1 (-1), firstVisit 16 0 0], outside,
      [firstKey 11 true, firstKey 16 true, firstKey 12 true, firstKey 13 true, firstKey 11 false,
      firstKey 16 false], false⟩), shallow) := by cbv
  refine (Run.from?_loop_of_round h₁).trans ((Run.from?_loop_of_round h₂).trans
    ((Run.from?_loop_of_round h₃).trans ((Run.from?_loop_of_round h₄).trans ?_)))
  exact sweep_hub rfl rfl _ outside false (by decide) rfl hn hfuel

/-- What is found before the third token, where the second one was the first token of the second
alternative. -/
private def wheelConfigs : ConfigSet :=
  { configs := #[firstAlt 9 0, firstAlt 7 1, secondAlt 8], dipsOut := true }

set_option maxRecDepth 10000 in
private theorem reach_wheel (hn : Limits.configsPerSet < n) {fuel : Nat} (hfuel : n ≤ fuel) :
    ((ofWheel n (fuel + 5)).reach 3 false wheelConfigs).from? shallow =
      some (.error (.tooMany Limits.configsPerSet), shallow) := by
  let moved : ConfigSet := { configs := #[firstAlt 12 0, secondAlt 15] }
  have hconsume : ((ofWheel n (fuel + 5)).consume 3 false wheelConfigs).from? shallow =
      some (.ok moved, shallow) := by cbv
  have hclose : ((ofWheel n (fuel + 5)).closeAll { full := false } moved).from? shallow =
      some (.error (.tooMany Limits.configsPerSet), shallow) :=
    Run.from?_bind_of_error (Run.from?_bind_of_error (closure_wheel hn hfuel))
  rw [reach_eq]
  exact (Run.from?_bind_of_ok hconsume).trans (Run.from?_bind_of_error hclose)

end Question

/-! ### The two predictions -/

/-- A prediction along the table fails where the next set exceeds a ceiling. -/
private theorem Request.step_of_exceeded {r : Request} {p : Request.Point} {s : Session}
    {e : Exceeded} {t : Trail} (hlook : p.read + 1 ≤ r.settings.maxLookahead)
    (hlog : r.settings.logMisses = false)
    (hcell : (if r.settings.useCache then
      (s.cache.table r.decision).cell? p.place (p.stream.lookAhead 1) else none) = none)
    (h : (r.reach (p.stream.lookAhead 1) false
      ((s.cache.table r.decision).row p.place).configs).from?
        { graph := s.cache.graph, past := s.callbacks } = some (.error e, t)) :
    ∃ s', (r.step p).from? s = some (.error (.exceeded e), s') := by
  let missed := s.count r.decision fun c => { c with misses := c.misses + 1 }
  have hcheck : r.checkLookahead (p.read + 1) = pure ⟨⟩ := if_neg (by omega)
  have htable : (Prediction.table r.toQuestion).from? s =
      some (.ok (s.cache.table r.decision), s) := rfl
  have hmissed : (Prediction.count r.toQuestion fun c => { c with misses := c.misses + 1 }).from? s =
      some (.ok ⟨⟩, missed) := rfl
  have hrow : (r.targetRow ((s.cache.table r.decision).row p.place).configs
      (p.stream.lookAhead 1)).from? missed =
        some (.error (.exceeded e), missed.absorb r.toQuestion t) := by
    rw [targetRow_eq]
    refine Run.from?_bind_of_error ?_
    rw [Prediction.from?_probe]
    exact congrArg (Option.map _) h
  refine ⟨missed.absorb r.toQuestion t, ?_⟩
  rw [step_eq, hcheck, pure_bind, next_eq]
  refine Run.from?_bind_of_error ((Run.from?_bind_of_ok htable).trans ?_)
  rw [hcell, hlog]
  refine (Run.from?_bind_of_ok hmissed).trans ((Run.from?_bind_of_ok (a := ⟨⟩) rfl).trans ?_)
  unfold target
  exact (Run.from?_bind_of_ok (a := s.cache.table r.decision) rfl).trans
    (Run.from?_bind_of_error hrow)

namespace Session

open Network

variable {n : Nat}

/-- The table that a prediction before the tokens 1 and 4 leaves behind. -/
private def wheelTable (n : Nat) : Table :=
  { Table.ofDecision (wheel n) 0 2 with
    startRow := some 0
    rows := #[
      { configs := { configs := #[Question.firstAlt 6 0, Question.firstAlt 7 1,
          Question.secondAlt 4], dipsOut := true }
        cells := [(2, .row 1)] },
      { configs := Question.wheelConfigs, cells := [(5, .row 2)] },
      { configs := { configs := #[Question.secondAlt 15], uniqueAlt := 2 }
        accepting := true
        prediction := 2 }] }

private def wheelCache (n : Nat) : Cache :=
  { Cache.new (wheel n) 100 0 with tables := #[wheelTable n] }

/-- The same after the token 2: the row that it leads to is one that is known already. -/
private def wheelCache' (n : Nat) : Cache :=
  { Cache.new (wheel n) 100 0 with
    tables := #[{ wheelTable n with
      rows := (wheelTable n).rows.modify 0 fun row =>
        { row with cells := [(2, .row 1), (3, .row 1)] } }] }

/-- A prediction that exceeds a ceiling in one session does so in every session with its cache. -/
private theorem predict_of_cache {settings : PredictionSettings} {host : Oracle} {fuel : Nat}
    {stream : TokenStream} {decision : Nat} {callers : List StateId} {cache : Cache}
    {e : Exceeded} (hhost : host.Steady) (hroom : e.resource ≠ .arenaNodes)
    (h : ((requestOn cache settings host fuel stream decision callers).attempt.from?
      { cache }).map (·.1) = some (.error (.exceeded e))) {s : Session} (hs : s.cache = cache) :
    (predict settings host fuel stream decision callers).Yields s
      fun result _ => result = .error (.exceeded e) := by
  obtain ⟨⟨result, t⟩, hrun, rfl⟩ := Option.map_eq_some_iff.mp h
  have halike : Session.Alike host { cache } (s.called decision) :=
    ⟨by rw [← hs]; rfl, by rw [← hs]; rfl, hhost.agrees _ _⟩
  obtain ⟨-, t', hrun', -⟩ := Request.attempt_local _ _ _ halike _ _ hrun
  obtain ⟨s', hpredict⟩ := predict_of_attempt (hs.symm ▸ hrun') fun e' he' => by
    obtain rfl : .exceeded e = e' := Except.error.inj he'
    simpa [PredictionError.isFullGraph] using hroom
  exact .of_eq hpredict rfl

private abbrev wheelRequest (cache : Cache) : Request :=
  requestOn cache {} .permissive 300000 (.ofTypes [2, 3]) 0 []

set_option maxRecDepth 10000 in
private theorem wheel_earlier (n : Nat) :
    ((predict {} .permissive 300000 (.ofTypes [1, 4]) 0 []).from?
      (.new (.new (wheel n) 100 0))).map (fun x => (x.1, x.2.cache)) =
        some (.ok 2, wheelCache n) := by
  cbv

set_option maxRecDepth 10000 in
private theorem attempt_new (n : Nat) :
    ((wheelRequest (.new (wheel n) 100 0)).attempt.from?
      { cache := .new (wheel n) 100 0 }).map (·.1) = some (.error (.exceeded (.tooLong 0))) := by
  cbv

set_option maxRecDepth 10000 in
private theorem attempt_used (hn : Limits.configsPerSet < n) (hfuel : n ≤ 299995) :
    ((wheelRequest (wheelCache n)).attempt.from? { cache := wheelCache n }).map (·.1) =
      some (.error (.exceeded (.tooMany Limits.configsPerSet))) := by
  let stream := TokenStream.ofTypes [2, 3]
  -- What is small is computed: the start, the first round, the second symbol and the row it meets.
  have hstart : (wheelRequest (wheelCache n)).startPlace.from? { cache := wheelCache n } =
      some (.ok (.row 0), { cache := wheelCache n }) := by cbv
  have hround : ((wheelRequest (wheelCache n)).step ⟨.row 0, stream, 0⟩).from?
      { cache := wheelCache n } =
        some (.ok (.inl ⟨.row 1, stream.consume, 1⟩), { cache := wheelCache' n }) := by cbv
  have hahead : stream.consume.lookAhead 1 = 3 := by cbv
  have hcell : ((wheelCache' n).table 0).cell? (.row 1) 3 = none := by cbv
  have hrow : (((wheelCache' n).table 0).row (.row 1)).configs = Question.wheelConfigs := by cbv
  -- Closing over the spokes is not computed but known for every number of them.
  have hreach : ((wheelRequest (wheelCache n)).reach 3 false Question.wheelConfigs).from?
      { graph := (wheelCache' n).graph } =
        some (.error (.tooMany Limits.configsPerSet), Question.shallow) :=
    Question.reach_wheel hn hfuel
  obtain ⟨s, hlast⟩ := Request.step_of_exceeded (r := wheelRequest (wheelCache n))
    (p := ⟨.row 1, stream.consume, 1⟩) (s := { cache := wheelCache' n })
    (show 1 + 1 ≤ ({} : PredictionSettings).maxLookahead by decide) rfl (hahead ▸ hcell)
    (by rw [hahead]; exact hrow ▸ hreach)
  have hdecision : ¬(wheelCache n).tables.size ≤ (wheelRequest (wheelCache n)).decision :=
    Nat.not_le.mpr Nat.one_pos
  have hfuel : (wheelRequest (wheelCache n)).fuel = 299998 + 1 + 1 := rfl
  refine Option.map_eq_some_iff.mpr ⟨(_, s), ?_, rfl⟩
  unfold Request.attempt
  refine (Run.from?_bind_of_ok (a := { cache := wheelCache n }) rfl).trans ?_
  dsimp only
  rw [if_neg hdecision, hfuel]
  exact (Run.from?_bind_of_ok hstart).trans
    ((Run.from?_loop_of_round hround).trans (Run.from?_loop_of_error hlast))

/-- **A history shows where it spares nodes,** and where a symbol is beyond two ceilings. In the
first network a prediction succeeds after an earlier one, and a new cache with the same ceilings has
too few nodes. In the second one it meets the ceiling of sets after an earlier one, and that of
stacks on a new cache. -/
theorem histories_show :
    ((sparing.check = .ok () ∧ sparing.isLexer = false ∧ sparing.NoReentry) ∧
      ((predict {} .permissive 200 (.ofTypes [1, 3, 3]) 0 []).Yields (.new (.new sparing 6 100))
        fun _ warm => (predict {} .permissive 200 (.ofTypes [2, 3, 3]) 0 []).Yields warm
          fun result _ => result = .ok 2) ∧
      (predict {} .permissive 200 (.ofTypes [2, 3, 3]) 0 []).Yields (.new (.new sparing 6 100))
        fun result _ => result = .error (.exceeded ⟨.arenaNodes, 6, 7⟩)) ∧
    ((wheel 200001).check = .ok () ∧ (wheel 200001).isLexer = false ∧ (wheel 200001).NoReentry) ∧
      ((predict {} .permissive 300000 (.ofTypes [1, 4]) 0 []).Yields
        (.new (.new (wheel 200001) 100 0))
        fun _ warm => (predict {} .permissive 300000 (.ofTypes [2, 3]) 0 []).Yields warm
          fun result _ => result = .error (.exceeded (.tooMany Limits.configsPerSet))) ∧
      (predict {} .permissive 300000 (.ofTypes [2, 3]) 0 []).Yields
        (.new (.new (wheel 200001) 100 0))
        fun result _ => result = .error (.exceeded (.tooLong 0)) := by
  refine ⟨?_, ⟨wheel_check _, rfl, wheel_noReentry _⟩, ?_⟩
  · obtain ⟨earlier, warm, hearlier, -, hspared, hfails⟩ := exists_spared
    exact ⟨⟨sparing_check, rfl, sparing_noReentry⟩, .of_eq hearlier hspared, hfails⟩
  · generalize hn : 200001 = n
    constructor
    · obtain ⟨⟨earlier, warm⟩, hearlier, heq⟩ := Option.map_eq_some_iff.mp (wheel_earlier n)
      exact .of_eq hearlier (predict_of_cache (Oracle.steady_coe _) (by decide)
        (attempt_used (hn ▸ by decide) (hn ▸ by decide)) (Prod.mk.inj heq).2)
    · exact predict_of_cache (Oracle.steady_coe _) (by decide) (attempt_new n) rfl

end Session

end AdaptiveLL
