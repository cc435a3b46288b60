import AdaptiveLL.Proofs.Prediction.Deeds
import AdaptiveLL.Proofs.Prediction.Parts

/-!
# The fuel of predictions

More fuel changes no prediction that ends: fuel only decides whether a loop gives up. So what is
shown of predictions with fuel enough holds of every prediction that gives an answer.
-/

namespace AdaptiveLL

namespace Question

/-- The question with other fuel. -/
def fueled (q : Question) (fuel : Nat) : Question := { q with fuel := fuel }

variable {q : Question} {fuel : Nat}

theorem closure_within (h : q.fuel ≤ fuel) (m : Manner) (collect : Bool)
    (acc : ConfigSet × List VisitKey) (c : Config) :
    (q.closure m collect acc c).Within ((q.fueled fuel).closure m collect acc c) :=
  .loop (fun s => .of_eq (by cases s with | mk work _ _ _ => cases work <;> rfl)) h _

theorem startSet_within (h : q.fuel ≤ fuel) (full : Bool) (stack : StackId) :
    (q.startSet full stack).Within ((q.fueled fuel).startSet full stack) :=
  .bind (.foldlM (fun acc c => closure_within h _ _ acc c) _ _) fun _ => .refl _

theorem reach_within (h : q.fuel ≤ fuel) (v : Symbol) (full : Bool) (s : ConfigSet) :
    (q.reach v full s).Within ((q.fueled fuel).reach v full s) := by
  rw [reach_eq, reach_eq]
  refine .bind (.of_eq rfl) fun moved => .bind (.ite (.of_eq rfl) ?_) fun next => .of_eq rfl
  exact .bind (.foldlM (fun acc c => closure_within h _ _ acc c) _ _) fun _ => .refl _

end Question

namespace Prediction

theorem probe_within {α : Type} {q : Question} (fuel : Nat) {p p' : Probe α} (h : p.Within p') :
    Run.Within (probe q p) (probe (q.fueled fuel) p') := by
  intro s x hx
  rw [from?_probe] at hx ⊢
  obtain ⟨y, hy, hrest⟩ := Option.map_eq_some_iff.mp hx
  rw [h _ y hy]
  exact congrArg some hrest

end Prediction

namespace Request

/-- The request with other fuel. -/
def fueled (r : Request) (fuel : Nat) : Request :=
  { r with toQuestion := r.toQuestion.fueled fuel }

variable {r : Request} {fuel : Nat}

private theorem fueled_settings : (r.fueled fuel).settings = r.settings := rfl

theorem fullStep_within (h : r.fuel ≤ fuel) (p : FullPoint) :
    (r.fullStep p).Within ((r.fueled fuel).fullStep p) := by
  unfold fullStep
  refine .bind (.of_eq rfl) fun _ =>
    .bind (Prediction.probe_within _ (Question.reach_within h _ _ _)) fun next => ?_
  cases next with
  | none => exact .of_eq rfl
  | some configs => exact .of_eq rfl

private theorem partition_fueled (r : Request) (fuel : Nat) (cs : List Config) :
    (r.fueled fuel).partition cs = r.partition cs := by
  induction cs with
  | nil => rfl
  | cons c cs ih =>
    unfold partition
    rw [ih]
    rfl

theorem deadEnd_fueled (r : Request) (fuel : Nat) (s : ConfigSet) (stream : TokenStream) :
    (r.fueled fuel).deadEnd s stream = r.deadEnd s stream := by
  unfold deadEnd
  rw [partition_fueled]
  rfl

private theorem predictFull_within (h : r.fuel ≤ fuel) (start : ConfigSet) :
    (r.predictFull start).Within ((r.fueled fuel).predictFull start) := by
  unfold predictFull
  refine .bind (.loop (fullStep_within h) h _) fun next => ?_
  cases next with
  | inl dead => exact .of_eq (deadEnd_fueled ..).symm
  | inr e => exact .of_eq rfl

private theorem turn_within (h : r.fuel ≤ fuel) (row : Row) (stream : TokenStream)
    (passing : AltSet) :
    (r.turn row stream passing).Within ((r.fueled fuel).turn row stream passing) := by
  unfold turn
  split
  · exact .refl _
  · exact .bind (.of_eq rfl) fun _ => .bind (.of_eq rfl) fun _ => .bind (.of_eq rfl) fun stack =>
      .bind (Prediction.probe_within _ (Question.startSet_within h _ _)) (predictFull_within h)

private theorem escalate_within (h : r.fuel ≤ fuel) (row : Row) (stream : TokenStream) :
    (r.escalate row stream).Within ((r.fueled fuel).escalate row stream) := by
  rw [escalate_eq, escalate_eq]
  exact .bind (.of_eq rfl) (turn_within h row stream)

private theorem targetRow_within (h : r.fuel ≤ fuel) (s : ConfigSet) (v : Symbol) :
    (r.targetRow s v).Within ((r.fueled fuel).targetRow s v) := by
  rw [targetRow_eq, targetRow_eq]
  exact .bind (Prediction.probe_within _ (Question.reach_within h _ _ _)) fun next => .of_eq rfl

private theorem target_within (h : r.fuel ≤ fuel) (p : Place) (v : Symbol) :
    (r.target p v).Within ((r.fueled fuel).target p v) := by
  unfold target
  refine .bind (.of_eq rfl) fun t => .bind (targetRow_within h _ _) fun row => ?_
  cases row with
  | none => exact .of_eq rfl
  | some row => exact .of_eq rfl

theorem next_within (h : r.fuel ≤ fuel) (p : Place) (v : Symbol) :
    (r.next p v).Within ((r.fueled fuel).next p v) := by
  rw [next_eq, next_eq]
  refine .bind (.of_eq rfl) fun t => ?_
  rw [fueled_settings]
  cases (if r.settings.useCache then t.cell? p v else none) with
  | some c => exact .of_eq rfl
  | none => exact .bind (.of_eq rfl) fun _ => .bind (.of_eq rfl) fun _ => target_within h p v

theorem step_within (h : r.fuel ≤ fuel) (p : Point) :
    (r.step p).Within ((r.fueled fuel).step p) := by
  rw [step_eq, step_eq]
  refine .bind (.of_eq rfl) fun _ => .bind (next_within h _ _) fun next => ?_
  cases next with
  | none =>
    exact .bind (.of_eq rfl) fun _ => .bind (.of_eq rfl) fun t =>
      .map (.of_eq (deadEnd_fueled ..).symm)
  | some place =>
    refine .bind (.of_eq rfl) fun t => .ite ?_ (.of_eq rfl)
    exact .bind (.of_eq rfl) fun _ => .map (escalate_within h _ _)

theorem startPlace_within (h : r.fuel ≤ fuel) :
    r.startPlace.Within (r.fueled fuel).startPlace := by
  unfold startPlace
  refine .bind (.of_eq rfl) fun t => ?_
  rw [fueled_settings]
  cases (if r.settings.useCache then t.startRow else none) with
  | some n => exact .of_eq rfl
  | none =>
    exact .bind (Prediction.probe_within _ (Question.startSet_within h _ _)) fun _ => .of_eq rfl

/-- **More fuel changes no attempt that ends.** -/
theorem attempt_within (h : r.fuel ≤ fuel) : r.attempt.Within (r.fueled fuel).attempt := by
  have hrest := (startPlace_within h).bind fun place => Run.Within.loop (step_within h) h
    (⟨place, r.stream, 0⟩ : Point)
  unfold attempt
  exact .bind (.of_eq rfl) fun s => .ite (.bind (.of_eq rfl) fun _ => hrest) hrest

end Request

namespace Session

/-- **More fuel changes no prediction that ends.** -/
theorem predict_within {settings : PredictionSettings} {host : Oracle} {fuel fuel' : Nat}
    (h : fuel ≤ fuel') (stream : TokenStream) (decision : Nat) (callers : List StateId) :
    (predict settings host fuel stream decision callers).Within
      (predict settings host fuel' stream decision callers) := by
  unfold predict
  refine .bind (.refl _) fun _ => .bind (.refl _) fun s => .bind (.refl _) fun s' => ?_
  have hattempt : (s.request settings host fuel stream decision callers).attempt.Within
      (s.request settings host fuel' stream decision callers).attempt :=
    Request.attempt_within (r := s.request settings host fuel stream decision callers) h
  refine .bind (.outcome hattempt) fun first => ?_
  cases first with
  | ok alt => exact .refl _
  | error e =>
    exact .ite (.bind (.refl _) fun _ => .bind (.outcome hattempt) fun _ => .refl _) (.refl _)

end Session

end AdaptiveLL
