import AdaptiveLL.Proofs.Config.Insertion
import AdaptiveLL.Proofs.Ensures
import AdaptiveLL.Proofs.Lookups.Stacks

/-!
# Full graphs

Nodes run out only when the graph of stacks is full: whatever grows a graph and fails for want of
nodes leaves a graph that has as many of them as it may have.
-/

namespace AdaptiveLL

open Run (FailsWith)

/-- **Nodes run out only in a full graph.** -/
def Exceeded.Fills (e : Exceeded) (g : StackGraph) : Prop :=
  e.resource = .arenaNodes → g.capacity ≤ g.size

namespace Growing

variable {α : Type} {m : Growing α} {P : Exceeded → StackGraph → Prop}

theorem failsWith_iff :
    FailsWith m.toRun P ↔ ∀ g e g', m.run g = .error e g' → P e g' := by
  constructor
  · intro h g e g' hrun
    refine h g (.error e) g' ?_ e rfl
    rw [toRun, Run.from?_ofStep, hrun]
  · intro h g r g' hrun e he
    rw [toRun, Run.from?_ofStep] at hrun
    cases hm : m.run g with
    | ok a g₁ =>
      rw [hm] at hrun
      obtain ⟨rfl, -⟩ := Prod.mk.inj (Option.some.inj hrun)
      cases he
    | error e₁ g₁ =>
      rw [hm] at hrun
      obtain ⟨rfl, rfl⟩ := Prod.mk.inj (Option.some.inj hrun)
      exact h g e g₁ (Except.error.inj he ▸ hm)

end Growing

namespace StackGraph

private theorem intern_fills (fs : List Frame) : FailsWith (intern fs).toRun Exceeded.Fills := by
  refine Growing.failsWith_iff.mpr fun g e g' hrun => ?_
  have hintern := intern_interned g fs
  rw [hrun] at hintern
  cases hintern with
  | tooDeep => exact nofun
  | full _ _ hfull => exact fun _ => hfull

theorem push_fills (parent : StackId) (ret : Nat) :
    FailsWith (push parent ret).toRun Exceeded.Fills :=
  intern_fills _

/-! ## Merging -/

variable {merge' : StackId → StackId → Growing StackId}

private theorem mergeInto_fills (hmerge : ∀ a b, FailsWith (merge' a b).toRun Exceeded.Fills)
    (l : Frame) (ls : List Frame) {others : List Frame → Growing (List Frame)}
    (hothers : ∀ rs, FailsWith (others rs).toRun Exceeded.Fills) (rs : List Frame) :
    FailsWith (mergeInto merge' l ls others rs).toRun Exceeded.Fills := by
  induction rs with
  | nil => exact .pure
  | cons r rs ih =>
    by_cases hret : l.ret = r.ret
    · rw [mergeInto_of_ret_eq hret, Growing.toRun_bind]
      refine .bind ?_ fun p => ?_
      · split
        · exact .pure
        · exact hmerge _ _
      · rw [Growing.toRun_bind]
        exact (hothers rs).bind fun _ => .pure
    rw [mergeInto, if_neg hret]
    split
    · rw [Growing.toRun_bind]
      exact (hothers _).bind fun _ => .pure
    · rw [Growing.toRun_bind]
      exact ih.bind fun _ => .pure

private theorem mergeFrames_fills (hmerge : ∀ a b, FailsWith (merge' a b).toRun Exceeded.Fills)
    (fs fs' : List Frame) : FailsWith (mergeFrames merge' fs fs').toRun Exceeded.Fills := by
  induction fs generalizing fs' with
  | nil => exact .pure
  | cons l ls ih => exact mergeInto_fills hmerge l ls ih fs'

private theorem mergeWithin_fills (wild : Bool) (fuel : Nat) (a b : StackId) :
    FailsWith (mergeWithin wild fuel a b).toRun Exceeded.Fills := by
  induction fuel generalizing a b with
  | zero => exact .pure
  | succ fuel ih =>
    unfold mergeWithin
    split
    · exact .pure
    · split
      · exact .pure
      · rw [Growing.toRun_get_bind]
        refine .get_bind fun g => ?_
        rw [Growing.toRun_bind]
        exact (mergeFrames_fills ih _ _).bind fun fs => intern_fills fs

theorem merge_fills (a b : StackId) (wild : Bool) :
    FailsWith (merge a b wild).toRun Exceeded.Fills :=
  mergeWithin_fills wild _ a b

end StackGraph

/-! ## Sets and probes -/

theorem ConfigSet.insert_fills (s : ConfigSet) (c : Config) :
    FailsWith (s.insert c).toRun Exceeded.Fills := by
  refine Growing.failsWith_iff.mpr fun g e g' hrun => ?_
  rw [insert_run] at hrun
  split at hrun
  · split at hrun
    · cases hrun
    · split at hrun
      · cases hrun
      · next hmerge =>
        obtain ⟨rfl, rfl⟩ := EStateM.Result.error.inj hrun
        exact Growing.failsWith_iff.mp (StackGraph.merge_fills _ _ _) _ _ _ hmerge
  · split at hrun
    · obtain ⟨rfl, -⟩ := EStateM.Result.error.inj hrun
      exact nofun
    · cases hrun

/-- **A probe that runs out of nodes** leaves a full graph. -/
def Probe.Fills {α : Type} (m : Probe α) : Prop := FailsWith m fun e t => e.Fills t.graph

theorem Probe.grow_fills {α : Type} {m : Growing α} (h : FailsWith m.toRun Exceeded.Fills) :
    (Probe.grow m).Fills := by
  unfold Fills
  rw [Probe.grow_eq]
  exact h.zoom fun _ _ _ he => he

end AdaptiveLL
