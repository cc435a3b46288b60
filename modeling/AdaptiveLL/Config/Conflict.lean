import AdaptiveLL.Config.Set
import AdaptiveLL.Prediction.Mode

/-!
# Conflicts

Configurations that agree on state and stacks follow the same paths from there on. If they speak
for several alternatives, no further symbol can tell these apart: they are in conflict. The sets
of alternatives found at each pair of state and stacks are the *subsets* of a configuration set.
-/

namespace AdaptiveLL

/-! ## Subsets -/

/-- Puts an alternative into the group of its key, in a list of groups that ascends by key. -/
def addToGroup {κ : Type} (compare : κ → κ → Ordering) (key : κ) (alt : Nat) :
    List (κ × AltSet) → List (κ × AltSet)
  | [] => [(key, AltSet.empty.insert alt)]
  | (k, alts) :: rest =>
    match compare key k with
    | .lt => (key, AltSet.empty.insert alt) :: (k, alts) :: rest
    | .eq => (k, alts.insert alt) :: rest
    | .gt => (k, alts) :: addToGroup compare key alt rest

namespace ConfigSet

/-- The alternatives of the configurations, grouped by a key, in ascending order of keys. -/
def groupAlts {κ : Type} (compare : κ → κ → Ordering) (key : Config → κ) (s : ConfigSet) :
    List (κ × AltSet) :=
  s.toList.foldl (fun groups c => addToGroup compare (key c) c.alt groups) []

/-- **The subsets:** the alternatives at each pair of a state and a set of stacks. -/
def subsets (s : ConfigSet) : List AltSet :=
  (s.groupAlts (fun a b => (compare a.1 b.1).then (compare a.2 b.2))
    fun c => (c.state, c.stack)).map Prod.snd

/-- The alternatives at each state, whatever the stacks. -/
def stateAlts (s : ConfigSet) : List (StateId × AltSet) := s.groupAlts compare Config.state

/-- Whether some state is reached for one alternative alone. -/
def hasStateOfOneAlt (s : ConfigSet) : Bool := s.stateAlts.any fun g => g.2.size == 1

/-- The alternative that all configurations speak for. -/
def commonAlt (s : ConfigSet) : Nat :=
  match s.toList with
  | [] => noAlternative
  | c :: rest => if rest.all (·.alt == c.alt) then c.alt else noAlternative

end ConfigSet

namespace Subsets

/-- Whether some subset has several alternatives. -/
def someConflict (subsets : List AltSet) : Bool := subsets.any fun s => decide (1 < s.size)

/-- Whether some subset has exactly one alternative. -/
def someAgree (subsets : List AltSet) : Bool := subsets.any fun s => s.size == 1

/-- Whether no subset has exactly one alternative. -/
def allConflict (subsets : List AltSet) : Bool := !someAgree subsets

/-- Whether all subsets are equal. -/
def allEqual : List AltSet → Bool
  | [] => true
  | s :: rest => rest.all (· == s)

/-- The alternatives of all subsets together. -/
def alts (subsets : List AltSet) : AltSet := subsets.foldl AltSet.union .empty

/-- The only alternative there is. -/
def uniqueAlt (subsets : List AltSet) : Nat :=
  match (alts subsets).toList with
  | [a] => a
  | _ => noAlternative

/-- **The alternative that every subset settles for,** which is its least. -/
def settled (subsets : List AltSet) : Nat :=
  match (AltSet.ofList (subsets.filterMap AltSet.min?)).toList with
  | [a] => a
  | _ => noAlternative

end Subsets

/-! ## When to stop -/

namespace ConfigSet

/-- Whether every configuration stands at the end of a rule. -/
def allAtRuleStop (net : Network) (s : ConfigSet) : Bool :=
  s.configs.all fun c => (net.state c.state).isRuleStop

/-- Whether some configuration stands at the end of a rule. -/
def someAtRuleStop (net : Network) (s : ConfigSet) : Bool :=
  s.configs.any fun c => (net.state c.state).isRuleStop

/-- The set with the guards taken off its configurations. -/
def withoutGuards (s : ConfigSet) : Growing ConfigSet :=
  s.toList.foldlM (fun acc c => acc.insert { c with guard := .always })
    (forParser s.fullContext)

/-- Whether some alternatives are in conflict and no state speaks for one of them alone. -/
def isStuck (s : ConfigSet) : Bool :=
  Subsets.someConflict s.subsets && !s.hasStateOfOneAlt

/-- **Whether a prediction without the call stack stops here:** every thread has finished the rule,
or the alternatives are in conflict. Without recourse to the call stack the guards do not count,
since they are not used to settle a conflict. -/
def endsPrediction (mode : PredictionMode) (net : Network) (s : ConfigSet) : Growing Bool := do
  if s.allAtRuleStop net then pure true
  else if mode = .sll ∧ s.hasGuards then do
    -- Configurations that differ in their guards alone fall together.
    let bare ← s.withoutGuards
    pure bare.isStuck
  else pure s.isStuck

end ConfigSet

end AdaptiveLL
