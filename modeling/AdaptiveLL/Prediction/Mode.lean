import AdaptiveLL.Text

/-!
# Prediction modes

How far a prediction goes when it meets a conflict.
-/

namespace AdaptiveLL

/-- How far a prediction goes when it meets a conflict, in ascending order. -/
inductive PredictionMode where
  /-- Settle every conflict for its least alternative, without the call stack. -/
  | sll
  /-- Try again with the call stack, up to where all conflicts settle for one alternative. -/
  | ll
  /-- Like `ll`, but go on until the conflict is a true ambiguity. -/
  | exact
deriving DecidableEq, Inhabited, Ord

namespace PredictionMode

/-- The name of the mode. -/
def label : PredictionMode → String
  | sll => "sll"
  | ll => "ll"
  | exact => "ll_exact_ambig_detection"

/-- The mode with a name. -/
def ofLabel? : String → Option PredictionMode
  | "sll" => some sll
  | "ll" => some ll
  | "ll_exact_ambig_detection" => some exact
  | _ => none

/-- **The mode that a person means,** who may put blanks around it, write capitals, and use hyphens
or a shorter name for the last one. -/
def ofText? (s : String) : Option PredictionMode :=
  match Text.lower (Text.trim s) with
  | "sll" => some sll
  | "ll" => some ll
  | "ll_exact_ambig_detection" | "ll-exact-ambig-detection" | "exact" => some exact
  | _ => none

instance : ToString PredictionMode := ⟨label⟩

end PredictionMode

end AdaptiveLL
