import AdaptiveLL.Host

/-!
# Guards

A guard is the condition under which a path through the automaton may be taken: predicates and
precedence tests of the host under conjunction and disjunction. `Guard.and` and `Guard.or` keep
guards *normalized* — operands flattened, sorted, without repetition, and with at most one
precedence test — so that guards built from the same parts are equal.

A host answers a precedence test by a threshold, so of several tests in a conjunction the lowest
level decides, and of several in a disjunction the highest.
-/

namespace AdaptiveLL

/-- A condition on the host. -/
inductive Guard where
  /-- No condition. -/
  | always
  | predicate (rule pred : Nat) (contextual : Bool)
  /-- The level is high enough to continue the current rule. -/
  | precedence (level : Int)
  | all (operands : List Guard)
  | any (operands : List Guard)
deriving Inhabited

namespace Guard

/-- Whether the guard is no condition. -/
def isAlways : Guard → Bool
  | always => true
  | _ => false

/-! ## Order

Guards are ordered by kind, in the order of declaration, then by their parts from left to right;
a list of operands comes before the lists it begins. -/

/-- The place of the guard's kind in the order of kinds. -/
def kindRank : Guard → Nat
  | always => 0
  | predicate .. => 1
  | precedence _ => 2
  | all _ => 3
  | any _ => 4

mutual

/-- The order of guards. -/
def compare : Guard → Guard → Ordering
  | always, always => .eq
  | predicate r p c, predicate r' p' c' =>
    ((Ord.compare r r').then (Ord.compare p p')).then (Ord.compare c c')
  | precedence n, precedence n' => Ord.compare n n'
  | all as, all bs => compareLists as bs
  | any as, any bs => compareLists as bs
  | a, b => Ord.compare a.kindRank b.kindRank

/-- The order of lists of operands. -/
def compareLists : List Guard → List Guard → Ordering
  | [], [] => .eq
  | [], _ :: _ => .lt
  | _ :: _, [] => .gt
  | a :: as, b :: bs => (compare a b).then (compareLists as bs)

end

mutual

/-- Guards that compare equal are equal. -/
theorem eq_of_compare : ∀ (a b : Guard), compare a b = .eq → a = b
  | always, b, h => by cases b <;> simp_all [compare, kindRank]
  | predicate .., b, h => by
    cases b <;> simp_all [compare, kindRank, Ordering.then_eq_eq]
  | precedence _, b, h => by cases b <;> simp_all [compare, kindRank]
  | all as, b, h => by
    cases b with
    | all bs => rw [eq_of_compareLists as bs (by simpa [compare] using h)]
    | _ => simp [compare, kindRank] at h
  | any as, b, h => by
    cases b with
    | any bs => rw [eq_of_compareLists as bs (by simpa [compare] using h)]
    | _ => simp [compare, kindRank] at h

/-- Lists of operands that compare equal are equal. -/
theorem eq_of_compareLists : ∀ (as bs : List Guard), compareLists as bs = .eq → as = bs
  | [], bs, h => by cases bs <;> simp_all [compareLists]
  | a :: as, [], h => by simp [compareLists] at h
  | a :: as, b :: bs, h => by
    simp only [compareLists, Ordering.then_eq_eq] at h
    rw [eq_of_compare a b h.1, eq_of_compareLists as bs h.2]

end

mutual

/-- A guard compares equal to itself. -/
theorem compare_self : ∀ a : Guard, compare a a = .eq
  | always => rfl
  | predicate .. => by simp [compare]
  | precedence _ => by simp [compare]
  | all as => by simp [compare, compareLists_self as]
  | any as => by simp [compare, compareLists_self as]

/-- A list of operands compares equal to itself. -/
theorem compareLists_self : ∀ as : List Guard, compareLists as as = .eq
  | [] => rfl
  | a :: as => by simp [compareLists, compare_self a, compareLists_self as]

end

/-- The order tells exactly the different guards apart. -/
theorem compare_eq_iff {a b : Guard} : compare a b = .eq ↔ a = b :=
  ⟨eq_of_compare a b, fun h => h ▸ compare_self a⟩

instance : DecidableEq Guard := fun _ _ => decidable_of_iff _ compare_eq_iff

/-- Puts a guard into an ascending list, unless it is there already. -/
def place (g : Guard) : List Guard → List Guard
  | [] => [g]
  | h :: rest =>
    match compare g h with
    | .lt => g :: h :: rest
    | .eq => h :: rest
    | .gt => h :: place g rest

/-! ## Conjunction and disjunction -/

/-- The conjuncts of a guard. -/
def conjuncts : Guard → List Guard
  | all operands => operands
  | g => [g]

/-- The disjuncts of a guard. -/
def disjuncts : Guard → List Guard
  | any operands => operands
  | g => [g]

/-- The level of a precedence test. -/
def level? : Guard → Option Int
  | precedence n => some n
  | _ => none

/-- The operands in order, without repetition, the precedence tests among them reduced to the one
that `pick` chooses. -/
def collect (pick : List Int → Option Int) (operands : List Guard) : List Guard :=
  -- The precedence tests together amount to one of them, which alone is kept.
  let sorted := operands.foldl (fun acc g => place g acc) []
  match pick (sorted.filterMap level?) with
  | none => sorted
  | some level => place (precedence level) (sorted.filter fun g => g.level?.isNone)

/-- A connective over its operands; a single operand stands for itself. -/
def collapse (build : List Guard → Guard) : List Guard → Guard
  | [g] => g
  | operands => build operands

/-- **Conjunction.** -/
def and (a b : Guard) : Guard :=
  if a.isAlways then b
  else if b.isAlways then a
  else collapse all (collect List.min? (a.conjuncts ++ b.conjuncts))

/-- **Disjunction.** -/
def or (a b : Guard) : Guard :=
  if a.isAlways || b.isAlways then always
  else collapse any (collect List.max? (a.disjuncts ++ b.disjuncts))

/-! ## Evaluation

A conjunction is evaluated from left to right up to the first operand that fails, a disjunction up
to the first that holds; the operands after it are not put to the host. -/

mutual

/-- Whether the guard holds with the input at a position. -/
def holds (host : Host) (position : Nat) : Guard → Bool
  | always => true
  | predicate rule pred _ => host.predicate rule pred position
  | precedence level => host.precedence level
  | all operands => allHold host position operands
  | any operands => anyHolds host position operands

/-- Whether every operand holds. -/
def allHold (host : Host) (position : Nat) : List Guard → Bool
  | [] => true
  | g :: rest => holds host position g && allHold host position rest

/-- Whether some operand holds. -/
def anyHolds (host : Host) (position : Nat) : List Guard → Bool
  | [] => false
  | g :: rest => holds host position g || anyHolds host position rest

end

mutual

/-- The questions that evaluating the guard puts to the host, in order. -/
def asked (host : Host) (position : Nat) : Guard → List Callback
  | always => []
  | predicate rule pred _ => [.predicate rule pred position]
  | precedence level => [.precedence level]
  | all operands => askedUntilFalse host position operands
  | any operands => askedUntilTrue host position operands

/-- The questions put until an operand fails. -/
def askedUntilFalse (host : Host) (position : Nat) : List Guard → List Callback
  | [] => []
  | g :: rest =>
    asked host position g ++
      if holds host position g then askedUntilFalse host position rest else []

/-- The questions put until an operand holds. -/
def askedUntilTrue (host : Host) (position : Nat) : List Guard → List Callback
  | [] => []
  | g :: rest =>
    asked host position g ++
      if holds host position g then [] else askedUntilTrue host position rest

end

/-! ### Under way

While a guard is evaluated the answers of the host may change: each question is put after those that
were put before it. -/

mutual

/-- Puts the guard to the host after the callbacks `past`: whether it holds, and the questions it
takes. -/
def put (o : Oracle) (position : Nat) (past : List Callback) : Guard → Bool × List Callback
  | always => (true, [])
  | predicate rule pred _ =>
    ((o.after past).predicate rule pred position, [.predicate rule pred position])
  | precedence level => ((o.after past).precedence level, [.precedence level])
  | all operands => putAll o position past operands
  | any operands => putAny o position past operands

/-- Puts operands to the host until one fails. -/
def putAll (o : Oracle) (position : Nat) (past : List Callback) :
    List Guard → Bool × List Callback
  | [] => (true, [])
  | g :: rest =>
    let (holds, asked) := put o position past g
    if holds then
      let (hold, more) := putAll o position (past ++ asked) rest
      (hold, asked ++ more)
    else (false, asked)

/-- Puts operands to the host until one holds. -/
def putAny (o : Oracle) (position : Nat) (past : List Callback) :
    List Guard → Bool × List Callback
  | [] => (false, [])
  | g :: rest =>
    let (holds, asked) := put o position past g
    if holds then (true, asked)
    else
      let (hold, more) := putAny o position (past ++ asked) rest
      (hold, asked ++ more)

end

/-! ## Printing -/

mutual

/-- The guard as diagnostics show it. -/
def render : Guard → String
  | always => "true"
  | predicate rule pred _ => "\x7b" ++ toString rule ++ ":" ++ toString pred ++ "\x7d?"
  | precedence level => "\x7b" ++ toString level ++ ">=prec\x7d?"
  | all operands => "&&".intercalate (renderAll operands)
  | any operands => "||".intercalate (renderAll operands)

/-- The operands, each as diagnostics show it. -/
def renderAll : List Guard → List String
  | [] => []
  | g :: rest => render g :: renderAll rest

end

instance : ToString Guard := ⟨render⟩

end Guard

end AdaptiveLL
