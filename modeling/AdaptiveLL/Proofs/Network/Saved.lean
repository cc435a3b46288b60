import AdaptiveLL.Grammar.Compile
import AdaptiveLL.Network.Check
import AdaptiveLL.Proofs.Json.Decoding
import AdaptiveLL.Proofs.Json.Reading

/-!
# Saved networks

A network is saved as a document and loaded again. What the decoder makes of an encoded part is that
part: spans, sets, transitions, states and commands come back as they were, so the network does. The
numbers of a network are those of a machine, and its commands must not be nested deeper than a
document may be.
-/

namespace AdaptiveLL

open Json

/-! ## Numbers of a machine -/

/-- A number as a table is counted with: of 64 bits. -/
def Countable (n : Nat) : Prop := n ≤ Numeral.maxWord

/-- A number as symbols and levels are: of 32 bits, with a sign. -/
def Small (n : Int) : Prop := Numeral.fitsInt32 n = true

theorem Small.isWord {n : Int} (h : Small n) : isWord n = true := isWord_of_fitsInt32 h

theorem Small.decoded {n : Int} (h : Small n) : Decoder.int32 (.int n) = some n :=
  Decoder.int32_int h

/-- The numbers of the span are those of a machine. -/
structure Span.Storable (s : Span) : Prop where
  start : Small s.start
  stop : Small s.stop

def SymbolSet.Storable (s : SymbolSet) : Prop := ∀ p ∈ s.spans, p.Storable

/-- The numbers of the transition are those of a machine. -/
def Transition.Storable : Transition → Prop
  | epsilon t | wildcard t => Countable t
  | atom t label => Countable t ∧ Small label
  | range t start stop => Countable t ∧ Small start ∧ Small stop
  | set t s | notSet t s => Countable t ∧ s.Storable
  | rule t callee follow level => Countable t ∧ Countable callee ∧ Countable follow ∧ Small level
  | predicate t owner pred _ => Countable t ∧ Countable owner ∧ Countable pred
  | precedence t level => Countable t ∧ Small level
  | action t owner number _ => Countable t ∧ Countable owner ∧ Countable number

/-- The numbers of the state are those of a machine. -/
structure State.Storable (s : State) : Prop where
  index : Countable s.index
  rule : Countable s.rule
  transitions : ∀ t ∈ s.transitions, t.Storable
  decision : ∀ d ∈ s.decision, Countable d
  partner : ∀ p ∈ s.partner, Countable p

/-- The numbers of the command are those of a machine. -/
def Command.Storable : Command → Prop
  | .setChannel channel => Small channel
  | .custom rule action => Countable rule ∧ Countable action
  | .setMode mode | .pushMode mode => Countable mode
  | .setType type => Small type
  | .more | .popMode | .skip => True
  | .pinned offset command => Countable offset ∧ command.Storable

/-- **What a network is made of can be stored:** its numbers are those of a machine, and its
commands are nested no deeper than a document may be. -/
structure Network.Storable (net : Network) : Prop where
  maxTokenType : Small net.maxTokenType
  states : ∀ s ∈ net.states, s.Storable
  decisions : ∀ s ∈ net.decisions, Countable s
  ruleStarts : ∀ s ∈ net.ruleStarts, Countable s
  ruleStops : ∀ s ∈ net.ruleStops, Countable s
  ruleTokenTypes : ∀ v ∈ net.ruleTokenTypes, Small v
  modeStarts : ∀ s ∈ net.modeStarts, Countable s
  commands : ∀ c ∈ net.commands, c.Storable
  nested : ∀ c ∈ net.commands, c.toJson.height + 2 ≤ Network.maxNesting

/-! ## Deciding what can be stored -/

instance (n : Nat) : Decidable (Countable n) := inferInstanceAs (Decidable (n ≤ Numeral.maxWord))

instance (n : Int) : Decidable (Small n) := inferInstanceAs (Decidable (Numeral.fitsInt32 n = true))

instance (s : Span) : Decidable s.Storable :=
  decidable_of_iff (Small s.start ∧ Small s.stop) ⟨fun h => ⟨h.1, h.2⟩, fun h => ⟨h.1, h.2⟩⟩

instance (s : SymbolSet) : Decidable s.Storable :=
  inferInstanceAs (Decidable (∀ p ∈ s.spans, p.Storable))

instance : (t : Transition) → Decidable t.Storable
  | .epsilon t | .wildcard t => inferInstanceAs (Decidable (Countable t))
  | .atom t label => inferInstanceAs (Decidable (Countable t ∧ Small label))
  | .range t start stop => inferInstanceAs (Decidable (Countable t ∧ Small start ∧ Small stop))
  | .set t s | .notSet t s => inferInstanceAs (Decidable (Countable t ∧ s.Storable))
  | .rule t callee follow level =>
    inferInstanceAs (Decidable (Countable t ∧ Countable callee ∧ Countable follow ∧ Small level))
  | .predicate t owner pred _ =>
    inferInstanceAs (Decidable (Countable t ∧ Countable owner ∧ Countable pred))
  | .precedence t level => inferInstanceAs (Decidable (Countable t ∧ Small level))
  | .action t owner number _ =>
    inferInstanceAs (Decidable (Countable t ∧ Countable owner ∧ Countable number))

instance (s : State) : Decidable s.Storable :=
  decidable_of_iff (Countable s.index ∧ Countable s.rule ∧ (∀ t ∈ s.transitions, t.Storable) ∧
      (∀ d ∈ s.decision, Countable d) ∧ ∀ p ∈ s.partner, Countable p)
    ⟨fun ⟨h₁, h₂, h₃, h₄, h₅⟩ => ⟨h₁, h₂, h₃, h₄, h₅⟩,
      fun ⟨h₁, h₂, h₃, h₄, h₅⟩ => ⟨h₁, h₂, h₃, h₄, h₅⟩⟩

instance Command.decidableStorable : (c : Command) → Decidable c.Storable
  | .setChannel channel => inferInstanceAs (Decidable (Small channel))
  | .custom rule action => inferInstanceAs (Decidable (Countable rule ∧ Countable action))
  | .setMode mode | .pushMode mode => inferInstanceAs (Decidable (Countable mode))
  | .setType type => inferInstanceAs (Decidable (Small type))
  | .more | .popMode | .skip => inferInstanceAs (Decidable True)
  | .pinned offset command =>
    have := decidableStorable command
    inferInstanceAs (Decidable (Countable offset ∧ command.Storable))

instance (net : Network) : Decidable net.Storable :=
  decidable_of_iff (Small net.maxTokenType ∧ (∀ s ∈ net.states, s.Storable) ∧
      (∀ s ∈ net.decisions, Countable s) ∧ (∀ s ∈ net.ruleStarts, Countable s) ∧
      (∀ s ∈ net.ruleStops, Countable s) ∧ (∀ v ∈ net.ruleTokenTypes, Small v) ∧
      (∀ s ∈ net.modeStarts, Countable s) ∧ (∀ c ∈ net.commands, c.Storable) ∧
      ∀ c ∈ net.commands, c.toJson.height + 2 ≤ Network.maxNesting)
    ⟨fun ⟨h₁, h₂, h₃, h₄, h₅, h₆, h₇, h₈, h₉⟩ => ⟨h₁, h₂, h₃, h₄, h₅, h₆, h₇, h₈, h₉⟩,
      fun ⟨h₁, h₂, h₃, h₄, h₅, h₆, h₇, h₈, h₉⟩ => ⟨h₁, h₂, h₃, h₄, h₅, h₆, h₇, h₈, h₉⟩⟩

/-! ## Parts -/

theorem Span.isPlain_toJson {s : Span} (h : s.Storable) : s.toJson.isPlain = true := by
  simp [toJson, h.start.isWord, h.stop.isWord]

/-- **A span comes back.** -/
theorem Span.ofJson?_toJson {s : Span} (h : s.Storable) : Span.ofJson? s.toJson = some s := by
  unfold ofJson? toJson
  rw [structureMembers_inOrder (by rfl) (by decide)]
  simp [h.start.decoded, h.stop.decoded]

theorem SymbolSet.isPlain_toJson {s : SymbolSet} (h : s.Storable) : s.toJson.isPlain = true := by
  rw [toJson, Value.isPlain_listOf, List.all_eq_true]
  exact fun p hp => Span.isPlain_toJson (h p hp)

/-- **A set comes back,** span by span. -/
theorem SymbolSet.ofJson?_toJson {s : SymbolSet} (h : s.Storable) :
    SymbolSet.ofJson? s.toJson = some s := by
  unfold ofJson? toJson
  rw [Decoder.list_listOf fun p hp => Span.ofJson?_toJson (h p hp)]
  rfl

namespace Transition

variable {t : Transition}

theorem isPlain_toJson (h : t.Storable) : t.toJson.isPlain = true := by
  cases t <;> simp only [Storable, Countable] at h <;>
    simp [toJson, target, Small.isWord, SymbolSet.isPlain_toJson, h]

/-- The members of a transition but for its kind. -/
private def body (t : Transition) : List (String × Value) :=
  ("target", .nat t.target) ::
    match t with
    | epsilon _ | wildcard _ => []
    | atom _ label => [("label", .int label)]
    | range _ start stop => [("start", .int start), ("stop", .int stop)]
    | set _ s | notSet _ s => [("set", s.toJson)]
    | rule _ callee follow level =>
      [("rule_index", .nat callee), ("follow_state", .nat follow), ("precedence", .int level)]
    | predicate _ owner pred contextual =>
      [("rule_index", .nat owner), ("pred_index", .nat pred),
        ("is_ctx_dependent", .bool contextual)]
    | precedence _ level => [("precedence", .int level)]
    | action _ owner number contextual =>
      [("rule_index", .nat owner), ("action_index", .nat number),
        ("is_ctx_dependent", .bool contextual)]

private theorem toJson_eq (t : Transition) :
    t.toJson = .record (("kind", .text t.kind) :: t.body) := by
  cases t <;> rfl

private theorem nodup_names (t : Transition) :
    (memberNames (("kind", .text t.kind) :: t.body)).Nodup := by
  cases t <;> simp only [memberNames, body, List.map_cons, List.map_nil] <;> decide

/-- **A transition comes back,** whatever its kind. -/
theorem ofJson?_toJson (h : t.Storable) : ofJson? t.toJson = some t := by
  have hbody : structureMembers (memberNames t.body) (.record t.body) =
      some (t.body.map fun m => some m.2) :=
    structureMembers_inOrder rfl (List.nodup_cons.mp t.nodup_names).2
  unfold ofJson?
  rw [toJson_eq, taggedMembers_record t.nodup_names]
  cases t <;> simp only [Storable] at h <;>
    simp only [body, target, memberNames, List.map_cons, List.map_nil] at hbody ⊢ <;>
    simp only [kind, hbody, Option.pure_def, Option.bind_eq_bind, Option.bind_some, required_some,
      Decoder.nat_nat, Decoder.bool_bool, Small.decoded, SymbolSet.ofJson?_toJson, h]

/-- Transitions are nested three deep at most: with a set of spans. -/
theorem height_toJson_le (t : Transition) : t.toJson.height ≤ 3 := by
  have hset : ∀ s : SymbolSet, s.toJson.height ≤ 2 := fun s =>
    Value.height_listOf_le fun p _ => by simp [Span.toJson, Value.height, Value.heightOfMembers]
  cases t with
  | set target s =>
    have := hset s
    simp [toJson, Value.height, Value.heightOfMembers, Value.nat]
    omega
  | notSet target s =>
    have := hset s
    simp [toJson, Value.height, Value.heightOfMembers, Value.nat]
    omega
  | _ => simp [toJson, Value.height, Value.heightOfMembers, Value.nat]

end Transition

namespace StateKind

@[simp] theorem ofLabel?_label (k : StateKind) : ofLabel? k.label = some k := by
  cases k <;> decide

end StateKind

namespace GrammarKind

@[simp] theorem ofLabel?_label (k : GrammarKind) : ofLabel? k.label = some k := by
  cases k <;> decide

end GrammarKind

namespace State

variable {s : State}

theorem isPlain_toJson (h : s.Storable) : s.toJson.isPlain = true := by
  obtain ⟨hindex, hrule, htransitions, hdecision, hpartner⟩ := h
  have hlist : ∀ t ∈ s.transitions, t.toJson.isPlain = true :=
    fun t ht => Transition.isPlain_toJson (htransitions t ht)
  obtain ⟨index, kind, rule, transitions, decision, nonGreedy, partner⟩ := s
  unfold Countable at *
  cases decision <;> cases nonGreedy <;> cases partner <;>
    simp_all [toJson]

/-- **A state comes back,** with what it leaves out. -/
theorem ofJson?_toJson (h : s.Storable) {limit : Nat} (hlimit : 3 ≤ limit) :
    ofJson? limit s.toJson = some s := by
  have htransitions : Decoder.list (shallow limit Transition.ofJson?)
      (.listOf Transition.toJson s.transitions) = some s.transitions := by
    apply Decoder.list_listOf
    intro t ht
    rw [shallow, if_pos (Nat.le_trans t.height_toJson_le hlimit)]
    exact Transition.ofJson?_toJson (h.transitions t ht)
  obtain ⟨index, kind, rule, transitions, decision, nonGreedy, partner⟩ := s
  unfold ofJson? toJson
  -- Three members may be left out, so there are eight layouts of a state.
  cases decision <;> cases nonGreedy <;> cases partner <;>
    rw [structureMembers_record (by simp [memberNames])] <;>
    simp [List.lookup_cons, htransitions]

end State

namespace Command

variable {c : Command}

theorem isPlain_toJson (h : c.Storable) : c.toJson.isPlain = true := by
  induction c with
  | pinned offset command ih =>
    have hoffset : offset ≤ Numeral.maxWord := h.1
    simp [toJson, hoffset, ih h.2]
  | _ =>
    simp only [Storable, Countable] at h
    simp [toJson, Small.isWord, h]

private theorem height_pos (c : Command) : 0 < c.toJson.height := by
  cases c <;> exact Nat.succ_pos _

theorem ofJsonWithin_toJson (h : c.Storable) {depth : Nat} (hdepth : c.toJson.height ≤ depth) :
    ofJsonWithin depth c.toJson = some c := by
  -- A pinned command is nested one deeper than the command that it pins.
  induction c generalizing depth with
  | pinned offset command ih =>
    obtain ⟨depth, rfl⟩ :=
      Nat.exists_eq_succ_of_ne_zero (Nat.ne_of_gt (Nat.lt_of_lt_of_le (height_pos _) hdepth))
    have hinner : command.toJson.height ≤ depth := by
      simp [toJson, Value.height, Value.heightOfMembers, Value.nat] at hdepth
      omega
    rw [ofJsonWithin, toJson, taggedMembers_record (by simp [memberNames])]
    simp [structureMembers_record, memberNames, List.lookup_cons, ih h.2 hinner]
  | _ =>
    obtain ⟨depth, rfl⟩ :=
      Nat.exists_eq_succ_of_ne_zero (Nat.ne_of_gt (Nat.lt_of_lt_of_le (height_pos _) hdepth))
    simp only [Storable] at h
    rw [ofJsonWithin, toJson, taggedMembers_record (by simp [memberNames])]
    simp [structureMembers_record, memberNames, List.lookup_cons, Small.decoded, h]

/-- **A command comes back,** however deep it is nested. -/
theorem ofJson?_toJson (h : c.Storable) : ofJson? c.toJson = some c :=
  ofJsonWithin_toJson h (Nat.le_succ _)

end Command

namespace Network

variable {net : Network}

theorem isPlain_toJson (h : net.Storable) : net.toJson.isPlain = true := by
  have hstates : ∀ s ∈ net.states, s.toJson.isPlain = true :=
    fun s hs => State.isPlain_toJson (h.states s hs)
  have hcommands : ∀ c ∈ net.commands, c.toJson.isPlain = true :=
    fun c hc => Command.isPlain_toJson (h.commands c hc)
  have htypes : ∀ v ∈ net.ruleTokenTypes, isWord v = true :=
    fun v hv => (h.ruleTokenTypes v hv).isWord
  have hdecisions : ∀ s ∈ net.decisions, s ≤ Numeral.maxWord := h.decisions
  have hstarts : ∀ s ∈ net.ruleStarts, s ≤ Numeral.maxWord := h.ruleStarts
  have hstops : ∀ s ∈ net.ruleStops, s ≤ Numeral.maxWord := h.ruleStops
  have hmodes : ∀ s ∈ net.modeStarts, s ≤ Numeral.maxWord := h.modeStarts
  simp [toJson, h.maxTokenType.isWord]
  exact ⟨fun i _ => hstates _ (Array.getElem_mem _), fun i _ => hdecisions _ (Array.getElem_mem _),
    fun i _ => hstarts _ (Array.getElem_mem _), fun i _ => hstops _ (Array.getElem_mem _), htypes,
    hmodes, hcommands⟩

/-- **The document of a network is read as the network.** -/
theorem ofJson?_toJson (h : net.Storable) : ofJson? net.toJson = some net := by
  have hstates : Decoder.list (State.ofJson? (maxNesting - 4))
      (.listOf State.toJson net.states.toList) = some net.states.toList :=
    Decoder.list_listOf fun s hs =>
      State.ofJson?_toJson (h.states s (Array.mem_toList_iff.mp hs)) (by decide)
  have hcommands : Decoder.list shallowCommand (.listOf Command.toJson net.commands) =
      some net.commands := by
    apply Decoder.list_listOf
    intro c hc
    rw [shallowCommand, if_pos (h.nested c hc)]
    exact Command.ofJson?_toJson (h.commands c hc)
  have htypes : Decoder.list Decoder.int32 (.listOf .int net.ruleTokenTypes) =
      some net.ruleTokenTypes :=
    Decoder.list_listOf fun v hv => (h.ruleTokenTypes v hv).decoded
  have hnats : ∀ l : List Nat, Decoder.list Decoder.nat (.listOf .nat l) = some l :=
    fun l => Decoder.list_listOf fun n _ => Decoder.nat_nat n
  have htexts : ∀ l : List String, Decoder.list Decoder.text (.listOf .text l) = some l :=
    fun l => Decoder.list_listOf fun s _ => Decoder.text_text s
  unfold ofJson? toJson
  rw [structureMembers_inOrder (by rfl) (by decide), Option.bind_eq_bind, Option.bind_some]
  -- What is decoded does not depend on what was decoded before, so the binds need not be followed.
  simp only [List.map_cons, List.map_nil, required_some, defaulting_some, Decoder.name_text,
    Decoder.text_text, GrammarKind.ofLabel?_label, h.maxTokenType.decoded, hstates, hcommands,
    htypes, hnats, htexts]
  rfl

/-- **Saved networks load back unchanged.** Whatever fits together is read from either layout of its
document as it was: names of any characters, transitions of every kind, and commands nested as deep
as a document may be. -/
theorem saved_loads_back (hcheck : net.check = .ok ()) (h : net.Storable) :
    ofText? net.toJson.compact = .ok net ∧ ofText? net.toJson.pretty = .ok net := by
  obtain ⟨hcompact, hpretty⟩ := Value.parse?_written (isPlain_toJson h)
  constructor
  · rw [ofText?, hcompact, Option.bind_some, ofJson?_toJson h]
    simp [hcheck]
  · rw [ofText?, hpretty, Option.bind_some, ofJson?_toJson h]
    simp [hcheck]

end Network

/-- A lexer grammar with labels of every kind, and with names that have to be escaped:

    "word" : [a-z] 'x'..'z' ~[0-9\n] . {p}? {act} \part -> type(7) ;
    \part : ('.' | '-')? ; -/
def Grammar.labels : Grammar where
  kind := .lexer
  name := "labels\tand \x01\"escapes\" é"
  rules :=
    [⟨"\"word\"", .seq [.set ⟨[⟨97, 122⟩]⟩, .range 120 122, .notSet ⟨[⟨48, 57⟩, ⟨10, 10⟩]⟩,
        .wildcard, .predicate 0 false, .action 0, .ruleRef "\\part" 0, .command (.setType 7)],
        some 1, 0⟩,
      ⟨"\\part", .optional (.alt [.token 46, .token 45]) true, none, 0⟩]

namespace Network

/-- The network of the grammar, with a command more, which is pinned twice. -/
def labelsNet : Network :=
  let net := Grammar.labels.compile.toOption.getD default
  { net with commands := net.commands ++ [.pinned 3 (.pinned 1 (.custom 0 2))] }

theorem labelsNet_saved : 10 ≤ labelsNet.states.size ∧
    ofText? labelsNet.toJson.compact = .ok labelsNet ∧
      ofText? labelsNet.toJson.pretty = .ok labelsNet := by
  have hok : labelsNet.check.isOk = true := by decide +kernel
  have hcheck : labelsNet.check = .ok () := by
    cases h : labelsNet.check with
    | ok => rfl
    | error e =>
      rw [h] at hok
      cases hok
  exact ⟨by decide +kernel, saved_loads_back hcheck (by decide +kernel)⟩

end Network

end AdaptiveLL
