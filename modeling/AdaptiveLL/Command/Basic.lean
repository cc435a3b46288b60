import AdaptiveLL.Json.Decode
import AdaptiveLL.Json.Writer

/-!
# Lexer commands

What a token rule may order when its token is committed: the built-in commands on the state of the
lexer, and custom actions of the host. A custom action may look at the input, so it has to run
where it stood in the rule; pinning records that place as an offset from the token's start.
-/

namespace AdaptiveLL

/-- A command of a token rule. -/
inductive Command where
  | setChannel (channel : Int)
  | custom (rule action : Nat)
  | setMode (mode : Nat)
  | more
  | popMode
  | pushMode (mode : Nat)
  | skip
  | setType (type : Int)
  /-- The command, to be run `offset` characters after the token's start. -/
  | pinned (offset : Nat) (command : Command)
deriving DecidableEq, Hashable, Inhabited

namespace Command

/-- Whether the command is pinned to a place. -/
def isPinned : Command → Bool
  | pinned .. => true
  | _ => false

/-- Whether the effect of the command depends on where the input stands. -/
def isPositionDependent : Command → Bool
  | custom .. => true
  | pinned .. => true
  | _ => false

/-- The kind of the command; of a pinned command, that of the command inside. -/
def kind : Command → String
  | setChannel _ => "channel"
  | custom .. => "custom"
  | setMode _ => "mode"
  | more => "more"
  | popMode => "pop_mode"
  | pushMode _ => "push_mode"
  | skip => "skip"
  | setType _ => "type"
  | pinned _ command => command.kind

/-- The command as diagnostics show it. -/
def render : Command → String
  | setChannel channel => s!"channel({channel})"
  | custom rule action => s!"custom({rule}, {action})"
  | setMode mode => s!"mode({mode})"
  | more => "more"
  | popMode => "popMode"
  | pushMode mode => s!"pushMode({mode})"
  | skip => "skip"
  | setType type => s!"type({type})"
  | pinned offset command => command.render ++ s!"@{offset}"

instance : ToString Command := ⟨render⟩

/-! ## Documents -/

/-- The command as a tagged object. -/
def toJson : Command → Json.Value
  | setChannel channel => .record [("kind", .text "channel"), ("channel", .int channel)]
  | custom rule action =>
    .record [("kind", .text "custom"), ("rule_index", .nat rule), ("action_index", .nat action)]
  | setMode mode => .record [("kind", .text "mode"), ("mode", .nat mode)]
  | more => .record [("kind", .text "more")]
  | popMode => .record [("kind", .text "pop_mode")]
  | pushMode mode => .record [("kind", .text "push_mode"), ("mode", .nat mode)]
  | skip => .record [("kind", .text "skip")]
  | setType type => .record [("kind", .text "type"), ("token_type", .int type)]
  | pinned offset command =>
    .record [("kind", .text "indexed"), ("offset", .nat offset), ("action", command.toJson)]

open Json in
/-- A command from its document, nested at most `depth` levels deep. -/
def ofJsonWithin : Nat → Json.Value → Option Command
  | 0, _ => none
  | depth + 1, v => do
    let (kind, body) ← taggedMembers v
    match kind with
    | "channel" =>
      match ← structureMembers ["channel"] body with
      | [channel] => pure (setChannel (← required Decoder.int32 channel))
      | _ => none
    | "custom" =>
      match ← structureMembers ["rule_index", "action_index"] body with
      | [rule, action] =>
        pure (custom (← required Decoder.nat rule) (← required Decoder.nat action))
      | _ => none
    | "mode" =>
      match ← structureMembers ["mode"] body with
      | [mode] => pure (setMode (← required Decoder.nat mode))
      | _ => none
    | "more" => pure more
    | "pop_mode" => pure popMode
    | "push_mode" =>
      match ← structureMembers ["mode"] body with
      | [mode] => pure (pushMode (← required Decoder.nat mode))
      | _ => none
    | "skip" => pure skip
    | "type" =>
      match ← structureMembers ["token_type"] body with
      | [type] => pure (setType (← required Decoder.int32 type))
      | _ => none
    | "indexed" =>
      match ← structureMembers ["offset", "action"] body with
      | [offset, command] =>
        pure (pinned (← required Decoder.nat offset) (← required (ofJsonWithin depth) command))
      | _ => none
    | _ => none

/-- A command from its document. -/
def ofJson? (v : Json.Value) : Option Command := ofJsonWithin (v.height + 1) v

end Command

end AdaptiveLL
