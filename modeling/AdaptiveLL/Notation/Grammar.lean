import AdaptiveLL.Grammar.Compile
import AdaptiveLL.Notation.Symbol

/-!
# Notation of grammars

A grammar is written as an object with its `type`, its `name`, perhaps the `vocab` of its token
names, and its `rules` in order. A rule has one of the members `rule`, `token` (with a `type`),
`fragment` and `mode`, which hold a name, and a `body`. An element is one of the texts `any` and
`eps` or an object whose member names its kind.

Instead of all that, the member `json` may hold the document of a network.
-/

namespace AdaptiveLL

open Json

namespace Element

/-- The members of an element that modify it and do not name its kind. -/
def modifiers : List String := ["greedy", "level", "ctx"]

/-- An element from its notation, nested at most `depth` levels deep. -/
def ofJsonWithin : Nat → Value → Element
  | 0, _ => epsilon
  | _, .text "any" => wildcard
  | depth + 1, v =>
    let greedy := v.boolAt "greedy" true
    match v.members.find? fun m => !modifiers.contains m.1 with
    | some ("tok", t) => token (Symbol.ofJson t)
    | some ("range", r) =>
      let (start, stop) := Symbol.rangeOfJson r
      range start stop
    | some ("set", _) => set (.ofRanges (Symbol.rangesAt v "set"))
    | some ("not", _) => notSet (.ofRanges (Symbol.rangesAt v "not"))
    | some ("lit", t) => literal t.toText
    | some ("ref", n) => ruleRef n.toText (v.intAt "level")
    | some ("seq", es) => seq (es.items.map (ofJsonWithin depth))
    | some ("alt", es) => alt (es.items.map (ofJsonWithin depth))
    | some ("opt", e) => optional (ofJsonWithin depth e) greedy
    | some ("star", e) => star (ofJsonWithin depth e) greedy
    | some ("plus", e) => plus (ofJsonWithin depth e) greedy
    | some ("pred", n) => predicate n.toNat (v.boolAt "ctx")
    | some ("prec", n) => precedence n.toInt
    | some ("act", n) => action n.toNat
    | some ("cmd", c) => ((Command.ofJson? c).map command).getD epsilon
    | _ => epsilon

/-- **An element from its notation.** -/
def ofJson (v : Value) : Element := ofJsonWithin (v.height + 1) v

end Element

namespace Grammar

/-- The grammar with one more rule or mode from its notation. -/
def addJson (g : Grammar) (v : Value) : Grammar :=
  let body := Element.ofJson (v.memberAt "body")
  match v.textAt? "rule", v.textAt? "token", v.textAt? "fragment", v.textAt? "mode" with
  | some name, _, _, _ => g.addRule name body
  | _, some name, _, _ => g.addRule name body (some (v.intAt "type"))
  | _, _, some name, _ => g.addRule name body
  | _, _, _, some name => g.addMode name
  | _, _, _, _ => g

/-- **A grammar from its notation.** -/
def ofJson (v : Value) : Grammar :=
  let g : Grammar :=
    { kind := (GrammarKind.ofLabel? (v.textAt "type")).getD .parser
      name := v.textAt "name" "G" }
  let g :=
    match v.member? "vocab" with
    | some names => g.withVocabulary (names.items.map Value.toText)
    | none => g
  (v.listAt "rules").foldl addJson g

end Grammar

/-- **A network from the notation of its grammar,** or from its document, with the event of how it
came about. -/
def Network.ofNotation (v : Value) : Except NetworkError (Network × Event) := do
  match v.textAt? "json" with
  | some source =>
    let net ← Network.ofText? source
    pure (net, net.loadedEvent)
  | none =>
    let net ← (Grammar.ofJson v).compile
    pure (net, net.builtEvent)

end AdaptiveLL
