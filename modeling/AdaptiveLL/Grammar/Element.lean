import AdaptiveLL.Network.Basic

/-!
# Grammars

The description from which a network is compiled: rules, whose bodies are trees of elements.
-/

namespace AdaptiveLL

/-- What the body of a rule is made of. -/
inductive Element where
  /-- One token type or code point. -/
  | token (v : Symbol)
  | range (start stop : Symbol)
  | set (s : SymbolSet)
  | notSet (s : SymbolSet)
  | wildcard
  /-- The characters of a text, one after the other. -/
  | literal (text : String)
  | ruleRef (name : String) (precedence : Int)
  | seq (elements : List Element)
  | alt (alternatives : List Element)
  | optional (body : Element) (greedy : Bool)
  | star (body : Element) (greedy : Bool)
  | plus (body : Element) (greedy : Bool)
  | predicate (pred : Nat) (contextual : Bool)
  | precedence (level : Int)
  /-- An action of the host. -/
  | action (action : Nat)
  /-- A built-in command of the lexer. -/
  | command (c : Command)
  | epsilon
deriving Inhabited

/-- A rule of a grammar. -/
structure Rule where
  name : String
  body : Element
  /-- The token type that the rule emits; a rule without one is only reached from others. -/
  tokenType : Option Int := none
  /-- The lexer mode the rule belongs to. -/
  mode : Nat := 0
deriving Inhabited

/-- A grammar: its rules in order, and the names of its modes and token types. -/
structure Grammar where
  kind : GrammarKind
  name : String
  /-- The names of token types, by type; the first stands for the invalid type. -/
  tokenNames : List String := []
  rules : List Rule := []
  modes : List String := ["DEFAULT_MODE"]
deriving Inhabited

namespace Grammar

/-- The grammar with names for the token types from one on. -/
def withVocabulary (g : Grammar) (names : List String) : Grammar :=
  { g with tokenNames := "<INVALID>" :: names }

/-- The grammar with one more rule, in the latest mode. -/
def addRule (g : Grammar) (name : String) (body : Element) (tokenType : Option Int := none) :
    Grammar :=
  { g with rules := g.rules ++ [⟨name, body, tokenType, g.modes.length - 1⟩] }

/-- The grammar with one more mode; the token rules after it belong to it. -/
def addMode (g : Grammar) (name : String) : Grammar := { g with modes := g.modes ++ [name] }

end Grammar

end AdaptiveLL
