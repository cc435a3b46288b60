import AdaptiveLL.Symbol

/-!
# Symbol sets

Transition labels and look-ahead results are sets of symbols, kept as a list of inclusive spans.
Every set built by the operations here is *canonical*: its spans are non-empty, ascending and
separated by at least one missing symbol. A set read from a file is taken as it is written, so
the operations are defined on any list of spans.
-/

namespace AdaptiveLL

/-- The symbols from `start` to `stop`, both included. -/
structure Span where
  start : Symbol
  stop : Symbol
deriving DecidableEq, Hashable, Inhabited

namespace Span

/-- Whether the symbol lies in the span. -/
def contains (s : Span) (v : Symbol) : Bool := s.start ≤ v && v ≤ s.stop

/-- Whether the span holds no symbol. -/
def isEmpty (s : Span) : Bool := s.stop < s.start

/-- The number of symbols in the span. -/
def size (s : Span) : Nat := (s.stop - s.start + 1).toNat

/-- The first `n` symbols of the span, ascending. -/
def first (s : Span) (n : Nat) : List Symbol :=
  (List.range (min n s.size)).map fun (i : Nat) => s.start + i

/-- The symbols of the span, ascending. -/
def toList (s : Span) : List Symbol := s.first s.size

/-- What is left of the span when one symbol is taken out of it. -/
def without (s : Span) (v : Symbol) : List Span :=
  if s.contains v then
    (if s.start < v then [⟨s.start, v - 1⟩] else []) ++
      (if v < s.stop then [⟨v + 1, s.stop⟩] else [])
  else [s]

end Span

/-- A set of symbols, as a list of spans. -/
structure SymbolSet where
  spans : List Span
deriving DecidableEq, Hashable, Inhabited

namespace SymbolSet

/-- The set with no symbol. -/
def empty : SymbolSet := ⟨[]⟩

/-! ## Insertion and removal -/

/-- Works the span `m` into a list of spans: spans that overlap or touch it are swallowed, and
what results stands before the first span that lies beyond it. `placed` says that it already
does. -/
def weave (m : Span) (placed : Bool) : List Span → List Span
  | [] => if placed then [] else [m]
  | s :: rest =>
    if s.stop + 1 < m.start then s :: weave m placed rest
    else if m.stop + 1 < s.start then
      if placed then s :: weave m true rest else m :: s :: weave m true rest
    else weave ⟨min m.start s.start, max m.stop s.stop⟩ placed rest

/-- The set with the symbols from `start` to `stop` added. -/
def insertSpan (s : SymbolSet) (start stop : Symbol) : SymbolSet :=
  if stop < start then s else ⟨weave ⟨start, stop⟩ false s.spans⟩

/-- The set with one symbol added. -/
def insert (s : SymbolSet) (v : Symbol) : SymbolSet := s.insertSpan v v

/-- The set with every symbol of `t` added. -/
def union (s t : SymbolSet) : SymbolSet :=
  t.spans.foldl (fun acc p => acc.insertSpan p.start p.stop) s

/-- The set with one symbol taken out. -/
def erase (s : SymbolSet) (v : Symbol) : SymbolSet := ⟨s.spans.flatMap (·.without v)⟩

/-- The set of the symbols of some ranges, in any order. -/
def ofRanges (ranges : List (Symbol × Symbol)) : SymbolSet :=
  ranges.foldl (fun acc r => acc.insertSpan r.1 r.2) empty

/-- The set of the symbols from `start` to `stop`. -/
def ofRange (start stop : Symbol) : SymbolSet := empty.insertSpan start stop

/-- The set of one symbol. -/
def singleton (v : Symbol) : SymbolSet := ofRange v v

/-- Adds to `acc` the symbols from `next` up to `hi` that the spans leave out; spans wholly below
`lo` are passed over and the first one above `hi` ends the work. -/
def fillGaps (lo hi : Symbol) : Symbol → SymbolSet → List Span → SymbolSet
  | next, acc, [] => acc.insertSpan next hi
  | next, acc, s :: rest =>
    if s.stop < lo then fillGaps lo hi next acc rest
    else if hi < s.start then acc.insertSpan next hi
    else fillGaps lo hi (max next (s.stop + 1))
      (if next < s.start then acc.insertSpan next (s.start - 1) else acc) rest

/-- The symbols from `lo` to `hi` that the set leaves out. -/
def complement (s : SymbolSet) (lo hi : Symbol) : SymbolSet :=
  fillGaps lo hi lo empty s.spans

/-! ## Questions -/

/-- **Binary search among ascending spans.** The window shrinks to about a half in each round: to
its front when the middle span lies above the symbol, to its back otherwise. -/
def searchWithin (v : Symbol) : Nat → List Span → Bool
  | _, [] => false
  | _, [s] => s.contains v
  | 0, _ => false
  | fuel + 1, window =>
    let half := window.length / 2
    match window[half]? with
    | none => false
    | some middle =>
      if v < middle.start ∧ v ≤ middle.stop then
        searchWithin v fuel (window.take (window.length - half))
      else searchWithin v fuel (window.drop half)

/-- Whether the symbol is in the set. The spans are searched by halving, which presumes that they
ascend. -/
def contains (s : SymbolSet) (v : Symbol) : Bool := searchWithin v s.spans.length s.spans

/-- Whether the set has no span. -/
def isEmpty (s : SymbolSet) : Bool := s.spans.isEmpty

/-- The number of symbols in the set. -/
def size (s : SymbolSet) : Nat := s.spans.foldr (fun p n => p.size + n) 0

/-- The least symbol of the set. -/
def min? (s : SymbolSet) : Option Symbol := s.spans.head?.map Span.start

/-- The symbols of the set, ascending. -/
def toList (s : SymbolSet) : List Symbol := s.spans.flatMap Span.toList

/-- The first `n` symbols of a list of spans, without listing the others. -/
def firstOf : Nat → List Span → List Symbol
  | _, [] => []
  | n, s :: rest => s.first n ++ firstOf (n - s.size) rest

/-- The first `n` symbols of the set. -/
def first (s : SymbolSet) (n : Nat) : List Symbol := firstOf n s.spans

/-! ## Printing -/

/-- A span with its ends named: a single symbol stands alone. -/
def showSpan (name : Symbol → String) (s : Span) : String :=
  if s.start = s.stop then name s.start else name s.start ++ ".." ++ name s.stop

/-- The set with its symbols named by the caller. A set of one symbol is printed bare, any other
in braces. -/
def render (name : Symbol → String) (s : SymbolSet) : String :=
  match s.spans with
  | [] => "\x7b\x7d"
  | [p] =>
    if s.size = 1 then showSpan name p else "\x7b" ++ showSpan name p ++ "\x7d"
  | spans => "\x7b" ++ ", ".intercalate (spans.map (showSpan name)) ++ "\x7d"

instance : ToString SymbolSet := ⟨render toString⟩

end SymbolSet

end AdaptiveLL
