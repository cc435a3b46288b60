import AdaptiveLL.Limits
import AdaptiveLL.Network.Basic
import AdaptiveLL.Text

/-!
# Graph-structured stacks

A configuration runs under a set of call stacks, kept as a node of a shared graph. A node is a list
of frames, ascending by return state; each frame says where its call goes on and which node holds
the stacks below it. A node stands for all the stacks that can be read off it, innermost frame
first. Node `0` is the empty stack, written `$`; its only frame has a return state of its own,
which sorts last.

Nodes are *interned*: equal lists of frames share one node, so comparing sets of stacks is
comparing numbers. The graph only grows, and both the number of its nodes and the depth of its
stacks have a ceiling. Whatever the ceiling is, the number of a node takes 32 bits.
-/

namespace AdaptiveLL

/-- The number of a node: a set of stacks. -/
abbrev StackId := Nat

namespace StackId

/-- The empty stack. -/
def empty : StackId := 0

/-- The number of a node as diagnostics show it. -/
def render (id : StackId) : String := if id = empty then "$" else s!"ctx#{id}"

end StackId

/-- The return state of the frame that stands for the empty stack. -/
def emptyReturn : Nat := Numeral.maxWord

/-- A return state and the stacks below it. -/
structure Frame where
  ret : Nat
  parent : StackId
deriving DecidableEq, Hashable, Inhabited

namespace Frame

/-- The frame of the empty stack. -/
def bottom : Frame := ⟨emptyReturn, StackId.empty⟩

/-- Whether the frame stands for the empty stack. -/
def isBottom (f : Frame) : Bool := f.ret == emptyReturn

/-- The return state of the frame as diagnostics show it. -/
def render (f : Frame) : String := if f.isBottom then "$" else toString f.ret

end Frame

/-- A node of the graph: its frames, and the length of its longest stack. -/
structure StackNode where
  frames : List Frame
  depth : Nat
deriving DecidableEq, Inhabited

/-- **A graph of stacks.** -/
structure StackGraph where
  nodes : Array StackNode := #[⟨[Frame.bottom], 0⟩]
  maxNodes : Nat := Limits.arenaNodes
  maxDepth : Nat := Limits.contextDepth
  /-- How many numbers there are for nodes. -/
  maxIds : Nat := Limits.stackIds
deriving DecidableEq, Inhabited

/-- A step that may extend the graph or run into one of its ceilings. What was added before a
failure stays. -/
abbrev Growing := EStateM Exceeded StackGraph

namespace StackGraph

/-- The graph of the empty stack alone, with its ceilings. Room for one node there always is. -/
def withLimits (maxNodes maxDepth : Nat) : StackGraph :=
  { maxNodes := max maxNodes 1, maxDepth := maxDepth }

/-! ## Reading -/

/-- The number of nodes. -/
def size (g : StackGraph) : Nat := g.nodes.size

/-- How many nodes there may be. -/
def capacity (g : StackGraph) : Nat := min g.maxNodes g.maxIds

/-- The frames of a node, ascending by return state. -/
def frames (g : StackGraph) (id : StackId) : List Frame :=
  (g.nodes[id]?.map StackNode.frames).getD []

/-- The length of the longest stack of a node. -/
def depth (g : StackGraph) (id : StackId) : Nat := (g.nodes[id]?.map StackNode.depth).getD 0

/-- Whether one of the stacks of a node is empty. -/
def hasEmptyStack (g : StackGraph) (id : StackId) : Bool :=
  ((g.frames id).getLast?.map Frame.isBottom).getD false

/-- The stacks of a node, at most `fuel` nodes deep. -/
def stacksWithin (g : StackGraph) : Nat → StackId → List (List Nat)
  | 0, _ => []
  | fuel + 1, id =>
    (g.frames id).flatMap fun f =>
      if f.isBottom then [[]] else (stacksWithin g fuel f.parent).map (f.ret :: ·)

/-- **The stacks of a node,** each with its innermost return state first, in lexicographic order. A
parent is older than its child, so no stack is deeper than the node's number. -/
def callStacks (g : StackGraph) (id : StackId) : List (List Nat) :=
  (g.stacksWithin (id + 1) id).mergeSort (fun a b => !b.lex a (fun x y => decide (x < y)))

/-- The return states of a node as diagnostics show them. -/
def render (g : StackGraph) (id : StackId) : String :=
  "[" ++ " ".intercalate ((g.frames id).map Frame.render) ++ "]"

/-! ## Growing -/

/-- The length of the longest stack that a list of frames stands for. -/
def depthOf (g : StackGraph) (fs : List Frame) : Nat :=
  fs.foldl (fun d f => if f.isBottom then d else max d (g.depth f.parent + 1)) 0

/-- **The node of a list of frames,** which is added if there is none yet. -/
def intern (fs : List Frame) : Growing StackId := fun g =>
  match g.nodes.findIdx? (·.frames = fs) with
  | some id => .ok id g
  | none =>
    let depth := g.depthOf fs
    if g.maxDepth < depth then .error ⟨.contextDepth, g.maxDepth, depth⟩ g
    else if g.capacity ≤ g.nodes.size then .error ⟨.arenaNodes, g.maxNodes, g.nodes.size + 1⟩ g
    else
      let id := g.nodes.size
      .ok id { g with nodes := g.nodes.push ⟨fs, depth⟩ }

/-- The stacks of `parent`, each with one more frame on top. -/
def push (parent : StackId) (ret : Nat) : Growing StackId := intern [⟨ret, parent⟩]

/-- The single stack of a list of return states, outermost first, on top of `parent`. -/
def pushAll (parent : StackId) : List Nat → Growing StackId
  | [] => pure parent
  | ret :: rest => do pushAll (← push parent ret) rest

/-- **The stack of a parse,** given the states that called the active rules, outermost first. Each
contributes the state at which its call goes on; a state that calls nothing contributes
nothing. -/
def ofCallers (net : Network) (callers : List StateId) : Growing StackId :=
  pushAll StackId.empty (callers.filterMap fun s => (net.state s).transitions.head?.bind
    Transition.follow?)

/-! ## Merging

Two nodes are merged as two sorted lists: frames with the same return state become one, whose
parent is the merge of both parents. If the empty stack stands for any caller, whatever is merged
with it is absorbed. -/

/-- Works the frame `l` and those after it, which `others` merges, into a list of frames. -/
def mergeInto (mergeParents : StackId → StackId → Growing StackId) (l : Frame) (ls : List Frame)
    (others : List Frame → Growing (List Frame)) : List Frame → Growing (List Frame)
  | [] => pure (l :: ls)
  | r :: rs =>
    if l.ret = r.ret then do
      -- One call site: the frames become one, above both sets of callers.
      let parent ← if l.parent = r.parent then pure l.parent else mergeParents l.parent r.parent
      let rest ← others rs
      pure (⟨l.ret, parent⟩ :: rest)
    else if l.ret < r.ret then do
      let rest ← others (r :: rs)
      pure (l :: rest)
    else do
      let rest ← mergeInto mergeParents l ls others rs
      pure (r :: rest)

/-- Merges two lists of frames, given how to merge parents. -/
def mergeFrames (mergeParents : StackId → StackId → Growing StackId) :
    List Frame → List Frame → Growing (List Frame)
  | [], right => pure right
  | l :: ls, right => mergeInto mergeParents l ls (mergeFrames mergeParents ls) right

/-- Merges two nodes that are at most `fuel` nodes deep. -/
def mergeWithin (wild : Bool) : Nat → StackId → StackId → Growing StackId
  | 0, a, _ => pure a
  | fuel + 1, a, b => do
    if a = b then pure a
    -- Any caller, on either side, absorbs the other side.
    else if wild && (a == StackId.empty || b == StackId.empty) then pure StackId.empty
    else do
      let g ← get
      let fs ← mergeFrames (mergeWithin wild fuel) (g.frames a) (g.frames b)
      intern fs

/-- **The node with the stacks of both.** With `wild` the empty stack stands for any caller.
Parents are older than their children, so every step down lowers one of the two numbers. -/
def merge (a b : StackId) (wild : Bool) : Growing StackId := mergeWithin wild (a + b + 1) a b

end StackGraph

end AdaptiveLL
