import StackCode.Graph.Traversal

/-!
# Block layout

The order of the blocks in the code is a matter of taste: an edge becomes a branch unless its target
comes next.  A strategy arranges the blocks that need code; whatever it answers, the start comes
first and the exit last, and an answer that is not a rearrangement is refused.
-/

namespace StackCode

/-- A way to arrange blocks of a graph, given in ascending order. -/
abbrev LayoutStrategy := FlowGraph → List BlockId → List BlockId

/-- The arrangements to choose from. -/
inductive BlockOrder where
  /-- As the blocks stood in the source. -/
  | ordinal
  /-- So that most forward edges need no branch. -/
  | reversePostorder
deriving DecidableEq

namespace FlowGraph

/-- The blocks in ascending order of their ordinals. -/
def sortByOrdinal (g : FlowGraph) (ids : List BlockId) : List BlockId :=
  ids.mergeSort fun a b => g.ordinal a ≤ g.ordinal b

end FlowGraph

namespace BlockOrder

/-- Reverse postorder leaves out the blocks that no edge leads to from the start, such as those
where only a resumed generator arrives; they follow by ordinal. -/
def arrange : BlockOrder → LayoutStrategy
  | .ordinal => FlowGraph.sortByOrdinal
  | .reversePostorder => fun g ids =>
    let placed := g.reversePostorder.filter (· ∈ ids)
    placed ++ g.sortByOrdinal (ids.filter (· ∉ placed))

end BlockOrder

namespace FlowGraph

/-- Whether a list has the length of `ids`, no members but theirs, and none of them twice. -/
def isArrangement (arranged ids : List BlockId) : Bool :=
  arranged.length == ids.length && arranged.all (· ∈ ids) && decide arranged.Nodup

/-- The blocks in the order of their code, or none if the strategy does not rearrange them. -/
def emissionOrder (g : FlowGraph) (strategy : LayoutStrategy) (ids : List BlockId) :
    Option (List BlockId) :=
  let arranged := strategy g ids
  if isArrangement arranged ids then
    some (g.start :: arranged.filter (fun b => b ≠ g.start && b ≠ g.exit) ++ [g.exit])
  else
    none

end FlowGraph

end StackCode
