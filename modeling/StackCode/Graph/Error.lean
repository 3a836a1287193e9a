import StackCode.Graph.Block

/-!
# Faults of a block list

Why a list of blocks is not the control-flow graph of a procedure, and the text that reports it.
-/

namespace StackCode

/-- What is wrong with a list of blocks. -/
inductive GraphError where
  /-- A block's id is not its position. -/
  | misnumberedBlock (position : Nat) (id : BlockId)
  | startCount (count : Nat)
  | exitCount (count : Nat)
  | exitHasEdge (block : BlockId) (edge : String)
  | danglingTarget (block target : BlockId)
  /-- A handler expects an exception on the stack, and a normal edge would bring none. -/
  | handlerEnteredNormally (handler block : BlockId)
  | reservedHandler (handler : BlockId)
  | duplicateOrdinal (ordinal : Nat) (first second : BlockId)
deriving DecidableEq

/-- The report of a fault. -/
def GraphError.message : GraphError → String
  | .misnumberedBlock position id => s!"block at position {position} has id {id.index}"
  | .startCount count => s!"graph has {count} start blocks, expected exactly one"
  | .exitCount count => s!"graph has {count} exit blocks, expected exactly one"
  | .exitHasEdge block edge => s!"exit block {block.index} has a `{edge}` edge"
  | .danglingTarget block target => s!"block {block.index} targets missing block {target.index}"
  | .handlerEnteredNormally handler block =>
    s!"handler block {handler.index} is also a normal target of block {block.index}"
  | .reservedHandler handler =>
    s!"block {handler.index} is the start or exit block and cannot be a handler"
  | .duplicateOrdinal ordinal first second =>
    s!"blocks {first.index} and {second.index} share ordinal {ordinal}"

end StackCode
