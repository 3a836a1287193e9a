import StackCode.Graph.Block
import StackCode.Instr.Basic

/-!
# Errors of code generation

Every error is the breach of an invariant: the procedure cannot be compiled, or the code generator
itself is broken.  None of them describes a mistake in the user's program, so the first one ends the
work on the procedure.
-/

namespace StackCode

/-- What a value was needed for. -/
inductive ValueUse where
  | assigned
  | leftOperand
  | rightOperand
  | callArgument
  | indexedArray
  | arrayKey
  | thrown
  | constant
  | staticInitializer
  | unsetArray
  | unsetKey
  | unsetInstance
  | yielded
  | yieldedKey
  | branchCondition
  | switchSelector
  | conversion
deriving DecidableEq

def ValueUse.text : ValueUse → String
  | .assigned => "assigned value"
  | .leftOperand => "left operand"
  | .rightOperand => "right operand"
  | .callArgument => "call argument"
  | .indexedArray => "indexed array"
  | .arrayKey => "array key"
  | .thrown => "thrown expression"
  | .constant => "constant value"
  | .staticInitializer => "static initializer"
  | .unsetArray => "unset array"
  | .unsetKey => "unset key"
  | .unsetInstance => "unset instance"
  | .yielded => "yielded value"
  | .yieldedKey => "yielded key"
  | .branchCondition => "branch condition"
  | .switchSelector => "switch selector"
  | .conversion => "conversion source"

/-- A place where the depth of the evaluation stack is fixed. -/
inductive StackSite where
  | handlerEntry
  | label
  | branch
  | ret
  | endOfStatement
deriving DecidableEq

def StackSite.text : StackSite → String
  | .handlerEntry => "handler entry"
  | .label => "label"
  | .branch => "branch"
  | .ret => "return"
  | .endOfStatement => "end of statement"

/-- Why a procedure was not compiled. -/
inductive LowerError where
  | nonPositiveYieldIndex (index : Int)
  | duplicateYieldIndex (index : Int)
  | yieldIndexGap (expected found : Int)
  | missingResumeLabel (index : Int)
  | yieldOutsideGenerator (index : Int)
  | stackUnderflow (mnemonic : String) (depth : Nat)
  | stackImbalance (site : StackSite) (depth expected : Nat)
  | missingValue (use : ValueUse)
  | labelMarkedTwice (label : Label)
  | unmarkedLabel (label : Label)
  | unknownLabel (label : Label)
  | tempDoubleFree (slot : TempSlot)
  | tempLeaked (slot : TempSlot)
  | returnSlotUnassigned
  | fallsOffBlock (block : BlockId)
  | unlabeledBlock (block : BlockId)
  | invalidEmitOrder
  | unknownLocal (id : LocalId)
deriving DecidableEq

/-- The report of an error. -/
def LowerError.message : LowerError → String
  | .nonPositiveYieldIndex index => s!"yield index {index} is not positive"
  | .duplicateYieldIndex index => s!"yield index {index} is declared more than once"
  | .yieldIndexGap expected found =>
    s!"yield indices are not dense: expected {expected}, found {found}"
  | .missingResumeLabel index => s!"no resume label for yield {index}"
  | .yieldOutsideGenerator index => s!"yield {index} in a procedure that is not a generator"
  | .stackUnderflow mnemonic depth => s!"evaluation stack underflow at `{mnemonic}` (depth {depth})"
  | .stackImbalance site depth expected =>
    s!"evaluation stack depth {depth} at {site.text}, expected {expected}"
  | .missingValue use => s!"{use.text} produced no value"
  | .labelMarkedTwice label => s!"label L{label.index} marked twice"
  | .unmarkedLabel label => s!"label L{label.index} is branched to but never marked"
  | .unknownLabel label => s!"label L{label.index} was never allocated"
  | .tempDoubleFree slot => s!"temporary {slot.index} returned twice"
  | .tempLeaked slot => s!"temporary {slot.index} still checked out at end of procedure"
  | .returnSlotUnassigned => "return temporary read before any store"
  | .fallsOffBlock block => s!"block b{block.index} falls off its end without an edge"
  | .unlabeledBlock block => s!"block b{block.index} is branched to but has no label"
  | .invalidEmitOrder => "emission order is not a permutation of the reachable blocks"
  | .unknownLocal id => s!"local {id.index} is not declared"

end StackCode
