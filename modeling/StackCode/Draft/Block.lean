import StackCode.Draft.Entry

/-!
# Blocks

The code of a block is its label, its statements and its edge. An edge to the block whose code comes
next needs no branch.
-/

namespace StackCode

namespace Procedure

/-- Stores the dynamically typed value on the stack in a variable.  An entry of the locals array
needs the array and the key below the value, which therefore waits in a temporary. -/
def storePending (p : Procedure) (id : LocalId) : Draft Unit := do
  match ← (p.place id : Draft Place) with
  | .slot id => Draft.emit (.storeLocal id)
  | .entry array key ty => do
    let slot ← Draft.acquireTemp .value
    Draft.emit (.storeTemp slot)
    (Place.entry array key ty).pushKey
    Draft.emit (.loadTemp slot)
    Fragment.callIntrinsic .arraySet
    Draft.releaseTemp slot

end Procedure

namespace Plan

/-- Places the label of a block, and receives the exception where the block is a handler. -/
def enterBlock (c : Plan) (b : Block) : Draft Unit :=
  match c.label? b.id with
  | none => pure ()
  | some l =>
    match c.caught? b.id with
    | some exception => do
      Draft.mark l .handler
      match exception with
      | some id => c.procedure.storePending id
      | none => Draft.emit .pop
    | none => Draft.mark l (if b.kind = .exit then .forward else .join)

/-- Continues at a block. -/
def jump (c : Plan) (target : BlockId) (next : Option BlockId) : Draft Unit :=
  if next = some target then pure ()
  else do
    let l ← c.blockLabel target
    Draft.emit (.branch l)

/-- The jump table of a multi-way edge. -/
def jumpTable (c : Plan) (cases : List (Int × BlockId)) : Except LowerError (List (Int × Label)) :=
  cases.mapM fun (key, target) => do
    let l ← c.blockLabel target
    return (key, l)

/-- The code of an edge, where `next` is the block whose code follows. -/
def edge (c : Plan) (b : Block) (next : Option BlockId) : Draft Unit :=
  match b.edge with
  | .goto target => c.jump target next
  | .branch condition onTrue onFalse => do
    c.procedure.value condition .bool .branchCondition
    if onTrue = onFalse then do
      Draft.emit .pop
      c.jump onTrue next
    else if next = some onTrue then do
      let l ← c.blockLabel onFalse
      Draft.emit (.branchIf false l)
    else do
      let l ← c.blockLabel onTrue
      Draft.emit (.branchIf true l)
      c.jump onFalse next
  | .switch selector cases default => do
    c.procedure.value selector .int .switchSelector
    let table ← c.jumpTable cases
    let l ← c.blockLabel default
    Draft.emit (.switch table l)
  | .protect body handler _ => do
    let l ← c.blockLabel handler
    Draft.emit (.enterTry l)
    c.jump body next
  | .leave target => do
    let l ← c.blockLabel target
    Draft.emit (.leave l)
  | .none => Draft.directive (.endBlock b.id)

/-- The end of a block: the edge, or the return to the caller. -/
def blockEnd (c : Plan) (b : Block) (next : Option BlockId) : Draft Unit :=
  if b.kind = .exit then
    if c.procedure.isGenerator then Draft.exitGenerator
    else Draft.exitOrdinary c.procedure.returnType
  else
    c.edge b next

/-- The code of a block.  Edges back to the start lead behind the code that runs once. -/
def block (c : Plan) (b : Block) (next : Option BlockId) : Draft Unit := do
  if b.kind = .start then c.entry
  c.enterBlock b
  b.statements.forM c.statement
  c.blockEnd b next

/-- The code of blocks in their order. -/
def blocksFrom (c : Plan) : List Block → Draft Unit
  | [] => pure ()
  | b :: rest => do
    c.block b (rest.head?.map (·.id))
    c.blocksFrom rest

/-- Hands the temporaries of the debugger's views back. -/
def releaseDebugLocals : Draft Unit := do
  let frame ← Draft.getFrame
  frame.debugLocals.forM fun (_, slot) => Draft.releaseTemp slot

/-- The draft of the whole procedure. -/
def draft (c : Plan) : Draft Unit := do
  c.blocksFrom c.blocks
  releaseDebugLocals

end Plan

end StackCode
