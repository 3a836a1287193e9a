import StackCode.Draft.Block
import StackCode.Proofs.Instr.Straight

/-!
# Outlines

The outline of a procedure is its code without a layout.  Where the code has labels, branches and
numbered slots, the outline has spots, the places that control can be passed to, and operations,
which say what happens at a spot and where control goes next.  It is read off the procedure, the
options and the way handlers receive exceptions, and does not depend on the order of the blocks.

Dead code is part of an outline: what follows a return or a thrown value in its block stays, although
control does not get there.  Behind a suspension it does, when the generator is resumed.
-/

namespace StackCode

/-- A place that control can be passed to. -/
inductive Spot where
  | block (b : BlockId)
  /-- Behind the suspension point with this index. -/
  | resume (index : Int)
  /-- The start block of a generator that is not resumed. -/
  | body
  /-- Where a value that has been stored for it is returned. -/
  | ret
deriving DecidableEq

/-- An operation of an outline. -/
inductive Op where
  /-- A straight instruction, with its slot erased. -/
  | run (i : Instr)
  /-- Stores the return value. -/
  | stage
  /-- Fetches the return value. -/
  | unstage
  /-- Pops a boolean, and executes the instructions unless it is true. -/
  | guard (code : List Instr)
  /-- Opens a protected region. -/
  | enter (handler : BlockId)
  | goto (s : Spot)
  /-- Pops a boolean and continues at the first spot if it is true. -/
  | fork (onTrue onFalse : Spot)
  /-- Pops an integer and continues at the first case with that key, or at the default. -/
  | select (cases : List (Int × Spot)) (default : Spot)
  /-- Closes the innermost protected region. -/
  | leave (s : Spot)
  /-- Returns to the caller; a resumed generator goes on behind. -/
  | suspend (index : Int)
  /-- The evaluation stack is empty here. -/
  | settle
  /-- The end of a block that has no edge. -/
  | dangle
deriving DecidableEq

/-- The spots that an operation passes control on to. -/
def Op.targets : Op → List Spot
  | .goto s | .leave s => [s]
  | .fork s t => [s, t]
  | .select cases default => cases.map Prod.snd ++ [default]
  | _ => []

/-- The operations of straight-line code. -/
def Fragment.ops {α : Type} (x : Fragment α) : List Op := x.code.map fun i => .run i.erased

/-- The operations of straight-line code and of what its answer asks for. -/
def Fragment.opsThen {α : Type} (x : Fragment α) (f : α → List Op) : List Op :=
  x.ops ++ match x.result with
    | .ok a => f a
    | .error _ => []

/-- What the code of a procedure is read off. -/
structure Outline where
  procedure : Procedure
  options : Options
  /-- What a handler does with the exception: stores it in a variable or drops it. -/
  caught : BlockId → Option (Option LocalId)

namespace Outline

variable (o : Outline)

/-! ## Statements -/

def sequencePoint (span : Option Span) : List Op :=
  match span with
  | some span => if o.options.sequencePoints then [.run (.sequencePoint span)] else []
  | none => []

/-- The value of a return statement. -/
def returned (value : Option Expr) : Fragment Ty :=
  match value with
  | some e => o.procedure.evaluate e
  | none => pure .void

/-- Brings a returned value of type `ty` into the form in which it is kept. -/
def keep (ty : Ty) : Fragment Unit :=
  if o.procedure.isGenerator then
    if ty.isVoid then pure ()
    else do
      Fragment.convert ty .value
      Fragment.callIntrinsic .setGeneratorReturn
  else if o.procedure.returnType.isVoid then
    if ty.isVoid then pure () else Fragment.emit .pop
  else if ty.isVoid then Fragment.pushDefault o.procedure.returnType
  else Fragment.convert ty o.procedure.returnType

/-- Whether a returned value waits in the return slot. -/
def stages : Bool := !o.procedure.isGenerator && !o.procedure.returnType.isVoid

def returnValue (value : Option Expr) : List Op :=
  (o.returned value).opsThen fun ty =>
    (o.keep ty).ops ++ (if o.stages then [.stage] else []) ++ [.goto .ret]

/-- The code that initializes static storage. -/
def staticInit (target : LocalId) (init : Expr) : Fragment Unit := do
  o.procedure.loadVar target
  o.procedure.value init .value .staticInitializer
  Fragment.callIntrinsic .staticInitialize

def bindStatic (d : StaticDecl) : List Op :=
  (o.procedure.bindHolder d.target d.key).ops ++
    match d.init with
    | none => []
    | some init =>
      (o.procedure.loadVar d.target).ops ++ (Fragment.callIntrinsic .staticIsInitialized).ops ++
        [.guard (o.staticInit d.target init).code]

/-- The operations that set the state of the generator. -/
def setState (s : GeneratorState) : List Op := [.run (.constInt s.toInt), .run .storeState]

def statementBody : Stmt → List Op
  | .empty span =>
    if span.isSome && o.options.sequencePoints then [.run .nop] else []
  | .expr e => (o.procedure.discardValue e).ops
  | .ret value => o.returnValue value
  | .throw e => (o.procedure.throwValue e).ops
  | .declareFunction name => (Fragment.callWithName .declareFunction name).ops
  | .declareType name => (Fragment.callWithName .declareType name).ops
  | .bindGlobal id => (o.procedure.bindGlobal id).ops
  | .defineConst name e => (o.procedure.defineConst name e).ops
  | .bindStatic d => o.bindStatic d
  | .unset target => (o.procedure.unset target).ops
  | .yield y => (o.procedure.publish y).ops ++ setState (.suspendedAt y.index) ++ [.suspend y.index]
  | .declare => []

def statement (s : Stmt) : List Op := o.sequencePoint s.span ++ o.statementBody s ++ [.settle]

def statements (ss : List Stmt) : List Op := ss.flatMap o.statement

/-! ## Blocks -/

/-- Stores the exception on the stack in a variable. -/
def storePending (id : LocalId) : List Op :=
  match o.procedure.place id with
  | .ok (.slot id) => [.run (.storeLocal id)]
  | .ok (.entry array key ty) =>
    [.run (.storeTemp ⟨0⟩)] ++ (Place.entry array key ty).pushKey.ops ++
      [.run (.loadTemp ⟨0⟩), .run (.callIntrinsic .arraySet)]
  | .error _ => []

/-- What a block does with the exception it is entered by. -/
def receive (b : BlockId) : List Op :=
  match o.caught b with
  | some (some id) => o.storePending id
  | some none => [.run .pop]
  | none => []

def edge : Edge → List Op
  | .goto target => [.goto (.block target)]
  | .branch condition onTrue onFalse =>
    (o.procedure.value condition .bool .branchCondition).ops ++
      if onTrue = onFalse then [.run .pop, .goto (.block onTrue)]
      else [.fork (.block onTrue) (.block onFalse)]
  | .switch selector cases default =>
    (o.procedure.value selector .int .switchSelector).ops ++
      [.select (cases.map fun (key, target) => (key, .block target)) (.block default)]
  | .protect body handler _ => [.enter handler, .goto (.block body)]
  | .leave target => [.leave (.block target)]
  | .none => [.dangle]

/-- The end of a path that has no return statement. -/
def exit : List Op :=
  if o.procedure.isGenerator then setState .closed ++ [.run (.ret false)]
  else
    (Fragment.pushDefault o.procedure.returnType).ops ++
      [.run (.ret !o.procedure.returnType.isVoid)]

/-- The end of a path with a return statement. -/
def returning : List Op := if o.stages then [.unstage, .run (.ret true)] else o.exit

def blockEnd (b : Block) : List Op := if b.kind = .exit then o.exit else o.edge b.edge

/-- What follows in a block with some of its statements left. -/
def rest (b : Block) (ss : List Stmt) : List Op := o.statements ss ++ o.blockEnd b

def block (b : Block) : List Op := o.receive b.id ++ o.rest b b.statements

/-! ## The procedure -/

def debugLocals : List Op :=
  match o.procedure.localsArray with
  | some array =>
    if o.options.debug && o.options.sequencePoints then
      (o.procedure.locals.toList.filter fun v => v.isNamed && v.id ≠ array).flatMap fun v =>
        [.run (.loadLocal array), .run (.constStr v.name), .run (.callIntrinsic .indirectLocal),
          .run (.storeTemp ⟨0⟩)]
    else []
  | none => []

def openingBrace : List Op :=
  match o.procedure.bodySpan with
  | some span =>
    if o.options.debug && span.isValid then o.sequencePoint (some span.head) ++ [.run .nop] else []
  | none => []

/-- The cases of the jump to where a generator stopped. -/
def resumeCases : List (Int × Spot) :=
  (List.range o.procedure.graph.yields.length).map fun (i : Nat) =>
    ((i : Int) + 1, .resume ((i : Int) + 1))

def dispatch : List Op :=
  [.run .loadState, .run (.storeTemp ⟨0⟩)] ++ setState .running ++
    [.run (.loadTemp ⟨0⟩), .select o.resumeCases .body]

/-- What is done once per invocation, whether a generator is resumed or not. -/
def prologue : List Op :=
  (if o.options.sequencePoints then [.run .hiddenSequencePoint] else []) ++
    (if o.options.debug && o.procedure.isStatic then
      [.run .loadContext, .run (.callIntrinsic .debugAssertNotNull)] else []) ++
    (match o.procedure.kind with
      | .scriptMain script => (Fragment.callWithName .onInclude script).ops
      | _ => []) ++
    o.procedure.initLocals.ops ++ o.debugLocals ++ o.openingBrace

/-- What follows the suspension point with an index, if it is in this block. -/
def afterYield? (index : Int) (b : Block) : List Stmt → Option (List Op)
  | [] => none
  | s :: ss => if s.yieldIndex? = some index then some (o.rest b ss) else afterYield? index b ss

/-- What happens at a spot. -/
def opsAt : Spot → List Op
  | .block b => (o.procedure.graph.block? b).elim [] o.block
  | .resume index =>
    (o.procedure.graph.blocks.toList.findSome? fun b => o.afterYield? index b b.statements).getD []
  | .body => (o.procedure.graph.block? o.procedure.graph.start).elim [] o.block
  | .ret => o.returning

/-- What happens when the procedure is invoked. -/
def entry : List Op :=
  o.prologue ++ if o.procedure.isGenerator then o.dispatch else o.opsAt .body

/-- The depth of the stack at a spot: a handler finds the exception. -/
def entryDepth : Spot → Nat
  | .block b => if (o.caught b).isSome then 1 else 0
  | _ => 0

end Outline

/-- The outline of a plan's procedure. -/
def Plan.outline (c : Plan) : Outline :=
  { procedure := c.procedure, options := c.options, caught := c.caught? }

end StackCode
