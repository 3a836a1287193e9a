import StackCode.Draft.Suspension
import StackCode.Fragment.Stmt
import StackCode.Plan

/-!
# Statements

Each statement leaves the evaluation stack as it found it, or control does not pass it.
-/

namespace StackCode

namespace Plan

/-- A place of the source where a debugger can stop, if the options ask for such places. -/
def sequencePoint (c : Plan) (span : Option Span) : Draft Unit :=
  match span with
  | some span =>
    if c.options.sequencePoints then Draft.emit (.sequencePoint span) else pure ()
  | none => pure ()

/-- Returns the value of an expression. -/
def returnValue (c : Plan) (value : Option Expr) : Draft Unit := do
  let p := c.procedure
  let ty ← match value with
    | some e => (p.evaluate e : Draft Ty)
    | none => pure .void
  if p.isGenerator then Draft.finishGenerator ty else Draft.stageReturn p.returnType ty

/-- Binds a variable to static storage, which is initialized once. -/
def bindStatic (c : Plan) (d : StaticDecl) : Draft Unit := do
  let p := c.procedure
  p.bindHolder d.target d.key
  match d.init with
  | none => pure ()
  | some init => do
    let done ← Draft.freshLabel
    p.loadVar d.target
    Fragment.callIntrinsic .staticIsInitialized
    Draft.emit (.branchIf true done)
    p.loadVar d.target
    p.value init .value .staticInitializer
    Fragment.callIntrinsic .staticInitialize
    Draft.mark done .forward

/-- Publishes a value and suspends the generator. -/
def yieldValue (c : Plan) (y : Yield) : Draft Unit :=
  if !c.procedure.isGenerator then Draft.fail (.yieldOutsideGenerator y.index)
  else if y.index < 1 then Draft.fail (.nonPositiveYieldIndex y.index)
  else do
    c.procedure.publish y
    Draft.suspend c.resume y.index

/-- The code of a statement after its sequence point. -/
def statementBody (c : Plan) : Stmt → Draft Unit
  | .empty span =>
    if span.isSome && c.options.sequencePoints then Draft.emit .nop else pure ()
  | .expr e => c.procedure.discardValue e
  | .ret value => c.returnValue value
  | .throw e => c.procedure.throwValue e
  | .declareFunction name => Fragment.callWithName .declareFunction name
  | .declareType name => Fragment.callWithName .declareType name
  | .bindGlobal id => c.procedure.bindGlobal id
  | .defineConst name e => c.procedure.defineConst name e
  | .bindStatic d => c.bindStatic d
  | .unset target => c.procedure.unset target
  | .yield y => c.yieldValue y
  | .declare => pure ()

/-- The code of a statement. -/
def statement (c : Plan) (s : Stmt) : Draft Unit := do
  c.sequencePoint s.span
  c.statementBody s
  Draft.directive .endStatement

end Plan

end StackCode
