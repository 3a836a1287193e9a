import StackCode.Draft.Stmt

/-!
# Entering a procedure

The code in front of the start block runs once per invocation: what the debugging options ask for,
the registration of a script, the first values of the variables, and, in a generator, the jump to
the point where it stopped.
-/

namespace StackCode

namespace Procedure

/-- Creates the locals array, if there is one. -/
def initLocalsArray (p : Procedure) : Fragment Unit :=
  match p.localsArray with
  | none => pure ()
  | some array => do
    discard (p.getLocal array)
    Fragment.emit (.constInt p.locals.size)
    Fragment.callIntrinsic .newLocalsArray
    Fragment.emit (.storeLocal array)

/-- Gives a variable its first value.  A parameter that lives in the locals array is copied there;
a variable with a slot of its own gets the default value of its type.  Other entries of the array
start out absent, and the array itself is there already. -/
def initVar (p : Procedure) (v : Local) : Fragment Unit :=
  if p.localsArray = some v.id then pure ()
  else do
    match ← p.place v.id with
    | .entry array key ty =>
      if v.kind = .parameter then do
        (Place.entry array key ty).pushKey
        Fragment.emit (.loadLocal v.id)
        (Place.entry array key ty).store
      else pure ()
    | .slot id =>
      match v.ty.default? with
      | some value =>
        if v.needsInit then do
          Fragment.literal value
          Fragment.emit (.storeLocal id)
        else pure ()
      | none => pure ()

/-- Gives the variables their first values. -/
def initLocals (p : Procedure) : Fragment Unit :=
  if p.localsInitialized then pure ()
  else do
    p.initLocalsArray
    p.locals.toList.forM p.initVar

end Procedure

namespace Draft

/-- A debugger's view of a variable in the locals array. -/
def debugLocal (array : LocalId) (v : Local) : Draft Unit := do
  let slot ← acquireTemp .value
  emit (.loadLocal array)
  emit (.constStr v.name)
  Fragment.callIntrinsic .indirectLocal
  emit (.storeTemp slot)
  let frame ← getFrame
  setFrame { frame with debugLocals := frame.debugLocals ++ [(v.name, slot)] }

end Draft

namespace Plan

/-- Checks the context that a static procedure needs. -/
def contextCheck (c : Plan) : Draft Unit :=
  if c.options.debug && c.procedure.isStatic then do
    Draft.emit .loadContext
    Fragment.callIntrinsic .debugAssertNotNull
  else pure ()

/-- Marks the script as included. -/
def registration (c : Plan) : Draft Unit :=
  match c.procedure.kind with
  | .scriptMain script => Fragment.callWithName .onInclude script
  | _ => pure ()

/-- The debugger's views of the named variables, if they live in a locals array. -/
def debugLocals (c : Plan) : Draft Unit :=
  match c.procedure.localsArray with
  | some array =>
    if c.options.debug && c.options.sequencePoints then
      (c.procedure.locals.toList.filter fun v => v.isNamed && v.id ≠ array).forM
        (Draft.debugLocal array)
    else pure ()
  | none => pure ()

/-- A place to stop at the opening brace of the body. -/
def openingBrace (c : Plan) : Draft Unit :=
  match c.procedure.bodySpan with
  | some span =>
    if c.options.debug && span.isValid then do
      c.sequencePoint (some span.head)
      Draft.emit .nop
    else pure ()
  | none => pure ()

/-- The code that runs once per invocation, before the start block. -/
def entry (c : Plan) : Draft Unit := do
  if c.options.sequencePoints then Draft.emit .hiddenSequencePoint
  c.contextCheck
  c.registration
  c.procedure.initLocals
  c.debugLocals
  c.openingBrace
  if c.procedure.isGenerator then Draft.dispatch c.resume

end Plan

end StackCode
