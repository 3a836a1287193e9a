import StackCode.Draft.Basic
import StackCode.Fragment.Storage
import StackCode.Generator.State

/-!
# Returning

A procedure returns its value in one place.  Every return statement stores the value in one slot,
the return slot, and branches to one label, the return label, in the exit block.  Both come into
being with the first return statement; without a value to return there is no slot.

A generator passes its return value to the run-time system instead, and leaves through the exit
block as closed.
-/

namespace StackCode

namespace Draft

/-- The return label. -/
def returnLabel : Draft Label := do
  let frame ← getFrame
  match frame.returnLabel with
  | some l => return l
  | none => do
    let l ← namedLabel "<return>"
    let frame ← getFrame
    setFrame { frame with returnLabel := some l }
    return l

/-- The return slot for a return type. -/
def returnSlot? (returnType : Ty) : Draft (Option TempSlot) := do
  let frame ← getFrame
  match frame.returnSlot with
  | some slot => return some slot
  | none =>
    if returnType.isVoid then return none
    else do
      let slot ← acquireTemp returnType
      let frame ← getFrame
      setFrame { frame with returnSlot := some slot }
      return some slot

/-- Stores the value on the stack, of type `ty`, as the return value and branches to the return
label.  Where a value is due and none is there, the default value is stored. -/
def stageReturn (returnType ty : Ty) : Draft Unit := do
  match ← returnSlot? returnType with
  | some slot => do
    if ty.isVoid then Fragment.pushDefault returnType else Fragment.convert ty returnType
    directive .stageReturn
    emit (.storeTemp slot)
  | none => if ty.isVoid then pure () else emit .pop
  let l ← returnLabel
  emit (.branch l)

/-- Records the value on the stack, of type `ty`, as the return value of a generator and branches to
the return label. -/
def finishGenerator (ty : Ty) : Draft Unit := do
  if ty.isVoid then pure ()
  else do
    Fragment.convert ty .value
    Fragment.callIntrinsic .setGeneratorReturn
  let l ← returnLabel
  emit (.branch l)

/-- Sets the state of the generator. -/
def setState (s : GeneratorState) : Draft Unit := do
  emit (.constInt s.toInt)
  emit .storeState

/-- The exit block of a generator. -/
def exitGenerator : Draft Unit := do
  let frame ← getFrame
  match frame.returnLabel with
  | some l => mark l .forward
  | none => pure ()
  setState .closed
  emit (.ret false)

/-- The exit block of an ordinary procedure.  Paths without a return statement return the default
value; those with one follow the return label. -/
def exitOrdinary (returnType : Ty) : Draft Unit := do
  let frame ← getFrame
  match frame.returnSlot with
  | none => do
    match frame.returnLabel with
    | some l => mark l .forward
    | none => pure ()
    Fragment.pushDefault returnType
    emit (.ret !returnType.isVoid)
  | some slot => do
    Fragment.pushDefault returnType
    emit (.ret !returnType.isVoid)
    let l ← returnLabel
    directive (.returnPoint l slot)
    releaseTemp slot

end Draft

end StackCode
