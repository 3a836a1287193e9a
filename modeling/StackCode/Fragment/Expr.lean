import StackCode.Fragment.Storage

/-!
# Code of expressions

The code of an expression pushes its value and tells the type of what it pushed; `void` says that
nothing was pushed.  It only ever uses what it pushed itself, so an operand can be computed while
others wait below it.
-/

namespace StackCode

namespace Procedure

mutual

/-- Pushes the value of an expression, if it has one. -/
def evaluate (p : Procedure) : Expr → Fragment Ty
  | .literal note v => do
    Fragment.literal v
    return note.ty.orValue
  | .var note id => do
    p.loadVar id
    return note.ty.orValue
  | .assign note target value => do
    let v ← p.getLocal target
    let place ← p.place target
    place.pushKey
    (p.evaluate value).convertedTo v.ty .assigned
    if note.ty.isVoid then
      place.store
    else
      match place with
      | .slot id => do
        Fragment.emit .dup
        (Place.slot id).store
      | .entry array key ty => do
        -- The array and the key lie under the value, so it is read back.
        (Place.entry array key ty).store
        p.loadVar target
      Fragment.convert v.ty note.ty
    return note.ty
  | .binary note op lhs rhs => do
    discard ((p.evaluate lhs).required .leftOperand)
    discard ((p.evaluate rhs).required .rightOperand)
    Fragment.emit (.binary op)
    return note.ty.orValue
  | .call note callee args => do
    p.evaluateArgs args
    Fragment.emit (.call (.function callee) args.length (!note.ty.isVoid))
    return note.ty
  | .new note cls args => do
    p.evaluateArgs args
    Fragment.emit (.new cls args.length)
    return note.ty.orValue
  | .item note array key => do
    (p.evaluate array).convertedTo .array .indexedArray
    (p.evaluate key).convertedTo .value .arrayKey
    Fragment.callIntrinsic .arrayGet
    return note.ty.orValue

/-- Pushes the values of arguments, from left to right. -/
def evaluateArgs (p : Procedure) : List Expr → Fragment Unit
  | [] => pure ()
  | arg :: args => do
    discard ((p.evaluate arg).required .callArgument)
    p.evaluateArgs args

end

/-- Pushes the value of an expression as one of a type, for a use that needs one. -/
def value (p : Procedure) (e : Expr) (ty : Ty) (use : ValueUse) : Fragment Unit :=
  (p.evaluate e).convertedTo ty use

end Procedure

end StackCode
