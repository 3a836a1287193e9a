import StackCode.Fragment.Basic
import StackCode.Procedure

/-!
# Variable storage

A variable lives in a slot of its own, or, when the procedure keeps a locals array, in an entry of
that array under its name.  A store comes in two halves, so that the array and the key are on the
stack before the value is computed.
-/

namespace StackCode

/-- Where a variable lives. -/
inductive Place where
  | slot (id : LocalId)
  /-- The entry of the locals array under the variable's name; the entry holds a dynamically typed
  value, the variable has a type of its own. -/
  | entry (array : LocalId) (key : Name) (ty : Ty)
deriving DecidableEq

namespace Procedure

/-- A declared variable. -/
def getLocal (p : Procedure) (id : LocalId) : Except LowerError Local :=
  match p.locals.get? id with
  | some v => .ok v
  | none => .error (.unknownLocal id)

/-- Where a variable lives.  Temporaries and the other variables without a name of the user's
choice keep their slots, and so does the variable that holds the array. -/
def place (p : Procedure) (id : LocalId) : Except LowerError Place := do
  let v ← p.getLocal id
  match p.localsArray with
  | some array =>
    if array ≠ id && v.isNamed then
      discard (p.getLocal array)
      return .entry array v.name v.ty
    else
      return .slot id
  | none => return .slot id

end Procedure

namespace Fragment

/-- Turns the value on the stack into one of another type; into `void`, it is discarded. -/
def convert (source target : Ty) : Fragment Unit :=
  if source = target then pure ()
  else if source.isVoid then fail (.missingValue .conversion)
  else if target.isVoid then emit .pop
  else emit (.convert source target)

/-- Pushes a literal. -/
def literal (v : Literal) : Fragment Unit := emit (.ofLiteral v)

/-- Pushes the default value of a type; of `void`, nothing. -/
def pushDefault (ty : Ty) : Fragment Unit := ty.default?.elim (pure ()) literal

/-- Passes on the type of a value, and stops if there is none. -/
def required (x : Fragment Ty) (use : ValueUse) : Fragment Ty := do
  let ty ← x
  if ty.isVoid then fail (.missingValue use) else pure ty

/-- Turns a required value into one of a type. -/
def convertedTo (x : Fragment Ty) (target : Ty) (use : ValueUse) : Fragment Unit := do
  let ty ← x.required use
  convert ty target

end Fragment

namespace Place

/-- The array and the key of an entry. -/
def pushKey : Place → Fragment Unit
  | .slot _ => pure ()
  | .entry array key _ => do
    Fragment.emit (.loadLocal array)
    Fragment.emit (.constStr key)

/-- Pushes the value of the variable, typed as the variable. -/
def load : Place → Fragment Unit
  | .slot id => Fragment.emit (.loadLocal id)
  | .entry array key ty => do
    (Place.entry array key ty).pushKey
    Fragment.callIntrinsic .arrayGet
    Fragment.convert .value ty

/-- Takes the value, typed as the variable, from above the array and the key. -/
def store : Place → Fragment Unit
  | .slot id => Fragment.emit (.storeLocal id)
  | .entry _ _ ty => do
    Fragment.convert ty .value
    Fragment.callIntrinsic .arraySet

/-- Removes the binding of the variable. -/
def clear : Place → Fragment Unit
  | .slot id => Fragment.emit (.clearLocal id)
  | .entry array key ty => do
    (Place.entry array key ty).pushKey
    Fragment.callIntrinsic .removeKey

end Place

namespace Procedure

/-- Pushes the value of a variable. -/
def loadVar (p : Procedure) (id : LocalId) : Fragment Unit := do
  let place ← p.place id
  place.load

end Procedure

end StackCode
