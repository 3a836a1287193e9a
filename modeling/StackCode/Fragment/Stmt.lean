import StackCode.Fragment.Expr

/-!
# Code of simple statements

The statements that are straight-line code whatever surrounds them.  Each leaves the evaluation
stack as it found it.
-/

namespace StackCode

/-- Calls an intrinsic with the context and a name. -/
def Fragment.callWithName (i : Intrinsic) (name : Name) : Fragment Unit := do
  emit .loadContext
  emit (.constStr name)
  callIntrinsic i

namespace Procedure

/-- Evaluates an expression for its effects alone. -/
def discardValue (p : Procedure) (e : Expr) : Fragment Unit := do
  let ty ← p.evaluate e
  if ty.isVoid then pure () else Fragment.emit .pop

/-- Binds a variable to the storage of the global variable with its name. -/
def bindGlobal (p : Procedure) (id : LocalId) : Fragment Unit := do
  let v ← p.getLocal id
  let place ← p.place id
  place.pushKey
  Fragment.callWithName .globalRef v.name
  place.store

/-- Defines a global constant. -/
def defineConst (p : Procedure) (name : Name) (e : Expr) : Fragment Unit := do
  Fragment.emit .loadContext
  Fragment.emit (.constStr name)
  p.value e .value .constant
  Fragment.callIntrinsic .defineConstant

/-- Binds a variable to the static storage under a key. -/
def bindHolder (p : Procedure) (id : LocalId) (key : Name) : Fragment Unit := do
  let place ← p.place id
  place.pushKey
  Fragment.callWithName .staticHolder key
  place.store

/-- Removes a variable, an element of an array or a property of an object. -/
def unset (p : Procedure) : UnsetTarget → Fragment Unit
  | .var id => do
    let place ← p.place id
    place.clear
  | .item array key => do
    p.value array .array .unsetArray
    p.value key .value .unsetKey
    Fragment.callIntrinsic .removeKey
  | .property inst name => do
    p.value inst .value .unsetInstance
    Fragment.emit (.constStr name)
    Fragment.callIntrinsic .unsetProperty

/-- Throws the value of an expression. -/
def throwValue (p : Procedure) (e : Expr) : Fragment Unit := do
  p.value e .value .thrown
  Fragment.emit .throw

/-- Publishes the value and the key of a suspension point.  A delegated value without a key gets the
null key. -/
def publish (p : Procedure) (y : Yield) : Fragment Unit := do
  p.value y.value .value .yielded
  match y.key with
  | some key => do
    p.value key .value .yieldedKey
    Fragment.callIntrinsic
      (if y.isDelegated then .setGeneratorCurrentDelegated else .setGeneratorCurrentWithKey)
  | none =>
    if y.isDelegated then do
      Fragment.emit .constNull
      Fragment.callIntrinsic .setGeneratorCurrentDelegated
    else
      Fragment.callIntrinsic .setGeneratorCurrent

end Procedure

end StackCode
