/-!
# Intrinsics

An intrinsic is an operation that the run-time system provides.  It takes its arguments from the
evaluation stack; one that needs the run-time context takes it as its first argument.
-/

namespace StackCode

/-- An operation of the run-time system, with its arguments and its result. -/
inductive Intrinsic where
  /-- `(context, name)`: registers a conditionally declared function. -/
  | declareFunction
  /-- `(context, name)`: registers a conditionally declared class. -/
  | declareType
  /-- `(context, name, value)`: defines a global constant. -/
  | defineConstant
  /-- `(context, name) → reference`: the storage of a global variable. -/
  | globalRef
  /-- `(context, key) → holder`: the static storage under a key. -/
  | staticHolder
  /-- `(holder) → bool` -/
  | staticIsInitialized
  /-- `(holder, value)`: stores the initial value and flags the holder. -/
  | staticInitialize
  /-- `(array, key) → value` -/
  | arrayGet
  /-- `(array, key, value)` -/
  | arraySet
  /-- `(array, key)` -/
  | removeKey
  /-- `(instance, name)` -/
  | unsetProperty
  /-- `(value)`: publishes the current value of a generator. -/
  | setGeneratorCurrent
  /-- `(value, key)`: publishes the current value and key of a generator. -/
  | setGeneratorCurrentWithKey
  /-- `(value, key)`: publishes a value passed on from another generator, whose keys do not count
  for the automatic numbering. -/
  | setGeneratorCurrentDelegated
  /-- `(value)`: records the return value of a generator. -/
  | setGeneratorReturn
  /-- `(context, script)`: marks a script file as included. -/
  | onInclude
  /-- `(capacity) → array`: a fresh locals array. -/
  | newLocalsArray
  /-- `(locals, name) → handle`: a debugger's view of a variable in the locals array. -/
  | indirectLocal
  /-- `(value)`: checks that the value is not null. -/
  | debugAssertNotNull
deriving DecidableEq

namespace Intrinsic

/-- The number of arguments that are taken from the stack. -/
def arity : Intrinsic → Nat
  | .staticIsInitialized | .setGeneratorCurrent | .setGeneratorReturn | .newLocalsArray
  | .debugAssertNotNull => 1
  | .declareFunction | .declareType | .globalRef | .staticHolder | .staticInitialize | .arrayGet
  | .removeKey | .unsetProperty | .setGeneratorCurrentWithKey | .setGeneratorCurrentDelegated
  | .onInclude | .indirectLocal => 2
  | .defineConstant | .arraySet => 3

/-- Whether a result is left on the stack. -/
def returns : Intrinsic → Bool
  | .globalRef | .staticHolder | .staticIsInitialized | .arrayGet | .newLocalsArray
  | .indirectLocal => true
  | _ => false

/-- The name in listings. -/
def text : Intrinsic → String
  | .declareFunction => "DeclareFunction"
  | .declareType => "DeclareType"
  | .defineConstant => "DefineConstant"
  | .globalRef => "GlobalRef"
  | .staticHolder => "StaticHolder"
  | .staticIsInitialized => "StaticIsInitialized"
  | .staticInitialize => "StaticInitialize"
  | .arrayGet => "ArrayGet"
  | .arraySet => "ArraySet"
  | .removeKey => "RemoveKey"
  | .unsetProperty => "UnsetProperty"
  | .setGeneratorCurrent => "SetGeneratorCurrent"
  | .setGeneratorCurrentWithKey => "SetGeneratorCurrentWithKey"
  | .setGeneratorCurrentDelegated => "SetGeneratorCurrentDelegated"
  | .setGeneratorReturn => "SetGeneratorReturn"
  | .onInclude => "OnInclude"
  | .newLocalsArray => "NewLocalsArray"
  | .indirectLocal => "IndirectLocal"
  | .debugAssertNotNull => "DebugAssertNotNull"

end Intrinsic

end StackCode
