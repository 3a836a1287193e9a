import StackCode.Layout

/-!
# Options of code generation
-/

namespace StackCode

/-- The choices for one run of the code generator. -/
structure Options where
  /-- Adds code for debugging: checks of the context, a place to stop at the opening brace, and
  views of the variables in a locals array. -/
  debug : Bool := false
  /-- Adds the places of the source at which a debugger can stop. -/
  sequencePoints : Bool := false
  order : BlockOrder := .ordinal
  /-- Checks the finished code once more. -/
  verify : Bool := true
deriving DecidableEq

namespace Options

/-- The choices for a debugging build. -/
def debugging : Options := { debug := true, sequencePoints := true }

def withOrder (o : Options) (order : BlockOrder) : Options := { o with order }

end Options

end StackCode
