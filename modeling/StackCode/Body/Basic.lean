import StackCode.Instr.Text

/-!
# Method bodies

The finished code of a procedure, with what a later stage has to know about it, and its listing.
-/

namespace StackCode

/-- What is known of code that has been appended to other code. -/
structure Summary where
  instrCount : Nat
  /-- The type of every temporary. -/
  temps : List Ty
  labelCount : Nat
  /-- The suspension points by index, ascending, with the labels where they are resumed. -/
  resumePoints : List (Int × Label)
  /-- The debugger's views: the variable and the temporary that shows it. -/
  debugLocals : List (Name × TempSlot)
deriving DecidableEq

/-- The finished code of a procedure. -/
structure MethodBody where
  name : Name
  instrs : List Instr
  temps : List Ty
  labelCount : Nat
  resumePoints : List (Int × Label)
  debugLocals : List (Name × TempSlot)
deriving DecidableEq

namespace MethodBody

/-- The body of a procedure with this code. -/
def ofSummary (name : Name) (instrs : List Instr) (s : Summary) : MethodBody :=
  { name, instrs, temps := s.temps, labelCount := s.labelCount, resumePoints := s.resumePoints
    debugLocals := s.debugLocals }

/-- A body with suspension points belongs to a generator. -/
def isGenerator (b : MethodBody) : Bool := !b.resumePoints.isEmpty

/-! ## Listing -/

/-- The line of an instruction; labels stand out to the left. -/
def lineText (names : Interner) (i : Instr) : String :=
  match i with
  | .markLabel _ => "  " ++ i.text names ++ "\n"
  | _ => "    " ++ i.text names ++ "\n"

/-- The line that tells where a generator is resumed. -/
def resumeText (b : MethodBody) : String :=
  if b.isGenerator then
    "  resume:" ++ String.join (b.resumePoints.map fun (index, l) =>
      " " ++ toString index ++ "=" ++ l.text) ++ "\n"
  else ""

/-- The listing of a body, which a person can read. -/
def listing (b : MethodBody) (names : Interner) : String :=
  "method " ++ names.lookup b.name ++ " (temps: " ++ toString b.temps.length ++ ", labels: " ++
    toString b.labelCount ++ ")\n" ++ b.resumeText ++ String.join (b.instrs.map (lineText names))

end MethodBody

end StackCode
