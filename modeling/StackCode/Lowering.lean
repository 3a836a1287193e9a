import StackCode.Assembly.Basic
import StackCode.Body.Verify
import StackCode.Draft.Block

/-!
# Lowering

A procedure becomes stack-machine code in three steps: it is planned, drafted and assembled.  The
code can be appended to code that is there already, or become a body of its own, which can be
verified once more.
-/

namespace StackCode

namespace Plan

/-- What is known of the code of a finished draft, which began at position `base`. -/
def summary (c : Plan) (base : Nat) (frame : Frame) (assembly : Assembly) :
    Except LowerError Summary := do
  assembly.flow.labels.finish
  match frame.temps.firstLeaked? with
  | some slot => .error (.tempLeaked slot)
  | none =>
    return {
      instrCount := assembly.code.size - base
      temps := frame.temps.types.toList
      labelCount := frame.labels.size
      resumePoints := c.resume.points
      debugLocals := frame.debugLocals }

/-- Appends the code of a procedure.  Of an error in the code and a draft that stopped, the error
comes first, since the assembler sees no more than what was drafted. -/
def appendTo (c : Plan) (labels : LabelTable) (code : Array Instr) :
    Array Instr × Except LowerError Summary :=
  let base := code.size
  let drafted := c.draft { labels }
  let assembly := assemble code { labels := drafted.frame.labels } drafted.code
  match assembly.fault, drafted.result with
  | some e, _ => (assembly.code, .error e)
  | none, .error e => (assembly.code, .error e)
  | none, .ok () => (assembly.code, c.summary base drafted.frame assembly)

end Plan

namespace Procedure

/-- Appends the code of a procedure to code that is there already, with the blocks arranged by a
strategy.  After an error, part of the code may have been appended. -/
def lowerInto (p : Procedure) (options : Options) (strategy : LayoutStrategy)
    (code : Array Instr) : Array Instr × Except LowerError Summary :=
  match Plan.make p options strategy with
  | .error e => (code, .error e)
  | .ok (plan, labels) => plan.appendTo labels code

/-- The body of a procedure, with the blocks arranged as the options say. -/
def lower (p : Procedure) (options : Options) : Except LowerError MethodBody := do
  let (code, result) := p.lowerInto options options.order.arrange #[]
  let summary ← result
  let body := MethodBody.ofSummary p.name code.toList summary
  if options.verify then body.verify
  return body

end Procedure

/-- The bodies of independent procedures, in their order. -/
def lowerModule (procedures : List Procedure) (options : Options) :
    List (Except LowerError MethodBody) :=
  procedures.map fun p => p.lower options

end StackCode
