import StackCode.Assembly.Flow

/-!
# Assembly

The assembler turns directives into instructions, which it appends to code that may be there
already. It stops at the first directive that is an error, and what it has appended until then
stays.
-/

namespace StackCode

/-- What an assembly has come to. -/
structure Assembly where
  code : Array Instr
  flow : Flow
  /-- Why the assembler stopped before the end. -/
  fault : Option LowerError

/-- Appends what the directives come to. -/
def assemble (code : Array Instr) (flow : Flow) : List Directive → Assembly
  | [] => { code, flow, fault := none }
  | d :: rest =>
    match flow.step d with
    | .error e => { code, flow, fault := some e }
    | .ok (instrs, flow) => assemble (code ++ instrs) flow rest

end StackCode
