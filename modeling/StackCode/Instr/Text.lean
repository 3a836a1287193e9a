import StackCode.Decimal.Positional
import StackCode.Instr.Basic
import StackCode.Interner
import StackCode.Text.Quoted

/-!
# The text of instructions

One line per instruction: the mnemonic, then what the instruction works on.  Names are looked up, so
that a listing reads without the interner.
-/

namespace StackCode

def Label.text (l : Label) : String := "L" ++ toString l.index

namespace Instr

/-- A case of a jump table. -/
def caseText (c : Int × Label) : String := toString c.1 ++ " => " ++ c.2.text

/-- The text of an instruction. -/
def text (names : Interner) (i : Instr) : String :=
  let head := i.mnemonic ++ " "
  match i with
  | .constInt n => head ++ toString n
  | .constFloat bits => head ++ floatText bits
  | .constBool b => head ++ toString b
  | .constStr s => head ++ quoted (names.lookup s)
  | .loadLocal v | .storeLocal v | .clearLocal v => head ++ toString v.index
  | .loadTemp t | .storeTemp t | .freeTemp t => head ++ toString t.index
  | .convert source target => head ++ source.text ++ " -> " ++ target.text
  | .binary op => head ++ op.text
  | .call callee argc returns =>
    let name := match callee with
      | .function f => names.lookup f
      | .intrinsic f => f.text
    head ++ name ++ "/" ++ toString argc ++ if returns then "" else " void"
  | .new cls argc => head ++ names.lookup cls ++ "/" ++ toString argc
  | .branch l | .branchIf _ l | .leave l => head ++ l.text
  | .switch cases default =>
    head ++ "[" ++ ", ".intercalate (cases.map caseText) ++ "] else " ++ default.text
  | .enterTry l => head ++ "-> " ++ l.text
  | .markLabel l => l.text ++ ":"
  | .allocTemp t ty => head ++ toString t.index ++ " : " ++ ty.text
  | .sequencePoint span => head ++ span.text
  | .hiddenSequencePoint => head ++ "hidden"
  | .nop | .constNull | .loadContext | .loadState | .storeState | .pop | .dup | .ret _ | .throw =>
    i.mnemonic

end Instr

end StackCode
