import StackCode.Name

/-!
# Value types and literals

Code generation needs little of a type: whether a value exists at all, how it is stored, and which
literal a fresh slot holds.  Reference-like types share the null default.
-/

namespace StackCode

/-- The type of a value on the evaluation stack or in a slot. -/
inductive Ty where
  /-- No value: an expression of this type leaves nothing on the stack. -/
  | void
  | null
  | bool
  | int
  | float
  | string
  | array
  /-- A dynamically typed value. -/
  | value
  /-- An instance of the class of that name. -/
  | object (cls : Name)
deriving DecidableEq

/-- A constant.  A float is kept as its IEEE bits, so that equality is decidable and exact. -/
inductive Literal where
  | int (n : Int)
  | float (bits : UInt64)
  | bool (b : Bool)
  | str (s : Name)
  | null
deriving DecidableEq

/-- The type a literal evaluates to. -/
def Literal.ty : Literal → Ty
  | .int _ => .int
  | .float _ => .float
  | .bool _ => .bool
  | .str _ => .string
  | .null => .null

namespace Ty

def isVoid : Ty → Bool
  | .void => true
  | _ => false

@[simp] theorem isVoid_iff {t : Ty} : t.isVoid = true ↔ t = .void := by cases t <;> simp [isVoid]

/-- The literal that a fresh slot of this type holds; `void` has no slot. -/
def default? : Ty → Option Literal
  | .void => none
  | .null | .array | .value | .object _ => some .null
  | .bool => some (.bool false)
  | .int => some (.int 0)
  | .float => some (.float 0)
  | .string => some (.str .empty)

theorem default?_eq_none_iff {t : Ty} : t.default? = none ↔ t = .void := by
  cases t <;> simp [default?]

/-- The type of a value that is certainly there: what is annotated `void` but pushes a value all
the same is dynamically typed. -/
def orValue (t : Ty) : Ty := if t.isVoid then .value else t

theorem orValue_ne_void (t : Ty) : t.orValue ≠ .void := by cases t <;> simp [orValue, isVoid]

/-- The spelling of a type in listings. -/
def text : Ty → String
  | .void => "Void"
  | .null => "Null"
  | .bool => "Bool"
  | .int => "Int"
  | .float => "Float"
  | .string => "String"
  | .array => "Array"
  | .value => "Value"
  | .object cls => "Object(" ++ cls.text ++ ")"

end Ty

end StackCode
