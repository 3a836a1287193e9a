import StackCode.Span
import StackCode.Ty

/-!
# Expressions

Expression trees as name resolution leaves them: every node knows the type of the value it
produces, and possibly where it stands in the source.
-/

namespace StackCode

/-- A variable of a procedure: its position in the procedure's table of locals. -/
structure LocalId where
  index : Nat
deriving DecidableEq

inductive BinaryOp where
  | add | sub | mul | div | mod | concat | eq | notEq | lt | ltEq | gt | gtEq | and | or
deriving DecidableEq

/-- The operator as it is written in the source language. -/
def BinaryOp.text : BinaryOp → String
  | .add => "+"
  | .sub => "-"
  | .mul => "*"
  | .div => "/"
  | .mod => "%"
  | .concat => "."
  | .eq => "=="
  | .notEq => "!="
  | .lt => "<"
  | .ltEq => "<="
  | .gt => ">"
  | .gtEq => ">="
  | .and => "&&"
  | .or => "||"

/-- What every expression node carries: the type of its value, where `void` promises none, and the
source span. -/
structure Annotation where
  ty : Ty
  span : Option Span := none
deriving DecidableEq

/-- An expression. -/
inductive Expr where
  | literal (note : Annotation) (value : Literal)
  | var (note : Annotation) (id : LocalId)
  /-- An assignment has the assigned value as its own. -/
  | assign (note : Annotation) (target : LocalId) (value : Expr)
  | binary (note : Annotation) (op : BinaryOp) (lhs rhs : Expr)
  /-- A direct call of a user function. -/
  | call (note : Annotation) (callee : Name) (args : List Expr)
  /-- The creation of an object. -/
  | new (note : Annotation) (cls : Name) (args : List Expr)
  /-- The element of an array under a key. -/
  | item (note : Annotation) (array key : Expr)

namespace Expr

def note : Expr → Annotation
  | literal n _ | var n _ | assign n _ _ | binary n _ _ _ | call n _ _ | new n _ _ | item n _ _ => n

/-- The type promised for the value; `void` promises none. -/
def ty (e : Expr) : Ty := e.note.ty

def span (e : Expr) : Option Span := e.note.span

/-- The same expression under another annotation. -/
def withNote (e : Expr) (n : Annotation) : Expr :=
  match e with
  | literal _ v => literal n v
  | var _ id => var n id
  | assign _ t v => assign n t v
  | binary _ op l r => binary n op l r
  | call _ f args => call n f args
  | new _ c args => new n c args
  | item _ a k => item n a k

@[simp] theorem note_withNote (e : Expr) (n : Annotation) : (e.withNote n).note = n := by
  cases e <;> rfl

def withSpan (e : Expr) (s : Span) : Expr := e.withNote { e.note with span := some s }

def withTy (e : Expr) (t : Ty) : Expr := e.withNote { e.note with ty := t }

/-- A literal with the type of its kind. -/
def lit (v : Literal) : Expr := literal { ty := v.ty } v

end Expr

end StackCode
