import StackCode.Fragment.Basic
import StackCode.LabelTable
import StackCode.TempPool

/-!
# Drafts

A procedure is drafted before it is assembled.  A draft is code that does not know yet which of it
can be reached: it consists of directives, and the assembler decides what each of them comes to.
Drafting itself therefore never depends on reachability; it hands out labels and temporaries the
same way in dead code and in live code.

Drafts form a monad, like fragments.  They share a frame, in which labels and temporaries are
allotted; the frame, like the code, survives the end of a draft that stops.
-/

namespace StackCode

/-- How control comes to a label. -/
inductive Arrival where
  /-- By exceptions alone, with the exception on the stack. -/
  | handler
  /-- By the code in front of it and by branches from anywhere. -/
  | join
  /-- By the code in front of it and by branches that all stand before it. -/
  | forward
deriving DecidableEq

/-- A step of a draft. -/
inductive Directive where
  | instr (i : Instr)
  | mark (label : Label) (arrival : Arrival)
  /-- The evaluation stack is empty here. -/
  | endStatement
  /-- Control does not get here. -/
  | endBlock (block : BlockId)
  /-- A return value is stored here. -/
  | stageReturn
  /-- Returns the value in the slot, to which the label leads from every place that stored one. -/
  | returnPoint (label : Label) (slot : TempSlot)
deriving DecidableEq

/-- What the draft of one procedure has allotted. -/
structure Frame where
  labels : LabelTable
  temps : TempPool := {}
  /-- The label that every return statement branches to, once there is one. -/
  returnLabel : Option Label := none
  /-- The slot that holds the return value, once a return statement of a procedure with a value
  asked for it. -/
  returnSlot : Option TempSlot := none
  /-- The views that a debugger has of the variables in the locals array. -/
  debugLocals : List (Name × TempSlot) := []

/-- What a draft has come to. -/
structure Drafted (α : Type) where
  code : List Directive
  frame : Frame
  result : Except LowerError α

/-- A draft: the directives it adds and what it allots, starting from a frame. -/
def Draft (α : Type) : Type := Frame → Drafted α

namespace Draft

/-- Continues a draft that did not stop. -/
def andThen {α β : Type} (x : Draft α) (f : α → Draft β) : Draft β := fun frame =>
  let first := x frame
  match first.result with
  | .ok a =>
    let rest := f a first.frame
    { code := first.code ++ rest.code, frame := rest.frame, result := rest.result }
  | .error e => { code := first.code, frame := first.frame, result := .error e }

instance : Monad Draft where
  pure a := fun frame => { code := [], frame, result := .ok a }
  bind := andThen

instance : LawfulMonad Draft := LawfulMonad.mk' Draft
  (by
    intro α x
    funext frame
    simp only [Functor.map, andThen, Function.comp, id]
    cases h : (x frame).result with
    | error e => simp only; rw [← h]
    | ok a => simp only [List.append_nil]; rw [← h])
  (by
    intro α β a f
    rfl)
  (by
    intro α β γ x f g
    funext frame
    simp only [Bind.bind, andThen]
    cases (x frame).result with
    | error e => rfl
    | ok a =>
      simp only
      cases (f a (x frame).frame).result with
      | error e => rfl
      | ok b => simp only [List.append_assoc])

/-- Adds a directive. -/
def directive (d : Directive) : Draft Unit := fun frame => { code := [d], frame, result := .ok () }

/-- Adds a fragment, which allots nothing. -/
def ofFragment {α : Type} (x : Fragment α) : Draft α := fun frame =>
  { code := x.code.map .instr, frame, result := x.result }

instance : MonadLift Fragment Draft := ⟨ofFragment⟩

/-- Adds an instruction. -/
def emit (i : Instr) : Draft Unit := directive (.instr i)

/-- Stops drafting. -/
def fail {α : Type} (e : LowerError) : Draft α := fun frame =>
  { code := [], frame, result := .error e }

/-- Places a label. -/
def mark (l : Label) (arrival : Arrival) : Draft Unit := directive (.mark l arrival)

/-- The frame as it is. -/
def getFrame : Draft Frame := fun frame => { code := [], frame, result := .ok frame }

/-- Changes the frame. -/
def setFrame (frame : Frame) : Draft Unit := fun _ => { code := [], frame, result := .ok () }

/-! ## Labels and temporaries -/

/-- Allots a label. -/
def freshLabel : Draft Label := do
  let frame ← getFrame
  let (l, labels) := frame.labels.fresh
  setFrame { frame with labels }
  return l

/-- Allots a label with a name for debugging. -/
def namedLabel (name : String) : Draft Label := do
  let frame ← getFrame
  let (l, labels) := frame.labels.named name
  setFrame { frame with labels }
  return l

/-- Checks out a temporary, which is declared when it is new. -/
def acquireTemp (ty : Ty) : Draft TempSlot := do
  let frame ← getFrame
  let (slot, isNew, temps) := frame.temps.acquire ty
  setFrame { frame with temps }
  if isNew then emit (.allocTemp slot ty)
  return slot

/-- Hands a temporary back. -/
def releaseTemp (slot : TempSlot) : Draft Unit := do
  let frame ← getFrame
  let (result, temps) := frame.temps.tryRelease slot
  setFrame { frame with temps }
  match result with
  | .error e => fail e
  | .ok () => emit (.freeTemp slot)

/-! ## What the operations come to -/

section
variable {α β : Type}

@[simp] theorem pure_apply (a : α) (frame : Frame) :
    (pure a : Draft α) frame = { code := [], frame, result := .ok a } := rfl

@[simp] theorem directive_apply (d : Directive) (frame : Frame) :
    directive d frame = { code := [d], frame, result := .ok () } := rfl

@[simp] theorem ofFragment_apply (x : Fragment α) (frame : Frame) :
    ofFragment x frame = { code := x.code.map .instr, frame, result := x.result } := rfl

@[simp] theorem fail_apply (e : LowerError) (frame : Frame) :
    (fail e : Draft α) frame = { code := [], frame, result := .error e } := rfl

theorem bind_of_ok {x : Draft α} {frame : Frame} {a : α} (h : (x frame).result = .ok a)
    (f : α → Draft β) :
    (x >>= f) frame =
      { code := (x frame).code ++ (f a (x frame).frame).code
        frame := (f a (x frame).frame).frame
        result := (f a (x frame).frame).result } := by
  change x.andThen f frame = _
  simp only [andThen, h]

theorem bind_of_error {x : Draft α} {frame : Frame} {e : LowerError}
    (h : (x frame).result = .error e) (f : α → Draft β) :
    (x >>= f) frame =
      { code := (x frame).code, frame := (x frame).frame, result := .error e } := by
  change x.andThen f frame = _
  simp only [andThen, h]

end

end Draft

end StackCode
