import StackCode.Graph.Traversal

/-!
# Procedures

A procedure is a control-flow graph together with its variables and the few facts about its
surroundings that its code depends on.

A procedure may keep a *locals array*: a runtime array, held by one of its variables, in which the
named user variables live under their names instead of in slots of their own.
-/

namespace StackCode

/-- How a variable came to exist. -/
inductive VarKind where
  | parameter
  /-- The object that a method is called on. -/
  | this
  /-- Declared by the user. -/
  | user
  /-- Introduced by the compiler. -/
  | temporary
  /-- A variable that every scope can see. -/
  | superGlobal
deriving DecidableEq

/-- A variable of a procedure. -/
structure Local where
  id : LocalId
  /-- The source name; temporaries have the empty name. -/
  name : Name
  ty : Ty
  kind : VarKind
deriving DecidableEq

namespace Local

/-- Whether a variable starts out with the default value of its type. -/
def needsInit (v : Local) : Bool := v.kind == .user || v.kind == .temporary

/-- Named user variables and parameters are the ones that a locals array can hold. -/
def isNamed (v : Local) : Bool := (v.kind == .user || v.kind == .parameter) && !v.name.isEmpty

/-- Whether the position of each variable is its id. -/
def areNumbered (vars : Array Local) : Bool :=
  vars.toList.map (·.id) = (List.range vars.size).map LocalId.mk

end Local

/-- The variables of a procedure, in order of declaration; the position of one is its id. -/
structure Locals where
  vars : Array Local := #[]
  numbered : Local.areNumbered vars = true := by exact Eq.refl true
deriving DecidableEq

namespace Locals

def size (l : Locals) : Nat := l.vars.size

def get? (l : Locals) (id : LocalId) : Option Local := l.vars[id.index]?

def toList (l : Locals) : List Local := l.vars.toList

theorem ids_eq (l : Locals) : l.vars.toList.map (·.id) = (List.range l.vars.size).map LocalId.mk :=
  of_decide_eq_true l.numbered

/-- Adds a variable. -/
def declare (l : Locals) (name : Name) (ty : Ty) (kind : VarKind) : LocalId × Locals :=
  (⟨l.size⟩, {
    vars := l.vars.push { id := ⟨l.size⟩, name, ty, kind }
    numbered := by simp [Local.areNumbered, List.range_succ, l.ids_eq, size] })

theorem id_of_get? {l : Locals} {id : LocalId} {v : Local} (h : l.get? id = some v) : v.id = id := by
  unfold get? at h
  have hid := congrArg (·[id.index]?) l.ids_eq
  simp only [List.getElem?_map, Array.getElem?_toList, h] at hid
  rw [List.getElem?_range (Array.getElem?_eq_some_iff.1 h).1] at hid
  exact Option.some_inj.1 hid

theorem mem_toList_iff {l : Locals} {v : Local} : v ∈ l.toList ↔ l.get? v.id = some v := by
  constructor
  · intro h
    obtain ⟨k, hk⟩ := List.mem_iff_getElem?.1 h
    have hget : l.get? ⟨k⟩ = some v := by rwa [get?, ← Array.getElem?_toList]
    rwa [id_of_get? hget]
  · intro h
    rw [get?, ← Array.getElem?_toList] at h
    exact List.mem_of_getElem? h

/-- No two variables share an id. -/
theorem nodup_ids (l : Locals) : (l.toList.map (·.id)).Nodup := by
  rw [toList, l.ids_eq]
  exact List.pairwise_map.2 (List.nodup_range.imp fun hne heq => hne (LocalId.mk.inj heq))

end Locals

inductive ProcedureKind where
  | function
  | method
  /-- The implicit main routine of a script file. -/
  | scriptMain (script : Name)
deriving DecidableEq

/-- A procedure. -/
structure Procedure where
  name : Name
  kind : ProcedureKind := .function
  returnType : Ty
  locals : Locals
  graph : FlowGraph
  /-- A generator can suspend itself and be resumed. -/
  isGenerator : Bool := false
  isStatic : Bool := false
  /-- The caller has given the variables their first values. -/
  localsInitialized : Bool := false
  /-- The span of the body, braces included. -/
  bodySpan : Option Span := none
  /-- The variable that holds the locals array, if there is one. -/
  localsArray : Option LocalId := none

namespace Procedure

/-- Control enters a procedure at its start, and a generator also at its suspension points. -/
def roots (p : Procedure) : List BlockId :=
  p.graph.start :: if p.isGenerator then p.graph.yields.map (·.block) else []

/-- The blocks that code is generated for, ascending: the reachable ones and the exit. -/
def liveBlocks (p : Procedure) : List BlockId :=
  let reached := p.graph.reachableFrom p.roots
  p.graph.ids.filter fun b => b ∈ reached || b == p.graph.exit

end Procedure

end StackCode
