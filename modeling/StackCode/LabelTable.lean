import StackCode.LowerError

/-!
# Label tables

The labels of one procedure.  A label is allocated before or after the branches that use it, may be
branched to any number of times, and is marked at most once; in finished code every label that is
branched to has been marked.
-/

namespace StackCode

/-- What is known of a label. -/
structure LabelEntry where
  /-- A name for debugging. -/
  name : Option String := none
  isMarked : Bool := false
  isReferenced : Bool := false
deriving DecidableEq

/-- The labels allocated so far; the position of one is its number. -/
structure LabelTable where
  entries : Array LabelEntry := #[]
deriving DecidableEq

namespace LabelTable

def size (t : LabelTable) : Nat := t.entries.size

/-- Adds a label. -/
def add (t : LabelTable) (e : LabelEntry) : Label × LabelTable := (⟨t.size⟩, ⟨t.entries.push e⟩)

/-- A fresh label. -/
def fresh (t : LabelTable) : Label × LabelTable := t.add {}

/-- A fresh label with a name for debugging. -/
def named (t : LabelTable) (name : String) : Label × LabelTable := t.add { name := some name }

/-- Adds `n` fresh labels. -/
def reserve (t : LabelTable) (n : Nat) : LabelTable :=
  ⟨t.entries ++ Array.replicate n ({} : LabelEntry)⟩

@[simp] theorem size_reserve (t : LabelTable) (n : Nat) : (t.reserve n).size = t.size + n := by
  simp [reserve, size]

/-- Labels that are reserved are drawn one by one. -/
theorem reserve_succ (t : LabelTable) (n : Nat) : t.reserve (n + 1) = t.fresh.2.reserve n := by
  simp [reserve, fresh, add, ← Array.toList_inj, List.replicate_succ]

def find? (t : LabelTable) (l : Label) : Option LabelEntry := t.entries[l.index]?

/-- Records that the label has been placed. -/
def mark (t : LabelTable) (l : Label) : Except LowerError LabelTable :=
  match t.find? l with
  | none => .error (.unknownLabel l)
  | some e =>
    if e.isMarked then .error (.labelMarkedTwice l)
    else .ok ⟨t.entries.setIfInBounds l.index { e with isMarked := true }⟩

/-- Records a branch to the label. -/
def reference (t : LabelTable) (l : Label) : Except LowerError LabelTable :=
  match t.find? l with
  | none => .error (.unknownLabel l)
  | some e => .ok ⟨t.entries.setIfInBounds l.index { e with isReferenced := true }⟩

/-- Records a branch to each of the labels. -/
def referenceAll (t : LabelTable) (ls : List Label) : Except LowerError LabelTable :=
  ls.foldlM reference t

def isMarked (t : LabelTable) (l : Label) : Bool := (t.find? l).any (·.isMarked)

def isReferenced (t : LabelTable) (l : Label) : Bool := (t.find? l).any (·.isReferenced)

def name? (t : LabelTable) (l : Label) : Option String := (t.find? l).bind (·.name)

/-- The first label that is branched to and not marked. -/
def firstUnmarked? (t : LabelTable) : Option Label :=
  (t.entries.findIdx? fun e => e.isReferenced && !e.isMarked).map Label.mk

/-- Checks that every label that is branched to is marked. -/
def finish (t : LabelTable) : Except LowerError Unit :=
  match t.firstUnmarked? with
  | some l => .error (.unmarkedLabel l)
  | none => .ok ()

end LabelTable

end StackCode
