/-!
# Identifiers

Every identifier and string constant of a program is a `Name`: an index into the interner that
holds the text.  Two names are compared by index alone; only printed texts look the strings up.
-/

namespace StackCode

/-- An interned identifier. -/
structure Name where
  index : Nat
deriving DecidableEq

namespace Name

/-- The name of the empty string in every interner. -/
def empty : Name := ⟨0⟩

/-- A variable without a source name carries the empty name. -/
def isEmpty (n : Name) : Bool := n.index == 0

theorem isEmpty_iff {n : Name} : n.isEmpty = true ↔ n = empty := by
  cases n; simp [isEmpty, empty]

/-- The structural spelling of a name, which needs no interner. -/
def text (n : Name) : String := "Name(" ++ toString n.index ++ ")"

end Name

end StackCode
