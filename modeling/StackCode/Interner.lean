import Std.Data.HashMap
import StackCode.Name

/-!
# The interner

An interner hands out one name per distinct string, densely and in order of first appearance; the
empty string is name 0 from the start.  The strings are an array for look-up by name and a hash map
for look-up by text.  The two are inverse to each other, and the type says so: no operation can make
two identifiers collide.
-/

namespace StackCode

/-- A set of strings, each with its index. -/
structure Interner where
  strings : Array String
  indices : Std.HashMap String Nat
  /-- The map holds exactly the positions of the array. -/
  indices_iff : ∀ (s : String) (i : Nat), indices[s]? = some i ↔ strings[i]? = some s

/-- Why a string was not interned. -/
inductive InternError where
  /-- Every index that a name can hold is in use. -/
  | overflow (count : Nat)
deriving DecidableEq

namespace Interner

/-- The number of distinct indices that a name can hold. -/
def capacity : Nat := 4294967296

/-- The interner that holds the empty string alone. -/
def new : Interner where
  strings := #[""]
  indices := (∅ : Std.HashMap String Nat).insert "" 0
  indices_iff s i := by
    rw [Std.HashMap.getElem?_insert]
    by_cases h : "" = s
    · subst h; cases i <;> simp
    · cases i <;> simp [h]

def size (t : Interner) : Nat := t.strings.size

/-- The string of a name; a name that was never handed out reads as the empty string. -/
def lookup (t : Interner) (n : Name) : String := t.strings[n.index]?.getD ""

/-- Adds a string that is not there yet. -/
def push (t : Interner) (s : String) (fresh : t.indices[s]? = none) : Interner where
  strings := t.strings.push s
  indices := t.indices.insert s t.strings.size
  indices_iff u i := by
    have hfresh : ∀ j, t.strings[j]? ≠ some s := fun j hj => by
      rw [(t.indices_iff s j).2 hj] at fresh; cases fresh
    rw [Std.HashMap.getElem?_insert, Array.getElem?_push]
    by_cases hu : s = u
    · subst hu
      by_cases hi : i = t.strings.size <;> simp_all [eq_comm]
    · by_cases hi : i = t.strings.size
      · subst hi; simp [hu, t.indices_iff]
      · simp [hu, hi, t.indices_iff]

/-- The name of a string, which is added when it is new. -/
def intern (t : Interner) (s : String) : Name × Interner :=
  match h : t.indices[s]? with
  | some i => (⟨i⟩, t)
  | none => (⟨t.size⟩, t.push s h)

/-- The name of a string, if there is still an index for it. -/
def tryIntern (t : Interner) (s : String) : Except InternError (Name × Interner) :=
  if t.indices.contains s || t.size < capacity then .ok (t.intern s) else .error (.overflow t.size)

/-- The interner that holds these strings, in order of first appearance. -/
def ofList (strings : List String) : Interner :=
  strings.foldl (fun t s => (t.intern s).2) new

end Interner

end StackCode
