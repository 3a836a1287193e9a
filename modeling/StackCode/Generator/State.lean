/-!
# Generator states

A generator keeps one integer between its invocations.  Zero says that it has not run, a positive
number that it is suspended at the suspension point with that index, and two negative numbers that
it is running or has ended.
-/

namespace StackCode

/-- The state of a generator. -/
inductive GeneratorState where
  | notStarted
  | running
  | closed
  /-- Suspended at the point with this index, which is positive. -/
  | suspendedAt (index : Int)
deriving DecidableEq

namespace GeneratorState

/-- The integer that is kept. -/
def toInt : GeneratorState → Int
  | .notStarted => 0
  | .running => -1
  | .closed => -2
  | .suspendedAt index => index

/-- The state that an integer stands for, if it stands for one. -/
def ofInt? (n : Int) : Option GeneratorState :=
  if n = 0 then some .notStarted
  else if n = -1 then some .running
  else if n = -2 then some .closed
  else if 0 < n then some (.suspendedAt n)
  else none

/-- Decoding loses nothing. -/
theorem toInt_of_ofInt? {n : Int} {s : GeneratorState} (h : ofInt? n = some s) : s.toInt = n := by
  unfold ofInt? at h
  split at h
  · next hn => cases h; exact hn.symm
  · split at h
    · next hn => cases h; exact hn.symm
    · split at h
      · next hn => cases h; exact hn.symm
      · split at h
        · cases h; rfl
        · cases h

/-- The positive numbers are the indices of suspension points. -/
theorem ofInt?_of_pos {n : Int} (h : 0 < n) : ofInt? n = some (.suspendedAt n) := by
  have h0 : n ≠ 0 := by omega
  have h1 : n ≠ -1 := by omega
  have h2 : n ≠ -2 := by omega
  simp only [ofInt?, if_neg h0, if_neg h1, if_neg h2, if_pos h]

/-- The spelling of a state. -/
def text : GeneratorState → String
  | .notStarted => "NotStarted"
  | .running => "Running"
  | .closed => "Closed"
  | .suspendedAt index => "SuspendedAt(" ++ toString index ++ ")"

end GeneratorState

end StackCode
