import StackCode.LabelTable

/-!
# Resume plans

A generator is entered at the label of the suspension point where it stopped.  The plan gives every
suspension point a label before any code exists.  It accepts exactly the index sets `1, …, n`
without repetition, in whatever order the points stand in the code.
-/

namespace StackCode

/-- The resume labels of a generator: the label of the point with index `i + 1` stands at
position `i`. -/
structure ResumePlan where
  labels : List Label
deriving DecidableEq

namespace ResumePlan

/-- What is wrong with the index at one position of the ascending index list, where `expected`
stands if the indices are dense. -/
def indexFault? (expected : Int) (previous : Option Int) (index : Int) : Option LowerError :=
  if index < 1 then some (.nonPositiveYieldIndex index)
  else if previous = some index then some (.duplicateYieldIndex index)
  else if index ≠ expected then some (.yieldIndexGap expected index)
  else none

/-- The first fault of an ascending index list that should go on with `expected`. -/
def firstFault? (expected : Int) (previous : Option Int) : List Int → Option LowerError
  | [] => none
  | index :: rest =>
    match indexFault? expected previous index with
    | some e => some e
    | none => firstFault? (expected + 1) (some index) rest

/-- Allots a label to each of the indices, one after the other. -/
def allot (table : LabelTable) : List Int → List Label × LabelTable
  | [] => ([], table)
  | _ :: rest =>
    let (l, table) := table.fresh
    let (ls, table) := allot table rest
    (l :: ls, table)

/-- Plans the suspension points with these indices, and allots their labels if nothing is wrong. -/
def make (indices : List Int) (table : LabelTable) : Except LowerError ResumePlan × LabelTable :=
  let ascending := indices.mergeSort (· ≤ ·)
  match firstFault? 1 none ascending with
  | some e => (.error e, table)
  | none =>
    let (labels, table) := allot table ascending
    (.ok ⟨labels⟩, table)

/-- The label of the suspension point with an index. -/
def label? (p : ResumePlan) (index : Int) : Option Label :=
  if index < 1 then none else p.labels[index.toNat - 1]?

/-- The indices and labels of all suspension points, ascending. -/
def points (p : ResumePlan) : List (Int × Label) :=
  p.labels.zipIdx.map fun (l, i) => ((i : Int) + 1, l)

end ResumePlan

end StackCode
