import StackCode.Proofs.Layout.Drafted

/-!
# Landmarks

A label stands for a landmark of the code: a spot that control can be passed to, or the end of an
initialization of static storage.  Landmarks are listed in the order in which a plan and its draft come
to know them, and the position of a landmark in the list is its label.  Main statements:
`Frame.Lists.statement`, `Frame.Lists.returning`: a frame knows the landmarks of the statements that
have been drafted, whatever else it holds.
-/

namespace StackCode

/-- What a label stands for. -/
inductive Landmark where
  | spot (s : Spot)
  /-- Behind the initialization by the statement at this position of a block. -/
  | static (b : BlockId) (position : Nat)
deriving DecidableEq

namespace Landmark

/-- Takes note of a landmark, unless it is known. -/
def add (known : List Landmark) (x : Landmark) : List Landmark :=
  if x ∈ known then known else known ++ [x]

/-- Takes note of some landmarks, one after the other. -/
def addAll (known xs : List Landmark) : List Landmark := xs.foldl add known

/-- The label of a landmark that is known. -/
def labelIn (known : List Landmark) (x : Landmark) : Label := ⟨known.idxOf x⟩

variable {known known' xs : List Landmark} {x y : Landmark}

theorem mem_add : y ∈ add known x ↔ y ∈ known ∨ y = x := by
  unfold add
  split
  · next hx => exact ⟨.inl, fun h => h.elim id fun heq => heq ▸ hx⟩
  · rw [List.mem_append, List.mem_singleton]

theorem prefix_add (known : List Landmark) (x : Landmark) : known <+: add known x := by
  unfold add
  split
  · exact List.prefix_rfl
  · exact List.prefix_append known [x]

theorem add_of_not_mem (h : x ∉ known) : add known x = known ++ [x] := if_neg h

theorem nodup_add (h : known.Nodup) (x : Landmark) : (add known x).Nodup := by
  unfold add
  split
  · exact h
  · next hx =>
    rw [List.nodup_append]
    refine ⟨h, List.nodup_singleton x, fun y hy z hz => ?_⟩
    rw [List.mem_singleton.1 hz]
    exact fun heq => hx (heq ▸ hy)

@[simp] theorem addAll_nil (known : List Landmark) : addAll known [] = known := rfl

@[simp] theorem addAll_cons (known : List Landmark) (x : Landmark) (xs : List Landmark) :
    addAll known (x :: xs) = addAll (add known x) xs := rfl

theorem addAll_append (known xs ys : List Landmark) :
    addAll known (xs ++ ys) = addAll (addAll known xs) ys := List.foldl_append

theorem mem_addAll : y ∈ addAll known xs ↔ y ∈ known ∨ y ∈ xs := by
  induction xs generalizing known with
  | nil => simp
  | cons x xs ih => rw [addAll_cons, ih, mem_add, List.mem_cons, or_assoc]

theorem prefix_addAll (known xs : List Landmark) : known <+: addAll known xs := by
  induction xs generalizing known with
  | nil => exact List.prefix_rfl
  | cons x xs ih => exact (prefix_add known x).trans (ih (add known x))

theorem nodup_addAll (h : known.Nodup) (xs : List Landmark) : (addAll known xs).Nodup := by
  induction xs generalizing known with
  | nil => exact h
  | cons x xs ih => exact ih (nodup_add h x)

/-! ## Labels -/

/-- Landmarks that become known later do not change the label of one that is. -/
theorem labelIn_of_isPrefix (h : known <+: known') (hx : x ∈ known) :
    labelIn known' x = labelIn known x := by
  obtain ⟨later, rfl⟩ := h
  exact congrArg Label.mk (List.idxOf_append_of_mem hx)

theorem labelIn_append_self (h : x ∉ known) : labelIn (known ++ [x]) x = ⟨known.length⟩ := by
  unfold labelIn
  rw [List.idxOf_append, if_neg h, List.idxOf_cons_self, Nat.zero_add]

theorem labelIn_lt (hx : x ∈ known) : (labelIn known x).index < known.length :=
  List.idxOf_lt_length_of_mem hx

/-- Known landmarks have labels of their own. -/
theorem labelIn_inj (hx : x ∈ known) (h : labelIn known x = labelIn known y) : x = y :=
  (List.idxOf_inj hx).1 (congrArg Label.index h)

/-- The labels of all that is known are the first ones. -/
theorem map_labelIn (h : known.Nodup) :
    known.map (labelIn known) = (List.range known.length).map Label.mk := by
  refine List.ext_getElem (by simp) fun i h₁ h₂ => ?_
  simp only [List.getElem_map, List.getElem_range, labelIn]
  rw [h.idxOf_getElem]

/-- The labels are those of the landmarks that are known. -/
def Agrees (label : Landmark → Label) (known : List Landmark) : Prop :=
  ∀ x ∈ known, label x = labelIn known x

theorem agrees_labelIn (known : List Landmark) : Agrees (labelIn known) known := fun _ _ => rfl

theorem Agrees.of_isPrefix {label : Landmark → Label} (h : Agrees label known')
    (hextends : known <+: known') : Agrees label known := fun x hx =>
  (h x (hextends.subset hx)).trans (labelIn_of_isPrefix hextends hx)

end Landmark

open Landmark

/-! ## Landmarks of statements -/

namespace Stmt

/-- Binds static storage that has an initializer. -/
def initializes : Stmt → Bool
  | .bindStatic d => d.init.isSome
  | _ => false

/-- The landmarks that a statement asks for, at a position of a block. -/
def landmarks (b : BlockId) (position : Nat) : Stmt → List Landmark
  | .ret _ => [.spot .ret]
  | .bindStatic d => if d.init.isSome then [.static b position] else []
  | _ => []

/-- The landmarks that statements ask for, the first of which stands at this position of a block. -/
def landmarksFrom (b : BlockId) (position : Nat) : List Stmt → List Landmark
  | [] => []
  | s :: ss => s.landmarks b position ++ landmarksFrom b (position + 1) ss

variable {b b' : BlockId} {position position' : Nat} {s : Stmt} {ss : List Stmt}

theorem static_of_mem_landmarks (h : .static b' position' ∈ s.landmarks b position) :
    b' = b ∧ position' = position := by
  cases s <;> simp only [landmarks, List.mem_singleton, List.not_mem_nil, reduceCtorEq] at h
  split at h
  · cases List.mem_singleton.1 h
    exact ⟨rfl, rfl⟩
  · cases h

theorem static_of_mem_landmarksFrom (h : .static b' position' ∈ landmarksFrom b position ss) :
    b' = b ∧ position ≤ position' := by
  induction ss generalizing position with
  | nil => cases h
  | cons s ss ih =>
    rcases List.mem_append.1 h with h | h
    · obtain ⟨rfl, rfl⟩ := static_of_mem_landmarks h
      exact ⟨rfl, Nat.le_refl _⟩
    · obtain ⟨rfl, hle⟩ := ih h
      exact ⟨rfl, by omega⟩

/-- Every statement that returns asks for the same landmark. -/
theorem ret_mem_landmarksFrom_iff :
    .spot .ret ∈ landmarksFrom b position ss ↔ ss.any isReturn = true := by
  induction ss generalizing position with
  | nil => simp [landmarksFrom]
  | cons s ss ih =>
    rw [landmarksFrom, List.mem_append, ih, List.any_cons, Bool.or_eq_true]
    refine or_congr_left ?_
    cases s <;> simp [landmarks, isReturn]

end Stmt

/-! ## What a frame knows -/

/-- The labels of a frame are those of the landmarks. -/
structure Frame.Lists (frame : Frame) (known : List Landmark) : Prop where
  size : frame.labels.size = known.length
  returnLabel : frame.returnLabel =
    if .spot .ret ∈ known then some (labelIn known (.spot .ret)) else none
  returnSlot : frame.returnSlot.isSome = true → .spot .ret ∈ known

namespace Frame.Lists

variable {frame frame' : Frame} {known : List Landmark}

theorem isSome_returnLabel (h : frame.Lists known) :
    frame.returnLabel.isSome = true ↔ .spot .ret ∈ known := by
  rw [h.returnLabel]
  split
  · next hret => exact iff_of_true rfl hret
  · next hret => exact iff_of_false nofun hret

theorem of_keeps (h : frame.Lists known) (hkeeps : Plan.KeepsLabels frame frame') :
    frame'.Lists known where
  size := by rw [hkeeps.labels]; exact h.size
  returnLabel := hkeeps.returnLabel.trans h.returnLabel
  returnSlot := by rw [hkeeps.returnSlot]; exact h.returnSlot

/-- A landmark that has nothing to do with returning gets the next label. -/
theorem push (h : frame.Lists known) {x : Landmark} (hx : x ∉ known) (hret : x ≠ .spot .ret)
    (hsize : frame'.labels.size = frame.labels.size + 1)
    (hlabel : frame'.returnLabel = frame.returnLabel)
    (hslot : frame'.returnSlot.isSome = true → .spot .ret ∈ known) :
    frame'.Lists (add known x) := by
  have hmem : .spot .ret ∈ add known x ↔ .spot .ret ∈ known := by
    rw [mem_add]
    exact or_iff_left fun heq => hret heq.symm
  refine ⟨?_, ?_, fun hs => hmem.2 (hslot hs)⟩
  · rw [add_of_not_mem hx, List.length_append, List.length_singleton, hsize, h.size]
  · rw [hlabel, h.returnLabel]
    by_cases hknown : .spot .ret ∈ known
    · rw [if_pos hknown, if_pos (hmem.2 hknown), labelIn_of_isPrefix (prefix_add known x) hknown]
    · rw [if_neg hknown, if_neg fun hadd => hknown (hmem.1 hadd)]

variable (hgrows : frame.Grows frame')
include hgrows

/-- What does not return leaves the return label and the return slot alone. -/
theorem of_quiet {own : Nat} (h : frame.Lists known) (ha : frame.Allots frame' own false) :
    frame'.returnLabel = frame.returnLabel ∧ frame'.labels.size = frame.labels.size + own ∧
      (frame'.returnSlot.isSome = true → .spot .ret ∈ known) := by
  have hlabel : frame'.returnLabel = frame.returnLabel := by
    have hsome := ha.returnLabel
    rw [Bool.or_false] at hsome
    cases hl : frame.returnLabel with
    | some l => exact hgrows.returnLabel l hl
    | none =>
      rw [hl] at hsome
      exact Option.isNone_iff_eq_none.1 (by rw [← Option.not_isSome, hsome]; rfl)
  have hsize := ha.size
  rw [hlabel] at hsize
  refine ⟨hlabel, by omega, fun hslot => h.isSome_returnLabel.1 ?_⟩
  rw [← hlabel]
  exact ha.paired (fun hs => h.isSome_returnLabel.2 (h.returnSlot hs)) hslot

/-- The first return statement brings the return label, the others find it. -/
theorem returning (h : frame.Lists known) (ha : frame.Allots frame' 0 true) :
    frame'.Lists (add known (.spot .ret)) := by
  have hknown : .spot .ret ∈ add known (.spot .ret) := mem_add.2 (.inr rfl)
  have hsize := ha.size
  cases hl : frame.returnLabel with
  | some l =>
    have hret : .spot .ret ∈ known := h.isSome_returnLabel.1 (by rw [hl]; rfl)
    have hl' := hgrows.returnLabel l hl
    have hsame : add known (.spot .ret) = known := if_pos hret
    rw [hl, hl'] at hsize
    rw [hsame]
    refine ⟨?_, ?_, fun _ => hret⟩
    · rw [← h.size]
      simpa using hsize
    · rw [hl', ← hl]
      exact h.returnLabel
  | none =>
    have hret : .spot .ret ∉ known := fun hmem => by
      have hsome := h.isSome_returnLabel.2 hmem
      rw [hl] at hsome
      cases hsome
    obtain ⟨l, hl'⟩ : ∃ l, frame'.returnLabel = some l :=
      Option.isSome_iff_exists.1 (by rw [ha.returnLabel, Bool.or_true])
    rw [hl, hl'] at hsize
    simp only [Option.toList_none, Option.toList_some, List.length_nil, List.length_singleton] at hsize
    have hfresh := (ha.fresh l hl').resolve_left (by rw [hl]; nofun)
    have hindex : l.index = known.length := by rw [← h.size]; omega
    refine ⟨?_, ?_, fun _ => hknown⟩
    · rw [add_of_not_mem hret, List.length_append, List.length_singleton, ← h.size]
      omega
    · rw [hl', if_pos hknown, add_of_not_mem hret, labelIn_append_self hret, ← hindex]

/-- A statement makes the landmarks known that it asks for. -/
theorem statement (h : frame.Lists known) {s : Stmt} {b : BlockId} {position : Nat}
    (hnew : .static b position ∉ known) (ha : frame.Allots frame' s.ownLabels s.isReturn) :
    frame'.Lists (addAll known (s.landmarks b position)) := by
  have hquiet (hown : s.ownLabels = 0) (hreturn : s.isReturn = false) : frame'.Lists known := by
    rw [hown, hreturn] at ha
    obtain ⟨hlabel, hsize, hslot⟩ := h.of_quiet hgrows ha
    exact ⟨hsize.trans h.size, hlabel.trans h.returnLabel, hslot⟩
  cases s with
  | ret value => exact h.returning hgrows ha
  | bindStatic d =>
    by_cases hinit : d.init.isSome = true
    · have hown : (Stmt.bindStatic d).ownLabels = 1 := if_pos hinit
      have hasks : (Stmt.bindStatic d).landmarks b position = [.static b position] := if_pos hinit
      rw [hown] at ha
      obtain ⟨hlabel, hsize, hslot⟩ := h.of_quiet hgrows ha
      rw [hasks]
      exact h.push hnew nofun hsize hlabel hslot
    · have hasks : (Stmt.bindStatic d).landmarks b position = [] := if_neg hinit
      rw [hasks]
      exact hquiet (if_neg hinit) rfl
  | _ => exact hquiet rfl rfl

end Frame.Lists

end StackCode
