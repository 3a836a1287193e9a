import StackCode.LowerError

/-!
# Pools of temporaries

The temporary slots of one procedure.  A slot has one type for good; it is checked out, handed back,
and checked out again by a later need of the same type, so that uses which do not overlap share
storage.

A pool keeps three tables: the types of the slots, a flag for each that is checked out, and for each
type the slots that have been handed back.  The tables agree (`SlotTable.Consistent`): the slots
without a flag are those handed back, and each of them is listed once, under its own type.  Checking
out and handing back keep it so (`SlotTable.Consistent.acquire`, `SlotTable.Consistent.tryRelease`).
-/

namespace StackCode

/-! ## The tables -/

/-- What a pool keeps of its slots. -/
@[ext] structure SlotTable where
  /-- The type of every slot; the position of one is its number. -/
  types : Array Ty := #[]
  /-- Which slots are checked out. -/
  flags : Array Bool := #[]
  /-- The slots of each type that have been handed back, the latest first. -/
  free : Ty → List TempSlot := fun _ => []

namespace SlotTable

/-- Replaces the list of one type. -/
def setFree (t : SlotTable) (ty : Ty) (slots : List TempSlot) : Ty → List TempSlot :=
  fun u => if u = ty then slots else t.free u

/-- Checks out the slot that is listed first under a type, with `rest` listed behind it. -/
def take (t : SlotTable) (ty : Ty) (s : TempSlot) (rest : List TempSlot) : SlotTable :=
  { t with flags := t.flags.setIfInBounds s.index true, free := t.setFree ty rest }

/-- Adds a slot, which is checked out from the start. -/
def grow (t : SlotTable) (ty : Ty) : SlotTable :=
  { t with types := t.types.push ty, flags := t.flags.push true }

/-- Lists a slot of a type as handed back. -/
def giveBack (t : SlotTable) (ty : Ty) (s : TempSlot) : SlotTable :=
  { t with flags := t.flags.setIfInBounds s.index false, free := t.setFree ty (s :: t.free ty) }

/-- Checks out a slot of a type, and says whether the slot is a new one. -/
def acquire (t : SlotTable) (ty : Ty) : TempSlot × Bool × SlotTable :=
  match t.free ty with
  | s :: rest => (s, false, t.take ty s rest)
  | [] => (⟨t.types.size⟩, true, t.grow ty)

/-- Hands a slot back, if it is checked out: what comes of it, and the tables that are left. -/
def tryRelease (t : SlotTable) (s : TempSlot) : Except LowerError Unit × SlotTable :=
  match t.flags[s.index]?, t.types[s.index]? with
  | some true, some ty => (.ok (), t.giveBack ty s)
  | _, _ => (.error (.tempDoubleFree s), t)

variable {t t' : SlotTable} {s : TempSlot} {ty : Ty} {rest : List TempSlot}

theorem acquire_cases (t : SlotTable) (ty : Ty) :
    (∃ rest, t.free ty = (t.acquire ty).1 :: rest ∧ (t.acquire ty).2.1 = false ∧
      (t.acquire ty).2.2 = t.take ty (t.acquire ty).1 rest) ∨
    (t.free ty = [] ∧ (t.acquire ty).1 = ⟨t.types.size⟩ ∧ (t.acquire ty).2.1 = true ∧
      (t.acquire ty).2.2 = t.grow ty) := by
  unfold acquire
  cases t.free ty with
  | nil => exact .inr ⟨rfl, rfl, rfl, rfl⟩
  | cons s rest => exact .inl ⟨rest, rfl, rfl, rfl⟩

theorem tryRelease_eq_ok_iff : t.tryRelease s = (.ok (), t') ↔
    t.flags[s.index]? = some true ∧ ∃ ty, t.types[s.index]? = some ty ∧ t' = t.giveBack ty s := by
  unfold tryRelease
  rcases t.flags[s.index]? with _ | _ | _ <;> cases t.types[s.index]? <;> simp [eq_comm]

theorem tryRelease_of_flag_ne (h : t.flags[s.index]? ≠ some true) :
    t.tryRelease s = (.error (.tempDoubleFree s), t) := by
  unfold tryRelease
  rcases hflag : t.flags[s.index]? with _ | _ | _
  · rfl
  · rfl
  · exact absurd hflag h

theorem mem_setFree_iff {u : Ty} {slots : List TempSlot} :
    s ∈ t.setFree ty slots u ↔ (u = ty ∧ s ∈ slots) ∨ (u ≠ ty ∧ s ∈ t.free u) := by
  unfold setFree
  by_cases h : u = ty <;> simp [h]

/-- Raises or lowers the flag of one slot. -/
theorem getElem?_setFlag (flags : Array Bool) (s r : TempSlot) (b : Bool) :
    (flags.setIfInBounds s.index b)[r.index]? =
      if r = s then flags[s.index]?.map fun _ => b else flags[r.index]? := by
  rw [Array.getElem?_setIfInBounds]
  by_cases h : r = s
  · subst h
    by_cases hlt : r.index < flags.size <;> simp [hlt]
  · have hne : s.index ≠ r.index := fun heq => h (by cases r; cases s; exact congrArg _ heq.symm)
    simp [h, hne]

/-- The tables agree. -/
structure Consistent (t : SlotTable) : Prop where
  size_flags : t.flags.size = t.types.size
  nodup_free : ∀ ty, (t.free ty).Nodup
  /-- What is listed under a type are the slots of that type without a flag. -/
  mem_free_iff : ∀ ty s, s ∈ t.free ty ↔ t.types[s.index]? = some ty ∧ t.flags[s.index]? = some false

namespace Consistent

theorem empty : ({} : SlotTable).Consistent where
  size_flags := rfl
  nodup_free _ := List.nodup_nil
  mem_free_iff _ s := by simp

/-- Checking out a slot that is listed leaves the tables in agreement: it was listed nowhere else. -/
theorem take (h : t.Consistent) (hfree : t.free ty = s :: rest) : (t.take ty s rest).Consistent := by
  have hs : s ∈ t.free ty := by simp [hfree]
  obtain ⟨hty, hflag⟩ := (h.mem_free_iff ty s).1 hs
  have hnodup := h.nodup_free ty
  rw [hfree, List.nodup_cons] at hnodup
  refine ⟨(Array.size_setIfInBounds ..).trans h.size_flags, fun u => ?_, fun u r => ?_⟩
  · change (t.setFree ty rest u).Nodup
    unfold setFree
    split
    · exact hnodup.2
    · exact h.nodup_free u
  · change r ∈ t.setFree ty rest u ↔
      t.types[r.index]? = some u ∧ (t.flags.setIfInBounds s.index true)[r.index]? = some false
    rw [mem_setFree_iff, getElem?_setFlag]
    by_cases hr : r = s
    · subst hr
      rw [if_pos rfl, hflag]
      refine iff_of_false ?_ (by simp)
      rintro (⟨-, hrest⟩ | ⟨hne, hu⟩)
      · exact hnodup.1 hrest
      · have hu := ((h.mem_free_iff u r).1 hu).1
        rw [hty] at hu
        exact hne (Option.some_inj.1 hu).symm
    · rw [if_neg hr, ← h.mem_free_iff u r]
      by_cases hu : u = ty
      · subst hu
        simp [hfree, hr]
      · simp [hu]

/-- A new slot is checked out and listed nowhere. -/
theorem grow (h : t.Consistent) (ty : Ty) : (t.grow ty).Consistent := by
  refine ⟨by simp [SlotTable.grow, h.size_flags], h.nodup_free, fun u r => ?_⟩
  change r ∈ t.free u ↔ (t.types.push ty)[r.index]? = some u ∧ (t.flags.push true)[r.index]? = some false
  rw [h.mem_free_iff, Array.getElem?_push, Array.getElem?_push, h.size_flags]
  by_cases hr : r.index = t.types.size
  · simp [hr]
  · simp [hr]

/-- Handing back a slot that is checked out leaves the tables in agreement: it was listed nowhere. -/
theorem giveBack (h : t.Consistent) (hflag : t.flags[s.index]? = some true)
    (hty : t.types[s.index]? = some ty) : (t.giveBack ty s).Consistent := by
  have hnot (u : Ty) : s ∉ t.free u := fun hs => by
    have hfalse := ((h.mem_free_iff u s).1 hs).2
    rw [hflag] at hfalse
    cases hfalse
  refine ⟨(Array.size_setIfInBounds ..).trans h.size_flags, fun u => ?_, fun u r => ?_⟩
  · change (t.setFree ty (s :: t.free ty) u).Nodup
    unfold setFree
    split
    · exact List.nodup_cons.2 ⟨hnot ty, h.nodup_free ty⟩
    · exact h.nodup_free u
  · change r ∈ t.setFree ty (s :: t.free ty) u ↔
      t.types[r.index]? = some u ∧ (t.flags.setIfInBounds s.index false)[r.index]? = some false
    rw [mem_setFree_iff, getElem?_setFlag]
    by_cases hr : r = s
    · subst hr
      simp [hflag, hty, hnot u, eq_comm]
    · rw [if_neg hr, ← h.mem_free_iff u r]
      by_cases hu : u = ty
      · subst hu
        simp [hr]
      · simp [hu]

theorem acquire (h : t.Consistent) (ty : Ty) : (t.acquire ty).2.2.Consistent := by
  unfold SlotTable.acquire
  split
  · next hfree => exact h.take hfree
  · exact h.grow ty

theorem tryRelease (h : t.Consistent) (s : TempSlot) : (t.tryRelease s).2.Consistent := by
  unfold SlotTable.tryRelease
  split
  · next hflag hty => exact h.giveBack hflag hty
  · exact h

end Consistent

end SlotTable

/-! ## Pools -/

/-- A pool of typed slots. -/
structure TempPool extends SlotTable where
  consistent : toSlotTable.Consistent := by exact SlotTable.Consistent.empty

namespace TempPool

variable {p q : TempPool} {s : TempSlot} {ty : Ty}

@[ext] theorem ext (h : p.toSlotTable = q.toSlotTable) : p = q := by
  cases p
  cases q
  cases h
  rfl

/-- The number of slots, in use or not. -/
def size (p : TempPool) : Nat := p.types.size

def ty? (p : TempPool) (s : TempSlot) : Option Ty := p.types[s.index]?

/-- Whether a slot is checked out. -/
def inUse (p : TempPool) (s : TempSlot) : Bool := p.flags[s.index]? == some true

theorem inUse_iff : p.inUse s = true ↔ p.flags[s.index]? = some true := by
  simp [inUse]

/-- A slot that is checked out is there. -/
theorem lt_size_of_inUse (h : p.inUse s = true) : s.index < p.size := by
  rw [size, ← p.consistent.size_flags]
  exact (Array.getElem?_eq_some_iff.1 (inUse_iff.1 h)).1

/-- Adds a slot, which is checked out from the start. -/
def grow (p : TempPool) (ty : Ty) : TempPool where
  toSlotTable := p.toSlotTable.grow ty
  consistent := p.consistent.grow ty

/-- Checks out a slot of a type, and says whether the slot is a new one. -/
def acquire (p : TempPool) (ty : Ty) : TempSlot × Bool × TempPool :=
  let r := p.toSlotTable.acquire ty
  (r.1, r.2.1, { toSlotTable := r.2.2, consistent := p.consistent.acquire ty })

/-- Hands a slot back, if it is checked out: what comes of it, and the pool that is left. -/
def tryRelease (p : TempPool) (s : TempSlot) : Except LowerError Unit × TempPool :=
  let r := p.toSlotTable.tryRelease s
  (r.1, { toSlotTable := r.2, consistent := p.consistent.tryRelease s })

/-- The pool once a slot has been handed back, or why it cannot be. -/
def release (p : TempPool) (s : TempSlot) : Except LowerError TempPool :=
  (p.tryRelease s).1.map fun () => (p.tryRelease s).2

/-- The first slot that is still checked out. -/
def firstLeaked? (p : TempPool) : Option TempSlot := (p.flags.findIdx? id).map TempSlot.mk

/-! ## What the operations come to -/

/-- A slot that is asked for is the first one listed, and if none is listed, a new one. -/
theorem acquire_cases (p : TempPool) (ty : Ty) :
    (∃ rest, p.free ty = (p.acquire ty).1 :: rest ∧ (p.acquire ty).2.1 = false ∧
      (p.acquire ty).2.2.toSlotTable = p.toSlotTable.take ty (p.acquire ty).1 rest) ∨
    (p.free ty = [] ∧ (p.acquire ty).1 = ⟨p.size⟩ ∧ (p.acquire ty).2.1 = true ∧
      (p.acquire ty).2.2 = p.grow ty) := by
  rw [TempPool.ext_iff]
  exact p.toSlotTable.acquire_cases ty

theorem tryRelease_eq_iff {result : Except LowerError Unit} :
    p.tryRelease s = (result, q) ↔ p.toSlotTable.tryRelease s = (result, q.toSlotTable) := by
  unfold tryRelease
  rw [Prod.ext_iff, Prod.ext_iff, TempPool.ext_iff]

/-- A slot is taken back if it is checked out. -/
theorem tryRelease_eq_ok_iff : p.tryRelease s = (.ok (), q) ↔
    p.inUse s = true ∧ ∃ ty, p.ty? s = some ty ∧ q.toSlotTable = p.toSlotTable.giveBack ty s := by
  rw [tryRelease_eq_iff, inUse_iff]
  exact SlotTable.tryRelease_eq_ok_iff

theorem exists_tryRelease_eq (h : p.inUse s = true) : ∃ q, p.tryRelease s = (.ok (), q) := by
  have hlt : s.index < p.types.size := lt_size_of_inUse h
  let q : TempPool :=
    { toSlotTable := p.toSlotTable.giveBack p.types[s.index] s
      consistent := p.consistent.giveBack (inUse_iff.1 h) (Array.getElem?_eq_getElem hlt) }
  exact ⟨q, tryRelease_eq_ok_iff.2 ⟨h, _, Array.getElem?_eq_getElem hlt, rfl⟩⟩

/-- What is not checked out is not taken back, and the pool is left as it was. -/
theorem tryRelease_of_inUse_eq_false (h : p.inUse s = false) :
    p.tryRelease s = (.error (.tempDoubleFree s), p) := by
  rw [tryRelease_eq_iff]
  exact SlotTable.tryRelease_of_flag_ne fun hflag => Bool.eq_false_iff.1 h (inUse_iff.2 hflag)

theorem release_eq_ok_iff : p.release s = .ok q ↔ p.tryRelease s = (.ok (), q) := by
  unfold release
  rcases p.tryRelease s with ⟨_ | _, r⟩
  · simp [Except.map]
  · simp [Except.map]

end TempPool

end StackCode
