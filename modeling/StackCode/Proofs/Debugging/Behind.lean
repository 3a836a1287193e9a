import Mathlib.Data.List.Nodup
import StackCode.Draft.Block
import StackCode.Proofs.Instr.Straight

/-!
# Behind the views

A debugger's views of the variables take the first slots of a procedure and keep them until the end, so
all that is drafted in between uses slots so many further on.  This module says what a slot, an
instruction, a pool and a frame become there; the pool hands out and takes back the same slots
as the one without the views (`TempPool.acquire_behind`, `TempPool.tryRelease_behind`).

Places to stop, and the idle instructions that a debugger stops at, are what else debugging adds in the
middle of the code (`Instr.isStop`).
-/

namespace StackCode

/-- The slot that is `k` further on. -/
def TempSlot.shift (k : Nat) (s : TempSlot) : TempSlot := ⟨s.index + k⟩

theorem TempSlot.shift_injective (k : Nat) : Function.Injective (TempSlot.shift k) := by
  rintro ⟨i⟩ ⟨j⟩ h
  have hindex : i + k = j + k := congrArg TempSlot.index h
  rw [Nat.add_right_cancel hindex]

namespace Instr

/-- The instruction on the slot that is `k` further on. -/
def shift (k : Nat) : Instr → Instr
  | .loadTemp s => .loadTemp (s.shift k)
  | .storeTemp s => .storeTemp (s.shift k)
  | .allocTemp s ty => .allocTemp (s.shift k) ty
  | .freeTemp s => .freeTemp (s.shift k)
  | i => i

theorem shift_of_isPlain {k : Nat} {i : Instr} (h : i.isPlain = true) : i.shift k = i := by
  cases i <;> first | rfl | cases h

end Instr

namespace Directive

/-- The directive about the slot that is `k` further on. -/
def shift (k : Nat) : Directive → Directive
  | .instr i => .instr (i.shift k)
  | .returnPoint l s => .returnPoint l (s.shift k)
  | d => d

def isStop : Directive → Bool
  | .instr i => i.isStop
  | _ => false

theorem filter_instrs {is : List Instr} (h : ∀ i ∈ is, i.isStop = false) :
    ((is.map Directive.instr).filter fun d => !d.isStop) = is.map .instr := by
  refine List.filter_eq_self.2 fun d hd => ?_
  obtain ⟨i, hi, rfl⟩ := List.mem_map.1 hd
  change (!i.isStop) = true
  rw [h i hi]
  rfl

end Directive

namespace SlotTable

variable {t : SlotTable} {s : TempSlot}

/-- The tables with `k` slots for values in front, all of them in use. -/
def behind (k : Nat) (t : SlotTable) : SlotTable where
  types := Array.replicate k .value ++ t.types
  flags := Array.replicate k true ++ t.flags
  free ty := (t.free ty).map (TempSlot.shift k)

theorem getElem?_behind {α : Type} (k : Nat) (a : α) (xs : Array α) (s : TempSlot) :
    (Array.replicate k a ++ xs)[(s.shift k).index]? = xs[s.index]? := by
  change (Array.replicate k a ++ xs)[s.index + k]? = _
  rw [Array.getElem?_append_right (by simp)]
  simp

theorem setFlag_behind (k : Nat) (flags : Array Bool) (s : TempSlot) (b : Bool) :
    (Array.replicate k true ++ flags).setIfInBounds (s.shift k).index b =
      Array.replicate k true ++ flags.setIfInBounds s.index b := by
  change (Array.replicate k true ++ flags).setIfInBounds (s.index + k) b = _
  rw [Array.setIfInBounds_append_right (by simp)]
  simp

theorem setFree_behind (k : Nat) (t : SlotTable) (ty : Ty) (slots : List TempSlot) :
    (t.behind k).setFree ty (slots.map (TempSlot.shift k)) =
      fun u => (t.setFree ty slots u).map (TempSlot.shift k) := by
  funext u
  unfold setFree
  split <;> rfl

theorem Consistent.behind (h : t.Consistent) (k : Nat) : (t.behind k).Consistent where
  size_flags := by simp [SlotTable.behind, h.size_flags]
  nodup_free ty := (h.nodup_free ty).map (TempSlot.shift_injective k)
  mem_free_iff ty r := by
    change r ∈ (t.free ty).map (TempSlot.shift k) ↔
      (Array.replicate k .value ++ t.types)[r.index]? = some ty ∧
        (Array.replicate k true ++ t.flags)[r.index]? = some false
    by_cases hr : r.index < k
    · -- a slot in front
      refine iff_of_false (fun hmem => ?_) fun ⟨_, hflag⟩ => ?_
      · obtain ⟨s, -, rfl⟩ := List.mem_map.1 hmem
        exact absurd hr (Nat.not_lt.2 (Nat.le_add_left k s.index))
      · rw [Array.getElem?_append_left (by simpa using hr), Array.getElem?_replicate, if_pos hr] at hflag
        cases hflag
    · obtain ⟨s, rfl⟩ : ∃ s : TempSlot, r = s.shift k :=
        ⟨⟨r.index - k⟩, by cases r; simp only [TempSlot.shift, TempSlot.mk.injEq] at hr ⊢; omega⟩
      rw [List.mem_map_of_injective (TempSlot.shift_injective k), getElem?_behind, getElem?_behind,
        h.mem_free_iff]

theorem acquire_behind (k : Nat) (t : SlotTable) (ty : Ty) :
    (t.behind k).acquire ty =
      ((t.acquire ty).1.shift k, (t.acquire ty).2.1, (t.acquire ty).2.2.behind k) := by
  have hfree : (t.behind k).free ty = (t.free ty).map (TempSlot.shift k) := rfl
  unfold acquire
  rw [hfree]
  cases t.free ty with
  | nil =>
    have hsize : (t.behind k).types.size = t.types.size + k := by
      simp [behind, Nat.add_comm]
    simp only [List.map_nil, hsize, TempSlot.shift, Prod.mk.injEq, true_and]
    simp [behind, grow]
  | cons s rest =>
    simp only [List.map_cons, Prod.mk.injEq, true_and]
    unfold take
    rw [setFree_behind]
    exact SlotTable.ext rfl (setFlag_behind k t.flags s true) rfl

theorem giveBack_behind (k : Nat) (t : SlotTable) (ty : Ty) (s : TempSlot) :
    (t.behind k).giveBack ty (s.shift k) = (t.giveBack ty s).behind k := by
  unfold giveBack
  refine SlotTable.ext rfl (setFlag_behind k t.flags s false) ?_
  exact setFree_behind k t ty (s :: t.free ty)

/-- Behind the views, a slot is taken back where it would be without them. -/
theorem tryRelease_behind (k : Nat) (t : SlotTable) (s : TempSlot) :
    (t.behind k).tryRelease (s.shift k) =
      ((t.tryRelease s).1.mapError fun _ => .tempDoubleFree (s.shift k), (t.tryRelease s).2.behind k) := by
  have hflag : (t.behind k).flags[(s.shift k).index]? = t.flags[s.index]? :=
    getElem?_behind k true t.flags s
  have hty : (t.behind k).types[(s.shift k).index]? = t.types[s.index]? :=
    getElem?_behind k Ty.value t.types s
  unfold tryRelease
  rw [hflag, hty]
  rcases t.flags[s.index]? with _ | _ | _ <;> rcases t.types[s.index]? with _ | ty
  case some.true.some => exact Prod.ext rfl (giveBack_behind k t ty s)
  all_goals rfl

end SlotTable

namespace TempPool

variable {p : TempPool} {s : TempSlot}

/-- The pool with `k` slots for values in front of it, all of them in use. -/
def behind (k : Nat) (p : TempPool) : TempPool where
  toSlotTable := p.toSlotTable.behind k
  consistent := p.consistent.behind k

/-- Behind the views, a request is answered with the slot so many further on. -/
theorem acquire_behind (k : Nat) (p : TempPool) (ty : Ty) :
    (p.behind k).acquire ty =
      ((p.acquire ty).1.shift k, (p.acquire ty).2.1, (p.acquire ty).2.2.behind k) := by
  obtain ⟨hslot, hrest⟩ := Prod.ext_iff.1 (p.toSlotTable.acquire_behind k ty)
  obtain ⟨hnew, htable⟩ := Prod.ext_iff.1 hrest
  exact Prod.ext hslot (Prod.ext hnew (TempPool.ext htable))

theorem eq_of_tryRelease {e : LowerError} (h : (p.tryRelease s).1 = .error e) : e = .tempDoubleFree s := by
  cases hs : p.inUse s with
  | true =>
    obtain ⟨q, hq⟩ := exists_tryRelease_eq hs
    rw [hq] at h
    cases h
  | false =>
    rw [tryRelease_of_inUse_eq_false hs] at h
    cases h
    rfl

/-- Behind the views, a slot is taken back where it would be without them. -/
theorem tryRelease_behind (k : Nat) (p : TempPool) (s : TempSlot) :
    (p.behind k).tryRelease (s.shift k) =
      ((p.tryRelease s).1.mapError fun _ => .tempDoubleFree (s.shift k), (p.tryRelease s).2.behind k) := by
  obtain ⟨hresult, htable⟩ := Prod.ext_iff.1 (p.toSlotTable.tryRelease_behind k s)
  exact Prod.ext hresult (TempPool.ext htable)

end TempPool

/-- The frame behind the views. -/
def Frame.behind (views : List (Name × TempSlot)) (frame : Frame) : Frame :=
  { frame with
    temps := frame.temps.behind views.length
    returnSlot := frame.returnSlot.map (TempSlot.shift views.length)
    debugLocals := views }

end StackCode
