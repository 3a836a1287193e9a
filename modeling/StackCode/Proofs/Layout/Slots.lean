import Mathlib.Data.List.Nodup
import StackCode.Proofs.Draft.Gives

/-!
# Slots that are checked out

Between the parts of a draft two kinds of slots are checked out: those of the debugger's views, and
the return slot.  Everything else is handed back by the part that asked for it (`Frame.Tidy`).
-/

namespace StackCode

namespace TempPool

variable {p q : TempPool} {s : TempSlot}

/-- A new slot is in use, and the others are what they were. -/
theorem inUse_grow (p : TempPool) (ty : Ty) (t : TempSlot) :
    (p.grow ty).inUse t = true ↔ t = ⟨p.size⟩ ∨ p.inUse t = true := by
  have hsize : p.flags.size = p.size := p.consistent.size_flags
  rw [inUse_iff, inUse_iff]
  change (p.flags.push true)[t.index]? = some true ↔ _
  rw [Array.getElem?_push, hsize]
  by_cases ht : t = ⟨p.size⟩
  · simp [ht]
  · have hne : t.index ≠ p.size := fun h => ht (congrArg TempSlot.mk h)
    simp [ht, hne]

/-- The slot that is checked out was not in use, and the others are what they were. -/
theorem acquire_spec (p : TempPool) (ty : Ty) :
    p.inUse (p.acquire ty).1 = false ∧
      ∀ t, (p.acquire ty).2.2.inUse t = true ↔ t = (p.acquire ty).1 ∨ p.inUse t = true := by
  rcases p.acquire_cases ty with ⟨rest, hfree, -, htable⟩ | ⟨-, hslot, -, htable⟩
  · generalize (p.acquire ty).1 = s at hfree htable
    have hs : s ∈ p.free ty := by simp [hfree]
    have hflag := ((p.consistent.mem_free_iff ty s).1 hs).2
    refine ⟨by simp [inUse, hflag], fun t => ?_⟩
    rw [inUse_iff, inUse_iff, htable]
    change (p.flags.setIfInBounds s.index true)[t.index]? = some true ↔ _
    rw [SlotTable.getElem?_setFlag]
    by_cases hts : t = s
    · simp [hts, hflag]
    · simp [hts]
  · have hsize : p.flags.size = p.size := p.consistent.size_flags
    rw [hslot, htable]
    exact ⟨by simp [inUse, hsize], p.inUse_grow ty⟩

/-- A slot that is taken back was checked out, and no type changes. -/
theorem tryRelease_spec (h : p.tryRelease s = (.ok (), q)) : p.inUse s = true ∧ q.types = p.types := by
  obtain ⟨hused, ty, -, htable⟩ := tryRelease_eq_ok_iff.1 h
  exact ⟨hused, by rw [htable]; rfl⟩

/-- The others are what they were. -/
theorem inUse_of_tryRelease (h : p.tryRelease s = (.ok (), q)) (t : TempSlot) :
    q.inUse t = true ↔ t ≠ s ∧ p.inUse t = true := by
  obtain ⟨hused, ty, -, htable⟩ := tryRelease_eq_ok_iff.1 h
  rw [inUse_iff, inUse_iff, htable]
  change (p.flags.setIfInBounds s.index false)[t.index]? = some true ↔ _
  rw [SlotTable.getElem?_setFlag]
  by_cases hts : t = s
  · simp [hts]
  · simp [hts]

/-- A slot that is checked out can be handed back. -/
theorem exists_tryRelease (h : p.inUse s = true) :
    ∃ q, p.tryRelease s = (.ok (), q) ∧ ∀ t, q.inUse t = true ↔ t ≠ s ∧ p.inUse t = true := by
  obtain ⟨q, hq⟩ := exists_tryRelease_eq h
  exact ⟨q, hq, inUse_of_tryRelease hq⟩

/-- A slot that is checked out and handed back again leaves no trace. -/
theorem inUse_borrow {ty : Ty} (h : (p.acquire ty).2.2.tryRelease (p.acquire ty).1 = (.ok (), q))
    (t : TempSlot) :
    q.inUse t = p.inUse t := by
  obtain ⟨hfresh, hinUse⟩ := p.acquire_spec ty
  apply Bool.eq_iff_iff.2
  rw [inUse_of_tryRelease h, hinUse]
  constructor
  · rintro ⟨hne, heq | hused⟩
    · exact absurd heq hne
    · exact hused
  · intro hused
    refine ⟨?_, .inr hused⟩
    rintro rfl
    rw [hfresh] at hused
    cases hused

theorem firstLeaked?_eq_none_iff : p.firstLeaked? = none ↔ ∀ s, p.inUse s = false := by
  unfold firstLeaked?
  rw [Option.map_eq_none_iff, Array.findIdx?_eq_none_iff]
  constructor
  · intro h s
    refine Bool.eq_false_iff.2 fun hused => ?_
    exact Bool.false_ne_true (h true (Array.mem_of_getElem? (inUse_iff.1 hused))).symm
  · intro h b hb
    obtain ⟨k, hk⟩ := Array.getElem?_of_mem hb
    cases b with
    | false => rfl
    | true => exact absurd (inUse_iff.2 hk) (Bool.eq_false_iff.1 (h ⟨k⟩))

end TempPool

/-- The slots that are checked out are those of the debugger's views and the return slot. -/
structure Frame.Tidy (frame : Frame) : Prop where
  inUse_iff : ∀ s, frame.temps.inUse s = true ↔
    s ∈ frame.debugLocals.map Prod.snd ∨ frame.returnSlot = some s
  nodup : (frame.debugLocals.map Prod.snd).Nodup
  apart : ∀ s, frame.returnSlot = some s → s ∉ frame.debugLocals.map Prod.snd

namespace Frame.Tidy

variable {frame frame' : Frame}

theorem congr (h : frame.Tidy) (htemps : ∀ s, frame'.temps.inUse s = frame.temps.inUse s)
    (hviews : frame'.debugLocals = frame.debugLocals) (hslot : frame'.returnSlot = frame.returnSlot) :
    frame'.Tidy where
  inUse_iff s := by rw [htemps, hviews, hslot]; exact h.inUse_iff s
  nodup := by rw [hviews]; exact h.nodup
  apart s hs := by rw [hviews]; exact h.apart s (hslot ▸ hs)

theorem empty (labels : LabelTable) : ({ labels } : Frame).Tidy where
  inUse_iff s := by simp [TempPool.inUse]
  nodup := List.nodup_nil
  apart _ := nofun

/-- A slot for one more view of the debugger. -/
theorem view (h : frame.Tidy) (ty : Ty) (name : Name) :
    ({ frame with
      temps := (frame.temps.acquire ty).2.2
      debugLocals := frame.debugLocals ++ [(name, (frame.temps.acquire ty).1)] } : Frame).Tidy := by
  obtain ⟨hfresh, hinUse⟩ := frame.temps.acquire_spec ty
  have hnot := (not_congr (h.inUse_iff _)).1 (Bool.eq_false_iff.1 hfresh)
  obtain ⟨hview, hslot⟩ := not_or.1 hnot
  refine ⟨fun s => ?_, ?_, fun s hs hmem => ?_⟩
  · rw [hinUse, h.inUse_iff, List.map_append, List.mem_append, List.map_singleton,
      List.mem_singleton]
    tauto
  · rw [List.map_append, List.map_singleton, List.nodup_append]
    refine ⟨h.nodup, List.nodup_singleton _, ?_⟩
    rintro s hs t ht rfl
    rw [List.mem_singleton.1 ht] at hs
    exact hview hs
  · rw [List.map_append, List.map_singleton, List.mem_append, List.mem_singleton] at hmem
    rcases hmem with hmem | rfl
    · exact h.apart s hs hmem
    · exact hslot hs

/-- The return slot is checked out. -/
theorem returning (h : frame.Tidy) (hnone : frame.returnSlot = none) (ty : Ty) :
    ({ frame with
      temps := (frame.temps.acquire ty).2.2
      returnSlot := some (frame.temps.acquire ty).1 } : Frame).Tidy := by
  obtain ⟨hfresh, hinUse⟩ := frame.temps.acquire_spec ty
  have hnot := (not_congr (h.inUse_iff _)).1 (Bool.eq_false_iff.1 hfresh)
  refine ⟨fun s => ?_, h.nodup, fun s hs hmem => ?_⟩
  · rw [hinUse, h.inUse_iff, hnone]
    simp only [Option.some.injEq, reduceCtorEq, or_false]
    rw [eq_comm (a := s), or_comm]
  · cases hs
    exact hnot (.inl hmem)

end Frame.Tidy

end StackCode
