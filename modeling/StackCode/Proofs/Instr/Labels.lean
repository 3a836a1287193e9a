import Mathlib.Data.List.Nodup
import StackCode.Proofs.Instr.Straight

/-!
# Labels of the code

The labels that some code places, branches to and enters as handlers.  In finished code no label is
placed twice, so that a label names one position.
-/

namespace StackCode

/-- The instruction at a position is the first of those from there on. -/
theorem getElem?_of_drop {code rest : List Instr} {pc : Nat} {i : Instr}
    (h : code.drop pc = i :: rest) : code[pc]? = some i := by
  have hfirst : (code.drop pc)[0]? = code[pc]? := List.getElem?_drop
  rw [h] at hfirst
  exact hfirst.symm

theorem drop_add_of_drop {code instrs rest : List Instr} {pc : Nat}
    (h : code.drop pc = instrs ++ rest) : code.drop (pc + instrs.length) = rest := by
  rw [← List.drop_drop, h, List.drop_left]

/-- The labels that some code places, in order. -/
def placedIn (code : List Instr) : List Label := code.filterMap Instr.placed?

/-- The labels that some code names as targets. -/
def targetsIn (code : List Instr) : List Label := code.flatMap Instr.targets

/-- The handlers of the protected regions that some code opens. -/
def handlersIn (code : List Instr) : List Label := code.filterMap Instr.handler?

theorem placedIn_append (code code' : List Instr) :
    placedIn (code ++ code') = placedIn code ++ placedIn code' := List.filterMap_append

theorem targetsIn_append (code code' : List Instr) :
    targetsIn (code ++ code') = targetsIn code ++ targetsIn code' := List.flatMap_append

theorem mem_placedIn {code : List Instr} {l : Label} : l ∈ placedIn code ↔ .markLabel l ∈ code := by
  rw [placedIn, List.mem_filterMap]
  constructor
  · rintro ⟨i, hi, hl⟩
    cases i <;> cases hl
    exact hi
  · intro h; exact ⟨_, h, rfl⟩

theorem mem_targetsIn {code : List Instr} {l : Label} :
    l ∈ targetsIn code ↔ ∃ i ∈ code, l ∈ i.targets := List.mem_flatMap

theorem mem_targetsIn_of_mem_handlersIn {code : List Instr} {l : Label} (h : l ∈ handlersIn code) :
    l ∈ targetsIn code := by
  obtain ⟨i, hi, hl⟩ := List.mem_filterMap.1 h
  refine mem_targetsIn.2 ⟨i, hi, ?_⟩
  cases i <;> cases hl
  exact List.mem_singleton.2 rfl

/-- A label stands at one position. -/
theorem eq_of_placed {code : List Instr} (h : (placedIn code).Nodup) {l : Label} {p q : Nat}
    (hp : code[p]? = some (.markLabel l)) (hq : code[q]? = some (.markLabel l)) : p = q := by
  induction code generalizing p q with
  | nil => cases hp
  | cons i code ih =>
    have htail : (placedIn code).Nodup := by
      unfold placedIn at h ⊢
      rw [List.filterMap_cons] at h
      split at h
      · exact h
      · exact (List.nodup_cons.1 h).2
    have hfirst {k : Nat} (hi : i = .markLabel l) (hk : code[k]? = some (.markLabel l)) : False := by
      subst hi
      have hnodup : (l :: placedIn code).Nodup := h
      exact (List.nodup_cons.1 hnodup).1 (mem_placedIn.2 (List.mem_of_getElem? hk))
    cases p with
    | zero =>
      cases q with
      | zero => rfl
      | succ q => exact (hfirst (Option.some_inj.1 hp) hq).elim
    | succ p =>
      cases q with
      | zero => exact (hfirst (Option.some_inj.1 hq) hp).elim
      | succ q => exact congrArg _ (ih htail hp hq)

/-- Where a label stands is found. -/
theorem idxOf?_of_placed {code : List Instr} (h : (placedIn code).Nodup) {l : Label} {q : Nat}
    (hq : code[q]? = some (.markLabel l)) : code.idxOf? (.markLabel l) = some q := by
  have hmem : .markLabel l ∈ code := List.mem_of_getElem? hq
  cases hidx : code.idxOf? (.markLabel l) with
  | none => exact absurd hmem (by simpa using hidx)
  | some q' =>
    obtain ⟨hlt, heq, -⟩ := List.idxOf?_eq_some_iff.1 hidx
    rw [eq_of_placed h hq (List.getElem?_eq_some_iff.2 ⟨hlt, heq⟩)]

/-- A label that is placed, and no label twice, is placed once. -/
theorem count_markLabel {code : List Instr} (h : (placedIn code).Nodup) {l : Label}
    (hl : l ∈ placedIn code) : code.count (.markLabel l) = 1 := by
  have hcount : code.count (.markLabel l) = (placedIn code).count l := by
    rw [placedIn, List.count_filterMap, List.count_eq_countP]
    refine List.countP_congr fun i _ => ?_
    rw [beq_iff_eq, beq_iff_eq]
    cases i <;> simp [Instr.placed?]
  rw [hcount]
  exact List.count_eq_one_of_mem h hl

end StackCode
