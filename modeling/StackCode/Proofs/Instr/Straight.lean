import StackCode.Instr.Depth

/-!
# Classes of instructions

An instruction is *straight* if it names no label and is no bookkeeping; it is *plain* if, besides,
it works on no temporary, lets the state of the generator be, and control passes it.  Which slot a
temporary got is an accident of the layout, so `erased` forgets it.  Expressions and simple
statements come to plain code, which `erased` leaves alone.  A *stop* is there for a debugger and does
nothing; plain code without stops is *work*.
-/

namespace StackCode

namespace Instr

/-- The label that an instruction places. -/
def placed? : Instr → Option Label
  | .markLabel l => some l
  | _ => none

/-- Declares a temporary or ends a use of one. -/
def isNote : Instr → Bool
  | .allocTemp _ _ | .freeTemp _ => true
  | _ => false

def usesTemp : Instr → Bool
  | .loadTemp _ | .storeTemp _ => true
  | _ => false

/-- Works on the state of the generator. -/
def usesState : Instr → Bool
  | .loadState | .storeState => true
  | _ => false

/-- Names no label and is no bookkeeping. -/
def isStraight (i : Instr) : Bool := i.targets.isEmpty && !i.isBookkeeping

/-- Straight, without a temporary or the state, and passed on from. -/
def isPlain (i : Instr) : Bool := i.isStraight && !i.usesTemp && !i.usesState && !i.endsFlow

/-- Lets a debugger stop or step over a place, or is there for it to stop at. -/
def isStop : Instr → Bool
  | .nop | .sequencePoint _ | .hiddenSequencePoint => true
  | _ => false

/-- Plain, and does something. -/
def isWork (i : Instr) : Bool := i.isPlain && !i.isStop

/-- An instruction that control passes to the next one, whatever the values are. -/
def passes (i : Instr) : Bool := i.isNote || i.isStraight && !i.endsFlow

/-- The instruction without the number of its slot. -/
def erased : Instr → Instr
  | .loadTemp _ => .loadTemp ⟨0⟩
  | .storeTemp _ => .storeTemp ⟨0⟩
  | i => i

theorem isStraight_of_isPlain {i : Instr} (h : i.isPlain = true) : i.isStraight = true :=
  (Bool.and_eq_true_iff.1 (Bool.and_eq_true_iff.1 (Bool.and_eq_true_iff.1 h).1).1).1

theorem isPlain_of_isWork {i : Instr} (h : i.isWork = true) : i.isPlain = true :=
  (Bool.and_eq_true_iff.1 h).1

theorem isPlain_of_isStop {i : Instr} (h : i.isStop = true) : i.isPlain = true := by
  cases i <;> first | rfl | cases h

theorem isStop_of_isWork {i : Instr} (h : i.isWork = true) : i.isStop = false := by
  simpa using (Bool.and_eq_true_iff.1 h).2

theorem endsFlow_of_isPlain {i : Instr} (h : i.isPlain = true) : i.endsFlow = false := by
  simpa using (Bool.and_eq_true_iff.1 h).2

theorem passes_of_isNote {i : Instr} (h : i.isNote = true) : i.passes = true := by
  simp [passes, h]

theorem passes_of_isPlain {i : Instr} (h : i.isPlain = true) : i.passes = true := by
  simp [passes, isStraight_of_isPlain h, endsFlow_of_isPlain h]

theorem endsFlow_of_passes {i : Instr} (h : i.passes = true) : i.endsFlow = false := by
  cases i <;> first | rfl | simp [passes, isNote, endsFlow] at h

theorem isJump_of_passes {i : Instr} (h : i.passes = true) : i.isJump = false := by
  have hflow := endsFlow_of_passes h
  cases i <;> first | rfl | (cases hflow; done) | cases h

theorem usesState_of_isPlain {i : Instr} (h : i.isPlain = true) : i.usesState = false := by
  simpa using (Bool.and_eq_true_iff.1 (Bool.and_eq_true_iff.1 h).1).2

theorem usesTemp_of_isPlain {i : Instr} (h : i.isPlain = true) : i.usesTemp = false := by
  cases i <;> first | rfl | cases h

theorem isNote_of_isPlain {i : Instr} (h : i.isPlain = true) : i.isNote = false := by
  cases i <;> first | rfl | cases h

theorem erased_of_isPlain {i : Instr} (h : i.isPlain = true) : i.erased = i := by
  cases i <;> first | rfl | cases h

theorem targets_of_isStraight {i : Instr} (h : i.isStraight = true) : i.targets = [] :=
  List.isEmpty_iff.1 (Bool.and_eq_true_iff.1 h).1

theorem isBookkeeping_of_isStraight {i : Instr} (h : i.isStraight = true) :
    i.isBookkeeping = false := by
  simpa using (Bool.and_eq_true_iff.1 h).2

theorem placed?_of_isStraight {i : Instr} (h : i.isStraight = true) : i.placed? = none := by
  cases i <;> first | rfl | cases h

theorem handler?_of_isStraight {i : Instr} (h : i.isStraight = true) : i.handler? = none := by
  cases i <;> first | rfl | cases h

/-- Two instructions that differ in the slot alone treat the stack alike. -/
theorem depthAfter_erased (i : Instr) (depth : Nat) :
    i.erased.depthAfter depth = i.depthAfter depth := by
  cases i <;> rfl

theorem pops_erased (i : Instr) : i.erased.pops = i.pops := by
  cases i <;> rfl

@[simp] theorem endsFlow_erased (i : Instr) : i.erased.endsFlow = i.endsFlow := by
  cases i <;> rfl

@[simp] theorem targets_erased (i : Instr) : i.erased.targets = i.targets := by
  cases i <;> rfl

@[simp] theorem placed?_erased (i : Instr) : i.erased.placed? = i.placed? := by
  cases i <;> rfl

@[simp] theorem isBookkeeping_erased (i : Instr) : i.erased.isBookkeeping = i.isBookkeeping := by
  cases i <;> rfl

@[simp] theorem isStraight_erased (i : Instr) : i.erased.isStraight = i.isStraight := by
  cases i <;> rfl

theorem placed?_of_isNote {i : Instr} (h : i.isNote = true) : i.placed? = none := by
  cases i <;> first | rfl | cases h

theorem isBookkeeping_of_isNote {i : Instr} (h : i.isNote = true) : i.isBookkeeping = true := by
  cases i <;> first | rfl | cases h

theorem isNote_of_isBookkeeping {i : Instr} (h : i.isBookkeeping = true) (hi : i.placed? = none) :
    i.isNote = true := by
  cases i <;> simp_all [isBookkeeping, placed?, isNote]

theorem targets_of_isNote {i : Instr} (h : i.isNote = true) : i.targets = [] := by
  cases i <;> first | rfl | cases h

theorem targets_of_passes {i : Instr} (hi : i.passes = true) : i.targets = [] := by
  rcases Bool.or_eq_true_iff.1 hi with hnote | hstraight
  · exact targets_of_isNote hnote
  · exact targets_of_isStraight (Bool.and_eq_true_iff.1 hstraight).1

theorem endsFlow_of_isNote {i : Instr} (h : i.isNote = true) : i.endsFlow = false := by
  cases i <;> first | rfl | cases h

theorem isJump_of_isNote {i : Instr} (h : i.isNote = true) : i.isJump = false := by
  cases i <;> first | rfl | cases h

/-- A note leaves the stack and the flow as they are. -/
theorem depthAfter_of_isNote {i : Instr} (h : i.isNote = true) (depth : Nat) :
    i.depthAfter depth = .ok depth := by
  cases i <;> first | rfl | cases h

/-- Where the depth after an instruction exists, the stack holds what the instruction takes. -/
theorem depthAfter_eq_ok_iff {i : Instr} {depth after : Nat} :
    i.depthAfter depth = .ok after ↔
      i.pops ≤ depth ∧ (∀ d, i.returnDepth? = some d → d = depth) ∧
        after = depth - i.pops + i.pushes ∧ (i.isJump = true → after = 0) := by
  unfold depthAfter
  by_cases hp : depth < i.pops
  · rw [if_pos hp]
    exact ⟨fun h => (nomatch h), fun h => absurd hp (by omega)⟩
  · rw [if_neg hp]
    by_cases hr : i.returnDepth?.any (· ≠ depth) = true
    · rw [if_pos hr]
      refine ⟨fun h => (nomatch h), fun h => ?_⟩
      rw [Option.any_eq_true] at hr
      obtain ⟨d, hd, hne⟩ := hr
      exact absurd (h.2.1 d hd) (by simpa using hne)
    · rw [if_neg hr]
      have hret : ∀ d, i.returnDepth? = some d → d = depth := by
        intro d hd
        rw [hd, Option.any_some] at hr
        simpa using hr
      simp only
      by_cases hj : (i.isJump && decide (depth - i.pops + i.pushes ≠ 0)) = true
      · rw [if_pos hj]
        simp only [Bool.and_eq_true, decide_eq_true_eq] at hj
        refine ⟨fun h => (nomatch h), fun h => ?_⟩
        exact absurd (h.2.2.1 ▸ h.2.2.2 hj.1) hj.2
      · rw [if_neg hj]
        simp only [Bool.and_eq_true, decide_eq_true_eq, not_and, Decidable.not_not] at hj
        constructor
        · intro h
          cases h
          exact ⟨by omega, hret, rfl, hj⟩
        · rintro ⟨-, -, rfl, -⟩
          rfl

/-- A jump takes all that is there. -/
theorem depth_eq_of_isJump {i : Instr} (hi : i.isJump = true) {depth after : Nat}
    (h : i.depthAfter depth = .ok after) : depth = i.pops ∧ after = 0 := by
  obtain ⟨hpops, -, hafter, hjump⟩ := depthAfter_eq_ok_iff.1 h
  have hzero := hjump hi
  exact ⟨by omega, hzero⟩

/-- An instruction that is no return and no jump moves the depth by what it takes and leaves. -/
theorem depth_eq_of_passes {i : Instr} {depth after : Nat} (h : i.depthAfter depth = .ok after) :
    i.pops ≤ depth ∧ after = depth - i.pops + i.pushes :=
  ⟨(depthAfter_eq_ok_iff.1 h).1, (depthAfter_eq_ok_iff.1 h).2.2.1⟩

/-- A return takes all that is there. -/
theorem depth_eq_of_ret {withValue : Bool} {depth after : Nat}
    (h : (ret withValue).depthAfter depth = .ok after) : depth = withValue.toNat :=
  ((depthAfter_eq_ok_iff.1 h).2.1 _ rfl).symm

/-- The depth behind some code. -/
def depthThrough (is : List Instr) (depth : Nat) : Except LowerError Nat :=
  is.foldlM (fun depth i => i.depthAfter depth) depth

theorem depthThrough_cons_iff {i : Instr} {is : List Instr} {depth after : Nat} :
    depthThrough (i :: is) depth = .ok after ↔
      ∃ d, i.depthAfter depth = .ok d ∧ depthThrough is d = .ok after := by
  unfold depthThrough
  rw [List.foldlM_cons]
  cases i.depthAfter depth with
  | error e => simp [bind, Except.bind]
  | ok d => simp [bind, Except.bind]

/-- What is there for a debugger to stop at leaves the stack as it was. -/
theorem depthThrough_of_isStop {is : List Instr} (his : ∀ i ∈ is, i.isStop = true) (depth : Nat) :
    depthThrough is depth = .ok depth := by
  induction is with
  | nil => rfl
  | cons i is ih =>
    obtain ⟨hi, his⟩ := List.forall_mem_cons.1 his
    have hfirst : i.depthAfter depth = .ok depth := by
      cases i <;> first | rfl | cases hi
    exact depthThrough_cons_iff.2 ⟨depth, hfirst, ih his⟩

end Instr

end StackCode
