import StackCode.Proofs.Body.Tracks
import StackCode.Proofs.Path.Safety

/-!
# What the verifier's account says of paths

The verifier goes over a body once, from the first instruction to the last, and keeps one account of
the stack at every position.  Where it accepts the body, a path stands at a position with as many
values as the account has there, or at a label with as many as a label is entered with; so the stack
holds on every path what the code expects.  The account does not know of jumps to handlers, which it
lets pass: behind the label of a handler it counts the exception, and a jump brings none.

Main statements: `MethodBody.balanced_of_verify`, `MethodBody.handler_entered_empty`.
-/

namespace StackCode

namespace BodyCheck

variable {handlers : List Label} {s s' : BodyCheck} {code : List Instr} {i : Instr}

/-- An instruction that is passed names labels of the table. -/
theorem exists_of_execute (h : s.execute i = .ok s') :
    ∃ labels, s.labels.referenceAll i.targets = .ok labels := by
  cases href : s.labels.referenceAll i.targets with
  | ok labels => exact ⟨labels, rfl⟩
  | error e =>
    change (s.labels.referenceAll i.targets).bind _ = _ at h
    rw [href] at h
    cases h

/-! ## Labels -/

/-- Passing an instruction places and references its own labels, and none that is placed already. -/
theorem step_grows (h : s.step handlers i = .ok s') :
    s.labels.Grows s'.labels i.placed?.toList i.targets ∧
      ∀ l, i.placed? = some l → s.labels.isMarked l = false := by
  cases hi : i.placed? with
  | some l =>
    obtain rfl : i = .markLabel l := by cases i <;> cases hi; rfl
    change (s.labels.mark l).bind _ = _ at h
    cases hmark : s.labels.mark l with
    | error e => rw [hmark] at h; cases h
    | ok labels =>
      rw [hmark] at h
      obtain ⟨hgrows, hfresh⟩ := LabelTable.mark_grows hmark
      refine ⟨?_, fun l' hl' => by cases hl'; exact hfresh⟩
      simp only [Except.bind] at h
      split at h <;> cases h
      exact hgrows
  | none =>
    refine ⟨?_, nofun⟩
    rw [step_of_placed hi] at h
    obtain ⟨labels, href⟩ := exists_of_execute h
    have hgrows := LabelTable.referenceAll_grows href
    rw [execute_eq href] at h
    split at h
    · cases hdepth : i.depthAfter s.depth with
      | error e => rw [hdepth] at h; cases h
      | ok depth => rw [hdepth] at h; cases h; exact hgrows
    · cases h; exact hgrows

/-- What has been placed by the end was placed once, and nothing else has been. -/
theorem run_grows (h : s.run handlers code = .ok s') :
    s.labels.Grows s'.labels (placedIn code) (targetsIn code) ∧ (placedIn code).Nodup ∧
      ∀ l ∈ placedIn code, s.labels.isMarked l = false := by
  induction code generalizing s with
  | nil => cases h; exact ⟨.refl _, List.nodup_nil, nofun⟩
  | cons i code ih =>
    rw [run_cons] at h
    cases hstep : s.step handlers i with
    | error e => rw [hstep] at h; cases h
    | ok mid =>
      rw [hstep] at h
      obtain ⟨hgrows, hfresh⟩ := step_grows hstep
      obtain ⟨hrest, hnodup, hfreshRest⟩ := ih h
      have hplaced : placedIn (i :: code) = i.placed?.toList ++ placedIn code := by
        unfold placedIn
        rw [List.filterMap_cons]
        cases i.placed? <;> rfl
      have hunmarked (l : Label) (hl : l ∈ placedIn code) :
          s.labels.isMarked l = false ∧ l ∉ i.placed?.toList := by
        have hmid := Bool.eq_false_iff.1 (hfreshRest l hl)
        obtain ⟨hs, hi⟩ := not_or.1 (mt (hgrows.isMarked_iff l).2 hmid)
        exact ⟨Bool.eq_false_iff.2 hs, hi⟩
      rw [hplaced]
      refine ⟨hgrows.trans hrest, List.nodup_append.2 ⟨?_, hnodup, ?_⟩, fun l hl => ?_⟩
      · cases i.placed? <;> simp
      · rintro l hl l' hl' rfl
        exact (hunmarked l hl').2 hl
      · rcases List.mem_append.1 hl with hl | hl
        · exact hfresh l (Option.mem_toList.1 hl)
        · exact (hunmarked l hl).1

/-! ## The depth -/

/-- Passing an instruction that is no label, where the account takes it for reachable. -/
theorem step_of_live (hi : i.placed? = none) (hlive : s.isLive = true)
    (h : s.step handlers i = .ok s') :
    i.depthAfter s.depth = .ok (s.depth - i.pops + i.pushes) ∧
      (i.endsFlow = false → s'.isLive = true ∧ s'.depth = s.depth - i.pops + i.pushes) := by
  rw [step_of_placed hi] at h
  obtain ⟨labels, href⟩ := exists_of_execute h
  rw [execute_eq href, if_pos hlive] at h
  cases hdepth : i.depthAfter s.depth with
  | error e => rw [hdepth] at h; cases h
  | ok depth =>
    rw [hdepth] at h
    cases h
    obtain rfl := (Instr.depth_eq_of_passes hdepth).2
    refine ⟨rfl, fun hflow => ?_⟩
    simp [hflow]

/-- Passing a label: where the account takes it for reachable, it is no handler and the stack is
empty; behind it, the account has what a label is entered with. -/
theorem step_of_label {l : Label} (h : s.step handlers (.markLabel l) = .ok s') :
    (s.isLive = true → l ∉ handlers ∧ s.depth = 0) ∧ s'.isLive = true ∧
      s'.depth = if l ∈ handlers then 1 else 0 := by
  cases hmark : s.labels.mark l with
  | error e =>
    change (s.labels.mark l).bind _ = _ at h
    rw [hmark] at h
    cases h
  | ok labels =>
    rw [step_markLabel hmark] at h
    split at h
    · cases h
    · next hclear =>
      cases h
      refine ⟨fun hlive => ?_, rfl, ?_⟩
      · rw [hlive, Bool.true_and, Bool.or_eq_true, not_or] at hclear
        simpa using hclear
      · by_cases hl : l ∈ handlers <;> simp [hl]

end BodyCheck

namespace MethodBody

variable {b : MethodBody}

/-- The account in front of the instruction at position `pc`. -/
def accountAt (b : MethodBody) (pc : Nat) : Except LowerError BodyCheck :=
  ({ labels := LabelTable.reserve {} b.labelCount } : BodyCheck).run b.handlers (b.instrs.take pc)

/-- From one position to the next, the account passes the instruction. -/
theorem accountAt_succ {pc : Nat} {i : Instr} (hpc : b.instrs[pc]? = some i) {s : BodyCheck}
    (h : b.accountAt pc = .ok s) : b.accountAt (pc + 1) = s.step b.handlers i := by
  unfold accountAt at h ⊢
  rw [List.take_add_one, hpc, Option.toList_some, BodyCheck.run_append h, BodyCheck.run_singleton]

/-- What it takes for a body to be accepted. -/
theorem verify_eq_ok (h : b.verify = .ok ()) :
    ∃ done, ({ labels := LabelTable.reserve {} b.labelCount } : BodyCheck).run b.handlers b.instrs =
      .ok done ∧ done.labels.finish = .ok () := by
  unfold verify at h
  change (BodyCheck.run b.handlers _ b.instrs).bind _ = _ at h
  cases hrun : BodyCheck.run b.handlers
      { labels := LabelTable.reserve {} b.labelCount } b.instrs with
  | error e => rw [hrun] at h; cases h
  | ok done =>
    rw [hrun] at h
    change (done.labels.finish).bind _ = _ at h
    cases hfinish : done.labels.finish with
    | error e => rw [hfinish] at h; cases h
    | ok u => exact ⟨done, rfl, hfinish⟩

/-- In a body that is accepted there is an account at every position. -/
theorem exists_accountAt (h : b.verify = .ok ()) (pc : Nat) : ∃ s, b.accountAt pc = .ok s := by
  obtain ⟨done, hrun, -⟩ := verify_eq_ok h
  rw [← List.take_append_drop pc b.instrs] at hrun
  unfold accountAt
  cases hpre : BodyCheck.run b.handlers { labels := LabelTable.reserve {} b.labelCount }
      (b.instrs.take pc) with
  | ok s => exact ⟨s, rfl⟩
  | error e =>
    unfold BodyCheck.run at hrun hpre
    rw [List.foldlM_append, hpre] at hrun
    cases hrun

/-- In a body that is accepted no label is placed twice, and every label that an instruction names is
placed. -/
theorem placed_of_verify (h : b.verify = .ok ()) :
    (placedIn b.instrs).Nodup ∧ ∀ i ∈ b.instrs, ∀ l ∈ i.targets, l ∈ placedIn b.instrs := by
  obtain ⟨done, hrun, hfinish⟩ := verify_eq_ok h
  obtain ⟨hgrows, hnodup, -⟩ := BodyCheck.run_grows hrun
  refine ⟨hnodup, fun i hi l hl => ?_⟩
  have hblank := LabelTable.isBlank_reserve LabelTable.isBlank_empty b.labelCount l
  have hmarked := LabelTable.finish_eq_ok_iff.1 hfinish l
    ((hgrows.isReferenced_iff l).2 (.inr (mem_targetsIn.2 ⟨i, hi, hl⟩)))
  rcases (hgrows.isMarked_iff l).1 hmarked with hstart | hplaced
  · exact absurd hstart (Bool.eq_false_iff.1 hblank.1)
  · exact hplaced

end MethodBody

/-! ## Paths -/

namespace PathState

/-- What the code expects of the stack at a point. -/
structure Balanced (code : List Instr) (s : PathState) : Prop where
  pops_le : ∀ i, code[s.pc]? = some i → i.pops ≤ s.depth
  label : ∀ l, code[s.pc]? = some (.markLabel l) → s.depth = if l ∈ handlersIn code then 1 else 0
  jump : ∀ i, code[s.pc]? = some i → i.isJump = true → s.depth - i.pops = 0
  ret : ∀ withValue, code[s.pc]? = some (.ret withValue) → s.depth = withValue.toNat

/-- A point agrees with the verifier's account: it has the depth of the account, or the depth that
the label it stands at is entered with. -/
structure Agrees (b : MethodBody) (s : PathState) : Prop where
  entered : ∀ l ∈ s.entered, l ∈ b.handlers
  here : (∃ a, b.accountAt s.pc = .ok a ∧ a.isLive = true ∧ a.depth = s.depth) ∨
    ∃ l, b.instrs[s.pc]? = some (.markLabel l) ∧ s.depth = if l ∈ b.handlers then 1 else 0

variable {b : MethodBody} {s t : PathState}

theorem Agrees.initial (b : MethodBody) : Agrees b initial :=
  ⟨nofun, .inl ⟨_, rfl, rfl, rfl⟩⟩

/-- At a label, a point has what the label is entered with. -/
theorem Agrees.label (h : b.verify = .ok ()) (hs : Agrees b s) {l : Label}
    (hpc : b.instrs[s.pc]? = some (.markLabel l)) : s.depth = if l ∈ b.handlers then 1 else 0 := by
  rcases hs.here with ⟨a, ha, hlive, hdepth⟩ | ⟨l', hpc', hdepth⟩
  · obtain ⟨a', ha'⟩ := MethodBody.exists_accountAt h (s.pc + 1)
    rw [MethodBody.accountAt_succ hpc ha] at ha'
    obtain ⟨hnot, hzero⟩ := (BodyCheck.step_of_label ha').1 hlive
    rw [if_neg hnot, ← hdepth, hzero]
  · cases hpc.symm.trans hpc'
    exact hdepth

/-- At an instruction that is no label, the account has what the point has, and the instruction finds
what it takes. -/
theorem Agrees.instr (h : b.verify = .ok ()) (hs : Agrees b s) {i : Instr}
    (hpc : b.instrs[s.pc]? = some i) (hi : i.placed? = none) :
    i.depthAfter s.depth = .ok (s.depth - i.pops + i.pushes) ∧
      (i.endsFlow = false → ∃ a, b.accountAt (s.pc + 1) = .ok a ∧ a.isLive = true ∧
        a.depth = s.depth - i.pops + i.pushes) := by
  rcases hs.here with ⟨a, ha, hlive, hdepth⟩ | ⟨l, hpc', -⟩
  · obtain ⟨a', ha'⟩ := MethodBody.exists_accountAt h (s.pc + 1)
    obtain ⟨hafter, hpass⟩ :=
      BodyCheck.step_of_live hi hlive ((MethodBody.accountAt_succ hpc ha).symm.trans ha')
    rw [hdepth] at hafter hpass
    exact ⟨hafter, fun hflow => ⟨a', ha', hpass hflow⟩⟩
  · cases hpc.symm.trans hpc'
    cases hi

theorem Agrees.balanced (h : b.verify = .ok ()) (hs : Agrees b s) : s.Balanced b.instrs := by
  have hinstr {i : Instr} (hpc : b.instrs[s.pc]? = some i) (hi : i.placed? = none) :=
    (hs.instr h hpc hi).1
  refine ⟨fun i hpc => ?_, fun l hpc => hs.label h hpc, fun i hpc hjump => ?_,
    fun withValue hpc => Instr.depth_eq_of_ret (hinstr hpc rfl)⟩
  · cases hi : i.placed? with
    | none => exact (Instr.depth_eq_of_passes (hinstr hpc hi)).1
    | some l =>
      obtain rfl : i = .markLabel l := by cases i <;> cases hi; rfl
      exact Nat.zero_le _
  · have hi : i.placed? = none := by cases i <;> first | rfl | cases hjump
    rw [(Instr.depth_eq_of_isJump hjump (hinstr hpc hi)).1, Nat.sub_self]

/-- A jump does not lead to a handler from here. -/
def JumpsApart (b : MethodBody) (s : PathState) : Prop :=
  ∀ i, b.instrs[s.pc]? = some i → i.isJump = true → ∀ l ∈ i.targets, l ∉ b.handlers

/-- Execution of an instruction keeps to the account, unless it jumps to a handler. -/
theorem Agrees.moves (h : b.verify = .ok ()) (hs : Agrees b s) (hapart : JumpsApart b s)
    (hmove : Moves b.instrs s t) : Agrees b t := by
  cases hmove with
  | @pass i hpc hflow =>
    refine ⟨fun l hl => ?_, .inl ?_⟩
    · rcases List.mem_append.1 hl with hl | hl
      · exact List.mem_filterMap.2 ⟨i, List.mem_of_getElem? hpc, Option.mem_toList.1 hl⟩
      · exact hs.entered l hl
    · cases hi : i.placed? with
      | none => exact (hs.instr h hpc hi).2 hflow
      | some l =>
        obtain rfl : i = .markLabel l := by cases i <;> cases hi; rfl
        obtain ⟨a, ha⟩ := MethodBody.exists_accountAt h s.pc
        obtain ⟨a', ha'⟩ := MethodBody.exists_accountAt h (s.pc + 1)
        obtain ⟨-, hlive, hdepth⟩ :=
          BodyCheck.step_of_label ((MethodBody.accountAt_succ hpc ha).symm.trans ha')
        exact ⟨a', ha', hlive, hdepth.trans (hs.label h hpc).symm⟩
  | @jump i l q hpc hjump hl hq =>
    have hi : i.placed? = none := by cases i <;> first | rfl | cases hjump
    refine ⟨hs.entered, .inr ⟨l, hq, ?_⟩⟩
    rw [if_neg (hapart i hpc hjump l hl)]
    exact (Instr.depth_eq_of_isJump hjump (hs.instr h hpc hi).1).2

theorem Agrees.steps (h : b.verify = .ok ()) (hs : Agrees b s) (hapart : JumpsApart b s)
    (hstep : Steps b.instrs s t) : Agrees b t := by
  cases hstep with
  | moves hmove => exact hs.moves h hapart hmove
  | @raise l q hl hq => exact ⟨hs.entered, .inr ⟨l, hq, (if_pos (hs.entered l hl)).symm⟩⟩

/-- Every path keeps to the account, as long as no jump on it leads to a handler. -/
theorem Agrees.of_reached (h : b.verify = .ok ())
    (hapart : ∀ s, Reached b.instrs s → JumpsApart b s) (hs : Reached b.instrs s) : Agrees b s := by
  induction hs with
  | refl => exact .initial b
  | tail hpath hstep ih => exact ih.steps h (hapart _ hpath) hstep

end PathState

namespace MethodBody

variable {b : MethodBody}

/-- A jump to a handler gets there with an empty stack. -/
theorem moves_to_handler (h : b.verify = .ok ()) {s : PathState} {i : Instr} {after : Nat}
    (hpc : b.instrs[s.pc]? = some i) (hjump : i.isJump = true)
    (hdepth : i.depthAfter s.depth = .ok after) {l : Label} (hl : l ∈ i.targets)
    (hhandler : l ∈ b.handlers) :
    ∃ t, PathState.Moves b.instrs s t ∧ b.instrs[t.pc]? = some (.markLabel l) ∧ t.depth = 0 ∧
      ¬ t.Balanced b.instrs := by
  have hplaced := (placed_of_verify h).2 i (List.mem_of_getElem? hpc) l hl
  obtain ⟨q, hq⟩ := List.mem_iff_getElem?.1 (mem_placedIn.1 hplaced)
  have hzero : s.depth - i.pops + i.pushes = 0 :=
    (Instr.depth_eq_of_passes hdepth).2.symm.trans (Instr.depth_eq_of_isJump hjump hdepth).2
  refine ⟨_, .jump hpc hjump hl hq, hq, hzero, fun hbalanced => ?_⟩
  have hone := (hbalanced.label l hq).trans (if_pos hhandler)
  cases hzero.symm.trans hone

/-- In a body that is accepted, the stack holds on every path what the code expects exactly if no
jump on a path leads to a handler. -/
theorem balanced_iff_jumpsApart (h : b.verify = .ok ()) :
    (∀ s, PathState.Reached b.instrs s → s.Balanced b.instrs) ↔
      ∀ s, PathState.Reached b.instrs s → s.JumpsApart b := by
  constructor
  · intro hbalanced s hs i hpc hjump l hl hhandler
    have hret : i.returnDepth? = none := by cases i <;> first | rfl | cases hjump
    have hpushes : i.pushes = 0 := by cases i <;> first | rfl | cases hjump
    have hdepth : i.depthAfter s.depth = .ok (s.depth - i.pops + i.pushes) := by
      refine Instr.depthAfter_eq_ok_iff.2
        ⟨(hbalanced s hs).pops_le i hpc, fun d hd => ?_, rfl, fun _ => ?_⟩
      · rw [hret] at hd
        cases hd
      · rw [(hbalanced s hs).jump i hpc hjump, hpushes]
    obtain ⟨t, hmove, -, -, hnot⟩ := moves_to_handler h hpc hjump hdepth hl hhandler
    exact hnot (hbalanced t (hs.tail (.moves hmove)))
  · intro hapart s hs
    exact (PathState.Agrees.of_reached h hapart hs).balanced h

/-- In a body that is accepted, and in which no jump leads to a handler, the stack holds on every
path what the code expects, and every label that an instruction names stands in the code once. -/
theorem balanced_of_verify (h : b.verify = .ok ())
    (hapart : ∀ i ∈ b.instrs, i.isJump = true → ∀ l ∈ i.targets, l ∉ b.handlers) :
    (∀ s, PathState.Reached b.instrs s → s.Balanced b.instrs) ∧
      ∀ i ∈ b.instrs, ∀ l ∈ i.targets, b.instrs.count (.markLabel l) = 1 := by
  obtain ⟨hnodup, hplaced⟩ := placed_of_verify h
  refine ⟨(balanced_iff_jumpsApart h).2 fun s _ i hpc hjump l hl => ?_, fun i hi l hl => ?_⟩
  · exact hapart i (List.mem_of_getElem? hpc) hjump l hl
  · exact count_markLabel hnodup (hplaced i hi l hl)

end MethodBody

/-- The code of `guardedCall` as a body. -/
def guardedBody : MethodBody where
  name := ⟨1⟩
  instrs := guardedCode.toList
  temps := []
  labelCount := 3
  resumePoints := []
  debugLocals := []

theorem guardedBody_balanced :
    guardedBody.verify = .ok () ∧
      (∀ i ∈ guardedBody.instrs, i.isJump = true → ∀ l ∈ i.targets, l ∉ guardedBody.handlers) ∧
      (∀ s, PathState.Reached guardedBody.instrs s → s.Balanced guardedBody.instrs) ∧
      ∀ i ∈ guardedBody.instrs, ∀ l ∈ i.targets, guardedBody.instrs.count (.markLabel l) = 1 := by
  have hverify : guardedBody.verify = .ok () := by decide +kernel
  have hapart : ∀ i ∈ guardedBody.instrs, i.isJump = true →
      ∀ l ∈ i.targets, l ∉ guardedBody.handlers := by decide
  exact ⟨hverify, hapart, MethodBody.balanced_of_verify hverify hapart⟩

namespace MethodBody

variable {b : MethodBody}

/-- A body is accepted although it jumps to a handler.  The account leaves nothing on the stack at the
jump; the label of the handler stands where the account takes it for unreachable, and behind it the
account counts the exception.  So whatever keeps to the account up to the jump gets to the handler
with an empty stack. -/
theorem handler_entered_empty (h : b.verify = .ok ()) {pc : Nat} {i : Instr}
    (hpc : b.instrs[pc]? = some i) (hjump : i.isJump = true) {l : Label} (hl : l ∈ i.targets)
    (hhandler : l ∈ b.handlers) {a : BodyCheck} (ha : b.accountAt pc = .ok a)
    (hlive : a.isLive = true) :
    a.depth - i.pops = 0 ∧
      (∃ q before behind, b.instrs[q]? = some (.markLabel l) ∧ b.accountAt q = .ok before ∧
        before.isLive = false ∧ b.accountAt (q + 1) = .ok behind ∧ behind.isLive = true ∧
        behind.depth = 1) ∧
      ∀ s : PathState, s.pc = pc → s.depth = a.depth → ∃ t, PathState.Moves b.instrs s t ∧
        b.instrs[t.pc]? = some (.markLabel l) ∧ t.depth = 0 ∧ ¬ t.Balanced b.instrs := by
  have hi : i.placed? = none := by cases i <;> first | rfl | cases hjump
  obtain ⟨next, hnext⟩ := exists_accountAt h (pc + 1)
  have hdepth := (BodyCheck.step_of_live hi hlive ((accountAt_succ hpc ha).symm.trans hnext)).1
  refine ⟨?_, ?_, ?_⟩
  · rw [(Instr.depth_eq_of_isJump hjump hdepth).1, Nat.sub_self]
  · have hplaced := (placed_of_verify h).2 i (List.mem_of_getElem? hpc) l hl
    obtain ⟨q, hq⟩ := List.mem_iff_getElem?.1 (mem_placedIn.1 hplaced)
    obtain ⟨before, hbefore⟩ := exists_accountAt h q
    obtain ⟨behind, hbehind⟩ := exists_accountAt h (q + 1)
    obtain ⟨hfall, hbehindLive, hone⟩ :=
      BodyCheck.step_of_label ((accountAt_succ hq hbefore).symm.trans hbehind)
    refine ⟨q, before, behind, hq, hbefore, ?_, hbehind, hbehindLive, ?_⟩
    · exact Bool.eq_false_iff.2 fun hbeforeLive => (hfall hbeforeLive).1 hhandler
    · rw [hone, if_pos hhandler]
  · rintro s rfl hs
    exact moves_to_handler h hpc hjump (hs ▸ hdepth) hl hhandler

end MethodBody

/-- A body that enters a protected region and then branches to its handler. -/
def handlerJump : MethodBody where
  name := ⟨0⟩
  instrs := [.enterTry ⟨0⟩, .branch ⟨0⟩, .markLabel ⟨0⟩, .pop, .ret false]
  temps := []
  labelCount := 1
  resumePoints := []
  debugLocals := []

/-- The account of `handlerJump` in front of the branch. -/
def handlerJumpAccount : BodyCheck where
  labels := { entries := #[{ isReferenced := true }] }

theorem handlerJump_entered_empty :
    handlerJumpAccount.depth = 0 ∧
      (∃ q before behind, handlerJump.instrs[q]? = some (.markLabel ⟨0⟩) ∧
        handlerJump.accountAt q = .ok before ∧ before.isLive = false ∧
        handlerJump.accountAt (q + 1) = .ok behind ∧ behind.isLive = true ∧ behind.depth = 1) ∧
      ∀ s : PathState, s.pc = 1 → s.depth = 0 → ∃ t, PathState.Moves handlerJump.instrs s t ∧
        handlerJump.instrs[t.pc]? = some (.markLabel ⟨0⟩) ∧ t.depth = 0 ∧
        ¬ t.Balanced handlerJump.instrs :=
  MethodBody.handler_entered_empty (i := .branch ⟨0⟩) (a := handlerJumpAccount) (by decide +kernel) rfl rfl
    (List.mem_singleton_self _) (by decide) (by decide) rfl

/-- The branch of `handlerJump` is live where the verifier gets to it and leads to a handler, and the
body is accepted. -/
theorem handlerJump_accepted :
    handlerJump.instrs[1]? = some (.branch ⟨0⟩) ∧ handlerJump.accountAt 1 = .ok handlerJumpAccount ∧
      handlerJumpAccount.isLive = true ∧ (⟨0⟩ : Label) ∈ handlerJump.handlers ∧
      handlerJump.verify = .ok () := by decide +kernel

end StackCode
