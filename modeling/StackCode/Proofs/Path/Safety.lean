import Mathlib.Logic.Relation
import StackCode.Proofs.Outline.Realizes

/-!
# Stack safety on every path

A path through some code goes on to the next instruction or to a label that the instruction names,
whatever the values on the stack; and from any point on it, an exception may lead to the handler of
a protected region that has been entered, with nothing but the exception on the stack.  On the paths
through the code of a procedure every instruction finds what it takes, and labels and returns find
exactly what they should.  Main statement: `Procedure.path_safe_of_lowerInto`.
-/

namespace StackCode

/-- A point on a path. -/
structure PathState where
  pc : Nat
  /-- The number of values on the stack. -/
  depth : Nat
  /-- The handlers of the protected regions that have been entered. -/
  entered : List Label

namespace PathState

/-- The first instruction, with an empty stack. -/
def initial : PathState := { pc := 0, depth := 0, entered := [] }

/-- Execution of an instruction. -/
inductive Moves (code : List Instr) : PathState → PathState → Prop
  | pass {s : PathState} {i : Instr} (hpc : code[s.pc]? = some i) (hflow : i.endsFlow = false) :
      Moves code s
        { pc := s.pc + 1, depth := s.depth - i.pops + i.pushes
          entered := i.handler?.toList ++ s.entered }
  | jump {s : PathState} {i : Instr} {l : Label} {q : Nat} (hpc : code[s.pc]? = some i)
      (hi : i.isJump = true) (hl : l ∈ i.targets) (hq : code[q]? = some (.markLabel l)) :
      Moves code s { pc := q, depth := s.depth - i.pops + i.pushes, entered := s.entered }

/-- Execution of an instruction, or an exception. -/
inductive Steps (code : List Instr) : PathState → PathState → Prop
  | moves {s t : PathState} (h : Moves code s t) : Steps code s t
  | raise {s : PathState} {l : Label} {q : Nat} (hl : l ∈ s.entered)
      (hq : code[q]? = some (.markLabel l)) :
      Steps code s { pc := q, depth := 1, entered := s.entered }

/-- The points on the paths that begin with the first instruction. -/
def Reached (code : List Instr) (s : PathState) : Prop :=
  Relation.ReflTransGen (Steps code) initial s

/-- What has to hold of the stack at a point. -/
structure Safe (code : List Instr) (s : PathState) : Prop where
  pc_lt : s.pc < code.length
  pops_le : ∀ i, code[s.pc]? = some i → i.pops ≤ s.depth
  label : ∀ l, code[s.pc]? = some (.markLabel l) →
    s.depth = if l ∈ handlersIn code then 1 else 0
  jump : ∀ i, code[s.pc]? = some i → i.isJump = true → s.depth - i.pops = 0
  ret : ∀ withValue, code[s.pc]? = some (.ret withValue) → s.depth = withValue.toNat
  /-- Control does not get to a handler by itself. -/
  handler : ∀ t, Moves code s t → ∀ l ∈ handlersIn code, code[t.pc]? ≠ some (.markLabel l)

end PathState

variable {r : Reading} {o : Outline} {code : List Instr}

/-- How execution proceeds from a position with an instruction and so many values on the stack. -/
structure Proceeds (r : Reading) (code : List Instr) (pc depth : Nat) (i : Instr) : Prop where
  instr : code[pc]? = some i
  depthAfter : ∃ after, i.depthAfter depth = .ok after
  label : ∀ l, i = .markLabel l → depth = 0 ∧ l ∉ handlersIn code
  pass : i.endsFlow = false → ∃ ops, Follows r code (pc + 1) (depth - i.pops + i.pushes) ops
  jump : i.isJump = true → ∀ l ∈ i.targets, ∃ q ops, code[q]? = some (.markLabel l) ∧
    Follows r code q 0 ops

namespace Proceeds

/-- An instruction that does not jump. -/
theorem of_straight {pc depth after : Nat} {i : Instr} (hpc : code[pc]? = some i)
    (hi : i.isStraight = true) (hdepth : i.depthAfter depth = .ok after)
    (hpass : i.endsFlow = false → ∃ ops, Follows r code (pc + 1) after ops) :
    Proceeds r code pc depth i where
  instr := hpc
  depthAfter := ⟨after, hdepth⟩
  label l hl := by subst hl; cases hi
  pass hflow := (Instr.depth_eq_of_passes hdepth).2 ▸ hpass hflow
  jump _ l hl := by
    rw [Instr.targets_of_isStraight hi] at hl
    cases hl

end Proceeds

/-- The label of a spot can be continued at. -/
theorem Realizes.follows_label (h : Realizes r o code) {s : Spot} (hs : r.joins s) {l : Label}
    (hl : r.label? s = some l) :
    l ∉ handlersIn code ∧ ∃ q, code[q]? = some (.markLabel l) ∧
      Follows r code (q + 1) 0 (o.opsAt s) := by
  obtain ⟨l', q, hl', hq, hnot, hfollows⟩ := h.spot s hs
  obtain rfl := Option.some_inj.1 (hl.symm.trans hl')
  exact ⟨hnot, q, hq, hfollows⟩

theorem Realizes.exists_follows (h : Realizes r o code) {s : Spot} (hs : r.joins s) {l : Label}
    (hl : r.label? s = some l) :
    ∃ q ops, code[q]? = some (.markLabel l) ∧ Follows r code q 0 ops := by
  obtain ⟨hnot, q, hq, hfollows⟩ := h.follows_label hs hl
  exact ⟨q, _, hq, .label hq hnot hfollows⟩

theorem Follows.proceeds (hreal : Realizes r o code) {pc depth : Nat} {ops : List Op}
    (h : Follows r code pc depth ops) : ∃ i, Proceeds r code pc depth i := by
  induction h with
  | @note pc depth i ops hpc hi rest _ =>
    have hdepth := Instr.depthAfter_of_isNote hi depth
    refine ⟨i, hpc, ⟨_, hdepth⟩, fun l hl => ?_, fun _ => ⟨ops, ?_⟩, fun hjump => ?_⟩
    · subst hl; cases hi
    · exact (Instr.depth_eq_of_passes hdepth).2 ▸ rest
    · rw [Instr.isJump_of_isNote hi] at hjump
      cases hjump
  | label hpc hl rest _ =>
    refine ⟨_, hpc, ⟨0, rfl⟩, fun l' hl' => ?_, fun _ => ⟨_, rest⟩, nofun⟩
    cases hl'
    exact ⟨rfl, hl⟩
  | run hpc hi _ hdepth rest _ => exact ⟨_, .of_straight hpc hi hdepth fun _ => ⟨_, rest⟩⟩
  | halt hpc hi hflow hdepth =>
    refine ⟨_, .of_straight hpc hi hdepth fun hpass => ?_⟩
    rw [hflow] at hpass
    cases hpass
  | @stage pc depth slot ops hpc _ rest _ =>
    have hdepth : (Instr.storeTemp slot).depthAfter (depth + 1) = .ok depth :=
      Instr.depthAfter_eq_ok_iff.2 ⟨Nat.le_add_left 1 depth, nofun, rfl, nofun⟩
    exact ⟨_, .of_straight hpc rfl hdepth fun _ => ⟨_, rest⟩⟩
  | @unstage pc depth slot ops hpc _ rest _ =>
    have hdepth : (Instr.loadTemp slot).depthAfter depth = .ok (depth + 1) :=
      Instr.depthAfter_eq_ok_iff.2 ⟨Nat.zero_le _, nofun, rfl, nofun⟩
    exact ⟨_, .of_straight hpc rfl hdepth fun _ => ⟨_, rest⟩⟩
  | guard hpc hq hl skip rest _ _ =>
    refine ⟨_, hpc, ⟨0, rfl⟩, nofun, fun _ => ⟨_, rest⟩, fun _ l' hl' => ?_⟩
    cases List.mem_singleton.1 hl'
    exact ⟨_, _, hq, .label hq hl skip⟩
  | @enter pc depth l h ops hpc _ _ rest _ =>
    have hdepth : (Instr.enterTry l).depthAfter depth = .ok depth :=
      Instr.depthAfter_eq_ok_iff.2 ⟨Nat.zero_le _, nofun, rfl, nofun⟩
    exact ⟨_, hpc, ⟨_, hdepth⟩, nofun, fun _ => ⟨_, rest⟩, nofun⟩
  | jump hpc hl hs =>
    refine ⟨_, hpc, ⟨0, rfl⟩, nofun, nofun, fun _ l' hl' => ?_⟩
    cases List.mem_singleton.1 hl'
    exact hreal.exists_follows hs hl
  | fall hpc hl hs =>
    obtain ⟨hnot, q, hq, hfollows⟩ := hreal.follows_label hs hl
    obtain rfl := eq_of_placed hreal.placed_nodup hpc hq
    refine ⟨_, hpc, ⟨0, rfl⟩, fun l' hl' => ?_, fun _ => ⟨_, hfollows⟩, nofun⟩
    cases hl'
    exact ⟨rfl, hnot⟩
  | @fork pc s t l ops when hpc hl hs ht rest _ =>
    refine ⟨_, hpc, ⟨0, rfl⟩, nofun, fun _ => ⟨_, rest⟩, fun _ l' hl' => ?_⟩
    cases List.mem_singleton.1 hl'
    refine hreal.exists_follows ?_ hl
    cases when
    · exact ht
    · exact hs
  | @select pc cases table default l ops hpc hcases hl hs hdefault =>
    refine ⟨_, hpc, ⟨0, rfl⟩, nofun, nofun, fun _ l' hl' => ?_⟩
    rcases List.mem_append.1 hl' with hl' | hl'
    · obtain ⟨e, he, rfl⟩ := List.mem_map.1 hl'
      obtain ⟨e', he', -, hlabel⟩ := exists_of_forall₂ hcases.flip he
      exact hreal.exists_follows (hs e' he') hlabel
    · cases List.mem_singleton.1 hl'
      exact hreal.exists_follows hdefault hl
  | leave hpc hl hs =>
    refine ⟨_, hpc, ⟨0, rfl⟩, nofun, nofun, fun _ l' hl' => ?_⟩
    cases List.mem_singleton.1 hl'
    exact hreal.exists_follows hs hl
  | suspend hpc => exact ⟨_, .of_straight hpc rfl rfl nofun⟩
  | settle _ ih => exact ih

namespace PathState

/-- What holds on every path: only regions of the code have been entered, and execution is at a
handler, with the exception, or somewhere inside the operations of the outline. -/
structure Inv (r : Reading) (code : List Instr) (s : PathState) : Prop where
  entered : ∀ l ∈ s.entered, l ∈ handlersIn code
  here : (∃ ops, Follows r code s.pc s.depth ops) ∨
    s.depth = 1 ∧ ∃ l ops, code[s.pc]? = some (.markLabel l) ∧ l ∈ handlersIn code ∧
      Follows r code (s.pc + 1) 1 ops

theorem Inv.initial (h : Realizes r o code) : Inv r code initial :=
  ⟨nofun, .inl ⟨_, h.entry⟩⟩

/-- Execution of an instruction stays inside the operations of the outline. -/
theorem Inv.moves (h : Realizes r o code) {s t : PathState} (hs : Inv r code s)
    (hmove : Moves code s t) : (∀ l ∈ t.entered, l ∈ handlersIn code) ∧
      ∃ ops, Follows r code t.pc t.depth ops := by
  rcases hs.here with ⟨ops, hfollows⟩ | ⟨hdepth, l, ops, hpc, hl, hfollows⟩
  · obtain ⟨i, hproceeds⟩ := hfollows.proceeds h
    cases hmove with
    | @pass i' hpc hflow =>
      obtain rfl := Option.some_inj.1 (hproceeds.instr.symm.trans hpc)
      refine ⟨fun l hl => ?_, hproceeds.pass hflow⟩
      rcases List.mem_append.1 hl with hl | hl
      · exact List.mem_filterMap.2 ⟨i, List.mem_of_getElem? hpc, Option.mem_toList.1 hl⟩
      · exact hs.entered l hl
    | @jump i' l q hpc hi hl hq =>
      obtain rfl := Option.some_inj.1 (hproceeds.instr.symm.trans hpc)
      obtain ⟨q', ops', hq', hfollows'⟩ := hproceeds.jump hi l hl
      obtain rfl := eq_of_placed h.placed_nodup hq hq'
      obtain ⟨after, hafter⟩ := hproceeds.depthAfter
      have hzero := (Instr.depth_eq_of_isJump hi hafter).2
      refine ⟨hs.entered, ops', ?_⟩
      rw [← (Instr.depth_eq_of_passes hafter).2, hzero]
      exact hfollows'
  · cases hmove with
    | pass hpc' hflow =>
      obtain rfl := Option.some_inj.1 (hpc.symm.trans hpc')
      exact ⟨hs.entered, ops, hdepth ▸ hfollows⟩
    | jump hpc' hi _ _ =>
      obtain rfl := Option.some_inj.1 (hpc.symm.trans hpc')
      cases hi

theorem Inv.steps (h : Realizes r o code) {s t : PathState} (hs : Inv r code s)
    (hstep : Steps code s t) : Inv r code t := by
  cases hstep with
  | moves hmove =>
    obtain ⟨hentered, hfollows⟩ := hs.moves h hmove
    exact ⟨hentered, .inl hfollows⟩
  | @raise l q hl hq =>
    have hmem := hs.entered l hl
    obtain ⟨t, ht, hlabel⟩ := h.opened l hmem
    obtain ⟨l', q', hl', hq', hfollows⟩ := h.handler t ht
    obtain rfl := Option.some_inj.1 (hlabel.symm.trans hl')
    obtain rfl := eq_of_placed h.placed_nodup hq hq'
    exact ⟨hs.entered, .inr ⟨rfl, l, _, hq, hmem, hfollows⟩⟩

theorem Inv.of_reached (h : Realizes r o code) {s : PathState} (hs : Reached code s) :
    Inv r code s := by
  induction hs with
  | refl => exact .initial h
  | tail _ hstep ih => exact ih.steps h hstep

/-- A point inside the operations of the outline is safe. -/
theorem Inv.safe (h : Realizes r o code) {s : PathState} (hs : Inv r code s) : Safe code s := by
  have hhandler (t : PathState) (hmove : Moves code s t) :
      ∀ l ∈ handlersIn code, code[t.pc]? ≠ some (.markLabel l) := by
    intro l hl hpc
    obtain ⟨-, ops, hfollows⟩ := hs.moves h hmove
    obtain ⟨i, hproceeds⟩ := hfollows.proceeds h
    obtain rfl := Option.some_inj.1 (hproceeds.instr.symm.trans hpc)
    exact (hproceeds.label l rfl).2 hl
  rcases hs.here with ⟨ops, hfollows⟩ | ⟨hdepth, l, ops, hpc, hl, -⟩
  · obtain ⟨i, hproceeds⟩ := hfollows.proceeds h
    obtain ⟨after, hafter⟩ := hproceeds.depthAfter
    have hsame {j : Instr} (hj : code[s.pc]? = some j) : i = j :=
      Option.some_inj.1 (hproceeds.instr.symm.trans hj)
    refine ⟨(List.getElem?_eq_some_iff.1 hproceeds.instr).1, fun j hj => ?_, fun l hl => ?_,
      fun j hj hjump => ?_, fun withValue hret => ?_, hhandler⟩
    · obtain rfl := hsame hj
      exact (Instr.depth_eq_of_passes hafter).1
    · obtain ⟨hdepth, hnot⟩ := hproceeds.label l (hsame hl)
      rw [hdepth, if_neg hnot]
    · obtain rfl := hsame hj
      rw [(Instr.depth_eq_of_isJump hjump hafter).1, Nat.sub_self]
    · obtain rfl := hsame hret
      exact Instr.depth_eq_of_ret hafter
  · have hsame {j : Instr} (hj : code[s.pc]? = some j) : .markLabel l = j :=
      Option.some_inj.1 (hpc.symm.trans hj)
    refine ⟨(List.getElem?_eq_some_iff.1 hpc).1, fun j hj => ?_, fun l' hl' => ?_,
      fun j hj hjump => ?_, fun withValue hret => ?_, hhandler⟩
    · obtain rfl := hsame hj
      exact Nat.zero_le _
    · cases hsame hl'
      rw [hdepth, if_pos hl]
    · obtain rfl := hsame hj
      cases hjump
    · cases hsame hret

end PathState

/-- The code of a lowered procedure realizes an outline. -/
theorem Procedure.realizes_of_lowerInto {p : Procedure} {options : Options}
    {strategy : LayoutStrategy} {out : Array Instr} {sum : Summary}
    (h : p.lowerInto options strategy #[] = (out, .ok sum)) :
    ∃ r o, Realizes r o out.toList := by
  obtain ⟨c, labels, ds, final, g, hmake, hlowered, -⟩ := lowerInto_eq_ok_iff.1 h
  obtain ⟨hsize, hblank⟩ := Plan.labels_of_make hmake
  exact ⟨_, _, hlowered.realizes (Plan.made_of_make hmake) hsize hblank⟩

/-- On every path through the code of a procedure, with exceptions at any point behind the entry of
a protected region, the stack holds what the code expects, and every label that an instruction names
stands in the code once. -/
theorem Procedure.path_safe_of_lowerInto {p : Procedure} {options : Options}
    {strategy : LayoutStrategy} {out : Array Instr} {sum : Summary}
    (h : p.lowerInto options strategy #[] = (out, .ok sum)) :
    (∀ s, PathState.Reached out.toList s → s.Safe out.toList) ∧
      ∀ i ∈ out.toList, ∀ l ∈ i.targets, out.toList.count (.markLabel l) = 1 := by
  obtain ⟨r, o, hreal⟩ := realizes_of_lowerInto h
  refine ⟨fun s hs => (PathState.Inv.of_reached hreal hs).safe hreal, fun i hi l hl => ?_⟩
  exact count_markLabel hreal.placed_nodup
    (hreal.targets_placed l (mem_targetsIn.2 ⟨i, hi, hl⟩))

/-- A procedure that calls a function in a protected region, and returns in any case. -/
def guardedCall : Procedure where
  name := ⟨1⟩
  returnType := .int
  locals := {}
  graph :=
    { blocks := #[
        { id := ⟨0⟩, ordinal := 0, kind := .start, statements := [], edge := .protect ⟨2⟩ ⟨3⟩ none },
        { id := ⟨1⟩, ordinal := 1, kind := .exit, statements := [], edge := .none },
        { id := ⟨2⟩, ordinal := 2, kind := .normal
          statements := [.expr (.call { ty := .int } ⟨2⟩ [])], edge := .leave ⟨1⟩ },
        { id := ⟨3⟩, ordinal := 3, kind := .normal, statements := [], edge := .leave ⟨1⟩ }]
      wellFormed := wellFormed_of_fault?_eq_none (by decide) }

/-- The code of `guardedCall`. -/
def guardedCode : Array Instr :=
  #[.enterTry ⟨1⟩, .markLabel ⟨0⟩, .call (.function ⟨2⟩) 0 true, .pop, .leave ⟨2⟩, .markLabel ⟨1⟩,
    .pop, .leave ⟨2⟩, .markLabel ⟨2⟩, .constInt 0, .ret true]

theorem guardedCall_path_safe :
    (∀ s, PathState.Reached guardedCode.toList s → s.Safe guardedCode.toList) ∧
      ∀ i ∈ guardedCode.toList, ∀ l ∈ i.targets, guardedCode.toList.count (.markLabel l) = 1 := by
  have h : guardedCall.lowerInto {} BlockOrder.ordinal.arrange #[] =
      (guardedCode, .ok { instrCount := 11, temps := [], labelCount := 3, resumePoints := []
                          debugLocals := [] }) := by
    have horder : guardedCall.graph.emissionOrder BlockOrder.ordinal.arrange
        guardedCall.liveBlocks = some [⟨0⟩, ⟨2⟩, ⟨3⟩, ⟨1⟩] := by cbv
    unfold Procedure.lowerInto Plan.make
    rw [horder]
    decide +kernel
  exact Procedure.path_safe_of_lowerInto h

end StackCode
