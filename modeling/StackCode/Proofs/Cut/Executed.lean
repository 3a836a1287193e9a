import StackCode.Proofs.Cut.Drafted

/-!
# What is executed of blocks cut short

Statements that follow a return or a thrown value in their block are lowered where control does not
get: they allot labels and temporaries, but what is executed is the same without them.  Main statement:
`Procedure.lowerInto_cut`.
-/

namespace StackCode

open Landmark

namespace Plan

variable {c : Plan} {labels : LabelTable} {ds ds' : List Directive} {final final' : Frame}
  {code code' : List Instr} {g g' : Flow}

/-- Without a return statement, no return value is ever stored. -/
theorem Lowered.hasStaged_eq_false (hmade : c.Made) (hgen : c.procedure.isGenerator = false)
    (hstages : c.outline.stages = true) (hsize : labels.size = c.bound) (hblank : labels.IsBlank)
    (h : c.Lowered labels ds final code g) (hreturns : returnsIn c.blocks = false) :
    g.hasStaged = false := by
  refine eq_false_of_ne_true fun hstaged => ?_
  obtain ⟨value, _, _, bs, b, bs', ss, ss', _, _, _, hblocks, hstatements, -⟩ :=
    (h.hasStaged_iff hmade hgen hstages hsize hblank).1 hstaged
  have hsome : returnsIn c.blocks = true := List.any_eq_true.2 ⟨b, by rw [hblocks]; simp,
    List.any_eq_true.2 ⟨.ret value, by rw [hstatements]; simp, rfl⟩⟩
  rw [hreturns] at hsome
  cases hsome

/-- Before any code, control gets alike to the beginning of both. -/
theorem Lowered.mirrors (hmade : c.Made) (hmade' : c.cut.Made) (hsize : labels.size = c.bound)
    (hblank : labels.IsBlank) (h : c.Lowered labels ds final code g)
    (h' : c.cut.Lowered labels ds' final' code' g') (σ : Label → Label) :
    Flow.Mirrors σ { labels := final.labels } { labels := final'.labels } := by
  obtain ⟨-, hgrows, -⟩ := h.sound hmade hsize
  obtain ⟨-, hgrows', -⟩ := h'.sound hmade' hsize
  have hnone (l : Label) : final.labels.isReferenced l = false := (hgrows.isBlank hblank l).2
  have hnone' (l : Label) : final'.labels.isReferenced l = false := (hgrows'.isBlank hblank l).2
  exact ⟨rfl, fun _ => rfl, rfl, fun l => (hnone _).trans (hnone' l).symm, fun l _ => hnone l⟩

/-- The code of the plan cut short is the other code with other labels, without slots and without some
labels that nothing leads to. -/
theorem Lowered.sprinkled (hmade : c.Made) (hmade' : c.cut.Made)
    (hgen : c.procedure.isGenerator = false) (hsize : labels.size = c.bound)
    (hblank : labels.IsBlank) (h : c.Lowered labels ds final code g)
    (h' : c.cut.Lowered labels ds' final' code' g') :
    Sprinkled c.rename (withoutSlots code) (withoutSlots code') := by
  obtain ⟨hblocks, hinit⟩ := h.writes hmade hsize
  have hspelled := (draft_spells hmade hsize h.gives).bare_eq c.labelOf (agrees_labelIn _)
  have hspelled' := (draft_spells hmade' hsize h'.gives).bare_eq c.cut.labelOf (agrees_labelIn _)
  have ha := h.assembles.withoutSlots
  have ha' := h'.assembles.withoutSlots
  rw [hspelled, hmade.spellBlocks_eq] at ha
  rw [hspelled', hmade'.spellBlocks_eq] at ha'
  obtain ⟨m, c₁, c₂, ha₁, ha₂, heq⟩ := Assembles.append_iff.1 ha
  obtain ⟨m', c₁', c₂', ha₁', ha₂', heq'⟩ := Assembles.append_iff.1 ha'
  -- everything in front of the end of the exit, then that end
  have hbefore := h.mirrors hmade hmade' hsize hblank h' c.rename
  obtain ⟨hm, hs⟩ := open_mimics hmade hmade' hgen ⟨hblocks, hinit⟩ (fun _ => id) hbefore ha₁ ha₁'
  rw [heq, heq']
  refine hs.append (exit_mimics hmade' ret_mem_known_iff.symm ret_mem_known_iff.symm hm ha₂ ha₂'
    fun hstages hreturns => ?_).2
  exact h'.hasStaged_eq_false hmade' hgen (by rw [outline_cut]; exact hstages) hsize hblank hreturns

end Plan

/-- What follows a return or a thrown value in its block leaves no trace in what is executed: with all
blocks cut short an ordinary procedure is lowered as well, and the code differs in slots, in labels that
nothing leads to, and in the names of labels. -/
theorem Procedure.lowerInto_cut {p : Procedure} {options : Options} {order : BlockOrder}
    {code out : Array Instr} {sum : Summary} (hgen : p.isGenerator = false)
    (h : p.lowerInto options order.arrange code = (code ++ out, .ok sum)) :
    ∃ out' sum', p.cut.lowerInto options order.arrange code = (code ++ out', .ok sum') ∧
      ∃ σ : Label → Label, Function.Injective σ ∧
        executable out.toList = (executable out'.toList).map (Instr.relabel σ) := by
  have hout : p.lowerInto options order.arrange #[] = (out, .ok sum) := by
    rw [p.lowerInto_eq] at h
    obtain ⟨hcode, hsum⟩ := Prod.mk.inj h
    exact Prod.ext (Array.append_right_inj code |>.1 hcode) hsum
  obtain ⟨c, labels, ds, final, g, hmake, hlowered, -⟩ := lowerInto_eq_ok_iff.1 hout
  obtain ⟨-, -, hp, -⟩ := Plan.make_eq_ok hmake
  have hmake' := Plan.make_cut hgen hmake
  have hmade := Plan.made_of_make hmake
  have hmade' := Plan.made_of_make hmake'
  obtain ⟨hsize, hblank⟩ := Plan.labels_of_make hmake
  have hgen' : c.procedure.isGenerator = false := by rw [hp, hgen]
  obtain ⟨out', sum', happend⟩ := hlowered.exists_appendTo_cut hmade hmade' hsize hblank hgen'
  obtain ⟨ds', final', g', hlowered', -⟩ := Plan.appendTo_empty_eq_ok_iff.1 happend
  refine ⟨out', sum', ?_, c.rename, Plan.rename_injective hmade',
    (hlowered.sprinkled hmade hmade' hgen' hsize hblank hlowered').executable_eq
      (Plan.rename_injective hmade')⟩
  rw [p.cut.lowerInto_eq, lowerInto_of_make hmake', happend]

/-- A procedure that throws what it is given, if that is true, and returns 2 otherwise; nothing is
initialized behind the throw, and the second return statement is never reached. -/
def hurried : Procedure where
  name := ⟨1⟩
  returnType := .int
  locals := { vars := #[{ id := ⟨0⟩, name := ⟨2⟩, ty := .value, kind := .parameter }] }
  graph :=
    { blocks := #[
        { id := ⟨0⟩, ordinal := 0, kind := .start, statements := []
          edge := .branch (.var { ty := .value } ⟨0⟩) ⟨2⟩ ⟨3⟩ },
        { id := ⟨1⟩, ordinal := 1, kind := .exit, statements := [], edge := .none },
        { id := ⟨2⟩, ordinal := 2, kind := .normal
          statements := [.throw (.var { ty := .value } ⟨0⟩),
            .bindStatic { target := ⟨0⟩, key := ⟨3⟩, init := some (.lit (.int 1)) }]
          edge := .goto ⟨3⟩ },
        { id := ⟨3⟩, ordinal := 3, kind := .normal
          statements := [.ret (some (.lit (.int 2))), .ret none], edge := .goto ⟨1⟩ }]
      wellFormed := wellFormed_of_fault?_eq_none (by decide) }

/-- The code of `hurried`: label 3 is that of the initialization. -/
def hurriedCode : Array Instr :=
  #[.loadLocal ⟨0⟩, .convert .value .bool, .branchIf false ⟨1⟩, .markLabel ⟨0⟩, .loadLocal ⟨0⟩, .throw,
    .markLabel ⟨3⟩, .markLabel ⟨1⟩, .constInt 2, .allocTemp ⟨0⟩ .int, .storeTemp ⟨0⟩, .branch ⟨4⟩,
    .markLabel ⟨2⟩, .markLabel ⟨4⟩, .loadTemp ⟨0⟩, .ret true, .freeTemp ⟨0⟩]

theorem hurried_cut : hurried.isGenerator = false ∧
    executable hurriedCode.toList = [.loadLocal ⟨0⟩, .convert .value .bool, .branchIf false ⟨1⟩,
      .loadLocal ⟨0⟩, .throw, .markLabel ⟨1⟩, .constInt 2, .storeTemp ⟨0⟩, .branch ⟨4⟩,
      .markLabel ⟨4⟩, .loadTemp ⟨0⟩, .ret true] ∧
    ∃ out' sum', hurried.cut.lowerInto {} BlockOrder.ordinal.arrange #[] = (#[] ++ out', .ok sum') ∧
      ∃ σ : Label → Label, Function.Injective σ ∧
        executable hurriedCode.toList = (executable out'.toList).map (Instr.relabel σ) := by
  have h : hurried.lowerInto {} BlockOrder.ordinal.arrange #[] =
      (#[] ++ hurriedCode, .ok { instrCount := 17, temps := [.int], labelCount := 5
                                 resumePoints := [], debugLocals := [] }) := by
    have horder : hurried.graph.emissionOrder BlockOrder.ordinal.arrange hurried.liveBlocks =
        some [⟨0⟩, ⟨2⟩, ⟨3⟩, ⟨1⟩] := by cbv
    unfold Procedure.lowerInto Plan.make
    rw [horder]
    decide +kernel
  exact ⟨rfl, by decide, Procedure.lowerInto_cut rfl h⟩

end StackCode
