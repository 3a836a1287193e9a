import StackCode.Proofs.Order.Abreast
import StackCode.Proofs.Order.Plans
import StackCode.Proofs.Path.Safety
import StackCode.Proofs.Refusal.Accepted
import StackCode.Proofs.Refusal.Steady

/-!
# The order of the blocks is a matter of taste

Two strategies that rearrange the blocks both lower a procedure or both refuse it.  The codes have as
many labels, the same suspension points and the same views for the debugger, and whatever decides about
the course of their execution, they execute the same instructions (`Procedure.lowerInto_rearranged`).
The lowered code of one order is steady, and nothing that this says depends on the order, so the other
order is not refused; then both codes realize one outline, and run side by side.
-/

namespace StackCode

/-! ## What labels mark -/

namespace Plan

variable {c : Plan}

/-- The label that a plan has for a spot.  Where stored values are returned has none. -/
def spotLabel? (c : Plan) : Spot → Option Label
  | .block b => c.label? b
  | .resume index => c.resume.label? index
  | .body => if c.procedure.isGenerator then some ⟨c.bound⟩ else none
  | .ret => none

/-- The spots that a plan has labels for. -/
def spots (c : Plan) : List Spot :=
  c.labelled.map .block ++ c.resume.points.map (fun point => .resume point.1) ++ [.body]

/-- What a label marks: a block, or where a generator goes on. -/
def marked? (c : Plan) (l : Label) : Option Spot := c.spots.find? fun s => c.spotLabel? s = some l

theorem spotLabel?_reading {final : Frame} {s : Spot} (hs : s ≠ .ret) :
    c.spotLabel? s = (c.reading final).label? s := by
  cases s with
  | ret => exact absurd rfl hs
  | block | resume | body => rfl

/-- The labels of blocks, of suspension points and of the body are numbered one after the other. -/
theorem spotLabel?_inj (hmade : c.Made) {s t : Spot} {l : Label} (hs : c.spotLabel? s = some l)
    (ht : c.spotLabel? t = some l) : s = t := by
  have hblock {b : BlockId} (h : c.label? b = some l) : l.index < c.labelled.length := label?_lt h
  have hresume {index : Int} (h : c.resume.label? index = some l) :
      1 ≤ index ∧ index.toNat ≤ c.resume.labels.length ∧
        l.index = c.labelled.length + (index.toNat - 1) := hmade.resume_label?_eq_some_iff.1 h
  have hbody (h : (if c.procedure.isGenerator then some (Label.mk c.bound) else none) = some l) :
      l.index = c.labelled.length + c.resume.labels.length := by
    split at h
    · cases h
      rfl
    · cases h
  cases s with
  | ret => cases hs
  | block b =>
    cases t with
    | ret => cases ht
    | block b' => rw [label?_inj hs ht]
    | resume index =>
      have := hblock hs
      have := hresume ht
      omega
    | body =>
      have := hblock hs
      have := hbody ht
      omega
  | resume index =>
    cases t with
    | ret => cases ht
    | block b =>
      have := hresume hs
      have := hblock ht
      omega
    | resume index' =>
      have := hresume hs
      have := hresume ht
      rw [show index = index' by omega]
    | body =>
      have := hresume hs
      have := hbody ht
      omega
  | body =>
    cases t with
    | ret => cases ht
    | body => rfl
    | block b =>
      have := hbody hs
      have := hblock ht
      omega
    | resume index =>
      have := hbody hs
      have := hresume ht
      omega

theorem mem_spots (hmade : c.Made) {s : Spot} {l : Label} (h : c.spotLabel? s = some l) :
    s ∈ c.spots := by
  unfold spots
  cases s with
  | ret => cases h
  | block b =>
    have hb : b ∈ c.labelled := isSome_label?_iff.1 (Option.isSome_iff_exists.2 ⟨l, h⟩)
    exact List.mem_append_left _ (List.mem_append_left _ (List.mem_map_of_mem hb))
  | resume index =>
    have hpoint := (mem_points_iff hmade (hmade.isGenerator_of_resume_label? h)).2 h
    exact List.mem_append_left _ (List.mem_append_right _ (List.mem_map.2 ⟨_, hpoint, rfl⟩))
  | body => exact List.mem_append_right _ (List.mem_singleton.2 rfl)

theorem marked?_eq_some (hmade : c.Made) {s : Spot} {l : Label} (h : c.spotLabel? s = some l) :
    c.marked? l = some s := by
  unfold marked?
  cases hfound : c.spots.find? fun s => c.spotLabel? s = some l with
  | none =>
    have hnot := List.find?_eq_none.1 hfound s (mem_spots hmade h)
    exact absurd (decide_eq_true h) hnot
  | some t =>
    have ht := List.find?_some hfound
    rw [spotLabel?_inj hmade (of_decide_eq_true ht) h]

variable {labels : LabelTable} {ds : List Directive} {final : Frame} {code : List Instr} {g : Flow}

theorem Lowered.told (hmade : c.Made) (hsize : labels.size = c.bound) (hblank : labels.IsBlank)
    (h : c.Lowered labels ds final code g) : Told (c.reading final) c.outline code c.marked? where
  realizes := h.realizes hmade hsize hblank
  reads _ _ hs hl := marked?_eq_some hmade ((spotLabel?_reading hs).trans hl)

end Plan

/-! ## The same course -/

/-- Whatever decides about the course of execution, and however long it goes on, one code comes to what
the other comes to, and shows the same. -/
def SameCourse (reads reads' : Label → Option Spot) (code code' : List Instr) : Prop :=
  ∀ fate : Fate, (∀ n, ∃ k, Run.Shows id (fate.run reads code n) (fate.run reads' code' k)) ∧
    ∀ k, ∃ n, Run.Shows id (fate.run reads' code' k) (fate.run reads code n)

/-- Codes that realize one outline take the same course. -/
theorem Told.sameCourse {r r' : Reading} {o : Outline} {code code' : List Instr}
    {reads reads' : Label → Option Spot} (h : Told r o code reads) (h' : Told r' o code' reads')
    (haway : Away o.entry) : SameCourse reads reads' code code' := by
  have hstart {r r' : Reading} {code code' : List Instr} {reads reads' : Label → Option Spot}
      (h : Told r o code reads) (h' : Told r' o code' reads') : Abreast r r' o code code' {} {} :=
    ⟨⟨.nil, rfl⟩, o.entry, o.entry, h.realizes.entry.ready, h'.realizes.entry.ready, .same _, haway⟩
  intro fate
  constructor
  · intro n
    obtain ⟨k, halike⟩ := Abreast.run h h' fate (hstart h h') [] n
    exact ⟨k, halike.shows⟩
  · intro k
    obtain ⟨n, halike⟩ := Abreast.run h' h fate (hstart h' h) [] k
    exact ⟨n, halike.shows⟩

namespace Plan.Rearranged

variable {c c' : Plan} {labels : LabelTable} {out out' : Array Instr} {sum sum' : Summary}

/-- If one order is lowered, so is the other. -/
theorem exists_appendTo (h : c.Rearranged c') (hmade : c.Made) (hmade' : c'.Made)
    (hsize : labels.size = c.bound) (hblank : labels.IsBlank)
    (hlowered : c.appendTo labels #[] = (out, .ok sum)) :
    ∃ out' sum', c'.appendTo labels #[] = (out', .ok sum') := by
  obtain ⟨ds, final, g, hfinished, -⟩ := appendTo_empty_eq_ok_iff.1 hlowered
  obtain ⟨hblocks, hinit⟩ := hfinished.writes hmade hsize
  have hwrites : c'.Writes := h.writes ⟨hblocks, hinit⟩
  have hsteady : c'.Steady := h.steady hmade hmade' (hfinished.steady hmade hsize)
  have hends : ∀ b, ¬ c'.Dangles b := fun b hb =>
    hfinished.not_dangles hmade hsize b (h.dangles hmade hmade' hb)
  exact Plan.exists_appendTo hmade' (hsize.trans h.bound_eq.symm) hblank hwrites hsteady hends #[]

/-- What two orders have in common. -/
theorem agrees (h : c.Rearranged c') (hmade : c.Made) (hmade' : c'.Made) (hsize : labels.size = c.bound)
    (hblank : labels.IsBlank) (hlowered : c.appendTo labels #[] = (out, .ok sum))
    (hlowered' : c'.appendTo labels #[] = (out', .ok sum')) :
    sum'.labelCount = sum.labelCount ∧ sum'.resumePoints = sum.resumePoints ∧
      sum'.debugLocals = sum.debugLocals ∧ SameCourse c.marked? c'.marked? out.toList out'.toList := by
  have hsize' : labels.size = c'.bound := hsize.trans h.bound_eq.symm
  obtain ⟨ds, final, g, hfinished, rfl⟩ := appendTo_empty_eq_ok_iff.1 hlowered
  obtain ⟨ds', final', g', hfinished', rfl⟩ := appendTo_empty_eq_ok_iff.1 hlowered'
  obtain ⟨⟨hcount, _, mid, hentry, hviews⟩, -⟩ := draft_allots hmade hsize hfinished.gives
  obtain ⟨⟨hcount', _, mid', hentry', hviews'⟩, -⟩ := draft_allots hmade' hsize' hfinished'.gives
  have hlabels : final'.labels.size = final.labels.size := by
    rw [hcount, hcount', h.dispatchLabels_eq, h.ownLabelsIn_eq, h.returnsIn_eq]
  have hmid : mid' = mid := by
    rw [h.entry_eq] at hentry'
    exact (Drafted.mk.inj (hentry'.symm.trans hentry)).2.1
  have htold' := hfinished'.told hmade' hsize' hblank
  rw [h.outline_eq] at htold'
  exact ⟨hlabels, congrArg ResumePlan.points h.resume, by rw [hviews, hviews', hmid],
    (hfinished.told hmade hsize hblank).sameCourse htold' c.away_entry⟩

end Plan.Rearranged

/-! ## Procedures -/

namespace Procedure

variable {p : Procedure} {options : Options} {σ τ : LayoutStrategy}

/-- What a label marks in the code of a procedure. -/
def marked? (p : Procedure) (options : Options) (strategy : LayoutStrategy) (l : Label) : Option Spot :=
  match Plan.make p options strategy with
  | .ok (c, _) => c.marked? l
  | .error _ => none

theorem marked?_of_make {c : Plan} {labels : LabelTable} (h : Plan.make p options σ = .ok (c, labels)) :
    p.marked? options σ = c.marked? := by
  funext l
  unfold marked?
  rw [h]

/-- What is lowered in one order is planned in the other too, from the same labels. -/
theorem exists_plans (hagree : p.graph.HandlersAgree) (hτ : τ.Rearranges) {out : Array Instr}
    {sum : Summary} (h : p.lowerInto options σ #[] = (out, .ok sum)) :
    ∃ c c' labels, Plan.make p options σ = .ok (c, labels) ∧ Plan.make p options τ = .ok (c', labels) ∧
      c.Rearranged c' ∧ c.appendTo labels #[] = (out, .ok sum) := by
  obtain ⟨c, labels, hmake, happend⟩ := exists_make_of_lowerInto h
  obtain ⟨c', hmake', hsame⟩ := Plan.exists_make hagree hτ hmake
  exact ⟨c, c', labels, hmake, hmake', hsame, happend⟩

theorem exists_lowerInto_of_rearranges (hagree : p.graph.HandlersAgree) (hτ : τ.Rearranges)
    (h : ∃ out sum, p.lowerInto options σ #[] = (out, .ok sum)) :
    ∃ out sum, p.lowerInto options τ #[] = (out, .ok sum) := by
  obtain ⟨out, sum, h⟩ := h
  obtain ⟨c, c', labels, hmake, hmake', hsame, hlowered⟩ := exists_plans hagree hτ h
  obtain ⟨hsize, hblank⟩ := Plan.labels_of_make hmake
  obtain ⟨out', sum', hlowered'⟩ := hsame.exists_appendTo (Plan.made_of_make hmake)
    (Plan.made_of_make hmake') hsize hblank hlowered
  exact ⟨out', sum', (lowerInto_of_make hmake' #[]).trans hlowered'⟩

/-- However the blocks are arranged, the procedure is lowered or not.  If it is, the codes have as many
labels, the same suspension points and the same views, and they execute the same instructions. -/
theorem lowerInto_rearranged (hagree : p.graph.HandlersAgree) (hσ : σ.Rearranges) (hτ : τ.Rearranges)
    (options : Options) :
    ((∃ out sum, p.lowerInto options σ #[] = (out, .ok sum)) ↔
        ∃ out sum, p.lowerInto options τ #[] = (out, .ok sum)) ∧
      ∀ out out' sum sum', p.lowerInto options σ #[] = (out, .ok sum) →
        p.lowerInto options τ #[] = (out', .ok sum') →
          sum'.labelCount = sum.labelCount ∧ sum'.resumePoints = sum.resumePoints ∧
          sum'.debugLocals = sum.debugLocals ∧
          SameCourse (p.marked? options σ) (p.marked? options τ) out.toList out'.toList := by
  refine ⟨⟨exists_lowerInto_of_rearranges hagree hτ, exists_lowerInto_of_rearranges hagree hσ⟩,
    fun out out' sum sum' h h' => ?_⟩
  obtain ⟨c, c', labels, hmake, hmake', hsame, hlowered⟩ := exists_plans hagree hτ h
  obtain ⟨hsize, hblank⟩ := Plan.labels_of_make hmake
  rw [lowerInto_of_make hmake'] at h'
  rw [marked?_of_make hmake, marked?_of_make hmake']
  exact hsame.agrees (Plan.made_of_make hmake) (Plan.made_of_make hmake') hsize hblank hlowered h'

end Procedure

/-- The code of `guardedCall` in reverse postorder, where the handler comes before what it guards. -/
def guardedCodeHandlerFirst : Array Instr :=
  #[.enterTry ⟨1⟩, .branch ⟨0⟩, .markLabel ⟨1⟩, .pop, .leave ⟨2⟩, .markLabel ⟨0⟩,
    .call (.function ⟨2⟩) 0 true, .pop, .leave ⟨2⟩, .markLabel ⟨2⟩, .constInt 0, .ret true]

theorem guardedCall_rearranged :
    guardedCode ≠ guardedCodeHandlerFirst ∧
      SameCourse (guardedCall.marked? {} BlockOrder.ordinal.arrange)
        (guardedCall.marked? {} BlockOrder.reversePostorder.arrange) guardedCode.toList
        guardedCodeHandlerFirst.toList := by
  have hnone : ∀ b ∈ guardedCall.graph.blocks, ∀ body handler exception,
      b.edge = .protect body handler exception → exception = none := by
    simp [guardedCall, eq_comm]
  have hagree : guardedCall.graph.HandlersAgree := fun b hb b' hb' _ _ _ _ _ h h' =>
    (hnone b hb _ _ _ h).trans (hnone b' hb' _ _ _ h').symm
  have hordinal : guardedCall.lowerInto {} BlockOrder.ordinal.arrange #[] =
      (guardedCode, .ok { instrCount := 11, temps := [], labelCount := 3, resumePoints := []
                          debugLocals := [] }) := by
    have horder : guardedCall.graph.emissionOrder BlockOrder.ordinal.arrange
        guardedCall.liveBlocks = some [⟨0⟩, ⟨2⟩, ⟨3⟩, ⟨1⟩] := by cbv
    unfold Procedure.lowerInto Plan.make
    rw [horder]
    decide +kernel
  have hpostorder : guardedCall.lowerInto {} BlockOrder.reversePostorder.arrange #[] =
      (guardedCodeHandlerFirst, .ok { instrCount := 12, temps := [], labelCount := 3
                                      resumePoints := [], debugLocals := [] }) := by
    have horder : guardedCall.graph.emissionOrder BlockOrder.reversePostorder.arrange
        guardedCall.liveBlocks = some [⟨0⟩, ⟨3⟩, ⟨2⟩, ⟨1⟩] := by cbv
    unfold Procedure.lowerInto Plan.make
    rw [horder]
    decide +kernel
  obtain ⟨-, hsame⟩ := Procedure.lowerInto_rearranged hagree BlockOrder.ordinal.rearranges
    BlockOrder.reversePostorder.rearranges {}
  exact ⟨by decide, (hsame _ _ _ _ hordinal hpostorder).2.2.2⟩

end StackCode
