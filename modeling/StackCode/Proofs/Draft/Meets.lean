import StackCode.Proofs.Assembly.Steps
import StackCode.Proofs.Outline.Statement

/-!
# Drafts that meet a condition

`x.Meets E P Q` says what comes of the draft `x` when its code is assembled right away, also when the
draft stops and only a part of its code is there: from a frame and a flow of which `P` holds, what the
assembler or the draft stops for is `E`, and if neither stops, then `Q` holds of the answer, the frame
and the flow.  The labels of the flow are those of the finished draft, so there are at least as many
of them as in the frame.  Drafts that follow each other meet a condition if each of them does
(`Draft.Meets.bind`).
-/

namespace StackCode

/-- `t'` is `t` after more labels have been allotted. -/
structure LabelTable.Extends (t t' : LabelTable) : Prop where
  size_le : t.size ≤ t'.size
  isBlank : t.IsBlank → t'.IsBlank

namespace LabelTable.Extends

theorem refl (t : LabelTable) : t.Extends t := ⟨Nat.le_refl _, id⟩

theorem trans {t t' t'' : LabelTable} (h : t.Extends t') (h' : t'.Extends t'') : t.Extends t'' :=
  ⟨Nat.le_trans h.size_le h'.size_le, h'.isBlank ∘ h.isBlank⟩

end LabelTable.Extends

theorem Frame.Grows.extends {frame frame' : Frame} (h : frame.Grows frame') :
    frame.labels.Extends frame'.labels := ⟨h.size_le, h.isBlank⟩

namespace Flow

/-- The flow behind some directives. -/
def through (f : Flow) (ds : List Directive) : Except LowerError Flow :=
  ds.foldlM (fun f d => (f.step d).map Prod.snd) f

theorem through_cons (f : Flow) (d : Directive) (ds : List Directive) :
    f.through (d :: ds) = (f.step d).bind fun r => r.2.through ds := by
  unfold through
  rw [List.foldlM_cons]
  cases f.step d <;> rfl

theorem through_append (f : Flow) (ds es : List Directive) :
    f.through (ds ++ es) = (f.through ds).bind fun g => g.through es := by
  unfold through
  rw [List.foldlM_append]
  rfl

theorem through_singleton (f : Flow) (d : Directive) :
    f.through [d] = (f.step d).map Prod.snd := by
  rw [through_cons]
  cases f.step d <;> rfl

/-- The assembler stops where the flow does. -/
theorem through_eq (code : Array Instr) (f : Flow) (ds : List Directive) :
    f.through ds = match (assemble code f ds).fault with
      | some e => .error e
      | none => .ok (assemble code f ds).flow := by
  induction ds generalizing code f with
  | nil => rfl
  | cons d ds ih =>
    rw [through_cons, assemble]
    cases f.step d with
    | error e => rfl
    | ok r => exact ih (code ++ r.1) r.2

theorem through_eq_of_assembles {f g : Flow} {ds : List Directive} {code : List Instr}
    (h : Assembles f ds code g) : f.through ds = .ok g := by
  induction h with
  | nil f => rfl
  | cons step _ ih => rw [through_cons, step]; exact ih

/-! ## The number of labels -/

theorem size_of_emit {f g : Flow} {i : Instr} {code : List Instr} (h : f.emit i = .ok (code, g)) :
    g.labels.size = f.labels.size := by
  cases hf : f.isLive with
  | false => rw [((emit_dead hf).1 h).2]
  | true =>
    obtain ⟨-, depth, labels, -, hlabels, rfl⟩ := (emit_live hf).1 h
    exact (LabelTable.referenceAll_grows hlabels).size_eq

theorem size_of_mark {f g : Flow} {l : Label} {arrival : Arrival} {code : List Instr}
    (h : f.mark l arrival = .ok (code, g)) : g.labels.size = f.labels.size := by
  obtain ⟨-, -, labels, hmark, rfl⟩ := mark_eq_ok_iff.1 h
  exact (LabelTable.mark_grows hmark).1.size_eq

theorem size_of_step {f g : Flow} {d : Directive} {code : List Instr}
    (h : f.step d = .ok (code, g)) : g.labels.size = f.labels.size := by
  cases d with
  | instr i => exact size_of_emit h
  | mark l arrival => exact size_of_mark h
  | endStatement => rw [(step_endStatement.1 h).2.2]
  | endBlock b => rw [(step_endBlock.1 h).2.2]
  | stageReturn =>
    cases h
    rfl
  | returnPoint l slot =>
    have hpoint := step_returnPoint h
    split at hpoint
    · obtain ⟨f₁, f₂, c₁, c₂, c₃, hmark, hload, hret, -⟩ := hpoint
      rw [size_of_emit hret, size_of_emit hload, size_of_mark hmark]
    · rw [hpoint.2.2]

theorem size_of_through {f g : Flow} {ds : List Directive} (h : f.through ds = .ok g) :
    g.labels.size = f.labels.size := by
  induction ds generalizing f with
  | nil =>
    cases h
    rfl
  | cons d ds ih =>
    rw [through_cons] at h
    cases hstep : f.step d with
    | error e =>
      rw [hstep] at h
      cases h
    | ok r =>
      rw [hstep] at h
      rw [ih h, size_of_step hstep]

/-! ## Plain code -/

/-- Plain code that control gets to moves the depth and nothing else. -/
theorem through_of_live {f : Flow} {is : List Instr} (hplain : ∀ i ∈ is, i.isPlain = true)
    (hf : f.isLive = true) :
    f.through (is.map .instr) =
      (Instr.depthThrough is f.depth).map fun depth => { f with depth } := by
  induction is generalizing f with
  | nil => rfl
  | cons i is ih =>
    obtain ⟨hi, hplain⟩ := List.forall_mem_cons.1 hplain
    rw [List.map_cons, through_cons]
    unfold Instr.depthThrough
    rw [List.foldlM_cons]
    cases hdepth : i.depthAfter f.depth with
    | error e =>
      have hstep : f.step (.instr i) = .error e := by
        change f.emit i = _
        unfold emit
        rw [if_pos hf, hdepth]
        rfl
      rw [hstep]
      rfl
    | ok depth =>
      have hstep : f.step (.instr i) = .ok ([i], { f with depth }) := by
        refine (emit_live hf).2 ⟨rfl, depth, f.labels, hdepth, ?_, ?_⟩
        · rw [Instr.targets_of_isStraight (Instr.isStraight_of_isPlain hi)]
          rfl
        · rw [Instr.endsFlow_of_isPlain hi, hf]
          rfl
      rw [hstep]
      exact ih hplain hf

/-- Plain code that control does not get to is passed over. -/
theorem through_of_dead {f : Flow} {is : List Instr} (hplain : ∀ i ∈ is, i.isPlain = true)
    (hf : f.isLive = false) : f.through (is.map .instr) = .ok f :=
  through_eq_of_assembles (.of_isPlain_dead hplain hf)

/-- A note leaves the flow as it is. -/
theorem step_of_isNote {i : Instr} (hi : i.isNote = true) (f : Flow) :
    f.step (.instr i) = .ok ([i], f) := by
  cases hf : f.isLive with
  | false => exact (emit_dead hf).2 ⟨by rw [Instr.isBookkeeping_of_isNote hi]; rfl, rfl⟩
  | true =>
    refine (emit_live hf).2 ⟨rfl, f.depth, f.labels, Instr.depthAfter_of_isNote hi _, ?_, ?_⟩
    · rw [Instr.targets_of_isNote hi]
      rfl
    · rw [Instr.endsFlow_of_isNote hi, ← hf]
      cases f
      cases hf
      rfl

theorem through_allocation (f : Flow) (slot : TempSlot) (isNew : Bool) (ty : Ty) :
    f.through (Draft.allocation slot isNew ty) = .ok f := by
  cases isNew with
  | false => rfl
  | true =>
    change f.through [.instr (.allocTemp slot ty)] = _
    rw [through_singleton, step_of_isNote rfl]
    rfl

end Flow

namespace Flow

/-- Where a value has been stored, it is returned behind the return label. -/
theorem through_returnPoint {f : Flow} (hstaged : f.hasStaged = true) (l : Label) (slot : TempSlot) :
    f.through [.returnPoint l slot] =
      f.through [.mark l .forward, .instr (.loadTemp slot), .instr (.ret true)] := by
  rw [through_singleton, through_cons]
  have hpoint : f.step (.returnPoint l slot) = (f.mark l .forward).bind fun r₁ =>
      (r₁.2.emit (.loadTemp slot)).bind fun r₂ => (r₂.2.emit (.ret true)).bind fun r₃ =>
        .ok (r₁.1 ++ r₂.1 ++ r₃.1, r₃.2) := by
    simp only [step, hstaged, ↓reduceIte]
    rfl
  rw [hpoint, show f.step (.mark l .forward) = f.mark l .forward from rfl]
  cases f.mark l .forward with
  | error e => rfl
  | ok r₁ =>
    change _ = r₁.2.through [.instr (.loadTemp slot), .instr (.ret true)]
    rw [through_cons, show r₁.2.step (.instr (.loadTemp slot)) = r₁.2.emit (.loadTemp slot) from rfl]
    change Except.map Prod.snd ((r₁.2.emit (.loadTemp slot)).bind _) = _
    cases r₁.2.emit (.loadTemp slot) with
    | error e => rfl
    | ok r₂ =>
      change _ = r₂.2.through [.instr (.ret true)]
      rw [through_singleton, show r₂.2.step (.instr (.ret true)) = r₂.2.emit (.ret true) from rfl]
      change Except.map Prod.snd ((r₂.2.emit (.ret true)).bind _) = _
      cases r₂.2.emit (.ret true) <;> rfl

end Flow

namespace Draft

variable {α β : Type}

/-- What comes of a draft and of its code: the answer, the frame, and the flow behind the code. -/
def run (x : Draft α) (frame : Frame) (f : Flow) : Except LowerError (α × Frame × Flow) := do
  let g ← f.through (x frame).code
  let a ← (x frame).result
  return (a, (x frame).frame, g)

theorem run_eq_ok_iff {x : Draft α} {frame frame' : Frame} {f g : Flow} {a : α} :
    x.run frame f = .ok (a, frame', g) ↔
      f.through (x frame).code = .ok g ∧ (x frame).result = .ok a ∧ (x frame).frame = frame' := by
  unfold run
  cases f.through (x frame).code with
  | error e => simp [bind, Except.bind]
  | ok g' =>
    cases (x frame).result with
    | error e => simp [bind, Except.bind]
    | ok a' =>
      simp only [bind, Except.bind, pure, Except.pure, Except.ok.injEq, Prod.mk.injEq]
      tauto

theorem run_eq_error_iff {x : Draft α} {frame : Frame} {f : Flow} {e : LowerError} :
    x.run frame f = .error e ↔ f.through (x frame).code = .error e ∨
      (∃ g, f.through (x frame).code = .ok g) ∧ (x frame).result = .error e := by
  unfold run
  cases f.through (x frame).code with
  | error e => simp [bind, Except.bind]
  | ok g =>
    cases (x frame).result with
    | error e => simp [bind, Except.bind]
    | ok a => simp [bind, Except.bind, pure, Except.pure]

/-- What comes of drafts that follow each other. -/
theorem run_bind (x : Draft α) (h : α → Draft β) (frame : Frame) (f : Flow) :
    (x >>= h).run frame f = (x.run frame f).bind fun r => (h r.1).run r.2.1 r.2.2 := by
  unfold run
  cases hx : (x frame).result with
  | error e =>
    rw [bind_of_error hx]
    cases f.through (x frame).code <;> rfl
  | ok a =>
    rw [bind_of_ok hx, Flow.through_append]
    cases f.through (x frame).code <;> rfl

/-- What comes of a draft meets a condition. -/
structure Meets (E : LowerError → Prop) (P : Frame → Flow → Prop) (x : Draft α)
    (Q : α → Frame → Flow → Prop) : Prop where
  grows : ∀ frame : Frame, frame.labels.Extends (x frame).frame.labels
  fault : ∀ frame f e, P frame f → (x frame).frame.labels.size ≤ f.labels.size →
    x.run frame f = .error e → E e
  post : ∀ frame f a frame' g, P frame f → frame'.labels.size ≤ f.labels.size →
    x.run frame f = .ok (a, frame', g) → Q a frame' g

namespace Meets

variable {E : LowerError → Prop} {P P' : Frame → Flow → Prop} {x : Draft α}
  {Q Q' : α → Frame → Flow → Prop}

theorem conseq (h : x.Meets E P Q) (hP : ∀ frame f, P' frame f → P frame f)
    (hQ : ∀ a frame f, Q a frame f → Q' a frame f) : x.Meets E P' Q' where
  grows := h.grows
  fault frame f e hp := h.fault frame f e (hP frame f hp)
  post frame f a frame' g hp hsize hrun := hQ _ _ _ (h.post frame f a frame' g (hP _ _ hp) hsize hrun)

theorem weaken (h : x.Meets E P Q) (hQ : ∀ a frame f, Q a frame f → Q' a frame f) :
    x.Meets E P Q' := h.conseq (fun _ _ => id) hQ

theorem strengthen (h : x.Meets E P Q) (hP : ∀ frame f, P' frame f → P frame f) :
    x.Meets E P' Q := h.conseq hP fun _ _ _ => id

theorem pure {a : α} (h : ∀ frame f, P frame f → Q a frame f) : (pure a : Draft α).Meets E P Q where
  grows _ := .refl _
  fault frame f e _ _ hrun := by cases hrun
  post frame f a frame' g hp _ hrun := by
    cases hrun
    exact h frame f hp

theorem bind {h : α → Draft β} {R : β → Frame → Flow → Prop} (hx : x.Meets E P Q)
    (hh : ∀ a, (h a).Meets E (Q a) R) : (x >>= h).Meets E P R := by
  have hframe (frame : Frame) :
      (x frame).frame.labels.Extends ((x >>= h) frame).frame.labels := by
    cases hr : (x frame).result with
    | error e =>
      rw [bind_of_error hr]
      exact .refl _
    | ok a =>
      rw [bind_of_ok hr]
      exact (hh a).grows _
  -- what has come of the first draft, where it has answered
  have hfirst {frame : Frame} {f : Flow} {a : α} {frame' : Frame} {g : Flow} (hp : P frame f)
      (hsize : ((x >>= h) frame).frame.labels.size ≤ f.labels.size)
      (hr : x.run frame f = .ok (a, frame', g)) :
      Q a frame' g ∧ (x >>= h) frame = { code := (x frame).code ++ (h a frame').code
                                         frame := (h a frame').frame
                                         result := (h a frame').result } ∧
        g.labels.size = f.labels.size := by
    obtain ⟨hthrough, hresult, rfl⟩ := run_eq_ok_iff.1 hr
    exact ⟨hx.post frame f a _ g hp (Nat.le_trans (hframe frame).size_le hsize) hr,
      bind_of_ok hresult h, Flow.size_of_through hthrough⟩
  refine ⟨fun frame => (hx.grows frame).trans (hframe frame),
    fun frame f e hp hsize hrun => ?_, fun frame f b frame'' g' hp hsize hrun => ?_⟩
  · rw [run_bind] at hrun
    cases hr : x.run frame f with
    | error e' =>
      rw [hr] at hrun
      cases hrun
      exact hx.fault frame f e hp (Nat.le_trans (hframe frame).size_le hsize) hr
    | ok r =>
      obtain ⟨a, frame', g⟩ := r
      rw [hr] at hrun
      obtain ⟨hq, hboth, hlabels⟩ := hfirst hp hsize hr
      rw [hboth] at hsize
      exact (hh a).fault frame' g e hq (hlabels ▸ hsize) hrun
  · rw [run_bind] at hrun
    cases hr : x.run frame f with
    | error e =>
      rw [hr] at hrun
      cases hrun
    | ok r =>
      obtain ⟨a, frame', g⟩ := r
      rw [hr] at hrun
      have hframe' : ((x >>= h) frame).frame = frame'' := by
        have hwhole : (x >>= h).run frame f = .ok (b, frame'', g') := by
          rw [run_bind, hr]
          exact hrun
        exact (run_eq_ok_iff.1 hwhole).2.2
      obtain ⟨hq, hboth, hlabels⟩ := hfirst hp (hframe' ▸ hsize) hr
      exact (hh a).post frame' g b frame'' g' hq (hlabels ▸ hsize) hrun

/-- A draft of which the same comes as of another one. -/
theorem of_run_eq {y : Draft α} (h : y.Meets E P Q)
    (hframe : ∀ frame, (x frame).frame = (y frame).frame)
    (hrun : ∀ frame f, P frame f → x.run frame f = y.run frame f) : x.Meets E P Q where
  grows frame := hframe frame ▸ h.grows frame
  fault frame f e hp hsize hx := h.fault frame f e hp (hframe frame ▸ hsize) (hrun frame f hp ▸ hx)
  post frame f a frame' g hp hsize hx := h.post frame f a frame' g hp hsize (hrun frame f hp ▸ hx)

/-- What is known besides stays known. -/
theorem keep (h : x.Meets E P Q) (known : Prop) :
    x.Meets E (fun frame f => P frame f ∧ known) fun a frame f => Q a frame f ∧ known where
  grows := h.grows
  fault frame f e hp := h.fault frame f e hp.1
  post frame f a frame' g hp hsize hrun := ⟨h.post frame f a frame' g hp.1 hsize hrun, hp.2⟩

/-- A part in front whose answer says nothing. -/
theorem seq {x : Draft Unit} {P Q : Frame → Flow → Prop} {h : Unit → Draft β}
    {R : β → Frame → Flow → Prop} (hx : x.Meets E P fun _ => Q) (hh : (h ()).Meets E Q R) :
    (x >>= h).Meets E P R := hx.bind fun _ => hh

theorem fail {e : LowerError} (h : E e) : (fail e : Draft α).Meets E P Q where
  grows _ := .refl _
  fault frame f e' _ _ hrun := by
    cases hrun
    exact h
  post frame f a frame' g _ _ hrun := by cases hrun

/-- One directive. -/
theorem directive {d : Directive} {Q : Frame → Flow → Prop}
    (hfault : ∀ frame f e, P frame f → frame.labels.size ≤ f.labels.size → f.step d = .error e → E e)
    (hpost : ∀ frame f code g, P frame f → frame.labels.size ≤ f.labels.size →
      f.step d = .ok (code, g) → Q frame g) : (directive d).Meets E P fun _ => Q where
  grows _ := .refl _
  fault frame f e hp hsize hrun := by
    rcases run_eq_error_iff.1 hrun with h | h
    · rw [directive_apply, Flow.through_singleton] at h
      cases hstep : f.step d with
      | error e' =>
        rw [hstep] at h
        cases h
        exact hfault frame f e hp hsize hstep
      | ok r =>
        rw [hstep] at h
        cases h
    · cases h.2
  post frame f a frame' g hp hsize hrun := by
    obtain ⟨hthrough, -, rfl⟩ := run_eq_ok_iff.1 hrun
    rw [directive_apply, Flow.through_singleton] at hthrough
    cases hstep : f.step d with
    | error e =>
      rw [hstep] at hthrough
      cases hthrough
    | ok r =>
      rw [hstep] at hthrough
      cases hthrough
      exact hpost frame f r.1 r.2 hp hsize hstep

/-- A draft that gets to its end, and whose code the flow passes as it is. -/
theorem of_gives (hx : ∀ frame, ∃ ds frame' a, x.Gives frame ds frame' a ∧
    (∀ f : Flow, f.through ds = .ok f) ∧ frame.labels.Extends frame'.labels ∧
      ∀ f, P frame f → Q a frame' f) : x.Meets E P Q where
  grows frame := by
    obtain ⟨ds, frame', a, hgives, -, hgrows, -⟩ := hx frame
    rw [show x frame = _ from hgives]
    exact hgrows
  fault frame f e _ _ hrun := by
    obtain ⟨ds, frame', a, hgives, hthrough, -⟩ := hx frame
    unfold run at hrun
    rw [show x frame = _ from hgives, hthrough] at hrun
    cases hrun
  post frame f b frame'' g hp _ hrun := by
    obtain ⟨ds, frame', a, hgives, hthrough, -, h⟩ := hx frame
    unfold run at hrun
    rw [show x frame = _ from hgives, hthrough] at hrun
    cases hrun
    exact h f hp

/-- What is done depends on the frame. -/
theorem getFrame {h : Frame → Draft β} {R : β → Frame → Flow → Prop}
    (hh : ∀ frame, (h frame).Meets E (fun frame' f => frame' = frame ∧ P frame' f) R) :
    (getFrame >>= h).Meets E P R where
  grows frame := (hh frame).grows frame
  fault frame f e hp hsize hrun := (hh frame).fault frame f e ⟨rfl, hp⟩ hsize hrun
  post frame f b frame' g hp hsize hrun := (hh frame).post frame f b frame' g ⟨rfl, hp⟩ hsize hrun

/-- Two cases that the frame and the flow tell apart. -/
theorem split (C : Frame → Flow → Prop) (h : x.Meets E (fun frame f => P frame f ∧ C frame f) Q)
    (h' : x.Meets E (fun frame f => P frame f ∧ ¬ C frame f) Q) : x.Meets E P Q where
  grows := h.grows
  fault frame f e hp hsize hrun := by
    by_cases hC : C frame f
    · exact h.fault frame f e ⟨hp, hC⟩ hsize hrun
    · exact h'.fault frame f e ⟨hp, hC⟩ hsize hrun
  post frame f a frame' g hp hsize hrun := by
    by_cases hC : C frame f
    · exact h.post frame f a frame' g ⟨hp, hC⟩ hsize hrun
    · exact h'.post frame f a frame' g ⟨hp, hC⟩ hsize hrun

end Meets

end Draft

end StackCode
