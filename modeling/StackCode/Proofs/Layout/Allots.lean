import Mathlib.Algebra.GroupWithZero.Nat
import StackCode.Proofs.Layout.Slots
import StackCode.Proofs.Outline.Statement

/-!
# What statements allot

A statement allots at most a label of its own, for the initialization of static storage, and, if it
is the first return statement, the return label and the return slot.  So the labels of some code can
be counted in any order of the statements.  Main statement: `Plan.statements_allot`.
-/

namespace StackCode

/-- The labels that a statement needs for itself. -/
def Stmt.ownLabels : Stmt → Nat
  | .bindStatic d => if d.init.isSome then 1 else 0
  | _ => 0

/-- What some statements, with so many labels of their own, allot. -/
structure Frame.Allots (frame frame' : Frame) (own : Nat) (returns : Bool) : Prop where
  debugLocals : frame'.debugLocals = frame.debugLocals
  tidy : frame.Tidy → frame'.Tidy
  /-- The labels apart from the return label. -/
  size : frame'.labels.size + frame.returnLabel.toList.length =
    frame.labels.size + own + frame'.returnLabel.toList.length
  returnLabel : frame'.returnLabel.isSome = (frame.returnLabel.isSome || returns)
  fresh : ∀ l, frame'.returnLabel = some l →
    frame.returnLabel = some l ∨ frame.labels.size ≤ l.index ∧ l.index < frame'.labels.size
  /-- The return label brings the return slot with it. -/
  paired : (frame.returnSlot.isSome = true → frame.returnLabel.isSome = true) →
    frame'.returnSlot.isSome = true → frame'.returnLabel.isSome = true

namespace Frame.Allots

variable {frame₁ frame₂ frame₃ : Frame} {own own' : Nat} {returns returns' : Bool}

theorem refl (frame : Frame) : frame.Allots frame 0 false :=
  ⟨rfl, id, rfl, (Bool.or_false _).symm, fun _ => .inl, id⟩

theorem size_le (h : frame₁.Allots frame₂ own returns) :
    frame₁.labels.size ≤ frame₂.labels.size := by
  have hsize := h.size
  have hlabel := h.returnLabel
  cases h₁ : frame₁.returnLabel <;> cases h₂ : frame₂.returnLabel <;>
    simp [h₁, h₂] at hsize hlabel <;> omega

theorem trans (h : frame₁.Allots frame₂ own returns) (h' : frame₂.Allots frame₃ own' returns') :
    frame₁.Allots frame₃ (own + own') (returns || returns') where
  debugLocals := h'.debugLocals.trans h.debugLocals
  tidy := h'.tidy ∘ h.tidy
  size := by
    have hfirst := h.size
    have hrest := h'.size
    omega
  returnLabel := by rw [h'.returnLabel, h.returnLabel, Bool.or_assoc]
  fresh l hl := by
    have hle := h.size_le
    have hle' := h'.size_le
    rcases h'.fresh l hl with hl | hl
    · rcases h.fresh l hl with hl | hl
      · exact .inl hl
      · exact .inr ⟨hl.1, by omega⟩
    · exact .inr ⟨by omega, hl.2⟩
  paired := h'.paired ∘ h.paired

end Frame.Allots

namespace Plan

variable {c : Plan} {frame frame' : Frame} {ds : List Directive} {u : Unit}

/-- A fresh label. -/
theorem allots_add (frame : Frame) :
    frame.Allots { frame with labels := (frame.labels.add {}).2 } 1 false where
  debugLocals := rfl
  tidy h := h.congr (fun _ => rfl) rfl rfl
  size := by
    change (frame.labels.entries.push _).size + _ = _
    rw [Array.size_push]
    rfl
  returnLabel := (Bool.or_false _).symm
  fresh _ := .inl
  paired := id

/-- The branch to the return label. -/
theorem branch_allots (h : (Draft.returnLabel >>= fun l => Draft.emit (.branch l)).Gives frame ds frame' u) :
    frame.Allots frame' 0 true := by
  obtain ⟨l, mid, _, _, hl, he, rfl⟩ := Draft.gives_bind_iff.1 h
  obtain ⟨-, rfl⟩ := Draft.gives_emit_iff.1 he
  obtain ⟨-, hl⟩ := Draft.gives_returnLabel_iff.1 hl
  cases hlabel : frame.returnLabel with
  | some l' =>
    rw [hlabel] at hl
    obtain ⟨rfl, -⟩ := hl
    refine ⟨rfl, id, rfl, ?_, fun _ => .inl, id⟩
    rw [hlabel]
    rfl
  | none =>
    rw [hlabel] at hl
    obtain ⟨rfl, rfl⟩ := hl
    have hsize : (frame.labels.add { name := some "<return>" }).2.size = frame.labels.size + 1 :=
      Array.size_push _
    refine ⟨rfl, fun htidy => htidy.congr (fun _ => rfl) rfl rfl, ?_, (Bool.or_true _).symm,
      fun l hl => .inr ?_, fun _ _ => rfl⟩
    · rw [hlabel]
      exact hsize
    · cases hl
      simp only [hsize]
      omega

theorem returnSlot?_allots {ty : Ty} {slot : Option TempSlot}
    (h : (Draft.returnSlot? ty).Gives frame ds frame' slot) :
    frame'.debugLocals = frame.debugLocals ∧ (frame.Tidy → frame'.Tidy) ∧
      frame'.labels = frame.labels ∧ frame'.returnLabel = frame.returnLabel := by
  have h := Draft.gives_returnSlot?_iff.1 h
  cases hslot : frame.returnSlot with
  | some s =>
    rw [hslot] at h
    obtain ⟨-, rfl, -⟩ := h
    exact ⟨rfl, id, rfl, rfl⟩
  | none =>
    rw [hslot] at h
    simp only at h
    split at h
    · obtain ⟨-, rfl, -⟩ := h
      exact ⟨rfl, id, rfl, rfl⟩
    · obtain ⟨-, rfl, -⟩ := h
      exact ⟨rfl, fun htidy => htidy.returning hslot ty, rfl, rfl⟩

/-- A return statement, behind what has asked for the return slot. -/
theorem allots_of_branch {mid : Frame}
    (hslot : mid.debugLocals = frame.debugLocals ∧ (frame.Tidy → mid.Tidy) ∧
      mid.labels = frame.labels ∧ mid.returnLabel = frame.returnLabel)
    (h : mid.Allots frame' 0 true) : frame.Allots frame' 0 true := by
  obtain ⟨hviews, htidy, hlabels, hlabel⟩ := hslot
  have hsome : frame'.returnLabel.isSome = true := by rw [h.returnLabel, Bool.or_true]
  refine ⟨h.debugLocals.trans hviews, h.tidy ∘ htidy, ?_, ?_, ?_, fun _ _ => hsome⟩
  · rw [← hlabels, ← hlabel]
    exact h.size
  · rw [hsome, Bool.or_true]
  · rw [← hlabels, ← hlabel]
    exact h.fresh

theorem returnValue_allots {value : Option Expr} (h : (c.returnValue value).Gives frame ds frame' u) :
    frame.Allots frame' 0 true := by
  have hreturned : (Draft.ofFragment (c.outline.returned value) >>= fun ty =>
      if c.procedure.isGenerator then Draft.finishGenerator ty
      else Draft.stageReturn c.procedure.returnType ty).Gives frame ds frame' u := by
    cases value with
    | some e => exact h
    | none => exact h
  obtain ⟨ty, _, -, hrest, -⟩ := Draft.gives_ofFragment_bind_iff.1 hreturned
  cases hgen : c.procedure.isGenerator with
  | true =>
    rw [hgen, if_pos rfl, finishGenerator_eq hgen] at hrest
    obtain ⟨-, _, -, hbranch, -⟩ := Draft.gives_ofFragment_bind_iff.1 hrest
    exact branch_allots hbranch
  | false =>
    rw [hgen, if_neg Bool.false_ne_true] at hrest
    unfold Draft.stageReturn at hrest
    obtain ⟨slot, mid, _, _, hslot, hrest, -⟩ := Draft.gives_bind_iff.1 hrest
    have hasked := returnSlot?_allots hslot
    cases slot with
    | some slot =>
      have hstore {rest : List Directive} (hstore : (Draft.directive .stageReturn >>= fun _ =>
          Draft.emit (.storeTemp slot) >>= fun _ => Draft.returnLabel >>= fun l =>
            Draft.emit (.branch l)).Gives mid rest frame' u) : frame.Allots frame' 0 true := by
        obtain ⟨_, h₁, -⟩ := Draft.gives_directive_bind_iff.1 hstore
        obtain ⟨_, h₂, -⟩ := Draft.gives_emit_bind_iff.1 h₁
        exact allots_of_branch hasked (branch_allots h₂)
      simp only [Draft.liftM_eq] at hrest
      split at hrest
      · obtain ⟨-, _, -, hrest, -⟩ := Draft.gives_ofFragment_bind_iff.1 hrest
        exact hstore hrest
      · obtain ⟨-, _, -, hrest, -⟩ := Draft.gives_ofFragment_bind_iff.1 hrest
        exact hstore hrest
    | none =>
      simp only at hrest
      split at hrest
      · exact allots_of_branch hasked (branch_allots hrest)
      · obtain ⟨_, hrest, -⟩ := Draft.gives_emit_bind_iff.1 hrest
        exact allots_of_branch hasked (branch_allots hrest)

/-- The draft of the initialization of static storage, around its label. -/
theorem bindStatic_gives {d : StaticDecl} {init : Expr} (hinit : d.init = some init)
    (h : (c.bindStatic d).Gives frame ds frame' u) :
    frame' = { frame with labels := (frame.labels.add {}).2 } ∧
      ds = (c.procedure.bindHolder d.target d.key).code.map .instr ++
        ((c.procedure.loadVar d.target).code.map .instr ++
          ((Fragment.callIntrinsic .staticIsInitialized).code.map .instr ++
            (.instr (.branchIf true ⟨frame.labels.size⟩) ::
              ((c.outline.staticInit d.target init).code.map .instr ++
                [.mark ⟨frame.labels.size⟩ .forward])))) := by
  unfold bindStatic at h
  rw [hinit] at h
  simp only [Draft.liftM_eq] at h
  obtain ⟨-, rest, -, h₀, rfl⟩ := Draft.gives_ofFragment_bind_iff.1 h
  obtain ⟨l, mid, _, _, hl, h₁, rfl⟩ := Draft.gives_bind_iff.1 h₀
  obtain ⟨rfl, rfl, rfl⟩ := Draft.gives_freshLabel_iff.1 hl
  obtain ⟨-, _, -, h₂, rfl⟩ := Draft.gives_ofFragment_bind_iff.1 h₁
  obtain ⟨-, _, -, h₃, rfl⟩ := Draft.gives_ofFragment_bind_iff.1 h₂
  obtain ⟨rest', h₄, rfl⟩ := Draft.gives_emit_bind_iff.1 h₃
  have h₄ : (Draft.ofFragment (c.outline.staticInit d.target init) >>= fun _ =>
      Draft.mark ⟨frame.labels.size⟩ .forward).Gives
        { frame with labels := (frame.labels.add {}).2 } rest' frame' u := by
    unfold Outline.staticInit
    simp only [Draft.ofFragment_bind, bind_assoc]
    exact h₄
  obtain ⟨-, _, -, h₅, rfl⟩ := Draft.gives_ofFragment_bind_iff.1 h₄
  obtain ⟨rfl, rfl⟩ := Draft.gives_mark_iff.1 h₅
  exact ⟨rfl, rfl⟩

theorem bindStatic_allots {d : StaticDecl} (h : (c.bindStatic d).Gives frame ds frame' u) :
    frame.Allots frame' (Stmt.bindStatic d).ownLabels false := by
  change frame.Allots frame' (if d.init.isSome then 1 else 0) false
  cases hinit : d.init with
  | none =>
    unfold bindStatic at h
    rw [hinit] at h
    simp only [Draft.liftM_eq] at h
    obtain ⟨-, _, -, h₀, -⟩ := Draft.gives_ofFragment_bind_iff.1 h
    obtain ⟨-, rfl, -⟩ := Draft.gives_pure_iff.1 h₀
    exact .refl _
  | some init =>
    obtain ⟨rfl, -⟩ := bindStatic_gives hinit h
    exact allots_add frame

theorem statement_allots {s : Stmt} (hfits : frame.Fits c)
    (h : (c.statement s).Gives frame ds frame' u) : frame.Allots frame' s.ownLabels s.isReturn := by
  unfold statement at h
  obtain ⟨_, mid, _, _, hp, h₁, -⟩ := Draft.gives_bind_iff.1 h
  obtain ⟨rfl, -⟩ := sequencePoint_renders hp
  obtain ⟨_, mid', _, _, hbody, hend, -⟩ := Draft.gives_bind_iff.1 h₁
  obtain ⟨-, rfl⟩ := Draft.gives_directive_iff.1 hend
  have hplain {x : Fragment Unit} {ds : List Directive}
      (hx : (Draft.ofFragment x).Gives mid ds frame' u) : mid.Allots frame' 0 false := by
    obtain ⟨-, rfl, -⟩ := Draft.gives_ofFragment_iff.1 hx
    exact .refl _
  unfold statementBody at hbody
  cases s with
  | empty span =>
    simp only at hbody
    split at hbody
    · obtain ⟨-, rfl⟩ := Draft.gives_emit_iff.1 hbody
      exact .refl _
    · obtain ⟨-, rfl, -⟩ := Draft.gives_pure_iff.1 hbody
      exact .refl _
  | ret value => exact returnValue_allots hbody
  | bindStatic d => exact bindStatic_allots hbody
  | yield y =>
    obtain ⟨rfl, -⟩ := yieldValue_gives hbody
    exact .refl _
  | declare =>
    obtain ⟨-, rfl, -⟩ := Draft.gives_pure_iff.1 hbody
    exact .refl _
  | expr | throw | declareFunction | declareType | bindGlobal | defineConst | unset =>
    exact hplain hbody

/-- The labels of their own that some statements need. -/
def ownLabels (ss : List Stmt) : Nat := (ss.map Stmt.ownLabels).sum

theorem statements_allot {ss : List Stmt} (hfits : frame.Fits c)
    (h : (ss.forM c.statement).Gives frame ds frame' u) :
    frame.Allots frame' (ownLabels ss) (ss.any Stmt.isReturn) := by
  induction ss generalizing frame ds with
  | nil =>
    obtain ⟨-, rfl, -⟩ := Draft.gives_pure_iff.1 h
    exact .refl _
  | cons s ss ih =>
    obtain ⟨_, mid, _, _, hs, hss, -⟩ := Draft.gives_bind_iff.1 h
    exact (statement_allots hfits hs).trans (ih (statement_renders hfits hs).fits hss)

end Plan

end StackCode
