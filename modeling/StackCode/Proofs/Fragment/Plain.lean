import StackCode.Draft.Entry
import StackCode.Proofs.Instr.Straight

/-!
# Fragments are plain

Whatever an expression or a simple statement is, its code is plain: without labels, without
temporaries, and passed from end to end.  Only a thrown value ends the flow, with its last
instruction.  Nor is there anything in it for a debugger to stop at: all of it is work.  Expressions
call functions, but of the intrinsics only those that read and write arrays.
-/

namespace StackCode

/-- An instruction of the kind that expressions are made of. -/
def Instr.isOperand : Instr → Bool
  | .constInt _ | .constFloat _ | .constBool _ | .constStr _ | .constNull | .loadLocal _
  | .storeLocal _ | .pop | .dup | .convert _ _ | .binary _ | .new _ _ => true
  | .call (.function _) _ _ | .call (.intrinsic .arrayGet) _ _
  | .call (.intrinsic .arraySet) _ _ => true
  | _ => false

theorem Instr.isWork_of_isOperand {i : Instr} (h : i.isOperand = true) : i.isWork = true := by
  cases i <;> first | rfl | cases h

namespace Fragment

/-- All code of the fragment is plain, also where writing stopped. -/
def IsPlain {α : Type} (x : Fragment α) : Prop := ∀ i ∈ x.code, i.isPlain = true

/-- All code of the fragment is plain and does something, also where writing stopped. -/
def IsWork {α : Type} (x : Fragment α) : Prop := ∀ i ∈ x.code, i.isWork = true

/-- All code of the fragment is such as expressions are made of, also where writing stopped. -/
def IsOperand {α : Type} (x : Fragment α) : Prop := ∀ i ∈ x.code, i.isOperand = true

section
variable {α β : Type}

theorem IsWork.isPlain {x : Fragment α} (h : x.IsWork) : x.IsPlain :=
  fun i hi => Instr.isPlain_of_isWork (h i hi)

theorem IsOperand.isWork {x : Fragment α} (h : x.IsOperand) : x.IsWork :=
  fun i hi => Instr.isWork_of_isOperand (h i hi)

theorem isOperand_of_code_eq_nil {x : Fragment α} (h : x.code = []) : x.IsOperand := by
  intro i hi
  rw [h] at hi
  cases hi

theorem isOperand_pure (a : α) : (pure a : Fragment α).IsOperand := isOperand_of_code_eq_nil rfl

theorem isOperand_fail (e : LowerError) : (fail e : Fragment α).IsOperand :=
  isOperand_of_code_eq_nil rfl

theorem isOperand_ofExcept (r : Except LowerError α) : (ofExcept r).IsOperand :=
  isOperand_of_code_eq_nil rfl

theorem isOperand_emit {i : Instr} (h : i.isOperand = true) : (emit i).IsOperand := by
  intro j hj
  rw [code_emit, List.mem_singleton] at hj
  rw [hj, h]

theorem isWork_pure (a : α) : (pure a : Fragment α).IsWork := (isOperand_pure a).isWork

theorem isWork_ofExcept (r : Except LowerError α) : (ofExcept r).IsWork :=
  (isOperand_ofExcept r).isWork

theorem isWork_emit {i : Instr} (h : i.isWork = true) : (emit i).IsWork := by
  intro j hj
  rw [code_emit, List.mem_singleton] at hj
  rw [hj, h]

theorem isPlain_pure (a : α) : (pure a : Fragment α).IsPlain := (isWork_pure a).isPlain

theorem isPlain_emit {i : Instr} (h : i.isPlain = true) : (emit i).IsPlain := by
  intro j hj
  rw [code_emit, List.mem_singleton] at hj
  rw [hj, h]

theorem isWork_callIntrinsic (i : Intrinsic) : (callIntrinsic i).IsWork := isWork_emit rfl

/-- What holds of the instructions of both parts holds of all. -/
theorem forall_code_bind {P : Instr → Prop} {x : Fragment α} {f : α → Fragment β}
    (hx : ∀ i ∈ x.code, P i) (hf : ∀ a, ∀ i ∈ (f a).code, P i) : ∀ i ∈ (x >>= f).code, P i := by
  cases h : x.result with
  | error e =>
    rw [bind_of_error h]
    exact hx
  | ok a =>
    rw [bind_of_ok h]
    exact List.forall_mem_append.2 ⟨hx, hf a⟩

theorem IsPlain.bind {x : Fragment α} {f : α → Fragment β} (hx : x.IsPlain)
    (hf : ∀ a, (f a).IsPlain) : (x >>= f).IsPlain := forall_code_bind hx hf

theorem IsWork.bind {x : Fragment α} {f : α → Fragment β} (hx : x.IsWork)
    (hf : ∀ a, (f a).IsWork) : (x >>= f).IsWork := forall_code_bind hx hf

theorem IsOperand.bind {x : Fragment α} {f : α → Fragment β} (hx : x.IsOperand)
    (hf : ∀ a, (f a).IsOperand) : (x >>= f).IsOperand := forall_code_bind hx hf

theorem IsOperand.discard {x : Fragment α} (hx : x.IsOperand) : (discard x).IsOperand :=
  IsOperand.bind hx fun _ => isOperand_pure _

theorem IsWork.forM {xs : List α} {f : α → Fragment Unit} (hf : ∀ a, (f a).IsWork) :
    (xs.forM f).IsWork := by
  induction xs with
  | nil => exact isWork_pure _
  | cons a xs ih =>
    exact (hf a).bind fun _ => ih

end

/-! ## Values -/

theorem isOperand_literal (v : Literal) : (literal v).IsOperand :=
  isOperand_emit (by cases v <;> rfl)

theorem isOperand_convert (source target : Ty) : (convert source target).IsOperand := by
  unfold convert
  split
  · exact isOperand_pure _
  · split
    · exact isOperand_fail _
    · split <;> exact isOperand_emit rfl

theorem isOperand_pushDefault (ty : Ty) : (pushDefault ty).IsOperand := by
  unfold pushDefault
  cases ty.default? with
  | none => exact isOperand_pure _
  | some v => exact isOperand_literal v

theorem IsOperand.required {x : Fragment Ty} (hx : x.IsOperand) (use : ValueUse) :
    (x.required use).IsOperand := by
  refine hx.bind fun ty => ?_
  split
  · exact isOperand_fail _
  · exact isOperand_pure _

theorem IsOperand.convertedTo {x : Fragment Ty} (hx : x.IsOperand) (target : Ty) (use : ValueUse) :
    (x.convertedTo target use).IsOperand :=
  (hx.required use).bind fun _ => isOperand_convert _ _

theorem isWork_convert (source target : Ty) : (convert source target).IsWork :=
  (isOperand_convert source target).isWork

theorem isWork_pushDefault (ty : Ty) : (pushDefault ty).IsWork := (isOperand_pushDefault ty).isWork

theorem isWork_callWithName (i : Intrinsic) (name : Name) : (callWithName i name).IsWork :=
  (isWork_emit rfl).bind fun _ => (isWork_emit rfl).bind fun _ => isWork_callIntrinsic i

end Fragment

/-! ## Storage -/

namespace Place

theorem isOperand_pushKey (place : Place) : place.pushKey.IsOperand := by
  cases place with
  | slot id => exact Fragment.isOperand_pure _
  | entry array key ty =>
    exact (Fragment.isOperand_emit rfl).bind fun _ => Fragment.isOperand_emit rfl

theorem isOperand_load (place : Place) : place.load.IsOperand := by
  cases place with
  | slot id => exact Fragment.isOperand_emit rfl
  | entry array key ty =>
    exact (isOperand_pushKey _).bind fun _ =>
      (Fragment.isOperand_emit rfl).bind fun _ => Fragment.isOperand_convert _ _

theorem isOperand_store (place : Place) : place.store.IsOperand := by
  cases place with
  | slot id => exact Fragment.isOperand_emit rfl
  | entry array key ty =>
    exact (Fragment.isOperand_convert _ _).bind fun _ => Fragment.isOperand_emit rfl

theorem isWork_pushKey (place : Place) : place.pushKey.IsWork := place.isOperand_pushKey.isWork

theorem isWork_store (place : Place) : place.store.IsWork := place.isOperand_store.isWork

theorem isWork_clear (place : Place) : place.clear.IsWork := by
  cases place with
  | slot id => exact Fragment.isWork_emit rfl
  | entry array key ty =>
    exact (isWork_pushKey _).bind fun _ => Fragment.isWork_callIntrinsic _

end Place

namespace Procedure

theorem isOperand_loadVar (p : Procedure) (id : LocalId) : (p.loadVar id).IsOperand :=
  (Fragment.isOperand_ofExcept _).bind Place.isOperand_load

theorem isWork_loadVar (p : Procedure) (id : LocalId) : (p.loadVar id).IsWork :=
  (p.isOperand_loadVar id).isWork

/-! ## Expressions -/

mutual

theorem isOperand_evaluate (p : Procedure) : (e : Expr) → (p.evaluate e).IsOperand
  | .literal _ v => by
    rw [evaluate]
    exact (Fragment.isOperand_literal v).bind fun _ => Fragment.isOperand_pure _
  | .var _ id => by
    rw [evaluate]
    exact (p.isOperand_loadVar id).bind fun _ => Fragment.isOperand_pure _
  | .assign note target value => by
    rw [evaluate]
    refine (Fragment.isOperand_ofExcept _).bind fun v => (Fragment.isOperand_ofExcept _).bind
      fun place => place.isOperand_pushKey.bind fun _ =>
        ((isOperand_evaluate p value).convertedTo _ _).bind fun _ => ?_
    split
    · exact place.isOperand_store.bind fun _ => Fragment.isOperand_pure _
    · cases place with
      | slot id =>
        refine Fragment.IsOperand.bind (Fragment.isOperand_emit rfl) fun _ => ?_
        exact (Place.isOperand_store _).bind fun _ =>
          (Fragment.isOperand_convert _ _).bind fun _ => Fragment.isOperand_pure _
      | entry array key ty =>
        refine (Place.isOperand_store _).bind fun _ => ?_
        exact (p.isOperand_loadVar target).bind fun _ =>
          (Fragment.isOperand_convert _ _).bind fun _ => Fragment.isOperand_pure _
  | .binary _ op lhs rhs => by
    rw [evaluate]
    exact ((isOperand_evaluate p lhs).required _).discard.bind fun _ =>
      ((isOperand_evaluate p rhs).required _).discard.bind fun _ =>
        (Fragment.isOperand_emit rfl).bind fun _ => Fragment.isOperand_pure _
  | .call _ callee args => by
    rw [evaluate]
    exact (isOperand_evaluateArgs p args).bind fun _ =>
      (Fragment.isOperand_emit rfl).bind fun _ => Fragment.isOperand_pure _
  | .new _ cls args => by
    rw [evaluate]
    exact (isOperand_evaluateArgs p args).bind fun _ =>
      (Fragment.isOperand_emit rfl).bind fun _ => Fragment.isOperand_pure _
  | .item _ array key => by
    rw [evaluate]
    exact ((isOperand_evaluate p array).convertedTo _ _).bind fun _ =>
      ((isOperand_evaluate p key).convertedTo _ _).bind fun _ =>
        (Fragment.isOperand_emit rfl).bind fun _ => Fragment.isOperand_pure _

theorem isOperand_evaluateArgs (p : Procedure) :
    (args : List Expr) → (p.evaluateArgs args).IsOperand
  | [] => Fragment.isOperand_pure _
  | arg :: args => by
    rw [evaluateArgs]
    exact ((isOperand_evaluate p arg).required _).discard.bind fun _ =>
      isOperand_evaluateArgs p args

end

theorem isOperand_value (p : Procedure) (e : Expr) (ty : Ty) (use : ValueUse) :
    (p.value e ty use).IsOperand := (p.isOperand_evaluate e).convertedTo ty use

theorem isWork_evaluate (p : Procedure) (e : Expr) : (p.evaluate e).IsWork :=
  (p.isOperand_evaluate e).isWork

theorem isWork_value (p : Procedure) (e : Expr) (ty : Ty) (use : ValueUse) :
    (p.value e ty use).IsWork := (p.isOperand_value e ty use).isWork

/-! ## Simple statements -/

theorem isWork_discardValue (p : Procedure) (e : Expr) : (p.discardValue e).IsWork := by
  refine (p.isWork_evaluate e).bind fun ty => ?_
  split
  · exact Fragment.isWork_pure _
  · exact Fragment.isWork_emit rfl

theorem isWork_bindGlobal (p : Procedure) (id : LocalId) : (p.bindGlobal id).IsWork :=
  (Fragment.isWork_ofExcept _).bind fun _ => (Fragment.isWork_ofExcept _).bind fun place =>
    place.isWork_pushKey.bind fun _ => (Fragment.isWork_callWithName _ _).bind fun _ =>
      place.isWork_store

theorem isWork_defineConst (p : Procedure) (name : Name) (e : Expr) :
    (p.defineConst name e).IsWork :=
  (Fragment.isWork_emit rfl).bind fun _ => (Fragment.isWork_emit rfl).bind fun _ =>
    (p.isWork_value _ _ _).bind fun _ => Fragment.isWork_callIntrinsic _

theorem isWork_bindHolder (p : Procedure) (id : LocalId) (key : Name) :
    (p.bindHolder id key).IsWork :=
  (Fragment.isWork_ofExcept _).bind fun place => place.isWork_pushKey.bind fun _ =>
    (Fragment.isWork_callWithName _ _).bind fun _ => place.isWork_store

theorem isWork_unset (p : Procedure) (target : UnsetTarget) : (p.unset target).IsWork := by
  cases target with
  | var id => exact (Fragment.isWork_ofExcept _).bind fun place => place.isWork_clear
  | item array key =>
    exact (p.isWork_value _ _ _).bind fun _ => (p.isWork_value _ _ _).bind fun _ =>
      Fragment.isWork_callIntrinsic _
  | property inst name =>
    exact (p.isWork_value _ _ _).bind fun _ => (Fragment.isWork_emit rfl).bind fun _ =>
      Fragment.isWork_callIntrinsic _

theorem isWork_publish (p : Procedure) (y : Yield) : (p.publish y).IsWork := by
  refine (p.isWork_value _ _ _).bind fun _ => ?_
  cases y.key with
  | some key => exact (p.isWork_value _ _ _).bind fun _ => Fragment.isWork_callIntrinsic _
  | none =>
    simp only
    split
    · exact (Fragment.isWork_emit rfl).bind fun _ => Fragment.isWork_callIntrinsic _
    · exact Fragment.isWork_callIntrinsic _

/-! ## First values -/

theorem isWork_initLocalsArray (p : Procedure) : p.initLocalsArray.IsWork := by
  unfold initLocalsArray
  split
  · exact Fragment.isWork_pure _
  · next array _ =>
    refine (Fragment.isOperand_ofExcept (p.getLocal array)).discard.isWork.bind fun _ => ?_
    refine (Fragment.isWork_emit rfl).bind fun _ => ?_
    exact (Fragment.isWork_callIntrinsic _).bind fun _ => Fragment.isWork_emit rfl

theorem isWork_initVar (p : Procedure) (v : Local) : (p.initVar v).IsWork := by
  unfold initVar
  split
  · exact Fragment.isWork_pure _
  · refine (Fragment.isWork_ofExcept _).bind fun place => ?_
    cases place with
    | entry array key ty =>
      simp only
      split
      · exact (Place.isWork_pushKey _).bind fun _ => (Fragment.isWork_emit rfl).bind fun _ =>
          Place.isWork_store _
      · exact Fragment.isWork_pure _
    | slot id =>
      simp only
      split
      · split
        · exact (Fragment.isOperand_literal _).isWork.bind fun _ => Fragment.isWork_emit rfl
        · exact Fragment.isWork_pure _
      · exact Fragment.isWork_pure _

theorem isWork_initLocals (p : Procedure) : p.initLocals.IsWork := by
  unfold initLocals
  split
  · exact Fragment.isWork_pure _
  · exact p.isWork_initLocalsArray.bind fun _ => .forM p.isWork_initVar

end Procedure

/-! ## What is work is plain -/

namespace Fragment

theorem isPlain_callIntrinsic (i : Intrinsic) : (callIntrinsic i).IsPlain :=
  (isWork_callIntrinsic i).isPlain

theorem isPlain_convert (source target : Ty) : (convert source target).IsPlain :=
  (isWork_convert source target).isPlain

theorem isPlain_pushDefault (ty : Ty) : (pushDefault ty).IsPlain := (isWork_pushDefault ty).isPlain

theorem isPlain_callWithName (i : Intrinsic) (name : Name) : (callWithName i name).IsPlain :=
  (isWork_callWithName i name).isPlain

end Fragment

theorem Place.isPlain_pushKey (place : Place) : place.pushKey.IsPlain := place.isWork_pushKey.isPlain

namespace Procedure

variable (p : Procedure)

theorem isPlain_loadVar (id : LocalId) : (p.loadVar id).IsPlain := (p.isWork_loadVar id).isPlain

theorem isPlain_evaluate (e : Expr) : (p.evaluate e).IsPlain := (p.isWork_evaluate e).isPlain

theorem isPlain_value (e : Expr) (ty : Ty) (use : ValueUse) : (p.value e ty use).IsPlain :=
  (p.isWork_value e ty use).isPlain

theorem isPlain_discardValue (e : Expr) : (p.discardValue e).IsPlain :=
  (p.isWork_discardValue e).isPlain

theorem isPlain_bindGlobal (id : LocalId) : (p.bindGlobal id).IsPlain :=
  (p.isWork_bindGlobal id).isPlain

theorem isPlain_defineConst (name : Name) (e : Expr) : (p.defineConst name e).IsPlain :=
  (p.isWork_defineConst name e).isPlain

theorem isPlain_bindHolder (id : LocalId) (key : Name) : (p.bindHolder id key).IsPlain :=
  (p.isWork_bindHolder id key).isPlain

theorem isPlain_unset (target : UnsetTarget) : (p.unset target).IsPlain :=
  (p.isWork_unset target).isPlain

theorem isPlain_publish (y : Yield) : (p.publish y).IsPlain := (p.isWork_publish y).isPlain

theorem isPlain_initLocals : p.initLocals.IsPlain := p.isWork_initLocals.isPlain

end Procedure

end StackCode
