import StackCode.Proofs.Debugging.Drafts

/-!
# The slots that code works on

A variable is read, stored and removed where `Procedure.place` says that it lives.  So the code of
expressions, statements and edges works on no slot but those of the variables that live in slots of
their own, the variable that holds the locals array among them (`Plan.inner_usesOnly`).
-/

namespace StackCode

/-- The variable whose slot an instruction works on. -/
def Instr.local? : Instr → Option LocalId
  | .loadLocal id | .storeLocal id | .clearLocal id => some id
  | _ => none

/-- The instruction works on no slot but those of such variables. -/
def Instr.UsesOnly (Q : LocalId → Prop) (i : Instr) : Prop := ∀ id, i.local? = some id → Q id

theorem Instr.usesOnly_of_none {Q : LocalId → Prop} {i : Instr} (h : i.local? = none) :
    i.UsesOnly Q := fun id hid => by rw [h] at hid; cases hid

/-- The variable lives in a slot of its own. -/
def Procedure.HasSlot (p : Procedure) (id : LocalId) : Prop := p.place id = .ok (.slot id)

namespace Fragment

variable {α β : Type} {Q : LocalId → Prop}

/-- All code of the fragment, also where writing stopped, works on no slot but those of such
variables. -/
def UsesOnly (Q : LocalId → Prop) (x : Fragment α) : Prop := ∀ i ∈ x.code, i.UsesOnly Q

theorem usesOnly_of_code_eq_nil {x : Fragment α} (h : x.code = []) : x.UsesOnly Q := by
  intro i hi
  rw [h] at hi
  cases hi

theorem usesOnly_pure (a : α) : (pure a : Fragment α).UsesOnly Q := usesOnly_of_code_eq_nil rfl

theorem usesOnly_fail (e : LowerError) : (fail e : Fragment α).UsesOnly Q :=
  usesOnly_of_code_eq_nil rfl

theorem usesOnly_emit {i : Instr} (h : i.UsesOnly Q) : (emit i).UsesOnly Q := by
  intro j hj
  rwa [List.mem_singleton.1 hj]

/-- An instruction that works on no slot of a variable. -/
theorem usesOnly_other {i : Instr} (h : i.local? = none) : (emit i).UsesOnly Q :=
  usesOnly_emit (Instr.usesOnly_of_none h)

theorem UsesOnly.bind {x : Fragment α} {f : α → Fragment β} (hx : x.UsesOnly Q)
    (hf : ∀ a, (f a).UsesOnly Q) : (x >>= f).UsesOnly Q := forall_code_bind hx hf

/-- What follows a look-up may use what has been found. -/
theorem usesOnly_lift_bind {r : Except LowerError α} {f : α → Fragment β}
    (hf : ∀ a, r = .ok a → (f a).UsesOnly Q) : ((liftM r : Fragment α) >>= f).UsesOnly Q := by
  cases hr : r with
  | error e => exact usesOnly_of_code_eq_nil (by rw [← hr]; exact congrArg code (bind_of_error hr f))
  | ok a =>
    rw [← hr, show (liftM r : Fragment α) >>= f = f a from bind_of_ok (x := ofExcept r) hr f]
    exact hf a hr

theorem UsesOnly.discard {x : Fragment α} (hx : x.UsesOnly Q) : (discard x).UsesOnly Q :=
  hx.bind fun _ => usesOnly_pure _

theorem UsesOnly.forM {xs : List α} {f : α → Fragment Unit} (hf : ∀ a ∈ xs, (f a).UsesOnly Q) :
    (xs.forM f).UsesOnly Q := by
  induction xs with
  | nil => exact usesOnly_pure ()
  | cons a xs ih =>
    obtain ⟨hfirst, hrest⟩ := List.forall_mem_cons.1 hf
    exact hfirst.bind fun _ => ih hrest

theorem UsesOnly.mono {P : LocalId → Prop} {x : Fragment α} (hx : x.UsesOnly P)
    (h : ∀ id, P id → Q id) : x.UsesOnly Q := fun i hi id hid => h id (hx i hi id hid)

/-! ## Values -/

theorem usesOnly_literal (v : Literal) : (literal v).UsesOnly Q := usesOnly_other (by cases v <;> rfl)

theorem usesOnly_convert (source target : Ty) : (convert source target).UsesOnly Q := by
  unfold convert
  split
  · exact usesOnly_pure _
  · split
    · exact usesOnly_fail _
    · split <;> exact usesOnly_other rfl

theorem usesOnly_pushDefault (ty : Ty) : (pushDefault ty).UsesOnly Q := by
  unfold pushDefault
  cases ty.default? with
  | none => exact usesOnly_pure _
  | some v => exact usesOnly_literal v

theorem usesOnly_callIntrinsic (i : Intrinsic) : (callIntrinsic i).UsesOnly Q := usesOnly_other rfl

theorem usesOnly_callWithName (i : Intrinsic) (name : Name) : (callWithName i name).UsesOnly Q :=
  (usesOnly_other rfl).bind fun _ => (usesOnly_other rfl).bind fun _ => usesOnly_callIntrinsic i

theorem UsesOnly.required {x : Fragment Ty} (hx : x.UsesOnly Q) (use : ValueUse) :
    (x.required use).UsesOnly Q := by
  refine hx.bind fun ty => ?_
  split
  · exact usesOnly_fail _
  · exact usesOnly_pure _

theorem UsesOnly.convertedTo {x : Fragment Ty} (hx : x.UsesOnly Q) (target : Ty) (use : ValueUse) :
    (x.convertedTo target use).UsesOnly Q := (hx.required use).bind fun ty => usesOnly_convert ty target

end Fragment

section
open Fragment

namespace Procedure

variable {p : Procedure} {id : LocalId} {place : Place}

theorem getLocal_eq_ok_iff {v : Local} : p.getLocal id = .ok v ↔ p.locals.get? id = some v := by
  unfold getLocal
  cases p.locals.get? id <;> simp

theorem hasSlot_of_get? {v : Local} (hv : p.locals.get? id = some v)
    (h : ∀ array, p.localsArray = some array → array = id ∨ v.isNamed = false) : p.HasSlot id := by
  unfold HasSlot Procedure.place
  rw [getLocal_eq_ok_iff.2 hv]
  cases harray : p.localsArray with
  | none => rfl
  | some array =>
    have hmiss : (decide (array ≠ id) && v.isNamed) = false := by
      rcases h array harray with heq | hnamed
      · simp [heq]
      · simp [hnamed]
    simp only [bind, Except.bind, hmiss]
    rfl

theorem place_of_named {v : Local} {array : LocalId} (hv : p.locals.get? id = some v)
    (harray : p.localsArray = some array) (hne : array ≠ id) (hnamed : v.isNamed = true) :
    p.place id = (p.getLocal array).map fun _ => .entry array v.name v.ty := by
  have hhit : (decide (array ≠ id) && v.isNamed) = true := by simp [hne, hnamed]
  unfold Procedure.place
  rw [getLocal_eq_ok_iff.2 hv, harray]
  simp only [bind, Except.bind, hhit]
  cases p.getLocal array <;> rfl

/-- A variable whose place is known lives in a slot of its own, or is a named one that lives in an entry
of the locals array, which a variable with a slot holds. -/
theorem place_cases (h : p.place id = .ok place) : ∃ v, p.locals.get? id = some v ∧
    (place = .slot id ∨ ∃ array, p.localsArray = some array ∧ array ≠ id ∧ v.isNamed = true ∧
      p.HasSlot array ∧ place = .entry array v.name v.ty) := by
  cases hv : p.locals.get? id with
  | none =>
    unfold Procedure.place getLocal at h
    rw [hv] at h
    cases h
  | some v =>
    refine ⟨v, rfl, ?_⟩
    by_cases hslot : ∀ array, p.localsArray = some array → array = id ∨ v.isNamed = false
    · rw [hasSlot_of_get? hv hslot] at h
      cases h
      exact .inl rfl
    · obtain ⟨array, harray, hne, hnamed⟩ : ∃ array, p.localsArray = some array ∧ array ≠ id ∧
          v.isNamed = true := by simpa [not_or] using hslot
      rw [place_of_named hv harray hne hnamed] at h
      cases hw : p.getLocal array with
      | error e =>
        rw [hw] at h
        cases h
      | ok w =>
        rw [hw] at h
        cases h
        have hholds : p.HasSlot array := hasSlot_of_get? (getLocal_eq_ok_iff.1 hw) fun other hother =>
          .inl (Option.some_inj.1 (hother.symm.trans harray))
        exact .inr ⟨array, harray, hne, hnamed, hholds, rfl⟩

theorem HasSlot.exists_local (h : p.HasSlot id) : ∃ v, p.locals.get? id = some v :=
  let ⟨v, hv, _⟩ := place_cases h
  ⟨v, hv⟩

end Procedure

/-! ## Places -/

namespace Place

variable {p : Procedure} {id : LocalId} {place : Place}

theorem usesOnly_pushKey (h : p.place id = .ok place) : place.pushKey.UsesOnly p.HasSlot := by
  obtain ⟨v, -, rfl | ⟨array, -, -, -, hslot, rfl⟩⟩ := Procedure.place_cases h
  · exact usesOnly_pure ()
  · exact (usesOnly_emit fun _ heq => by cases heq; exact hslot).bind fun _ => usesOnly_other rfl

theorem usesOnly_load (h : p.place id = .ok place) : place.load.UsesOnly p.HasSlot := by
  have hkey := usesOnly_pushKey h
  cases place with
  | slot id' =>
    obtain ⟨v, -, heq | ⟨_, _, _, _, _, heq⟩⟩ := Procedure.place_cases h
    · cases heq
      exact usesOnly_emit fun _ heq => by cases heq; exact h
    · cases heq
  | entry array key ty =>
    exact hkey.bind fun _ => (usesOnly_callIntrinsic _).bind fun _ => usesOnly_convert _ _

theorem usesOnly_store (h : p.place id = .ok place) : place.store.UsesOnly p.HasSlot := by
  cases place with
  | slot id' =>
    obtain ⟨v, -, heq | ⟨_, _, _, _, _, heq⟩⟩ := Procedure.place_cases h
    · cases heq
      exact usesOnly_emit fun _ heq => by cases heq; exact h
    · cases heq
  | entry array key ty => exact (usesOnly_convert _ _).bind fun _ => usesOnly_callIntrinsic _

theorem usesOnly_clear (h : p.place id = .ok place) : place.clear.UsesOnly p.HasSlot := by
  have hkey := usesOnly_pushKey h
  cases place with
  | slot id' =>
    obtain ⟨v, -, heq | ⟨_, _, _, _, _, heq⟩⟩ := Procedure.place_cases h
    · cases heq
      exact usesOnly_emit fun _ heq => by cases heq; exact h
    · cases heq
  | entry array key ty => exact hkey.bind fun _ => usesOnly_callIntrinsic _

end Place

/-! ## Expressions -/

namespace Procedure

variable (p : Procedure)

theorem usesOnly_loadVar (id : LocalId) : (p.loadVar id).UsesOnly p.HasSlot :=
  usesOnly_lift_bind fun _ hplace => Place.usesOnly_load hplace

mutual

theorem usesOnly_evaluate : (e : Expr) → (p.evaluate e).UsesOnly p.HasSlot
  | .literal note v => (usesOnly_literal v).bind fun _ => usesOnly_pure _
  | .var note id => (p.usesOnly_loadVar id).bind fun _ => usesOnly_pure _
  | .assign note target value => by
    unfold evaluate
    refine usesOnly_lift_bind fun v _ => usesOnly_lift_bind fun place hplace => ?_
    refine (Place.usesOnly_pushKey hplace).bind fun _ => ?_
    refine ((usesOnly_evaluate value).convertedTo _ _).bind fun _ => ?_
    have hstore := Place.usesOnly_store hplace
    split
    · exact hstore.bind fun _ => usesOnly_pure _
    · cases place with
      | slot id =>
        refine (usesOnly_other rfl).bind fun _ => hstore.bind fun _ => ?_
        exact (usesOnly_convert _ _).bind fun _ => usesOnly_pure _
      | entry array key ty =>
        refine hstore.bind fun _ => (p.usesOnly_loadVar target).bind fun _ => ?_
        exact (usesOnly_convert _ _).bind fun _ => usesOnly_pure _
  | .binary note op lhs rhs => by
    unfold evaluate
    refine ((usesOnly_evaluate lhs).required _).discard.bind fun _ => ?_
    refine ((usesOnly_evaluate rhs).required _).discard.bind fun _ => ?_
    exact (usesOnly_other rfl).bind fun _ => usesOnly_pure _
  | .call note callee args => by
    unfold evaluate
    exact (usesOnly_evaluateArgs args).bind fun _ => (usesOnly_other rfl).bind fun _ => usesOnly_pure _
  | .new note cls args => by
    unfold evaluate
    exact (usesOnly_evaluateArgs args).bind fun _ => (usesOnly_other rfl).bind fun _ => usesOnly_pure _
  | .item note array key => by
    unfold evaluate
    refine ((usesOnly_evaluate array).convertedTo _ _).bind fun _ => ?_
    refine ((usesOnly_evaluate key).convertedTo _ _).bind fun _ => ?_
    exact (usesOnly_callIntrinsic _).bind fun _ => usesOnly_pure _

theorem usesOnly_evaluateArgs : (es : List Expr) → (p.evaluateArgs es).UsesOnly p.HasSlot
  | [] => usesOnly_pure ()
  | e :: es => by
    unfold evaluateArgs
    exact ((usesOnly_evaluate e).required _).discard.bind fun _ => usesOnly_evaluateArgs es

end

theorem usesOnly_value (e : Expr) (ty : Ty) (use : ValueUse) :
    (p.value e ty use).UsesOnly p.HasSlot := (p.usesOnly_evaluate e).convertedTo ty use

/-! ## Simple statements -/

theorem usesOnly_discardValue (e : Expr) : (p.discardValue e).UsesOnly p.HasSlot := by
  refine (p.usesOnly_evaluate e).bind fun ty => ?_
  split
  · exact usesOnly_pure ()
  · exact usesOnly_other rfl

theorem usesOnly_bindGlobal (id : LocalId) : (p.bindGlobal id).UsesOnly p.HasSlot :=
  usesOnly_lift_bind fun _ _ => usesOnly_lift_bind fun _ hplace =>
    (Place.usesOnly_pushKey hplace).bind fun _ => (usesOnly_callWithName _ _).bind fun _ =>
      Place.usesOnly_store hplace

theorem usesOnly_defineConst (name : Name) (e : Expr) : (p.defineConst name e).UsesOnly p.HasSlot :=
  (usesOnly_other rfl).bind fun _ => (usesOnly_other rfl).bind fun _ =>
    (p.usesOnly_value e _ _).bind fun _ => usesOnly_callIntrinsic _

theorem usesOnly_bindHolder (id : LocalId) (key : Name) :
    (p.bindHolder id key).UsesOnly p.HasSlot :=
  usesOnly_lift_bind fun _ hplace => (Place.usesOnly_pushKey hplace).bind fun _ =>
    (usesOnly_callWithName _ _).bind fun _ => Place.usesOnly_store hplace

theorem usesOnly_unset (target : UnsetTarget) : (p.unset target).UsesOnly p.HasSlot := by
  cases target with
  | var id => exact usesOnly_lift_bind fun _ hplace => Place.usesOnly_clear hplace
  | item array key =>
    exact (p.usesOnly_value array _ _).bind fun _ => (p.usesOnly_value key _ _).bind fun _ =>
      usesOnly_callIntrinsic _
  | property inst name =>
    exact (p.usesOnly_value inst _ _).bind fun _ => (usesOnly_other rfl).bind fun _ =>
      usesOnly_callIntrinsic _

theorem usesOnly_throwValue (e : Expr) : (p.throwValue e).UsesOnly p.HasSlot :=
  (p.usesOnly_value e _ _).bind fun _ => usesOnly_other rfl

theorem usesOnly_publish (y : Yield) : (p.publish y).UsesOnly p.HasSlot := by
  refine (p.usesOnly_value y.value _ _).bind fun _ => ?_
  split
  · exact (p.usesOnly_value _ _ _).bind fun _ => usesOnly_callIntrinsic _
  · split
    · exact (usesOnly_other rfl).bind fun _ => usesOnly_callIntrinsic _
    · exact usesOnly_callIntrinsic _

end Procedure

end

/-! ## Drafts -/

namespace Draft

variable {α β : Type} {Q : LocalId → Prop}

/-- All code of the draft, also where drafting stopped, works on no slot but those of such variables. -/
def UsesOnly (Q : LocalId → Prop) (x : Draft α) : Prop :=
  ∀ frame i, .instr i ∈ (x frame).code → i.UsesOnly Q

theorem UsesOnly.bind {x : Draft α} {f : α → Draft β} (hx : x.UsesOnly Q)
    (hf : ∀ a, (f a).UsesOnly Q) : (x >>= f).UsesOnly Q := by
  intro frame i hi
  cases hresult : (x frame).result with
  | error e =>
    rw [bind_of_error hresult] at hi
    exact hx frame i hi
  | ok a =>
    rw [bind_of_ok hresult] at hi
    exact (List.mem_append.1 hi).elim (hx frame i) (hf a _ i)

theorem usesOnly_of_code_eq_nil {x : Draft α} (h : ∀ frame, (x frame).code = []) : x.UsesOnly Q := by
  intro frame i hi
  rw [h frame] at hi
  cases hi

theorem usesOnly_pure (a : α) : (pure a : Draft α).UsesOnly Q := usesOnly_of_code_eq_nil fun _ => rfl

theorem usesOnly_fail (e : LowerError) : (fail e : Draft α).UsesOnly Q :=
  usesOnly_of_code_eq_nil fun _ => rfl

theorem usesOnly_directive {d : Directive} (h : ∀ i, d = .instr i → i.UsesOnly Q) :
    (directive d).UsesOnly Q := fun _ i hi => h i (List.mem_singleton.1 hi).symm

theorem usesOnly_emit {i : Instr} (h : i.UsesOnly Q) : (emit i).UsesOnly Q :=
  usesOnly_directive fun _ hi => by cases hi; exact h

theorem usesOnly_other {i : Instr} (h : i.local? = none) : (emit i).UsesOnly Q :=
  usesOnly_emit (Instr.usesOnly_of_none h)

theorem usesOnly_mark (l : Label) (arrival : Arrival) : (mark l arrival).UsesOnly Q :=
  usesOnly_directive nofun

theorem usesOnly_ofFragment {x : Fragment α} (h : x.UsesOnly Q) : (ofFragment x).UsesOnly Q := by
  intro frame i hi
  obtain ⟨j, hj, heq⟩ := List.mem_map.1 hi
  cases heq
  exact h i hj

/-- What follows a look-up may use what has been found. -/
theorem usesOnly_lift_bind {r : Except LowerError α} {f : α → Draft β}
    (hf : ∀ a, r = .ok a → (f a).UsesOnly Q) : ((liftM r : Draft α) >>= f).UsesOnly Q := by
  intro frame i hi
  cases hr : r with
  | error e =>
    rw [bind_of_error (x := liftM r) (e := e) (by rw [← hr]; rfl)] at hi
    cases hi
  | ok a =>
    rw [bind_of_ok (x := liftM r) (a := a) (by rw [← hr]; rfl)] at hi
    exact hf a hr frame i hi

theorem usesOnly_getFrame_bind {f : Frame → Draft β} (hf : ∀ frame, (f frame).UsesOnly Q) :
    (getFrame >>= f).UsesOnly Q := UsesOnly.bind (usesOnly_of_code_eq_nil fun _ => rfl) hf

theorem usesOnly_setFrame (frame : Frame) : (setFrame frame).UsesOnly Q :=
  usesOnly_of_code_eq_nil fun _ => rfl

theorem usesOnly_freshLabel : freshLabel.UsesOnly Q := usesOnly_of_code_eq_nil fun _ => rfl

theorem usesOnly_namedLabel (name : String) : (namedLabel name).UsesOnly Q :=
  usesOnly_of_code_eq_nil fun _ => rfl

theorem usesOnly_acquireTemp (ty : Ty) : (acquireTemp ty).UsesOnly Q := by
  intro frame i hi
  have hgives : (acquireTemp ty).Gives frame _ _ _ := gives_acquireTemp_iff.2 ⟨rfl, rfl, rfl⟩
  unfold Gives at hgives
  rw [hgives] at hi
  unfold allocation at hi
  split at hi
  · cases List.mem_singleton.1 hi
    exact Instr.usesOnly_of_none rfl
  · cases hi

theorem usesOnly_releaseTemp (slot : TempSlot) : (releaseTemp slot).UsesOnly Q := by
  refine usesOnly_getFrame_bind fun frame => (usesOnly_setFrame _).bind fun _ => ?_
  split
  · exact usesOnly_fail _
  · exact usesOnly_other rfl

theorem usesOnly_returnLabel : returnLabel.UsesOnly Q := by
  refine usesOnly_getFrame_bind fun frame => ?_
  split
  · exact usesOnly_pure _
  · exact (usesOnly_namedLabel _).bind fun _ => usesOnly_getFrame_bind fun _ =>
      (usesOnly_setFrame _).bind fun _ => usesOnly_pure _

theorem usesOnly_returnSlot? (ty : Ty) : (returnSlot? ty).UsesOnly Q := by
  refine usesOnly_getFrame_bind fun frame => ?_
  split
  · exact usesOnly_pure _
  · split
    · exact usesOnly_pure _
    · exact (usesOnly_acquireTemp _).bind fun _ => usesOnly_getFrame_bind fun _ =>
        (usesOnly_setFrame _).bind fun _ => usesOnly_pure _

/-! ## Returning and suspending -/

theorem usesOnly_returnBranch : (returnLabel >>= fun l => emit (.branch l)).UsesOnly Q :=
  usesOnly_returnLabel.bind fun _ => usesOnly_other rfl

theorem usesOnly_stageReturn (returnType ty : Ty) : (stageReturn returnType ty).UsesOnly Q := by
  refine (usesOnly_returnSlot? returnType).bind fun slot => ?_
  cases slot with
  | none =>
    simp only
    split
    · exact usesOnly_returnBranch
    · exact (usesOnly_other rfl).bind fun _ => usesOnly_returnBranch
  | some slot =>
    have hstore : (directive .stageReturn >>= fun _ => emit (.storeTemp slot) >>= fun _ =>
        returnLabel >>= fun l => emit (.branch l)).UsesOnly Q :=
      (usesOnly_directive nofun).bind fun _ => (usesOnly_other rfl).bind fun _ => usesOnly_returnBranch
    simp only
    split
    · exact (usesOnly_ofFragment (Fragment.usesOnly_pushDefault _)).bind fun _ => hstore
    · exact (usesOnly_ofFragment (Fragment.usesOnly_convert _ _)).bind fun _ => hstore

theorem usesOnly_finishGenerator (ty : Ty) : (finishGenerator ty).UsesOnly Q := by
  unfold finishGenerator
  split
  · exact usesOnly_returnBranch
  · exact (usesOnly_ofFragment (Fragment.usesOnly_convert _ _)).bind fun _ =>
      (usesOnly_ofFragment (Fragment.usesOnly_callIntrinsic _)).bind fun _ => usesOnly_returnBranch

theorem usesOnly_setState (s : GeneratorState) : (setState s).UsesOnly Q :=
  (usesOnly_other rfl).bind fun _ => usesOnly_other rfl

theorem usesOnly_exitGenerator : exitGenerator.UsesOnly Q := by
  have hclose : (setState .closed >>= fun _ => emit (.ret false)).UsesOnly Q :=
    (usesOnly_setState _).bind fun _ => usesOnly_other rfl
  refine usesOnly_getFrame_bind fun frame => ?_
  split
  · exact (usesOnly_mark _ _).bind fun _ => hclose
  · exact hclose

theorem usesOnly_exitOrdinary (returnType : Ty) : (exitOrdinary returnType).UsesOnly Q := by
  have hreturn : (ofFragment (Fragment.pushDefault returnType) >>= fun _ =>
      emit (.ret !returnType.isVoid)).UsesOnly Q :=
    (usesOnly_ofFragment (Fragment.usesOnly_pushDefault _)).bind fun _ => usesOnly_other rfl
  refine usesOnly_getFrame_bind fun frame => ?_
  split
  · split
    · exact (usesOnly_mark _ _).bind fun _ => hreturn
    · exact hreturn
  · refine (usesOnly_ofFragment (Fragment.usesOnly_pushDefault _)).bind fun _ => ?_
    refine (usesOnly_other rfl).bind fun _ => usesOnly_returnLabel.bind fun l => ?_
    exact (usesOnly_directive nofun).bind fun _ => usesOnly_releaseTemp _

theorem usesOnly_dispatch (resume : ResumePlan) : (dispatch resume).UsesOnly Q := by
  refine (usesOnly_namedLabel _).bind fun start => (usesOnly_acquireTemp _).bind fun slot => ?_
  refine (usesOnly_other rfl).bind fun _ => (usesOnly_other rfl).bind fun _ => ?_
  refine (usesOnly_setState _).bind fun _ => (usesOnly_other rfl).bind fun _ => ?_
  exact (usesOnly_other rfl).bind fun _ => (usesOnly_releaseTemp slot).bind fun _ => usesOnly_mark _ _

theorem usesOnly_suspend (resume : ResumePlan) (index : Int) :
    (suspend resume index).UsesOnly Q := by
  unfold suspend
  cases resume.label? index with
  | none => exact usesOnly_fail _
  | some l =>
    exact (usesOnly_setState _).bind fun _ => (usesOnly_other rfl).bind fun _ => usesOnly_mark _ _

end Draft

open Draft

theorem Procedure.usesOnly_storePending (p : Procedure) (id : LocalId) :
    (p.storePending id).UsesOnly p.HasSlot := by
  refine usesOnly_lift_bind fun place hplace => ?_
  cases place with
  | slot id' =>
    refine usesOnly_emit fun _ heq => ?_
    cases heq
    obtain ⟨v, -, heq | ⟨_, _, _, _, _, heq⟩⟩ := place_cases hplace
    · cases heq
      exact hplace
    · cases heq
  | entry array key ty =>
    refine (usesOnly_acquireTemp _).bind fun slot => (usesOnly_other rfl).bind fun _ => ?_
    refine (usesOnly_ofFragment (Place.usesOnly_pushKey hplace)).bind fun _ => ?_
    refine (usesOnly_other rfl).bind fun _ => ?_
    exact (usesOnly_ofFragment (Fragment.usesOnly_callIntrinsic _)).bind fun _ => usesOnly_releaseTemp _

namespace Plan

variable (c : Plan)

/-! ## Statements -/

theorem sequencePoint_usesOnly {Q : LocalId → Prop} (span : Option Span) :
    (c.sequencePoint span).UsesOnly Q := by
  unfold sequencePoint
  split
  · split
    · exact usesOnly_other rfl
    · exact usesOnly_pure ()
  · exact usesOnly_pure ()

theorem returnValue_usesOnly (value : Option Expr) :
    (c.returnValue value).UsesOnly c.procedure.HasSlot := by
  have hend (ty : Ty) : (if c.procedure.isGenerator then finishGenerator ty
      else stageReturn c.procedure.returnType ty).UsesOnly c.procedure.HasSlot := by
    split
    · exact usesOnly_finishGenerator ty
    · exact usesOnly_stageReturn _ ty
  cases value with
  | none => exact hend .void
  | some e => exact (usesOnly_ofFragment (c.procedure.usesOnly_evaluate e)).bind hend

theorem bindStatic_usesOnly (d : StaticDecl) : (c.bindStatic d).UsesOnly c.procedure.HasSlot := by
  refine (usesOnly_ofFragment (c.procedure.usesOnly_bindHolder d.target d.key)).bind fun _ => ?_
  cases d.init with
  | none => exact usesOnly_pure ()
  | some init =>
    have hload : (ofFragment (c.procedure.loadVar d.target)).UsesOnly c.procedure.HasSlot :=
      usesOnly_ofFragment (c.procedure.usesOnly_loadVar d.target)
    refine usesOnly_freshLabel.bind fun done => hload.bind fun _ => ?_
    refine (usesOnly_ofFragment (Fragment.usesOnly_callIntrinsic _)).bind fun _ => ?_
    refine (usesOnly_other rfl).bind fun _ => hload.bind fun _ => ?_
    refine (usesOnly_ofFragment (c.procedure.usesOnly_value init _ _)).bind fun _ => ?_
    exact (usesOnly_ofFragment (Fragment.usesOnly_callIntrinsic _)).bind fun _ => usesOnly_mark _ _

theorem yieldValue_usesOnly (y : Yield) : (c.yieldValue y).UsesOnly c.procedure.HasSlot := by
  unfold yieldValue
  split
  · exact usesOnly_fail _
  · split
    · exact usesOnly_fail _
    · exact (usesOnly_ofFragment (c.procedure.usesOnly_publish y)).bind fun _ => usesOnly_suspend _ _

theorem statementBody_usesOnly (s : Stmt) : (c.statementBody s).UsesOnly c.procedure.HasSlot := by
  cases s with
  | empty span =>
    change Draft.UsesOnly _ (if span.isSome && c.options.sequencePoints then _ else _)
    split
    · exact usesOnly_other rfl
    · exact usesOnly_pure ()
  | expr e => exact usesOnly_ofFragment (c.procedure.usesOnly_discardValue e)
  | ret value => exact c.returnValue_usesOnly value
  | throw e => exact usesOnly_ofFragment (c.procedure.usesOnly_throwValue e)
  | declareFunction name => exact usesOnly_ofFragment (Fragment.usesOnly_callWithName _ _)
  | declareType name => exact usesOnly_ofFragment (Fragment.usesOnly_callWithName _ _)
  | bindGlobal id => exact usesOnly_ofFragment (c.procedure.usesOnly_bindGlobal id)
  | defineConst name e => exact usesOnly_ofFragment (c.procedure.usesOnly_defineConst name e)
  | bindStatic d => exact c.bindStatic_usesOnly d
  | unset target => exact usesOnly_ofFragment (c.procedure.usesOnly_unset target)
  | yield y => exact c.yieldValue_usesOnly y
  | declare => exact usesOnly_pure ()

theorem statement_usesOnly (s : Stmt) : (c.statement s).UsesOnly c.procedure.HasSlot :=
  (c.sequencePoint_usesOnly s.span).bind fun _ =>
    (c.statementBody_usesOnly s).bind fun _ => usesOnly_directive nofun

theorem statements_useOnly (ss : List Stmt) :
    (ss.forM c.statement).UsesOnly c.procedure.HasSlot := by
  induction ss with
  | nil => exact usesOnly_pure ()
  | cons s ss ih => exact (c.statement_usesOnly s).bind fun _ => ih

/-! ## Blocks -/

theorem enterBlock_usesOnly (b : Block) : (c.enterBlock b).UsesOnly c.procedure.HasSlot := by
  unfold enterBlock
  split
  · exact usesOnly_pure ()
  · split
    · next exception _ =>
      refine (usesOnly_mark _ _).bind fun _ => ?_
      cases exception with
      | none => exact usesOnly_other rfl
      | some id => exact c.procedure.usesOnly_storePending id
    · exact usesOnly_mark _ _

theorem jump_usesOnly {Q : LocalId → Prop} (target : BlockId) (next : Option BlockId) :
    (c.jump target next).UsesOnly Q := by
  unfold jump
  split
  · exact usesOnly_pure ()
  · exact usesOnly_lift_bind fun _ _ => usesOnly_other rfl

theorem edge_usesOnly (b : Block) (next : Option BlockId) :
    (c.edge b next).UsesOnly c.procedure.HasSlot := by
  unfold edge
  cases b.edge with
  | goto target => exact c.jump_usesOnly target next
  | branch condition onTrue onFalse =>
    refine (usesOnly_ofFragment (c.procedure.usesOnly_value condition _ _)).bind fun _ => ?_
    split
    · exact (usesOnly_other rfl).bind fun _ => c.jump_usesOnly onTrue next
    · split
      · exact usesOnly_lift_bind fun _ _ => usesOnly_other rfl
      · exact usesOnly_lift_bind fun _ _ => (usesOnly_other rfl).bind fun _ =>
          c.jump_usesOnly onFalse next
  | switch selector cases default =>
    refine (usesOnly_ofFragment (c.procedure.usesOnly_value selector _ _)).bind fun _ => ?_
    exact usesOnly_lift_bind fun _ _ => usesOnly_lift_bind fun _ _ => usesOnly_other rfl
  | protect body handler exception =>
    exact usesOnly_lift_bind fun _ _ => (usesOnly_other rfl).bind fun _ => c.jump_usesOnly body next
  | leave target => exact usesOnly_lift_bind fun _ _ => usesOnly_other rfl
  | none => exact usesOnly_directive nofun

theorem blockEnd_usesOnly (b : Block) (next : Option BlockId) :
    (c.blockEnd b next).UsesOnly c.procedure.HasSlot := by
  unfold blockEnd
  split
  · split
    · exact usesOnly_exitGenerator
    · exact usesOnly_exitOrdinary _
  · exact c.edge_usesOnly b next

theorem blocksFrom_usesOnly {bs : List Block} (hstart : ∀ b ∈ bs, b.kind ≠ .start) :
    (c.blocksFrom bs).UsesOnly c.procedure.HasSlot := by
  induction bs with
  | nil => exact usesOnly_pure ()
  | cons b bs ih =>
    obtain ⟨hb, hbs⟩ := List.forall_mem_cons.1 hstart
    rw [blocksFrom, block_eq, if_neg hb]
    exact ((c.enterBlock_usesOnly b).bind fun _ => (c.statements_useOnly _).bind fun _ =>
      c.blockEnd_usesOnly b _).bind fun _ => ih hbs

theorem releaseDebugLocals_usesOnly {Q : LocalId → Prop} : releaseDebugLocals.UsesOnly Q := by
  refine usesOnly_getFrame_bind fun frame => ?_
  induction frame.debugLocals with
  | nil => exact usesOnly_pure ()
  | cons v views ih => exact (usesOnly_releaseTemp v.2).bind fun _ => ih

/-- What is drafted behind the opening works on the slots of variables that live there. -/
theorem inner_usesOnly {first : Block} {others : List Block} (hothers : ∀ b ∈ others, b.kind ≠ .start) :
    (c.inner first others >>= fun _ => releaseDebugLocals).UsesOnly c.procedure.HasSlot := by
  rw [inner_eq]
  refine UsesOnly.bind (UsesOnly.bind ?_ fun _ => ?_) fun _ => releaseDebugLocals_usesOnly
  · split
    · exact usesOnly_dispatch _
    · exact usesOnly_pure ()
  · refine (c.enterBlock_usesOnly first).bind fun _ => (c.statements_useOnly _).bind fun _ => ?_
    exact (c.blockEnd_usesOnly first _).bind fun _ => c.blocksFrom_usesOnly hothers

end Plan

/-! ## What it comes to -/

/-- The assembler puts no instruction that works on a variable where there was none. -/
theorem Assembles.mem_of_local? {f g : Flow} {ds : List Directive} {code : List Instr} {i : Instr}
    (h : Assembles f ds code g) (hi : i ∈ code) (hlocal : i.local? ≠ none) : .instr i ∈ ds := by
  induction h with
  | nil => cases hi
  | cons step _ ih =>
    rcases List.mem_append.1 hi with hi | hi
    · rcases Flow.mem_of_step step hi with rfl | ⟨m, -, rfl⟩ | ⟨m, slot, -, rfl | rfl⟩
      · exact List.mem_cons_self
      · exact absurd rfl hlocal
      · exact absurd rfl hlocal
      · exact absurd rfl hlocal
    · exact List.mem_cons_of_mem _ (ih hi)

end StackCode
