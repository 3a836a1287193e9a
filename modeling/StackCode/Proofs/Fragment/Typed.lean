import StackCode.Assembly.Basic
import StackCode.Proofs.Assembly.Steps
import StackCode.Proofs.Fragment.Plain
import StackCode.Proofs.Fragment.Runs

/-!
# Types on the stack

The machine keeps no types; this module keeps them beside it.  A typed stack holds, in place of each
value, its type, and next to it stand the types of the results still to come, those of user calls, of
created objects and of operators, which are what the expression is annotated with.

Code is typed if every conversion finds a value of its source type, every store a value of the
declared type of its variable, and every entry of an array is set to a dynamically typed value.  The
judgement splits where code splits, so there is one lemma for each piece of code.  Main statement: the
code of a well-annotated expression is typed, wherever its variables live, and leaves one more value of
the type that is told for it (`Procedure.typed_of_assemble`).
-/

namespace StackCode

/-- The types of the values on the stack, the top first, and those of the results to come. -/
abbrev TypedStack := List Ty × List Ty

/-- The types that a fragment with that answer adds to the stack: for `void`, none. -/
def Ty.pushed (ty : Ty) : List Ty := if ty.isVoid then [] else [ty]

theorem Ty.isVoid_of_ne {ty : Ty} (h : ty ≠ .void) : ty.isVoid = false :=
  Bool.eq_false_iff.2 (mt Ty.isVoid_iff.1 h)

theorem Ty.orValue_of_ne {ty : Ty} (h : ty ≠ .void) : ty.orValue = ty := by
  unfold Ty.orValue
  rw [if_neg (mt Ty.isVoid_iff.1 h)]

theorem Ty.pushed_of_isVoid {ty : Ty} (h : ty.isVoid = false) : ty.pushed = [ty] := by
  unfold Ty.pushed
  rw [h]
  rfl

theorem Ty.pushed_orValue (ty : Ty) : ty.orValue.pushed = [ty.orValue] :=
  pushed_of_isVoid (isVoid_of_ne ty.orValue_ne_void)

namespace Procedure

/-- The declared type of a variable. -/
def ty? (p : Procedure) (id : LocalId) : Option Ty := (p.locals.get? id).map (·.ty)

theorem ty?_of_getLocal {p : Procedure} {id : LocalId} {v : Local} (h : p.getLocal id = .ok v) :
    p.ty? id = some v.ty := by
  unfold getLocal at h
  unfold ty?
  cases hv : p.locals.get? id with
  | none => rw [hv] at h; cases h
  | some v' => rw [hv] at h; cases h; rfl

end Procedure

namespace Instr

/-- What an instruction does to the types on the stack. -/
def retype (p : Procedure) : Instr → TypedStack → Option TypedStack
  | .constInt _, (st, told) => some (.int :: st, told)
  | .constFloat _, (st, told) => some (.float :: st, told)
  | .constBool _, (st, told) => some (.bool :: st, told)
  | .constStr _, (st, told) => some (.string :: st, told)
  | .constNull, (st, told) => some (.null :: st, told)
  | .loadLocal id, (st, told) => (p.ty? id).map fun t => (t :: st, told)
  | .storeLocal _, (_ :: st, told) | .pop, (_ :: st, told) => some (st, told)
  | .dup, (t :: st, told) => some (t :: t :: st, told)
  | .convert _ target, (_ :: st, told) => some (target :: st, told)
  | .binary _, (_ :: _ :: st, t :: told) => some (t :: st, told)
  | .new _ argc, (st, t :: told) =>
    if argc ≤ st.length then some (t :: st.drop argc, told) else none
  | .call (.function _) argc true, (st, t :: told) =>
    if argc ≤ st.length then some (t :: st.drop argc, told) else none
  | .call (.function _) argc false, (st, told) =>
    if argc ≤ st.length then some (st.drop argc, told) else none
  | .call (.intrinsic .arrayGet) _ _, (_ :: _ :: st, told) => some (.value :: st, told)
  | .call (.intrinsic .arraySet) _ _, (_ :: _ :: _ :: st, told) => some (st, told)
  | _, _ => none

/-- A user call takes its arguments, and leaves a result of the type that is told for it. -/
theorem retype_call (p : Procedure) (callee : Name) {tys : List Ty} {argc : Nat}
    (htys : tys.length = argc) (ty : Ty) (st told : List Ty) :
    retype p (.call (.function callee) argc (!ty.isVoid)) (tys ++ st, ty.pushed ++ told) =
      some (ty.pushed ++ st, told) := by
  have hle : argc ≤ (tys ++ st).length := by
    rw [List.length_append, htys]
    exact Nat.le_add_right _ _
  unfold Ty.pushed
  cases ty.isVoid with
  | true =>
    change (if argc ≤ (tys ++ st).length then some ((tys ++ st).drop argc, told) else none) = _
    rw [if_pos hle, ← htys, List.drop_left]
    rfl
  | false =>
    change (if argc ≤ (tys ++ st).length then some (ty :: (tys ++ st).drop argc, told) else none) = _
    rw [if_pos hle, ← htys, List.drop_left]
    rfl

theorem retype_new (p : Procedure) (cls : Name) {tys : List Ty} {argc : Nat}
    (htys : tys.length = argc) (ty : Ty) (st told : List Ty) :
    retype p (.new cls argc) (tys ++ st, ty :: told) = some (ty :: st, told) := by
  have hle : argc ≤ (tys ++ st).length := by
    rw [List.length_append, htys]
    exact Nat.le_add_right _ _
  change (if argc ≤ (tys ++ st).length then some (ty :: (tys ++ st).drop argc, told) else none) = _
  rw [if_pos hle, ← htys, List.drop_left]

/-- What an instruction demands of the type of the value on top. -/
def Fits (p : Procedure) (st : List Ty) : Instr → Prop
  | .convert source _ => st.head? = some source
  | .storeLocal id => ∃ t, p.ty? id = some t ∧ st.head? = some t
  | .call (.intrinsic .arraySet) _ _ => st.head? = some .value
  | _ => True

/-- The code takes the typed stack `s` to `s'`, and each instruction finds what it demands. -/
inductive Typed (p : Procedure) : List Instr → TypedStack → TypedStack → Prop
  | nil (s : TypedStack) : Typed p [] s s
  | cons {i : Instr} {is : List Instr} {s s₁ s' : TypedStack} (fits : i.Fits p s.1)
      (retype : i.retype p s = some s₁) (rest : Typed p is s₁ s') : Typed p (i :: is) s s'

namespace Typed

variable {p : Procedure} {is js : List Instr} {i : Instr} {s s' s₁ : TypedStack}

theorem singleton (hfits : i.Fits p s.1) (h : i.retype p s = some s') : Typed p [i] s s' :=
  .cons hfits h (.nil s')

theorem append (h : Typed p is s s₁) (h' : Typed p js s₁ s') : Typed p (is ++ js) s s' := by
  induction h with
  | nil s => exact h'
  | cons fits retype _ ih => exact .cons fits retype (ih h')

/-- Wherever an instruction stands in typed code, it finds what it demands. -/
theorem fits (h : Typed p (is ++ i :: js) s s') : ∃ s₁, Typed p is s s₁ ∧ i.Fits p s₁.1 := by
  induction is generalizing s with
  | nil =>
    cases h with
    | cons fits _ _ => exact ⟨s, .nil s, fits⟩
  | cons j is ih =>
    cases h with
    | cons fits retype rest =>
      obtain ⟨s₁, hfront, hfits⟩ := ih rest
      exact ⟨s₁, .cons fits retype hfront, hfits⟩

end Typed

end Instr

namespace Fragment

/-- The code of the fragment is typed. -/
def Typed (p : Procedure) {α : Type} (x : Fragment α) (s s' : TypedStack) : Prop :=
  Instr.Typed p x.code s s'

section
variable {p : Procedure} {α β : Type} {s s' s₁ : TypedStack}

theorem typed_pure (a : α) : (pure a : Fragment α).Typed p s s := .nil s

theorem typed_emit {i : Instr} (hfits : i.Fits p s.1) (h : i.retype p s = some s') :
    (emit i).Typed p s s' := .singleton hfits h

theorem Typed.bind {x : Fragment α} {f : α → Fragment β} {a : α} (ha : x.result = .ok a)
    (hx : x.Typed p s s₁) (hf : (f a).Typed p s₁ s') : (x >>= f).Typed p s s' := by
  unfold Typed at hx hf ⊢
  rw [bind_of_ok ha]
  exact hx.append hf

theorem Typed.emit_bind {i : Instr} {f : Unit → Fragment β} (hfits : i.Fits p s.1)
    (hi : i.retype p s = some s₁) (hf : (f ()).Typed p s₁ s') : (emit i >>= f).Typed p s s' :=
  (typed_emit hfits hi).bind rfl hf

/-- A look-up that succeeds is no code. -/
theorem typed_lift_bind {r : Except LowerError α} {f : α → Fragment β} {a : α} (ha : r = .ok a)
    (hf : (f a).Typed p s s') : ((liftM r : Fragment α) >>= f).Typed p s s' :=
  Typed.bind (x := ofExcept r) ha (.nil s) hf

theorem Typed.discard {x : Fragment α} (h : x.Typed p s s') : (discard x).Typed p s s' := by
  unfold Typed
  rw [code_discard]
  exact h

end

variable {p : Procedure} {st told : List Ty}

theorem typed_literal (v : Literal) : (literal v).Typed p (st, told) (v.ty :: st, told) := by
  cases v <;> exact typed_emit trivial rfl

/-- A conversion into a type of values takes a value of its source type. -/
theorem typed_convert {source target : Ty} {u : Unit} (h : (convert source target).result = .ok u)
    (htarget : target.isVoid = false) :
    (convert source target).Typed p (source :: st, told) (target :: st, told) := by
  unfold convert at h ⊢
  by_cases heq : source = target
  · rw [if_pos heq, heq]
    exact typed_pure ()
  · rw [if_neg heq] at h ⊢
    by_cases hsource : source.isVoid = true
    · rw [if_pos hsource] at h
      cases h
    · rw [if_neg hsource, htarget, if_neg Bool.false_ne_true]
      exact typed_emit rfl rfl

section
variable {x : Fragment Ty} {use : ValueUse} {s : TypedStack} {u : Unit}

theorem Typed.required (h : x.Typed p s (st, told)) : (x.required use).Typed p s (st, told) := by
  unfold Typed
  rw [code_required]
  exact h

/-- An operand is one more value. -/
theorem typed_operand (h : (discard (x.required use)).result = .ok u)
    (hx : ∀ {ty}, x.result = .ok ty → x.Typed p s (ty.pushed ++ st, told)) :
    ∃ ty, (discard (x.required use)).Typed p s (ty :: st, told) := by
  obtain ⟨ty, hrequired⟩ := succeeds_of_discard h
  obtain ⟨hresult, hty⟩ := required_eq_ok hrequired
  have hvalue := hx hresult
  rw [Ty.pushed_of_isVoid hty] at hvalue
  exact ⟨ty, hvalue.required.discard⟩

/-- A value for which there is a use is there, and of the type of the use. -/
theorem typed_convertedTo {target : Ty} (h : (x.convertedTo target use).result = .ok u)
    (htarget : target.isVoid = false)
    (hx : ∀ {ty}, x.result = .ok ty → x.Typed p s (ty.pushed ++ st, told)) :
    (x.convertedTo target use).Typed p s (target :: st, told) := by
  obtain ⟨ty, hresult, hty, hconvert⟩ := convertedTo_eq_ok h
  have hvalue := hx hresult
  rw [Ty.pushed_of_isVoid hty] at hvalue
  exact hvalue.required.bind (required_of_ok hresult hty) (typed_convert hconvert htarget)

end

end Fragment

/-! ## Storage -/

namespace Place

/-- The types of the array and the key that a store finds under its value. -/
def Beneath (p : Procedure) : Place → List Ty → Prop
  | .slot _, tys => tys = []
  | .entry array _ _, tys => ∃ t, p.ty? array = some t ∧ tys = [.string, t]

/-- The place is one for variables of that type, and what it names is declared. -/
def Holds (p : Procedure) (ty : Ty) : Place → Prop
  | .slot id => p.ty? id = some ty
  | .entry array _ ty' => ty' = ty ∧ ∃ t, p.ty? array = some t

variable {p : Procedure} {place : Place} {ty : Ty}

theorem typed_pushKey (hplace : place.Holds p ty) (st told : List Ty) :
    ∃ tys, place.Beneath p tys ∧ place.pushKey.Typed p (st, told) (tys ++ st, told) := by
  cases place with
  | slot id => exact ⟨[], rfl, Fragment.typed_pure ()⟩
  | entry array key ty' =>
    obtain ⟨-, t, ht⟩ := hplace
    have harray : Instr.retype p (.loadLocal array) (st, told) = some (t :: st, told) :=
      congrArg (Option.map fun t => (t :: st, told)) ht
    exact ⟨[.string, t], ⟨t, ht, rfl⟩, .emit_bind trivial harray (Fragment.typed_emit trivial rfl)⟩

theorem typed_store (hplace : place.Holds p ty) (hty : ty.isVoid = false) {tys : List Ty}
    (htys : place.Beneath p tys) (st told : List Ty) :
    place.store.Typed p (ty :: (tys ++ st), told) (st, told) := by
  cases place with
  | slot id =>
    obtain rfl := htys
    exact Fragment.typed_emit ⟨ty, hplace, rfl⟩ rfl
  | entry array key ty' =>
    obtain ⟨rfl, -⟩ := hplace
    obtain ⟨t, -, rfl⟩ := htys
    have hconvert := Fragment.result_convert hty .value
    exact (Fragment.typed_convert hconvert rfl).bind hconvert (Fragment.typed_emit rfl rfl)

theorem typed_load (hplace : place.Holds p ty) (hty : ty.isVoid = false) (st told : List Ty) :
    place.load.Typed p (st, told) (ty :: st, told) := by
  cases place with
  | slot id =>
    exact Fragment.typed_emit trivial (congrArg (Option.map fun t => (t :: st, told)) hplace)
  | entry array key ty' =>
    obtain ⟨tys, ⟨t, -, rfl⟩, hkey⟩ := typed_pushKey hplace st told
    obtain ⟨rfl, -⟩ := hplace
    exact hkey.bind rfl (.emit_bind trivial rfl
      (Fragment.typed_convert (Fragment.result_convert rfl ty') hty))

end Place

namespace Procedure

variable {p : Procedure}

/-- The place of a variable is one for its type. -/
theorem holds_of_place {id : LocalId} {v : Local} {place : Place} (hv : p.getLocal id = .ok v)
    (h : p.place id = .ok place) : place.Holds p v.ty := by
  have hslot : (Place.slot id).Holds p v.ty := ty?_of_getLocal hv
  unfold Procedure.place at h
  rw [hv] at h
  cases harray : p.localsArray with
  | none =>
    rw [harray] at h
    cases h
    exact hslot
  | some array =>
    rw [harray] at h
    change (if (array ≠ id && v.isNamed) = true then _ else _) = _ at h
    split at h
    · cases hfound : p.getLocal array with
      | error e =>
        rw [hfound] at h
        cases h
      | ok a =>
        rw [hfound] at h
        cases h
        exact ⟨rfl, a.ty, ty?_of_getLocal hfound⟩
    · cases h
      exact hslot

/-- A variable that has a place is declared, and its place is one for its type. -/
theorem exists_local_of_place {id : LocalId} {place : Place} (h : p.place id = .ok place) :
    ∃ v, p.getLocal id = .ok v ∧ place.Holds p v.ty := by
  cases hv : p.getLocal id with
  | error e =>
    unfold Procedure.place at h
    rw [hv] at h
    cases h
  | ok v => exact ⟨v, rfl, holds_of_place hv h⟩

/-- A variable that is read is declared, and its value is of the declared type. -/
theorem typed_loadVar {id : LocalId} {u : Unit} (h : (p.loadVar id).result = .ok u)
    (st told : List Ty) : ∃ ty, p.ty? id = some ty ∧
      (ty.isVoid = false → (p.loadVar id).Typed p (st, told) (ty :: st, told)) := by
  obtain ⟨place, hplace, -⟩ := Fragment.bind_eq_ok h
  have hplace : p.place id = .ok place := hplace
  obtain ⟨v, hv, hholds⟩ := exists_local_of_place hplace
  refine ⟨v.ty, ty?_of_getLocal hv, fun hty => ?_⟩
  exact Fragment.typed_lift_bind hplace (Place.typed_load hholds hty st told)

end Procedure

/-! ## Expressions -/

mutual

/-- Every literal is annotated with its type, every variable with its declared type and every element
of an array as dynamically typed; no variable that is named has the type `void`. -/
def Expr.IsAnnotated (p : Procedure) : Expr → Prop
  | .literal note v => note.ty = v.ty
  | .var note id => ∀ t ∈ p.ty? id, t ≠ .void ∧ note.ty = t
  | .assign _ target value => (∀ t ∈ p.ty? target, t ≠ .void) ∧ value.IsAnnotated p
  | .binary _ _ lhs rhs => lhs.IsAnnotated p ∧ rhs.IsAnnotated p
  | .call _ _ args | .new _ _ args => AreAnnotated p args
  | .item note array key => note.ty = .value ∧ array.IsAnnotated p ∧ key.IsAnnotated p

def Expr.AreAnnotated (p : Procedure) : List Expr → Prop
  | [] => True
  | arg :: args => arg.IsAnnotated p ∧ AreAnnotated p args

end

mutual

/-- The types of the results of the user calls, the created objects and the operators of an
expression, in the order of execution: what they are annotated with. -/
def Expr.told : Expr → List Ty
  | .literal _ _ | .var _ _ => []
  | .assign _ _ value => value.told
  | .binary note _ lhs rhs => lhs.told ++ rhs.told ++ [note.ty.orValue]
  | .call note _ args => toldOf args ++ if note.ty.isVoid then [] else [note.ty]
  | .new note _ args => toldOf args ++ [note.ty.orValue]
  | .item _ array key => array.told ++ key.told

def Expr.toldOf : List Expr → List Ty
  | [] => []
  | arg :: args => arg.told ++ toldOf args

end

namespace Procedure

variable {p : Procedure}

mutual

/-- The code of a well-annotated expression is typed. -/
theorem typed_evaluate : (e : Expr) → e.IsAnnotated p → ∀ {ty : Ty},
    (p.evaluate e).result = .ok ty → ∀ (st rest : List Ty),
      (p.evaluate e).Typed p (st, e.told ++ rest) (ty.pushed ++ st, rest)
  | .literal note v, hnote, ty, h, st, rest => by
    have hnote : note.ty = v.ty := hnote
    rw [evaluate] at h ⊢
    cases h
    rw [Ty.pushed_orValue, hnote, Ty.orValue_of_ne (by cases v <;> nofun)]
    exact (Fragment.typed_literal v).bind rfl (Fragment.typed_pure _)
  | .var note id, hnote, ty, h, st, rest => by
    rw [evaluate] at h ⊢
    obtain ⟨u, hload, h, -⟩ := Fragment.bind_eq_ok h
    cases h
    obtain ⟨t, hid, hloads⟩ := typed_loadVar hload st rest
    obtain ⟨hvoid, hty⟩ := hnote t hid
    rw [Ty.pushed_orValue, hty, Ty.orValue_of_ne hvoid]
    exact (hloads (Ty.isVoid_of_ne hvoid)).bind hload (Fragment.typed_pure _)
  | .assign note target value, ⟨htarget, hvalue⟩, ty, h, st, rest => by
    rw [evaluate] at h ⊢
    obtain ⟨v, hv, h, -⟩ := Fragment.bind_eq_ok h
    obtain ⟨place, hplace, h, -⟩ := Fragment.bind_eq_ok h
    obtain ⟨u, hkey, h, -⟩ := Fragment.bind_eq_ok h
    obtain ⟨u', hto, h, -⟩ := Fragment.bind_eq_ok h
    have hv : p.getLocal target = .ok v := hv
    have hplace : p.place target = .ok place := hplace
    have hvoid := Ty.isVoid_of_ne (htarget v.ty (ty?_of_getLocal hv))
    have hholds := holds_of_place hv hplace
    obtain ⟨tys, htys, hpush⟩ := Place.typed_pushKey hholds st (value.told ++ rest)
    have hvalueTyped := Fragment.typed_convertedTo hto hvoid fun hresult =>
      typed_evaluate value hvalue hresult (tys ++ st) rest
    refine Fragment.typed_lift_bind hv (Fragment.typed_lift_bind hplace
      (hpush.bind hkey (hvalueTyped.bind hto ?_)))
    by_cases hnote : note.ty.isVoid = true
    · rw [if_pos hnote] at h ⊢
      obtain ⟨u₁, hstore, h, -⟩ := Fragment.bind_eq_ok h
      cases h
      rw [Ty.pushed, if_pos hnote]
      exact (Place.typed_store hholds hvoid htys st rest).bind hstore (Fragment.typed_pure _)
    · rw [if_neg hnote] at h ⊢
      have hnote : note.ty.isVoid = false := Bool.eq_false_iff.2 hnote
      cases place with
      | slot id =>
        obtain rfl : tys = [] := htys
        obtain ⟨-, -, h, -⟩ := Fragment.bind_eq_ok h
        obtain ⟨u₁, hstore, h, -⟩ := Fragment.bind_eq_ok h
        obtain ⟨u₂, hconvert, h, -⟩ := Fragment.bind_eq_ok h
        cases h
        rw [Ty.pushed_of_isVoid hnote]
        refine .emit_bind trivial rfl ((Place.typed_store hholds hvoid rfl (v.ty :: st) rest).bind
          hstore ?_)
        exact (Fragment.typed_convert hconvert hnote).bind hconvert (Fragment.typed_pure _)
      | entry array key ety =>
        obtain ⟨u₁, hstore, h, -⟩ := Fragment.bind_eq_ok h
        obtain ⟨u₂, hload, h, -⟩ := Fragment.bind_eq_ok h
        obtain ⟨u₃, hconvert, h, -⟩ := Fragment.bind_eq_ok h
        cases h
        rw [Ty.pushed_of_isVoid hnote]
        obtain ⟨t, ht, hloads⟩ := typed_loadVar hload st rest
        obtain rfl := Option.some_inj.1 (ht.symm.trans (ty?_of_getLocal hv))
        refine (Place.typed_store hholds hvoid htys st rest).bind hstore ((hloads hvoid).bind hload ?_)
        exact (Fragment.typed_convert hconvert hnote).bind hconvert (Fragment.typed_pure _)
  | .binary note op lhs rhs, ⟨hlhs, hrhs⟩, ty, h, st, rest => by
    rw [evaluate] at h ⊢
    obtain ⟨u, hl, h, -⟩ := Fragment.bind_eq_ok h
    obtain ⟨u', hr, h, -⟩ := Fragment.bind_eq_ok h
    cases h
    obtain ⟨lty, hleft⟩ := Fragment.typed_operand hl fun hresult =>
      typed_evaluate lhs hlhs hresult st (rhs.told ++ ([note.ty.orValue] ++ rest))
    obtain ⟨rty, hright⟩ := Fragment.typed_operand hr fun hresult =>
      typed_evaluate rhs hrhs hresult (lty :: st) ([note.ty.orValue] ++ rest)
    rw [Expr.told, List.append_assoc, List.append_assoc, Ty.pushed_orValue]
    exact hleft.bind hl (hright.bind hr (.emit_bind trivial rfl (Fragment.typed_pure _)))
  | .call note callee args, hargs, ty, h, st, rest => by
    rw [evaluate] at h ⊢
    obtain ⟨u, hok, h, -⟩ := Fragment.bind_eq_ok h
    cases h
    obtain ⟨tys, hlength, htyped⟩ := typed_evaluateArgs args hargs hok st (note.ty.pushed ++ rest)
    rw [Expr.told, List.append_assoc]
    exact htyped.bind hok (.emit_bind trivial (Instr.retype_call p callee hlength note.ty st rest)
      (Fragment.typed_pure _))
  | .new note cls args, hargs, ty, h, st, rest => by
    rw [evaluate] at h ⊢
    obtain ⟨u, hok, h, -⟩ := Fragment.bind_eq_ok h
    cases h
    obtain ⟨tys, hlength, htyped⟩ :=
      typed_evaluateArgs args hargs hok st ([note.ty.orValue] ++ rest)
    rw [Expr.told, List.append_assoc, Ty.pushed_orValue]
    exact htyped.bind hok (.emit_bind trivial
      (Instr.retype_new p cls hlength note.ty.orValue st rest) (Fragment.typed_pure _))
  | .item note array key, ⟨hnote, harray, hkey⟩, ty, h, st, rest => by
    rw [evaluate] at h ⊢
    obtain ⟨u, ha, h, -⟩ := Fragment.bind_eq_ok h
    obtain ⟨u', hk, h, -⟩ := Fragment.bind_eq_ok h
    cases h
    have hnote : note.ty = .value := hnote
    have harrayTyped := Fragment.typed_convertedTo ha rfl fun hresult =>
      typed_evaluate array harray hresult st (key.told ++ rest)
    have hkeyTyped := Fragment.typed_convertedTo hk rfl fun hresult =>
      typed_evaluate key hkey hresult (.array :: st) rest
    rw [Expr.told, List.append_assoc, Ty.pushed_orValue, hnote]
    exact harrayTyped.bind ha (hkeyTyped.bind hk (.emit_bind trivial rfl (Fragment.typed_pure _)))

/-- The code of well-annotated arguments is typed, and leaves a value for each. -/
theorem typed_evaluateArgs : (args : List Expr) → Expr.AreAnnotated p args → ∀ {u : Unit},
    (p.evaluateArgs args).result = .ok u → ∀ (st rest : List Ty), ∃ tys, tys.length = args.length ∧
      (p.evaluateArgs args).Typed p (st, Expr.toldOf args ++ rest) (tys ++ st, rest)
  | [], _, _, _, st, rest => ⟨[], rfl, Fragment.typed_pure ()⟩
  | arg :: args, ⟨harg, hargs⟩, u, h, st, rest => by
    rw [evaluateArgs] at h ⊢
    obtain ⟨u', hok, h, -⟩ := Fragment.bind_eq_ok h
    obtain ⟨ty, htyped⟩ := Fragment.typed_operand hok fun hresult =>
      typed_evaluate arg harg hresult st (Expr.toldOf args ++ rest)
    obtain ⟨tys, hlength, hrest⟩ := typed_evaluateArgs args hargs h (ty :: st) rest
    rw [Expr.toldOf, List.append_assoc]
    refine ⟨tys ++ [ty], ?_, ?_⟩
    · rw [List.length_append, hlength]
      rfl
    · rw [List.append_assoc]
      exact htyped.bind hok hrest

end

/-- Where control gets to an expression, its code is appended as it is.  The code of a well-annotated
one is typed, whatever the types below: its user calls, created objects and operators giving what they
are annotated with, each of its instructions finds what it demands, and in the end there is one more
value of the type that is told for it, or none for `void`. -/
theorem typed_of_assemble {e : Expr} (he : e.IsAnnotated p) {ty : Ty}
    (hresult : (p.evaluate e).result = .ok ty) {code out : Array Instr} {f g : Flow}
    (hlive : f.isLive = true)
    (h : assemble code f ((p.evaluate e).code.map .instr) = { code := out, flow := g, fault := none }) :
    out = code ++ (p.evaluate e).code ∧ ∀ st rest : List Ty,
      Instr.Typed p (p.evaluate e).code (st, e.told ++ rest) (ty.pushed ++ st, rest) ∧
      ∀ front i back, (p.evaluate e).code = front ++ i :: back →
        ∃ s, Instr.Typed p front (st, e.told ++ rest) s ∧ i.Fits p s.1 := by
  obtain ⟨is, hassembles, rfl⟩ := assemble_eq_iff.1 h
  obtain ⟨rfl, -, -⟩ := Assembles.of_passes
    (fun i hi => Instr.passes_of_isPlain (p.isPlain_evaluate e i hi)) hlive hassembles
  refine ⟨rfl, fun st rest => ?_⟩
  have htyped := typed_evaluate e he hresult st rest
  refine ⟨htyped, fun front i back hcode => ?_⟩
  unfold Fragment.Typed at htyped
  rw [hcode] at htyped
  exact htyped.fits

/-- A procedure that keeps an integer and a float in a locals array. -/
def tally : Procedure where
  name := ⟨1⟩
  returnType := .void
  locals :=
    { vars := #[{ id := ⟨0⟩, name := .empty, ty := .array, kind := .temporary },
        { id := ⟨1⟩, name := ⟨2⟩, ty := .int, kind := .user },
        { id := ⟨2⟩, name := ⟨3⟩, ty := .float, kind := .user }] }
  graph :=
    { blocks := #[
        { id := ⟨0⟩, ordinal := 0, kind := .start, statements := [], edge := .goto ⟨1⟩ },
        { id := ⟨1⟩, ordinal := 1, kind := .exit, statements := [], edge := .none }]
      wellFormed := wellFormed_of_fault?_eq_none (by decide) }
  localsArray := some ⟨0⟩

/-- Assigns an integer to the float, and the sum of that and of the result of a call to the integer. -/
def tallied : Expr :=
  .assign { ty := .value } ⟨1⟩
    (.binary { ty := .void } .add (.assign { ty := .int } ⟨2⟩ (.lit (.int 2)))
      (.call { ty := .string } ⟨4⟩ [.var { ty := .float } ⟨2⟩]))

theorem tallied_typed :
    Instr.Typed tally
      [.loadLocal ⟨0⟩, .constStr ⟨2⟩, .loadLocal ⟨0⟩, .constStr ⟨3⟩, .constInt 2, .convert .int .float,
        .convert .float .value, .callIntrinsic .arraySet, .loadLocal ⟨0⟩, .constStr ⟨3⟩,
        .callIntrinsic .arrayGet, .convert .value .float, .convert .float .int, .loadLocal ⟨0⟩,
        .constStr ⟨3⟩, .callIntrinsic .arrayGet, .convert .value .float,
        .call (.function ⟨4⟩) 1 true, .binary .add, .convert .value .int, .convert .int .value,
        .callIntrinsic .arraySet, .loadLocal ⟨0⟩, .constStr ⟨2⟩, .callIntrinsic .arrayGet,
        .convert .value .int, .convert .int .value]
      ([], [.string, .value]) ([.value], []) := by
  have he : tallied.IsAnnotated tally := by
    simp [tallied, Expr.IsAnnotated, Expr.AreAnnotated, Expr.lit, tally, ty?, Locals.get?]
  have hresult : (tally.evaluate tallied).result = .ok .value := rfl
  have h : assemble #[] { labels := {} } ((tally.evaluate tallied).code.map .instr) =
      { code := (tally.evaluate tallied).code.toArray, flow := { labels := {}, depth := 1 }
        fault := none } := rfl
  exact ((typed_of_assemble he hresult rfl h).2 [] []).1

end Procedure

end StackCode
