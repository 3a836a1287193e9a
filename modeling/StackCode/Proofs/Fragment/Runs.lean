import StackCode.Draft.Entry
import StackCode.Proofs.Draft.Succeeds
import StackCode.Proofs.Execution.Interpreter

/-!
# What fragments do

Executing the code of an expression does what direct execution of the expression does, and pushes its
value on whatever the stack holds (`Procedure.evaluate_runs`).  An expression of type `void` pushes
nothing; it stands for itself, on an empty stack (`Procedure.eq_of_evaluate_runs`).  From this follows
what the code of the simple statements does.
-/

namespace StackCode

variable {V W : Type} {R : Runtime V W}

namespace Instr

theorem execAll_cons {i : Instr} {is : List Instr} {s : List V × Memory V W} :
    execAll R (i :: is) s = (i.exec R s).bind (execAll R is) := rfl

theorem execAll_append {is js : List Instr} {s : List V × Memory V W} :
    execAll R (is ++ js) s = (execAll R is s).bind (execAll R js) := by
  unfold execAll
  rw [List.foldlM_append]
  rfl

/-- A call takes its arguments, the last on top. -/
theorem exec_call {callee : Callee} {argc : Nat} {returns : Bool} {args : List V}
    (hargs : args.length = argc) (st : List V) (m : Memory V W) :
    exec R (.call callee argc returns) (args ++ st, m) =
      some ((if returns then [(m.perform R (.call callee) args.reverse).1] else []) ++ st,
        (m.perform R (.call callee) args.reverse).2) := by
  have hle : argc ≤ (args ++ st).length := by
    rw [List.length_append, hargs]
    exact Nat.le_add_right _ _
  rw [exec, if_pos hle, ← hargs, List.take_left, List.drop_left]

theorem exec_new {cls : Name} {argc : Nat} {args : List V} (hargs : args.length = argc) (st : List V)
    (m : Memory V W) :
    exec R (.new cls argc) (args ++ st, m) =
      some ((m.perform R (.new cls) args.reverse).1 :: st, (m.perform R (.new cls) args.reverse).2) := by
  have hle : argc ≤ (args ++ st).length := by
    rw [List.length_append, hargs]
    exact Nat.le_add_right _ _
  rw [exec, if_pos hle, ← hargs, List.take_left, List.drop_left]

end Instr

namespace Fragment

/-! ## Running a fragment -/

section
variable {α β : Type}

/-- Executing the code of the fragment leads from one stack and memory to another. -/
def Runs (R : Runtime V W) (x : Fragment α) (s s' : List V × Memory V W) : Prop :=
  Instr.execAll R x.code s = some s'

variable {s s' s₁ : List V × Memory V W}

theorem Runs.unique {x : Fragment α} (h : x.Runs R s s') (h₁ : x.Runs R s s₁) : s' = s₁ :=
  Option.some_inj.1 (h.symm.trans h₁)

theorem runs_pure (a : α) : (pure a : Fragment α).Runs R s s := rfl

theorem runs_emit {i : Instr} (h : i.exec R s = some s') : (emit i).Runs R s s' := by
  unfold Runs
  rw [code_emit, Instr.execAll_cons, h]
  rfl

theorem Runs.bind {x : Fragment α} {f : α → Fragment β} {a : α} (ha : x.result = .ok a)
    (hx : x.Runs R s s₁) (hf : (f a).Runs R s₁ s') : (x >>= f).Runs R s s' := by
  unfold Runs at hx hf ⊢
  rw [bind_of_ok ha, Instr.execAll_append, hx]
  exact hf

/-- What has run as a whole has run part by part. -/
theorem Runs.of_bind {x : Fragment α} {f : α → Fragment β} {a : α} (ha : x.result = .ok a)
    (h : (x >>= f).Runs R s s') : ∃ s₁, x.Runs R s s₁ ∧ (f a).Runs R s₁ s' := by
  unfold Runs at h
  rw [bind_of_ok ha, Instr.execAll_append] at h
  exact Option.bind_eq_some_iff.1 h

theorem Runs.emit_bind {i : Instr} {f : Unit → Fragment β} (hi : i.exec R s = some s₁)
    (hf : (f ()).Runs R s₁ s') : (emit i >>= f).Runs R s s' := (runs_emit hi).bind rfl hf

/-- A look-up that succeeds is no code. -/
theorem runs_lift_bind {r : Except LowerError α} {f : α → Fragment β} {a : α} (ha : r = .ok a)
    (hf : (f a).Runs R s s') : ((liftM r : Fragment α) >>= f).Runs R s s' :=
  Runs.bind (x := ofExcept r) ha rfl hf

theorem code_discard (x : Fragment α) : (discard x).code = x.code := by
  change (x >>= fun _ => pure ()).code = x.code
  cases hx : x.result with
  | error e => rw [bind_of_error hx]
  | ok a =>
    rw [bind_of_ok hx]
    exact List.append_nil _

theorem succeeds_of_discard {x : Fragment α} {u : Unit} (h : (discard x).result = .ok u) :
    x.Succeeds := by
  obtain ⟨a, ha, -⟩ := bind_eq_ok (show (x >>= fun _ => pure ()).result = .ok u from h)
  exact ⟨a, ha⟩

end

/-! ## Values -/

theorem runs_literal (v : Literal) (st : List V) (m : Memory V W) :
    (literal v).Runs R (st, m) (R.literal v :: st, m) := by
  apply runs_emit
  cases v <;> rfl

/-- Into a value of no type, a value is dropped. -/
theorem runs_convert_void {source target : Ty} (hsource : source.isVoid = false)
    (htarget : target.isVoid = true) (v : V) (st : List V) (m : Memory V W) :
    (convert source target).Runs R (v :: st, m) (st, m) := by
  have hne : source ≠ target := by
    rintro rfl
    rw [hsource] at htarget
    cases htarget
  unfold convert
  rw [if_neg hne, hsource, if_neg Bool.false_ne_true, if_pos htarget]
  exact runs_emit rfl

theorem runs_convert {source target : Ty} {u : Unit} (h : (convert source target).result = .ok u)
    (htarget : target.isVoid = false) (v : V) (st : List V) (m : Memory V W) :
    (convert source target).Runs R (v :: st, m)
      ((m.coerce R source target v).1 :: st, (m.coerce R source target v).2) := by
  unfold Memory.coerce
  unfold convert at h ⊢
  by_cases heq : source = target
  · rw [if_pos heq, if_pos heq]
    exact runs_pure ()
  · rw [if_neg heq, if_neg heq]
    rw [if_neg heq] at h
    by_cases hsource : source.isVoid = true
    · rw [if_pos hsource] at h
      cases h
    · rw [if_neg hsource, htarget, if_neg Bool.false_ne_true]
      exact runs_emit rfl

/-- There is a value to convert to one of another type. -/
theorem isVoid_of_convert {source target : Ty} {u : Unit}
    (h : (convert source target).result = .ok u) (htarget : target.isVoid = false) :
    source.isVoid = false := by
  unfold convert at h
  by_cases heq : source = target
  · rw [heq, htarget]
  · rw [if_neg heq] at h
    by_contra hsource
    rw [if_pos (by simpa using hsource)] at h
    cases h

/-- A value can be converted into one of any type. -/
theorem result_convert {source : Ty} (hsource : source.isVoid = false) (target : Ty) :
    (convert source target).result = .ok () := by
  unfold convert
  rw [hsource, if_neg Bool.false_ne_true]
  split
  · rfl
  · split <;> rfl

theorem code_required (x : Fragment Ty) (use : ValueUse) : (x.required use).code = x.code := by
  unfold required
  cases hx : x.result with
  | error e => rw [bind_of_error hx]
  | ok ty =>
    rw [bind_of_ok hx]
    simp only
    split <;> exact List.append_nil _

/-- A value that is required is there. -/
theorem required_eq_ok {x : Fragment Ty} {use : ValueUse} {ty : Ty}
    (h : (x.required use).result = .ok ty) : x.result = .ok ty ∧ ty.isVoid = false := by
  obtain ⟨ty', hx, h, -⟩ := bind_eq_ok h
  by_cases hvoid : ty'.isVoid = true
  · rw [if_pos hvoid] at h
    cases h
  · rw [if_neg hvoid] at h
    cases h
    exact ⟨hx, Bool.eq_false_iff.2 hvoid⟩

/-- A value that is converted is there, and can be converted. -/
theorem convertedTo_eq_ok {x : Fragment Ty} {target : Ty} {use : ValueUse} {u : Unit}
    (h : (x.convertedTo target use).result = .ok u) :
    ∃ ty, x.result = .ok ty ∧ ty.isVoid = false ∧ (convert ty target).result = .ok u := by
  obtain ⟨ty, hx, hconvert, -⟩ := bind_eq_ok h
  obtain ⟨hx, hty⟩ := required_eq_ok hx
  exact ⟨ty, hx, hty, hconvert⟩

section
variable {x : Fragment Ty} {ty target : Ty} {use : ValueUse} {st : List V} {m m' : Memory V W} {v : V}
  {s : List V × Memory V W}

theorem Runs.required (h : x.Runs R s (v :: st, m')) : (x.required use).Runs R s (v :: st, m') := by
  unfold Runs
  rw [code_required]
  exact h

theorem Runs.discard {α : Type} {x : Fragment α} {s' : List V × Memory V W} (h : x.Runs R s s') :
    (discard x).Runs R s s' := by
  unfold Runs
  rw [code_discard]
  exact h

theorem required_of_ok (hx : x.result = .ok ty) (hty : ty.isVoid = false) :
    (x.required use).result = .ok ty := by
  unfold Fragment.required
  rw [bind_of_ok hx, hty]
  rfl

theorem Runs.convertedTo (h : x.Runs R s (v :: st, m)) (hx : x.result = .ok ty)
    (hty : ty.isVoid = false) {u : Unit} (hconvert : (convert ty target).result = .ok u)
    (htarget : target.isVoid = false) :
    (x.convertedTo target use).Runs R s
      ((m.coerce R ty target v).1 :: st, (m.coerce R ty target v).2) :=
  h.required.bind (required_of_ok hx hty) (runs_convert hconvert htarget v st m)

end

/-! ## Intrinsics -/

theorem runs_callIntrinsic (i : Intrinsic) (args : List V) (hargs : args.length = i.arity)
    (st : List V) (m : Memory V W) :
    (callIntrinsic i).Runs R (args ++ st, m)
      ((if i.returns then [(m.ask R i args.reverse).1] else []) ++ st, m.tell R i args.reverse) :=
  runs_emit (Instr.exec_call hargs st m)

theorem runs_callWithName (i : Intrinsic) (harity : i.arity = 2) (name : Name) (st : List V)
    (m : Memory V W) :
    (callWithName i name).Runs R (st, m)
      ((if i.returns then [(m.ask R i [R.context, R.literal (.str name)]).1] else []) ++ st,
        m.tell R i [R.context, R.literal (.str name)]) := by
  refine .emit_bind rfl (.emit_bind rfl ?_)
  exact runs_callIntrinsic i [R.literal (.str name), R.context] harity.symm st m

end Fragment

namespace Procedure

variable {p : Procedure}

/-! ## Variables with slots -/

/-- Without a locals array every variable has its slot. -/
theorem eq_slot_of_place (harray : p.localsArray = none) {id : LocalId} {place : Place}
    (h : p.place id = .ok place) : place = .slot id := by
  unfold Procedure.place at h
  rw [harray] at h
  cases hv : p.getLocal id with
  | error e => rw [hv] at h; cases h
  | ok v => rw [hv] at h; cases h; rfl

theorem get?_of_getLocal {id : LocalId} {v : Local} (h : p.getLocal id = .ok v) :
    p.locals.get? id = some v := by
  unfold getLocal at h
  cases hv : p.locals.get? id with
  | none => rw [hv] at h; cases h
  | some v' => rw [hv] at h; cases h; rfl

theorem localTy_of_getLocal {id : LocalId} {v : Local} (h : p.getLocal id = .ok v) :
    p.localTy id = v.ty := by
  unfold localTy
  rw [get?_of_getLocal h]
  rfl

theorem loadVar_runs (harray : p.localsArray = none) {id : LocalId} {u : Unit}
    (h : (p.loadVar id).result = .ok u) (st : List V) (m : Memory V W) :
    (p.loadVar id).Runs R (st, m) (m.locals id :: st, m) := by
  obtain ⟨place, hplace, -⟩ := Fragment.bind_eq_ok h
  have hplace : p.place id = .ok place := hplace
  obtain rfl := eq_slot_of_place harray hplace
  exact Fragment.runs_lift_bind hplace (Fragment.runs_emit rfl)

/-! ## Expressions -/

/-- What the code of an assignment to a slot is made of. -/
theorem evaluate_assign (harray : p.localsArray = none) {note : Annotation} {target : LocalId}
    {value : Expr} {ty : Ty} (h : (p.evaluate (.assign note target value)).result = .ok ty) :
    ty = note.ty ∧ ∃ v, p.getLocal target = .ok v ∧
      ((p.evaluate value).convertedTo v.ty .assigned).Succeeds ∧
      p.evaluate (.assign note target value) =
        ((p.evaluate value).convertedTo v.ty .assigned >>= fun _ =>
          if note.ty.isVoid then Fragment.emit (.storeLocal target) >>= fun _ => pure note.ty
          else Fragment.emit .dup >>= fun _ => Fragment.emit (.storeLocal target) >>= fun _ =>
            Fragment.convert v.ty note.ty >>= fun _ => pure note.ty) := by
  rw [evaluate] at h ⊢
  obtain ⟨v, hv, h, -⟩ := Fragment.bind_eq_ok h
  obtain ⟨place, hplace, h, -⟩ := Fragment.bind_eq_ok h
  have hv : p.getLocal target = .ok v := hv
  have hplace : p.place target = .ok place := hplace
  obtain rfl := eq_slot_of_place harray hplace
  obtain ⟨-, -, h, -⟩ := Fragment.bind_eq_ok h
  obtain ⟨u, hvalue, h, -⟩ := Fragment.bind_eq_ok h
  have hlift {α : Type} {r : Except LowerError α} {a : α} (hr : r = .ok a) (f : α → Fragment Ty) :
      (liftM r >>= f) = f a := Fragment.bind_of_ok (x := .ofExcept r) hr f
  refine ⟨?_, v, hv, ⟨u, hvalue⟩, ?_⟩
  · simp only at h
    split at h
    · obtain ⟨-, -, h, -⟩ := Fragment.bind_eq_ok h
      cases h
      rfl
    · repeat obtain ⟨-, -, h, -⟩ := Fragment.bind_eq_ok h
      cases h
      rfl
  · rw [hlift hv, hlift hplace]
    rfl

/-- The type told for the code of an expression. -/
theorem eq_resultTy_of_evaluate (harray : p.localsArray = none) {e : Expr} {ty : Ty}
    (h : (p.evaluate e).result = .ok ty) : ty = e.resultTy := by
  cases e with
  | assign note target value => exact (evaluate_assign harray h).1
  | literal | var | binary | call | new | item =>
    rw [evaluate] at h
    repeat obtain ⟨-, -, h, -⟩ := Fragment.bind_eq_ok h
    cases h
    rfl

theorem length_evalArgs (p : Procedure) (R : Runtime V W) (args : List Expr) (m : Memory V W) :
    (p.evalArgs R args m).1.length = args.length := by
  induction args generalizing m with
  | nil => rfl
  | cons arg args ih =>
    rw [evalArgs]
    exact congrArg (· + 1) (ih _)

mutual

/-- The code of an expression does what the expression does, and pushes its value. -/
theorem evaluate_runs (harray : p.localsArray = none) (R : Runtime V W) : (e : Expr) → ∀ {ty : Ty},
    (p.evaluate e).result = .ok ty → ty.isVoid = false → ∀ (st : List V) (m : Memory V W),
      (p.evaluate e).Runs R (st, m) ((p.eval R e m).1 :: st, (p.eval R e m).2)
  | .literal note v, _, h, _, st, m => by
    rw [evaluate, eval]
    exact (Fragment.runs_literal v st m).bind rfl (Fragment.runs_pure _)
  | .var note id, _, h, _, st, m => by
    rw [evaluate] at h ⊢
    rw [eval]
    obtain ⟨u, hload, -, -⟩ := Fragment.bind_eq_ok h
    exact (loadVar_runs harray hload st m).bind hload (Fragment.runs_pure _)
  | .assign note target value, ty, h, hty, st, m => by
    obtain ⟨rfl, v, hv, ⟨u, hvalue⟩, heq⟩ := evaluate_assign harray h
    rw [heq] at h ⊢
    rw [hty, if_neg Bool.false_ne_true] at h ⊢
    obtain ⟨-, -, h, -⟩ := Fragment.bind_eq_ok h
    obtain ⟨-, -, h, -⟩ := Fragment.bind_eq_ok h
    obtain ⟨-, -, h, -⟩ := Fragment.bind_eq_ok h
    obtain ⟨u', hconvert, -, -⟩ := Fragment.bind_eq_ok h
    obtain ⟨vty, hresult, hvty, hto⟩ := Fragment.convertedTo_eq_ok hvalue
    have hlocal := Fragment.isVoid_of_convert hconvert hty
    rw [eval, hty, localTy_of_getLocal hv]
    obtain rfl := eq_resultTy_of_evaluate harray hresult
    refine ((evaluate_runs harray R value hresult hvty st m).convertedTo hresult hvty hto hlocal).bind
      hvalue (.emit_bind rfl (.emit_bind rfl ?_))
    exact (Fragment.runs_convert hconvert hty _ _ _).bind hconvert (Fragment.runs_pure _)
  | .binary note op lhs rhs, _, h, _, st, m => by
    rw [evaluate] at h ⊢
    rw [eval]
    obtain ⟨u, hl, h, -⟩ := Fragment.bind_eq_ok h
    obtain ⟨u', hr, -, -⟩ := Fragment.bind_eq_ok h
    obtain ⟨lty, hlhs⟩ := Fragment.succeeds_of_discard hl
    obtain ⟨rty, hrhs⟩ := Fragment.succeeds_of_discard hr
    obtain ⟨hlhs, hlty⟩ := Fragment.required_eq_ok hlhs
    obtain ⟨hrhs, hrty⟩ := Fragment.required_eq_ok hrhs
    refine (evaluate_runs harray R lhs hlhs hlty st m).required.discard.bind hl ?_
    refine (evaluate_runs harray R rhs hrhs hrty _ _).required.discard.bind hr ?_
    exact .emit_bind rfl (Fragment.runs_pure _)
  | .call note callee args, _, h, hty, st, m => by
    rw [evaluate] at h ⊢
    rw [eval]
    obtain ⟨u, hargs, h, -⟩ := Fragment.bind_eq_ok h
    cases h
    refine (evaluateArgs_runs harray R args hargs st m).bind hargs (.emit_bind ?_ (Fragment.runs_pure _))
    rw [Instr.exec_call (by rw [List.length_reverse, length_evalArgs]), List.reverse_reverse, hty]
    rfl
  | .new note cls args, _, h, _, st, m => by
    rw [evaluate] at h ⊢
    rw [eval]
    obtain ⟨u, hargs, -, -⟩ := Fragment.bind_eq_ok h
    refine (evaluateArgs_runs harray R args hargs st m).bind hargs (.emit_bind ?_ (Fragment.runs_pure _))
    rw [Instr.exec_new (by rw [List.length_reverse, length_evalArgs]), List.reverse_reverse]
  | .item note array key, _, h, _, st, m => by
    rw [evaluate] at h ⊢
    rw [eval]
    obtain ⟨u, harr, h, -⟩ := Fragment.bind_eq_ok h
    obtain ⟨u', hkey, -, -⟩ := Fragment.bind_eq_ok h
    obtain ⟨aty, hresult, haty, hto⟩ := Fragment.convertedTo_eq_ok harr
    obtain ⟨kty, hresult', hkty, hto'⟩ := Fragment.convertedTo_eq_ok hkey
    obtain rfl := eq_resultTy_of_evaluate harray hresult
    obtain rfl := eq_resultTy_of_evaluate harray hresult'
    refine ((evaluate_runs harray R array hresult haty st m).convertedTo hresult haty hto rfl).bind
      harr ?_
    refine ((evaluate_runs harray R key hresult' hkty _ _).convertedTo hresult' hkty hto' rfl).bind
      hkey ?_
    refine (Fragment.runs_callIntrinsic .arrayGet [_, _] rfl st _).bind rfl ?_
    exact Fragment.runs_pure _

/-- The code of arguments pushes their values, the last on top. -/
theorem evaluateArgs_runs (harray : p.localsArray = none) (R : Runtime V W) : (args : List Expr) →
    ∀ {u : Unit}, (p.evaluateArgs args).result = .ok u → ∀ (st : List V) (m : Memory V W),
      (p.evaluateArgs args).Runs R (st, m)
        ((p.evalArgs R args m).1.reverse ++ st, (p.evalArgs R args m).2)
  | [], _, _, st, m => Fragment.runs_pure _
  | arg :: args, _, h, st, m => by
    rw [evaluateArgs] at h ⊢
    rw [evalArgs]
    obtain ⟨u, harg, hargs, -⟩ := Fragment.bind_eq_ok h
    obtain ⟨ty, hresult⟩ := Fragment.succeeds_of_discard harg
    obtain ⟨hresult, hty⟩ := Fragment.required_eq_ok hresult
    refine (evaluate_runs harray R arg hresult hty st m).required.discard.bind harg ?_
    have hrest := evaluateArgs_runs harray R args hargs ((p.eval R arg m).1 :: st) (p.eval R arg m).2
    rw [List.append_cons, ← List.reverse_cons] at hrest
    exact hrest

end

/-- The code of an expression of type `void` does what the expression does, if it gets through on an
empty stack.  An assignment to a variable of type `void` does not: nothing is left to store. -/
theorem eq_of_evaluate_runs (harray : p.localsArray = none) {e : Expr} {ty : Ty}
    (h : (p.evaluate e).result = .ok ty) (hty : ty.isVoid = true) {m : Memory V W}
    {s : List V × Memory V W} (hruns : (p.evaluate e).Runs R ([], m) s) :
    s = ([], (p.eval R e m).2) := by
  cases e with
  | assign note target value =>
    obtain ⟨rfl, v, hv, ⟨u, hvalue⟩, heq⟩ := evaluate_assign harray h
    rw [heq, hty, if_pos rfl] at hruns
    obtain ⟨vty, hresult, hvty, hto⟩ := Fragment.convertedTo_eq_ok hvalue
    obtain rfl := eq_resultTy_of_evaluate harray hresult
    have hvalueRuns := evaluate_runs harray R value hresult hvty [] m
    by_cases hlocal : v.ty.isVoid = true
    · have hdrop : ((p.evaluate value).convertedTo v.ty .assigned).Runs R ([], m)
          ([], (p.eval R value m).2) :=
        hvalueRuns.required.bind (Fragment.required_of_ok hresult hvty)
          (Fragment.runs_convert_void hvty hlocal _ _ _)
      obtain ⟨s₁, hfirst, hstore⟩ := hruns.of_bind hvalue
      rw [hfirst.unique hdrop] at hstore
      obtain ⟨s₂, hstore, -⟩ := hstore.of_bind rfl
      cases hstore
    · have hlocal : v.ty.isVoid = false := Bool.eq_false_iff.2 hlocal
      refine hruns.unique ?_
      rw [eval, hty, localTy_of_getLocal hv]
      exact (hvalueRuns.convertedTo hresult hvty hto hlocal).bind hvalue
        (.emit_bind rfl (Fragment.runs_pure _))
  | call note callee args =>
    rw [evaluate] at h hruns
    obtain ⟨u, hargs, h, -⟩ := Fragment.bind_eq_ok h
    cases h
    refine hruns.unique ?_
    refine (evaluateArgs_runs harray R args hargs [] m).bind hargs (.emit_bind ?_ (Fragment.runs_pure _))
    rw [Instr.exec_call (by rw [List.length_reverse, length_evalArgs]), List.reverse_reverse, hty, eval]
    rfl
  | literal | var | binary | new | item =>
    obtain rfl := eq_resultTy_of_evaluate harray h
    exact absurd (Ty.isVoid_iff.1 hty) (Ty.orValue_ne_void _)

/-- The code of a value does what its expression does, and pushes the value as one of the type. -/
theorem value_runs (harray : p.localsArray = none) {e : Expr} {ty : Ty} {use : ValueUse}
    (h : (p.value e ty use).Succeeds) (hty : ty.isVoid = false) (st : List V) (m : Memory V W) :
    (p.value e ty use).Runs R (st, m) ((p.evalAs R e ty m).1 :: st, (p.evalAs R e ty m).2) := by
  obtain ⟨u, h⟩ := h
  obtain ⟨source, hresult, hsource, hto⟩ := Fragment.convertedTo_eq_ok h
  obtain rfl := eq_resultTy_of_evaluate harray hresult
  exact (evaluate_runs harray R e hresult hsource st m).convertedTo hresult hsource hto hty

/-- The code of an expression on its own, where it gets through. -/
theorem eq_of_evaluate (harray : p.localsArray = none) {e : Expr} {ty : Ty}
    (h : (p.evaluate e).result = .ok ty) {m : Memory V W} {s : List V × Memory V W}
    (hruns : (p.evaluate e).Runs R ([], m) s) :
    s = (if ty.isVoid then [] else [(p.eval R e m).1], (p.eval R e m).2) := by
  by_cases hty : ty.isVoid = true
  · rw [if_pos hty]
    exact eq_of_evaluate_runs harray h hty hruns
  · rw [if_neg hty]
    exact hruns.unique (evaluate_runs harray R e h (Bool.eq_false_iff.2 hty) [] m)

/-! ## Statements -/

variable {m : Memory V W}

theorem eq_of_discardValue (harray : p.localsArray = none) {e : Expr}
    (h : (p.discardValue e).Succeeds) {s : List V × Memory V W}
    (hruns : (p.discardValue e).Runs R ([], m) s) : s = ([], (p.eval R e m).2) := by
  obtain ⟨u, h⟩ := h
  obtain ⟨ty, hresult, -, -⟩ := Fragment.bind_eq_ok h
  obtain ⟨s₁, hfirst, hrest⟩ := hruns.of_bind hresult
  rw [eq_of_evaluate harray hresult hfirst] at hrest
  by_cases hty : ty.isVoid = true
  · rw [if_pos hty, if_pos hty] at hrest
    exact hrest.unique (Fragment.runs_pure ())
  · rw [if_neg hty, if_neg hty] at hrest
    exact hrest.unique (Fragment.runs_emit rfl)

theorem bindGlobal_runs (harray : p.localsArray = none) {id : LocalId}
    (h : (p.bindGlobal id).Succeeds) :
    (p.bindGlobal id).Runs R ([], m) ([], p.execBindGlobal R id m) := by
  obtain ⟨u, h⟩ := h
  obtain ⟨v, hv, h, -⟩ := Fragment.bind_eq_ok h
  obtain ⟨place, hplace, -, -⟩ := Fragment.bind_eq_ok h
  have hv : p.getLocal id = .ok v := hv
  have hplace : p.place id = .ok place := hplace
  obtain rfl := eq_slot_of_place harray hplace
  unfold execBindGlobal
  rw [get?_of_getLocal hv]
  refine Fragment.runs_lift_bind hv (Fragment.runs_lift_bind hplace ?_)
  refine (Fragment.runs_pure ()).bind rfl ?_
  exact (Fragment.runs_callWithName .globalRef rfl v.name [] m).bind rfl (Fragment.runs_emit rfl)

theorem defineConst_runs (harray : p.localsArray = none) {name : Name} {e : Expr}
    (h : (p.defineConst name e).Succeeds) :
    (p.defineConst name e).Runs R ([], m) ([], p.execDefineConst R name e m) := by
  obtain ⟨u, h⟩ := h
  obtain ⟨-, -, h, -⟩ := Fragment.bind_eq_ok h
  obtain ⟨-, -, h, -⟩ := Fragment.bind_eq_ok h
  obtain ⟨u', hvalue, -, -⟩ := Fragment.bind_eq_ok h
  refine .emit_bind rfl (.emit_bind rfl ?_)
  refine (value_runs harray ⟨u', hvalue⟩ rfl _ m).bind hvalue ?_
  exact Fragment.runs_callIntrinsic .defineConstant [_, _, _] rfl [] _

theorem bindHolder_runs (harray : p.localsArray = none) {d : StaticDecl}
    (h : (p.bindHolder d.target d.key).Succeeds) :
    (p.bindHolder d.target d.key).Runs R ([], m) ([], (execBindHolder R d m).2) := by
  obtain ⟨u, h⟩ := h
  obtain ⟨place, hplace, -, -⟩ := Fragment.bind_eq_ok h
  have hplace : p.place d.target = .ok place := hplace
  obtain rfl := eq_slot_of_place harray hplace
  refine Fragment.runs_lift_bind hplace ((Fragment.runs_pure ()).bind rfl ?_)
  exact (Fragment.runs_callWithName .staticHolder rfl d.key [] m).bind rfl (Fragment.runs_emit rfl)

theorem unset_runs (harray : p.localsArray = none) {target : UnsetTarget}
    (h : (p.unset target).Succeeds) :
    (p.unset target).Runs R ([], m) ([], p.execUnset R target m) := by
  obtain ⟨u, h⟩ := h
  cases target with
  | var id =>
    obtain ⟨place, hplace, -, -⟩ := Fragment.bind_eq_ok h
    have hplace : p.place id = .ok place := hplace
    obtain rfl := eq_slot_of_place harray hplace
    exact Fragment.runs_lift_bind hplace (Fragment.runs_emit rfl)
  | item array key =>
    obtain ⟨u', harr, h, -⟩ := Fragment.bind_eq_ok h
    obtain ⟨u'', hkey, -, -⟩ := Fragment.bind_eq_ok h
    refine (value_runs harray ⟨u', harr⟩ rfl [] m).bind harr ?_
    refine (value_runs harray ⟨u'', hkey⟩ rfl _ _).bind hkey ?_
    exact Fragment.runs_callIntrinsic .removeKey [_, _] rfl [] _
  | property inst name =>
    obtain ⟨u', hinst, -, -⟩ := Fragment.bind_eq_ok h
    refine (value_runs harray ⟨u', hinst⟩ rfl [] m).bind hinst (.emit_bind rfl ?_)
    exact Fragment.runs_callIntrinsic .unsetProperty [_, _] rfl [] _

theorem publish_runs (harray : p.localsArray = none) {y : Yield} (h : (p.publish y).Succeeds) :
    (p.publish y).Runs R ([], m) ([], p.execPublish R y m) := by
  obtain ⟨u, h⟩ := h
  obtain ⟨u', hvalue, h, -⟩ := Fragment.bind_eq_ok h
  refine (value_runs harray ⟨u', hvalue⟩ rfl [] m).bind hvalue ?_
  unfold execPublish
  cases hkey : y.key with
  | some key =>
    rw [hkey] at h
    obtain ⟨u'', hvalue', -, -⟩ := Fragment.bind_eq_ok h
    refine (value_runs harray ⟨u'', hvalue'⟩ rfl _ _).bind hvalue' ?_
    cases y.isDelegated with
    | true => exact Fragment.runs_callIntrinsic .setGeneratorCurrentDelegated [_, _] rfl [] _
    | false => exact Fragment.runs_callIntrinsic .setGeneratorCurrentWithKey [_, _] rfl [] _
  | none =>
    cases y.isDelegated with
    | true =>
      refine .emit_bind rfl ?_
      exact Fragment.runs_callIntrinsic .setGeneratorCurrentDelegated [_, _] rfl [] _
    | false => exact Fragment.runs_callIntrinsic .setGeneratorCurrent [_] rfl [] _

/-! ## First values -/

/-- What is written to give a variable with a slot its first value. -/
theorem initVar_eq (harray : p.localsArray = none) {v : Local} {place : Place}
    (h : p.place v.id = .ok place) :
    p.initVar v = match v.ty.default? with
      | some value =>
        if v.needsInit then do
          Fragment.literal value
          Fragment.emit (.storeLocal v.id)
        else pure ()
      | none => pure () := by
  obtain rfl := eq_slot_of_place harray h
  unfold initVar
  rw [harray, if_neg nofun]
  have hlift : (liftM (p.place v.id) : Fragment Place) = .ofExcept (p.place v.id) := rfl
  rw [hlift, Fragment.bind_of_ok (a := .slot v.id) h]
  rfl

theorem initVar_runs (harray : p.localsArray = none) {v : Local} (h : (p.initVar v).Succeeds) :
    (p.initVar v).Runs R ([], m) ([], m.initVar R v) := by
  obtain ⟨u, h⟩ := h
  unfold initVar at h
  rw [harray, if_neg nofun] at h
  obtain ⟨place, hplace, -, -⟩ := Fragment.bind_eq_ok h
  rw [initVar_eq harray hplace]
  unfold Memory.initVar Runtime.default?
  cases v.ty.default? with
  | none => exact Fragment.runs_pure ()
  | some value =>
    by_cases hinit : v.needsInit = true
    · simp only [Option.map_some, if_pos hinit]
      exact (Fragment.runs_literal value [] m).bind rfl (Fragment.runs_emit rfl)
    · simp only [Option.map_some, if_neg hinit]
      exact Fragment.runs_pure ()

theorem forM_initVar_runs (harray : p.localsArray = none) {vs : List Local}
    (h : (vs.forM p.initVar).Succeeds) :
    (vs.forM p.initVar).Runs R ([], m) ([], vs.foldl (Memory.initVar R) m) := by
  induction vs generalizing m with
  | nil => exact Fragment.runs_pure ()
  | cons v vs ih =>
    have h : (p.initVar v >>= fun _ => vs.forM p.initVar).Succeeds := h
    obtain ⟨⟨u, hfirst⟩, hrest⟩ := Fragment.succeeds_bind_unit_iff.1 h
    exact (initVar_runs harray ⟨u, hfirst⟩).bind hfirst (ih hrest)

theorem initLocals_runs (harray : p.localsArray = none) (h : p.initLocals.Succeeds) :
    p.initLocals.Runs R ([], m)
      ([], if p.localsInitialized then m else p.locals.toList.foldl (Memory.initVar R) m) := by
  unfold initLocals at h ⊢
  by_cases hinit : p.localsInitialized = true
  · rw [if_pos hinit, if_pos hinit]
    exact Fragment.runs_pure ()
  · rw [if_neg hinit] at h
    rw [if_neg hinit, if_neg hinit]
    have hnone : p.initLocalsArray = pure () := by
      unfold initLocalsArray
      rw [harray]
    rw [hnone, pure_bind] at h ⊢
    exact forM_initVar_runs harray h

end Procedure

end StackCode
