import StackCode.LowerError

/-!
# Code fragments

A fragment is straight-line code together with what its writer wants to pass on, or with the reason
why writing stopped.  What has been written before that stays written.

Fragments form a monad: one after the other their code is joined, and after one that stopped nothing
follows.
-/

namespace StackCode

/-- Straight-line code and the answer of the one who wrote it. -/
structure Fragment (α : Type) where
  code : List Instr
  result : Except LowerError α

namespace Fragment

/-- Continues a fragment that did not stop. -/
def andThen {α β : Type} (x : Fragment α) (f : α → Fragment β) : Fragment β :=
  match x.result with
  | .ok a => { code := x.code ++ (f a).code, result := (f a).result }
  | .error e => { code := x.code, result := .error e }

instance : Monad Fragment where
  pure a := { code := [], result := .ok a }
  bind := andThen

/-- Writes one instruction. -/
def emit (i : Instr) : Fragment Unit := { code := [i], result := .ok () }

/-- Writes the call of an intrinsic. -/
def callIntrinsic (i : Intrinsic) : Fragment Unit := emit (.callIntrinsic i)

/-- Stops writing. -/
def fail {α : Type} (e : LowerError) : Fragment α := { code := [], result := .error e }

/-- Writes nothing and passes the result on. -/
def ofExcept {α : Type} (r : Except LowerError α) : Fragment α := { code := [], result := r }

instance : MonadLift (Except LowerError) Fragment := ⟨ofExcept⟩

instance : LawfulMonad Fragment := LawfulMonad.mk' Fragment
  (by
    rintro α ⟨code, result⟩
    cases result with
    | ok a => simp only [Functor.map, andThen, Function.comp, id, List.append_nil]
    | error e => rfl)
  (by
    intro α β a f
    rfl)
  (by
    rintro α β γ ⟨code, result⟩ f g
    cases result with
    | error e => rfl
    | ok a =>
      simp only [Bind.bind, andThen]
      cases (f a).result with
      | error e => rfl
      | ok b => simp only [List.append_assoc])

/-! ## Code and result of the operations -/

section
variable {α β : Type}

@[simp] theorem code_pure (a : α) : (pure a : Fragment α).code = [] := rfl

@[simp] theorem result_pure (a : α) : (pure a : Fragment α).result = .ok a := rfl

@[simp] theorem code_emit (i : Instr) : (emit i).code = [i] := rfl

@[simp] theorem result_emit (i : Instr) : (emit i).result = .ok () := rfl

@[simp] theorem code_fail (e : LowerError) : (fail e : Fragment α).code = [] := rfl

@[simp] theorem result_fail (e : LowerError) : (fail e : Fragment α).result = .error e := rfl

@[simp] theorem code_ofExcept (r : Except LowerError α) : (ofExcept r).code = [] := rfl

@[simp] theorem result_ofExcept (r : Except LowerError α) : (ofExcept r).result = r := rfl

theorem bind_of_ok {x : Fragment α} {a : α} (h : x.result = .ok a) (f : α → Fragment β) :
    x >>= f = { code := x.code ++ (f a).code, result := (f a).result } := by
  change x.andThen f = _
  simp only [andThen, h]

theorem bind_of_error {x : Fragment α} {e : LowerError} (h : x.result = .error e)
    (f : α → Fragment β) : x >>= f = { code := x.code, result := .error e } := by
  change x.andThen f = _
  simp only [andThen, h]

@[simp] theorem fail_bind (e : LowerError) (f : α → Fragment β) : fail e >>= f = fail e :=
  bind_of_error (result_fail e) f

@[simp] theorem code_emit_bind (i : Instr) (f : Unit → Fragment β) :
    (emit i >>= f).code = i :: (f ()).code := by
  rw [bind_of_ok (result_emit i)]; rfl

@[simp] theorem result_emit_bind (i : Instr) (f : Unit → Fragment β) :
    (emit i >>= f).result = (f ()).result := by
  rw [bind_of_ok (result_emit i)]

/-- A fragment that did not stop is made of two that did not. -/
theorem bind_eq_ok {x : Fragment α} {f : α → Fragment β} {b : β}
    (h : (x >>= f).result = .ok b) :
    ∃ a, x.result = .ok a ∧ (f a).result = .ok b ∧ (x >>= f).code = x.code ++ (f a).code := by
  cases hx : x.result with
  | error e => rw [bind_of_error hx] at h; cases h
  | ok a => rw [bind_of_ok hx] at h ⊢; exact ⟨a, rfl, h, rfl⟩

end

end Fragment

end StackCode
