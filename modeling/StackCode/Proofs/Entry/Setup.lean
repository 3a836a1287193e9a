import StackCode.Proofs.Storage.Statics
import StackCode.Proofs.Storage.Uses

/-!
# The setup

The setup registers a script, creates the locals array, and gives the variables their first values in
the order of their declaration.  What each of these comes to, where the setup does not stop.
-/

namespace StackCode

namespace Fragment

/-- A traversal that did not stop has written what it wrote for each element. -/
theorem forM_eq_ok {α : Type} {xs : List α} {f : α → Fragment Unit} {u : Unit}
    (h : (xs.forM f).result = .ok u) :
    (∀ a ∈ xs, (f a).result = .ok ()) ∧ (xs.forM f).code = xs.flatMap fun a => (f a).code := by
  induction xs with
  | nil => exact ⟨nofun, rfl⟩
  | cons a xs ih =>
    obtain ⟨_, hfirst, hrest, hcode⟩ := bind_eq_ok (x := f a) (f := fun _ => xs.forM f) h
    obtain ⟨hall, heq⟩ := ih hrest
    exact ⟨List.forall_mem_cons.2 ⟨hfirst, hall⟩, hcode.trans (by rw [heq, List.flatMap_cons])⟩

/-- The conversion of a value into a value. -/
theorem code_convert {source target : Ty} (hsource : source ≠ .void) (htarget : target ≠ .void) :
    (convert source target).code = source.cast target := by
  unfold Ty.cast
  by_cases h : source = target
  · rw [if_pos h]
    unfold convert
    rw [if_pos h]
    rfl
  · rw [if_neg h, convert_of_ne hsource htarget h]
    rfl

end Fragment

/-- The code that copies the value of a parameter into the entry of the array under its name. -/
def Local.copyCode (array : LocalId) (v : Local) : List Instr :=
  [.loadLocal array, .constStr v.name, .loadLocal v.id] ++
    (v.ty.cast .value ++ [.callIntrinsic .arraySet])

namespace Procedure

variable {p : Procedure} {array : LocalId} {v : Local}

/-- The code that registers a script. -/
def registrationCode (p : Procedure) : List Instr :=
  match p.kind with
  | .scriptMain script => (Fragment.callWithName .onInclude script).code
  | _ => []

/-- Behind the registration, the setup is what the variables get. -/
theorem setup_eq (p : Procedure) : p.setup =
    { code := p.registrationCode ++ p.initLocals.code, result := p.initLocals.result } := by
  unfold setup registrationCode
  cases p.kind with
  | function | method => rfl
  | scriptMain script =>
    exact Fragment.bind_of_ok (x := Fragment.callWithName .onInclude script) rfl fun _ => p.initLocals

/-- The first values of the variables follow the locals array. -/
theorem initLocals_eq_ok (hinit : p.localsInitialized = false) {u : Unit}
    (h : p.initLocals.result = .ok u) :
    p.initLocalsArray.result = .ok () ∧ (∀ v ∈ p.locals.toList, (p.initVar v).result = .ok ()) ∧
      p.initLocals.code =
        p.initLocalsArray.code ++ p.locals.toList.flatMap fun v => (p.initVar v).code := by
  have heq : p.initLocals = (p.initLocalsArray >>= fun _ => p.locals.toList.forM p.initVar) := by
    unfold initLocals
    rw [hinit, if_neg Bool.false_ne_true]
  rw [heq] at h ⊢
  obtain ⟨_, harray, hvars, hcode⟩ := Fragment.bind_eq_ok h
  obtain ⟨hall, hflat⟩ := Fragment.forM_eq_ok hvars
  exact ⟨harray, hall, hcode.trans (by rw [hflat])⟩

/-- The creation of the locals array. -/
theorem initLocalsArray_eq_ok (harray : p.localsArray = some array) {u : Unit}
    (h : p.initLocalsArray.result = .ok u) : p.HasSlot array ∧ p.initLocalsArray.code =
      [.constInt p.locals.size, .callIntrinsic .newLocalsArray, .storeLocal array] := by
  unfold initLocalsArray at h ⊢
  rw [harray] at h ⊢
  simp only at h ⊢
  obtain ⟨_, hlook, -, hcode⟩ := Fragment.bind_eq_ok h
  obtain ⟨w, hw, -, hnone⟩ := Fragment.bind_eq_ok hlook
  refine ⟨hasSlot_of_get? (getLocal_eq_ok_iff.1 hw) fun other hother =>
    .inl (Option.some_inj.1 (hother.symm.trans harray)), hcode.trans ?_⟩
  rw [show (discard (liftM (p.getLocal array)) : Fragment Unit).code = [] from hnone]
  rfl

/-- What a variable gets, by its place. -/
theorem initVar_of_place (hself : p.localsArray ≠ some v.id) {place : Place}
    (hplace : p.place v.id = .ok place) : p.initVar v =
      match place with
      | .entry array key ty =>
        if v.kind = .parameter then
          (Place.entry array key ty).pushKey >>= fun _ => Fragment.emit (.loadLocal v.id) >>= fun _ =>
            (Place.entry array key ty).store
        else pure ()
      | .slot id =>
        match v.ty.default? with
        | some value =>
          if v.needsInit then Fragment.literal value >>= fun _ => Fragment.emit (.storeLocal id)
          else pure ()
        | none => pure () := by
  unfold initVar
  rw [if_neg hself, show (liftM (p.place v.id) : Fragment Place) = .ofExcept (p.place v.id) from rfl,
    Fragment.bind_of_ok (x := .ofExcept (p.place v.id)) hplace]
  cases place <;> rfl

/-- A variable that got what it gets has a place. -/
theorem exists_place_of_initVar (hself : p.localsArray ≠ some v.id) {u : Unit}
    (h : (p.initVar v).result = .ok u) : ∃ place, p.place v.id = .ok place := by
  unfold initVar at h
  rw [if_neg hself] at h
  obtain ⟨place, hplace, -⟩ := Fragment.bind_eq_ok h
  exact ⟨place, hplace⟩

/-- A named parameter is copied into the array. -/
theorem initVar_of_parameter (hv : p.locals.get? v.id = some v) (harray : p.localsArray = some array)
    (hne : array ≠ v.id) (hnamed : v.isNamed = true) (hkind : v.kind = .parameter) {u : Unit}
    (h : (p.initVar v).result = .ok u) : v.ty ≠ .void ∧ (p.initVar v).code = v.copyCode array := by
  have hself : p.localsArray ≠ some v.id := fun heq => hne (Option.some_inj.1 (harray.symm.trans heq))
  obtain ⟨place, hplace⟩ := exists_place_of_initVar hself h
  obtain rfl : place = .entry array v.name v.ty := by
    have hentry := place_of_named hv harray hne hnamed
    rw [hplace] at hentry
    cases hget : p.getLocal array with
    | error e =>
      rw [hget] at hentry
      cases hentry
    | ok w =>
      rw [hget] at hentry
      exact Except.ok.inj hentry
  rw [initVar_of_place hself hplace] at h ⊢
  simp only [if_pos hkind] at h ⊢
  obtain ⟨_, -, h₁, hcode₁⟩ := Fragment.bind_eq_ok h
  obtain ⟨_, -, h₂, hcode₂⟩ := Fragment.bind_eq_ok h₁
  obtain ⟨_, hconvert, -, hcode₃⟩ :=
    Fragment.bind_eq_ok (x := Fragment.convert v.ty .value)
      (f := fun _ => Fragment.callIntrinsic .arraySet) h₂
  -- only a value can be converted into one
  have hvoid : v.ty ≠ .void := by
    intro hty
    rw [hty] at hconvert
    cases hconvert
  have hvalue : Ty.value ≠ .void := nofun
  refine ⟨hvoid, ?_⟩
  rw [hcode₁, hcode₂, show (Place.entry array v.name v.ty).store.code = _ from hcode₃,
    Fragment.code_convert hvoid hvalue]
  rfl

end Procedure

end StackCode
