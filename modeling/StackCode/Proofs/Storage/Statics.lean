import StackCode.Proofs.Layout.Allots
import StackCode.Proofs.Storage.Alike
import StackCode.Proofs.Storage.Reached

/-!
# The initialization of static storage

A statement that binds a variable to static storage asks for the storage once, stores it in the place of
the variable, and reads it from there for each call that works on it.  Its initializer is executed if
and only if the storage has not been initialized, and the storage then gets its value.  In a slot, and
for a dynamically typed variable, the storage is kept as it is.  In any other entry of the locals array
it is converted as if it were a value of the type of the variable, there and back, so that the calls may
get something else.  Main statements:
`Procedure.static_initialized`, and `Procedure.visits_converted`, where they get something else.
-/

namespace StackCode

variable {V W : Type} {R : Runtime V W}

/-! ## The code -/

/-- The conversion of a value into one of another type. -/
def Ty.cast (source target : Ty) : List Instr :=
  if source = target then [] else [.convert source target]

theorem Fragment.convert_of_ne {source target : Ty} (hsource : source ≠ .void)
    (htarget : target ≠ .void) (h : source ≠ target) :
    convert source target = emit (.convert source target) := by
  unfold convert
  rw [if_neg h, Ty.isVoid_of_ne hsource, Ty.isVoid_of_ne htarget]
  rfl

/-- Binds the place to the storage under a key, and asks whether that has been initialized. -/
def Place.askCode (name : Name) : Place → List Instr
  | .slot id => [.loadContext, .constStr name, .callIntrinsic .staticHolder, .storeLocal id,
      .loadLocal id, .callIntrinsic .staticIsInitialized]
  | .entry array key ty =>
    [.loadLocal array, .constStr key, .loadContext, .constStr name, .callIntrinsic .staticHolder] ++
      (ty.cast .value ++ ([.callIntrinsic .arraySet, .loadLocal array, .constStr key,
        .callIntrinsic .arrayGet] ++ (Ty.value.cast ty ++ [.callIntrinsic .staticIsInitialized])))

namespace Procedure

variable (p : Procedure) (d : StaticDecl)

/-- Binds the variable, and asks whether the storage has been initialized. -/
def askStatic : Fragment Unit := do
  p.bindHolder d.target d.key
  p.loadVar d.target
  Fragment.callIntrinsic .staticIsInitialized

/-- Initializes the storage that the variable is bound to. -/
def initStatic (init : Expr) : Fragment Unit := do
  p.loadVar d.target
  p.value init .value .staticInitializer
  Fragment.callIntrinsic .staticInitialize

variable {p d} {place : Place} {init : Expr}

theorem isPlain_askStatic : (p.askStatic d).IsPlain :=
  (p.isPlain_bindHolder d.target d.key).bind fun _ => (p.isPlain_loadVar d.target).bind fun _ =>
    Fragment.isPlain_callIntrinsic _

theorem isPlain_initStatic : (p.initStatic d init).IsPlain :=
  (p.isPlain_loadVar d.target).bind fun _ => (p.isPlain_value init _ _).bind fun _ =>
    Fragment.isPlain_callIntrinsic _

theorem askStatic_code (hplace : p.place d.target = .ok place) (hvalue : place.HoldsValue) :
    (p.askStatic d).code = place.askCode d.key := by
  have hlift {α : Type} (f : Place → Fragment α) : (liftM (p.place d.target) >>= f) = f place :=
    Fragment.bind_of_ok (x := .ofExcept (p.place d.target)) hplace f
  unfold askStatic bindHolder loadVar
  rw [hlift, hlift]
  cases place with
  | slot id => rfl
  | entry array key ty =>
    by_cases hty : ty = .value
    · subst hty
      rfl
    · have hne : Ty.value ≠ .void := nofun
      unfold Place.store Place.load Place.askCode Ty.cast
      simp only [Fragment.convert_of_ne hvalue hne hty, Fragment.convert_of_ne hne hvalue (Ne.symm hty),
        if_neg hty, if_neg (Ne.symm hty)]
      rfl

/-- Only where the variable is bound, the storage is asked for. -/
theorem ne_staticHolder_of_mem {i : Instr} (hi : i ∈ (p.initStatic d init).code) :
    i ≠ .callIntrinsic .staticHolder := by
  have hoperand : ∀ j ∈ (p.initStatic d init).code,
      j.isOperand = true ∨ j = .callIntrinsic .staticInitialize :=
    Fragment.forall_code_bind (fun j hj => .inl (p.isOperand_loadVar d.target j hj)) fun _ =>
      Fragment.forall_code_bind (fun j hj => .inl (p.isOperand_value init _ _ j hj)) fun _ j hj =>
        .inr (List.mem_singleton.1 hj)
  rintro rfl
  rcases hoperand _ hi with h | h
  · cases h
  · cases h

/-- The code of the statement, if control gets to it. -/
def staticCode (p : Procedure) (d : StaticDecl) (init : Expr) (place : Place) (done : Label) :
    List Instr :=
  place.askCode d.key ++ .branchIf true done :: ((p.initStatic d init).code ++ [.markLabel done])

end Procedure

/-! ## What it does -/

/-- The storage under a key. -/
def Memory.holder (R : Runtime V W) (key : Name) (m : Memory V W) : V :=
  (m.ask R .staticHolder [R.context, R.literal (.str key)]).1

/-- The locals array is a map, and asking about static storage does not change it. -/
structure Runtime.HoldsAsked (R : Runtime V W) (entry : W → V → V → V) : Prop
    extends R.HoldsEntries entry where
  asks_keeps : ∀ x w,
    entry (R.perform (.call (.intrinsic .staticIsInitialized)) [x] w).2 = entry w

namespace Place

/-- What is fetched from the place once it is bound to the storage under a key. -/
def bound (R : Runtime V W) (key : Name) (m : Memory V W) (place : Place) : V × Memory V W :=
  place.read R (place.bind R .staticHolder key m)

/-- Whether that has been initialized. -/
def askBound (R : Runtime V W) (key : Name) (m : Memory V W) (place : Place) : V × Memory V W :=
  (place.bound R key m).2.ask R .staticIsInitialized [(place.bound R key m).1]

/-- What is fetched from the place again if it has not been. -/
def rebound (R : Runtime V W) (key : Name) (m : Memory V W) (place : Place) : V × Memory V W :=
  place.read R (place.askBound R key m).2

variable {place : Place} {entry : W → V → V → V}

/-- Both times, what comes back of the storage is fetched. -/
theorem bound_returns (h : R.HoldsAsked entry) (key : Name) (m : Memory V W) :
    place.Returns R (m.holder R key) (place.bound R key m).1 ∧
      place.Returns R (m.holder R key) (place.rebound R key m).1 := by
  have hmap := h.toHoldsEntries
  have hbinds : place.Stores R entry (m.holder R key) (place.bind R .staticHolder key m) :=
    stores_bind hmap .staticHolder key m
  obtain ⟨hfirst, hstores⟩ := hbinds.returns hmap
  exact ⟨hfirst, ((hstores.tell (h.asks_keeps _)).returns hmap).1⟩

/-- From a slot, the storage itself is fetched. -/
theorem bound_slot (id : LocalId) (key : Name) (m : Memory V W) :
    ((Place.slot id).bound R key m).1 = m.holder R key ∧
      ((Place.slot id).rebound R key m).1 = m.holder R key :=
  ⟨Function.update_self .., Function.update_self ..⟩

/-- So it is from an entry if the variable is dynamically typed. -/
theorem bound_dynamic (h : R.HoldsAsked entry) (array : LocalId) (name key : Name) (m : Memory V W) :
    ((Place.entry array name .value).bound R key m).1 = m.holder R key ∧
      ((Place.entry array name .value).rebound R key m).1 = m.holder R key := by
  obtain ⟨hfirst, hagain⟩ := bound_returns h key m
  exact ⟨hfirst.eq (R.roundTrips_value _), hagain.eq (R.roundTrips_value _)⟩

end Place

namespace Procedure

/-- How the statement is executed from here, with its variable in this place. -/
structure StaticRun (p : Procedure) (R : Runtime V W) (code : List Instr) (d : StaticDecl) (init : Expr)
    (place : Place) (done : Label) (c : Control V) (s : Kept V W) : Prop where
  isEmpty : c.stack = []
  /-- The place is bound to the storage, and what is in the place asked whether it is initialized. -/
  asks : Run.after (R.step code) (.on c s) (place.askCode d.key).length =
    .on { c with pc := c.pc + (place.askCode d.key).length
                 stack := [(place.askBound R d.key s.memory).1] }
      { s with memory := (place.askBound R d.key s.memory).2 }
  /-- If it has been, control goes straight to the end. -/
  skips : R.isTrue (place.askBound R d.key s.memory).1 = true →
    Run.after (R.step code) (.on c s) ((place.askCode d.key).length + 2) =
      .on { c with pc := c.pc + (p.staticCode d init place done).length }
        { s with memory := (place.askBound R d.key s.memory).2 }
  /-- If it has not been, what is in the place gets the value of the initializer. -/
  initializes : R.isTrue (place.askBound R d.key s.memory).1 = false → ∃ ty x m,
    (p.evaluate init).Finishes R ty ([], (place.rebound R d.key s.memory).2) ([x], m) ∧
      ty.isVoid = false ∧
      Run.after (R.step code) (.on c s) (p.staticCode d init place done).length =
        .on { c with pc := c.pc + (p.staticCode d init place done).length }
          { s with memory := (m.coerce R ty .value x).2.tell R .staticInitialize
                     [(place.rebound R d.key s.memory).1, (m.coerce R ty .value x).1] }
  /-- From a slot, the storage itself is fetched. -/
  slot : ∀ id, place = .slot id → (place.bound R d.key s.memory).1 = s.memory.holder R d.key ∧
    (place.rebound R d.key s.memory).1 = s.memory.holder R d.key
  /-- So it is from the entry of a dynamically typed variable. -/
  dynamic : ∀ entry array name, R.HoldsAsked entry → place = .entry array name .value →
    (place.bound R d.key s.memory).1 = s.memory.holder R d.key ∧
      (place.rebound R d.key s.memory).1 = s.memory.holder R d.key
  /-- From any entry, what the conversion there and back makes of it. -/
  entry : ∀ entry, R.HoldsAsked entry →
    place.Returns R (s.memory.holder R d.key) (place.bound R d.key s.memory).1 ∧
      place.Returns R (s.memory.holder R d.key) (place.rebound R d.key s.memory).1

variable {p : Procedure} {d : StaticDecl} {place : Place} {init : Expr} {done : Label}
  {code post : List Instr}

theorem askStatic_finishes (hplace : p.place d.target = .ok place) (hvalue : place.HoldsValue)
    (st : List V) (m : Memory V W) : (p.askStatic d).Finishes R () (st, m)
      ((place.askBound R d.key m).1 :: st, (place.askBound R d.key m).2) :=
  (bindHolder_finishes hplace hvalue d.key st m).bind ((loadVar_finishes hplace hvalue st _).bind
    (Fragment.finishes_callIntrinsic .staticIsInitialized [_] rfl st _))

theorem initStatic_finishes (hplace : p.place d.target = .ok place) (hvalue : place.HoldsValue)
    (hresult : (p.value init .value .staticInitializer).result = .ok ())
    (hdepth : Instr.depthThrough (p.value init .value .staticInitializer).code 1 = .ok 2)
    (m : Memory V W) : let (y, m₀) := place.read R m
    ∃ ty x m₁, (p.evaluate init).Finishes R ty ([], m₀) ([x], m₁) ∧ ty.isVoid = false ∧
      (p.initStatic d init).Finishes R () ([], m) ([], (m₁.coerce R ty .value x).2.tell R
        .staticInitialize [y, (m₁.coerce R ty .value x).1]) := by
  obtain ⟨ty, x, m₁, hevaluate, hty, hvalues⟩ :=
    value_finishes (R := R) hresult rfl hdepth (place.read R m).2
  refine ⟨ty, x, m₁, hevaluate, hty, ?_⟩
  refine (loadVar_finishes hplace hvalue [] m).bind ((hvalues _).bind ?_)
  exact Fragment.finishes_callIntrinsic .staticInitialize [_, (place.read R m).1] rfl [] _

/-- The initializer leaves one value more than it finds, for the call takes it and the storage. -/
theorem init_depth (hplace : p.place d.target = .ok place) (hvalue : place.HoldsValue)
    (hinits : (p.initStatic d init).result = .ok ()) {k : Nat}
    (hdepth : Instr.depthThrough (p.initStatic d init).code 0 = .ok k) :
    (p.value init .value .staticInitializer).result = .ok () ∧
      Instr.depthThrough (p.value init .value .staticInitializer).code 1 = .ok 2 := by
  have hload := loadVar_finishes (R := Runtime.ints) hplace hvalue [] (inState 0).memory
  obtain ⟨_, -, hvalues, hcode⟩ := Fragment.bind_eq_ok hinits
  obtain ⟨_, hresult, -, hcode'⟩ := Fragment.bind_eq_ok hvalues
  rw [show (p.initStatic d init).code = _ from hcode, hcode'] at hdepth
  obtain ⟨d₁, hloaded, hdepth⟩ := Instr.depthThrough_append_iff.1 hdepth
  obtain ⟨d₂, hvalued, hcalled⟩ := Instr.depthThrough_append_iff.1 hdepth
  obtain rfl : d₁ = 1 := by
    have hthrough := Instr.depthThrough_of_execAll (p.isPlain_loadVar d.target) hload.runs
    exact Except.ok.inj (hloaded.symm.trans hthrough)
  have hcarries : (p.value init .value .staticInitializer).Carries False 0 fun _ => Ty.value.width :=
    value_carries nofun init .value .staticInitializer
  have hle : d₂ ≤ 1 + Ty.value.width := hcarries.le () hresult 1 1 d₂ (Nat.le_refl _) hvalued
  have hge : 2 ≤ d₂ := (Instr.depth_eq_of_passes (Instr.depthThrough_singleton _ _ ▸ hcalled)).1
  obtain rfl : d₂ = 2 := Nat.le_antisymm hle hge
  exact ⟨hresult, hvalued⟩

theorem drop_staticCode {pc : Nat} (hplace : p.place d.target = .ok place) (hvalue : place.HoldsValue)
    (h : code.drop pc = p.staticCode d init place done ++ post) :
    code.drop pc = (p.askStatic d).code ++
      (.branchIf true done :: ((p.initStatic d init).code ++ .markLabel done :: post)) := by
  rw [h, askStatic_code hplace hvalue]
  unfold staticCode
  simp only [List.append_assoc, List.cons_append, List.nil_append]

/-- Where a trail comes to the code of the statement, the stack is empty: it is at the branch. -/
theorem isEmpty_of_trail {r : Reading} {o : Outline} (hreal : Realizes r o code)
    (hplace : p.place d.target = .ok place) (hvalue : place.HoldsValue) {c : Control V}
    {s₀ s : Kept V W} {ps : List Nat} (htrail : R.Trail code s₀ c s ps)
    (hcode : code.drop c.pc = p.staticCode d init place done ++ post) : c.stack = [] := by
  have hfront := drop_staticCode hplace hvalue hcode
  have hrun := Runtime.through_of_execAll isPlain_askStatic
    (askStatic_finishes (R := R) hplace hvalue c.stack s.memory).runs c.temps code _ c s hfront rfl rfl
      rfl
  obtain ⟨ps', hbranch⟩ := htrail.exists_after hrun
  obtain ⟨entered, -, hreached⟩ := hbranch.reached
  have hsafe := (PathState.Inv.of_reached hreal hreached).safe hreal
  have hdepth := hsafe.jump _ (getElem?_of_drop (drop_add_of_drop hfront)) rfl
  exact List.length_eq_zero_iff.1 hdepth

/-- The code of the statement is executed as it should be. -/
theorem static_run (hplace : p.place d.target = .ok place) (hvalue : place.HoldsValue)
    (hresult : (p.value init .value .staticInitializer).result = .ok ())
    (hdepth : Instr.depthThrough (p.value init .value .staticInitializer).code 1 = .ok 2)
    (hplaced : (placedIn code).Nodup) {c : Control V} (s : Kept V W) (hempty : c.stack = [])
    (hcode : code.drop c.pc = p.staticCode d init place done ++ post) :
    p.StaticRun R code d init place done c s := by
  obtain ⟨pc, _, temps, regions⟩ := c
  obtain rfl := hempty
  let asked := place.askBound R d.key s.memory
  have hlength : (p.staticCode d init place done).length =
      (place.askCode d.key).length + ((p.initStatic d init).code.length + 2) := by
    unfold staticCode
    simp only [List.length_append, List.length_cons, List.length_nil]
  have hfront := drop_staticCode hplace hvalue hcode
  have hasks := Runtime.through_of_execAll isPlain_askStatic
    (askStatic_finishes (R := R) hplace hvalue [] s.memory).runs temps code _
    ⟨pc, [], temps, regions⟩ s hfront rfl rfl rfl
  rw [askStatic_code hplace hvalue] at hasks hfront
  -- the initializer is guarded by the answer
  let c₁ : Control V := ⟨pc + (place.askCode d.key).length, [asked.1], temps, regions⟩
  let s₁ : Kept V W := { s with memory := asked.2 }
  have hguarded : code.drop c₁.pc = _ := drop_add_of_drop hfront
  refine ⟨rfl, hasks, fun hflag => ?_, fun hflag => ?_, ?_, ?_,
    fun _ hmap => Place.bound_returns hmap d.key s.memory⟩
  · have hskips := Runtime.after_guarded_of_true (s := s₁) hplaced hguarded rfl hflag
    rw [Run.after_add, hasks, hlength, ← Nat.add_assoc]
    exact hskips
  · obtain ⟨ty, x, m₁, hevaluate, hty, hfinishes⟩ := initStatic_finishes (R := R) (d := d)
      hplace hvalue hresult hdepth asked.2
    have hinits := Runtime.after_guarded_of_false (s := s₁) hguarded rfl hflag isPlain_initStatic
      hfinishes.runs
    refine ⟨ty, x, m₁, hevaluate, hty, ?_⟩
    rw [hlength, Run.after_add, hasks, ← Nat.add_assoc]
    exact hinits
  · rintro id rfl
    exact Place.bound_slot id d.key s.memory
  · rintro _ array name hmap rfl
    exact Place.bound_dynamic hmap array name d.key s.memory

end Procedure

namespace Plan

/-! ## Where it stands -/

variable {c : Plan} {d : StaticDecl} {init : Expr} {place : Place}

/-- The variable has a place for values, and the initializer a value. -/
theorem writes_bindStatic (hinit : d.init = some init) (h : c.outline.Writes (.bindStatic d)) :
    (∃ place, c.procedure.place d.target = .ok place ∧ place.HoldsValue) ∧
      (c.procedure.initStatic d init).result = .ok () := by
  obtain ⟨⟨_, hbind⟩, hinits⟩ := h
  obtain ⟨place, hplace, hbind, -⟩ := Fragment.bind_eq_ok hbind
  refine ⟨⟨place, hplace, ?_⟩, (hinits init hinit).choose_spec⟩
  obtain ⟨_, -, hbind, -⟩ := Fragment.bind_eq_ok hbind
  obtain ⟨_, -, hstore, -⟩ := Fragment.bind_eq_ok hbind
  cases place with
  | slot id => trivial
  | entry array key ty =>
    obtain ⟨_, hconvert, -⟩ := Fragment.bind_eq_ok hstore
    rintro rfl
    cases Fragment.isVoid_of_convert hconvert rfl

/-- The draft of the statement, part by part. -/
theorem statement_bindStatic_gives {frame frame' : Frame} {ds : List Directive}
    (hinit : d.init = some init) (hask : (c.procedure.askStatic d).result = .ok ())
    (h : (c.statement (.bindStatic d)).Gives frame ds frame' ()) :
    ∃ done, ds = (c.procedure.askStatic d).code.map .instr ++ (.instr (.branchIf true done) ::
      ((c.procedure.initStatic d init).code.map .instr ++ [.mark done .forward, .endStatement])) := by
  obtain ⟨_, mid, _, _, hpoint, hrest, rfl⟩ := Draft.gives_bind_iff.1
    (show (c.sequencePoint none >>= fun _ => c.bindStatic d >>= fun _ =>
      Draft.directive .endStatement).Gives frame ds frame' () from h)
  obtain ⟨rfl, -⟩ := Draft.gives_pure_iff.1 hpoint
  obtain ⟨_, mid', _, _, hbind, hend, rfl⟩ := Draft.gives_bind_iff.1 hrest
  obtain ⟨-, rfl⟩ := bindStatic_gives hinit hbind
  obtain ⟨rfl, -⟩ := Draft.gives_directive_iff.1 hend
  obtain ⟨_, -, hload, hcode⟩ := Fragment.bind_eq_ok hask
  obtain ⟨_, -, -, hcode'⟩ := Fragment.bind_eq_ok hload
  refine ⟨⟨mid.labels.size⟩, ?_⟩
  change _ = (c.procedure.bindHolder d.target d.key >>= fun _ => c.procedure.loadVar d.target >>=
    fun _ => Fragment.callIntrinsic .staticIsInitialized).code.map Directive.instr ++ _
  rw [hcode, hcode']
  simp only [List.map_append, List.append_assoc, List.cons_append, List.nil_append]
  rfl

/-- Where control gets to the statement, all of its code is there, and the initializer pushes a value. -/
theorem bindStatic_lays {frame frame' : Frame} {f g : Flow} {code : List Instr}
    (hinit : d.init = some init) (hwrites : c.outline.Writes (.bindStatic d))
    (hlive : f.isLive = true) (hdepth : f.depth = 0)
    (h : (c.statement (.bindStatic d)).Lays frame f code frame' g) :
    ∃ place done, c.procedure.place d.target = .ok place ∧ place.HoldsValue ∧
      code = c.procedure.staticCode d init place done ∧
      (c.procedure.value init .value .staticInitializer).result = .ok () ∧
      Instr.depthThrough (c.procedure.value init .value .staticInitializer).code 1 = .ok 2 := by
  obtain ⟨⟨place, hplace, hvalue⟩, hinits⟩ := writes_bindStatic hinit hwrites
  have hasks := Procedure.askStatic_finishes (R := Runtime.ints) hplace hvalue [] (inState 0).memory
  obtain ⟨ds, hgives, ha⟩ := h
  obtain ⟨done, rfl⟩ := statement_bindStatic_gives hinit hasks.result hgives
  -- what is asked leaves the answer on the stack
  obtain ⟨f₁, _, _, hask, h₁, rfl⟩ := Assembles.append_iff.1 ha
  obtain ⟨rfl, hlive₁, hdepth₁⟩ := hask.of_passes
    (fun i hi => Instr.passes_of_isPlain (Procedure.isPlain_askStatic i hi)) hlive
  have hone : f₁.depth = 1 := by
    have hthrough := Instr.depthThrough_of_execAll Procedure.isPlain_askStatic hasks.runs
    rw [hdepth] at hdepth₁
    exact Except.ok.inj (hdepth₁.symm.trans hthrough)
  obtain ⟨_, f₂, _, hbranch, h₂, rfl⟩ := Assembles.cons_iff.1 h₁
  obtain ⟨rfl, after, hpass⟩ := Flow.step_live hlive₁ hbranch
  have hzero : f₂.depth = 0 := by
    have hafter := hpass.depthAfter
    rw [hone] at hafter
    rw [hpass.depth rfl]
    cases hafter
    rfl
  obtain ⟨f₃, _, _, hinitCode, h₃, rfl⟩ := Assembles.append_iff.1 h₂
  obtain ⟨rfl, hlive₃, hdepth₃⟩ := hinitCode.of_passes
    (fun i hi => Instr.passes_of_isPlain (Procedure.isPlain_initStatic i hi)) hpass.isLive
  obtain ⟨_, f₄, _, hmark, h₄, rfl⟩ := Assembles.cons_iff.1 h₃
  obtain ⟨rfl, -⟩ := Flow.step_mark hmark
  obtain ⟨-, rfl, -⟩ := Flow.step_endStatement.1 (Assembles.singleton_iff.1 h₄)
  rw [hzero] at hdepth₃
  obtain ⟨hresult, hvalued⟩ := Procedure.init_depth hplace hvalue hinits hdepth₃
  refine ⟨place, done, hplace, hvalue, ?_, hresult, hvalued⟩
  rw [Procedure.askStatic_code hplace hvalue]
  rfl

end Plan

/-- Static storage is asked for once, and its initializer is executed if and only if what is fetched
from the place of the variable has not been initialized, on every path and with exceptions at any
point before. -/
theorem Procedure.static_initialized {p : Procedure} {options : Options} {strategy : LayoutStrategy}
    {out : Array Instr} {sum : Summary} {c : Plan} {labels : LabelTable} {b : Block}
    {ss ss' : List Stmt} {d : StaticDecl} {init : Expr} {q : Nat}
    (h : p.lowerInto options strategy #[] = (out, .ok sum))
    (hmake : Plan.make p options strategy = .ok (c, labels)) (hinit : d.init = some init)
    (hpoint : c.GetsTo labels b ss (.bindStatic d :: ss') q) :
    ∃ place done post, p.place d.target = .ok place ∧
      out.toList.drop q = p.staticCode d init place done ++ post ∧
      (∀ i ∈ (p.initStatic d init).code, i ≠ .callIntrinsic .staticHolder) ∧
      ∀ {V W : Type} {R : Runtime V W} {s₀ s : Kept V W} {ctl : Control V} {ps : List Nat},
        R.Trail out.toList s₀ ctl s ps → ctl.pc = q →
          p.StaticRun R out.toList d init place done ctl s := by
  obtain ⟨rfl, hmade, hsize, hblank, ds, final, g, hlowered⟩ := lowered_of_make h hmake
  obtain ⟨bs, bs', mid, f, hblocks, hlive, hdepth, hlays⟩ :=
    hlowered.lays_from hmade hsize hblank hpoint
  have hwrites : c.outline.Writes (.bindStatic d) := by
    obtain ⟨_, _, _, _, _, -, hss, -⟩ := hpoint
    have hb : b ∈ c.blocks := hblocks ▸ List.mem_append_right _ List.mem_cons_self
    refine ((hlowered.writes hmade hsize).1 b hb).statements _ ?_
    rw [hss]
    exact List.mem_append_right _ List.mem_cons_self
  -- the code of the statement, at the point where control gets to it
  obtain ⟨_, _, _, _, hstatements, -, hcode⟩ := Draft.lays_bind_iff.1 hlays
  obtain ⟨_, _, _, _, hstatement, -, rfl⟩ := Draft.lays_bind_iff.1
    (show (c.statement (.bindStatic d) >>= fun _ => ss'.forM c.statement).Lays _ _ _ _ _
      from hstatements)
  obtain ⟨place, done, hplace, hvalue, rfl, hresult, hvalues⟩ :=
    Plan.bindStatic_lays hinit hwrites hlive hdepth hstatement
  rw [List.append_assoc] at hcode
  refine ⟨place, done, _, hplace, hcode, fun _ => ne_staticHolder_of_mem, ?_⟩
  rintro V W R s₀ s ctl ps htrail rfl
  have hempty := isEmpty_of_trail (hlowered.realizes hmade hsize hblank) hplace hvalue htrail hcode
  exact static_run hplace hvalue hresult hvalues (hlowered.placed hmade hsize hblank).1 s hempty hcode

/-- A dynamically typed value holds half of the integer that it stands for. -/
def Runtime.halving : Runtime Int (Int → Int → Int) := .boxing (· / 2) (2 * ·)

namespace Procedure

/-- A procedure that keeps a static integer in a locals array. -/
def visits : Procedure where
  name := ⟨1⟩
  returnType := .void
  locals :=
    { vars := #[{ id := ⟨0⟩, name := .empty, ty := .array, kind := .temporary },
        { id := ⟨1⟩, name := ⟨2⟩, ty := .int, kind := .user }] }
  graph :=
    { blocks := #[
        { id := ⟨0⟩, ordinal := 0, kind := .start
          statements := [.bindStatic { target := ⟨1⟩, key := ⟨3⟩, init := some (.lit (.int 1)) }]
          edge := .goto ⟨1⟩ },
        { id := ⟨1⟩, ordinal := 1, kind := .exit, statements := [], edge := .none }]
      wellFormed := wellFormed_of_fault?_eq_none (by decide) }
  localsArray := some ⟨0⟩

/-- The code of `visits`. -/
def visitsCode : Array Instr :=
  #[.constInt 2, .callIntrinsic .newLocalsArray, .storeLocal ⟨0⟩, .loadLocal ⟨0⟩, .constStr ⟨2⟩,
    .loadContext, .constStr ⟨3⟩, .callIntrinsic .staticHolder, .convert .int .value,
    .callIntrinsic .arraySet, .loadLocal ⟨0⟩, .constStr ⟨2⟩, .callIntrinsic .arrayGet,
    .convert .value .int, .callIntrinsic .staticIsInitialized, .branchIf true ⟨1⟩, .loadLocal ⟨0⟩,
    .constStr ⟨2⟩, .callIntrinsic .arrayGet, .convert .value .int, .constInt 1, .convert .int .value,
    .callIntrinsic .staticInitialize, .markLabel ⟨1⟩, .markLabel ⟨0⟩, .ret false]

/-- The plan of `visits`. -/
def visitsPlan : Plan where
  procedure := visits
  options := {}
  blocks := visits.graph.blocks.toList
  labelled := [⟨1⟩]
  resume := ⟨[]⟩

theorem visits_order : visits.graph.emissionOrder BlockOrder.ordinal.arrange visits.liveBlocks =
    some [⟨0⟩, ⟨1⟩] := by cbv

theorem visits_make : Plan.make visits {} BlockOrder.ordinal.arrange =
    .ok (visitsPlan, { entries := #[{}] }) := by
  unfold Plan.make
  rw [visits_order]
  rfl

theorem visits_lowerInto : visits.lowerInto {} BlockOrder.ordinal.arrange #[] =
    (visitsCode, .ok { instrCount := 26, temps := [], labelCount := 2, resumePoints := []
                       debugLocals := [] }) := by
  unfold lowerInto
  rw [visits_make]
  decide +kernel

/-- Control gets to the statement behind the three instructions that make the array. -/
theorem visits_getsTo : visitsPlan.GetsTo { entries := #[{}] } visits.graph.blocks[0] []
    [.bindStatic { target := ⟨1⟩, key := ⟨3⟩, init := some (.lit (.int 1)) }] 3 := by
  have hlabels : (visitsPlan.draft { labels := { entries := #[{}] } }).frame.labels =
      { entries := #[{}, {}] } := by decide +kernel
  have hlays : (visitsPlan.upTo [] visits.graph.blocks[0] []).Lays { labels := { entries := #[{}] } }
      { labels := { entries := #[{}, {}] } }
      [.constInt 2, .callIntrinsic .newLocalsArray, .storeLocal ⟨0⟩]
      { labels := { entries := #[{}] } } { labels := { entries := #[{}, {}] } } :=
    ⟨[.instr (.constInt 2), .instr (.callIntrinsic .newLocalsArray), .instr (.storeLocal ⟨0⟩)], rfl,
      Assembles.cons_iff.2 ⟨[_], _, [_, _], rfl, Assembles.cons_iff.2 ⟨[_], _, [_], rfl,
        Assembles.singleton_iff.2 rfl, rfl⟩, rfl⟩⟩
  exact ⟨[], _, _, _, _, rfl, rfl, hlabels ▸ hlays, rfl, rfl⟩

theorem visits_initialized : ∃ place done post, visits.place ⟨1⟩ = .ok place ∧
    visitsCode.toList.drop 3 = visits.staticCode { target := ⟨1⟩, key := ⟨3⟩
                                                   init := some (.lit (.int 1)) }
      (.lit (.int 1)) place done ++ post ∧
    ∀ {s₀ s : Kept Int (Int → Int → Int)} {ctl : Control Int} {ps : List Nat},
      Runtime.doubling.Trail visitsCode.toList s₀ ctl s ps → ctl.pc = 3 →
        visits.StaticRun Runtime.doubling visitsCode.toList
          { target := ⟨1⟩, key := ⟨3⟩, init := some (.lit (.int 1)) } (.lit (.int 1)) place done
          ctl s := by
  obtain ⟨place, done, post, hplace, hcode, -, hrun⟩ :=
    static_initialized visits_lowerInto visits_make rfl visits_getsTo
  exact ⟨place, done, post, hplace, hcode, hrun⟩

/-- The storage is 7, but whether 6 has been initialized is asked. -/
theorem visits_converted :
    visits.lowerInto {} BlockOrder.ordinal.arrange #[] =
      (visitsCode, .ok { instrCount := 26, temps := [], labelCount := 2, resumePoints := []
                         debugLocals := [] }) ∧
    (∀ args w, (Runtime.halving.perform (.call (.intrinsic .staticHolder)) args w).1 = 7) ∧
    ∃ c s, Run.after (Runtime.halving.step visitsCode.toList)
        (.on Runtime.halving.enter { memory := Memory.zero, state := 0 }) 15 = .on c s ∧
      s.memory.trace =
        [.perform (.call (.intrinsic .newLocalsArray)) [2], .store ⟨0⟩ 0,
          .perform (.call (.intrinsic .staticHolder)) [0, 3],
          .perform (.call (.intrinsic .arraySet)) [0, 2, 3],
          .perform (.call (.intrinsic .arrayGet)) [0, 2],
          .perform (.call (.intrinsic .staticIsInitialized)) [6]] :=
  ⟨visits_lowerInto, fun _ _ => rfl, _, _, rfl, rfl⟩

end Procedure

end StackCode
