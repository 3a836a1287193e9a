import StackCode.Proofs.Entry.Setup
import StackCode.Proofs.Storage.Places

/-!
# First values

What the setup does to the memory: the locals array is created, and then the variables get their first
values in the order of their declaration, each variable on its own.  `Procedure.Filled` says what has
become of the variables so far; it is kept from one variable to the next.  `Procedure.Prepared` says
what has become of all of them, and of the array, since the procedure was entered.  Main statement:
`Procedure.exists_prepared`.
-/

namespace StackCode

variable {V W : Type} {R : Runtime V W} {arrays : W → V → Option (V → Option V)}

/-! ## Arrays -/

/-- The run-time system keeps arrays: `arrays w a` is what the array `a` holds in the world `w` under
each key, if there is such an array.  A locals array is new and empty, a value that is set is there
under its key, and neither a conversion nor what else is called on entry writes to an array. -/
structure Runtime.KeepsArrays (R : Runtime V W) (arrays : W → V → Option (V → Option V)) : Prop where
  key_inj : ∀ {n n' : Name}, R.literal (.str n) = R.literal (.str n') → n = n'
  unborn : ∀ n w, arrays w (R.perform (.call (.intrinsic .newLocalsArray)) [n] w).1 = none
  created : ∀ n w, arrays (R.perform (.call (.intrinsic .newLocalsArray)) [n] w).2
    (R.perform (.call (.intrinsic .newLocalsArray)) [n] w).1 = some fun _ => none
  set : ∀ a k x w f, arrays w a = some f →
    ∃ f', arrays (R.perform (.call (.intrinsic .arraySet)) [a, k, x] w).2 a = some f' ∧
      f' k = some x ∧ ∀ k', k' ≠ k → f' k' = f k'
  set_keeps : ∀ a k x w b f, b ≠ a → arrays w b = some f →
    arrays (R.perform (.call (.intrinsic .arraySet)) [a, k, x] w).2 b = some f
  call_keeps : ∀ i ∈ [Intrinsic.newLocalsArray, .onInclude, .debugAssertNotNull, .indirectLocal],
    ∀ args w b f, arrays w b = some f →
      arrays (R.perform (.call (.intrinsic i)) args w).2 b = some f
  convert_keeps : ∀ source target x w b f, arrays w b = some f →
    arrays (R.perform (.convert source target) [x] w).2 b = some f

/-- A value: a number, a name, an array by its number, or nothing. -/
inductive Item where
  | null
  | int (n : Int)
  | name (s : Name)
  | array (n : Nat)
deriving DecidableEq

/-- The arrays by their numbers. -/
abbrev Tables : Type := List (Item → Option Item)

/-- The arrays are numbered as they are created, and a conversion gives the value back. -/
def Tables.perform : Operation → List Item → Tables → Item × Tables
  | .call (.intrinsic .newLocalsArray), _, w => (.array w.length, w.concat fun _ => none)
  | .call (.intrinsic .arraySet), [.array n, k, x], w =>
    (.null, w.modify n fun f k' => if k' = k then some x else f k')
  | .call (.intrinsic .arrayGet), [.array n, k], w =>
    (match w[n]? with | some f => (f k).getD .null | none => .null, w)
  | .convert _ _, [x], w => (x, w)
  | _, _, w => (.null, w)

def Runtime.tables : Runtime Item Tables where
  literal
    | .int n => .int n
    | .str s => .name s
    | _ => .null
  context := .null
  unbound := .null
  isTrue v := v ≠ .null
  toInt
    | .int n => n
    | _ => 0
  perform := Tables.perform

/-- What the array with this number holds. -/
def tableOf (w : Tables) : Item → Option (Item → Option Item)
  | .array n => w[n]?
  | _ => none

theorem Runtime.tables_keepsArrays : Runtime.tables.KeepsArrays tableOf where
  key_inj h := Item.name.inj h
  unborn n w := List.getElem?_eq_none (Nat.le_refl w.length)
  created n w := by
    change (w.concat _)[w.length]? = _
    rw [List.concat_eq_append]
    exact List.getElem?_concat_length
  set a k x w f hf := by
    cases a with
    | array n =>
      refine ⟨fun k' => if k' = k then some x else f k', ?_, if_pos rfl, fun k' hk' => if_neg hk'⟩
      change (w.modify n _)[n]? = _
      rw [List.getElem?_modify_eq, show w[n]? = some f from hf]
      rfl
    | null | int | name => cases hf
  set_keeps a k x w b f hb hf := by
    cases b with
    | array n =>
      cases a with
      | array n' =>
        have hne : n' ≠ n := fun h => hb (h ▸ rfl)
        change (w.modify n' _)[n]? = _
        rw [List.getElem?_modify_ne _ _ hne]
        exact hf
      | null | int | name => exact hf
    | null | int | name => cases hf
  call_keeps i hi args w b f hf := by
    simp only [List.mem_cons, List.not_mem_nil, or_false] at hi
    rcases hi with rfl | rfl | rfl | rfl
    · cases b with
      | array n =>
        change (w.concat _)[n]? = _
        rw [List.concat_eq_append, List.getElem?_append_left (List.getElem?_eq_some_iff.1 hf).1]
        exact hf
      | null | int | name => cases hf
    all_goals exact hf
  convert_keeps _ _ _ _ _ _ hf := hf

namespace Memory

variable {m m' m₁ : Memory V W} {P Q : LocalId → Prop}

theorem locals_store (m : Memory V W) (id : LocalId) (x : V) :
    (m.store id x).locals = Function.update m.locals id x := rfl

/-- From one memory to the other, nothing has been stored but to these variables, and none has been
cleared. -/
structure StoresOnly (m : Memory V W) (P : LocalId → Prop) (m' : Memory V W) : Prop where
  trace : ∃ es, m'.trace = m.trace ++ es ∧ (∀ id v, .store id v ∈ es → P id) ∧ ∀ id, .clear id ∉ es
  spared : ∀ id, ¬ P id → m'.locals id = m.locals id

namespace StoresOnly

theorem refl (m : Memory V W) : m.StoresOnly P m :=
  ⟨⟨[], (List.append_nil _).symm, nofun, nofun⟩, fun _ _ => rfl⟩

theorem trans (h : m.StoresOnly P m₁) (h' : m₁.StoresOnly Q m') (hP : ∀ id, P id → Q id) :
    m.StoresOnly Q m' := by
  obtain ⟨es, hes, hstores, hclears⟩ := h.trace
  obtain ⟨es', hes', hstores', hclears'⟩ := h'.trace
  refine ⟨⟨es ++ es', ?_, fun id v hv => ?_, fun id hid => ?_⟩, fun id hid => ?_⟩
  · rw [hes', hes, List.append_assoc]
  · exact (List.mem_append.1 hv).elim (fun hv => hP id (hstores id v hv)) (hstores' id v)
  · exact (List.mem_append.1 hid).elim (hclears id) (hclears' id)
  · exact (h'.spared id hid).trans (h.spared id fun hp => hid (hP id hp))

theorem mono (h : m.StoresOnly P m') (hP : ∀ id, P id → Q id) : m.StoresOnly Q m' :=
  h.trans (.refl m') hP

theorem perform (op : Operation) (args : List V) (m : Memory V W) :
    m.StoresOnly P (m.perform R op args).2 := by
  unfold Memory.perform
  cases op.isSeen with
  | false => exact ⟨⟨[], (List.append_nil _).symm, nofun, nofun⟩, fun _ _ => rfl⟩
  | true =>
    refine ⟨⟨[.perform op args], rfl, fun id v hv => ?_, fun id hid => ?_⟩, fun _ _ => rfl⟩
    · cases List.mem_singleton.1 hv
    · cases List.mem_singleton.1 hid

theorem coerce (source target : Ty) (x : V) (m : Memory V W) :
    m.StoresOnly P (m.coerce R source target x).2 := by
  unfold Memory.coerce
  split
  · exact .refl m
  · exact .perform _ _ m

theorem store {id : LocalId} (h : P id) (x : V) (m : Memory V W) : m.StoresOnly P (m.store id x) := by
  refine ⟨⟨[.store id x], rfl, fun id' v hv => ?_, fun id' hid => ?_⟩, fun id' hid => ?_⟩
  · cases List.mem_singleton.1 hv
    exact h
  · cases List.mem_singleton.1 hid
  · have hne : id' ≠ id := by
      rintro rfl
      exact hid h
    exact Function.update_of_ne hne x m.locals

end StoresOnly

/-- From one memory to the other, no variable has been stored to, and the arrays that there were hold what
they held. -/
structure Spares (arrays : W → V → Option (V → Option V)) (m m' : Memory V W) : Prop where
  stores : m.StoresOnly (fun _ => False) m'
  arrays : ∀ b f, arrays m.world b = some f → arrays m'.world b = some f

namespace Spares

theorem refl (m : Memory V W) : m.Spares arrays m := ⟨.refl m, fun _ _ => id⟩

theorem trans (h : m.Spares arrays m₁) (h' : m₁.Spares arrays m') : m.Spares arrays m' :=
  ⟨h.stores.trans h'.stores fun _ => id, fun b f hb => h'.arrays b f (h.arrays b f hb)⟩

theorem locals (h : m.Spares arrays m') : m'.locals = m.locals :=
  funext fun id => h.stores.spared id nofun

/-- What has not been there before is not there at first. -/
theorem unborn (h : m.Spares arrays m') {a : V} (ha : arrays m'.world a = none) :
    arrays m.world a = none := by
  cases hb : arrays m.world a with
  | none => rfl
  | some f =>
    rw [h.arrays a f hb] at ha
    cases ha

theorem tell (hR : R.KeepsArrays arrays) {i : Intrinsic}
    (hi : i ∈ [Intrinsic.newLocalsArray, .onInclude, .debugAssertNotNull, .indirectLocal])
    (args : List V) (m : Memory V W) : m.Spares arrays (m.tell R i args) :=
  ⟨.perform _ _ m, fun b f => hR.call_keeps i hi args m.world b f⟩

theorem coerce (hR : R.KeepsArrays arrays) (source target : Ty) (x : V) (m : Memory V W) :
    m.Spares arrays (m.coerce R source target x).2 := by
  refine ⟨.coerce source target x m, fun b f hb => ?_⟩
  unfold Memory.coerce
  split
  · exact hb
  · exact hR.convert_keeps source target x m.world b f hb

end Spares

end Memory

/-! ## What the variables get -/

/-- The variable is a parameter that is copied into the array held by the other variable. -/
def Local.isCopied (array : LocalId) (v : Local) : Bool :=
  v.kind == .parameter && v.isNamed && v.id ≠ array

/-- The last of the variables that is copied under a name. -/
def lastCopied? (array : LocalId) (vs : List Local) (name : Name) : Option Local :=
  vs.reverse.find? fun v => v.isCopied array && v.name == name

/-- Under the names of the copied variables, the array holds the values they had in the memory `m₀`,
converted to dynamically typed ones, and nothing else. -/
structure HoldsCopies (R : Runtime V W) (array : LocalId) (vs : List Local) (m₀ : Memory V W)
    (f : V → Option V) : Prop where
  copied : ∀ name v, lastCopied? array vs name = some v →
    ∃ m : Memory V W, f (R.literal (.str name)) = some (m.coerce R v.ty .value (m₀.locals v.id)).1
  absent : ∀ k, (∀ name, lastCopied? array vs name ≠ none → k ≠ R.literal (.str name)) → f k = none

namespace Procedure

/-- The variable starts out with the default value of its type, in a slot of its own. -/
structure Initializes (p : Procedure) (v : Local) : Prop where
  needsInit : v.needsInit = true
  slot : p.HasSlot v.id
  not_array : p.localsArray ≠ some v.id
  typed : v.ty ≠ .void

/-- What the first of the variables, those of `vs`, have got since the memory `m₀`, in which the locals
array has just been created. -/
structure Filled (p : Procedure) (R : Runtime V W) (arrays : W → V → Option (V → Option V))
    (vs : List Local) (m₀ m : Memory V W) : Prop where
  defaults : ∀ v ∈ vs, p.Initializes v → R.default? v.ty = some (m.locals v.id)
  stores : m₀.StoresOnly (fun id => ∃ v ∈ vs, v.id = id ∧ p.Initializes v) m
  copies : ∀ array, p.localsArray = some array →
    ∃ f, arrays m.world (m₀.locals array) = some f ∧ HoldsCopies R array vs m₀ f
  arrays : ∀ b f, (∀ array, p.localsArray = some array → b ≠ m₀.locals array) →
    arrays m₀.world b = some f → arrays m.world b = some f

end Procedure

theorem lastCopied?_append (array : LocalId) (vs : List Local) (v : Local) (name : Name) :
    lastCopied? array (vs ++ [v]) name =
      if v.isCopied array = true ∧ v.name = name then some v else lastCopied? array vs name := by
  unfold lastCopied?
  rw [List.reverse_append, List.reverse_singleton, List.singleton_append, List.find?_cons]
  by_cases h : v.isCopied array = true ∧ v.name = name
  · rw [if_pos h, h.1, h.2]
    simp
  · rw [if_neg h]
    have hmiss : (v.isCopied array && v.name == name) = false := by
      rw [Bool.and_eq_false_iff]
      by_cases hv : v.isCopied array = true
      · exact .inr (beq_false_of_ne fun heq => h ⟨hv, heq⟩)
      · exact .inl (Bool.eq_false_iff.2 hv)
    rw [hmiss]

theorem isCopied_of_lastCopied? {array : LocalId} {vs : List Local} {name : Name} {v : Local}
    (h : lastCopied? array vs name = some v) : v.isCopied array = true := by
  have hboth := List.find?_some h
  exact (Bool.and_eq_true_iff.1 hboth).1

namespace HoldsCopies

variable {array : LocalId} {vs : List Local} {v : Local} {m₀ : Memory V W} {f f' : V → Option V}

theorem nil (R : Runtime V W) (array : LocalId) (m₀ : Memory V W) :
    HoldsCopies R array [] m₀ fun _ => none := ⟨nofun, fun _ _ => rfl⟩

/-- A variable that is not copied is none of the array's. -/
theorem skip (h : HoldsCopies R array vs m₀ f) (hv : v.isCopied array = false) :
    HoldsCopies R array (vs ++ [v]) m₀ f := by
  have hlast (name : Name) : lastCopied? array (vs ++ [v]) name = lastCopied? array vs name := by
    rw [lastCopied?_append, if_neg fun h => Bool.false_ne_true (hv.symm.trans h.1)]
  refine ⟨fun name u hu => h.copied name u ((hlast name).symm.trans hu), fun k hk => ?_⟩
  exact h.absent k fun name hname => hk name fun heq => hname ((hlast name).symm.trans heq)

/-- The last one that is copied under a name wins. -/
theorem copy (h : HoldsCopies R array vs m₀ f) (hR : R.KeepsArrays arrays)
    (hv : v.isCopied array = true) (m : Memory V W)
    (hset : f' (R.literal (.str v.name)) = some (m.coerce R v.ty .value (m₀.locals v.id)).1)
    (hothers : ∀ k, k ≠ R.literal (.str v.name) → f' k = f k) :
    HoldsCopies R array (vs ++ [v]) m₀ f' := by
  have hlast (name : Name) : lastCopied? array (vs ++ [v]) name =
      if v.name = name then some v else lastCopied? array vs name := by
    rw [lastCopied?_append, hv]
    simp only [true_and]
  refine ⟨fun name u hu => ?_, fun k hk => ?_⟩
  · rw [hlast] at hu
    by_cases hname : v.name = name
    · rw [if_pos hname] at hu
      cases hu
      exact ⟨m, hname ▸ hset⟩
    · rw [if_neg hname] at hu
      rw [hothers _ fun heq => hname (hR.key_inj heq).symm]
      exact h.copied name u hu
  · have hne : k ≠ R.literal (.str v.name) := hk v.name (by rw [hlast, if_pos rfl]; nofun)
    rw [hothers k hne]
    refine h.absent k fun name hname => hk name ?_
    rw [hlast]
    split
    · nofun
    · exact hname

end HoldsCopies

/-! ## From one variable to the next -/

namespace Procedure

namespace Filled

variable {p : Procedure} {vs : List Local} {v : Local} {m₀ m : Memory V W}

/-- A variable gets no value. -/
theorem skip (h : p.Filled R arrays vs m₀ m) (hinit : ¬ p.Initializes v)
    (hcopied : ∀ array, p.localsArray = some array → v.isCopied array = false) :
    p.Filled R arrays (vs ++ [v]) m₀ m := by
  refine ⟨fun u hu hi => ?_, h.stores.mono ?_, fun array harray => ?_, h.arrays⟩
  · rcases List.mem_append.1 hu with hu | hu
    · exact h.defaults u hu hi
    · exact absurd (List.mem_singleton.1 hu ▸ hi) hinit
  · rintro id ⟨u, hu, heq, hi⟩
    exact ⟨u, List.mem_append_left _ hu, heq, hi⟩
  · obtain ⟨f, hf, hcopies⟩ := h.copies array harray
    exact ⟨f, hf, hcopies.skip (hcopied array harray)⟩

/-- A variable with a slot gets the default value of its type. -/
theorem store (h : p.Filled R arrays vs m₀ m) (hinit : p.Initializes v)
    (hfresh : ∀ u ∈ vs, u.id ≠ v.id) {x : V} (hx : R.default? v.ty = some x)
    (hcopied : ∀ array, p.localsArray = some array → v.isCopied array = false) :
    p.Filled R arrays (vs ++ [v]) m₀ (m.store v.id x) := by
  refine ⟨fun u hu hi => ?_, h.stores.trans (.store ⟨v, by simp, rfl, hinit⟩ x m) ?_,
    fun array harray => ?_, h.arrays⟩
  · rcases List.mem_append.1 hu with hu | hu
    · rw [h.defaults u hu hi, Memory.locals_store, Function.update_of_ne (hfresh u hu)]
    · obtain rfl := List.mem_singleton.1 hu
      rw [hx, Memory.locals_store, Function.update_self]
  · rintro id ⟨u, hu, heq, hi⟩
    exact ⟨u, List.mem_append_left _ hu, heq, hi⟩
  · obtain ⟨f, hf, hcopies⟩ := h.copies array harray
    exact ⟨f, hf, hcopies.skip (hcopied array harray)⟩

/-- The variable that holds the array holds it still. -/
theorem array_eq (h : p.Filled R arrays vs m₀ m) {array : LocalId}
    (harray : p.localsArray = some array) : m.locals array = m₀.locals array := by
  refine h.stores.spared array ?_
  rintro ⟨u, -, rfl, hi⟩
  exact hi.not_array harray

/-- A parameter is copied into the array. -/
theorem copy (h : p.Filled R arrays vs m₀ m) (hR : R.KeepsArrays arrays) {array : LocalId}
    (harray : p.localsArray = some array) (hv : v.isCopied array = true)
    (hfresh : ∀ u ∈ vs, u.id ≠ v.id) :
    p.Filled R arrays (vs ++ [v]) m₀
      ((Place.entry array v.name v.ty).write R m (m.locals v.id) m) := by
  have hsame : m.locals v.id = m₀.locals v.id :=
    h.stores.spared v.id fun ⟨u, hu, heq, _⟩ => hfresh u hu heq
  have hparameter : v.kind = .parameter := by
    unfold Local.isCopied at hv
    simp only [Bool.and_eq_true, beq_iff_eq] at hv
    exact hv.1.1
  have hinit : ¬ p.Initializes v := by
    intro hi
    have hneeds := hi.needsInit
    rw [Local.needsInit, hparameter] at hneeds
    cases hneeds
  obtain ⟨f, hf, hcopies⟩ := h.copies array harray
  have hcoerced := Memory.Spares.coerce hR v.ty .value (m.locals v.id) m
  obtain ⟨f', hf', hset, hothers⟩ := hR.set (m.locals array) (R.literal (.str v.name))
    (m.coerce R v.ty .value (m.locals v.id)).1 (m.coerce R v.ty .value (m.locals v.id)).2.world f
    (hcoerced.arrays _ f (by rw [h.array_eq harray]; exact hf))
  have hsilent : m.StoresOnly (fun _ => False)
      ((Place.entry array v.name v.ty).write R m (m.locals v.id) m) :=
    hcoerced.stores.trans (.perform _ _ _) fun _ => id
  refine ⟨fun u hu hi => ?_, (h.stores.mono ?_).trans (hsilent.mono nofun) fun _ => id,
    fun other hother => ?_, fun b g hb hg => ?_⟩
  · rw [hsilent.spared u.id nofun]
    rcases List.mem_append.1 hu with hu | hu
    · exact h.defaults u hu hi
    · exact absurd (List.mem_singleton.1 hu ▸ hi) hinit
  · rintro id ⟨u, hu, heq, hi⟩
    exact ⟨u, List.mem_append_left _ hu, heq, hi⟩
  · obtain rfl := Option.some_inj.1 (harray.symm.trans hother)
    refine ⟨f', ?_, hcopies.copy hR hv m (hsame ▸ hset) hothers⟩
    rw [← h.array_eq harray]
    exact hf'
  · refine hR.set_keeps _ _ _ _ b g ?_ (hcoerced.arrays b g (h.arrays b g hb hg))
    rw [h.array_eq harray]
    exact hb array harray

end Filled

/-- A variable that lives in its slot is not copied. -/
theorem not_isCopied_of_slot {p : Procedure} {v : Local} (hv : p.locals.get? v.id = some v)
    (hslot : p.HasSlot v.id) {array : LocalId} (harray : p.localsArray = some array) :
    v.isCopied array = false := by
  rw [Bool.eq_false_iff]
  intro hcopied
  simp only [Local.isCopied, Bool.and_eq_true, decide_eq_true_eq] at hcopied
  have hplace := place_of_named hv harray (Ne.symm hcopied.2) hcopied.1.2
  rw [show p.place v.id = .ok (.slot v.id) from hslot] at hplace
  cases hget : p.getLocal array with
  | error e =>
    rw [hget] at hplace
    cases hplace
  | ok w =>
    rw [hget] at hplace
    cases hplace

section
variable {p : Procedure} {vs : List Local} {v : Local} {m₀ m : Memory V W}

/-- A variable in a slot of its own gets the default value of its type, if it is to have one. -/
theorem exists_filled_slot (h : p.Filled R arrays vs m₀ m) (hv : p.locals.get? v.id = some v)
    (hfresh : ∀ u ∈ vs, u.id ≠ v.id) (hself : p.localsArray ≠ some v.id) (hslot : p.HasSlot v.id) :
    ∃ m', (p.initVar v).Finishes R () ([], m) ([], m') ∧ p.Filled R arrays (vs ++ [v]) m₀ m' := by
  have hcopied (array : LocalId) (harray : p.localsArray = some array) : v.isCopied array = false :=
    not_isCopied_of_slot hv hslot harray
  have heq := initVar_of_place hself hslot
  simp only at heq
  cases hdefault : v.ty.default? with
  | none =>
    rw [heq, hdefault]
    refine ⟨m, Fragment.finishes_pure () _, h.skip (fun hi => hi.typed ?_) hcopied⟩
    exact Ty.default?_eq_none_iff.1 hdefault
  | some value =>
    rw [hdefault] at heq
    simp only at heq
    by_cases hneeds : v.needsInit = true
    · rw [heq, if_pos hneeds]
      have htyped : v.ty ≠ .void := by
        intro hty
        rw [hty] at hdefault
        cases hdefault
      have hx : R.default? v.ty = some (R.literal value) := by
        unfold Runtime.default?
        rw [hdefault]
        rfl
      have hpush : (Fragment.literal value).Finishes R () ([], m) ([R.literal value], m) :=
        ⟨rfl, Fragment.runs_literal value [] m⟩
      have hstore : (Fragment.emit (.storeLocal v.id)).Finishes R () ([R.literal value], m)
          ([], m.store v.id (R.literal value)) := Fragment.finishes_emit rfl
      exact ⟨_, hpush.bind hstore, h.store ⟨hneeds, hslot, hself, htyped⟩ hfresh hx hcopied⟩
    · rw [heq, if_neg hneeds]
      exact ⟨m, Fragment.finishes_pure () _, h.skip (fun hi => hneeds hi.needsInit) hcopied⟩

/-- Of the variables in the array, the parameters are copied there. -/
theorem exists_filled_entry (hR : R.KeepsArrays arrays) (h : p.Filled R arrays vs m₀ m)
    (hv : p.locals.get? v.id = some v) (hfresh : ∀ u ∈ vs, u.id ≠ v.id)
    (hself : p.localsArray ≠ some v.id) {array : LocalId} (harray : p.localsArray = some array)
    (hne : array ≠ v.id) (hnamed : v.isNamed = true)
    (hplace : p.place v.id = .ok (.entry array v.name v.ty)) (hok : (p.initVar v).result = .ok ()) :
    ∃ m', (p.initVar v).Finishes R () ([], m) ([], m') ∧ p.Filled R arrays (vs ++ [v]) m₀ m' := by
  have heq := initVar_of_place hself hplace
  simp only at heq
  by_cases hkind : v.kind = .parameter
  · obtain ⟨hvoid, -⟩ := initVar_of_parameter hv harray hne hnamed hkind hok
    rw [heq, if_pos hkind]
    let place := Place.entry array v.name v.ty
    have hvalue : place.HoldsValue := hvoid
    have hkey : place.pushKey.Finishes R () ([], m) (place.beneath R m ++ [], m) :=
      Place.pushKey_finishes [] m
    have hload : (Fragment.emit (.loadLocal v.id)).Finishes R () (place.beneath R m ++ [], m)
        (m.locals v.id :: (place.beneath R m ++ []), m) := Fragment.finishes_emit rfl
    have hstore : place.store.Finishes R () (m.locals v.id :: (place.beneath R m ++ []), m)
        ([], place.write R m (m.locals v.id) m) := Place.store_finishes hvalue m _ [] m
    refine ⟨_, hkey.bind (hload.bind hstore), h.copy hR harray ?_ hfresh⟩
    simp [Local.isCopied, hkind, hnamed, Ne.symm hne]
  · rw [heq, if_neg hkind]
    refine ⟨m, Fragment.finishes_pure () _, h.skip (fun hi => ?_) fun other hother => ?_⟩
    · have hentry : (Place.entry array v.name v.ty) = .slot v.id :=
        Except.ok.inj (hplace.symm.trans hi.slot)
      cases hentry
    · simp [Local.isCopied, hkind]

/-- The step from one variable to the next. -/
theorem exists_filled_initVar (hR : R.KeepsArrays arrays) (h : p.Filled R arrays vs m₀ m)
    (hv : p.locals.get? v.id = some v) (hfresh : ∀ u ∈ vs, u.id ≠ v.id)
    (hok : (p.initVar v).result = .ok ()) :
    ∃ m', (p.initVar v).Finishes R () ([], m) ([], m') ∧ p.Filled R arrays (vs ++ [v]) m₀ m' := by
  by_cases hself : p.localsArray = some v.id
  · have hnone : p.initVar v = pure () := by
      unfold initVar
      rw [if_pos hself]
    rw [hnone]
    refine ⟨m, Fragment.finishes_pure () _, h.skip (fun hi => hi.not_array hself) ?_⟩
    intro array harray
    obtain rfl := Option.some_inj.1 (harray.symm.trans hself)
    simp [Local.isCopied]
  obtain ⟨place, hplace⟩ := exists_place_of_initVar hself hok
  obtain ⟨v', hv', hcases⟩ := place_cases hplace
  obtain rfl := Option.some_inj.1 (hv.symm.trans hv')
  rcases hcases with rfl | ⟨array, harray, hne, hnamed, -, rfl⟩
  · exact exists_filled_slot h hv hfresh hself hplace
  · exact exists_filled_entry hR h hv hfresh hself harray hne hnamed hplace hok

end

/-- The run over the variables. -/
theorem exists_filled (hR : R.KeepsArrays arrays) {p : Procedure} {vs rest : List Local}
    {m₀ m : Memory V W} (h : p.Filled R arrays vs m₀ m)
    (hdeclared : ∀ v ∈ rest, p.locals.get? v.id = some v) (hnodup : ((vs ++ rest).map (·.id)).Nodup)
    (hok : ∀ v ∈ rest, (p.initVar v).result = .ok ()) :
    ∃ m', (rest.forM p.initVar).Finishes R () ([], m) ([], m') ∧
      p.Filled R arrays (vs ++ rest) m₀ m' := by
  induction rest generalizing vs m with
  | nil => exact ⟨m, Fragment.finishes_pure () _, by rwa [List.append_nil]⟩
  | cons v rest ih =>
    obtain ⟨hv, hdeclared⟩ := List.forall_mem_cons.1 hdeclared
    obtain ⟨hvok, hok⟩ := List.forall_mem_cons.1 hok
    have hfresh : ∀ u ∈ vs, u.id ≠ v.id := by
      intro u hu heq
      rw [List.map_append, List.nodup_append] at hnodup
      exact hnodup.2.2 u.id (List.mem_map_of_mem hu) v.id (by simp) heq
    obtain ⟨m₁, hfirst, hnext⟩ := exists_filled_initVar hR h hv hfresh hvok
    obtain ⟨m', hrest, hall⟩ := ih hnext hdeclared (by rwa [List.append_assoc]) hok
    refine ⟨m', hfirst.bind (f := fun _ => rest.forM p.initVar) hrest, ?_⟩
    rwa [List.append_assoc] at hall

/-! ## All of the setup -/

/-- What has become of the variables and the arrays since the memory `m₀`: the variables that start out
with the default value of their type do, and the locals array is a new one and holds the parameters
that are copied; no other variable has been stored to, and no other array has changed. -/
structure Prepared (p : Procedure) (R : Runtime V W) (arrays : W → V → Option (V → Option V))
    (m₀ m : Memory V W) : Prop where
  defaults : ∀ v ∈ p.locals.toList, p.Initializes v → R.default? v.ty = some (m.locals v.id)
  array : ∀ array, p.localsArray = some array → arrays m₀.world (m.locals array) = none ∧
    ∃ f, arrays m.world (m.locals array) = some f ∧ HoldsCopies R array p.locals.toList m₀ f
  stores : m₀.StoresOnly (fun id => p.localsArray = some id ∨
    ∃ v ∈ p.locals.toList, v.id = id ∧ p.Initializes v) m
  arrays : ∀ b f, arrays m₀.world b = some f → arrays m.world b = some f

/-- What is done before and spares the variables makes no difference. -/
theorem Prepared.after {p : Procedure} {m₀ m₁ m : Memory V W} (h : p.Prepared R arrays m₁ m)
    (hspares : m₀.Spares arrays m₁) : p.Prepared R arrays m₀ m where
  defaults := h.defaults
  array array harray := by
    obtain ⟨hnew, f, hf, hcopies⟩ := h.array array harray
    refine ⟨hspares.unborn hnew, f, hf, ⟨fun name v hv => ?_, hcopies.absent⟩⟩
    rw [← hspares.locals]
    exact hcopies.copied name v hv
  stores := (hspares.stores.mono nofun).trans h.stores fun _ => id
  arrays b f hb := h.arrays b f (hspares.arrays b f hb)

/-- Nor does what is done then and spares them. -/
theorem Prepared.before {p : Procedure} {m₀ m₁ m : Memory V W} (h : p.Prepared R arrays m₀ m₁)
    (hspares : m₁.Spares arrays m) : p.Prepared R arrays m₀ m where
  defaults := by
    rw [hspares.locals]
    exact h.defaults
  array array harray := by
    obtain ⟨hnew, f, hf, hcopies⟩ := h.array array harray
    rw [hspares.locals]
    exact ⟨hnew, f, hspares.arrays _ f hf, hcopies⟩
  stores := h.stores.trans (hspares.stores.mono nofun) fun _ => id
  arrays b f hb := hspares.arrays b f (h.arrays b f hb)

/-- The locals array has been created since the memory `m₀`, where there is one, and nothing else has
been done. -/
structure Begun (p : Procedure) (R : Runtime V W) (arrays : W → V → Option (V → Option V))
    (m₀ m : Memory V W) : Prop where
  filled : p.Filled R arrays [] m m
  locals : ∀ id, p.localsArray ≠ some id → m.locals id = m₀.locals id
  unborn : ∀ array, p.localsArray = some array → arrays m₀.world (m.locals array) = none
  stores : m₀.StoresOnly (fun id => p.localsArray = some id) m
  arrays : ∀ b f, arrays m₀.world b = some f → arrays m.world b = some f

theorem exists_begun (hR : R.KeepsArrays arrays) {p : Procedure}
    (hok : p.initLocalsArray.result = .ok ()) (m₀ : Memory V W) :
    ∃ m, p.initLocalsArray.Finishes R () ([], m₀) ([], m) ∧ p.Begun R arrays m₀ m := by
  cases harray : p.localsArray with
  | none =>
    have hnone (array : LocalId) : p.localsArray ≠ some array := by
      rw [harray]
      nofun
    have hpure : p.initLocalsArray = pure () := by
      unfold initLocalsArray
      rw [harray]
    rw [hpure]
    exact ⟨m₀, Fragment.finishes_pure () _, ⟨nofun, .refl m₀, fun array h => absurd h (hnone array),
      fun _ _ _ => id⟩, fun _ _ => rfl, fun array h => absurd h (hnone array), .refl m₀, fun _ _ => id⟩
  | some array =>
    obtain ⟨w, hw⟩ : ∃ w, p.getLocal array = .ok w := by
      obtain ⟨w, hw⟩ := (initLocalsArray_eq_ok harray hok).1.exists_local
      exact ⟨w, getLocal_eq_ok_iff.2 hw⟩
    have heq {other : LocalId} (hother : p.localsArray = some other) : other = array :=
      Option.some_inj.1 (hother.symm.trans harray)
    let size := R.literal (.int p.locals.size)
    let m := (m₀.ask R .newLocalsArray [size]).2.store array (m₀.ask R .newLocalsArray [size]).1
    have hcreate : p.initLocalsArray.Finishes R () ([], m₀) ([], m) := by
      have hlook : (discard (liftM (p.getLocal array)) : Fragment Unit).Finishes R () ([], m₀) ([], m₀) :=
        Fragment.finishes_lift_bind hw (Fragment.finishes_pure () _)
      have hsize : (Fragment.emit (.constInt p.locals.size)).Finishes R () ([], m₀) ([size], m₀) :=
        Fragment.finishes_emit rfl
      have hcall := Fragment.finishes_callIntrinsic (R := R) .newLocalsArray [size] rfl [] m₀
      unfold initLocalsArray
      rw [harray]
      exact hlook.bind (hsize.bind (hcall.bind (Fragment.finishes_emit rfl)))
    have hheld : m.locals array = (m₀.ask R .newLocalsArray [size]).1 :=
      Function.update_self array _ _
    have hasked : m₀.Spares arrays (m₀.ask R .newLocalsArray [size]).2 :=
      Memory.Spares.tell hR (by simp) [size] m₀
    refine ⟨m, hcreate, ⟨nofun, .refl m, fun other hother => ?_, fun _ _ _ => id⟩, fun id hid => ?_,
      fun other hother => ?_, ?_, hasked.arrays⟩
    · rw [heq hother, hheld]
      exact ⟨_, hR.created size m₀.world, .nil R array m⟩
    · have hne : id ≠ array := fun h => hid (h ▸ harray)
      rw [Memory.locals_store, Function.update_of_ne hne, hasked.locals]
    · rw [heq hother, hheld]
      exact hR.unborn size m₀.world
    · exact (hasked.stores.mono nofun).trans (.store harray _ _) fun _ => id

/-- Once the array is there, the first values of the variables are all that is left. -/
theorem Begun.prepared {p : Procedure} {m₀ m₁ m : Memory V W} (hbegun : p.Begun R arrays m₀ m₁)
    (h : p.Filled R arrays p.locals.toList m₁ m) : p.Prepared R arrays m₀ m where
  defaults := h.defaults
  array array harray := by
    obtain ⟨f, hf, hcopies⟩ := h.copies array harray
    rw [h.array_eq harray]
    refine ⟨hbegun.unborn array harray, f, hf, ⟨fun name v hv => ?_, hcopies.absent⟩⟩
    have hcopied := isCopied_of_lastCopied? hv
    have hne : p.localsArray ≠ some v.id := by
      rw [harray]
      rintro heq
      obtain rfl := Option.some_inj.1 heq
      simp [Local.isCopied] at hcopied
    rw [← hbegun.locals v.id hne]
    exact hcopies.copied name v hv
  stores := (hbegun.stores.mono fun _ => .inl).trans (h.stores.mono fun _ => .inr) fun _ => id
  arrays b f hb := by
    refine h.arrays b f (fun array harray heq => ?_) (hbegun.arrays b f hb)
    rw [heq, hbegun.unborn array harray] at hb
    cases hb

/-- The variables get their first values. -/
theorem exists_prepared_initLocals (hR : R.KeepsArrays arrays) {p : Procedure}
    (hinit : p.localsInitialized = false) (hok : p.initLocals.result = .ok ()) (m₀ : Memory V W) :
    ∃ m, p.initLocals.Finishes R () ([], m₀) ([], m) ∧ p.Prepared R arrays m₀ m := by
  obtain ⟨harrayok, hvars, -⟩ := initLocals_eq_ok hinit hok
  have heq : p.initLocals = (p.initLocalsArray >>= fun _ => p.locals.toList.forM p.initVar) := by
    unfold initLocals
    rw [hinit, if_neg Bool.false_ne_true]
  have hdeclared : ∀ v ∈ p.locals.toList, p.locals.get? v.id = some v := fun v =>
    Locals.mem_toList_iff.1
  obtain ⟨m₁, hcreate, hbegun⟩ := exists_begun hR harrayok m₀
  obtain ⟨m, hruns, hall⟩ := exists_filled hR hbegun.filled hdeclared p.locals.nodup_ids hvars
  rw [heq]
  exact ⟨m, hcreate.bind hruns, hbegun.prepared hall⟩

/-- What the setup comes to. -/
theorem exists_prepared (hR : R.KeepsArrays arrays) {p : Procedure}
    (hinit : p.localsInitialized = false) (hok : p.setup.result = .ok ()) (m₀ : Memory V W) :
    ∃ m, p.setup.Finishes R () ([], m₀) ([], m) ∧ p.Prepared R arrays m₀ m := by
  have hlocals : p.initLocals.result = .ok () := by
    rw [setup_eq] at hok
    exact hok
  unfold setup
  cases hkind : p.kind with
  | function | method => exact exists_prepared_initLocals hR hinit hlocals m₀
  | scriptMain script =>
    have hcall := Fragment.finishes_callWithName (R := R) .onInclude rfl script [] m₀
    obtain ⟨m, hruns, hprepared⟩ := exists_prepared_initLocals hR hinit hlocals
      (m₀.tell R .onInclude [R.context, R.literal (.str script)])
    exact ⟨m, hcall.bind hruns, hprepared.after (.tell hR (by simp) _ m₀)⟩

end Procedure

end StackCode
