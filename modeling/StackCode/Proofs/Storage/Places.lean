import StackCode.Proofs.Execution.Step
import StackCode.Proofs.Fragment.Typed
import StackCode.Proofs.Layout.Slots
import StackCode.Proofs.Returns.Sites

/-!
# Reading and writing places

What the code that reads and writes a variable does, in a slot and in an entry of the locals array.
The value of a slot is stored and fetched as it is; that of an entry is converted to a dynamically
typed value and back.  A value that a store finds on the stack before the array and the key are there
waits in a temporary, so the machine has to be followed with its temporaries (`Runtime.Through`).
Main statements: `Place.store_finishes`, `Place.load_finishes`, `Procedure.storePending_does`, and
what an entry keeps if the locals array is a map (`Place.stores_write`, `Place.Stores.read`).
-/

namespace StackCode

variable {V W : Type} {R : Runtime V W}

/-! ## Straight code on the machine -/

/-- Wherever the code stands, the machine passes it, in a step for each instruction, from these
temporaries, stack and memory to those. -/
def Runtime.Through (R : Runtime V W) (is : List Instr) (t : TempSlot → V) (s : List V × Memory V W)
    (t' : TempSlot → V) (s' : List V × Memory V W) : Prop :=
  ∀ (code post : List Instr) (c : Control V) (k : Kept V W), code.drop c.pc = is ++ post →
    c.temps = t → c.stack = s.1 → k.memory = s.2 → Run.after (R.step code) (.on c k) is.length =
      .on { c with pc := c.pc + is.length, temps := t', stack := s'.1 } { k with memory := s'.2 }

namespace Runtime

variable {is js : List Instr} {t t' t₁ : TempSlot → V} {s s' s₁ : List V × Memory V W}

theorem Through.nil (t : TempSlot → V) (s : List V × Memory V W) : R.Through [] t s t s := by
  rintro code post c k - rfl hst hm
  rw [← hst, ← hm]
  rfl

theorem Through.append (h : R.Through is t s t₁ s₁) (h' : R.Through js t₁ s₁ t' s') :
    R.Through (is ++ js) t s t' s' := by
  intro code post c k hcode ht hst hm
  rw [List.append_assoc] at hcode
  have hrest := h' code post { c with pc := c.pc + is.length, temps := t₁, stack := s₁.1 }
    { k with memory := s₁.2 } (drop_add_of_drop hcode) rfl rfl rfl
  rw [List.length_append, Run.after_add, h code (js ++ post) c k hcode ht hst hm, hrest]
  simp only [Nat.add_assoc]

/-- One instruction, by the step that it takes. -/
theorem through_of_step {i : Instr}
    (h : ∀ (code : List Instr) (c : Control V) (k : Kept V W), code[c.pc]? = some i → c.temps = t →
      c.stack = s.1 → k.memory = s.2 → R.step code c k =
        .on { c with pc := c.pc + 1, temps := t', stack := s'.1 } { k with memory := s'.2 }) :
    R.Through [i] t s t' s' := by
  exact fun code post c k hcode => h code c k (getElem?_of_drop hcode)

/-- Plain code leaves the temporaries alone. -/
theorem through_of_execAll (his : ∀ i ∈ is, i.isPlain = true) (h : Instr.execAll R is s = some s')
    (t : TempSlot → V) : R.Through is t s t s' := by
  induction is generalizing s with
  | nil =>
    cases h
    exact .nil t _
  | cons i is ih =>
    obtain ⟨hi, his⟩ := List.forall_mem_cons.1 his
    rw [Instr.execAll_cons] at h
    obtain ⟨s₁, hexec, h⟩ := Option.bind_eq_some_iff.1 h
    have hfirst : R.Through [i] t s t s₁ := by
      refine through_of_step fun code c k hpc ht hst hm => ?_
      rw [step_plain hpc hi (by rw [hst, hm]; exact hexec), ← ht]
      rfl
    exact hfirst.append (ih his h)

theorem through_note {i : Instr} (hi : i.isNote = true) (t : TempSlot → V)
    (s : List V × Memory V W) : R.Through [i] t s t s := by
  refine through_of_step fun code c k hpc ht hst hm => ?_
  rw [step_note hpc hi, ← ht, ← hst, ← hm]
  rfl

theorem through_notes (his : ∀ i ∈ is, i.isNote = true) (t : TempSlot → V)
    (s : List V × Memory V W) : R.Through is t s t s := by
  induction is with
  | nil => exact .nil t s
  | cons i is ih =>
    obtain ⟨hi, his⟩ := List.forall_mem_cons.1 his
    exact (through_note hi t s).append (ih his)

theorem through_storeTemp (slot : TempSlot) (t : TempSlot → V) (v : V) (st : List V)
    (m : Memory V W) :
    R.Through [.storeTemp slot] t (v :: st, m) (Function.update t slot v) (st, m) := by
  refine through_of_step fun code c k hpc ht hst (hm : k.memory = m) => ?_
  simp only [step, hpc, hst]
  rw [← ht, ← hm]
  rfl

theorem through_loadTemp (slot : TempSlot) (t : TempSlot → V) (st : List V) (m : Memory V W) :
    R.Through [.loadTemp slot] t (st, m) t (t slot :: st, m) := by
  refine through_of_step fun code c k hpc ht hst (hm : k.memory = m) => ?_
  simp only [step, hpc, hst]
  rw [← ht, ← hm]
  rfl

end Runtime

/-! ## Fragments and drafts that are executed to their end -/

/-- Writing the fragment does not stop, and executing it leads from one stack and memory to another. -/
structure Fragment.Finishes {α : Type} (R : Runtime V W) (x : Fragment α) (a : α)
    (s s' : List V × Memory V W) : Prop where
  result : x.result = .ok a
  runs : x.Runs R s s'

namespace Fragment

variable {α β : Type} {s s' s₁ : List V × Memory V W}

theorem finishes_pure (a : α) (s : List V × Memory V W) : (pure a : Fragment α).Finishes R a s s :=
  ⟨rfl, runs_pure a⟩

theorem finishes_emit {i : Instr} (h : i.exec R s = some s') : (emit i).Finishes R () s s' :=
  ⟨rfl, runs_emit h⟩

theorem Finishes.bind {x : Fragment α} {f : α → Fragment β} {a : α} {b : β}
    (hx : x.Finishes R a s s₁) (hf : (f a).Finishes R b s₁ s') : (x >>= f).Finishes R b s s' := by
  refine ⟨?_, hx.runs.bind hx.result hf.runs⟩
  rw [bind_of_ok hx.result]
  exact hf.result

/-- A look-up that succeeds is no code. -/
theorem finishes_lift_bind {r : Except LowerError α} {f : α → Fragment β} {a : α} {b : β}
    (ha : r = .ok a) (hf : (f a).Finishes R b s s') :
    ((liftM r : Fragment α) >>= f).Finishes R b s s' :=
  Finishes.bind (x := ofExcept r) ⟨ha, runs_pure a⟩ hf

/-- A value is converted into one of a type of values. -/
theorem finishes_convert {source target : Ty} (hsource : source ≠ .void) (htarget : target ≠ .void)
    (x : V) (st : List V) (m : Memory V W) :
    (convert source target).Finishes R () (x :: st, m)
      ((m.coerce R source target x).1 :: st, (m.coerce R source target x).2) :=
  have hresult := result_convert (Ty.isVoid_of_ne hsource) target
  ⟨hresult, runs_convert hresult (Ty.isVoid_of_ne htarget) x st m⟩

theorem finishes_callIntrinsic (i : Intrinsic) (args : List V) (hargs : args.length = i.arity)
    (st : List V) (m : Memory V W) :
    (callIntrinsic i).Finishes R () (args ++ st, m)
      ((if i.returns then [(m.ask R i args.reverse).1] else []) ++ st, m.tell R i args.reverse) :=
  ⟨rfl, runs_callIntrinsic i args hargs st m⟩

theorem finishes_callWithName (i : Intrinsic) (harity : i.arity = 2) (name : Name) (st : List V)
    (m : Memory V W) :
    (callWithName i name).Finishes R () (st, m)
      ((if i.returns then [(m.ask R i [R.context, R.literal (.str name)]).1] else []) ++ st,
        m.tell R i [R.context, R.literal (.str name)]) :=
  ⟨rfl, runs_callWithName i harity name st m⟩

end Fragment

/-- Whatever has been allotted, the draft comes to code that control passes, and that takes the
machine from one stack and memory to another. -/
def Draft.Does (R : Runtime V W) (x : Draft Unit) (s s' : List V × Memory V W) : Prop :=
  ∀ frame, ∃ is frame', x.Gives frame (is.map .instr) frame' () ∧ (∀ i ∈ is, i.passes = true) ∧
    ∀ t, ∃ t', R.Through is t s t' s'

namespace Draft.Does

variable {x y : Draft Unit} {s s' s₁ : List V × Memory V W}

theorem bind (hx : x.Does R s s₁) (hy : y.Does R s₁ s') : (x >>= fun _ => y).Does R s s' := by
  intro frame
  obtain ⟨is, mid, hgives, his, hthrough⟩ := hx frame
  obtain ⟨js, frame', hgives', hjs, hthrough'⟩ := hy mid
  refine ⟨is ++ js, frame', ?_, List.forall_mem_append.2 ⟨his, hjs⟩, fun t => ?_⟩
  · rw [List.map_append]
    exact gives_bind_iff.2 ⟨(), mid, _, _, hgives, hgives', rfl⟩
  · obtain ⟨t₁, h₁⟩ := hthrough t
    obtain ⟨t', h'⟩ := hthrough' t₁
    exact ⟨t', h₁.append h'⟩

/-- A draft does one thing. -/
theorem unique (h : x.Does R s s') (h₁ : x.Does R s s₁) : s' = s₁ := by
  obtain ⟨is, frame', hgives, -, hthrough⟩ := h { labels := {} }
  obtain ⟨js, frame₁, hgives₁, -, hthrough₁⟩ := h₁ { labels := {} }
  have hcode : is = js := by
    unfold Gives at hgives hgives₁
    rw [hgives] at hgives₁
    exact List.map_injective_iff.2 (fun _ _ => Directive.instr.inj) (Drafted.mk.inj hgives₁).1
  subst hcode
  obtain ⟨t', h'⟩ := hthrough fun _ => R.unbound
  obtain ⟨t₁, h₁'⟩ := hthrough₁ fun _ => R.unbound
  let c : Control V := { pc := 0, stack := s.1, temps := fun _ => R.unbound, regions := [] }
  let k : Kept V W := { memory := s.2, state := R.unbound }
  have heq := (h' is [] c k (List.append_nil is).symm rfl rfl rfl).symm.trans
    (h₁' is [] c k (List.append_nil is).symm rfl rfl rfl)
  obtain ⟨hcontrol, hkept⟩ := Run.on.inj heq
  exact Prod.ext (Control.mk.inj hcontrol).2.1 (Kept.mk.inj hkept).1

/-- A fragment does what its code does. -/
theorem of_finishes {x : Fragment Unit} (hplain : x.IsPlain) (h : x.Finishes R () s s') :
    (ofFragment x).Does R s s' := by
  intro frame
  refine ⟨x.code, frame, gives_ofFragment_iff.2 ⟨rfl, rfl, h.result⟩,
    fun i hi => Instr.passes_of_isPlain (hplain i hi), fun t => ⟨t, ?_⟩⟩
  exact Runtime.through_of_execAll hplain h.runs t

end Draft.Does

namespace Place

/-! ## What reading and writing do -/

/-- The array and the key that stand below a value that is stored, the key on top. -/
def beneath (R : Runtime V W) (m : Memory V W) : Place → List V
  | .slot _ => []
  | .entry array key _ => [R.literal (.str key), m.locals array]

/-- Stores a value typed as the variable, in the array that was there in the memory `m₀`. -/
def write (R : Runtime V W) (m₀ : Memory V W) (x : V) (m : Memory V W) : Place → Memory V W
  | .slot id => m.store id x
  | .entry array key ty =>
    let (x, m) := m.coerce R ty .value x
    m.tell R .arraySet [m₀.locals array, R.literal (.str key), x]

/-- Stores a dynamically typed value. -/
def writeRaw (R : Runtime V W) (x : V) (m : Memory V W) : Place → Memory V W
  | .slot id => m.store id x
  | .entry array key _ => m.tell R .arraySet [m.locals array, R.literal (.str key), x]

/-- Stores what an intrinsic answers that is called with the context and a name, as if it were typed as
the variable. -/
def bind (R : Runtime V W) (i : Intrinsic) (name : Name) (m : Memory V W) (place : Place) :
    Memory V W :=
  let (x, m₁) := m.ask R i [R.context, R.literal (.str name)]
  place.write R m x m₁

/-- Fetches the value typed as the variable. -/
def read (R : Runtime V W) (m : Memory V W) : Place → V × Memory V W
  | .slot id => (m.locals id, m)
  | .entry array key ty =>
    let (x, m) := m.ask R .arrayGet [m.locals array, R.literal (.str key)]
    m.coerce R .value ty x

variable {place : Place}

theorem pushKey_finishes (st : List V) (m : Memory V W) :
    place.pushKey.Finishes R () (st, m) (place.beneath R m ++ st, m) := by
  cases place with
  | slot id => exact Fragment.finishes_pure () _
  | entry array key ty =>
    have harray : (Fragment.emit (.loadLocal array)).Finishes R () (st, m) (m.locals array :: st, m) :=
      Fragment.finishes_emit rfl
    exact harray.bind (Fragment.finishes_emit rfl)

/-- A store takes the value, and the array and the key below it. -/
theorem store_finishes (h : place.HoldsValue) (m₀ : Memory V W) (x : V) (st : List V)
    (m : Memory V W) :
    place.store.Finishes R () (x :: (place.beneath R m₀ ++ st), m) (st, place.write R m₀ x m) := by
  cases place with
  | slot id => exact Fragment.finishes_emit rfl
  | entry array key ty =>
    have hvalue : Ty.value ≠ .void := nofun
    refine (Fragment.finishes_convert h hvalue x _ m).bind ?_
    exact Fragment.finishes_callIntrinsic .arraySet [_, R.literal (.str key), m₀.locals array] rfl st _

theorem bind_finishes (h : place.HoldsValue) {i : Intrinsic} (harity : i.arity = 2)
    (hreturns : i.returns = true) (name : Name) (st : List V) (m : Memory V W) :
    (place.pushKey >>= fun _ => Fragment.callWithName i name >>= fun _ => place.store).Finishes R ()
      (st, m) (st, place.bind R i name m) := by
  refine (pushKey_finishes st m).bind ?_
  have hcall := Fragment.finishes_callWithName (R := R) i harity name (place.beneath R m ++ st) m
  rw [if_pos hreturns] at hcall
  exact hcall.bind (store_finishes h m _ st _)

theorem load_finishes (h : place.HoldsValue) (st : List V) (m : Memory V W) :
    place.load.Finishes R () (st, m) ((place.read R m).1 :: st, (place.read R m).2) := by
  cases place with
  | slot id => exact Fragment.finishes_emit rfl
  | entry array key ty =>
    have hvalue : Ty.value ≠ .void := nofun
    refine (pushKey_finishes st m).bind ?_
    have hget := Fragment.finishes_callIntrinsic (R := R) .arrayGet
      [R.literal (.str key), m.locals array] rfl st m
    exact hget.bind (Fragment.finishes_convert hvalue h _ st _)

end Place

/-! ## The locals array as a map -/

/-- The locals array is a map: `entry w a k` is what the array `a` holds under the key `k` in the
world `w`.  It is what has been set there, and neither fetching nor converting a value changes it. -/
structure Runtime.HoldsEntries (R : Runtime V W) (entry : W → V → V → V) : Prop where
  get : ∀ a k w, (R.perform (.call (.intrinsic .arrayGet)) [a, k] w).1 = entry w a k
  set : ∀ a k x w, entry (R.perform (.call (.intrinsic .arraySet)) [a, k, x] w).2 a k = x
  get_keeps : ∀ a k w, entry (R.perform (.call (.intrinsic .arrayGet)) [a, k] w).2 = entry w
  convert_keeps : ∀ source target x w, entry (R.perform (.convert source target) [x] w).2 = entry w

/-- Converting the value from the type to a dynamically typed one and back gives the value. -/
def Runtime.RoundTrips (R : Runtime V W) (ty : Ty) (x : V) : Prop :=
  ∀ m m' : Memory V W, (m'.coerce R .value ty (m.coerce R ty .value x).1).1 = x

namespace Memory

theorem locals_coerce (source target : Ty) (x : V) (m : Memory V W) :
    (m.coerce R source target x).2.locals = m.locals := by
  unfold coerce
  split <;> rfl

theorem coerce_self (ty : Ty) (x : V) (m : Memory V W) : m.coerce R ty ty x = (x, m) := if_pos rfl

end Memory

/-- Nothing is converted in an entry of a dynamically typed variable. -/
theorem Runtime.roundTrips_value (x : V) : R.RoundTrips .value x := by
  intro m m'
  rw [Memory.coerce_self, Memory.coerce_self]

theorem Runtime.HoldsEntries.coerce_keeps {entry : W → V → V → V} (h : R.HoldsEntries entry)
    (source target : Ty) (x : V) (m : Memory V W) :
    entry (m.coerce R source target x).2.world = entry m.world := by
  unfold Memory.coerce
  split
  · rfl
  · exact h.convert_keeps source target x m.world

namespace Place

variable {place : Place} {entry : W → V → V → V} {x : V} {m m₀ : Memory V W}

/-- What comes back of a value that has been stored in the place: from an entry, what the conversion
there and back makes of it. -/
def Returns (R : Runtime V W) (x y : V) : Place → Prop
  | .slot _ => y = x
  | .entry _ _ ty => ∃ m m' : Memory V W, y = (m'.coerce R .value ty (m.coerce R ty .value x).1).1

/-- What is stored in the place comes back unchanged, conversions included. -/
def IsFaithful (R : Runtime V W) (x : V) : Place → Prop
  | .slot _ => True
  | .entry _ _ ty => R.RoundTrips ty x

/-- The value, typed as the variable, is stored in the place. -/
def Stores (R : Runtime V W) (entry : W → V → V → V) (x : V) (m : Memory V W) : Place → Prop
  | .slot id => m.locals id = x
  | .entry array key ty => ∃ m₀ : Memory V W,
      entry m.world (m.locals array) (R.literal (.str key)) = (m₀.coerce R ty .value x).1

theorem stores_write (h : R.HoldsEntries entry) (harray : place.beneath R m = place.beneath R m₀) :
    place.Stores R entry x (place.write R m₀ x m) := by
  cases place with
  | slot id => exact Function.update_self id x m.locals
  | entry array key ty =>
    have harray : m.locals array = m₀.locals array := (List.cons.inj (List.cons.inj harray).2).1
    refine ⟨m, ?_⟩
    change entry (R.perform _ _ _).2 ((m.coerce R ty .value x).2.locals array) _ = _
    rw [Memory.locals_coerce, harray]
    exact h.set _ _ _ _

theorem stores_bind (h : R.HoldsEntries entry) (i : Intrinsic) (name : Name) (m : Memory V W) :
    place.Stores R entry (m.ask R i [R.context, R.literal (.str name)]).1 (place.bind R i name m) := by
  refine stores_write h ?_
  cases place <;> rfl

/-- What is fetched is what comes back of what has been stored, which stays stored. -/
theorem Stores.returns (h : R.HoldsEntries entry) (hstores : place.Stores R entry x m) :
    place.Returns R x (place.read R m).1 ∧ place.Stores R entry x (place.read R m).2 := by
  cases place with
  | slot id => exact ⟨hstores, hstores⟩
  | entry array key ty =>
    obtain ⟨m₀, hentry⟩ := hstores
    have hget : (m.ask R .arrayGet [m.locals array, R.literal (.str key)]).1 =
        (m₀.coerce R ty .value x).1 := (h.get _ _ _).trans hentry
    refine ⟨⟨m₀, (m.ask R .arrayGet [m.locals array, R.literal (.str key)]).2, ?_⟩, m₀, ?_⟩
    · rw [← hget]
      rfl
    · change entry (Memory.coerce R .value ty _ (m.ask R .arrayGet _).2).2.world
        ((Memory.coerce R .value ty _ (m.ask R .arrayGet _).2).2.locals array) _ = _
      rw [h.coerce_keeps, Memory.locals_coerce, ← hentry]
      exact congrFun (congrFun (h.get_keeps _ _ _) _) _

theorem Returns.eq {y : V} (h : place.Returns R x y) (hfaithful : place.IsFaithful R x) : y = x := by
  cases place with
  | slot id => exact h
  | entry array key ty =>
    obtain ⟨m, m', rfl⟩ := h
    exact hfaithful m m'

/-- What comes back unchanged is fetched as it is stored. -/
theorem Stores.read (h : R.HoldsEntries entry) (hstores : place.Stores R entry x m)
    (hfaithful : place.IsFaithful R x) :
    (place.read R m).1 = x ∧ place.Stores R entry x (place.read R m).2 :=
  ⟨(hstores.returns h).1.eq hfaithful, (hstores.returns h).2⟩

/-- What an intrinsic that leaves the entries alone does not change is stored still. -/
theorem Stores.tell {i : Intrinsic} {args : List V}
    (h : ∀ w, entry (R.perform (.call (.intrinsic i)) args w).2 = entry w)
    (hstores : place.Stores R entry x m) : place.Stores R entry x (m.tell R i args) := by
  cases place with
  | slot id => exact hstores
  | entry array key ty =>
    obtain ⟨m₀, hentry⟩ := hstores
    exact ⟨m₀, (congrFun (congrFun (h m.world) _) _).trans hentry⟩

theorem Stores.coerce (h : R.HoldsEntries entry) (hstores : place.Stores R entry x m)
    (source target : Ty) (y : V) : place.Stores R entry x (m.coerce R source target y).2 := by
  cases place with
  | slot id => exact (congrFun (Memory.locals_coerce source target y m) id).trans hstores
  | entry array key ty =>
    obtain ⟨m₀, hentry⟩ := hstores
    refine ⟨m₀, ?_⟩
    rw [h.coerce_keeps, Memory.locals_coerce]
    exact hentry

end Place

/-! ## Values that are stored where they are found -/

/-- The dynamically typed value on the stack is stored as it is. -/
theorem Procedure.storePending_does {p : Procedure} {id : LocalId} {place : Place}
    (hplace : p.place id = .ok place) (x : V) (st : List V) (m : Memory V W) :
    (p.storePending id).Does R (x :: st, m) (st, place.writeRaw R x m) := by
  intro frame
  cases place with
  | slot id' =>
    have heq : p.storePending id = Draft.emit (.storeLocal id') := by
      unfold storePending
      rw [hplace]
      rfl
    rw [heq]
    exact ⟨[.storeLocal id'], frame, Draft.gives_emit_iff.2 ⟨rfl, rfl⟩,
      List.forall_mem_singleton.2 rfl, fun t => ⟨t, Runtime.through_of_execAll
        (List.forall_mem_singleton.2 rfl) rfl t⟩⟩
  | entry array key ty =>
    have heq : p.storePending id = (Draft.acquireTemp .value >>= fun slot =>
        Draft.emit (.storeTemp slot) >>= fun _ =>
        Draft.ofFragment (Place.entry array key ty).pushKey >>= fun _ =>
        Draft.emit (.loadTemp slot) >>= fun _ =>
        Draft.ofFragment (Fragment.callIntrinsic .arraySet) >>= fun _ =>
        Draft.releaseTemp slot) := by
      unfold storePending
      rw [hplace]
      rfl
    rw [heq]
    let slot := (frame.temps.acquire .value).1
    obtain ⟨notes, halloc, hnotes⟩ := Plan.allocation_eq slot (frame.temps.acquire .value).2.1 .value
    obtain ⟨temps, hrelease, -⟩ := TempPool.exists_tryRelease
      (((frame.temps.acquire_spec .value).2 slot).2 (.inl rfl))
    refine ⟨notes ++ [.storeTemp slot, .loadLocal array, .constStr key, .loadTemp slot,
      .callIntrinsic .arraySet, .freeTemp slot], { frame with temps }, ?_, ?_, fun t => ?_⟩
    · rw [List.map_append, ← halloc]
      refine Draft.gives_bind_iff.2 ⟨slot, _, _, _, Draft.gives_acquireTemp_iff.2 ⟨rfl, rfl, rfl⟩,
        ?_, rfl⟩
      refine Draft.gives_emit_bind_iff.2 ⟨_, ?_, rfl⟩
      refine Draft.gives_ofFragment_bind_iff.2 ⟨(), _, rfl, ?_, rfl⟩
      refine Draft.gives_emit_bind_iff.2 ⟨_, ?_, rfl⟩
      refine Draft.gives_ofFragment_bind_iff.2 ⟨(), _, rfl, ?_, rfl⟩
      exact Draft.gives_releaseTemp_iff.2 ⟨temps, hrelease, rfl, rfl⟩
    · refine List.forall_mem_append.2 ⟨fun i hi => Instr.passes_of_isNote (hnotes i hi), ?_⟩
      simp only [List.forall_mem_cons]
      exact ⟨rfl, rfl, rfl, rfl, rfl, rfl, nofun⟩
    · let t₁ := Function.update t slot x
      have hkey : R.Through [.loadLocal array, .constStr key] t₁ (st, m) t₁
          (R.literal (.str key) :: m.locals array :: st, m) :=
        Runtime.through_of_execAll (List.forall_mem_cons.2 ⟨rfl, List.forall_mem_singleton.2 rfl⟩)
          rfl t₁
      have hload := Runtime.through_loadTemp (R := R) slot t₁
        (R.literal (.str key) :: m.locals array :: st) m
      rw [show t₁ slot = x from Function.update_self slot x t] at hload
      have hset : R.Through [.callIntrinsic .arraySet] t₁
          (x :: R.literal (.str key) :: m.locals array :: st, m) t₁
          (st, m.tell R .arraySet [m.locals array, R.literal (.str key), x]) :=
        Runtime.through_of_execAll (List.forall_mem_singleton.2 rfl)
          (Fragment.runs_callIntrinsic .arraySet [x, R.literal (.str key), m.locals array] rfl st m) t₁
      exact ⟨t₁, (Runtime.through_notes hnotes t _).append
        ((Runtime.through_storeTemp slot t x st m).append (hkey.append (hload.append
          (hset.append (Runtime.through_note rfl t₁ _)))))⟩

end StackCode
