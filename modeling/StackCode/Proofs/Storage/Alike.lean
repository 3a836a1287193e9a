import StackCode.Proofs.Storage.Places

/-!
# Slots and entries are read alike

A variable with a slot in one procedure and with an entry of the locals array in another is read in
both as what was stored, after an assignment and after it has been bound to global or static storage;
the entry, because the value is converted there and back.  An exception is dynamically typed and is
stored as it is in either: the slot gives it back as it came, but what is read from the entry is
converted into the type of the variable.  The two differ where this conversion changes it.  Main
statements: `Procedure.stores_read_alike`, and `Procedure.tally_caught_apart`, where they differ.
-/

namespace StackCode

variable {V W : Type} {R : Runtime V W} {entry : W → V → V → V}

/-- The memory after a value has been set under a key of the locals array and fetched again. -/
def Memory.refetch (R : Runtime V W) (array : LocalId) (key : Name) (x : V) (m : Memory V W) :
    Memory V W :=
  (m.tell R .arraySet [m.locals array, R.literal (.str key), x]).tell R .arrayGet
    [m.locals array, R.literal (.str key)]

/-- Whatever else is on the stack, the draft comes to code that takes these values from it, and pushes
that one. -/
def Draft.Yields (R : Runtime V W) (x : Draft Unit) (args : List V) (m : Memory V W) (v : V) : Prop :=
  ∀ st, ∃ m', x.Does R (args ++ st, m) (v :: st, m')

theorem Draft.Yields.unique {x : Draft Unit} {args : List V} {m : Memory V W} {v w : V}
    (h : x.Yields R args m v) (h' : x.Yields R args m w) : v = w := by
  obtain ⟨m₁, h₁⟩ := h []
  obtain ⟨m₂, h₂⟩ := h' []
  exact (List.cons.inj (Prod.mk.inj (h₁.unique h₂)).1).1

namespace Procedure

variable {p : Procedure} {id : LocalId} {v : Local} {place : Place} {m : Memory V W}

/-! ## Each store -/

section
variable (hplace : p.place id = .ok place) (hvalue : place.HoldsValue)
include hplace hvalue

theorem loadVar_finishes (st : List V) (m : Memory V W) :
    (p.loadVar id).Finishes R () (st, m) ((place.read R m).1 :: st, (place.read R m).2) :=
  Fragment.finishes_lift_bind hplace (Place.load_finishes hvalue st m)

/-- What has been stored is read behind it. -/
theorem yields_of_stores (hmap : R.HoldsEntries entry) {x : Draft Unit} {args : List V} {y : V}
    {m₁ : Memory V W} (hx : ∀ st, x.Does R (args ++ st, m) (st, m₁))
    (hstores : place.Stores R entry y m₁) (hfaithful : place.IsFaithful R y) :
    (x >>= fun _ => p.loadVar id).Yields R args m y := by
  intro st
  have hload := loadVar_finishes (R := R) hplace hvalue st m₁
  rw [(hstores.read hmap hfaithful).1] at hload
  exact ⟨_, (hx st).bind (.of_finishes (p.isPlain_loadVar id) hload)⟩

theorem bindGlobal_finishes (hv : p.getLocal id = .ok v) (st : List V) (m : Memory V W) :
    (p.bindGlobal id).Finishes R () (st, m) (st, place.bind R .globalRef v.name m) :=
  Fragment.finishes_lift_bind hv
    (Fragment.finishes_lift_bind hplace (Place.bind_finishes hvalue rfl rfl v.name st m))

theorem bindHolder_finishes (key : Name) (st : List V) (m : Memory V W) :
    (p.bindHolder id key).Finishes R () (st, m) (st, place.bind R .staticHolder key m) :=
  Fragment.finishes_lift_bind hplace (Place.bind_finishes hvalue rfl rfl key st m)

/-- An assignment stores the value of its expression, if that leaves the locals array where it is. -/
theorem evaluate_assign_stores (hmap : R.HoldsEntries entry) (hv : p.getLocal id = .ok v)
    (hty : v.ty ≠ .void) (note : Annotation) {e : Expr} {x : V} {m m₁ : Memory V W}
    (he : ∀ st, (p.value e v.ty .assigned).Finishes R () (st, m) (x :: st, m₁))
    (harray : place.beneath R m₁ = place.beneath R m) (hfaithful : place.IsFaithful R x) : ∃ y m₂,
      place.Stores R entry x m₂ ∧ ∀ st, (p.evaluate (.assign note id e)).Finishes R note.ty (st, m)
        ((if note.ty.isVoid then [] else [y]) ++ st, m₂) := by
  have hstores : place.Stores R entry x (place.write R m x m₁) := Place.stores_write hmap harray
  have hstore (st : List V) := Place.store_finishes (R := R) hvalue m x st m₁
  have hfront {f : Unit → Fragment Ty} {st : List V} {s : List V × Memory V W}
      (hf : (f ()).Finishes R note.ty (x :: (place.beneath R m ++ st), m₁) s) :
      (place.pushKey >>= fun _ => p.value e v.ty .assigned >>= f).Finishes R note.ty (st, m) s :=
    (Place.pushKey_finishes st m).bind ((he _).bind hf)
  by_cases hnote : note.ty.isVoid = true
  · refine ⟨x, _, hstores, fun st => ?_⟩
    rw [evaluate]
    refine Fragment.finishes_lift_bind hv (Fragment.finishes_lift_bind hplace (hfront ?_))
    rw [if_pos hnote, if_pos hnote]
    exact (hstore st).bind (Fragment.finishes_pure _ _)
  · have hto : note.ty ≠ .void := fun h => hnote (Ty.isVoid_iff.2 h)
    cases place with
    | slot id' =>
      let m₂ := (Place.slot id').write R m x m₁
      refine ⟨(m₂.coerce R v.ty note.ty x).1, _, hstores.coerce hmap v.ty note.ty x, fun st => ?_⟩
      rw [evaluate]
      refine Fragment.finishes_lift_bind hv (Fragment.finishes_lift_bind hplace (hfront ?_))
      rw [if_neg hnote, if_neg hnote]
      refine (Fragment.finishes_emit rfl).bind ((Fragment.finishes_emit rfl).bind ?_)
      exact (Fragment.finishes_convert hty hto x st m₂).bind (Fragment.finishes_pure _ _)
    | entry array key ty =>
      -- the value is read back for whoever uses the assignment
      obtain ⟨hread, hstores'⟩ := hstores.read hmap hfaithful
      let m₂ := ((Place.entry array key ty).read R ((Place.entry array key ty).write R m x m₁)).2
      refine ⟨(m₂.coerce R v.ty note.ty x).1, _, hstores'.coerce hmap v.ty note.ty x, fun st => ?_⟩
      have hload := loadVar_finishes (R := R) hplace hvalue st
        ((Place.entry array key ty).write R m x m₁)
      rw [hread] at hload
      rw [evaluate]
      refine Fragment.finishes_lift_bind hv (Fragment.finishes_lift_bind hplace (hfront ?_))
      rw [if_neg hnote, if_neg hnote]
      refine (hstore st).bind (hload.bind ?_)
      exact (Fragment.finishes_convert hty hto x st m₂).bind (Fragment.finishes_pure _ _)

theorem discardAssign_stores (hmap : R.HoldsEntries entry) (hv : p.getLocal id = .ok v)
    (hty : v.ty ≠ .void) (note : Annotation) {e : Expr} {x : V} {m m₁ : Memory V W}
    (he : ∀ st, (p.value e v.ty .assigned).Finishes R () (st, m) (x :: st, m₁))
    (harray : place.beneath R m₁ = place.beneath R m) (hfaithful : place.IsFaithful R x) : ∃ m₂,
      place.Stores R entry x m₂ ∧
      ∀ st, (p.discardValue (.assign note id e)).Finishes R () (st, m) (st, m₂) := by
  obtain ⟨y, m₂, hstores, hfinishes⟩ :=
    evaluate_assign_stores hplace hvalue hmap hv hty note he harray hfaithful
  refine ⟨m₂, hstores, fun st => (hfinishes st).bind ?_⟩
  by_cases hnote : note.ty.isVoid = true
  · rw [if_pos hnote, if_pos hnote]
    exact Fragment.finishes_pure () _
  · rw [if_neg hnote, if_neg hnote]
    exact Fragment.finishes_emit rfl

end

/-! ## Exceptions -/

/-- The slot of a variable gives an exception back as it came. -/
theorem caught_slot_yields (hmap : R.HoldsEntries entry) (hplace : p.place id = .ok (.slot id))
    (x : V) (m : Memory V W) :
    (do p.storePending id; p.loadVar id : Draft Unit).Yields R [x] m x := by
  refine yields_of_stores hplace trivial hmap (fun st => storePending_does hplace x st m) ?_ trivial
  exact Function.update_self id x m.locals

/-- An exception that has been stored in an entry is converted into the type of the variable. -/
theorem caught_entry_yields (hmap : R.HoldsEntries entry) {array : LocalId} {key : Name} {ty : Ty}
    (hplace : p.place id = .ok (.entry array key ty)) (hty : ty ≠ .void) (x : V) (m : Memory V W) :
    (do p.storePending id; p.loadVar id : Draft Unit).Yields R [x] m
      ((m.refetch R array key x).coerce R .value ty x).1 := by
  intro st
  let m₁ := (Place.entry array key ty).writeRaw R x m
  have hget : (m₁.ask R .arrayGet [m₁.locals array, R.literal (.str key)]).1 = x :=
    (hmap.get _ _ _).trans (hmap.set _ _ _ _)
  have hload := loadVar_finishes (R := R) hplace hty st m₁
  have hread : ((Place.entry array key ty).read R m₁).1 = ((m.refetch R array key x).coerce R .value ty
      (m₁.ask R .arrayGet [m₁.locals array, R.literal (.str key)]).1).1 := rfl
  rw [hread, hget] at hload
  exact ⟨_, (storePending_does hplace x st m).bind (.of_finishes (p.isPlain_loadVar id) hload)⟩

end Procedure

/-! ## Both kinds of storage -/

/-- The same variable, of a type of values, lives in a slot in one procedure, and in an entry of the
locals array in the other. -/
structure Procedure.KeptBoth (p q : Procedure) (id array : LocalId) (v : Local) : Prop where
  declared : p.getLocal id = .ok v ∧ q.getLocal id = .ok v
  slot : p.place id = .ok (.slot id)
  entry : q.place id = .ok (.entry array v.name v.ty)
  ne_void : v.ty ≠ .void

/-- What both procedures read behind each of the stores to the variable, from memories in which the
same is stored: of what comes back from a conversion there and back, the value itself, and of an
exception, what comes out of the conversion into the type of the variable. -/
structure Procedure.ReadAlike (p q : Procedure) (id : LocalId) (v : Local) (array : LocalId)
    (R : Runtime V W) : Prop where
  assigned : ∀ (note : Annotation) (e : Expr) (x : V) (m m₁ m' m₁' : Memory V W),
    (∀ st, (p.value e v.ty .assigned).Finishes R () (st, m) (x :: st, m₁)) →
    (∀ st, (q.value e v.ty .assigned).Finishes R () (st, m') (x :: st, m₁')) →
    m₁'.locals array = m'.locals array → R.RoundTrips v.ty x →
      (do p.discardValue (.assign note id e); p.loadVar id : Draft Unit).Yields R [] m x ∧
      (do q.discardValue (.assign note id e); q.loadVar id : Draft Unit).Yields R [] m' x
  global : ∀ (x : V) (m m' : Memory V W),
    (m.ask R .globalRef [R.context, R.literal (.str v.name)]).1 = x →
    (m'.ask R .globalRef [R.context, R.literal (.str v.name)]).1 = x → R.RoundTrips v.ty x →
      (do p.bindGlobal id; p.loadVar id : Draft Unit).Yields R [] m x ∧
      (do q.bindGlobal id; q.loadVar id : Draft Unit).Yields R [] m' x
  static : ∀ (key : Name) (x : V) (m m' : Memory V W),
    (m.ask R .staticHolder [R.context, R.literal (.str key)]).1 = x →
    (m'.ask R .staticHolder [R.context, R.literal (.str key)]).1 = x → R.RoundTrips v.ty x →
      (do p.bindHolder id key; p.loadVar id : Draft Unit).Yields R [] m x ∧
      (do q.bindHolder id key; q.loadVar id : Draft Unit).Yields R [] m' x
  caught : ∀ (x : V) (m m' : Memory V W),
    (do p.storePending id; p.loadVar id : Draft Unit).Yields R [x] m x ∧
    (do q.storePending id; q.loadVar id : Draft Unit).Yields R [x] m'
      ((m'.refetch R array v.name x).coerce R .value v.ty x).1

/-- Where the locals array is a map, a variable is read alike in a slot and in an entry. -/
theorem Procedure.stores_read_alike {p q : Procedure} {id array : LocalId} {v : Local}
    (h : p.KeptBoth q id array v) (hmap : R.HoldsEntries entry) : p.ReadAlike q id v array R := by
  have hslot : (Place.slot id).HoldsValue := trivial
  have hentry : (Place.entry array v.name v.ty).HoldsValue := h.ne_void
  refine ⟨fun note e x m m₁ m' m₁' hp hq harray hround => ⟨?_, ?_⟩,
    fun x m m' hp hq hround => ⟨?_, ?_⟩, fun key x m m' hp hq hround => ⟨?_, ?_⟩,
    fun x m m' => ⟨caught_slot_yields hmap h.slot x m, caught_entry_yields hmap h.entry h.ne_void x m'⟩⟩
  · obtain ⟨m₂, hstores, hfinishes⟩ := discardAssign_stores h.slot hslot hmap h.declared.1 h.ne_void
      note hp rfl trivial
    exact yields_of_stores h.slot hslot hmap
      (fun st => .of_finishes (p.isPlain_discardValue _) (hfinishes st)) hstores trivial
  · have hbeneath : (Place.entry array v.name v.ty).beneath R m₁' =
        (Place.entry array v.name v.ty).beneath R m' :=
      congrArg (fun a => [R.literal (.str v.name), a]) harray
    obtain ⟨m₂, hstores, hfinishes⟩ := discardAssign_stores h.entry hentry hmap h.declared.2
      h.ne_void note hq hbeneath hround
    exact yields_of_stores h.entry hentry hmap
      (fun st => .of_finishes (q.isPlain_discardValue _) (hfinishes st)) hstores hround
  · rw [← hp]
    exact yields_of_stores h.slot hslot hmap (fun st => .of_finishes (p.isPlain_bindGlobal id)
      (bindGlobal_finishes h.slot hslot h.declared.1 st m)) (Place.stores_bind hmap _ _ m) trivial
  · rw [← hq] at hround ⊢
    exact yields_of_stores h.entry hentry hmap (fun st => .of_finishes (q.isPlain_bindGlobal id)
      (bindGlobal_finishes h.entry hentry h.declared.2 st m')) (Place.stores_bind hmap _ _ m') hround
  · rw [← hp]
    exact yields_of_stores h.slot hslot hmap (fun st => .of_finishes (p.isPlain_bindHolder id key)
      (bindHolder_finishes h.slot hslot key st m)) (Place.stores_bind hmap _ _ m) trivial
  · rw [← hq] at hround ⊢
    exact yields_of_stores h.entry hentry hmap (fun st => .of_finishes (q.isPlain_bindHolder id key)
      (bindHolder_finishes h.entry hentry key st m')) (Place.stores_bind hmap _ _ m') hround

/-- Integers, which conversions box and unbox, and an array is a map. -/
def Runtime.boxing (box unbox : Int → Int) : Runtime Int (Int → Int → Int) where
  literal
    | .int n => n
    | .str s => s.index
    | _ => 0
  context := 0
  unbound := 0
  isTrue v := v != 0
  toInt v := v
  perform
    | .convert _ .value, [x], w => (box x, w)
    | .convert .value _, [x], w => (unbox x, w)
    | .call (.intrinsic .arrayGet), [a, k], w => (w a k, w)
    | .call (.intrinsic .arraySet), [a, k, x], w =>
      (x, Function.update w a (Function.update (w a) k x))
    | .call (.intrinsic .staticHolder), _, w => (7, w)
    | _, _, w => (0, w)

theorem Runtime.boxing_holdsEntries (box unbox : Int → Int) :
    (Runtime.boxing box unbox).HoldsEntries fun w => w where
  get a k w := rfl
  set a k x w := by
    change Function.update w a (Function.update (w a) k x) a k = x
    rw [Function.update_self, Function.update_self]
  get_keeps a k w := rfl
  convert_keeps source target x w := by
    cases source <;> cases target <;> rfl

/-- A dynamically typed value is twice the integer that it stands for. -/
def Runtime.doubling : Runtime Int (Int → Int → Int) := .boxing (2 * ·) (· / 2)

theorem Runtime.doubling_holdsEntries : Runtime.doubling.HoldsEntries fun w => w :=
  boxing_holdsEntries _ _

theorem Runtime.doubling_roundTrips (ty : Ty) (x : Int) : Runtime.doubling.RoundTrips ty x := by
  intro m m'
  by_cases hty : ty = .value
  · rw [hty, Memory.coerce_self, Memory.coerce_self]
  · have hto : (m.coerce Runtime.doubling ty .value x).1 = 2 * x := by
      unfold Memory.coerce
      rw [if_neg hty]
      cases ty <;> rfl
    have hback : (m'.coerce Runtime.doubling .value ty (2 * x)).1 = 2 * x / 2 := by
      unfold Memory.coerce
      rw [if_neg (Ne.symm hty)]
      cases ty <;> first | rfl | exact absurd rfl hty
    rw [hto, hback]
    omega

/-- All variables and all entries are 0. -/
def Memory.zero : Memory Int (Int → Int → Int) where
  locals _ := 0
  world _ _ := 0
  trace := []

namespace Procedure

/-- `tally` with slots instead of a locals array. -/
def slotTally : Procedure := { tally with localsArray := none }

/-- The integer of `tally`. -/
def tallyInt : Local where
  id := ⟨1⟩
  name := ⟨2⟩
  ty := .int
  kind := .user

theorem tally_keptBoth : slotTally.KeptBoth tally ⟨1⟩ ⟨0⟩ tallyInt where
  declared := ⟨rfl, rfl⟩
  slot := rfl
  entry := rfl
  ne_void := nofun

theorem tally_assigned_alike :
    (do slotTally.discardValue (.assign { ty := .void } ⟨1⟩ (.lit (.int 7)))
        slotTally.loadVar ⟨1⟩ : Draft Unit).Yields Runtime.doubling [] Memory.zero 7 ∧
      (do tally.discardValue (.assign { ty := .void } ⟨1⟩ (.lit (.int 7)))
          tally.loadVar ⟨1⟩ : Draft Unit).Yields Runtime.doubling [] Memory.zero 7 :=
  (stores_read_alike tally_keptBoth Runtime.doubling_holdsEntries).assigned { ty := .void }
    (.lit (.int 7)) 7 Memory.zero Memory.zero Memory.zero Memory.zero (fun _ => ⟨rfl, rfl⟩)
    (fun _ => ⟨rfl, rfl⟩) rfl (Runtime.doubling_roundTrips .int 7)

/-- The exception 1 is not read alike from an integer variable, though arrays are maps and conversions
there and back change nothing: the slot gives 1, and the entry what 1 stands for. -/
theorem tally_caught_apart : Runtime.doubling.HoldsEntries (fun w => w) ∧
    (∀ ty x, Runtime.doubling.RoundTrips ty x) ∧ slotTally.KeptBoth tally ⟨1⟩ ⟨0⟩ tallyInt ∧
    ¬ ∃ x, (do slotTally.storePending ⟨1⟩; slotTally.loadVar ⟨1⟩ : Draft Unit).Yields
        Runtime.doubling [1] Memory.zero x ∧
      (do tally.storePending ⟨1⟩; tally.loadVar ⟨1⟩ : Draft Unit).Yields
        Runtime.doubling [1] Memory.zero x := by
  refine ⟨Runtime.doubling_holdsEntries, Runtime.doubling_roundTrips, tally_keptBoth, ?_⟩
  rintro ⟨x, hslot, hentry⟩
  have hone : x = 1 := hslot.unique
    (caught_slot_yields Runtime.doubling_holdsEntries tally_keptBoth.slot 1 Memory.zero)
  have hzero : x = 0 := hentry.unique (caught_entry_yields Runtime.doubling_holdsEntries
    tally_keptBoth.entry tally_keptBoth.ne_void 1 Memory.zero)
  rw [hone] at hzero
  exact absurd hzero (by decide)

end Procedure

end StackCode
