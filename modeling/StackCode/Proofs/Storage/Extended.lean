import StackCode.Proofs.Storage.Uses

/-!
# More variables declared

A procedure differs from one with more variables declared by the look-ups of those: up to the first
look-up of a variable that is not declared the same is written, and there writing stops with the error
that the variable is unknown (`Fragment.Until`, `Draft.Until`).
-/

namespace StackCode

/-- The variables are declared there alike. -/
def Locals.Extends (more l : Locals) : Prop := ∀ id v, l.get? id = some v → more.get? id = some v

/-- The same procedure with other variables declared. -/
def Procedure.withLocals (p : Procedure) (more : Locals) : Procedure := { p with locals := more }

/-- The error is that a variable is unknown that the procedure does not declare. -/
def Procedure.Misses (p : Procedure) (e : LowerError) : Prop :=
  ∃ id, e = .unknownLocal id ∧ p.locals.get? id = none

/-- The look-up has the same answer, or it misses a variable. -/
def Procedure.LooksUp (p : Procedure) {α : Type} (r r' : Except LowerError α) : Prop :=
  r = r' ∨ ∃ e, p.Misses e ∧ r = .error e

/-! ## Fragments -/

namespace Fragment

variable {α β : Type} {p : Procedure}

/-- The fragments are the same, or the first is the second up to where it misses a variable. -/
def Until (p : Procedure) (x y : Fragment α) : Prop :=
  x = y ∨ ∃ e, p.Misses e ∧ x.result = .error e ∧ x.code <+: y.code

/-- What comes first stands first. -/
theorem code_bind (x : Fragment α) (f : α → Fragment β) : x.code <+: (x >>= f).code := by
  cases hx : x.result with
  | error e => exact ⟨[], by simp [bind_of_error hx]⟩
  | ok a =>
    rw [bind_of_ok hx]
    exact List.prefix_append _ _

theorem Until.refl (x : Fragment α) : x.Until p x := .inl rfl

theorem Until.bind {x y : Fragment α} {f g : α → Fragment β} (hx : x.Until p y)
    (hf : ∀ a, (f a).Until p (g a)) : (x >>= f).Until p (y >>= g) := by
  rcases hx with rfl | ⟨e, he, hresult, hcode⟩
  · cases hr : x.result with
    | error e =>
      left
      rw [bind_of_error hr, bind_of_error hr]
    | ok a =>
      rw [bind_of_ok hr, bind_of_ok hr]
      rcases hf a with heq | ⟨e, he, hresult, hcode⟩
      · left
        rw [heq]
      · exact .inr ⟨e, he, hresult, List.prefix_append_right_inj _ |>.2 hcode⟩
  · right
    rw [bind_of_error hresult]
    exact ⟨e, he, rfl, hcode.trans (y.code_bind g)⟩

theorem until_lift {r r' : Except LowerError α} (h : p.LooksUp r r') :
    (liftM r : Fragment α).Until p (liftM r') := by
  rcases h with rfl | ⟨e, he, rfl⟩
  · exact .refl _
  · exact .inr ⟨e, he, rfl, List.nil_prefix⟩

theorem Until.required {x y : Fragment Ty} (h : x.Until p y) (use : ValueUse) :
    (x.required use).Until p (y.required use) := h.bind fun _ => .refl _

theorem Until.convertedTo {x y : Fragment Ty} (h : x.Until p y) (target : Ty) (use : ValueUse) :
    (x.convertedTo target use).Until p (y.convertedTo target use) :=
  (h.required use).bind fun _ => .refl _

theorem Until.discard {x y : Fragment α} (h : x.Until p y) : (discard x).Until p (discard y) :=
  h.bind fun _ => .refl _

end Fragment

/-! ## Look-ups -/

namespace Procedure

open Fragment

variable {p : Procedure} {more : Locals} (hmore : more.Extends p.locals)
include hmore

theorem getLocal_looksUp (id : LocalId) :
    p.LooksUp (p.getLocal id) ((p.withLocals more).getLocal id) := by
  unfold getLocal
  cases hv : p.locals.get? id with
  | none => exact .inr ⟨_, ⟨id, rfl, hv⟩, rfl⟩
  | some v =>
    left
    rw [show (p.withLocals more).locals.get? id = some v from hmore id v hv]

theorem place_looksUp (id : LocalId) :
    p.LooksUp (p.place id) ((p.withLocals more).place id) := by
  rcases getLocal_looksUp hmore id with hid | ⟨e, he, hid⟩
  · have harray : (p.withLocals more).localsArray = p.localsArray := rfl
    unfold Procedure.place
    rw [hid, harray]
    cases (p.withLocals more).getLocal id with
    | error e => exact .inl rfl
    | ok v =>
      cases p.localsArray with
      | none => exact .inl rfl
      | some array =>
        simp only [bind, Except.bind]
        split
        · rcases getLocal_looksUp hmore array with heq | ⟨e, he, heq⟩
          · rw [heq]
            exact .inl rfl
          · rw [heq]
            exact .inr ⟨e, he, rfl⟩
        · exact .inl rfl
  · refine .inr ⟨e, he, ?_⟩
    unfold Procedure.place
    rw [hid]
    rfl

/-! ## Expressions and simple statements -/

theorem loadVar_until (id : LocalId) : (p.loadVar id).Until p ((p.withLocals more).loadVar id) :=
  (until_lift (place_looksUp hmore id)).bind fun _ => .refl _

omit hmore

mutual

theorem evaluate_until (hmore : more.Extends p.locals) :
    (e : Expr) → (p.evaluate e).Until p ((p.withLocals more).evaluate e)
  | .literal _ _ => .refl _
  | .var note id => (loadVar_until hmore id).bind fun _ => .refl _
  | .assign note target value => by
    unfold evaluate
    refine (until_lift (getLocal_looksUp hmore target)).bind fun v => ?_
    refine (until_lift (place_looksUp hmore target)).bind fun place => ?_
    refine (Until.refl _).bind fun _ => ((evaluate_until hmore value).convertedTo _ _).bind fun _ => ?_
    split
    · exact .refl _
    · cases place with
      | slot id => exact .refl _
      | entry array key ty =>
        exact (Until.refl _).bind fun _ => (loadVar_until hmore target).bind fun _ => .refl _
  | .binary note op lhs rhs => by
    unfold evaluate
    refine ((evaluate_until hmore lhs).required _).discard.bind fun _ => ?_
    exact ((evaluate_until hmore rhs).required _).discard.bind fun _ => .refl _
  | .call note callee args => by
    unfold evaluate
    exact (evaluateArgs_until hmore args).bind fun _ => .refl _
  | .new note cls args => by
    unfold evaluate
    exact (evaluateArgs_until hmore args).bind fun _ => .refl _
  | .item note array key => by
    unfold evaluate
    refine ((evaluate_until hmore array).convertedTo _ _).bind fun _ => ?_
    exact ((evaluate_until hmore key).convertedTo _ _).bind fun _ => .refl _

theorem evaluateArgs_until (hmore : more.Extends p.locals) :
    (es : List Expr) → (p.evaluateArgs es).Until p ((p.withLocals more).evaluateArgs es)
  | [] => .refl _
  | e :: es => by
    unfold evaluateArgs
    exact ((evaluate_until hmore e).required _).discard.bind fun _ => evaluateArgs_until hmore es

end

include hmore

theorem value_until (e : Expr) (ty : Ty) (use : ValueUse) :
    (p.value e ty use).Until p ((p.withLocals more).value e ty use) :=
  (evaluate_until hmore e).convertedTo ty use

theorem bindGlobal_until (id : LocalId) :
    (p.bindGlobal id).Until p ((p.withLocals more).bindGlobal id) :=
  (until_lift (getLocal_looksUp hmore id)).bind fun _ =>
    (until_lift (place_looksUp hmore id)).bind fun _ => .refl _

theorem defineConst_until (name : Name) (e : Expr) :
    (p.defineConst name e).Until p ((p.withLocals more).defineConst name e) :=
  (Until.refl _).bind fun _ => (Until.refl _).bind fun _ =>
    (value_until hmore e _ _).bind fun _ => .refl _

theorem bindHolder_until (id : LocalId) (key : Name) :
    (p.bindHolder id key).Until p ((p.withLocals more).bindHolder id key) :=
  (until_lift (place_looksUp hmore id)).bind fun _ => .refl _

theorem unset_until (target : UnsetTarget) :
    (p.unset target).Until p ((p.withLocals more).unset target) := by
  cases target with
  | var id => exact (until_lift (place_looksUp hmore id)).bind fun _ => .refl _
  | item array key =>
    exact (value_until hmore array _ _).bind fun _ => (value_until hmore key _ _).bind fun _ =>
      .refl _
  | property inst name => exact (value_until hmore inst _ _).bind fun _ => .refl _

theorem throwValue_until (e : Expr) :
    (p.throwValue e).Until p ((p.withLocals more).throwValue e) :=
  (value_until hmore e _ _).bind fun _ => .refl _

theorem publish_until (y : Yield) : (p.publish y).Until p ((p.withLocals more).publish y) := by
  refine (value_until hmore y.value _ _).bind fun _ => ?_
  cases y.key with
  | some key => exact (value_until hmore key _ _).bind fun _ => .refl _
  | none => exact .refl _

end Procedure

/-! ## Drafts -/

namespace Draft

variable {α β : Type} {p : Procedure}

/-- The drafts are the same, or the first is the second up to where it misses a variable. -/
def Until (p : Procedure) (x y : Draft α) : Prop := ∀ frame, x frame = y frame ∨
  ∃ e, p.Misses e ∧ (x frame).result = .error e ∧ (x frame).code <+: (y frame).code

/-- What comes first stands first. -/
theorem code_bind (x : Draft α) (f : α → Draft β) (frame : Frame) :
    (x frame).code <+: ((x >>= f) frame).code := by
  cases hx : (x frame).result with
  | error e => exact ⟨[], by simp [bind_of_error hx]⟩
  | ok a =>
    rw [bind_of_ok hx]
    exact List.prefix_append _ _

theorem Until.refl (x : Draft α) : x.Until p x := fun _ => .inl rfl

theorem Until.bind {x y : Draft α} {f g : α → Draft β} (hx : x.Until p y)
    (hf : ∀ a, (f a).Until p (g a)) : (x >>= f).Until p (y >>= g) := by
  intro frame
  rcases hx frame with heq | ⟨e, he, hresult, hcode⟩
  · cases hr : (x frame).result with
    | error e =>
      left
      rw [bind_of_error hr, bind_of_error (heq ▸ hr), heq]
    | ok a =>
      rw [bind_of_ok hr, bind_of_ok (heq ▸ hr), heq]
      rcases hf a (y frame).frame with heq | ⟨e, he, hresult, hcode⟩
      · left
        rw [heq]
      · exact .inr ⟨e, he, hresult, List.prefix_append_right_inj _ |>.2 hcode⟩
  · right
    rw [bind_of_error hresult]
    exact ⟨e, he, rfl, hcode.trans (y.code_bind g frame)⟩

/-- If the second draft gets to its end, the first misses a variable or gets there too. -/
theorem Until.of_gives {x y : Draft α} {frame frame' : Frame} {ds : List Directive} {a : α}
    (h : x.Until p y) (hy : y.Gives frame ds frame' a) :
    (x frame).code <+: ds ∧ ∀ e, (x frame).result = .error e → p.Misses e := by
  unfold Gives at hy
  rcases h frame with heq | ⟨e', he', hresult, hcode⟩
  · rw [heq, hy]
    exact ⟨List.prefix_refl ds, nofun⟩
  · rw [hy] at hcode
    refine ⟨hcode, fun e herror => ?_⟩
    rw [hresult] at herror
    obtain rfl := Except.error.inj herror
    exact he'

theorem until_ofFragment {x y : Fragment α} (h : x.Until p y) :
    (ofFragment x).Until p (ofFragment y) := by
  intro frame
  rcases h with rfl | ⟨e, he, hresult, hcode⟩
  · exact .inl rfl
  · exact .inr ⟨e, he, hresult, hcode.map _⟩

theorem until_lift {r r' : Except LowerError α} (h : p.LooksUp r r') :
    (liftM r : Draft α).Until p (liftM r') := until_ofFragment (Fragment.until_lift h)

end Draft

namespace Plan

open Draft

/-- The same plan with other variables declared. -/
def withLocals (c : Plan) (more : Locals) : Plan :=
  { c with procedure := c.procedure.withLocals more }

variable {c : Plan} {more : Locals} (hmore : more.Extends c.procedure.locals)
include hmore

theorem storePending_until (id : LocalId) : (c.procedure.storePending id).Until c.procedure
    ((c.procedure.withLocals more).storePending id) :=
  (until_lift (Procedure.place_looksUp hmore id)).bind fun _ => .refl _

theorem returnValue_until (value : Option Expr) :
    (c.returnValue value).Until c.procedure ((c.withLocals more).returnValue value) := by
  cases value with
  | none => exact .refl _
  | some e => exact (until_ofFragment (Procedure.evaluate_until hmore e)).bind fun _ => .refl _

theorem bindStatic_until (d : StaticDecl) :
    (c.bindStatic d).Until c.procedure ((c.withLocals more).bindStatic d) := by
  refine (until_ofFragment (Procedure.bindHolder_until hmore d.target d.key)).bind fun _ => ?_
  cases d.init with
  | none => exact .refl _
  | some init =>
    have hload := until_ofFragment (Procedure.loadVar_until hmore d.target)
    refine (Until.refl _).bind fun done => hload.bind fun _ => (Until.refl _).bind fun _ => ?_
    refine (Until.refl _).bind fun _ => hload.bind fun _ => ?_
    exact (until_ofFragment (Procedure.value_until hmore init _ _)).bind fun _ => .refl _

theorem yieldValue_until (y : Yield) :
    (c.yieldValue y).Until c.procedure ((c.withLocals more).yieldValue y) := by
  change (c.yieldValue y).Until c.procedure (if !c.procedure.isGenerator then _ else _)
  unfold yieldValue
  split
  · exact .refl _
  · split
    · exact .refl _
    · exact (until_ofFragment (Procedure.publish_until hmore y)).bind fun _ => .refl _

theorem statementBody_until (s : Stmt) :
    (c.statementBody s).Until c.procedure ((c.withLocals more).statementBody s) := by
  cases s with
  | empty | declareFunction | declareType | declare => exact .refl _
  | expr e =>
    exact until_ofFragment ((Procedure.evaluate_until hmore e).bind fun _ => .refl _)
  | ret value => exact returnValue_until hmore value
  | throw e => exact until_ofFragment (Procedure.throwValue_until hmore e)
  | bindGlobal id => exact until_ofFragment (Procedure.bindGlobal_until hmore id)
  | defineConst name e => exact until_ofFragment (Procedure.defineConst_until hmore name e)
  | bindStatic d => exact bindStatic_until hmore d
  | unset target => exact until_ofFragment (Procedure.unset_until hmore target)
  | yield y => exact yieldValue_until hmore y

theorem statements_until (ss : List Stmt) :
    (ss.forM c.statement).Until c.procedure (ss.forM (c.withLocals more).statement) := by
  induction ss with
  | nil => exact .refl (pure ())
  | cons s ss ih =>
    have hfirst : (c.statement s).Until c.procedure ((c.withLocals more).statement s) :=
      (Until.refl _).bind fun _ => (statementBody_until hmore s).bind fun _ => .refl _
    exact hfirst.bind fun _ => ih

theorem enterBlock_until (b : Block) :
    (c.enterBlock b).Until c.procedure ((c.withLocals more).enterBlock b) := by
  have hlabel : (c.withLocals more).label? b.id = c.label? b.id := rfl
  have hcaught : (c.withLocals more).caught? b.id = c.caught? b.id := rfl
  unfold enterBlock
  rw [hlabel, hcaught]
  split
  · exact .refl _
  · split
    · next exception _ =>
      refine (Until.refl _).bind fun _ => ?_
      cases exception with
      | none => exact .refl _
      | some id => exact storePending_until hmore id
    · exact .refl _

theorem edge_until (b : Block) (next : Option BlockId) :
    (c.edge b next).Until c.procedure ((c.withLocals more).edge b next) := by
  unfold edge
  cases b.edge with
  | goto | protect | leave | none => exact .refl _
  | branch condition onTrue onFalse =>
    exact (until_ofFragment (Procedure.value_until hmore condition _ _)).bind fun _ => .refl _
  | switch selector cases default =>
    exact (until_ofFragment (Procedure.value_until hmore selector _ _)).bind fun _ => .refl _

theorem blockEnd_until (b : Block) (next : Option BlockId) :
    (c.blockEnd b next).Until c.procedure ((c.withLocals more).blockEnd b next) := by
  unfold blockEnd
  split
  · exact .refl _
  · exact edge_until hmore b next

theorem blocksFrom_until {bs : List Block} (hstart : ∀ b ∈ bs, b.kind ≠ .start) :
    (c.blocksFrom bs).Until c.procedure ((c.withLocals more).blocksFrom bs) := by
  induction bs with
  | nil => exact .refl _
  | cons b bs ih =>
    obtain ⟨hb, hbs⟩ := List.forall_mem_cons.1 hstart
    rw [blocksFrom, blocksFrom, block_eq, block_eq, if_neg hb, if_neg hb]
    refine Until.bind ?_ fun _ => ih hbs
    exact (enterBlock_until hmore b).bind fun _ => (statements_until hmore _).bind fun _ =>
      blockEnd_until hmore b _

/-- Behind the opening, the same is drafted up to the first look-up that misses. -/
theorem inner_until {first : Block} {others : List Block} (hothers : ∀ b ∈ others, b.kind ≠ .start) :
    (c.inner first others >>= fun _ => releaseDebugLocals).Until c.procedure
      ((c.withLocals more).inner first others >>= fun _ => releaseDebugLocals) := by
  refine Until.bind ?_ fun _ => .refl _
  rw [inner_eq, inner_eq]
  refine (Until.refl _).bind fun _ => (enterBlock_until hmore first).bind fun _ => ?_
  refine (statements_until hmore _).bind fun _ => (blockEnd_until hmore first _).bind fun _ => ?_
  exact blocksFrom_until hmore hothers

end Plan

end StackCode
