import StackCode.Proofs.Debugging.Behind
import StackCode.Proofs.Draft.Gives
import StackCode.Proofs.Fragment.Plain

/-!
# Drafts that mirror each other

Behind the debugger's views, a draft mirrors another if it comes to the same directives on slots so many
further on, places to stop apart, and to the same answer (`Draft.Mirrors`).  Drafts that follow each
other mirror those that mirror them one by one (`Draft.Mirrors.bind`).  What hands out labels and slots
mirrors itself.
-/

namespace StackCode

variable {α β γ δ : Type} {views : List (Name × TempSlot)}

/-- Behind the views, the same has come of a draft, places to stop apart.  Only the error that a slot
was handed back twice may name another slot. -/
structure Drafted.Mirrors (views : List (Name × TempSlot)) (f : α → β) (d : Drafted α)
    (d' : Drafted β) : Prop where
  code : (d'.code.filter fun d => !d.isStop) = d.code.map (Directive.shift views.length)
  frame : d'.frame = d.frame.behind views
  ok : ∀ a, d.result = .ok a → d'.result = .ok (f a)
  error : ∀ e, d.result = .error e →
    ∃ e', d'.result = .error e' ∧ (e' = e ∨ ∃ s, e = .tempDoubleFree s)

namespace Draft

/-- Behind the views, `y` drafts what `x` drafts without them, and answers what `f` makes of the
answer. -/
def Mirrors (views : List (Name × TempSlot)) (f : α → β) (x : Draft α) (y : Draft β) : Prop :=
  ∀ frame, (x frame).Mirrors views f (y (frame.behind views))

/-- Behind the views, the draft comes to what it comes to without them. -/
abbrev MirrorsItself (views : List (Name × TempSlot)) (x : Draft α) : Prop := Mirrors views id x x

theorem Mirrors.bind {f : α → β} {h : γ → δ} {x : Draft α} {y : Draft β} {g : α → Draft γ}
    {g' : β → Draft δ} (hx : Mirrors views f x y) (hg : ∀ a, Mirrors views h (g a) (g' (f a))) :
    Mirrors views h (x >>= g) (y >>= g') := by
  intro frame
  have hfirst := hx frame
  cases hresult : (x frame).result with
  | error e =>
    obtain ⟨e', hresult', he⟩ := hfirst.error e hresult
    rw [bind_of_error hresult, bind_of_error hresult']
    exact ⟨hfirst.code, hfirst.frame, nofun, fun _ h => ⟨e', rfl, by cases h; exact he⟩⟩
  | ok a =>
    have hrest := hg a (x frame).frame
    rw [← hfirst.frame] at hrest
    rw [bind_of_ok hresult, bind_of_ok (hfirst.ok a hresult)]
    refine ⟨?_, hrest.frame, hrest.ok, hrest.error⟩
    rw [List.filter_append, List.map_append, hfirst.code, hrest.code]

/-! ## Steps of a draft -/

theorem mirrors_pure (f : α → β) (a : α) : Mirrors views f (pure a) (pure (f a)) := fun _ =>
  ⟨rfl, rfl, fun _ h => by cases h; rfl, nofun⟩

theorem mirrors_fail (f : α → β) (e : LowerError) :
    Mirrors views f (fail e : Draft α) (fail e : Draft β) := fun _ =>
  ⟨rfl, rfl, nofun, fun _ h => ⟨e, rfl, .inl (by cases h; rfl)⟩⟩

theorem mirrors_directive {d : Directive} (hd : (d.shift views.length).isStop = false) :
    Mirrors views id (directive d) (directive (d.shift views.length)) := fun _ =>
  ⟨by simp [hd], rfl, fun _ _ => rfl, nofun⟩

theorem mirrors_emit {i : Instr} (hi : (i.shift views.length).isStop = false) :
    Mirrors views id (emit i) (emit (i.shift views.length)) := mirrors_directive hi

theorem mirrors_mark (l : Label) (arrival : Arrival) : MirrorsItself views (mark l arrival) :=
  mirrors_directive rfl

/-- A place to stop is all there is. -/
theorem mirrors_stop {i : Instr} (hi : i.isStop = true) : Mirrors views id (pure ()) (emit i) :=
  fun _ => ⟨by simp [emit, Directive.isStop, hi], rfl, fun _ _ => rfl, nofun⟩

/-- Straight-line code uses no slots and has no places to stop. -/
theorem mirrors_ofFragment {x : Fragment α} (hx : x.IsWork) :
    MirrorsItself views (ofFragment x) := by
  refine fun frame => ⟨?_, rfl, fun _ h => h, fun e h => ⟨e, h, .inl rfl⟩⟩
  change (x.code.map Directive.instr).filter (fun d => !d.isStop) =
    (x.code.map .instr).map (Directive.shift views.length)
  rw [Directive.filter_instrs fun i hi => Instr.isStop_of_isWork (hx i hi), List.map_map]
  refine List.map_congr_left fun i hi => ?_
  exact congrArg Directive.instr (Instr.shift_of_isPlain (hx.isPlain i hi)).symm

theorem mirrors_getFrame_bind {f : α → β} {g : Frame → Draft α} {g' : Frame → Draft β}
    (h : ∀ frame, (g frame frame).Mirrors views f (g' (frame.behind views) (frame.behind views))) :
    Mirrors views f (getFrame >>= g) (getFrame >>= g') := h

theorem mirrors_setFrame (frame : Frame) :
    Mirrors views id (setFrame frame) (setFrame (frame.behind views)) := fun _ =>
  ⟨rfl, rfl, fun _ _ => rfl, nofun⟩

/-! ## Labels and temporaries -/

theorem mirrors_freshLabel : MirrorsItself views freshLabel :=
  mirrors_getFrame_bind fun frame =>
    (mirrors_setFrame { frame with labels := (frame.labels.add {}).2 }).bind
      (fun _ => mirrors_pure id (⟨frame.labels.size⟩ : Label)) frame

theorem mirrors_namedLabel (name : String) : MirrorsItself views (namedLabel name) :=
  mirrors_getFrame_bind fun frame =>
    (mirrors_setFrame { frame with labels := (frame.labels.add { name := some name }).2 }).bind
      (fun _ => mirrors_pure id (⟨frame.labels.size⟩ : Label)) frame

theorem mirrors_acquireTemp (ty : Ty) :
    Mirrors views (TempSlot.shift views.length) (acquireTemp ty) (acquireTemp ty) := by
  intro frame
  have hgives (frame : Frame) : acquireTemp ty frame =
      { code := allocation (frame.temps.acquire ty).1 (frame.temps.acquire ty).2.1 ty
        frame := { frame with temps := (frame.temps.acquire ty).2.2 }
        result := .ok (frame.temps.acquire ty).1 } := gives_acquireTemp_iff.2 ⟨rfl, rfl, rfl⟩
  have hacquire : (frame.behind views).temps.acquire ty = _ :=
    TempPool.acquire_behind views.length frame.temps ty
  rw [hgives, hgives, hacquire]
  refine ⟨?_, rfl, fun _ h => by cases h; rfl, nofun⟩
  unfold allocation
  split <;> rfl

theorem mirrors_releaseTemp (slot : TempSlot) :
    Mirrors views id (releaseTemp slot) (releaseTemp (slot.shift views.length)) := by
  refine mirrors_getFrame_bind fun frame => ?_
  have hrelease : (frame.behind views).temps.tryRelease (slot.shift views.length) = _ :=
    TempPool.tryRelease_behind views.length frame.temps slot
  rw [hrelease]
  rcases h : frame.temps.tryRelease slot with ⟨result, temps⟩
  refine (mirrors_setFrame { frame with temps }).bind (fun _ => ?_) frame
  cases result with
  | error e =>
    obtain rfl : e = .tempDoubleFree slot := TempPool.eq_of_tryRelease (congrArg Prod.fst h)
    exact fun _ => ⟨rfl, rfl, nofun, fun _ he => ⟨_, rfl, .inr ⟨slot, by cases he; rfl⟩⟩⟩
  | ok u => exact mirrors_emit rfl

theorem mirrors_returnLabel : MirrorsItself views returnLabel := by
  refine mirrors_getFrame_bind fun frame => ?_
  have hlabel : (frame.behind views).returnLabel = frame.returnLabel := rfl
  rw [hlabel]
  cases frame.returnLabel with
  | some l => exact mirrors_pure id l frame
  | none =>
    refine (mirrors_namedLabel "<return>").bind (fun l => ?_) frame
    exact mirrors_getFrame_bind fun frame =>
      (mirrors_setFrame { frame with returnLabel := some l }).bind (fun _ => mirrors_pure id l) frame

theorem mirrors_returnSlot? (ty : Ty) :
    Mirrors views (Option.map (TempSlot.shift views.length)) (returnSlot? ty) (returnSlot? ty) := by
  refine mirrors_getFrame_bind fun frame => ?_
  have hslot : (frame.behind views).returnSlot = frame.returnSlot.map (TempSlot.shift views.length) :=
    rfl
  rw [hslot]
  cases frame.returnSlot with
  | some slot => exact mirrors_pure (Option.map (TempSlot.shift views.length)) (some slot) frame
  | none =>
    simp only [Option.map_none]
    split
    · exact mirrors_pure (Option.map (TempSlot.shift views.length)) none frame
    · refine (mirrors_acquireTemp ty).bind (fun slot => ?_) frame
      exact mirrors_getFrame_bind fun frame =>
        (mirrors_setFrame { frame with returnSlot := some slot }).bind
          (fun _ => mirrors_pure (Option.map (TempSlot.shift views.length)) (some slot)) frame

end Draft

end StackCode
