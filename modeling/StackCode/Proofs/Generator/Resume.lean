import StackCode.Proofs.Generator.Coroutine
import StackCode.Proofs.Generator.Prepared
import StackCode.Proofs.Generator.States

/-!
# Resuming a generator

Every invocation of a generator runs through the prologue before it gets to where the generator
stopped.  So it finds its variables as it left them only if the prologue has none to prepare: if the caller
does that, or there is none that gets a first value (`Procedure.KeepsVariables`).  Otherwise the variables
have their first values again.

What the generator left is what there was when it stopped, in any earlier invocation
(`Runtime.Driven`): it stops in front of the resume label, in the state that the next invocation jumps on.
Main statement: `Procedure.resume_undisturbed`.
-/

namespace StackCode

namespace Instr

/-- Gives a variable a value or takes it away, in its slot or in the locals array. -/
def disturbs : Instr → Bool
  | .storeLocal _ | .clearLocal _ => true
  | .call (.intrinsic .newLocalsArray) _ _ | .call (.intrinsic .arraySet) _ _ => true
  | _ => false

theorem disturbs_of_isIdle {i : Instr} (h : i.isIdle = true) : i.disturbs = false := by
  cases i with
  | call callee argc returns =>
    cases callee with
    | function => cases h
    | intrinsic i => cases i <;> first | rfl | cases h
  | _ => first | rfl | cases h

end Instr

namespace Procedure

/-- The prologue has no variable to give a first value: the caller has done so, or there is neither a
locals array nor a variable with a default value. -/
def KeepsVariables (p : Procedure) : Prop :=
  p.localsInitialized = true ∨
    p.localsArray = none ∧ ∀ v ∈ p.locals.toList, v.needsInit = true → v.ty = .void

variable {p : Procedure}

theorem code_initVar (harray : p.localsArray = none) {v : Local} (hok : (p.initVar v).result = .ok ())
    (hv : v.needsInit = true → v.ty = .void) : (p.initVar v).code = [] := by
  obtain ⟨place, hplace⟩ := exists_place_of_initVar (by rw [harray]; nofun) hok
  rw [initVar_eq harray hplace]
  by_cases hinit : v.needsInit = true
  · rw [hv hinit]
    rfl
  · split
    · rw [if_neg hinit]
      rfl
    · rfl

theorem KeepsVariables.code_initLocals (h : p.KeepsVariables) (hok : p.initLocals.Succeeds) :
    p.initLocals.code = [] := by
  cases hinit : p.localsInitialized with
  | true =>
    unfold initLocals
    rw [if_pos hinit]
    rfl
  | false =>
    obtain ⟨harray, hvars⟩ := h.resolve_left (by simp [hinit])
    obtain ⟨u, hok⟩ := hok
    obtain ⟨-, hall, hcode⟩ := initLocals_eq_ok hinit hok
    have hnone : p.initLocalsArray.code = [] := by
      unfold initLocalsArray
      rw [harray]
      rfl
    rw [hcode, hnone, List.nil_append, List.flatMap_eq_nil_iff]
    exact fun v hv => code_initVar harray (hall v hv) (hvars v hv)

/-- A variable that gets a first value is stored to. -/
theorem store_mem_initVar (harray : p.localsArray = none) {v : Local} (hok : (p.initVar v).result = .ok ())
    (hinit : v.needsInit = true) (hty : v.ty ≠ .void) : .storeLocal v.id ∈ (p.initVar v).code := by
  obtain ⟨place, hplace⟩ := exists_place_of_initVar (by rw [harray]; nofun) hok
  rw [initVar_eq harray hplace]
  cases hvalue : v.ty.default? with
  | none => exact absurd (Ty.default?_eq_none_iff.1 hvalue) hty
  | some value =>
    simp only [hinit, if_true]
    simp [Fragment.literal]

/-- The prologue disturbs variables wherever it has one to give a first value. -/
theorem exists_disturbs_of_initLocals (h : p.initLocals.Succeeds) (hkeeps : ¬p.KeepsVariables) :
    ∃ i ∈ p.initLocals.code, i.disturbs = true := by
  have hinit : p.localsInitialized = false := by
    by_contra hne
    exact hkeeps (.inl (by simpa using hne))
  obtain ⟨u, hok⟩ := h
  obtain ⟨harrayOk, hall, hcode⟩ := initLocals_eq_ok hinit hok
  rw [hcode]
  cases harray : p.localsArray with
  | some array =>
    obtain ⟨-, hnew⟩ := initLocalsArray_eq_ok harray harrayOk
    exact ⟨.storeLocal array, List.mem_append_left _ (by simp [hnew]), rfl⟩
  | none =>
    have hexists : ∃ v ∈ p.locals.toList, v.needsInit = true ∧ v.ty ≠ .void := by
      by_contra hnone
      refine hkeeps (.inr ⟨harray, fun v hv hneeds => ?_⟩)
      by_contra hty
      exact hnone ⟨v, hv, hneeds, hty⟩
    obtain ⟨v, hv, hneeds, hty⟩ := hexists
    have hstore := store_mem_initVar harray (hall v hv) hneeds hty
    exact ⟨.storeLocal v.id, List.mem_append_right _ (List.mem_flatMap_of_mem hv hstore), rfl⟩

end Procedure

/-! ## Nothing is disturbed -/

section
variable {V W : Type}

/-- What a view shows of the world of the run-time system is not changed for a debugger or a
script. -/
def Runtime.Preserves {X : Type} (R : Runtime V W) (view : W → X) : Prop :=
  ∀ (i : Intrinsic) args w, i.isIdle = true →
    view (R.perform (.call (.intrinsic i)) args w).2 = view w

/-- The variables are what they were, in their slots and in a locals array. -/
structure Runtime.Undisturbed (R : Runtime V W) (s s' : Kept V W) : Prop where
  locals : s'.memory.locals = s.memory.locals
  world : ∀ {X : Type} (view : W → X), R.Preserves view → view s'.memory.world = view s.memory.world

variable {R : Runtime V W} {code : List Instr} {c c' : Control V} {s s' : Kept V W}

theorem Runtime.Undisturbed.trans {s₁ s₂ s₃ : Kept V W} (h : R.Undisturbed s₁ s₂)
    (h' : R.Undisturbed s₂ s₃) : R.Undisturbed s₁ s₃ :=
  ⟨h'.locals.trans h.locals, fun view hview => (h'.world view hview).trans (h.world view hview)⟩

/-- An idle instruction disturbs nothing. -/
theorem Runtime.undisturbed_of_step {i : Instr} (hpc : code[c.pc]? = some i) (hi : i.isIdle = true)
    (h : R.step code c s = .on c' s') : R.Undisturbed s s' := by
  obtain ⟨j, hj, hstep⟩ := Runtime.stepped h
  obtain rfl := Option.some_inj.1 (hpc.symm.trans hj)
  cases hstep with
  | plain hplain hexec =>
    cases i with
    | call callee argc returns =>
      cases callee with
      | function => cases hi
      | intrinsic i =>
        simp only [Instr.exec] at hexec
        split at hexec
        · cases hexec
          exact ⟨rfl, fun view hview => hview i _ _ hi⟩
        · cases hexec
    | _ => first | (cases hexec; exact ⟨rfl, fun _ _ => rfl⟩) | (cases hplain; done) | cases hi
  | jump hjump =>
    rcases hjump with hjump | hthrow
    · rw [Instr.isJump_of_isIdle hi] at hjump
      cases hjump
    · rw [hthrow] at hi
      cases hi
  | _ => exact ⟨rfl, fun _ _ => rfl⟩

end

namespace Plan

variable {c : Plan} {code pre post ns : List Instr} {slot : TempSlot}

namespace Entered

/-- Of what is executed up to the jump, what gives the variables their first values disturbs them. -/
theorem mem_take_iff (h : c.Entered code pre slot post) (hfront : c.Front pre ns) {i : Instr}
    (hi : i.disturbs = true) : i ∈ code.take (pre.length + 6) ↔ i ∈ c.procedure.initLocals.code := by
  have htake : code.take (pre.length + 6) =
      pre ++ (dispatchCode c.resume.points ⟨c.bound⟩ slot).take 6 := by
    rw [h.code_eq, List.take_length_add_append]
    rfl
  rw [htake]
  constructor
  · intro hmem
    rcases List.mem_append.1 hmem with hmem | hmem
    · refine (hfront.idle_or_mem hmem).resolve_left fun hidle => ?_
      rw [Instr.disturbs_of_isIdle hidle] at hi
      cases hi
    · simp only [dispatchCode, List.take_succ_cons, List.take_zero, List.mem_cons,
        List.not_mem_nil, or_false] at hmem
      rcases hmem with rfl | rfl | rfl | rfl | rfl | rfl <;> cases hi
  · intro hmem
    rw [hfront.pre_eq]
    exact List.mem_append_left _ (List.mem_append_left _ (mem_prologueCode_of_initLocals hmem))

/-- What is executed up to the jump disturbs no variable if there is none to give a value to, and only
then. -/
theorem disturbs_iff (h : c.Entered code pre slot post) (hfront : c.Front pre ns)
    (hinit : c.procedure.initLocals.Succeeds) :
    (∀ i ∈ code.take (pre.length + 6), i.disturbs = false) ↔ c.procedure.KeepsVariables := by
  constructor
  · intro hall
    by_contra hkeeps
    obtain ⟨i, hi, hdisturbs⟩ := Procedure.exists_disturbs_of_initLocals hinit hkeeps
    rw [hall i ((h.mem_take_iff hfront hdisturbs).2 hi)] at hdisturbs
    cases hdisturbs
  · intro hkeeps i hi
    by_contra hdisturbs
    have hmem := (h.mem_take_iff hfront (Bool.not_eq_false _ ▸ hdisturbs)).1 hi
    rw [hkeeps.code_initLocals hinit] at hmem
    cases hmem

end Entered

end Plan

/-! ## Invoked again and again -/

/-- Where a generator gets to that is first invoked with the memory `s₀`, and again whenever it stops at a
suspension point: by steps, and by exceptions at any point. -/
inductive Runtime.Driven {V W : Type} (R : Runtime V W) (code : List Instr) (s₀ : Kept V W) :
    Control V → Kept V W → Prop
  | enter : Driven R code s₀ R.enter s₀
  | step {c c' : Control V} {s s' : Kept V W} (driven : Driven R code s₀ c s)
      (hstep : R.drive code c s = .on c' s') : Driven R code s₀ c' s'
  | raise {c c' : Control V} {s s' : Kept V W} (driven : Driven R code s₀ c s) (v : V)
      (hraise : Runtime.raise code c v s = .on c' s') : Driven R code s₀ c' s'

namespace Runtime

variable {V W : Type} {R : Runtime V W} {code : List Instr} {s₀ s : Kept V W} {c : Control V}

/-- Any number of steps gets there. -/
theorem driven_of_after {n : Nat} (h : Run.after (R.drive code) (.on R.enter s₀) n = .on c s) :
    R.Driven code s₀ c s := by
  induction n generalizing c s with
  | zero =>
    cases h
    exact .enter
  | succ n ih =>
    rw [Run.after_succ] at h
    cases hbefore : Run.after (R.drive code) (.on R.enter s₀) n with
    | on c₁ s₁ =>
      rw [hbefore] at h
      exact .step (ih hbefore) h
    | done | stuck =>
      rw [hbefore] at h
      cases h

/-- Where a generator returns in a positive state, it goes on as the next invocation does. -/
theorem after_drive_of_ret {n : Nat} {c' : Control V} {s' : Kept V W}
    (hret : code[c.pc]? = some (.ret false)) (hpos : 0 < R.toInt s.state)
    (h : Run.after (R.step code) (.on R.enter ((s.note (.ret none)).note (.resume s.state))) n = .on c' s') :
    Run.after (R.drive code) (.on c s) (n + 1) = .on c' s' := by
  have hdone : R.step code c s = .done (s.note (.ret none)) := by
    simp only [step, hret]
  change Run.after (R.drive code) (R.drive code c s) n = .on c' s'
  rw [drive_of_done hdone, if_pos (show 0 < R.toInt (s.note (.ret none)).state from hpos)]
  exact Run.after_mono (fun _ _ _ _ => extends_drive R code) h

/-- A point of a generator is on a path of its last invocation. -/
theorem Driven.exists_path (h : R.Driven code s₀ c s) : ∃ s₁ stored, R.Path code s₁ c s stored := by
  induction h with
  | enter => exact ⟨s₀, [], .enter⟩
  | @step c c' s s' _ hstep ih =>
    obtain ⟨s₁, stored, path⟩ := ih
    cases hfirst : R.step code c s with
    | on c₂ s₂ =>
      rw [extends_drive R code hfirst] at hstep
      cases hstep
      exact ⟨s₁, _, .step path hfirst⟩
    | done s₂ =>
      rw [drive_of_done hfirst] at hstep
      split at hstep
      · cases hstep
        exact ⟨_, [], .enter⟩
      · cases hstep
    | stuck s₂ =>
      rw [drive, hfirst] at hstep
      cases hstep
  | raise _ v hraise ih =>
    obtain ⟨s₁, stored, path⟩ := ih
    exact ⟨s₁, stored, .raise path v hraise⟩

end Runtime

/-- What a generator finds where it is resumed with `s'`, if it was left with `s`: its variables as they
were, if there was nothing to prepare, and otherwise prepared anew. -/
structure Procedure.FindsVariables {V W : Type} (p : Procedure) (R : Runtime V W) (s s' : Kept V W) :
    Prop where
  kept : p.KeepsVariables → R.Undisturbed s s'
  prepared : p.localsInitialized = false → ∀ arrays : W → V → Option (V → Option V),
    R.KeepsArrays arrays → p.Prepared R arrays s.memory s'.memory

/-- That a generator stops and is invoked again is noted, and nothing else happens. -/
theorem Procedure.FindsVariables.behind {V W : Type} {p : Procedure} {R : Runtime V W} {s s' : Kept V W}
    {v : V} (h : p.FindsVariables R ((s.note (.ret none)).note (.resume v)) s') : p.FindsVariables R s s' where
  kept hkeeps := by
    have hnoted : R.Undisturbed s ((s.note (.ret none)).note (.resume v)) := ⟨rfl, fun _ _ => rfl⟩
    exact hnoted.trans (h.kept hkeeps)
  prepared hinit arrays hR := by
    have hnoted : s.memory.Spares arrays ((s.note (.ret none)).note (.resume v)).memory := by
      refine ⟨⟨⟨[.ret none, .resume v], ?_, by simp, by simp⟩, fun _ _ => rfl⟩, fun _ _ => id⟩
      exact List.append_assoc s.memory.trace [.ret none] [.resume v]
    exact (h.prepared hinit arrays hR).after hnoted

/-- How a generator gets back to the resume label of a suspension point, which is at position `q`: an
invocation executes the first `n` instructions of the code, one after the other, and the last of them jumps
there. -/
structure Procedure.Resumes (p : Procedure) (code : List Instr) (index : Int) (q n : Nat) : Prop where
  straight : ∀ {V W : Type} (R : Runtime V W) (s : Kept V W), R.toInt s.state = index → ∀ k < n,
    ∃ c' s', Run.after (R.step code) (.on R.enter s) k = .on c' s' ∧ c'.pc = k
  /-- Of these instructions, those that give the variables their first values disturb them. -/
  mem_take_iff : ∀ i : Instr, i.disturbs = true → (i ∈ code.take n ↔ i ∈ p.initLocals.code)
  undisturbed_iff : (∀ i ∈ code.take n, i.disturbs = false) ↔ p.KeepsVariables
  arrives : ∀ {V W : Type} (R : Runtime V W) (s : Kept V W), R.toInt s.state = index →
    ∃ temps s', Run.after (R.step code) (.on R.enter s) n = .on { R.enter with pc := q, temps } s' ∧
      p.FindsVariables R s s'
  /-- Wherever the generator returns in this state, it does so in front of the resume label, and behind
  `n` steps of the next invocation it is there. -/
  again : ∀ {V W : Type} (R : Runtime V W), R.KeepsInts → ∀ (s₀ s : Kept V W) (c : Control V),
    R.Driven code s₀ c s → code[c.pc]? = some (.ret false) → R.toInt s.state = index →
      c.pc + 1 = q ∧ ∃ temps s', Run.after (R.drive code) (.on c s) (n + 1) =
        .on { R.enter with pc := q, temps } s' ∧ p.FindsVariables R s s'

namespace Plan.GeneratorLowered

variable {c : Plan} {code pre post ns : List Instr} {slot : TempSlot} {index : Int} {l : Label} {q : Nat}
  {V W : Type} {R : Runtime V W} {s₀ s : Kept V W} {ctl : Control V}

/-- An invocation of a suspended generator gets to the resume label by the first instructions. -/
theorem arrives (h : c.GeneratorLowered code pre slot post) (hfront : c.Front pre ns)
    (hinit : c.procedure.initLocals.Succeeds) (hpoint : (index, l) ∈ c.resume.points)
    (hq : code[q]? = some (.markLabel l)) (hs : R.toInt s.state = index) :
    (∀ k < pre.length + 6,
        ∃ c' s', Run.after (R.step code) (.on R.enter s) k = .on c' s' ∧ c'.pc = k) ∧
      ∃ temps s', Run.after (R.step code) (.on R.enter s) (pre.length + 6) =
        .on { R.enter with pc := q, temps } s' ∧ c.procedure.FindsVariables R s s' := by
  have hstep : ∀ i ∈ pre, ∀ c₁ s₁ c₂ s₂, code[c₁.pc]? = some i → R.step code c₁ s₁ = .on c₂ s₂ →
      (c.procedure.KeepsVariables → R.Undisturbed s s₁) →
        c.procedure.KeepsVariables → R.Undisturbed s s₂ := by
    intro i hi c₁ s₁ c₂ s₂ hpc hstep hs₁ hkeeps
    refine (hs₁ hkeeps).trans (Runtime.undisturbed_of_step hpc ?_ hstep)
    refine (hfront.idle_or_mem hi).resolve_right fun hmem => ?_
    rw [hkeeps.code_initLocals hinit] at hmem
    cases hmem
  obtain ⟨hbefore, temps, s', hkept, hafter⟩ := h.entered.resumes h.made h.isGenerator h.placed_nodup
    hpoint hq hs hstep fun _ => ⟨rfl, fun _ _ => rfl⟩
  refine ⟨fun k hk => ?_, temps, _, hafter, fun hkeeps => ?_, fun hcaller arrays hR => ?_⟩
  · obtain ⟨c', s', hk, hpc, -⟩ := hbefore k hk
    exact ⟨c', s', hk, hpc⟩
  · exact ⟨(hkept hkeeps).locals, (hkept hkeeps).world⟩
  · obtain ⟨temps', s'', hafter', hprepared⟩ := h.entered.prepares h.made h.isGenerator h.placed_nodup
      hfront hcaller hR hpoint hq hs
    obtain ⟨-, rfl⟩ := Run.on.inj (hafter.symm.trans hafter')
    exact hprepared

/-- A generator that returns in the state of a suspension point has stopped there, in front of the resume
label. -/
theorem stopped (h : c.GeneratorLowered code pre slot post) (hpoint : (index, l) ∈ c.resume.points)
    (hq : code[q]? = some (.markLabel l)) (hints : R.KeepsInts) (driven : R.Driven code s₀ ctl s)
    (hret : code[ctl.pc]? = some (.ret false)) (hs : R.toInt s.state = index) : ctl.pc + 1 = q := by
  obtain ⟨s₁, stored, path⟩ := driven.exists_path
  obtain ⟨-, hstore⟩ | ⟨p, n, hstops, -, ⟨-, hstore⟩ | ⟨hpc, -⟩⟩ := h.entered.stops_of hret rfl
  · cases hstore
  · cases hstore
  · obtain ⟨hliteral, -⟩ := path.stored_of_stopsAt hstops hpc
    rw [hliteral, hints] at hs
    subst hs
    have hpos := pos_of_mem_yields h.made h.isGenerator
      (mem_yields_of_mem_points h.made h.isGenerator hpoint)
    rcases hstops.label with rfl | ⟨l', hl', hlabel⟩
    · exact absurd hpos (by decide)
    · have heq : some l' = some l := (lookup_points h.made h.isGenerator hl').symm.trans
        (lookup_points h.made h.isGenerator hpoint)
      obtain rfl := Option.some_inj.1 heq
      rw [eq_of_placed h.placed_nodup hq hlabel, hpc]

end Plan.GeneratorLowered

/-- A suspended generator gets back to where it stopped by the first instructions of the code, which
prepare the variables wherever that is the task of the code.  So it finds them as they were when it stopped
if the caller prepares them or there are none to prepare, and otherwise it does not. -/
theorem Procedure.resume_undisturbed {p : Procedure} {options : Options} {strategy : LayoutStrategy}
    {out : Array Instr} {sum : Summary} (hgen : p.isGenerator = true)
    (h : p.lowerInto options strategy #[] = (out, .ok sum)) {y : YieldSite}
    (hy : y ∈ p.graph.yields) :
    ∃ l q n, (y.index, l) ∈ sum.resumePoints ∧ out.toList[q]? = some (.markLabel l) ∧
      p.Resumes out.toList y.index q n := by
  obtain ⟨c, labels, ds, final, g, pre, slot, post, rfl, hpoints, hsize, hlowered, hcode⟩ :=
    generatorLowered_of_lowerInto hgen h
  obtain ⟨l, q, hpoint, hq⟩ := hcode.exists_point hy
  obtain ⟨ns, hfront⟩ := hlowered.exists_front hcode.made hgen hcode.entered
  obtain ⟨-, hinit⟩ := hlowered.writes hcode.made hsize
  refine ⟨l, q, pre.length + 6, hpoints ▸ hpoint, hq, fun R s hs => ?_, fun i => ?_, ?_, fun R s hs => ?_,
    fun R hints s₀ s ctl driven hret hs => ⟨?_, ?_⟩⟩
  · exact (hcode.arrives hfront hinit hpoint hq hs).1
  · exact hcode.entered.mem_take_iff hfront
  · exact hcode.entered.disturbs_iff hfront hinit
  · exact (hcode.arrives hfront hinit hpoint hq hs).2
  · exact hcode.stopped hpoint hq hints driven hret hs
  · have hpos : 0 < R.toInt s.state :=
      hs ▸ Plan.pos_of_mem_yields hcode.made hgen (List.mem_map_of_mem hy)
    obtain ⟨-, temps, s', hafter, hfinds⟩ := hcode.arrives (R := R)
      (s := (s.note (.ret none)).note (.resume s.state)) hfront hinit hpoint hq hs
    exact ⟨temps, s', Runtime.after_drive_of_ret hret hpos hafter, hfinds.behind⟩

/-- `counter` before it is started, with 7 in its variable. -/
def counterAtSeven : Kept Int Unit where
  memory := { locals := fun _ => 7, world := (), trace := [] }
  state := 0

/-- Where the caller gives the variable its value, `counter` stops with it and finds it again. -/
theorem counter_undisturbed :
    ∃ l q n, (1, l) ∈ [((1 : Int), (⟨1⟩ : Label))] ∧
      (counterCode true).toList[q]? = some (.markLabel l) ∧
      (counter true).Resumes (counterCode true).toList 1 q n ∧
      ∃ c s temps s', Run.after (Runtime.ints.drive (counterCode true).toList)
          (.on Runtime.ints.enter counterAtSeven) 13 = .on c s ∧ s.memory.locals ⟨0⟩ = 7 ∧
        Run.after (Runtime.ints.drive (counterCode true).toList) (.on c s) (n + 1) =
          .on { Runtime.ints.enter with pc := q, temps } s' ∧ s'.memory.locals ⟨0⟩ = 7 := by
  obtain ⟨l, q, n, hpoint, hq, hresumes⟩ :=
    Procedure.resume_undisturbed rfl (lowerInto_counter true) (y := ⟨1, ⟨0⟩⟩) (by decide)
  obtain ⟨c, s, hstop, hret, hstate, hseven⟩ : ∃ c s,
      Run.after (Runtime.ints.drive (counterCode true).toList) (.on Runtime.ints.enter counterAtSeven) 13 =
          .on c s ∧
        (counterCode true).toList[c.pc]? = some (.ret false) ∧ s.state = 1 ∧
        s.memory.locals ⟨0⟩ = 7 := ⟨_, _, rfl, rfl, rfl, rfl⟩
  obtain ⟨-, temps, s', hafter, hfinds⟩ := hresumes.again Runtime.ints (fun _ => rfl) counterAtSeven s c
    (Runtime.driven_of_after hstop) hret hstate
  have hkept : s'.memory.locals = s.memory.locals := (hfinds.kept (.inl rfl)).locals
  exact ⟨l, q, n, hpoint, hq, hresumes, c, s, temps, s', hstop, hseven, hafter, by rw [hkept, hseven]⟩

/-- A generator that sets a variable, yields it, and passes it to a function when it is resumed. -/
def remembered : Procedure where
  name := ⟨1⟩
  returnType := .void
  locals := { vars := #[{ id := ⟨0⟩, name := ⟨2⟩, ty := .int, kind := .user }] }
  isGenerator := true
  graph :=
    { blocks := #[
        { id := ⟨0⟩, ordinal := 0, kind := .start
          statements := [
            .expr (.assign { ty := .void } ⟨0⟩ (.lit (.int 7))),
            .yield { index := 1, value := .var { ty := .int } ⟨0⟩, key := none, isDelegated := false },
            .expr (.call { ty := .void } ⟨3⟩ [.var { ty := .int } ⟨0⟩])]
          edge := .goto ⟨1⟩ },
        { id := ⟨1⟩, ordinal := 1, kind := .exit, statements := [], edge := .none }]
      wellFormed := wellFormed_of_fault?_eq_none (by decide) }

/-- The code of `remembered`. -/
def rememberedCode : Array Instr :=
  #[.constInt 0, .storeLocal ⟨0⟩, .allocTemp ⟨0⟩ .int, .loadState, .storeTemp ⟨0⟩, .constInt (-1),
    .storeState, .loadTemp ⟨0⟩, .switch [(1, ⟨1⟩)] ⟨2⟩, .freeTemp ⟨0⟩, .markLabel ⟨2⟩, .constInt 7,
    .storeLocal ⟨0⟩, .loadLocal ⟨0⟩, .convert .int .value,
    .call (.intrinsic .setGeneratorCurrent) 1 false, .constInt 1, .storeState, .ret false,
    .markLabel ⟨1⟩, .loadLocal ⟨0⟩, .call (.function ⟨3⟩) 1 false, .markLabel ⟨0⟩, .constInt (-2),
    .storeState, .ret false]

theorem lowerInto_remembered :
    remembered.lowerInto {} BlockOrder.ordinal.arrange #[] =
      (rememberedCode,
        .ok { instrCount := 26, temps := [.int], labelCount := 3, resumePoints := [(1, ⟨1⟩)]
              debugLocals := [] }) := by
  have horder : remembered.graph.emissionOrder BlockOrder.ordinal.arrange remembered.liveBlocks =
      some [⟨0⟩, ⟨1⟩] := by cbv
  unfold Procedure.lowerInto Plan.make
  rw [horder]
  decide +kernel

/-- `remembered` stops with 7 in its variable.  When it is resumed, a store comes before the resume label,
the variable is 0 there, and that is what the function is called with. -/
theorem remembered_forgets :
    remembered.lowerInto {} BlockOrder.ordinal.arrange #[] =
        (rememberedCode,
          .ok { instrCount := 26, temps := [.int], labelCount := 3, resumePoints := [(1, ⟨1⟩)]
                debugLocals := [] }) ∧
      ∃ c s c' s' c'' s'',
        Run.after (Runtime.ints.drive rememberedCode.toList) (.on Runtime.ints.enter (inState 0)) 17 =
            .on c s ∧
          rememberedCode.toList[c.pc]? = some (.ret false) ∧ s.state = 1 ∧
          s.memory.locals ⟨0⟩ = 7 ∧
        Run.after (Runtime.ints.drive rememberedCode.toList) (.on c s) 10 = .on c' s' ∧
          rememberedCode.toList[1]? = some (.storeLocal ⟨0⟩) ∧
          rememberedCode.toList[c'.pc]? = some (.markLabel ⟨1⟩) ∧ s'.memory.locals ⟨0⟩ = 0 ∧
        Run.after (Runtime.ints.drive rememberedCode.toList) (.on c' s') 3 = .on c'' s'' ∧
          s''.memory.trace.getLast? = some (.perform (.call (.function ⟨3⟩)) [0]) :=
  ⟨lowerInto_remembered, _, _, _, _, _, _, rfl, rfl, rfl, rfl, rfl, rfl, rfl, rfl, rfl, rfl⟩

end StackCode
