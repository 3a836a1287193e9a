import StackCode.Proofs.Temps.Managed

/-!
# What a load gives

On every path of an invocation, with exceptions at any point, a load from a temporary gives the value
that was stored in it last, and both serve the same purpose: the dispatch of a generator, the receipt of
an exception by one handler, or returning.  For each of these purposes the store and the load stand so
close that control gets to the load by the store alone.  Main statement: `Procedure.temps_of_lowerInto`.
-/

namespace StackCode

variable {V W : Type}

namespace Runtime

variable {R : Runtime V W} {code is post : List Instr} {c c' : Control V} {s s' : Kept V W}
  {slot : TempSlot}

/-- An instruction that control passes and that mentions no temporary leaves all of them as they are. -/
theorem temps_of_step {i : Instr} (hpc : code[c.pc]? = some i) (hi : i.passes = true)
    (hnone : i.temp? = none) (h : R.step code c s = .on c' s') : c'.temps = c.temps := by
  obtain ⟨j, hj, hstepped⟩ := stepped h
  obtain rfl := Option.some_inj.1 (hpc.symm.trans hj)
  cases hstepped with
  | storeTemp => cases hnone
  | jump hjump =>
    rcases hjump with hjump | rfl
    · rw [Instr.isJump_of_passes hi] at hjump
      cases hjump
    · cases hi
  | _ => rfl

theorem temps_of_after (his : ∀ i ∈ is, i.passes = true ∧ i.temp? = none)
    (hcode : code.drop c.pc = is ++ post)
    (h : Run.after (R.step code) (.on c s) is.length = .on c' s') : c'.temps = c.temps := by
  induction is generalizing c s with
  | nil =>
    cases h
    rfl
  | cons i is ih =>
    obtain ⟨⟨hi, hnone⟩, his⟩ := List.forall_mem_cons.1 his
    have hpc : code[c.pc]? = some i := getElem?_of_drop hcode
    change Run.after (R.step code) (R.step code c s) is.length = _ at h
    cases hstep : R.step code c s with
    | on c₁ s₁ =>
      rw [hstep] at h
      obtain ⟨j, hj, hstepped⟩ := stepped hstep
      obtain rfl := Option.some_inj.1 (hpc.symm.trans hj)
      obtain ⟨hnext, -⟩ := hstepped.of_passes hi
      have hrest : code.drop c₁.pc = is ++ post := by
        rw [hnext]
        exact drop_add_of_drop (show code.drop c.pc = [i] ++ (is ++ post) from hcode)
      exact (ih his hrest h).trans (temps_of_step hpc hi hnone hstep)
    | done | stuck =>
      rw [hstep] at h
      simp at h

/-- A store takes the value on the stack. -/
theorem store_of_step (hpc : code[c.pc]? = some (.storeTemp slot)) (h : R.step code c s = .on c' s') :
    c'.pc = c.pc + 1 ∧ ∃ st, c.stack = c'.temps slot :: st := by
  obtain ⟨i, hi, hstepped⟩ := stepped h
  obtain rfl := Option.some_inj.1 (hpc.symm.trans hi)
  cases hstepped with
  | skip hskip => cases hskip
  | plain hplain => cases hplain
  | jump hjump => rcases hjump with hjump | hjump <;> cases hjump
  | @storeTemp _ v st hst =>
    refine ⟨rfl, st, ?_⟩
    change c.stack = Function.update c.temps slot v slot :: st
    rw [Function.update_self, hst]

theorem step_loadTemp (hpc : code[c.pc]? = some (.loadTemp slot)) :
    R.step code c s = .on (c.pass (c.temps slot :: c.stack)) s := by
  simp only [step, hpc]

end Runtime

namespace Plan

variable {c : Plan} {labels : LabelTable} {R : Runtime V W} {code : List Instr} {s₀ s : Kept V W}
  {ctl : Control V} {slot : TempSlot} {ps : List Nat}

/-! ## Stores and loads -/

/-- The store at one position of the code and the load at another serve the same purpose: the dispatch,
the receipt of an exception by one handler, or returning, where the store is that of a return statement. -/
inductive Serves (c : Plan) (labels : LabelTable) (code : List Instr) (slot : TempSlot) :
    Nat → Nat → Prop
  | errand {q k : Nat} (h : c.Borrows code slot q k) : Serves c labels code slot q k
  | returning {l : Label} {q k : Nat} (hends : c.EndsReturn l slot (c.returnSites labels) code (q + 1))
      (hmark : code[k]? = some (.markLabel l)) (hfetches : FetchesAt code (k + 1) slot) :
      Serves c labels code slot q (k + 1)

/-- The load that a trail has come to gives the value that was stored last in the slot, by a store that
the trail has executed for the same purpose; the machine has run from there to the load. -/
inductive LoadsStored (c : Plan) (labels : LabelTable) (R : Runtime V W) (code : List Instr)
    (s₀ : Kept V W) (ctl : Control V) (s : Kept V W) (slot : TempSlot) (ps : List Nat) : Prop
  | intro {ctl₁ : Control V} {s₁ : Kept V W} {before between : List Nat} {v : V} {st : List V}
      (trail : R.Trail code s₀ ctl₁ s₁ before) (store : code[ctl₁.pc]? = some (.storeTemp slot))
      (stored : ctl₁.stack = v :: st) (positions : ps = before ++ ctl₁.pc :: between)
      (latest : ∀ q ∈ between, code[q]? ≠ some (.storeTemp slot))
      (run : Run.after (R.step code) (.on ctl₁ s₁) (between.length + 1) = .on ctl s)
      (load : R.step code ctl s = .on (ctl.pass (v :: ctl.stack)) s)
      (serves : c.Serves labels code slot ctl₁.pc ctl.pc)

/-- A load gives what has been stored if nothing has been stored on the way there from the store. -/
theorem LoadsStored.of_run {ctl₁ ctl₂ : Control V} {s₁ s₂ : Kept V W} {before between : List Nat}
    (htrail : R.Trail code s₀ ctl₁ s₁ before) (hpositions : ps = before ++ ctl₁.pc :: between)
    (hstore : code[ctl₁.pc]? = some (.storeTemp slot)) (hstep : R.step code ctl₁ s₁ = .on ctl₂ s₂)
    (hrun : Run.after (R.step code) (.on ctl₂ s₂) between.length = .on ctl s)
    (htemps : ctl.temps = ctl₂.temps)
    (hlatest : ∀ q ∈ between, code[q]? ≠ some (.storeTemp slot))
    (hload : code[ctl.pc]? = some (.loadTemp slot)) (hserves : c.Serves labels code slot ctl₁.pc ctl.pc) :
    c.LoadsStored labels R code s₀ ctl s slot ps := by
  obtain ⟨-, st, hst⟩ := Runtime.store_of_step hstore hstep
  refine .intro htrail hstore hst hpositions hlatest ?_ ?_ hserves
  · change Run.after (R.step code) (R.step code ctl₁ s₁) between.length = _
    rw [hstep]
    exact hrun
  · rw [← htemps]
    exact Runtime.step_loadTemp hload

/-- Between the store and the load of an errand there is nothing but straight code. -/
theorem Borrows.parts {q k : Nat} (h : c.Borrows code slot q k) :
    ∃ i j post, k = q + 3 ∧ code.drop q = [.storeTemp slot, i, j] ++ (.loadTemp slot :: post) ∧
      (i.passes = true ∧ i.temp? = none) ∧ j.passes = true ∧ j.temp? = none := by
  cases h with
  | @dispatch pre post start hgen hcode =>
    refine ⟨.constInt GeneratorState.running.toInt, .storeState, .switch c.resume.points start :: post,
      rfl, ?_, ⟨rfl, rfl⟩, rfl, rfl⟩
    rw [hcode, List.drop_append, List.drop_of_length_le (Nat.le_succ _), Nat.add_sub_cancel_left]
    rfl
  | @receive pre notes post b l id array key ty hlabel hcaught hplace hnotes hcode =>
    refine ⟨.loadLocal array, .constStr key, .callIntrinsic .arraySet :: post, rfl, ?_, ⟨rfl, rfl⟩,
      rfl, rfl⟩
    rw [hcode, List.drop_left]
    rfl

theorem Borrows.loadsStored {q k : Nat} (h : c.Borrows code slot q k)
    (htrail : R.Trail code s₀ ctl s ps) (hpc : ctl.pc = k) :
    c.LoadsStored labels R code s₀ ctl s slot ps := by
  obtain ⟨i, j, post, rfl, hdrop, hi, hj⟩ := h.parts
  have hwhole : code.drop q = [.storeTemp slot, i, j, .loadTemp slot] ++ post := hdrop
  have hplaced {x : Instr} (hx : x.passes = true) : x.placed? = none := by
    cases x <;> first | rfl | cases hx
  have hnone : ∀ x ∈ [.storeTemp slot, i, j, .loadTemp slot], x.placed? = none :=
    List.forall_mem_cons.2 ⟨rfl, List.forall_mem_cons.2 ⟨hplaced hi.1, List.forall_mem_cons.2
      ⟨hplaced hj.1, List.forall_mem_singleton.2 rfl⟩⟩⟩
  -- to the load from the store
  obtain ⟨ctl₁, s₁, before, htrail₁, rfl, rfl, hrun⟩ :=
    htrail.straight hwhole hnone (Nat.lt_succ_self 3) hpc
  have hat (n : Nat) : code[ctl₁.pc + n]? = ([.storeTemp slot, i, j, .loadTemp slot] ++ post)[n]? := by
    rw [← List.getElem?_drop, hwhole]
  have hspares {n : Nat} {x : Instr} (hx : code[n]? = some x) (hnone : x.temp? = none) :
      code[n]? ≠ some (.storeTemp slot) := by
    rw [hx]
    rintro ⟨⟩
    cases hnone
  have hstore : code[ctl₁.pc]? = some (.storeTemp slot) := getElem?_of_drop hdrop
  change Run.after (R.step code) (R.step code ctl₁ s₁) 2 = _ at hrun
  cases hstep : R.step code ctl₁ s₁ with
  | on ctl₂ s₂ =>
    rw [hstep] at hrun
    have hrest : code.drop ctl₂.pc = [i, j] ++ (.loadTemp slot :: post) := by
      rw [(Runtime.store_of_step hstore hstep).1]
      exact drop_add_of_drop (show code.drop ctl₁.pc = [.storeTemp slot] ++ _ from hdrop)
    have htemps := Runtime.temps_of_after
      (List.forall_mem_cons.2 ⟨hi, List.forall_mem_singleton.2 hj⟩) hrest hrun
    have hpositions : before ++ List.range' ctl₁.pc 3 =
        before ++ ctl₁.pc :: [ctl₁.pc + 1, ctl₁.pc + 2] := rfl
    refine .of_run htrail₁ hpositions hstore hstep hrun htemps ?_ (hpc ▸ hat 3) (hpc ▸ .errand h)
    exact List.forall_mem_cons.2
      ⟨hspares (hat 1) hi.2, List.forall_mem_singleton.2 (hspares (hat 2) hj.2)⟩
  | done | stuck =>
    rw [hstep] at hrun
    simp at hrun

/-- In front of the branch of a return statement, the value is stored. -/
theorem EndsReturn.store {l : Label} {sites : ReturnSites} {q : Nat} (hstages : c.outline.stages = true)
    (h : c.EndsReturn l slot sites code q) : ∃ n, q = n + 1 ∧ code[n]? = some (.storeTemp slot) := by
  obtain ⟨value, start, d, is, post, -, hcode, -, hdrop, hend⟩ := h
  obtain ⟨ty, front, rfl, -⟩ := hcode.parts_of_stages hstages
  rw [List.length_append] at hend
  refine ⟨start + front.length, Nat.succ.inj hend, ?_⟩
  rw [List.append_assoc] at hdrop
  exact getElem?_of_drop (drop_add_of_drop hdrop)

/-- What is fetched to be returned has been stored by a return statement. -/
theorem Returning.loadsStored {slot? : Option TempSlot} {body exit staged notes : List Instr}
    (h : c.Returning slot? (c.returnSites labels) code body exit staged notes) {k : Nat}
    (hk : FetchesAt code k slot) (htrail : R.Trail code s₀ ctl s ps) (hpc : ctl.pc = k) :
    c.LoadsStored labels R code s₀ ctl s slot ps := by
  obtain ⟨_, -, -, hstored, heq⟩ := h.fetches_cases hk
  obtain ⟨n, rfl⟩ : ∃ n, k = n + 1 := ⟨_, heq⟩
  obtain ⟨l, ctl₂, ps₂, hmark, rfl, hends, htrail₂, hrun, htemps⟩ := h.comes_of_fetches hk htrail hpc
  obtain ⟨q, hq, hstore⟩ := hends.store hstored.stages
  have hbranch := hends.branch
  rw [hq] at hends hbranch
  -- to the branch from the store
  obtain ⟨ctl₁, s₁, before, _, htrail₁, rfl, rfl, -, -, hstep⟩ := htrail₂.comes_next hq fun l' hl' => by
    rw [hbranch] at hl'
    cases hl'
  have hpositions : before ++ [ctl₁.pc] ++ [ctl₂.pc, n] = before ++ ctl₁.pc :: [ctl₁.pc + 1, n] := by
    rw [hq, List.append_assoc]
    rfl
  refine .of_run htrail₁ hpositions hstore hstep hrun htemps ?_ (hpc ▸ hk.1)
    (hpc ▸ .returning hends hmark hk)
  refine List.forall_mem_cons.2 ⟨fun hat => ?_, List.forall_mem_singleton.2 fun hat => ?_⟩
  · rw [hbranch] at hat
    cases hat
  · rw [show n + 1 - 1 = n from rfl, hat] at hmark
    cases hmark

/-- In finished code every load gives what was stored last, for the same purpose. -/
theorem Lowered.loadsStored {ds : List Directive} {final : Frame} {g : Flow} (hmade : c.Made)
    (hsize : labels.size = c.bound) (hblank : labels.IsBlank) (h : c.Lowered labels ds final code g)
    (htrail : R.Trail code s₀ ctl s ps) (hload : code[ctl.pc]? = some (.loadTemp slot)) :
    c.LoadsStored labels R code s₀ ctl s slot ps := by
  rcases (h.manages hmade).fetches ctl.pc slot hload with ⟨hgen, hk⟩ | ⟨q, hborrows⟩
  · obtain ⟨body, exit, staged, notes, hreturning⟩ := h.returning hmade hgen hsize hblank
    have hfinal : final = (c.draft { labels }).frame := by
      have hgives := h.gives
      unfold Draft.Gives at hgives
      rw [hgives]
    subst hfinal
    exact Returning.loadsStored hreturning hk htrail rfl
  · exact hborrows.loadsStored htrail rfl

/-! ## The temporaries of a procedure -/

/-- How the code of a procedure keeps temporaries: the declarations are those of the summary, in their
order; the first use of each slot is its declaration, and the last the end of a use; the slot of a view
is filled once and given back when all else is done; and on every path of an invocation, whatever is
raised on it, a load gives what was stored last, for the same purpose. -/
structure KeepsTemps (c : Plan) (labels : LabelTable) (sum : Summary) (code : List Instr) : Prop where
  declared : code.filter Instr.isAlloc = sum.temps.mapIdx fun k ty => .allocTemp ⟨k⟩ ty
  known : ∀ i ∈ code, ∀ s, i.temp? = some s → s.index < sum.temps.length
  lifetime : ∀ k ty, sum.temps[k]? = some ty →
    ∃ uses, usesOf ⟨k⟩ code = .allocTemp ⟨k⟩ ty :: (uses ++ [.freeTemp ⟨k⟩])
  views : ∀ name s, (name, s) ∈ sum.debugLocals →
    usesOf s code = [.allocTemp s .value, .storeTemp s, .freeTemp s] ∧
      ∃ front back, code = front ++ .freeTemp s :: back ∧ ∀ i ∈ back, i.isBookkeeping = true
  loads : ∀ {V W : Type} {R : Runtime V W} {s₀ s : Kept V W} {ctl : Control V} {ps : List Nat}
    {slot : TempSlot}, R.Trail code s₀ ctl s ps → code[ctl.pc]? = some (.loadTemp slot) →
    c.LoadsStored labels R code s₀ ctl s slot ps

/-- In the ends of the uses of some slots, each slot is mentioned once. -/
theorem usesOf_map_freeTemp {slots : List TempSlot} (hnodup : slots.Nodup) (hs : slot ∈ slots) :
    usesOf slot (slots.map .freeTemp) = [.freeTemp slot] := by
  have heq : usesOf slot (slots.map .freeTemp) = (slots.filter (· = slot)).map .freeTemp := by
    unfold usesOf
    rw [List.filter_map]
    congr 1
    exact List.filter_congr fun s _ => by simp [Instr.temp?]
  rw [heq, List.filter_eq, List.count_eq_one_of_mem hnodup hs]
  rfl

theorem Manages.views {final : Frame} (h : c.Manages final code) {name : Name}
    (hview : (name, slot) ∈ final.debugLocals) :
    usesOf slot code = [.allocTemp slot .value, .storeTemp slot, .freeTemp slot] ∧
      ∃ front back, code = front ++ .freeTemp slot :: back ∧ ∀ i ∈ back, i.isBookkeeping = true := by
  have hmem : slot ∈ c.viewSlots := List.mem_map.2 ⟨(name, slot), h.debugLocals ▸ hview, rfl⟩
  obtain ⟨front, rfl, hfilled⟩ := h.code_eq
  refine ⟨?_, ?_⟩
  · rw [usesOf_append, hfilled slot hmem, usesOf_map_freeTemp c.viewSlots_nodup hmem]
    rfl
  · obtain ⟨before, after, hsplit⟩ := List.append_of_mem hmem
    refine ⟨front ++ before.map .freeTemp, after.map .freeTemp, ?_, fun i hi => ?_⟩
    · rw [hsplit, List.map_append, List.map_cons, List.append_assoc]
    · obtain ⟨s, -, rfl⟩ := List.mem_map.1 hi
      rfl

end Plan

/-- The code of a procedure keeps its temporaries. -/
theorem Procedure.temps_of_lowerInto {p : Procedure} {options : Options} {strategy : LayoutStrategy}
    {out : Array Instr} {sum : Summary} (h : p.lowerInto options strategy #[] = (out, .ok sum)) :
    ∃ c labels, Plan.make p options strategy = .ok (c, labels) ∧ c.procedure = p ∧
      c.KeepsTemps labels sum out.toList := by
  obtain ⟨c, labels, ds, final, g, hmake, hlowered, rfl⟩ := lowerInto_eq_ok_iff.1 h
  obtain ⟨-, -, hp, -⟩ := Plan.make_eq_ok hmake
  have hmade := Plan.made_of_make hmake
  obtain ⟨hsize, hblank⟩ := Plan.labels_of_make hmake
  have hmanages := hlowered.manages hmade
  refine ⟨c, labels, hmake, hp, hmanages.history.declared, fun i hi s hs => ?_, fun k ty hty => ?_,
    fun name s hview => hmanages.views hview,
    fun htrail hload => hlowered.loadsStored hmade hsize hblank htrail hload⟩
  · exact hmanages.history.lt_size hi hs
  · have hty : final.temps.types[k]? = some ty := by rwa [← Array.getElem?_toList]
    exact hmanages.history.closed hty (hmanages.idle ⟨k⟩)

/-- A procedure with its user variable in a locals array, which receives in it what the protected region
throws, and returns that. -/
def rescued : Procedure where
  name := ⟨1⟩
  returnType := .value
  locals := { vars := #[{ id := ⟨0⟩, name := .empty, ty := .array, kind := .temporary },
    { id := ⟨1⟩, name := ⟨2⟩, ty := .value, kind := .user }] }
  localsArray := some ⟨0⟩
  graph :=
    { blocks := #[
        { id := ⟨0⟩, ordinal := 0, kind := .start, statements := []
          edge := .protect ⟨2⟩ ⟨3⟩ (some ⟨1⟩) },
        { id := ⟨1⟩, ordinal := 1, kind := .exit, statements := [], edge := .none },
        { id := ⟨2⟩, ordinal := 2, kind := .normal
          statements := [.throw (.literal { ty := .int } (.int 7))], edge := .leave ⟨1⟩ },
        { id := ⟨3⟩, ordinal := 3, kind := .normal
          statements := [.ret (some (.var { ty := .value } ⟨1⟩))], edge := .leave ⟨1⟩ }]
      wellFormed := wellFormed_of_fault?_eq_none (by decide) }

/-- The code of `rescued` with a view for the debugger: the handler and the return share a slot. -/
def rescuedCode : Array Instr :=
  #[.hiddenSequencePoint, .constInt 2, .callIntrinsic .newLocalsArray, .storeLocal ⟨0⟩,
    .allocTemp ⟨0⟩ .value, .loadLocal ⟨0⟩, .constStr ⟨2⟩, .callIntrinsic .indirectLocal,
    .storeTemp ⟨0⟩, .enterTry ⟨1⟩, .markLabel ⟨0⟩, .constInt 7, .convert .int .value, .throw,
    .markLabel ⟨1⟩, .allocTemp ⟨1⟩ .value, .storeTemp ⟨1⟩, .loadLocal ⟨0⟩, .constStr ⟨2⟩,
    .loadTemp ⟨1⟩, .callIntrinsic .arraySet, .freeTemp ⟨1⟩, .loadLocal ⟨0⟩, .constStr ⟨2⟩,
    .callIntrinsic .arrayGet, .storeTemp ⟨1⟩, .branch ⟨3⟩, .markLabel ⟨2⟩, .markLabel ⟨3⟩,
    .loadTemp ⟨1⟩, .ret true, .freeTemp ⟨1⟩, .freeTemp ⟨0⟩]

theorem lowerInto_rescued : rescued.lowerInto .debugging BlockOrder.ordinal.arrange #[] =
    (rescuedCode, .ok { instrCount := 33, temps := [.value, .value], labelCount := 4
                        resumePoints := [], debugLocals := [(⟨2⟩, ⟨0⟩)] }) := by
  have horder : rescued.graph.emissionOrder BlockOrder.ordinal.arrange rescued.liveBlocks =
      some [⟨0⟩, ⟨2⟩, ⟨3⟩, ⟨1⟩] := by cbv
  unfold Procedure.lowerInto Plan.make
  rw [horder]
  decide +kernel

/-- Control gets to the handler of `rescued` and loads there what it has stored. -/
theorem rescued_temps :
    usesOf ⟨0⟩ rescuedCode.toList = [.allocTemp ⟨0⟩ .value, .storeTemp ⟨0⟩, .freeTemp ⟨0⟩] ∧
    ∃ c labels, Plan.make rescued .debugging BlockOrder.ordinal.arrange = .ok (c, labels) ∧
      ∀ s₀ : Kept Int Unit, ∃ ctl s ps, rescuedCode.toList[ctl.pc]? = some (.loadTemp ⟨1⟩) ∧
        c.LoadsStored labels Runtime.ints rescuedCode.toList s₀ ctl s ⟨1⟩ ps := by
  obtain ⟨c, labels, hmake, -, hkeeps⟩ := Procedure.temps_of_lowerInto lowerInto_rescued
  refine ⟨(hkeeps.views _ _ List.mem_cons_self).1, c, labels, hmake, fun s₀ => ?_⟩
  have hrun : Run.after (Runtime.ints.step rescuedCode.toList) (.on Runtime.ints.enter s₀) 19 =
      .on _ _ := rfl
  obtain ⟨ps, htrail⟩ := Runtime.Trail.enter.exists_after hrun
  exact ⟨_, _, ps, rfl, hkeeps.loads htrail rfl⟩

end StackCode
