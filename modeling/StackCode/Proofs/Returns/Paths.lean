import StackCode.Proofs.Returns.Layout
import StackCode.Proofs.Returns.Trails

/-!
# What an ordinary procedure returns

The code of an ordinary procedure returns a value exactly if the procedure has one to return, and in
at most two places.  In one of them, which is there only if control gets to a return statement, the
value comes out of the return slot; on every path to it, the last thing executed is one return
statement as a whole, and the value is what that statement answers.  In the other the default value
is returned.  Main statement: `Procedure.returns_of_lowerInto`.
-/

namespace StackCode

variable {V W : Type}

/-- There is a default value of every type but `void`. -/
theorem Runtime.isSome_default? (R : Runtime V W) (ty : Ty) : (R.default? ty).isSome = !ty.isVoid := by
  cases ty <;> rfl

/-! ## Answers -/

/-- What a return statement answers, from the memory `m`, and the memory then: its value as one of the
return type, or the default value where it has none. -/
inductive Procedure.Answers (p : Procedure) (R : Runtime V W) (m : Memory V W) :
    Option Expr → Option V → Memory V W → Prop
  | nothing : Answers p R m none (R.default? p.returnType) m
  | void {e : Expr} {ty : Ty} {m' : Memory V W} (hty : (p.evaluate e).result = .ok ty)
      (hvoid : ty.isVoid = true) (hruns : (p.evaluate e).Runs R ([], m) ([], m')) :
      Answers p R m (some e) (R.default? p.returnType) m'
  | value {e : Expr} {ty : Ty} {x : V} {m' : Memory V W} (hty : (p.evaluate e).result = .ok ty)
      (hvalue : ty.isVoid = false) (hruns : (p.evaluate e).Runs R ([], m) ([x], m')) :
      Answers p R m (some e) (some (m'.coerce R ty p.returnType x).1)
        (m'.coerce R ty p.returnType x).2

/-- What the value of a statement is kept as is what the statement answers. -/
theorem Procedure.execKeep_eq {p : Procedure} (R : Runtime V W) (hgen : p.isGenerator = false) (ty : Ty)
    (x : V) (m : Memory V W) : p.execKeep R ty x m =
      if ty.isVoid then (R.default? p.returnType, m)
      else if p.returnType.isVoid then (none, m)
      else (some (m.coerce R ty p.returnType x).1, (m.coerce R ty p.returnType x).2) := by
  unfold Procedure.execKeep Procedure.defaultReturn
  rw [hgen, if_neg Bool.false_ne_true, if_neg Bool.false_ne_true]

/-- A return statement answers what direct execution of it returns. -/
theorem Procedure.Answers.execReturn_eq {p : Procedure} {R : Runtime V W} {m m' : Memory V W}
    {value : Option Expr} {v : Option V} (h : p.Answers R m value v m')
    (hgen : p.isGenerator = false) (hreturn : p.returnType.isVoid = false)
    (harray : p.localsArray = none) : p.execReturn R value m = m'.note (.ret v) := by
  have hexec (e : Expr) : p.execReturn R (some e) m =
      (p.execKeep R e.resultTy (p.eval R e m).1 (p.eval R e m).2).2.note
        (.ret (p.execKeep R e.resultTy (p.eval R e m).1 (p.eval R e m).2).1) := rfl
  cases h with
  | nothing =>
    unfold Procedure.execReturn Procedure.defaultReturn
    rw [hgen, if_neg Bool.false_ne_true]
  | @void e ty m' hty hvoid hruns =>
    have hresult := Procedure.eq_of_evaluate harray hty hruns
    obtain rfl := Procedure.eq_resultTy_of_evaluate harray hty
    rw [hexec, Procedure.execKeep_eq R hgen, if_pos hvoid, (Prod.mk.inj hresult).2]
  | @value e ty x m' hty hvalue hruns =>
    have hresult := Procedure.eq_of_evaluate harray hty hruns
    obtain rfl := Procedure.eq_resultTy_of_evaluate harray hty
    rw [hvalue, if_neg Bool.false_ne_true] at hresult
    cases hresult
    rw [hexec, Procedure.execKeep_eq R hgen, hvalue, hreturn, if_neg Bool.false_ne_true,
      if_neg Bool.false_ne_true]

namespace Plan

variable {c : Plan} {R : Runtime V W} {code is post : List Instr} {l : Label} {slot : TempSlot}
  {value : Option Expr}

theorem stages_iff : c.outline.stages = true ↔
    c.procedure.isGenerator = false ∧ c.procedure.returnType.isVoid = false := by
  change (!c.procedure.isGenerator && !c.procedure.returnType.isVoid) = true ↔ _
  rw [Bool.and_eq_true, Bool.not_eq_true', Bool.not_eq_true']

/-- Executing the code of a returned value and of its keeping computes the answer. -/
theorem answers_of_execAll (hstages : c.outline.stages = true) {ty : Ty}
    (hty : (c.outline.returned value).result = .ok ty) (hkeep : (c.outline.keep ty).Succeeds)
    {m m' : Memory V W} {v : V}
    (h : Instr.execAll R ((c.outline.returned value).code ++ (c.outline.keep ty).code) ([], m) =
      some ([v], m')) : c.procedure.Answers R m value (some v) m' := by
  obtain ⟨hgen, hreturn⟩ := stages_iff.1 hstages
  rw [Instr.execAll_append] at h
  obtain ⟨⟨st, m₁⟩, hreturned, hkept⟩ := Option.bind_eq_some_iff.1 h
  -- the value is all that is on the stack
  have hlength : st.length = ty.width := by
    obtain ⟨u, hu⟩ := hkeep
    have hcarries : (c.outline.keep ty).Carries True ty.width _ := c.outline.keep_carries ty
    obtain ⟨after, hlands, hafter⟩ := hcarries.lands trivial 0
    rw [Nat.zero_add, hafter u hu, hstages] at hlands
    exact Instr.depthThrough_inj (Instr.depthThrough_of_execAll (c.outline.isPlain_keep ty) hkept)
      hlands
  obtain ⟨x, rfl⟩ : ∃ x, st = if ty.isVoid then [] else [x] := by
    unfold Ty.width at hlength
    split at hlength
    · next hvoid =>
      simp only [if_pos hvoid]
      exact ⟨v, List.length_eq_zero_iff.1 hlength⟩
    · next hvalue =>
      simp only [if_neg hvalue]
      exact List.length_eq_one_iff.1 hlength
  have hresult := Fragment.Runs.unique (x := c.outline.keep ty) hkept (c.outline.keep_runs hkeep x m₁)
  rw [Procedure.execKeep_eq R (p := c.outline.procedure) hgen] at hresult
  cases hvoid : ty.isVoid with
  | true =>
    rw [hvoid, if_pos rfl] at hresult hreturned
    obtain ⟨hv, rfl⟩ := Prod.mk.inj hresult
    have hdefault : some v = R.default? c.procedure.returnType := by
      cases hd : R.default? c.procedure.returnType with
      | none =>
        rw [show R.default? c.outline.procedure.returnType = none from hd] at hv
        cases hv
      | some w =>
        rw [show R.default? c.outline.procedure.returnType = some w from hd] at hv
        cases hv
        rfl
    rw [hdefault]
    cases value with
    | none =>
      cases hreturned
      exact .nothing
    | some e => exact .void hty hvoid hreturned
  | false =>
    rw [hvoid, if_neg Bool.false_ne_true] at hresult hreturned
    rw [show c.outline.procedure.returnType.isVoid = false from hreturn,
      if_neg Bool.false_ne_true] at hresult
    obtain ⟨hv, rfl⟩ := Prod.mk.inj hresult
    cases hv
    cases value with
    | none =>
      cases hty
      cases hvoid
    | some e => exact .value hty hvoid hreturned

/-- The code of a return statement, where the procedure has a value to return: what computes the
answer, the store, and the branch. -/
theorem ReturnCode.parts_of_stages (hstages : c.outline.stages = true)
    (h : c.ReturnCode l slot value is) : ∃ ty front, is = front ++ [.storeTemp slot, .branch l] ∧
      (∀ i ∈ front, i.isPlain = true ∨ i.isNote = true) ∧
      (c.outline.returned value).result = .ok ty ∧ (c.outline.keep ty).Succeeds ∧
      ∀ {V W : Type} (R : Runtime V W) (s : List V × Memory V W),
        Instr.execAll R (front.filter (!·.isNote)) s =
          Instr.execAll R ((c.outline.returned value).code ++ (c.outline.keep ty).code) s := by
  obtain ⟨ty, point, notes, hpoint, hnotes, hty, hkeep, rfl⟩ := h.parts
  have hplain : ∀ i ∈ point, i.isPlain = true := by
    intro i hi
    obtain ⟨span, rfl⟩ := hpoint i hi
    rfl
  have hreturned := c.outline.isPlain_returned value
  have hkept := c.outline.isPlain_keep ty
  have hfilter {is : List Instr} (his : ∀ i ∈ is, i.isPlain = true) : is.filter (!·.isNote) = is :=
    List.filter_eq_self.2 fun i hi => by rw [Instr.isNote_of_isPlain (his i hi)]; rfl
  refine ⟨ty, point ++ (c.outline.returned value).code ++ notes ++ (c.outline.keep ty).code, ?_, ?_,
    hty, hkeep, fun R s => ?_⟩
  · unfold storeReturn
    rw [hstages, if_pos rfl]
    rfl
  · simp only [List.forall_mem_append]
    exact ⟨⟨⟨fun i hi => .inl (hplain i hi), fun i hi => .inl (hreturned i hi)⟩,
      fun i hi => .inr (hnotes i hi)⟩, fun i hi => .inl (hkept i hi)⟩
  · have hnone : notes.filter (!·.isNote) = [] :=
      List.filter_eq_nil_iff.2 fun i hi => by rw [hnotes i hi]; exact nofun
    simp only [List.filter_append, hfilter hplain, hfilter hreturned, hfilter hkept, hnone,
      List.append_assoc]
    -- a place for a debugger is passed
    clear hplain hfilter h
    induction point with
    | nil => rfl
    | cons i point ih =>
      obtain ⟨⟨span, hi⟩, hrest⟩ := List.forall_mem_cons.1 hpoint
      subst hi
      exact ih hrest

/-- No label stands in the code of a return statement. -/
theorem ReturnCode.placed?_eq_none (hstages : c.outline.stages = true)
    (h : c.ReturnCode l slot value is) : ∀ i ∈ is, i.placed? = none := by
  obtain ⟨ty, front, rfl, hfront, -⟩ := h.parts_of_stages hstages
  refine List.forall_mem_append.2 ⟨fun i hi => ?_,
    List.forall_mem_cons.2 ⟨rfl, List.forall_mem_singleton.2 rfl⟩⟩
  rcases hfront i hi with hplain | hnote
  · exact Instr.placed?_of_isStraight (Instr.isStraight_of_isPlain hplain)
  · exact Instr.placed?_of_isNote hnote

/-- A run through the code of a return statement, up to the branch, leaves the answer in the slot. -/
theorem ReturnCode.answers_of_after (hstages : c.outline.stages = true)
    (h : c.ReturnCode l slot value is) (hdepth : Instr.depthThrough is.dropLast 0 = .ok 0)
    {c₁ ctl : Control V} {s₁ s : Kept V W} (hcode : code.drop c₁.pc = is ++ post)
    (hrun : Run.after (R.step code) (.on c₁ s₁) (is.length - 1) = .on ctl s) (hempty : ctl.stack = []) :
    c₁.stack = [] ∧ c.procedure.Answers R s₁.memory value (some (ctl.temps slot)) s.memory := by
  obtain ⟨ty, front, rfl, hfront, hty, hkeep, hexec⟩ := h.parts_of_stages hstages
  have hlast : (front ++ [Instr.storeTemp slot, .branch l]).dropLast = front ++ [.storeTemp slot] := by
    rw [List.append_cons, List.dropLast_concat]
  have hpasses : ∀ i ∈ front ++ [Instr.storeTemp slot], i.passes = true :=
    List.forall_mem_append.2 ⟨fun i hi => (hfront i hi).elim Instr.passes_of_isPlain
      Instr.passes_of_isNote, List.forall_mem_singleton.2 rfl⟩
  have hlength : (front ++ [Instr.storeTemp slot, .branch l]).length - 1 =
      (front ++ [Instr.storeTemp slot]).length := by
    simp only [List.length_append, List.length_cons, List.length_nil]
    omega
  rw [hlast] at hdepth
  rw [hlength] at hrun
  -- the stack is empty at the beginning, for it is at the end
  have hbegin : c₁.stack = [] := by
    have hwhole : code.drop c₁.pc = (front ++ [.storeTemp slot]) ++ (.branch l :: post) := by
      rw [hcode]
      simp
    have hthrough := Instr.depthThrough_of_after hpasses hwhole hrun
    rw [hempty] at hthrough
    exact List.length_eq_zero_iff.1 (Instr.depthThrough_inj hthrough hdepth)
  refine ⟨hbegin, ?_⟩
  rw [List.length_append, List.length_singleton] at hrun
  obtain ⟨c₂, s₂, hrun, hstep⟩ := Run.exists_of_after_succ hrun
  have hsplit : code.drop c₁.pc = front ++ ([.storeTemp slot, .branch l] ++ post) := by
    rw [hcode, List.append_assoc]
  obtain ⟨hexecs, heq⟩ := Instr.execAll_of_after hfront hsplit hrun
  have hpc : code[c₂.pc]? = some (.storeTemp slot) := by
    rw [heq]
    exact getElem?_of_drop (drop_add_of_drop hsplit)
  obtain ⟨i, hi, hstepped⟩ := Runtime.stepped hstep
  obtain rfl := Option.some_inj.1 (hpc.symm.trans hi)
  cases hstepped with
  | skip hskip => cases hskip
  | plain hplain => cases hplain
  | jump hjump => rcases hjump with hjump | hjump <;> cases hjump
  | @storeTemp _ v st hst =>
    have hst' : st = [] := hempty
    rw [hexec, hbegin, hst, hst'] at hexecs
    change c.procedure.Answers R s₁.memory value (some (Function.update c₂.temps slot v slot)) s.memory
    rw [Function.update_self]
    exact answers_of_execAll hstages hty hkeep hexecs

end Plan

/-! ## The places to return -/

/-- At this position a value is fetched, to be returned. -/
def FetchesAt (code : List Instr) (k : Nat) (slot : TempSlot) : Prop :=
  code[k]? = some (.loadTemp slot) ∧ code[k + 1]? = some (.ret true)

namespace Plan

variable {c : Plan} {R : Runtime V W} {code is post : List Instr} {l : Label} {slot : TempSlot}
  {value : Option Expr}

theorem EndsReturn.branch {sites : ReturnSites} {q : Nat} (h : c.EndsReturn l slot sites code q) :
    code[q]? = some (.branch l) := by
  obtain ⟨value, start, d, is, post, -, hcode, -, hdrop, hend⟩ := h
  obtain ⟨_, _, _, _, _, _, _, rfl⟩ := hcode.parts
  rw [← List.append_assoc] at hdrop hend
  rw [List.append_assoc _ [_], List.singleton_append] at hdrop
  rw [List.length_append, List.length_singleton, ← Nat.add_assoc] at hend
  rw [Nat.succ.inj hend]
  exact getElem?_of_drop (drop_add_of_drop hdrop)

/-- The last thing executed is one return statement as a whole, and `v` is its answer. -/
inductive Completes (c : Plan) (R : Runtime V W) (sites : ReturnSites) (code : List Instr)
    (s₀ : Kept V W) (l : Label) (slot : TempSlot) (v : V) (s : Kept V W) (ps : List Nat) : Prop
  | intro {value : Option Expr} {start d : Nat} {is before post : List Instr} {front : List Nat}
      {ctl : Control V} {s₁ : Kept V W} (site : sites value start d)
      (returnCode : c.ReturnCode l slot value is) (stores : is = before ++ [.storeTemp slot, .branch l])
      (drop_eq : code.drop start = is ++ post) (trail : R.Trail code s₀ ctl s₁ front)
      (pc_eq : ctl.pc = start) (isEmpty : ctl.stack = [])
      (positions : ps = front ++ List.range' start is.length)
      (answers : c.procedure.Answers R s₁.memory value (some v) s.memory)

/-- A trail to the branch of a return statement has executed the statement as a whole. -/
theorem EndsReturn.completes {r : Reading} {o : Outline} (hreal : Realizes r o code)
    (hstages : c.outline.stages = true) {sites : ReturnSites}
    (hzero : ∀ value q d, sites value q d → d = 0) {q : Nat} (h : c.EndsReturn l slot sites code q)
    {s₀ s : Kept V W} {ctl : Control V} {ps : List Nat} (htrail : R.Trail code s₀ ctl s ps)
    (hpc : ctl.pc = q) :
    c.Completes R sites code s₀ l slot (ctl.temps slot) s (ps ++ [q]) := by
  have hbranch := h.branch
  obtain ⟨value, start, d, is, post, hsite, hcode, hdepth, hdrop, hend⟩ := h
  obtain rfl := hzero value start d hsite
  obtain ⟨ty, before, rfl, -⟩ := hcode.parts_of_stages hstages
  -- the branch finds an empty stack
  have hempty : ctl.stack = [] := by
    obtain ⟨entered, -, hreached⟩ := htrail.reached
    have hsafe := (PathState.Inv.of_reached hreal hreached).safe hreal
    exact List.length_eq_zero_iff.1 (hsafe.jump (.branch l) (hpc ▸ hbranch) rfl)
  generalize hlength : (before ++ [Instr.storeTemp slot, .branch l]).length = n at hend
  obtain ⟨n, rfl⟩ : ∃ m, n = m + 1 := ⟨n - 1, by
    rw [List.length_append, List.length_cons] at hlength
    omega⟩
  obtain rfl : q = start + n := Nat.succ.inj hend
  obtain ⟨c₁, s₁, front, hfront, hstart, rfl, hrun⟩ := htrail.straight hdrop
    (hcode.placed?_eq_none hstages) (by rw [hlength]; exact Nat.lt_succ_self n) hpc
  have hrun' : Run.after (R.step code) (.on c₁ s₁)
      ((before ++ [Instr.storeTemp slot, .branch l]).length - 1) = .on ctl s := by
    rw [hlength]
    exact hrun
  obtain ⟨hbegin, hanswers⟩ := hcode.answers_of_after hstages hdepth (hstart ▸ hdrop) hrun' hempty
  refine .intro hsite hcode rfl hdrop hfront hstart hbegin ?_ hanswers
  rw [hlength, List.range'_concat, Nat.one_mul, List.append_assoc]

namespace Returning

variable {slot? : Option TempSlot} {sites : ReturnSites} {body exit staged notes : List Instr}

/-- Where the code returns: behind the default value, or behind a fetched value. -/
theorem ret_cases (h : c.Returning slot? sites code body exit staged notes) {q : Nat} {w : Bool}
    (hq : code[q]? = some (.ret w)) :
    (exit = c.defaultCode ∧ (w = !c.procedure.returnType.isVoid) ∧
      q = body.length + (Fragment.pushDefault c.procedure.returnType).code.length) ∨
    (w = true ∧ ∃ l slot, slot? = some slot ∧ staged = [.markLabel l, .loadTemp slot, .ret true] ∧
      c.ReturnsStored sites code body exit l slot ∧ q = body.length + exit.length + 2) := by
  have hquiet {is : List Instr} {k : Nat} (his : ∀ i ∈ is, i.isQuiet = true) :
      is[k]? ≠ some (.ret w) := by
    intro hk
    cases his _ (List.mem_of_getElem? hk)
  rw [h.code_eq, List.getElem?_append] at hq
  split at hq
  · exact absurd hq (hquiet h.isQuiet)
  · rw [List.getElem?_append] at hq
    split at hq
    · refine .inl ?_
      rcases h.exit_eq with rfl | rfl
      · cases hq
      · unfold defaultCode at hq
        rw [List.getElem?_append] at hq
        split at hq
        · exact absurd hq (hquiet fun i hi =>
            Instr.isQuiet_of_isPlain (Fragment.isPlain_pushDefault _ i hi))
        · rw [List.getElem?_singleton] at hq
          split at hq
          · cases hq
            exact ⟨rfl, rfl, by omega⟩
          · cases hq
    · rw [List.getElem?_append] at hq
      split at hq
      · rcases h.staged_eq with rfl | ⟨l, slot, hslot, rfl, hstored⟩
        · cases hq
        · generalize hm : q - body.length - exit.length = m at hq
          match m with
          | 0 | 1 => cases hq
          | 2 =>
            cases hq
            exact .inr ⟨rfl, l, slot, hslot, rfl, hstored, by omega⟩
          | m + 3 => cases hq
      · exact absurd hq (hquiet fun i hi => Instr.isQuiet_of_isNote (h.isNote i hi))

theorem getElem?_staged (h : c.Returning slot? sites code body exit staged notes)
    {m : Nat} (hm : m < staged.length) :
    code[body.length + exit.length + m]? = staged[m]? := by
  rw [h.code_eq, ← List.append_assoc, ← List.length_append,
    List.getElem?_append_right (Nat.le_add_right _ _), Nat.add_sub_cancel_left,
    List.getElem?_append_left hm]

/-- A fetched value is the stored one. -/
theorem fetches_cases (h : c.Returning slot? sites code body exit staged notes) {k : Nat}
    (hk : FetchesAt code k slot) : ∃ l, slot? = some slot ∧
      staged = [.markLabel l, .loadTemp slot, .ret true] ∧
      c.ReturnsStored sites code body exit l slot ∧ k = body.length + exit.length + 1 := by
  rcases h.ret_cases hk.2 with ⟨rfl, hvalue, hq⟩ | ⟨-, l, slot', hslot, rfl, hstored, hq⟩
  · -- the default value is not fetched
    obtain ⟨v, hcode⟩ : ∃ v : Literal,
        (Fragment.pushDefault c.procedure.returnType).code = [.ofLiteral v] := by
      unfold Fragment.pushDefault
      cases hty : c.procedure.returnType.default? with
      | some v => exact ⟨v, rfl⟩
      | none =>
        rw [Ty.default?_eq_none_iff.1 hty] at hvalue
        cases hvalue
    have hload := hk.1
    rw [hcode] at hq
    rw [Nat.succ.inj hq, h.code_eq, List.getElem?_append_right (Nat.le_refl _), Nat.sub_self] at hload
    unfold defaultCode at hload
    rw [hcode] at hload
    cases v <;> cases hload
  · obtain rfl : k = body.length + exit.length + 1 := by omega
    have hload := hk.1
    rw [h.getElem?_staged (Nat.lt_of_sub_eq_succ rfl)] at hload
    cases hload
    exact ⟨l, hslot, rfl, hstored, rfl⟩

/-- The code returns in at most two places. -/
theorem count_le (h : c.Returning slot? sites code body exit staged notes) :
    code.count (.ret true) + code.count (.ret false) ≤ 2 := by
  have hquiet {is : List Instr} (his : ∀ i ∈ is, i.isQuiet = true) (w : Bool) :
      is.count (.ret w) = 0 := by
    refine List.count_eq_zero.2 fun hmem => ?_
    cases his _ hmem
  have hexit : exit.count (.ret true) + exit.count (.ret false) ≤ 1 := by
    rcases h.exit_eq with rfl | rfl
    · exact Nat.zero_le _
    · have hpush := hquiet fun i hi =>
        Instr.isQuiet_of_isPlain (Fragment.isPlain_pushDefault c.procedure.returnType i hi)
      unfold defaultCode
      rw [List.count_append, List.count_append, hpush, hpush]
      cases c.procedure.returnType.isVoid <;> decide
  have hstaged : staged.count (.ret true) + staged.count (.ret false) ≤ 1 := by
    rcases h.staged_eq with rfl | ⟨l, slot, -, rfl, -⟩
    · exact Nat.zero_le _
    · rfl
  have hnotes := hquiet fun i hi => Instr.isQuiet_of_isNote (h.isNote i hi)
  rw [h.code_eq]
  simp only [List.count_append, hquiet h.isQuiet, hnotes]
  omega

/-- Control comes to a fetched value from the end of a return statement, by the label in between. -/
theorem comes_of_fetches (h : c.Returning slot? sites code body exit staged notes) {k : Nat}
    (hk : FetchesAt code k slot) {s₀ s : Kept V W} {ctl : Control V} {ps : List Nat}
    (htrail : R.Trail code s₀ ctl s ps) (hpc : ctl.pc = k) :
    ∃ l c₁ ps₁, code[k - 1]? = some (.markLabel l) ∧ ps = ps₁ ++ [c₁.pc, k - 1] ∧
      c.EndsReturn l slot sites code c₁.pc ∧ R.Trail code s₀ c₁ s ps₁ ∧
      Run.after (R.step code) (.on c₁ s) 2 = .on ctl s ∧ ctl.temps = c₁.temps := by
  obtain ⟨l, -, rfl, hstored, rfl⟩ := h.fetches_cases hk
  have hmark : code[body.length + exit.length]? = some (.markLabel l) :=
    h.getElem?_staged (Nat.zero_lt_succ _)
  -- to the value from the label
  obtain ⟨c₂, s₂, ps₂, i, htrail₂, rfl, hpc₂, hi, -, hstep₂⟩ := htrail.comes_next hpc fun l' hl' => by
    rw [hk.1] at hl'
    cases hl'
  rw [Runtime.step_label (hpc₂ ▸ hmark)] at hstep₂
  cases hstep₂
  -- to the label from a branch
  obtain ⟨front, j, back, hdead, hj, hback⟩ := hstored.deadEnd
  have hcode : code = front ++ j :: (back ++
      ([.markLabel l, .loadTemp slot, .ret true] ++ notes)) := by
    rw [h.code_eq, ← List.append_assoc body, hdead, List.append_assoc]
    rfl
  have hlength : body.length + exit.length = front.length + 1 + back.length := by
    rw [← List.length_append, hdead, List.length_append, List.length_cons]
    omega
  obtain ⟨l', hl', hcomes⟩ := htrail₂.comes_home hcode hj hback (Nat.le_refl _) (hpc₂.trans hlength)
  rw [hpc₂, hmark] at hl'
  cases hl'
  obtain ⟨c₁, s₁, ps₁, j', htrail₁, rfl, hj', hl, hstep₁⟩ :=
    hcomes.resolve_left hstored.not_handler
  -- nothing behind the body names the label
  have hlt : c₁.pc < body.length := by
    by_contra hge
    rw [h.code_eq, List.getElem?_append_right (Nat.not_lt.1 hge)] at hj'
    have hmem := List.mem_of_getElem? hj'
    have hnone : ∀ i ∈ exit ++ ([.markLabel l, .loadTemp slot, .ret true] ++ notes),
        i.targets = [] := by
      refine List.forall_mem_append.2 ⟨?_, List.forall_mem_append.2 ⟨?_, fun i hi =>
        Instr.targets_of_isNote (h.isNote i hi)⟩⟩
      · rcases h.exit_eq with rfl | rfl
        · exact nofun
        · refine List.forall_mem_append.2 ⟨fun i hi => ?_, List.forall_mem_singleton.2 rfl⟩
          exact Instr.targets_of_isStraight (Instr.isStraight_of_isPlain
            (Fragment.isPlain_pushDefault _ i hi))
      · simp [Instr.targets]
    rw [hnone j' hmem] at hl
    cases hl
  rw [h.code_eq, List.getElem?_append_left hlt] at hj'
  have hends : c.EndsReturn l slot sites code c₁.pc := by
    rw [h.code_eq]
    exact (hstored.goes _ _ hj' hl).append hlt _
  have hgoTo : Runtime.goTo code c₁ l s₁ = .on c₂ s := by
    rw [← hstep₁]
    simp only [Runtime.step, hends.branch]
  obtain ⟨rfl, -, hc₂⟩ := Runtime.goTo_eq_on hgoTo
  refine ⟨l, c₁, ps₁, hmark, ?_, hends, htrail₁, ?_, ?_⟩
  · rw [List.append_assoc]
    rfl
  · change (R.step code c₁ _).andThen (R.step code) = _
    rw [hstep₁]
    exact Runtime.step_label (hpc₂ ▸ hmark)
  · change c₂.temps = c₁.temps
    rw [hc₂]

/-- Control comes to a fetched value by a return statement, which is the last thing executed. -/
theorem completes_of_fetches {r : Reading} {o : Outline} (hreal : Realizes r o code)
    (h : c.Returning slot? sites code body exit staged notes) {k : Nat} (hk : FetchesAt code k slot)
    {s₀ s : Kept V W} {ctl : Control V} {ps : List Nat} (htrail : R.Trail code s₀ ctl s ps)
    (hpc : ctl.pc = k) : ∃ l q ps₁, code[k - 1]? = some (.markLabel l) ∧ ps = ps₁ ++ [q, k - 1] ∧
      c.EndsReturn l slot sites code q ∧
      c.Completes R sites code s₀ l slot (ctl.temps slot) s (ps₁ ++ [q]) := by
  obtain ⟨_, -, -, hstored, -⟩ := h.fetches_cases hk
  obtain ⟨l, c₁, ps₁, hmark, hps, hends, htrail₁, -, htemps⟩ := h.comes_of_fetches hk htrail hpc
  rw [htemps]
  exact ⟨l, c₁.pc, ps₁, hmark, hps, hends, hends.completes hreal hstored.stages h.isEmpty htrail₁ rfl⟩

/-- A value that is fetched is returned. -/
theorem returns_of_fetches {k : Nat} (hk : FetchesAt code k slot) (s : Kept V W) {ctl : Control V}
    (hpc : ctl.pc = k) : Run.after (R.step code) (.on ctl s) 2 =
      .done (s.note (.ret (some (ctl.temps slot)))) := by
  subst hpc
  have hload : R.step code ctl s = .on (ctl.pass (ctl.temps slot :: ctl.stack)) s := by
    simp only [Runtime.step, hk.1]
  change Run.after (R.step code) (R.step code ctl s) 1 = _
  rw [hload]
  change R.step code (ctl.pass (ctl.temps slot :: ctl.stack)) s = _
  have hret : code[(ctl.pass (ctl.temps slot :: ctl.stack)).pc]? = some (.ret true) := hk.2
  simp only [Runtime.step, hret]
  rfl

/-- Behind the default value, the default value is returned. -/
theorem returns_default (h : c.Returning slot? sites code body exit staged notes)
    (hexit : exit = c.defaultCode) {s₀ s : Kept V W} {ctl : Control V} {ps : List Nat}
    (htrail : R.Trail code s₀ ctl s ps)
    (hpc : ctl.pc = body.length + (Fragment.pushDefault c.procedure.returnType).code.length) :
    R.step code ctl s = .done (s.note (.ret (R.default? c.procedure.returnType))) := by
  subst hexit
  have hplain := Fragment.isPlain_pushDefault c.procedure.returnType
  have hdrop : code.drop body.length = c.defaultCode ++ (staged ++ notes) := by
    rw [h.code_eq, List.drop_left]
  have hplaced : ∀ i ∈ c.defaultCode, i.placed? = none :=
    List.forall_mem_append.2 ⟨fun i hi => Instr.placed?_of_isStraight
      (Instr.isStraight_of_isPlain (hplain i hi)), List.forall_mem_singleton.2 rfl⟩
  have hlt : (Fragment.pushDefault c.procedure.returnType).code.length < c.defaultCode.length := by
    rw [defaultCode, List.length_append]
    exact Nat.lt_succ_self _
  obtain ⟨c₁, s₁, front, -, hstart, -, hrun⟩ := htrail.straight hdrop hplaced hlt hpc
  have hfilter : (Fragment.pushDefault c.procedure.returnType).code.filter (!·.isNote) =
      (Fragment.pushDefault c.procedure.returnType).code :=
    List.filter_eq_self.2 fun i hi => by rw [Instr.isNote_of_isPlain (hplain i hi)]; rfl
  have hsplit : code.drop c₁.pc = (Fragment.pushDefault c.procedure.returnType).code ++
      (.ret (!c.procedure.returnType.isVoid) :: (staged ++ notes)) := by
    rw [hstart, hdrop, defaultCode, List.append_assoc]
    rfl
  obtain ⟨hexec, -⟩ := Instr.execAll_of_after (fun i hi => .inl (hplain i hi)) hsplit hrun
  rw [hfilter] at hexec
  have hruns := Fragment.runs_pushDefault (R := R) c.procedure.returnType c₁.stack s₁.memory
  have hstack : ctl.stack = (R.default? c.procedure.returnType).toList ++ c₁.stack :=
    (Prod.mk.inj (Option.some_inj.1 (hexec.symm.trans hruns))).1
  have hret : code[ctl.pc]? = some (.ret (!c.procedure.returnType.isVoid)) := by
    rw [hpc, ← hstart]
    exact getElem?_of_drop (drop_add_of_drop hsplit)
  have hsome := R.isSome_default? c.procedure.returnType
  cases hv : R.default? c.procedure.returnType with
  | none =>
    rw [hv] at hsome
    rw [← hsome] at hret
    simp only [Runtime.step, hret]
    rfl
  | some v =>
    rw [hv] at hsome hstack
    rw [← hsome] at hret
    simp only [Runtime.step, hret, hstack]
    rfl

theorem fetchesAt (h : c.Returning slot? sites code body exit staged notes)
    (hstaged : staged = [.markLabel l, .loadTemp slot, .ret true]) :
    FetchesAt code (body.length + exit.length + 1) slot := by
  subst hstaged
  have hget (m : Nat) (hm : m < 3) := h.getElem?_staged (m := m) hm
  exact ⟨hget 1 (by decide), hget 2 (by decide)⟩

/-- Where no value is fetched, the default value is returned. -/
theorem returns_of_not_fetches (h : c.Returning slot? sites code body exit staged notes)
    {s₀ s : Kept V W} {ctl : Control V} {ps : List Nat} {w : Bool}
    (htrail : R.Trail code s₀ ctl s ps) (hret : code[ctl.pc]? = some (.ret w))
    (hnot : ∀ k slot, FetchesAt code k slot → ctl.pc ≠ k + 1) :
    R.step code ctl s = .done (s.note (.ret (R.default? c.procedure.returnType))) := by
  rcases h.ret_cases hret with ⟨hexit, -, hpc⟩ | ⟨-, l, slot, -, hstaged, -, hpc⟩
  · exact h.returns_default hexit htrail hpc
  · exact absurd hpc (hnot _ slot (h.fetchesAt hstaged))

/-- On a path without a return statement, the default value is returned. -/
theorem returns_of_not_endsReturn {r : Reading} {o : Outline} (hreal : Realizes r o code)
    (h : c.Returning slot? sites code body exit staged notes) {s₀ s : Kept V W} {ctl : Control V}
    {ps : List Nat} {w : Bool} (htrail : R.Trail code s₀ ctl s ps)
    (hret : code[ctl.pc]? = some (.ret w))
    (hnone : ∀ q ∈ ps, ∀ l slot, ¬ c.EndsReturn l slot sites code q) :
    R.step code ctl s = .done (s.note (.ret (R.default? c.procedure.returnType))) := by
  refine h.returns_of_not_fetches htrail hret fun k slot hk hpc => ?_
  obtain ⟨c₁, s₁, ps₁, _, htrail₁, rfl, hpc₁, -⟩ := htrail.comes_next hpc fun l hl => by
    rw [hk.2] at hl
    cases hl
  obtain ⟨l, q, ps₂, -, rfl, hends, -⟩ := h.completes_of_fetches hreal hk htrail₁ hpc₁
  exact hnone q (by simp) l slot hends

end Returning

end Plan

/-! ## How a procedure returns -/

/-- Where the return statements begin that control gets to when the procedure is lowered. -/
def Plan.returnSites (c : Plan) (labels : LabelTable) : ReturnSites :=
  c.ReturnsIn c.blocks { labels } { labels := (c.draft { labels }).frame.labels }

/-- How some code of an ordinary procedure returns. -/
structure Plan.ReturnsBy (c : Plan) (labels : LabelTable) (code : List Instr) : Prop where
  withValue_eq : ∀ w, .ret w ∈ code → w = !c.procedure.returnType.isVoid
  count_le : code.count (.ret true) + code.count (.ret false) ≤ 2
  fetches_iff : c.procedure.returnType.isVoid = false →
    ((∃ k slot, FetchesAt code k slot) ↔ ∃ value q d, c.returnSites labels value q d)
  fetches_unique : ∀ k k' slot slot', FetchesAt code k slot → FetchesAt code k' slot' → k = k'
  slot_eq : ∀ k slot, FetchesAt code k slot → (c.draft { labels }).frame.returnSlot = some slot
  /-- On every path to a fetched value, a return statement is the last thing executed, and the value is
  its answer. -/
  fetched : ∀ {V W : Type} {R : Runtime V W} {s₀ s : Kept V W} {ctl : Control V} {ps : List Nat}
    {k : Nat} {slot : TempSlot}, FetchesAt code k slot → R.Trail code s₀ ctl s ps → ctl.pc = k →
    ∃ l v ps₁, code[k - 1]? = some (.markLabel l) ∧ ps = ps₁ ++ [k - 1] ∧
      c.Completes R (c.returnSites labels) code s₀ l slot v s ps₁ ∧
      Run.after (R.step code) (.on ctl s) 2 = .done (s.note (.ret (some v)))
  /-- Where no value is fetched, the default value is returned. -/
  notFetched : ∀ {V W : Type} {R : Runtime V W} {s₀ s : Kept V W} {ctl : Control V} {ps : List Nat}
    {w : Bool}, R.Trail code s₀ ctl s ps → code[ctl.pc]? = some (.ret w) →
    (∀ k slot, FetchesAt code k slot → ctl.pc ≠ k + 1) →
    R.step code ctl s = .done (s.note (.ret (R.default? c.procedure.returnType)))
  /-- A path that has executed no return statement returns the default value. -/
  notReturned : ∀ {V W : Type} {R : Runtime V W} {s₀ s : Kept V W} {ctl : Control V} {ps : List Nat}
    {w : Bool}, R.Trail code s₀ ctl s ps → code[ctl.pc]? = some (.ret w) →
    (∀ q ∈ ps, ∀ l slot, ¬ c.EndsReturn l slot (c.returnSites labels) code q) →
    R.step code ctl s = .done (s.note (.ret (R.default? c.procedure.returnType)))

theorem Plan.Returning.returnsBy {c : Plan} {labels : LabelTable} {code body exit staged notes : List Instr}
    {r : Reading} {o : Outline} (hreal : Realizes r o code) (hgen : c.procedure.isGenerator = false)
    (h : c.Returning (c.draft { labels }).frame.returnSlot (c.returnSites labels) code body exit staged
      notes) : c.ReturnsBy labels code where
  withValue_eq w hw := by
    obtain ⟨q, hq⟩ := List.mem_iff_getElem?.1 hw
    rcases h.ret_cases hq with ⟨-, rfl, -⟩ | ⟨rfl, l, slot, -, -, hstored, -⟩
    · rfl
    · rw [(stages_iff.1 hstored.stages).2]
      rfl
  count_le := h.count_le
  fetches_iff hvalue := by
    rw [← h.staged_iff (stages_iff.2 ⟨hgen, hvalue⟩)]
    constructor
    · rintro ⟨k, slot, hk⟩
      obtain ⟨l, -, rfl, -⟩ := h.fetches_cases hk
      exact nofun
    · intro hne
      obtain ⟨l, slot, -, hstaged, -⟩ := h.staged_eq.resolve_left hne
      exact ⟨_, slot, h.fetchesAt hstaged⟩
  fetches_unique k k' slot slot' hk hk' := by
    obtain ⟨-, -, -, -, rfl⟩ := h.fetches_cases hk
    obtain ⟨-, -, -, -, rfl⟩ := h.fetches_cases hk'
    rfl
  slot_eq k slot hk := by
    obtain ⟨l, hslot, -⟩ := h.fetches_cases hk
    exact hslot
  fetched {_ _ R _ s ctl _ _ _} hk htrail hpc := by
    obtain ⟨l, q, ps₁, hmark, rfl, -, hcompletes⟩ := h.completes_of_fetches hreal hk htrail hpc
    exact ⟨l, _, ps₁ ++ [q], hmark, (List.append_assoc ps₁ [q] _).symm, hcompletes,
      returns_of_fetches hk s hpc⟩
  notFetched htrail hret hnot := h.returns_of_not_fetches htrail hret hnot
  notReturned htrail hret hnone := h.returns_of_not_endsReturn hreal htrail hret hnone

/-- The code of an ordinary procedure returns what its return statements answer, and the default value
where none has been executed, on every path and with exceptions at any point. -/
theorem Procedure.returns_of_lowerInto {p : Procedure} {options : Options} {strategy : LayoutStrategy}
    {out : Array Instr} {sum : Summary} (hgen : p.isGenerator = false)
    (h : p.lowerInto options strategy #[] = (out, .ok sum)) :
    ∃ c labels, Plan.make p options strategy = .ok (c, labels) ∧ c.procedure = p ∧
      c.ReturnsBy labels out.toList := by
  obtain ⟨c, labels, ds, final, g, hmake, hlowered, -⟩ := lowerInto_eq_ok_iff.1 h
  obtain ⟨-, -, hp, -⟩ := Plan.make_eq_ok hmake
  have hmade := Plan.made_of_make hmake
  obtain ⟨hsize, hblank⟩ := Plan.labels_of_make hmake
  have hgen' : c.procedure.isGenerator = false := by rw [hp, hgen]
  obtain ⟨body, exit, staged, notes, hreturning⟩ := hlowered.returning hmade hgen' hsize hblank
  have hfinal : final = (c.draft { labels }).frame := by
    have hgives := hlowered.gives
    unfold Draft.Gives at hgives
    rw [hgives]
  subst hfinal
  exact ⟨c, labels, hmake, hp, hreturning.returnsBy (hlowered.realizes hmade hsize hblank) hgen'⟩

/-- A procedure that returns what a call answers, in a protected region, or else 0. -/
def guardedReturn : Procedure where
  name := ⟨1⟩
  returnType := .int
  locals := {}
  graph :=
    { blocks := #[
        { id := ⟨0⟩, ordinal := 0, kind := .start, statements := [], edge := .protect ⟨2⟩ ⟨3⟩ none },
        { id := ⟨1⟩, ordinal := 1, kind := .exit, statements := [], edge := .none },
        { id := ⟨2⟩, ordinal := 2, kind := .normal
          statements := [.ret (some (.call { ty := .int } ⟨2⟩ []))], edge := .leave ⟨1⟩ },
        { id := ⟨3⟩, ordinal := 3, kind := .normal, statements := [], edge := .leave ⟨1⟩ }]
      wellFormed := wellFormed_of_fault?_eq_none (by decide) }

/-- The code of `guardedReturn`. -/
def guardedReturnCode : Array Instr :=
  #[.enterTry ⟨1⟩, .markLabel ⟨0⟩, .call (.function ⟨2⟩) 0 true, .allocTemp ⟨0⟩ .int, .storeTemp ⟨0⟩,
    .branch ⟨3⟩, .markLabel ⟨1⟩, .pop, .leave ⟨2⟩, .markLabel ⟨2⟩, .constInt 0, .ret true,
    .markLabel ⟨3⟩, .loadTemp ⟨0⟩, .ret true, .freeTemp ⟨0⟩]

theorem guardedReturn_returns : guardedReturn.isGenerator = false ∧
    FetchesAt guardedReturnCode.toList 13 ⟨0⟩ ∧
      ∃ c labels, Plan.make guardedReturn {} BlockOrder.ordinal.arrange = .ok (c, labels) ∧
        c.procedure = guardedReturn ∧ c.ReturnsBy labels guardedReturnCode.toList := by
  have h : guardedReturn.lowerInto {} BlockOrder.ordinal.arrange #[] =
      (guardedReturnCode, .ok { instrCount := 16, temps := [.int], labelCount := 4
                                resumePoints := [], debugLocals := [] }) := by
    have horder : guardedReturn.graph.emissionOrder BlockOrder.ordinal.arrange
        guardedReturn.liveBlocks = some [⟨0⟩, ⟨2⟩, ⟨3⟩, ⟨1⟩] := by cbv
    unfold Procedure.lowerInto Plan.make
    rw [horder]
    decide +kernel
  exact ⟨rfl, ⟨rfl, rfl⟩, Procedure.returns_of_lowerInto rfl h⟩

end StackCode
