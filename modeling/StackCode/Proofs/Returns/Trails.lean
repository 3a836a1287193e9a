import StackCode.Proofs.Execution.Conduct
import StackCode.Proofs.Fragment.Carries
import StackCode.Proofs.Path.Safety

/-!
# Trails

A trail is a path of the machine together with the positions of the instructions that have been
executed on it.  Exceptions may come at any point, and whatever has raised one may have worked on the
memory before.  The machine takes no path that stack safety does not know of (`Trail.reached`).  To an
instruction behind others that are no labels a trail gets through these, so what has been executed
last is known from the code alone (`Trail.straight`), and so is what it has computed
(`Instr.execAll_of_after`).
-/

namespace StackCode

variable {V W : Type}

/-! ## Where an instruction leads -/

namespace Instr

variable {R : Runtime V W} {i : Instr} {st st' : List V} {m m' : Memory V W}

/-- A plain instruction moves the depth of the stack as it should. -/
theorem depthAfter_of_exec (hi : i.isPlain = true) (h : i.exec R (st, m) = some (st', m')) :
    i.depthAfter st.length = .ok st'.length := by
  have hpops : i.pops ≤ st.length := by
    by_contra hlt
    cases i with
    | storeLocal | pop | dup | convert =>
      cases st with
      | nil => cases h
      | cons v st => exact hlt (Nat.le_add_left 1 st.length)
    | binary op =>
      match st with
      | [] => cases h
      | [_] => cases h
      | b :: a :: st => exact hlt (Nat.le_add_left 2 st.length)
    | call callee argc returns =>
      rw [exec, if_neg (show ¬ argc ≤ st.length from hlt)] at h
      cases h
    | new cls argc =>
      rw [exec, if_neg (show ¬ argc ≤ st.length from hlt)] at h
      cases h
    | switch table default => exact absurd (endsFlow_of_isPlain hi) Bool.false_ne_true.symm
    | _ => first | exact hlt (Nat.zero_le _) | cases hi
  have hdepth := depthAfter_of_pops_le (returnDepth?_of_isPlain hi) (isJump_of_isPlain hi) hpops
  obtain ⟨st₁, m₁, hexec, hlength⟩ := exists_exec (R := R) hi m hdepth
  rw [h] at hexec
  cases hexec
  rw [hdepth, hlength]

end Instr

namespace Runtime

variable {R : Runtime V W} {code : List Instr} {s s' : Kept V W} {c c' : Control V}

/-- An exception has gone to the handler of an open region. -/
structure Caught (code : List Instr) (c c' : Control V) : Prop where
  exists_label : ∃ l ∈ c.regions, code[c'.pc]? = some (.markLabel l)
  regions : c'.regions = c.regions
  stack : c'.stack.length = 1

/-- Where control has gone from an instruction: on to the next one, to a label that the instruction
names, or with an exception to a handler. -/
inductive Goes (code : List Instr) (c : Control V) (i : Instr) (c' : Control V) : Prop
  | next (hflow : i.endsFlow = false) (hpc : c'.pc = c.pc + 1)
      (hregions : c'.regions = i.handler?.toList ++ c.regions)
      (hstack : c'.stack.length = c.stack.length - i.pops + i.pushes)
  | jump {l : Label} (hi : i.isJump = true) (hl : l ∈ i.targets)
      (hq : code[c'.pc]? = some (.markLabel l)) (hregions : ∀ l ∈ c'.regions, l ∈ c.regions)
      (hstack : c'.stack.length = c.stack.length - i.pops + i.pushes)
  | catch (h : Caught code c c')

theorem goes_of_goTo {i : Instr} {l : Label} {c₁ : Control V} (h : goTo code c₁ l s = .on c' s')
    (hi : i.isJump = true) (hl : l ∈ i.targets) (hregions : ∀ l ∈ c₁.regions, l ∈ c.regions)
    (hstack : c₁.stack.length = c.stack.length - i.pops + i.pushes) : Goes code c i c' := by
  obtain ⟨-, hq, heq⟩ := goTo_eq_on h
  rw [heq] at hq ⊢
  exact .jump hi hl hq hregions hstack

theorem caught_of_raise {v : V} (h : raise code c v s = .on c' s') : Caught code c c' := by
  unfold raise at h
  split at h
  · cases h
  · next l rest hregions =>
    obtain ⟨-, hq, heq⟩ := goTo_eq_on h
    rw [heq] at hq ⊢
    exact ⟨⟨l, hregions ▸ List.mem_cons_self, hq⟩, rfl, rfl⟩

/-- A jump that is taken leads to one of its labels. -/
theorem goes_of_jump {i : Instr} (hpc : code[c.pc]? = some i) (hi : i.isJump = true)
    (h : R.step code c s = .on c' s') : Goes code c i c' := by
  have hself : ∀ l ∈ c.regions, l ∈ c.regions := fun _ => id
  cases i with
  | branch l =>
    simp only [step, hpc] at h
    exact goes_of_goTo h rfl (List.mem_singleton.2 rfl) hself rfl
  | leave l =>
    simp only [step, hpc] at h
    exact goes_of_goTo h rfl (List.mem_singleton.2 rfl) (fun _ => List.mem_of_mem_tail) rfl
  | branchIf when l =>
    cases hst : c.stack with
    | nil => simp [step, hpc, hst, work, Instr.exec] at h
    | cons v st =>
      simp only [step, hpc, hst] at h
      split at h
      · exact goes_of_goTo h rfl (List.mem_singleton.2 rfl) hself (by rw [hst]; rfl)
      · cases h
        exact .next rfl rfl rfl (by rw [hst]; rfl)
  | switch table default =>
    cases hst : c.stack with
    | nil => simp [step, hpc, hst, work, Instr.exec] at h
    | cons v st =>
      simp only [step, hpc, hst] at h
      exact goes_of_goTo h rfl (getD_lookup_mem table (R.toInt v) default) hself
        (by rw [hst]; rfl)
  | _ => cases hi

theorem goes_of_step (h : R.step code c s = .on c' s') :
    ∃ i, code[c.pc]? = some i ∧ Goes code c i c' := by
  obtain ⟨i, hpc, hstepped⟩ := stepped h
  refine ⟨i, hpc, ?_⟩
  cases hstepped with
  | skip hi => cases i <;> first | exact .next rfl rfl rfl rfl | cases hi
  | plain hi hexec =>
    have hdepth := Instr.depthAfter_of_exec hi hexec
    refine .next (Instr.endsFlow_of_isPlain hi) rfl ?_ (Instr.depth_eq_of_passes hdepth).2
    rw [Instr.handler?_of_isStraight (Instr.isStraight_of_isPlain hi)]
    rfl
  | loadTemp | loadState | enter => exact .next rfl rfl rfl rfl
  | storeTemp slot hst | storeState hst | fall hst => exact .next rfl rfl rfl (by rw [hst]; rfl)
  | jump hi hq =>
    rcases hi with hi | rfl
    · exact goes_of_jump hpc hi h
    · cases hst : c.stack with
      | nil => simp [step, hpc, hst, work, Instr.exec] at h
      | cons v st =>
        simp only [step, hpc, hst] at h
        exact .catch (caught_of_raise h)

/-- An instruction that control passes moves the depth of the stack as it should. -/
theorem Stepped.depthAfter {i : Instr} (h : Stepped R code c s i c' s') (hi : i.passes = true) :
    i.depthAfter c.stack.length = .ok c'.stack.length := by
  have hfalse {P : Prop} (hjump : i.isJump = true) : P := by
    rw [Instr.isJump_of_passes hi] at hjump
    cases hjump
  cases h with
  | skip hskip => cases i <;> first | rfl | cases hskip
  | plain hplain hexec => exact Instr.depthAfter_of_exec hplain hexec
  | loadTemp | loadState | enter => rfl
  | storeTemp slot hst | storeState hst =>
    rw [hst]
    rfl
  | fall => exact hfalse rfl
  | jump hjump =>
    rcases hjump with hjump | rfl
    · exact hfalse hjump
    · cases hi

/-! ## Trails -/

/-- A path of an invocation that begins with the memory `s₀`: steps of the machine, and exceptions at
any point and with any memory then.  It records the positions of the instructions executed. -/
inductive Trail (R : Runtime V W) (code : List Instr) (s₀ : Kept V W) :
    Control V → Kept V W → List Nat → Prop
  | enter : Trail R code s₀ R.enter s₀ []
  | step {c c' : Control V} {s s' : Kept V W} {ps : List Nat} (trail : Trail R code s₀ c s ps)
      (hstep : R.step code c s = .on c' s') : Trail R code s₀ c' s' (ps ++ [c.pc])
  | raise {c c' : Control V} {s s' : Kept V W} {ps : List Nat} (trail : Trail R code s₀ c s ps)
      (v : V) (s₁ : Kept V W) (hraise : Runtime.raise code c v s₁ = .on c' s') :
      Trail R code s₀ c' s' (ps ++ [c.pc])

variable {s₀ : Kept V W} {ps : List Nat}

/-- A trail is one of the paths of stack safety. -/
theorem Trail.reached (h : Trail R code s₀ c s ps) : ∃ entered, (∀ l ∈ c.regions, l ∈ entered) ∧
    PathState.Reached code { pc := c.pc, depth := c.stack.length, entered } := by
  have hcatch {c c' : Control V} {entered : List Label} (hopen : ∀ l ∈ c.regions, l ∈ entered)
      (hreached : PathState.Reached code { pc := c.pc, depth := c.stack.length, entered })
      (hcaught : Caught code c c') : ∃ entered, (∀ l ∈ c'.regions, l ∈ entered) ∧
        PathState.Reached code { pc := c'.pc, depth := c'.stack.length, entered } := by
    obtain ⟨⟨l, hl, hq⟩, hregions, hstack⟩ := hcaught
    refine ⟨entered, by rw [hregions]; exact hopen, hreached.tail ?_⟩
    rw [hstack]
    exact .raise (hopen l hl) hq
  induction h with
  | enter => exact ⟨[], nofun, .refl⟩
  | step trail hstep ih =>
    obtain ⟨entered, hopen, hreached⟩ := ih
    obtain ⟨i, hpc, hgoes⟩ := goes_of_step hstep
    cases hgoes with
    | next hflow hnext hregions hstack =>
      refine ⟨i.handler?.toList ++ entered, fun l hl => ?_, hreached.tail ?_⟩
      · rw [hregions] at hl
        exact List.mem_append.2 ((List.mem_append.1 hl).imp_right (hopen l))
      · rw [hnext, hstack]
        exact .moves (.pass hpc hflow)
    | jump hi hl hq hregions hstack =>
      refine ⟨entered, fun l hl => hopen l (hregions l hl), hreached.tail ?_⟩
      rw [hstack]
      exact .moves (.jump hpc hi hl hq)
    | «catch» hcaught => exact hcatch hopen hreached hcaught
  | raise trail v s₁ hraise ih =>
    obtain ⟨entered, hopen, hreached⟩ := ih
    exact hcatch hopen hreached (caught_of_raise hraise)

/-- The regions that are open are regions of the code. -/
theorem Trail.regions_mem (h : Trail R code s₀ c s ps) : ∀ l ∈ c.regions, l ∈ handlersIn code := by
  induction h with
  | enter => exact nofun
  | step trail hstep ih =>
    obtain ⟨i, hpc, hgoes⟩ := goes_of_step hstep
    cases hgoes with
    | next hflow hnext hregions hstack =>
      rw [hregions]
      refine List.forall_mem_append.2 ⟨fun l hl => ?_, ih⟩
      exact List.mem_filterMap.2 ⟨i, List.mem_of_getElem? hpc, Option.mem_toList.1 hl⟩
    | jump hi hl hq hregions hstack => exact fun l hl => ih l (hregions l hl)
    | «catch» hcaught => exact hcaught.regions ▸ ih
  | raise trail v s₁ hraise ih => exact (caught_of_raise hraise).regions ▸ ih

/-- How a trail has come to where it is: it has just begun, or it comes from the instruction before, or
from one that names the label here, or the handler of a region is here. -/
inductive Trail.Comes (R : Runtime V W) (code : List Instr) (s₀ : Kept V W) (c : Control V)
    (s : Kept V W) (ps : List Nat) : Prop
  | enter (hpc : c.pc = 0)
  | next {c₁ : Control V} {s₁ : Kept V W} {ps₁ : List Nat} {i : Instr}
      (trail : Trail R code s₀ c₁ s₁ ps₁) (hps : ps = ps₁ ++ [c₁.pc]) (hi : code[c₁.pc]? = some i)
      (hflow : i.endsFlow = false) (hpc : c.pc = c₁.pc + 1) (hstep : R.step code c₁ s₁ = .on c s)
  | jump {c₁ : Control V} {s₁ : Kept V W} {ps₁ : List Nat} {i : Instr} {l : Label}
      (trail : Trail R code s₀ c₁ s₁ ps₁) (hps : ps = ps₁ ++ [c₁.pc]) (hi : code[c₁.pc]? = some i)
      (hl : l ∈ i.targets) (hq : code[c.pc]? = some (.markLabel l))
      (hstep : R.step code c₁ s₁ = .on c s)
  | catch {l : Label} (hl : l ∈ handlersIn code) (hq : code[c.pc]? = some (.markLabel l))

theorem Trail.comes (h : Trail R code s₀ c s ps) : Trail.Comes R code s₀ c s ps := by
  have hcatch {c c' : Control V} {s s' : Kept V W} {ps ps' : List Nat}
      (trail : Trail R code s₀ c s ps) (hcaught : Caught code c c') :
      Trail.Comes R code s₀ c' s' ps' := by
    obtain ⟨l, hl, hq⟩ := hcaught.exists_label
    exact .catch (trail.regions_mem l hl) hq
  cases h with
  | enter => exact .enter rfl
  | step trail hstep =>
    obtain ⟨i, hi, hgoes⟩ := goes_of_step hstep
    cases hgoes with
    | next hflow hpc => exact .next trail rfl hi hflow hpc hstep
    | jump _ hl hq => exact .jump trail rfl hi hl hq hstep
    | «catch» hcaught => exact hcatch trail hcaught
  | raise trail v s₁ hraise => exact hcatch trail (caught_of_raise hraise)

/-- Control comes to an instruction that is no label and not the first one from the one before it. -/
theorem Trail.comes_next {n : Nat} (h : Trail R code s₀ c s ps) (hpc : c.pc = n + 1)
    (hlabel : ∀ l, code[n + 1]? ≠ some (.markLabel l)) :
    ∃ c₁ s₁ ps₁ i, Trail R code s₀ c₁ s₁ ps₁ ∧ ps = ps₁ ++ [n] ∧ c₁.pc = n ∧ code[n]? = some i ∧
      i.endsFlow = false ∧ R.step code c₁ s₁ = .on c s := by
  cases h.comes with
  | enter hzero =>
    rw [hzero] at hpc
    cases hpc
  | @next c₁ s₁ ps₁ i trail hps hi hflow hnext hstep =>
    obtain rfl : c₁.pc = n := by omega
    exact ⟨c₁, s₁, ps₁, i, trail, hps, rfl, hi, hflow, hstep⟩
  | jump _ _ _ _ hq => exact absurd (hpc ▸ hq) (hlabel _)
  | «catch» _ hq => exact absurd (hpc ▸ hq) (hlabel _)

/-- A trail gets to an instruction behind others that are no labels through these. -/
theorem Trail.straight {is post : List Instr} {start n : Nat} (hcode : code.drop start = is ++ post)
    (his : ∀ i ∈ is, i.placed? = none) (hn : n < is.length) (hpc : c.pc = start + n)
    (h : Trail R code s₀ c s ps) : ∃ c₁ s₁ front, Trail R code s₀ c₁ s₁ front ∧ c₁.pc = start ∧
      ps = front ++ List.range' start n ∧ Run.after (R.step code) (.on c₁ s₁) n = .on c s := by
  induction n generalizing c s ps with
  | zero => exact ⟨c, s, ps, h, hpc, (List.append_nil ps).symm, rfl⟩
  | succ n ih =>
    have hlabel (l : Label) : code[start + n + 1]? ≠ some (.markLabel l) := by
      intro hl
      rw [Nat.add_assoc, ← List.getElem?_drop, hcode, List.getElem?_append_left hn] at hl
      cases his _ (List.mem_of_getElem? hl)
    obtain ⟨c₁, s₁, ps₁, i, trail, rfl, hpc₁, -, -, hstep⟩ := h.comes_next (n := start + n) hpc hlabel
    obtain ⟨c₂, s₂, front, hfront, hstart, rfl, hrun⟩ := ih (Nat.lt_of_succ_lt hn) hpc₁ trail
    refine ⟨c₂, s₂, front, hfront, hstart, ?_, ?_⟩
    · rw [List.range'_concat, List.append_assoc, Nat.one_mul]
    · rw [Run.after_succ, hrun]
      exact hstep

/-- Behind an instruction that control does not pass, and notes and labels that nothing names, control
comes only to a label, from an instruction that names it or as to a handler. -/
theorem Trail.comes_home {front back rest : List Instr} {i : Instr}
    (hcode : code = front ++ i :: (back ++ rest)) (hi : i.endsFlow = true)
    (hback : ∀ j ∈ back, j.isNote = true ∨ ∃ m, j = .markLabel m ∧ m ∉ targetsIn code) {n : Nat}
    (hn : n ≤ back.length) (hpc : c.pc = front.length + 1 + n) (h : Trail R code s₀ c s ps) :
    ∃ l, code[c.pc]? = some (.markLabel l) ∧ (l ∈ handlersIn code ∨
      ∃ c₁ s₁ ps₁ j, Trail R code s₀ c₁ s₁ ps₁ ∧ ps = ps₁ ++ [c₁.pc] ∧ code[c₁.pc]? = some j ∧
        l ∈ j.targets ∧ R.step code c₁ s₁ = .on c s) := by
  induction n generalizing c s ps with
  | zero =>
    cases h.comes with
    | enter hzero => omega
    | @next c₁ _ _ j _ _ hj hflow hnext =>
      have heq : c₁.pc = front.length := by omega
      rw [heq, hcode, List.getElem?_append_right (Nat.le_refl _), Nat.sub_self,
        List.getElem?_cons_zero] at hj
      cases hj
      rw [hi] at hflow
      cases hflow
    | jump trail hps hj hl hq hstep => exact ⟨_, hq, .inr ⟨_, _, _, _, trail, hps, hj, hl, hstep⟩⟩
    | «catch» hl hq => exact ⟨_, hq, .inl hl⟩
  | succ n ih =>
    cases h.comes with
    | enter hzero => omega
    | @next c₁ _ _ j trail _ hj _ hnext =>
      -- the instruction before is dead
      have hpc₁ : c₁.pc = front.length + 1 + n := by omega
      obtain ⟨l, hq, hnamed⟩ := ih (by omega) hpc₁ trail
      have hl : l ∈ targetsIn code := by
        rcases hnamed with hl | ⟨_, _, _, j, _, _, hj, hl, _⟩
        · exact mem_targetsIn_of_mem_handlersIn hl
        · exact mem_targetsIn.2 ⟨j, List.mem_of_getElem? hj, hl⟩
      rw [hpc₁, Nat.add_assoc, Nat.add_comm 1, hcode, List.getElem?_append_right (Nat.le_add_right _ _),
        Nat.add_sub_cancel_left, List.getElem?_cons_succ, List.getElem?_append_left (by omega)] at hq
      rcases hback _ (List.mem_of_getElem? hq) with hnote | ⟨m, hm, hnot⟩
      · cases hnote
      · cases hm
        exact absurd hl hnot
    | jump trail hps hj hl hq hstep => exact ⟨_, hq, .inr ⟨_, _, _, _, trail, hps, hj, hl, hstep⟩⟩
    | «catch» hl hq => exact ⟨_, hq, .inl hl⟩

end Runtime

/-! ## What straight code has computed -/

section
variable {R : Runtime V W} {code is post : List Instr} {s s' : Kept V W} {c c' : Control V}

theorem Run.exists_of_after_succ {n : Nat}
    (h : Run.after (R.step code) (.on c s) (n + 1) = .on c' s') :
    ∃ c₁ s₁, Run.after (R.step code) (.on c s) n = .on c₁ s₁ ∧ R.step code c₁ s₁ = .on c' s' := by
  rw [Run.after_succ] at h
  cases hn : Run.after (R.step code) (.on c s) n with
  | on c₁ s₁ =>
    rw [hn] at h
    exact ⟨c₁, s₁, rfl, h⟩
  | done | stuck =>
    rw [hn] at h
    cases h

/-- A trail goes on where the machine does. -/
theorem Runtime.Trail.exists_after {s₀ : Kept V W} {ps : List Nat} (h : R.Trail code s₀ c s ps) {n : Nat}
    (hrun : Run.after (R.step code) (.on c s) n = .on c' s') :
    ∃ ps', R.Trail code s₀ c' s' ps' := by
  induction n generalizing c' s' with
  | zero =>
    cases hrun
    exact ⟨ps, h⟩
  | succ n ih =>
    obtain ⟨c₁, s₁, hrun, hstep⟩ := Run.exists_of_after_succ hrun
    obtain ⟨ps₁, h₁⟩ := ih hrun
    exact ⟨_, h₁.step hstep⟩

namespace Instr

/-- Executing plain code moves the depth of the stack as it should. -/
theorem depthThrough_of_execAll (his : ∀ i ∈ is, i.isPlain = true) {st st' : List V}
    {m m' : Memory V W} (h : execAll R is (st, m) = some (st', m')) :
    depthThrough is st.length = .ok st'.length := by
  induction is generalizing st m with
  | nil =>
    cases h
    rfl
  | cons i is ih =>
    obtain ⟨hi, his⟩ := List.forall_mem_cons.1 his
    rw [execAll_cons] at h
    obtain ⟨⟨st₁, m₁⟩, hexec, h⟩ := Option.bind_eq_some_iff.1 h
    exact depthThrough_cons_iff.2 ⟨st₁.length, depthAfter_of_exec hi hexec, ih his h⟩

/-- What the machine has passed moves the depth of the stack as it should. -/
theorem depthThrough_of_after (his : ∀ i ∈ is, i.passes = true) (hcode : code.drop c.pc = is ++ post)
    (h : Run.after (R.step code) (.on c s) is.length = .on c' s') :
    depthThrough is c.stack.length = .ok c'.stack.length := by
  induction is generalizing c s with
  | nil =>
    cases h
    rfl
  | cons i is ih =>
    obtain ⟨hi, his⟩ := List.forall_mem_cons.1 his
    have hpc : code[c.pc]? = some i := getElem?_of_drop hcode
    change Run.after (R.step code) (R.step code c s) is.length = _ at h
    cases hstep : R.step code c s with
    | on c₁ s₁ =>
      rw [hstep] at h
      obtain ⟨j, hj, hstepped⟩ := Runtime.stepped hstep
      obtain rfl := Option.some_inj.1 (hpc.symm.trans hj)
      have hnext := (hstepped.of_passes hi).1
      refine depthThrough_cons_iff.2 ⟨c₁.stack.length, hstepped.depthAfter hi, ih his ?_ h⟩
      rw [hnext]
      exact drop_add_of_drop (show code.drop c.pc = [i] ++ (is ++ post) from hcode)
    | done | stuck =>
      rw [hstep] at h
      simp only [Run.after_done, Run.after_stuck] at h
      cases h

/-- What the machine has passed is what plain code does, the notes apart. -/
theorem execAll_of_after (his : ∀ i ∈ is, i.isPlain = true ∨ i.isNote = true)
    (hcode : code.drop c.pc = is ++ post)
    (h : Run.after (R.step code) (.on c s) is.length = .on c' s') :
    execAll R (is.filter (!·.isNote)) (c.stack, s.memory) = some (c'.stack, s'.memory) ∧
      c' = { c with pc := c.pc + is.length, stack := c'.stack } := by
  induction is generalizing c s with
  | nil =>
    cases h
    exact ⟨rfl, rfl⟩
  | cons i is ih =>
    obtain ⟨hi, his⟩ := List.forall_mem_cons.1 his
    have hpc : code[c.pc]? = some i := getElem?_of_drop hcode
    have hrest {c₁ : Control V} (hc₁ : c₁.pc = c.pc + 1) : code.drop c₁.pc = is ++ post := by
      rw [hc₁]
      exact drop_add_of_drop (show code.drop c.pc = [i] ++ (is ++ post) from hcode)
    have hlength : c.pc + 1 + is.length = c.pc + (i :: is).length := by
      rw [List.length_cons]
      omega
    change Run.after (R.step code) (R.step code c s) is.length = _ at h
    rcases hi with hplain | hnote
    · rw [List.filter_cons_of_pos (by rw [isNote_of_isPlain hplain]; rfl), execAll_cons]
      rw [Runtime.step_eq_work hpc hplain, Runtime.work] at h
      cases hexec : i.exec R (c.stack, s.memory) with
      | none =>
        rw [hexec] at h
        simp only [Run.after_stuck] at h
        cases h
      | some r =>
        rw [hexec] at h
        obtain ⟨hexecs, heq⟩ := ih his (hrest rfl) h
        refine ⟨hexecs, heq.trans ?_⟩
        rw [← hlength]
        rfl
    · rw [List.filter_cons_of_neg (by rw [hnote]; exact Bool.false_ne_true)]
      rw [Runtime.step_note hpc hnote] at h
      obtain ⟨hexecs, heq⟩ := ih his (hrest rfl) h
      refine ⟨hexecs, heq.trans ?_⟩
      rw [← hlength]
      rfl

end Instr

end

end StackCode
