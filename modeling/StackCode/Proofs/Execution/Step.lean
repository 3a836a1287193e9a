import StackCode.Proofs.Execution.Machine
import StackCode.Proofs.Instr.Labels

/-!
# Single steps of the machine

What one step comes to at a label, at a note, at a plain instruction and at a jump.  An instruction
whose depth is right finds what it takes.
-/

namespace StackCode

variable {V W : Type} {R : Runtime V W} {code : List Instr} {c : Control V} {s : Kept V W}

namespace Instr

/-- A plain instruction finds what it takes where its depth is right. -/
theorem exists_exec {i : Instr} (hi : i.isPlain = true) {st : List V} (m : Memory V W) {after : Nat}
    (hdepth : i.depthAfter st.length = .ok after) :
    ∃ st' m', i.exec R (st, m) = some (st', m') ∧ st'.length = after := by
  obtain ⟨hpops, rfl⟩ := depth_eq_of_passes hdepth
  cases i with
  | storeLocal | pop | dup | convert =>
    cases st with
    | nil => exact absurd hpops (Nat.not_succ_le_zero 0)
    | cons v st => exact ⟨_, _, rfl, rfl⟩
  | binary op =>
    match st, hpops with
    | [], hpops => exact absurd hpops (Nat.not_succ_le_zero 1)
    | [_], hpops => exact absurd (Nat.le_of_succ_le_succ hpops) (Nat.not_succ_le_zero 0)
    | b :: a :: st, _ => exact ⟨_, _, rfl, rfl⟩
  | call callee argc returns =>
    have hle : argc ≤ st.length := hpops
    refine ⟨_, _, by rw [exec, if_pos hle], ?_⟩
    cases returns with
    | false => exact List.length_drop
    | true => exact congrArg (· + 1) List.length_drop
  | new cls argc =>
    have hle : argc ≤ st.length := hpops
    refine ⟨_, _, by rw [exec, if_pos hle], ?_⟩
    exact congrArg (· + 1) List.length_drop
  | switch table default => exact absurd (endsFlow_of_isPlain hi) nofun
  | _ => first | exact ⟨_, _, rfl, rfl⟩ | cases hi

end Instr

namespace Runtime

theorem goTo_eq (hplaced : (placedIn code).Nodup) {l : Label} {q : Nat}
    (hq : code[q]? = some (.markLabel l)) (c : Control V) (s : Kept V W) :
    goTo code c l s = .on { c with pc := q } s := by
  unfold goTo
  rw [idxOf?_of_placed hplaced hq]

theorem step_label {l : Label} (hpc : code[c.pc]? = some (.markLabel l)) :
    R.step code c s = .on (c.pass c.stack) s := by
  simp only [step, hpc]

theorem step_note {i : Instr} (hpc : code[c.pc]? = some i) (hi : i.isNote = true) :
    R.step code c s = .on (c.pass c.stack) s := by
  cases i with
  | allocTemp | freeTemp => simp only [step, hpc]
  | _ => cases hi

theorem step_eq_work {i : Instr} (hpc : code[c.pc]? = some i) (hi : i.isPlain = true) :
    R.step code c s = R.work i c s := by
  cases i with
  | loadTemp | storeTemp | loadState | storeState | branch | branchIf | enterTry | leave | ret | throw
  | markLabel | allocTemp | freeTemp => cases hi
  | switch => exact absurd (Instr.endsFlow_of_isPlain hi) nofun
  | _ =>
    simp only [step, hpc]

theorem step_plain {i : Instr} (hpc : code[c.pc]? = some i) (hi : i.isPlain = true) {st : List V}
    {m : Memory V W} (h : i.exec R (c.stack, s.memory) = some (st, m)) :
    R.step code c s = .on (c.pass st) { s with memory := m } := by
  rw [step_eq_work hpc hi, work, h]

/-- Where the depth is right, control passes a straight instruction. -/
theorem exists_step {i : Instr} (hpc : code[c.pc]? = some i) (hi : i.passes = true) {after : Nat}
    (hdepth : i.depthAfter c.stack.length = .ok after) :
    ∃ st temps s', R.step code c s = .on { c with pc := c.pc + 1, stack := st, temps } s' ∧
      st.length = after := by
  by_cases hplain : i.isPlain = true
  · obtain ⟨st, m, hexec, hlength⟩ := Instr.exists_exec (R := R) hplain s.memory hdepth
    exact ⟨st, c.temps, _, step_plain hpc hplain hexec, hlength⟩
  · obtain ⟨hpops, rfl⟩ := Instr.depth_eq_of_passes hdepth
    cases i with
    | allocTemp | freeTemp => exact ⟨c.stack, c.temps, s, step_note hpc rfl, rfl⟩
    | loadTemp slot => exact ⟨c.temps slot :: c.stack, c.temps, s, by simp only [step, hpc]; rfl, rfl⟩
    | loadState => exact ⟨s.state :: c.stack, c.temps, s, by simp only [step, hpc]; rfl, rfl⟩
    | storeTemp slot =>
      cases hst : c.stack with
      | nil => simp [hst, Instr.pops] at hpops
      | cons v st =>
        exact ⟨st, Function.update c.temps slot v, s, by simp only [step, hpc, hst]; rfl, rfl⟩
    | storeState =>
      cases hst : c.stack with
      | nil => simp [hst, Instr.pops] at hpops
      | cons v st =>
        exact ⟨st, c.temps, { s with state := v }, by simp only [step, hpc, hst]; rfl, rfl⟩
    | switch => simp [Instr.passes, Instr.isNote, Instr.endsFlow] at hi
    | _ => first | exact (hplain rfl).elim | cases hi

theorem goTo_eq_on {l : Label} {c' : Control V} {s' : Kept V W} (h : goTo code c l s = .on c' s') :
    s' = s ∧ code[c'.pc]? = some (.markLabel l) ∧ c' = { c with pc := c'.pc } := by
  unfold goTo at h
  cases hidx : code.idxOf? (.markLabel l) with
  | none => rw [hidx] at h; cases h
  | some q =>
    rw [hidx] at h
    cases h
    obtain ⟨hlt, heq, -⟩ := List.idxOf?_eq_some_iff.1 hidx
    exact ⟨rfl, List.getElem?_eq_some_iff.2 ⟨hlt, heq⟩, rfl⟩

/-- What a step by an instruction has done, if the machine goes on. -/
inductive Stepped (R : Runtime V W) (code : List Instr) (c : Control V) (s : Kept V W) :
    Instr → Control V → Kept V W → Prop
  | skip {i : Instr} (hi : i.isBookkeeping = true) : Stepped R code c s i (c.pass c.stack) s
  | plain {i : Instr} {st : List V} {m : Memory V W} (hi : i.isPlain = true)
      (hexec : i.exec R (c.stack, s.memory) = some (st, m)) :
      Stepped R code c s i (c.pass st) { s with memory := m }
  | loadTemp (slot : TempSlot) :
      Stepped R code c s (.loadTemp slot) (c.pass (c.temps slot :: c.stack)) s
  | storeTemp (slot : TempSlot) {v : V} {st : List V} (hst : c.stack = v :: st) :
      Stepped R code c s (.storeTemp slot)
        { c.pass st with temps := Function.update c.temps slot v } s
  | loadState : Stepped R code c s .loadState (c.pass (s.state :: c.stack)) s
  | storeState {v : V} {st : List V} (hst : c.stack = v :: st) :
      Stepped R code c s .storeState (c.pass st) { s with state := v }
  | fall {when : Bool} {l : Label} {v : V} {st : List V} (hst : c.stack = v :: st) :
      Stepped R code c s (.branchIf when l) (c.pass st) s
  | enter (l : Label) :
      Stepped R code c s (.enterTry l) { c.pass c.stack with regions := l :: c.regions } s
  | jump {i : Instr} {l : Label} {c' : Control V} (hi : i.isJump = true ∨ i = .throw)
      (hq : code[c'.pc]? = some (.markLabel l)) : Stepped R code c s i c' s

/-- Control comes from right before or to a label. -/
theorem Stepped.next {i : Instr} {c' : Control V} {s' : Kept V W}
    (h : Stepped R code c s i c' s') :
    c'.pc = c.pc + 1 ∨ ∃ l, code[c'.pc]? = some (.markLabel l) := by
  cases h with
  | jump _ hq => exact .inr ⟨_, hq⟩
  | _ => exact .inl rfl

/-- An instruction that names no label passes control on within the regions that are open. -/
theorem Stepped.of_passes {i : Instr} {c' : Control V} {s' : Kept V W}
    (h : Stepped R code c s i c' s') (hi : i.passes = true) :
    c'.pc = c.pc + 1 ∧ c'.regions = c.regions := by
  cases h with
  | enter => cases hi
  | jump hjump =>
    rcases hjump with hjump | rfl
    · rw [Instr.isJump_of_passes hi] at hjump
      cases hjump
    · cases hi
  | _ => exact ⟨rfl, rfl⟩

theorem Stepped.of_goTo {i : Instr} {l : Label} {c₁ c' : Control V} {s' : Kept V W}
    (hi : i.isJump = true ∨ i = .throw) (h : goTo code c₁ l s = .on c' s') :
    Stepped R code c s i c' s' := by
  obtain ⟨rfl, hq, -⟩ := goTo_eq_on h
  exact .jump hi hq

/-- The machine goes on in one of these ways. -/
theorem stepped {c' : Control V} {s' : Kept V W} (h : R.step code c s = .on c' s') :
    ∃ i, code[c.pc]? = some i ∧ Stepped R code c s i c' s' := by
  cases hpc : code[c.pc]? with
  | none => simp only [step, hpc] at h; cases h
  | some i =>
    refine ⟨i, rfl, ?_⟩
    by_cases hplain : i.isPlain = true
    · rw [step_eq_work hpc hplain, work] at h
      split at h
      · next hexec =>
        cases h
        exact .plain hplain hexec
      · cases h
    · cases i with
      | markLabel | allocTemp | freeTemp =>
        simp only [step, hpc] at h
        cases h
        exact .skip rfl
      | loadTemp slot =>
        simp only [step, hpc] at h
        cases h
        exact .loadTemp slot
      | loadState =>
        simp only [step, hpc] at h
        cases h
        exact .loadState
      | enterTry l =>
        simp only [step, hpc] at h
        cases h
        exact .enter l
      | branch l =>
        simp only [step, hpc] at h
        exact .of_goTo (.inl rfl) h
      | leave l =>
        simp only [step, hpc] at h
        exact .of_goTo (.inl rfl) h
      | storeTemp slot =>
        cases hst : c.stack with
        | nil => simp [step, hpc, hst, work, Instr.exec] at h
        | cons v st =>
          simp only [step, hpc, hst] at h
          cases h
          exact .storeTemp slot hst
      | storeState =>
        cases hst : c.stack with
        | nil => simp [step, hpc, hst, work, Instr.exec] at h
        | cons v st =>
          simp only [step, hpc, hst] at h
          cases h
          exact .storeState hst
      | branchIf when l =>
        cases hst : c.stack with
        | nil => simp [step, hpc, hst, work, Instr.exec] at h
        | cons v st =>
          simp only [step, hpc, hst] at h
          split at h
          · exact .of_goTo (.inl rfl) h
          · cases h
            exact .fall hst
      | switch table l =>
        cases hst : c.stack with
        | nil => simp [step, hpc, hst, work, Instr.exec] at h
        | cons v st =>
          simp only [step, hpc, hst] at h
          exact .of_goTo (.inl rfl) h
      | throw =>
        cases hst : c.stack with
        | nil => simp [step, hpc, hst, work, Instr.exec] at h
        | cons v st =>
          simp only [step, hpc, hst, raise] at h
          split at h
          · cases h
          · exact .of_goTo (.inr rfl) h
      | ret withValue =>
        cases withValue with
        | false =>
          simp only [step, hpc] at h
          cases h
        | true =>
          cases hst : c.stack with
          | nil => simp [step, hpc, hst, work, Instr.exec] at h
          | cons v st =>
            simp only [step, hpc, hst] at h
            cases h
      | _ => exact (hplain rfl).elim

/-- The state changes where an instruction works on it, and nowhere else. -/
theorem state_of_step {i : Instr} (hpc : code[c.pc]? = some i) (hi : i.usesState = false)
    {c' : Control V} {s' : Kept V W} (h : R.step code c s = .on c' s') : s'.state = s.state := by
  obtain ⟨j, hj, hstep⟩ := stepped h
  obtain rfl := Option.some_inj.1 (hpc.symm.trans hj)
  cases hstep <;> first | rfl | cases hi

/-- Control runs through straight code of the right depth, and what its instructions keep up holds
all the time. -/
theorem run_straight {is post : List Instr} {after : Nat} (his : ∀ i ∈ is, i.passes = true)
    (hcode : code.drop c.pc = is ++ post)
    (hdepth : Instr.depthThrough is c.stack.length = .ok after) {Q : Kept V W → Prop}
    (hQ : ∀ i ∈ is, ∀ c s c' s', code[c.pc]? = some i → R.step code c s = .on c' s' → Q s → Q s')
    (hs : Q s) {k : Nat} (hk : k ≤ is.length) :
    ∃ st temps s', Run.after (R.step code) (.on c s) k =
        .on { c with pc := c.pc + k, stack := st, temps } s' ∧
      Q s' ∧ (k = is.length → st.length = after) := by
  induction is generalizing c s k with
  | nil =>
    obtain rfl : k = 0 := Nat.le_zero.1 hk
    cases hdepth
    exact ⟨c.stack, c.temps, s, rfl, hs, fun _ => rfl⟩
  | cons i is ih =>
    cases k with
    | zero => exact ⟨c.stack, c.temps, s, rfl, hs, nofun⟩
    | succ k =>
      obtain ⟨hi, his⟩ := List.forall_mem_cons.1 his
      have hpc : code[c.pc]? = some i := getElem?_of_drop hcode
      obtain ⟨d, hfirst, hdepth⟩ := Instr.depthThrough_cons_iff.1 hdepth
      obtain ⟨st, temps, s₁, hstep, rfl⟩ := exists_step (R := R) (s := s) hpc hi hfirst
      have hnext : code.drop (c.pc + 1) = is ++ post :=
        drop_add_of_drop (show code.drop c.pc = [i] ++ (is ++ post) from hcode)
      obtain ⟨st', temps', s', hrun, hQ', hlength⟩ :=
        ih (c := { c with pc := c.pc + 1, stack := st, temps }) (s := s₁) his hnext hdepth
          (fun j hj => hQ j (List.mem_cons_of_mem i hj))
          (hQ i List.mem_cons_self _ _ _ _ hpc hstep hs) (Nat.le_of_succ_le_succ hk)
      refine ⟨st', temps', s', ?_, hQ', fun hlast => hlength (Nat.succ.inj hlast)⟩
      change Run.after (R.step code) (R.step code c s) k = _
      rw [hstep, hrun]
      simp only [Nat.add_assoc, Nat.add_comm 1 k]

end Runtime

end StackCode
