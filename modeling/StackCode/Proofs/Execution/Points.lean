import StackCode.Proofs.Execution.Step
import StackCode.Proofs.Fragment.Runs
import StackCode.Proofs.Outline.Heads
import StackCode.Proofs.Outline.Realizes

/-!
# Executing operations

Where the machine stands before operations of an outline (`At`), it executes the first of them and then
stands before the others: straight-line code does what its fragment does, and a jump leads to the
operations of its spot.  Whatever goes on like the machine does the same.
-/

namespace StackCode

variable {V W : Type} {R : Runtime V W} {r : Reading} {o : Outline} {code : List Instr}

/-- Control is in front of operations, with some values on the stack and no open region. -/
structure At (r : Reading) (code : List Instr) (st : List V) (ops : List Op) (c : Control V) : Prop
    where
  stack : c.stack = st
  regions : c.regions = []
  follows : Follows r code c.pc st.length ops

namespace Runtime

/-- A system that goes on as the machine does. -/
def Extends (R : Runtime V W) (code : List Instr)
    (next : Control V → Kept V W → Run (Control V) (Kept V W)) : Prop :=
  ∀ {c s c' s'}, R.step code c s = .on c' s' → next c s = .on c' s'

variable {next : Control V → Kept V W → Run (Control V) (Kept V W)} {c : Control V} {s : Kept V W}

theorem Extends.leads (hnext : R.Extends code next) {c' : Control V} {s' : Kept V W}
    (h : R.step code c s = .on c' s') : Run.Leads next (.on c s) (.on c' s') := by
  apply Run.Leads.of_step
  rw [hnext h]
  exact .refl _

/-- Labels and notes are passed. -/
theorem Extends.skips (hnext : R.Extends code next) {q : Nat} (h : Skips code c.pc q) :
    Run.Leads next (.on c s) (.on { c with pc := q } s) := by
  generalize hpc : c.pc = pc at h
  induction h generalizing c with
  | refl => rw [← hpc]; exact .refl _
  | note hi hnote _ ih =>
    subst hpc
    exact (hnext.leads (step_note hi hnote)).trans (ih rfl)
  | label hl _ ih =>
    subst hpc
    exact (hnext.leads (step_label hl)).trans (ih rfl)

/-- The system gets to where the machine ends. -/
def EndsFrom (R : Runtime V W) (code : List Instr)
    (next : Control V → Kept V W → Run (Control V) (Kept V W)) (c : Control V) (s s' : Kept V W) :
    Prop :=
  ∃ c₁ s₁, Run.Leads next (.on c s) (.on c₁ s₁) ∧ R.step code c₁ s₁ = .done s'

theorem EndsFrom.of_leads {c' : Control V} {s' s'' : Kept V W}
    (h : Run.Leads next (.on c s) (.on c' s')) (h' : EndsFrom R code next c' s' s'') :
    EndsFrom R code next c s s'' := by
  obtain ⟨c₁, s₁, hleads, hstep⟩ := h'
  exact ⟨c₁, s₁, h.trans hleads, hstep⟩

end Runtime

/-- Only plain instructions show what they are without their slots. -/
theorem Instr.eq_of_erased {i j : Instr} (hi : i.isPlain = true) (h : j.erased = i) : j = i := by
  cases j with
  | loadTemp | storeTemp =>
    rw [← h] at hi
    cases hi
  | _ => exact h

/-! ## Jump tables -/

theorem getD_lookup_mem {α : Type} (cases : List (Int × α)) (key : Int) (default : α) :
    (cases.lookup key).getD default ∈ cases.map Prod.snd ++ [default] := by
  cases hlookup : cases.lookup key with
  | none => exact List.mem_append_right _ (List.mem_singleton.2 rfl)
  | some t =>
    obtain ⟨front, back, rfl, -⟩ := List.lookup_eq_some_iff.1 hlookup
    apply List.mem_append_left
    exact List.mem_map.2 ⟨(key, t), by simp, rfl⟩

/-- The label that a key has in a jump table is that of the spot of the key. -/
theorem lookup_table {cases : List (Int × Spot)} {table : List (Int × Label)}
    (h : List.Forall₂ (fun c e => c.1 = e.1 ∧ r.label? c.2 = some e.2) cases table) {default : Spot}
    {l : Label} (hl : r.label? default = some l) (key : Int) :
    r.label? ((cases.lookup key).getD default) = some ((table.lookup key).getD l) := by
  induction h with
  | nil => exact hl
  | cons hhead _ ih =>
    obtain ⟨hkey, hlabel⟩ := hhead
    rw [List.lookup_cons, List.lookup_cons, hkey]
    split
    · exact hlabel
    · exact ih

/-- Control gets to the spot of every key. -/
theorem joins_lookup {cases : List (Int × Spot)} {default : Spot} (hcases : ∀ c ∈ cases, r.joins c.2)
    (hdefault : r.joins default) (key : Int) : r.joins ((cases.lookup key).getD default) := by
  rcases List.mem_append.1 (getD_lookup_mem cases key default) with h | h
  · obtain ⟨c, hc, heq⟩ := List.mem_map.1 h
    rw [← heq]
    exact hcases c hc
  · rw [List.mem_singleton.1 h]
    exact hdefault

namespace At

variable {next : Control V → Kept V W → Run (Control V) (Kept V W)} {c : Control V} {s : Kept V W}
  {st : List V} {k : List Op}

/-- Plain instructions are executed one after the other. -/
theorem execAll (hnext : R.Extends code next) {is : List Instr} (his : ∀ i ∈ is, i.isPlain = true)
    (h : At r code st (is.map (fun i => .run i.erased) ++ k) c) :
    ∃ c' st' m', Instr.execAll R is (st, s.memory) = some (st', m') ∧
      Run.Leads next (.on c s) (.on c' { s with memory := m' }) ∧ At r code st' k c' ∧
      c'.temps = c.temps := by
  induction is generalizing c s st with
  | nil => exact ⟨c, st, s.memory, rfl, .refl _, h, rfl⟩
  | cons i is ih =>
    obtain ⟨hi, hrest⟩ := List.forall_mem_cons.1 his
    obtain ⟨q, j, after, hskip, hq, -, hj, hdepth, hbehind⟩ := h.follows.run_inv
    rw [Instr.erased_of_isPlain hi] at hj
    obtain rfl := Instr.eq_of_erased hi hj
    obtain ⟨st₁, m₁, hexec, rfl⟩ := Instr.exists_exec (R := R) hi s.memory hdepth
    have hat : At r code st₁ (is.map (fun i => .run i.erased) ++ k)
        (Control.pass { c with pc := q } st₁) :=
      ⟨rfl, h.regions, hbehind (Instr.endsFlow_of_isPlain hi)⟩
    have hstep : R.step code { c with pc := q } s =
        .on (Control.pass { c with pc := q } st₁) { s with memory := m₁ } := by
      apply Runtime.step_plain hq hi
      rw [h.stack]
      exact hexec
    obtain ⟨c', st', m', hall, hleads, hat', htemps⟩ := ih (s := { s with memory := m₁ }) hrest hat
    refine ⟨c', st', m', ?_, ?_, hat', htemps⟩
    · rw [Instr.execAll_cons, hexec]
      exact hall
    · exact (hnext.skips hskip).trans ((hnext.leads hstep).trans hleads)

/-- Straight-line code that is followed can be executed. -/
theorem run (hnext : R.Extends code next) {α : Type} {x : Fragment α} (hx : x.IsPlain)
    (h : At r code st (x.ops ++ k) c) :
    ∃ c' st' m', x.Runs R (st, s.memory) (st', m') ∧
      Run.Leads next (.on c s) (.on c' { s with memory := m' }) ∧ At r code st' k c' :=
  let ⟨c', st', m', hexec, hleads, hat, _⟩ := h.execAll hnext hx
  ⟨c', st', m', hexec, hleads, hat⟩

/-- Straight-line code does what its fragment does. -/
theorem runs (hnext : R.Extends code next) {α : Type} {x : Fragment α} (hx : x.IsPlain)
    {st' : List V} {m' : Memory V W} (hruns : x.Runs R (st, s.memory) (st', m'))
    (h : At r code st (x.ops ++ k) c) :
    ∃ c', Run.Leads next (.on c s) (.on c' { s with memory := m' }) ∧ At r code st' k c' := by
  obtain ⟨c', st₁, m₁, hruns₁, hleads, hat⟩ := h.run (s := s) hnext hx
  cases hruns.unique hruns₁
  exact ⟨c', hleads, hat⟩

theorem settle (h : At r code st (.settle :: k) c) : At r code st k c :=
  ⟨h.stack, h.regions, h.follows.settle_inv.2⟩

/-! ## Jumps -/

/-- A jump to the label of a spot leads to the operations of the spot. -/
theorem lands (hreal : Realizes r o code) (hnext : R.Extends code next) {spot : Spot} {l : Label}
    (hl : r.label? spot = some l) (hjoins : r.joins spot) (hst : c.stack = [])
    (hregions : c.regions = []) :
    ∃ c' c'', Runtime.goTo code c l s = .on c' s ∧ Run.Leads next (.on c' s) (.on c'' s) ∧
      At r code [] (o.opsAt spot) c'' ∧ c''.temps = c.temps := by
  obtain ⟨l', dest, hl', hdest, -, hfollows⟩ := hreal.spot spot hjoins
  obtain rfl := Option.some_inj.1 (hl.symm.trans hl')
  have hlabel : R.step code { c with pc := dest } s = .on { c with pc := dest + 1 } s :=
    Runtime.step_label hdest
  refine ⟨{ c with pc := dest }, { c with pc := dest + 1 }, ?_, hnext.leads hlabel, ?_, rfl⟩
  · exact Runtime.goTo_eq hreal.placed_nodup hdest c s
  · exact ⟨hst, hregions, hfollows⟩

/-- Control gets to a spot in at least one step. -/
theorem goto (hreal : Realizes r o code) (hnext : R.Extends code next) {spot : Spot}
    (h : At r code st (.goto spot :: k) c) :
    ∃ c', Run.Leads next (next c s) (.on c' s) ∧ At r code [] (o.opsAt spot) c' ∧
      c'.temps = c.temps := by
  obtain ⟨q, l, hskip, hzero, hl, hjoins, hinstr⟩ := h.follows.goto_inv
  obtain rfl : st = [] := List.length_eq_zero_iff.1 hzero
  rcases hinstr with hbranch | hmark
  · obtain ⟨c₁, c₂, hgoTo, hleads, hat, htemps⟩ :=
      lands (c := { c with pc := q }) (s := s) hreal hnext hl hjoins h.stack h.regions
    have hstep : R.step code { c with pc := q } s = .on c₁ s := by
      simp only [Runtime.step, hbranch, hgoTo]
    refine ⟨c₂, Run.Leads.step_of (hnext.skips hskip) ?_, hat, htemps⟩
    rw [hnext hstep]
    exact hleads
  · obtain ⟨l', dest, hl', hdest, -, hfollows⟩ := hreal.spot spot hjoins
    obtain rfl := Option.some_inj.1 (hl.symm.trans hl')
    obtain rfl := eq_of_placed hreal.placed_nodup hdest hmark
    have hlabel : R.step code { c with pc := dest } s = .on { c with pc := dest + 1 } s :=
      Runtime.step_label hdest
    refine ⟨{ c with pc := dest + 1 }, Run.Leads.step_of (hnext.skips hskip) ?_, ?_, rfl⟩
    · rw [hnext hlabel]
      exact .refl _
    · exact ⟨h.stack, h.regions, hfollows⟩

/-- A jump on a boolean leads to one of two spots. -/
theorem fork (hreal : Realizes r o code) (hnext : R.Extends code next) {s₁ s₂ : Spot} {v : V}
    (h : At r code [v] (.fork s₁ s₂ :: k) c) :
    ∃ c', Run.Leads next (next c s) (.on c' s) ∧
      At r code [] (o.opsAt (if R.isTrue v then s₁ else s₂)) c' := by
  obtain ⟨q, when, l, hskip, -, hq, hl, hjoins₁, hjoins₂, hother⟩ := h.follows.fork_inv
  by_cases htaken : R.isTrue v = when
  · rw [← htaken] at hl
    have hjoins : r.joins (if R.isTrue v then s₁ else s₂) := by split <;> assumption
    obtain ⟨c₁, c₂, hgoTo, hleads, hat, -⟩ :=
      lands (c := { c with pc := q, stack := [] }) (s := s) hreal hnext hl hjoins rfl h.regions
    have hstep : R.step code { c with pc := q } s = .on c₁ s := by
      simp only [Runtime.step, hq, h.stack, if_pos htaken, hgoTo]
    refine ⟨c₂, Run.Leads.step_of (hnext.skips hskip) ?_, hat⟩
    rw [hnext hstep]
    exact hleads
  · have hspot : (if when then s₂ else s₁) = if R.isTrue v then s₁ else s₂ := by
      cases hv : R.isTrue v <;> cases when <;> simp_all
    have hstep : R.step code { c with pc := q } s = .on { c with pc := q + 1, stack := [] } s := by
      simp only [Runtime.step, hq, h.stack, if_neg htaken]
      rfl
    have hat : At r code [] [.goto (if when then s₂ else s₁)] { c with pc := q + 1, stack := [] } :=
      ⟨rfl, h.regions, hother⟩
    rw [hspot] at hat
    obtain ⟨c', hleads, hat', -⟩ := hat.goto (s := s) hreal hnext
    refine ⟨c', Run.Leads.step_of (hnext.skips hskip) ?_, hat'⟩
    rw [hnext hstep]
    exact hleads.of_step

/-- A jump on a number leads to the first spot with that key. -/
theorem select (hreal : Realizes r o code) (hnext : R.Extends code next)
    {cases : List (Int × Spot)} {default : Spot} {v : V}
    (h : At r code [v] (.select cases default :: k) c) :
    ∃ c', Run.Leads next (next c s) (.on c' s) ∧
      At r code [] (o.opsAt ((cases.lookup (R.toInt v)).getD default)) c' := by
  obtain ⟨q, table, l, hskip, -, hq, htable, hl, hjoins, hdefault⟩ := h.follows.select_inv
  have hjoins := joins_lookup hjoins hdefault (R.toInt v)
  obtain ⟨c₁, c₂, hgoTo, hleads, hat, -⟩ := lands (c := { c with pc := q, stack := [] }) (s := s)
    hreal hnext (lookup_table htable hl (R.toInt v)) hjoins rfl h.regions
  have hstep : R.step code { c with pc := q } s = .on c₁ s := by
    simp only [Runtime.step, hq, h.stack, hgoTo]
  refine ⟨c₂, Run.Leads.step_of (hnext.skips hskip) ?_, hat⟩
  rw [hnext hstep]
  exact hleads

/-- Without an open region, leaving one is a jump. -/
theorem leave (hreal : Realizes r o code) (hnext : R.Extends code next) {spot : Spot}
    (h : At r code st (.leave spot :: k) c) :
    ∃ c', Run.Leads next (next c s) (.on c' s) ∧ At r code [] (o.opsAt spot) c' := by
  obtain ⟨q, l, hskip, hzero, hq, hl, hjoins⟩ := h.follows.leave_inv
  obtain rfl : st = [] := List.length_eq_zero_iff.1 hzero
  have hregions : c.regions.tail = [] := by rw [h.regions]; rfl
  obtain ⟨c₁, c₂, hgoTo, hleads, hat, -⟩ := lands
    (c := { c with pc := q, regions := c.regions.tail }) (s := s) hreal hnext hl hjoins h.stack
    hregions
  have hstep : R.step code { c with pc := q } s = .on c₁ s := by
    simp only [Runtime.step, hq, hgoTo]
  refine ⟨c₂, Run.Leads.step_of (hnext.skips hskip) ?_, hat⟩
  rw [hnext hstep]
  exact hleads

/-- Guarded instructions are skipped if the boolean is true. -/
theorem guard (hreal : Realizes r o code) (hnext : R.Extends code next) {body : List Instr} {v : V}
    (h : At r code [v] (.guard body :: k) c) :
    ∃ c', Run.Leads next (.on c s) (.on c' s) ∧
      At r code [] (if R.isTrue v then k else body.map (fun i => .run i.erased) ++ k) c' := by
  obtain ⟨q, l, dest, hskip, hq, hdest, -, hover, hthrough⟩ := h.follows.guard_inv
  by_cases htrue : R.isTrue v = true
  · have hstep : R.step code { c with pc := q } s = .on { c with pc := dest, stack := [] } s := by
      rw [← Runtime.goTo_eq hreal.placed_nodup hdest { c with pc := q, stack := [] } s]
      simp only [Runtime.step, hq, h.stack, if_pos htrue]
    have hlabel : R.step code { c with pc := dest, stack := [] } s =
        .on { c with pc := dest + 1, stack := [] } s := Runtime.step_label hdest
    refine ⟨{ c with pc := dest + 1, stack := [] }, ?_, ?_⟩
    · exact (hnext.skips hskip).trans ((hnext.leads hstep).trans (hnext.leads hlabel))
    · rw [if_pos htrue]
      exact ⟨rfl, h.regions, hover⟩
  · have hstep : R.step code { c with pc := q } s = .on { c with pc := q + 1, stack := [] } s := by
      simp only [Runtime.step, hq, h.stack, if_neg htrue]
      rfl
    refine ⟨{ c with pc := q + 1, stack := [] }, (hnext.skips hskip).trans (hnext.leads hstep), ?_⟩
    rw [if_neg htrue]
    exact ⟨rfl, h.regions, hthrough⟩

/-! ## The return slot and the state -/

theorem stage (hnext : R.Extends code next) {v : V} (h : At r code (v :: st) (.stage :: k) c) :
    ∃ c' slot, Run.Leads next (.on c s) (.on c' s) ∧ At r code st k c' ∧ r.slot? = some slot ∧
      c'.temps slot = v := by
  obtain ⟨q, slot, rest, hskip, hq, hslot, hdepth, hrest⟩ := h.follows.stage_inv
  obtain rfl : st.length = rest := Nat.succ.inj hdepth
  have hstep : R.step code { c with pc := q } s =
      .on { Control.pass { c with pc := q } st with temps := Function.update c.temps slot v } s := by
    simp only [Runtime.step, hq, h.stack]
  refine ⟨_, slot, (hnext.skips hskip).trans (hnext.leads hstep), ⟨rfl, h.regions, hrest⟩, hslot, ?_⟩
  exact Function.update_self ..

theorem unstage (hnext : R.Extends code next) {slot : TempSlot} (hslot : r.slot? = some slot)
    (h : At r code st (.unstage :: k) c) :
    ∃ c', Run.Leads next (.on c s) (.on c' s) ∧ At r code (c.temps slot :: st) k c' := by
  obtain ⟨q, slot', hskip, hq, hslot', hrest⟩ := h.follows.unstage_inv
  obtain rfl := Option.some_inj.1 (hslot.symm.trans hslot')
  have hstep : R.step code { c with pc := q } s =
      .on (Control.pass { c with pc := q } (c.temps slot :: st)) s := by
    simp only [Runtime.step, hq, h.stack]
  exact ⟨_, (hnext.skips hskip).trans (hnext.leads hstep), ⟨rfl, h.regions, hrest⟩⟩

theorem storeState (hnext : R.Extends code next) {v : V}
    (h : At r code (v :: st) (.run .storeState :: k) c) :
    ∃ c', Run.Leads next (.on c s) (.on c' { s with state := v }) ∧ At r code st k c' := by
  obtain ⟨q, j, after, hskip, hq, -, hj, hdepth, hrest⟩ := h.follows.run_inv
  obtain rfl : j = .storeState := by cases j <;> first | exact hj | cases hj
  obtain rfl : after = st.length := (Instr.depth_eq_of_passes hdepth).2
  have hstep : R.step code { c with pc := q } s =
      .on (Control.pass { c with pc := q } st) { s with state := v } := by
    simp only [Runtime.step, hq, h.stack]
  exact ⟨_, (hnext.skips hskip).trans (hnext.leads hstep), ⟨rfl, h.regions, hrest rfl⟩⟩

/-! ## Ends -/

theorem ret (hnext : R.Extends code next) (h : At r code [] (.run (.ret false) :: k) c) :
    Runtime.EndsFrom R code next c s (s.note (.ret none)) := by
  obtain ⟨q, j, after, hskip, hq, -, hj, -, -⟩ := h.follows.run_inv
  obtain rfl : j = .ret false := by cases j <;> first | exact hj | cases hj
  refine ⟨{ c with pc := q }, s, hnext.skips hskip, ?_⟩
  simp only [Runtime.step, hq]

theorem suspend (hnext : R.Extends code next) {index : Int}
    (h : At r code st (.suspend index :: k) c) :
    Runtime.EndsFrom R code next c s (s.note (.ret none)) := by
  obtain ⟨q, hskip, -, hq⟩ := h.follows.suspend_inv
  refine ⟨{ c with pc := q }, s, hnext.skips hskip, ?_⟩
  simp only [Runtime.step, hq]

theorem retValue (hnext : R.Extends code next) {v : V}
    (h : At r code [v] (.run (.ret true) :: k) c) :
    Runtime.EndsFrom R code next c s (s.note (.ret (some v))) := by
  obtain ⟨q, j, after, hskip, hq, -, hj, -, -⟩ := h.follows.run_inv
  obtain rfl : j = .ret true := by cases j <;> first | exact hj | cases hj
  refine ⟨{ c with pc := q }, s, hnext.skips hskip, ?_⟩
  simp only [Runtime.step, hq, h.stack]

theorem throw (hnext : R.Extends code next) {v : V} (h : At r code (v :: st) (.run .throw :: k) c) :
    Runtime.EndsFrom R code next c s (s.note (.throw v)) := by
  obtain ⟨q, j, after, hskip, hq, -, hj, -, -⟩ := h.follows.run_inv
  obtain rfl : j = .throw := by cases j <;> first | exact hj | cases hj
  refine ⟨{ c with pc := q }, s, hnext.skips hskip, ?_⟩
  simp only [Runtime.step, hq, h.stack, Runtime.raise, h.regions]

end At

end StackCode
