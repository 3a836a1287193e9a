import StackCode.Proofs.Assembly.Steps
import StackCode.Proofs.Outline.Sound

/-!
# Code that follows an outline

`Follows r code pc depth ops` says that execution of the code from position `pc`, with `depth` values
on the stack, goes through the operations `ops`: every instruction finds the values it takes, the
stack is empty at every label, and a jump leads to a spot that control is known to get to.  What is
behind an operation that ends the flow does not matter.

Main statement: where directives render operations and come to some code, the code follows the
operations, from their beginning and from behind every suspension point (`Renders.follows`).
-/

namespace StackCode

/-- Execution goes through the operations. -/
inductive Follows (r : Reading) (code : List Instr) : Nat → Nat → List Op → Prop
  | note {pc depth : Nat} {i : Instr} {ops : List Op} (hpc : code[pc]? = some i)
      (hi : i.isNote = true) (rest : Follows r code (pc + 1) depth ops) :
      Follows r code pc depth ops
  | label {pc : Nat} {l : Label} {ops : List Op} (hpc : code[pc]? = some (.markLabel l))
      (hl : l ∉ handlersIn code) (rest : Follows r code (pc + 1) 0 ops) : Follows r code pc 0 ops
  | run {pc depth after : Nat} {i : Instr} {ops : List Op} (hpc : code[pc]? = some i)
      (hi : i.isStraight = true) (hflow : i.endsFlow = false)
      (hdepth : i.depthAfter depth = .ok after) (rest : Follows r code (pc + 1) after ops) :
      Follows r code pc depth (.run i.erased :: ops)
  | halt {pc depth after : Nat} {i : Instr} {ops : List Op} (hpc : code[pc]? = some i)
      (hi : i.isStraight = true) (hflow : i.endsFlow = true)
      (hdepth : i.depthAfter depth = .ok after) : Follows r code pc depth (.run i.erased :: ops)
  | stage {pc depth : Nat} {slot : TempSlot} {ops : List Op}
      (hpc : code[pc]? = some (.storeTemp slot)) (hslot : r.slot? = some slot)
      (rest : Follows r code (pc + 1) depth ops) : Follows r code pc (depth + 1) (.stage :: ops)
  | unstage {pc depth : Nat} {slot : TempSlot} {ops : List Op}
      (hpc : code[pc]? = some (.loadTemp slot)) (hslot : r.slot? = some slot)
      (rest : Follows r code (pc + 1) (depth + 1) ops) : Follows r code pc depth (.unstage :: ops)
  | guard {pc q : Nat} {l : Label} {body : List Instr} {ops : List Op}
      (hpc : code[pc]? = some (.branchIf true l)) (hq : code[q]? = some (.markLabel l))
      (hl : l ∉ handlersIn code) (skip : Follows r code (q + 1) 0 ops)
      (rest : Follows r code (pc + 1) 0 (body.map (fun i => .run i.erased) ++ ops)) :
      Follows r code pc 1 (.guard body :: ops)
  | enter {pc depth : Nat} {l : Label} {h : BlockId} {ops : List Op}
      (hpc : code[pc]? = some (.enterTry l)) (hl : r.label? (.block h) = some l)
      (hh : r.catches h) (rest : Follows r code (pc + 1) depth ops) :
      Follows r code pc depth (.enter h :: ops)
  | jump {pc : Nat} {s : Spot} {l : Label} {ops : List Op} (hpc : code[pc]? = some (.branch l))
      (hl : r.label? s = some l) (hs : r.joins s) : Follows r code pc 0 (.goto s :: ops)
  | fall {pc : Nat} {s : Spot} {l : Label} {ops : List Op} (hpc : code[pc]? = some (.markLabel l))
      (hl : r.label? s = some l) (hs : r.joins s) : Follows r code pc 0 (.goto s :: ops)
  | fork {pc : Nat} {s t : Spot} {l : Label} {ops : List Op} (when : Bool)
      (hpc : code[pc]? = some (.branchIf when l))
      (hl : r.label? (if when then s else t) = some l) (hs : r.joins s) (ht : r.joins t)
      (rest : Follows r code (pc + 1) 0 [.goto (if when then t else s)]) :
      Follows r code pc 1 (.fork s t :: ops)
  | select {pc : Nat} {cases : List (Int × Spot)} {table : List (Int × Label)} {default : Spot}
      {l : Label} {ops : List Op} (hpc : code[pc]? = some (.switch table l))
      (hcases : List.Forall₂ (fun c e => c.1 = e.1 ∧ r.label? c.2 = some e.2) cases table)
      (hl : r.label? default = some l) (hs : ∀ c ∈ cases, r.joins c.2)
      (hdefault : r.joins default) : Follows r code pc 1 (.select cases default :: ops)
  | leave {pc : Nat} {s : Spot} {l : Label} {ops : List Op} (hpc : code[pc]? = some (.leave l))
      (hl : r.label? s = some l) (hs : r.joins s) : Follows r code pc 0 (.leave s :: ops)
  | suspend {pc : Nat} {index : Int} {ops : List Op} (hpc : code[pc]? = some (.ret false)) :
      Follows r code pc 0 (.suspend index :: ops)
  | settle {pc : Nat} {ops : List Op} (rest : Follows r code pc 0 ops) :
      Follows r code pc 0 (.settle :: ops)

/-- The reading keeps handlers apart from everything that control gets to by itself. -/
structure Reading.Suits (r : Reading) (code : List Instr) : Prop where
  handler_lt : ∀ l ∈ handlersIn code, l.index < r.bound
  apart : ∀ s l, r.joins s → r.label? s = some l → l ∉ handlersIn code
  resume : ∀ index l, r.label? (.resume index) = some l → r.joins (.resume index)

/-- The labels behind the suspension points among some operations have been branched to. -/
def Reading.Resumes (r : Reading) (ops : List Op) (f : Flow) : Prop :=
  ∀ index l, .suspend index ∈ ops → r.label? (.resume index) = some l →
    f.labels.isReferenced l = true

namespace Reading.Resumes

variable {r : Reading} {ops ops' : List Op} {f g : Flow} {code : List Instr}

theorem mono (h : r.Resumes ops f) (ha : f.Advances g code) : r.Resumes ops g :=
  fun index l hmem hl => ha.isReferenced (h index l hmem hl)

theorem sublist (h : r.Resumes ops f) (hsub : ∀ op ∈ ops', op ∈ ops) : r.Resumes ops' f :=
  fun index l hmem hl => h index l (hsub _ hmem) hl

theorem tail {op : Op} (h : r.Resumes (op :: ops) f) : r.Resumes ops f :=
  h.sublist fun _ => List.mem_cons_of_mem op

theorem left (h : r.Resumes (ops ++ ops') f) : r.Resumes ops f :=
  h.sublist fun _ => List.mem_append_left ops'

theorem right (h : r.Resumes (ops ++ ops') f) : r.Resumes ops' f :=
  h.sublist fun _ => List.mem_append_right ops

/-- There is nothing to ask where nothing is suspended. -/
theorem of_not_mem (h : ∀ index, .suspend index ∉ ops) : r.Resumes ops f :=
  fun index _ hmem => absurd hmem (h index)

theorem of_run (h : ∀ op ∈ ops, ∃ i, op = .run i) : r.Resumes ops f := by
  refine of_not_mem fun index hmem => ?_
  obtain ⟨i, hi⟩ := h _ hmem
  cases hi

end Reading.Resumes

/-- Control gets from behind the suspension point through the operations. -/
def FollowsResumed (r : Reading) (code : List Instr) (index : Int) (ops : List Op) : Prop :=
  ∃ l q, r.label? (.resume index) = some l ∧ code[q]? = some (.markLabel l) ∧
    Follows r code (q + 1) 0 ops

/-- What it comes to that directives render operations: from their beginning, and from behind every
suspension point, the code follows the operations and whatever it follows behind them. -/
structure Realized (r : Reading) (code : List Instr) (ops : List Op) (v w : Bool) (f g : Flow)
    (start stop : Nat) : Prop where
  follows : ∀ k, (w = true → Follows r code stop g.depth k) →
    v = true → Follows r code start f.depth (ops ++ k)
  resumed : ∀ k, (w = true → Follows r code stop g.depth k) →
    ∀ index front back, ops = front ++ .suspend index :: back → FollowsResumed r code index (back ++ k)

namespace Realized

variable {r : Reading} {code : List Instr} {op : Op} {ops : List Op} {v v' w : Bool}
  {f f' g : Flow} {start start' stop : Nat}

/-- An operation in front that is not a suspension. -/
theorem prepend (h : Realized r code ops v' w f' g start' stop) (hop : ∀ index, op ≠ .suspend index)
    (hfollows : ∀ k, v = true → (v' = true → Follows r code start' f'.depth (ops ++ k)) →
      Follows r code start f.depth (op :: (ops ++ k))) :
    Realized r code (op :: ops) v w f g start stop where
  follows k hk hv := hfollows k hv (h.follows k hk)
  resumed k hk index front back hops := by
    cases front with
    | nil =>
      injection hops with hhead
      exact absurd hhead (hop index)
    | cons op' front =>
      injection hops with _ htail
      exact h.resumed k hk index front back htail

/-- Code in front that is no operation. -/
theorem skip (h : Realized r code ops v w f' g start' stop)
    (hfollows : ∀ k, v = true → Follows r code start' f'.depth (ops ++ k) →
      Follows r code start f.depth (ops ++ k)) : Realized r code ops v w f g start stop where
  follows k hk hv := hfollows k hv (h.follows k hk hv)
  resumed := h.resumed

/-- The suspension points among the operations are all there are, if none follows. -/
theorem resumed_append (h : Realized r code ops v w f g start stop) {k : List Op}
    (hk : w = true → Follows r code stop g.depth k) (hnot : ∀ index, .suspend index ∉ k)
    {index : Int} {front back : List Op} (hops : ops ++ k = front ++ .suspend index :: back) :
    FollowsResumed r code index back := by
  rcases List.append_eq_append_iff.1 hops with ⟨mid, rfl, hmid⟩ | ⟨mid, rfl, hmid⟩
  · exact absurd (hmid ▸ List.mem_append_right _ List.mem_cons_self) (hnot index)
  · cases mid with
    | nil =>
      rw [List.nil_append] at hmid
      exact absurd (hmid ▸ List.mem_cons_self) (hnot index)
    | cons op mid =>
      injection hmid with hhead htail
      subst hhead htail
      exact h.resumed k hk index front mid rfl

end Realized

namespace Renders

variable {r : Reading} {code : List Instr}

/-- Control gets to the end of what renders operations, where they say so. -/
theorem isLive {v w : Bool} {ds : List Directive} {ops : List Op} (h : Renders r v ds ops w)
    {f g : Flow} {seg : List Instr} (ha : Assembles f ds seg g)
    (hlive : v = true → f.isLive = true) (hres : r.Resumes ops f) :
    w = true → g.isLive = true := by
  induction h generalizing f g seg with
  | nil v =>
    obtain ⟨rfl, rfl⟩ := Assembles.nil_iff.1 ha
    exact hlive
  | note hi _ ih =>
    obtain ⟨_, f₁, _, hstep, hrest, rfl⟩ := Assembles.cons_iff.1 ha
    have hres₁ := hres.mono (Flow.step_advances hstep (Instr.placed?_of_isNote hi))
    exact ih hrest ((Flow.step_note hi hstep).2.1 ▸ hlive) hres₁
  | run hi _ ih =>
    obtain ⟨_, f₁, _, hstep, hrest, rfl⟩ := Assembles.cons_iff.1 ha
    have hres₁ := hres.mono (Flow.step_advances hstep (Instr.placed?_of_isStraight hi))
    exact ih hrest (Flow.isLive_of_run hlive hstep) hres₁.tail
  | stage _ _ ih =>
    obtain ⟨_, f₁, _, hstep₁, hrest₁, rfl⟩ := Assembles.cons_iff.1 ha
    obtain ⟨_, f₂, _, hstep, hrest, rfl⟩ := Assembles.cons_iff.1 hrest₁
    have hres₁ := hres.mono (Flow.step_advances hstep₁ trivial)
    obtain ⟨rfl, rfl⟩ := Flow.step_stageReturn hstep₁
    have hlive₁ : _ → Flow.isLive { f with hasStaged := f.hasStaged || f.isLive } = true := hlive
    exact ih hrest (Flow.isLive_of_step rfl hlive₁ hstep)
      (hres₁.mono (Flow.step_advances hstep rfl)).tail
  | guard _ inner _ ihb ih =>
    obtain ⟨_, f₁, _, hstep, hrest, rfl⟩ := Assembles.cons_iff.1 ha
    have hres₁ := hres.mono (Flow.step_advances hstep rfl)
    obtain ⟨f₂, _, _, hbody, hmark, rfl⟩ := Assembles.append_iff.1 hrest
    have hres₂ := hres₁.mono (hbody.advances inner.isProper)
    obtain ⟨_, f₃, _, hstep₃, hrest₃, rfl⟩ := Assembles.cons_iff.1 hmark
    refine ih hrest₃ (fun hv => ?_) (hres₂.mono (Flow.step_advances hstep₃ trivial)).tail
    have hinner := ihb hbody (Flow.isLive_of_step rfl hlive hstep) (.of_run exists_run_of_mem) hv
    rw [(Flow.step_mark hstep₃).2.isLive, hinner]
    rfl
  | enter _ _ _ ih =>
    obtain ⟨_, f₁, _, hstep, hrest, rfl⟩ := Assembles.cons_iff.1 ha
    exact ih hrest (Flow.isLive_of_step rfl hlive hstep)
      (hres.mono (Flow.step_advances hstep rfl)).tail
  | goto _ _ _ ih =>
    obtain ⟨_, f₁, _, hstep, hrest, rfl⟩ := Assembles.cons_iff.1 ha
    exact ih hrest nofun (hres.mono (Flow.step_advances hstep rfl)).tail
  | suspend hl _ ih =>
    obtain ⟨_, f₁, _, hstep, hrest₁, rfl⟩ := Assembles.cons_iff.1 ha
    have hres₁ := hres.mono (Flow.step_advances hstep rfl)
    obtain ⟨_, f₂, _, hstep₂, hrest, rfl⟩ := Assembles.cons_iff.1 hrest₁
    refine ih hrest (fun _ => ?_) (hres₁.mono (Flow.step_advances hstep₂ trivial)).tail
    rw [(Flow.step_mark hstep₂).2.isLive, hres₁ _ _ List.mem_cons_self hl, Bool.or_true]
  | settle _ ih =>
    obtain ⟨_, f₁, _, hstep, hrest, rfl⟩ := Assembles.cons_iff.1 ha
    obtain ⟨-, rfl, rfl⟩ := Flow.step_endStatement.1 hstep
    exact ih hrest hlive hres.tail

/-- Where directives render operations, the code they come to follows the operations. -/
theorem follows {v w : Bool} {ds : List Directive} {ops : List Op} (h : Renders r v ds ops w)
    (hr : r.Suits code) {f g : Flow} {seg post : List Instr} (ha : Assembles f ds seg g)
    {start stop : Nat} (hcode : code.drop start = seg ++ post) (hstop : stop = start + seg.length)
    (hlive : v = true → f.isLive = true) (hres : r.Resumes ops f) :
    Realized r code ops v w f g start stop := by
  induction h generalizing f g seg post start stop with
  | nil v =>
    obtain ⟨rfl, rfl⟩ := Assembles.nil_iff.1 ha
    subst hstop
    exact ⟨fun k hk hv => hk hv, fun k _ index front back hops => by
      cases front <;> cases hops⟩
  | @note v w i ds ops hi rest ih =>
    obtain ⟨instrs, f₁, seg, hstep, hrest, hfirst, hcode, hstop⟩ := ha.uncons hcode hstop
    have hres₁ := hres.mono (Flow.step_advances hstep (Instr.placed?_of_isNote hi))
    obtain ⟨rfl, hlive₁, hdepth₁⟩ := Flow.step_note hi hstep
    have hreal := ih hrest hcode hstop (hlive₁ ▸ hlive) hres₁
    refine hreal.skip fun k hv hfollows => .note (getElem?_of_drop hfirst) hi ?_
    rw [← hdepth₁]
    exact hfollows
  | @run v w i ds ops hi rest ih =>
    obtain ⟨instrs, f₁, seg, hstep, hrest, hfirst, hcode, hstop⟩ := ha.uncons hcode hstop
    have hres₁ := hres.mono (Flow.step_advances hstep (Instr.placed?_of_isStraight hi))
    have hlive₁ := Flow.isLive_of_run hlive hstep
    refine (ih hrest hcode hstop hlive₁ hres₁.tail).prepend (fun _ => nofun) fun k hv hfollows => ?_
    obtain ⟨rfl, after, hpass⟩ := Flow.step_live (hlive hv) hstep
    cases hflow : i.endsFlow with
    | true => exact .halt (getElem?_of_drop hfirst) hi hflow hpass.depthAfter
    | false =>
      refine .run (getElem?_of_drop hfirst) hi hflow hpass.depthAfter ?_
      rw [← hpass.depth hflow]
      exact hfollows (by rw [hv, hflow]; rfl)
  | @stage v w slot ds ops hslot rest ih =>
    obtain ⟨_, f₁, seg, hstep₁, hrest, _, hcode, hstop⟩ := ha.uncons hcode hstop
    have hres₁ := hres.mono (Flow.step_advances hstep₁ trivial)
    obtain ⟨rfl, rfl⟩ := Flow.step_stageReturn hstep₁
    obtain ⟨instrs, f₂, seg, hstep, hrest, hfirst, hcode, hstop⟩ := hrest.uncons hcode hstop
    have hres₂ := hres₁.mono (Flow.step_advances hstep rfl)
    have hlive₁ : v = true → Flow.isLive { f with hasStaged := f.hasStaged || f.isLive } = true :=
      hlive
    have hlive₂ := Flow.isLive_of_step rfl hlive₁ hstep
    refine (ih hrest hcode hstop hlive₂ hres₂.tail).prepend (fun _ => nofun) fun k hv hfollows => ?_
    obtain ⟨rfl, after, hpass⟩ := Flow.step_live (hlive₁ hv) hstep
    obtain ⟨hpops, hafter⟩ := Instr.depth_eq_of_passes hpass.depthAfter
    have hdepth : f.depth = f₂.depth + 1 := by
      have hend : f₂.depth = f.depth - 1 := (hpass.depth rfl).trans hafter
      rw [hend]
      exact (Nat.sub_add_cancel hpops).symm
    rw [hdepth]
    exact .stage (getElem?_of_drop hfirst) hslot (hfollows hv)
  | @guard v w l body ds ops hl inner rest ihb ih =>
    obtain ⟨instrs, f₁, seg, hstep, hrest, hfirst, hcode₁, hstop₁⟩ := ha.uncons hcode hstop
    have hres₁ := hres.mono (Flow.step_advances hstep rfl)
    have hlive₁ := Flow.isLive_of_step rfl hlive hstep
    obtain ⟨f₂, segb, seg', hbody, hmark, rfl⟩ := Assembles.append_iff.1 hrest
    rw [List.append_assoc] at hcode₁
    have hrun : r.Resumes (body.map fun i => .run i.erased) f₁ := .of_run exists_run_of_mem
    have hinner := ihb hbody hcode₁ rfl hlive₁ hrun
    have hlive₂ := inner.isLive hbody hlive₁ hrun
    have hres₂ := hres₁.mono (hbody.advances inner.isProper)
    rw [List.length_append, ← Nat.add_assoc] at hstop₁
    obtain ⟨_, f₃, seg₃, hstep₃, hrest₃, hfirst₃, hcode₃, hstop₃⟩ :=
      hmark.uncons (drop_add_of_drop hcode₁) hstop₁
    have hres₃ := hres₂.mono (Flow.step_advances hstep₃ trivial)
    obtain ⟨rfl, henter⟩ := Flow.step_mark hstep₃
    have hlive₃ : v = true → f₃.isLive = true := fun hv => by
      rw [henter.isLive, hlive₂ hv]
      rfl
    refine (ih hrest₃ hcode₃ hstop₃ hlive₃ hres₃.tail).prepend (fun _ => nofun) fun k hv hfollows => ?_
    obtain ⟨rfl, after, hpass⟩ := Flow.step_live (hlive hv) hstep
    obtain ⟨hdepth, hafter⟩ := Instr.depth_eq_of_isJump rfl hpass.depthAfter
    have hnot : l ∉ handlersIn code := fun hmem => absurd (hr.handler_lt l hmem) (Nat.not_lt.2 hl)
    have hq := getElem?_of_drop hfirst₃
    have hskip := hfollows hv
    rw [henter.depth] at hskip
    rw [hdepth]
    refine .guard (getElem?_of_drop hfirst) hq hnot hskip ?_
    have hthrough := hinner.follows (ops ++ k) (fun _ => ?_) hv
    · rw [hpass.depth rfl, hafter] at hthrough
      exact hthrough
    · rw [henter.depth_eq (hlive₂ hv)]
      exact .label hq hnot hskip
  | @enter v w l h ds ops hl hh rest ih =>
    obtain ⟨instrs, f₁, seg, hstep, hrest, hfirst, hcode, hstop⟩ := ha.uncons hcode hstop
    have hres₁ := hres.mono (Flow.step_advances hstep rfl)
    have hlive₁ := Flow.isLive_of_step rfl hlive hstep
    refine (ih hrest hcode hstop hlive₁ hres₁.tail).prepend (fun _ => nofun) fun k hv hfollows => ?_
    obtain ⟨rfl, after, hpass⟩ := Flow.step_live (hlive hv) hstep
    refine .enter (getElem?_of_drop hfirst) hl hh ?_
    rw [(show f.depth = f₁.depth from
      ((hpass.depth rfl).trans (Instr.depth_eq_of_passes hpass.depthAfter).2).symm)]
    exact hfollows hv
  | @goto v w s l ds ops hl hs rest ih =>
    obtain ⟨instrs, f₁, seg, hstep, hrest, hfirst, hcode, hstop⟩ := ha.uncons hcode hstop
    have hres₁ := hres.mono (Flow.step_advances hstep rfl)
    refine (ih hrest hcode hstop nofun hres₁.tail).prepend (fun _ => nofun) fun k hv _ => ?_
    obtain ⟨rfl, after, hpass⟩ := Flow.step_live (hlive hv) hstep
    rw [(Instr.depth_eq_of_isJump rfl hpass.depthAfter).1]
    exact .jump (getElem?_of_drop hfirst) hl (hs hv)
  | @suspend v w index l ds ops hl rest ih =>
    obtain ⟨instrs, f₁, seg, hstep, hrest, hfirst, hcode, hstop⟩ := ha.uncons hcode hstop
    have hres₁ := hres.mono (Flow.step_advances hstep rfl)
    obtain ⟨_, f₂, seg₂, hstep₂, hrest₂, hfirst₂, hcode₂, hstop₂⟩ := hrest.uncons hcode hstop
    have hres₂ := hres₁.mono (Flow.step_advances hstep₂ trivial)
    obtain ⟨rfl, henter⟩ := Flow.step_mark hstep₂
    have hlive₂ : true = true → f₂.isLive = true := fun _ => by
      rw [henter.isLive, hres₁ index l List.mem_cons_self hl, Bool.or_true]
    have hreal := ih hrest₂ hcode₂ hstop₂ hlive₂ hres₂.tail
    refine ⟨fun k hk hv => ?_, fun k hk index' front back hops => ?_⟩
    · obtain ⟨rfl, after, hpass⟩ := Flow.step_live (hlive hv) hstep
      rw [Instr.depth_eq_of_ret hpass.depthAfter]
      exact .suspend (getElem?_of_drop hfirst)
    · cases front with
      | nil =>
        injection hops with hhead htail
        cases hhead
        subst htail
        have hfollows := hreal.follows k hk rfl
        rw [henter.depth] at hfollows
        exact ⟨l, _, hl, getElem?_of_drop hfirst₂, hfollows⟩
      | cons op front =>
        injection hops with _ htail
        exact hreal.resumed k hk index' front back htail
  | @settle v w ds ops rest ih =>
    obtain ⟨instrs, f₁, seg, hstep, hrest, hfirst, hcode, hstop⟩ := ha.uncons hcode hstop
    obtain ⟨hdepth, rfl, rfl⟩ := Flow.step_endStatement.1 hstep
    refine (ih hrest hcode hstop hlive hres.tail).prepend (fun _ => nofun) fun k hv hfollows => ?_
    have hfollows := hfollows hv
    rw [hdepth (hlive hv)] at hfollows ⊢
    exact .settle hfollows

end Renders

/-! ## The ends of blocks -/

/-- What follows the end of a block: the label of the next one, if control gets there by itself,
where the stack is empty. -/
def Precedes (r : Reading) (code : List Instr) (next : Option Spot) (g : Flow) (stop : Nat) :
    Prop :=
  ∀ s, next = some s → r.joins s →
    ∃ l, r.label? s = some l ∧ code[stop]? = some (.markLabel l) ∧ (g.isLive = true → g.depth = 0)

/-- Control is passed on to a spot: the code falls into it, or branches there. -/
def Arrives (r : Reading) (next : Option Spot) (g : Flow) (s : Spot) : Prop :=
  (next = some s ∧ g.isLive = true) ∨ ∃ l, r.label? s = some l ∧ g.labels.isReferenced l = true

namespace Ends

variable {r : Reading} {next : Option Spot} {v : Bool} {ds : List Directive} {ops : List Op}

theorem not_mem_suspend (h : Ends r next v ds ops) (index : Int) : .suspend index ∉ ops := by
  cases h <;> simp

variable {f g : Flow} {seg : List Instr}

/-- Control is passed on to every target of the operation. -/
theorem arrives (h : Ends r next v ds ops) (ha : Assembles f ds seg g) (hv : v = true)
    (hlive : f.isLive = true) :
    ∃ op, ops = [op] ∧ ∀ s ∈ op.targets, r.joins s ∧ Arrives r next g s := by
  cases h with
  | fall hnext hs =>
    obtain ⟨rfl, rfl⟩ := Assembles.nil_iff.1 ha
    refine ⟨_, rfl, fun s' hs' => ?_⟩
    cases List.mem_singleton.1 hs'
    exact ⟨hs hv, .inl ⟨hnext, hlive⟩⟩
  | jump hl hs =>
    obtain ⟨-, after, hpass⟩ := Flow.step_live hlive (Assembles.singleton_iff.1 ha)
    refine ⟨_, rfl, fun s' hs' => ?_⟩
    cases List.mem_singleton.1 hs'
    exact ⟨hs hv, .inr ⟨_, hl, hpass.referenced _ (List.mem_singleton.2 rfl)⟩⟩
  | forkFall when hl hnext hs ht =>
    obtain ⟨-, after, hpass⟩ := Flow.step_live hlive (Assembles.singleton_iff.1 ha)
    have href := hpass.referenced _ (List.mem_singleton.2 rfl)
    have hlive' : g.isLive = true := hpass.isLive
    refine ⟨_, rfl, fun s' hs' => ?_⟩
    rcases List.mem_cons.1 hs' with rfl | hs'
    · refine ⟨hs hv, ?_⟩
      cases when with
      | true => exact .inr ⟨_, hl, href⟩
      | false => exact .inl ⟨hnext, hlive'⟩
    · cases List.mem_singleton.1 hs'
      refine ⟨ht hv, ?_⟩
      cases when with
      | true => exact .inl ⟨hnext, hlive'⟩
      | false => exact .inr ⟨_, hl, href⟩
  | forkJump hl hm hs ht =>
    obtain ⟨_, f₁, _, hstep, hrest, rfl⟩ := Assembles.cons_iff.1 ha
    obtain ⟨-, after, hpass⟩ := Flow.step_live hlive hstep
    have hrest := Assembles.singleton_iff.1 hrest
    obtain ⟨-, after', hpass'⟩ := Flow.step_live hpass.isLive hrest
    refine ⟨_, rfl, fun s' hs' => ?_⟩
    rcases List.mem_cons.1 hs' with rfl | hs'
    · refine ⟨hs hv, .inr ⟨_, hl, ?_⟩⟩
      exact (Flow.step_advances hrest rfl).isReferenced
        (hpass.referenced _ (List.mem_singleton.2 rfl))
    · cases List.mem_singleton.1 hs'
      exact ⟨ht hv, .inr ⟨_, hm, hpass'.referenced _ (List.mem_singleton.2 rfl)⟩⟩
  | select hcases hl hs hdefault =>
    obtain ⟨-, after, hpass⟩ := Flow.step_live hlive (Assembles.singleton_iff.1 ha)
    refine ⟨_, rfl, fun s' hs' => ?_⟩
    rcases List.mem_append.1 hs' with hs' | hs'
    · obtain ⟨c, hc, rfl⟩ := List.mem_map.1 hs'
      obtain ⟨e, he, -, hlabel⟩ := exists_of_forall₂ hcases hc
      exact ⟨hs c hc hv, .inr ⟨e.2, hlabel,
        hpass.referenced e.2 (List.mem_append_left _ (List.mem_map_of_mem he))⟩⟩
    · cases List.mem_singleton.1 hs'
      exact ⟨hdefault hv,
        .inr ⟨_, hl, hpass.referenced _ (List.mem_append_right _ (List.mem_singleton.2 rfl))⟩⟩
  | leave hl hs =>
    obtain ⟨-, after, hpass⟩ := Flow.step_live hlive (Assembles.singleton_iff.1 ha)
    refine ⟨_, rfl, fun s' hs' => ?_⟩
    cases List.mem_singleton.1 hs'
    exact ⟨hs hv, .inr ⟨_, hl, hpass.referenced _ (List.mem_singleton.2 rfl)⟩⟩
  | dangle b =>
    have := Flow.step_endBlock.1 (Assembles.singleton_iff.1 ha)
    rw [this.1] at hlive
    cases hlive

variable {code post : List Instr} {start stop : Nat}

theorem follows (h : Ends r next v ds ops) (ha : Assembles f ds seg g)
    (hcode : code.drop start = seg ++ post) (hstop : stop = start + seg.length)
    (hnext : Precedes r code next g stop) (hlive : f.isLive = true) (hv : v = true) :
    Follows r code start f.depth ops := by
  cases h with
  | fall hs hjoins =>
    obtain ⟨rfl, rfl⟩ := Assembles.nil_iff.1 ha
    rw [List.length_nil, Nat.add_zero] at hstop
    subst hstop
    obtain ⟨l, hl, hmark, hdepth⟩ := hnext _ hs (hjoins hv)
    rw [hdepth hlive]
    exact .fall hmark hl (hjoins hv)
  | jump hl hs =>
    obtain ⟨rfl, after, hpass⟩ := Flow.step_live hlive (Assembles.singleton_iff.1 ha)
    rw [(Instr.depth_eq_of_isJump rfl hpass.depthAfter).1]
    exact .jump (getElem?_of_drop hcode) hl (hs hv)
  | @forkFall s t l when hl hfall hs ht =>
    obtain ⟨rfl, after, hpass⟩ := Flow.step_live hlive (Assembles.singleton_iff.1 ha)
    rw [(Instr.depth_eq_of_isJump rfl hpass.depthAfter).1]
    have hother : r.joins (if when then t else s) := by
      cases when
      · exact hs hv
      · exact ht hv
    obtain ⟨l', hl', hmark, -⟩ := hnext _ hfall hother
    rw [List.length_singleton] at hstop
    subst hstop
    exact .fork when (getElem?_of_drop hcode) hl (hs hv) (ht hv) (.fall hmark hl' hother)
  | forkJump hl hm hs ht =>
    obtain ⟨instrs, f₁, seg₁, hstep, hrest, hfirst, hcode₁, -⟩ := ha.uncons hcode hstop
    obtain ⟨rfl, after, hpass⟩ := Flow.step_live hlive hstep
    obtain ⟨rfl, after', hpass'⟩ := Flow.step_live hpass.isLive (Assembles.singleton_iff.1 hrest)
    rw [(Instr.depth_eq_of_isJump rfl hpass.depthAfter).1]
    exact .fork true (getElem?_of_drop hfirst) hl (hs hv) (ht hv)
      (.jump (getElem?_of_drop hcode₁) hm (ht hv))
  | select hcases hl hs hdefault =>
    obtain ⟨rfl, after, hpass⟩ := Flow.step_live hlive (Assembles.singleton_iff.1 ha)
    rw [(Instr.depth_eq_of_isJump rfl hpass.depthAfter).1]
    exact .select (getElem?_of_drop hcode) hcases hl (fun c hc => hs c hc hv) (hdefault hv)
  | leave hl hs =>
    obtain ⟨rfl, after, hpass⟩ := Flow.step_live hlive (Assembles.singleton_iff.1 ha)
    rw [(Instr.depth_eq_of_isJump rfl hpass.depthAfter).1]
    exact .leave (getElem?_of_drop hcode) hl (hs hv)
  | dangle b =>
    have := Flow.step_endBlock.1 (Assembles.singleton_iff.1 ha)
    rw [this.1] at hlive
    cases hlive

end Ends

namespace RendersEnd

variable {r : Reading} {next : Option Spot} {v w : Bool} {ds : List Directive} {ops : List Op}
  {f g : Flow} {code seg post : List Instr} {start stop : Nat}

/-- Control is passed on to every target of the last operation, where it gets there. -/
theorem arrives (h : RendersEnd r next v ds ops w) (ha : Assembles f ds seg g)
    (hlive : v = true → f.isLive = true) (hres : r.Resumes ops f) (hw : w = true) :
    ∃ op, ops.getLast? = some op ∧ ∀ s ∈ op.targets, r.joins s ∧ Arrives r next g s := by
  cases h with
  | intro front back =>
    obtain ⟨f₁, _, _, hfront, hback, rfl⟩ := Assembles.append_iff.1 ha
    obtain ⟨op, rfl, harrives⟩ := back.arrives hback hw (front.isLive hfront hlive hres.left hw)
    exact ⟨op, List.getLast?_concat, harrives⟩

/-- The code of a block follows the operations of the block. -/
theorem follows (h : RendersEnd r next v ds ops w) (hr : r.Suits code) (ha : Assembles f ds seg g)
    (hcode : code.drop start = seg ++ post) (hstop : stop = start + seg.length)
    (hnext : Precedes r code next g stop) (hlive : v = true → f.isLive = true)
    (hres : r.Resumes ops f) :
    (v = true → Follows r code start f.depth ops) ∧
      ∀ index front back, ops = front ++ .suspend index :: back →
        FollowsResumed r code index back := by
  cases h with
  | @intro _ ds₁ ds₂ ops₁ ops₂ front back =>
    obtain ⟨f₁, seg₁, seg₂, hfront, hback, rfl⟩ := Assembles.append_iff.1 ha
    rw [List.append_assoc] at hcode
    rw [List.length_append, ← Nat.add_assoc] at hstop
    have hlive₁ := front.isLive hfront hlive hres.left
    have hreal := front.follows hr hfront hcode rfl hlive hres.left
    have hends : w = true → Follows r code (start + seg₁.length) f₁.depth ops₂ := fun hw =>
      back.follows hback (drop_add_of_drop hcode) hstop hnext (hlive₁ hw) hw
    exact ⟨hreal.follows ops₂ hends, fun _ _ _ => hreal.resumed_append hends back.not_mem_suspend⟩

end RendersEnd

end StackCode
