import Mathlib.Data.List.Forall2
import StackCode.Proofs.Draft.Gives
import StackCode.Proofs.Fragment.Plain
import StackCode.Proofs.Outline.Basic

/-!
# Drafts render outlines

`Renders r v ds ops w` says that the directives `ds` are the operations `ops` with labels and slots
filled in, and that control gets to their end, if `w`, where it gets to their beginning, if `v`.
The reading `r` says which label belongs to which spot.  What a block does last is not like the rest,
since a block that control falls into needs no branch; `Ends` says what it may come to.
-/

namespace StackCode

/-- How the labels and slots of some code are read. -/
structure Reading where
  /-- The label of a spot, if it has one. -/
  label? : Spot → Option Label
  /-- The slot of the return value. -/
  slot? : Option TempSlot
  /-- The labels below are those of blocks and of suspension points. -/
  bound : Nat
  /-- The spots that control gets to, by itself or when a generator is invoked. -/
  joins : Spot → Prop
  /-- The handlers of protected regions. -/
  catches : BlockId → Prop

/-- In lists that match, what is in one has its match in the other. -/
theorem exists_of_forall₂ {α β : Type} {R : α → β → Prop} {as : List α} {bs : List β}
    (h : List.Forall₂ R as bs) {a : α} (ha : a ∈ as) : ∃ b ∈ bs, R a b := by
  induction h with
  | nil => cases ha
  | cons hab _ ih =>
    rcases List.mem_cons.1 ha with rfl | ha
    · exact ⟨_, List.mem_cons_self, hab⟩
    · obtain ⟨b, hb, hR⟩ := ih ha
      exact ⟨b, List.mem_cons_of_mem _ hb, hR⟩

theorem exists_run_of_mem {code : List Instr} :
    ∀ op ∈ code.map (fun i => Op.run i.erased), ∃ i, op = .run i := by
  intro op hop
  obtain ⟨i, -, rfl⟩ := List.mem_map.1 hop
  exact ⟨_, rfl⟩

/-- The directives come to the operations. -/
inductive Renders (r : Reading) : Bool → List Directive → List Op → Bool → Prop
  | nil (v : Bool) : Renders r v [] [] v
  | note {v w : Bool} {i : Instr} {ds : List Directive} {ops : List Op} (hi : i.isNote = true)
      (rest : Renders r v ds ops w) : Renders r v (.instr i :: ds) ops w
  | run {v w : Bool} {i : Instr} {ds : List Directive} {ops : List Op} (hi : i.isStraight = true)
      (rest : Renders r (v && !i.endsFlow) ds ops w) :
      Renders r v (.instr i :: ds) (.run i.erased :: ops) w
  | stage {v w : Bool} {slot : TempSlot} {ds : List Directive} {ops : List Op}
      (hslot : r.slot? = some slot) (rest : Renders r v ds ops w) :
      Renders r v (.stageReturn :: .instr (.storeTemp slot) :: ds) (.stage :: ops) w
  | guard {v w : Bool} {l : Label} {body : List Instr} {ds : List Directive} {ops : List Op}
      (hl : r.bound ≤ l.index)
      (inner : Renders r v (body.map .instr) (body.map fun i => .run i.erased) v)
      (rest : Renders r v ds ops w) :
      Renders r v (.instr (.branchIf true l) :: (body.map .instr ++ .mark l .forward :: ds))
        (.guard body :: ops) w
  | enter {v w : Bool} {l : Label} {h : BlockId} {ds : List Directive} {ops : List Op}
      (hl : r.label? (.block h) = some l) (hh : r.catches h)
      (rest : Renders r v ds ops w) : Renders r v (.instr (.enterTry l) :: ds) (.enter h :: ops) w
  | goto {v w : Bool} {s : Spot} {l : Label} {ds : List Directive} {ops : List Op}
      (hl : r.label? s = some l) (hs : v = true → r.joins s) (rest : Renders r false ds ops w) :
      Renders r v (.instr (.branch l) :: ds) (.goto s :: ops) w
  | suspend {v w : Bool} {index : Int} {l : Label} {ds : List Directive} {ops : List Op}
      (hl : r.label? (.resume index) = some l) (rest : Renders r true ds ops w) :
      Renders r v (.instr (.ret false) :: .mark l .forward :: ds) (.suspend index :: ops) w
  | settle {v w : Bool} {ds : List Directive} {ops : List Op} (rest : Renders r v ds ops w) :
      Renders r v (.endStatement :: ds) (.settle :: ops) w

namespace Renders

variable {r : Reading} {u v w : Bool} {ds ds' : List Directive} {ops ops' : List Op}

theorem append (h : Renders r u ds ops v) (h' : Renders r v ds' ops' w) :
    Renders r u (ds ++ ds') (ops ++ ops') w := by
  induction h with
  | nil => exact h'
  | note hi _ ih => exact .note hi (ih h')
  | run hi _ ih => exact .run hi (ih h')
  | stage hslot _ ih => exact .stage hslot (ih h')
  | guard hl inner _ _ ih =>
    rw [List.cons_append, List.append_assoc]
    exact .guard hl inner (ih h')
  | enter hl hh _ ih => exact .enter hl hh (ih h')
  | goto hl hs _ ih => exact .goto hl hs (ih h')
  | suspend hl _ ih => exact .suspend hl (ih h')
  | settle _ ih => exact .settle (ih h')

/-- An instruction that passes control on. -/
theorem step {i : Instr} (hi : i.isStraight = true) (hf : i.endsFlow = false)
    (h : Renders r v ds ops w) : Renders r v (.instr i :: ds) (.run i.erased :: ops) w := by
  refine .run hi ?_
  rw [hf, Bool.not_false, Bool.and_true]
  exact h

/-- Plain code is what it says. -/
theorem ofPlain {α : Type} {x : Fragment α} (hx : x.IsPlain) (v : Bool) :
    Renders r v (x.code.map .instr) x.ops v := by
  obtain ⟨code, result⟩ := x
  change ∀ i ∈ code, i.isPlain = true at hx
  change Renders r v (code.map .instr) (code.map fun i => .run i.erased) v
  induction code with
  | nil => exact .nil v
  | cons i is ih =>
    have hi := hx i List.mem_cons_self
    exact .step (Instr.isStraight_of_isPlain hi) (Instr.endsFlow_of_isPlain hi)
      (ih fun j hj => hx j (List.mem_cons_of_mem i hj))

/-- Plain code with more behind it. -/
theorem plain_append {α : Type} {x : Fragment α} (hx : x.IsPlain) (h : Renders r v ds ops w) :
    Renders r v (x.code.map .instr ++ ds) (x.ops ++ ops) w := (ofPlain hx v).append h

theorem allocation_append {slot : TempSlot} {isNew : Bool} {ty : Ty} (h : Renders r v ds ops w) :
    Renders r v (Draft.allocation slot isNew ty ++ ds) ops w := by
  unfold Draft.allocation
  split
  · exact .note rfl h
  · exact h

end Renders

/-- What the end of a block may come to, where the spot `next` follows. -/
inductive Ends (r : Reading) (next : Option Spot) (v : Bool) : List Directive → List Op → Prop
  | fall {s : Spot} (hnext : next = some s) (hs : v = true → r.joins s) : Ends r next v [] [.goto s]
  | jump {s : Spot} {l : Label} (hl : r.label? s = some l) (hs : v = true → r.joins s) :
      Ends r next v [.instr (.branch l)] [.goto s]
  | forkFall {s t : Spot} {l : Label} (when : Bool)
      (hl : r.label? (if when then s else t) = some l)
      (hnext : next = some (if when then t else s)) (hs : v = true → r.joins s)
      (ht : v = true → r.joins t) : Ends r next v [.instr (.branchIf when l)] [.fork s t]
  | forkJump {s t : Spot} {l m : Label} (hl : r.label? s = some l) (hm : r.label? t = some m)
      (hs : v = true → r.joins s) (ht : v = true → r.joins t) :
      Ends r next v [.instr (.branchIf true l), .instr (.branch m)] [.fork s t]
  | select {cases : List (Int × Spot)} {table : List (Int × Label)} {default : Spot} {l : Label}
      (hcases : List.Forall₂ (fun c e => c.1 = e.1 ∧ r.label? c.2 = some e.2) cases table)
      (hl : r.label? default = some l) (hs : ∀ c ∈ cases, v = true → r.joins c.2)
      (hdefault : v = true → r.joins default) :
      Ends r next v [.instr (.switch table l)] [.select cases default]
  | leave {s : Spot} {l : Label} (hl : r.label? s = some l) (hs : v = true → r.joins s) :
      Ends r next v [.instr (.leave l)] [.leave s]
  | dangle (b : BlockId) : Ends r next v [.endBlock b] [.dangle]

/-- The directives are some that render operations, and an end of a block, which control gets to
if `w`. -/
inductive RendersEnd (r : Reading) (next : Option Spot) (v : Bool) :
    List Directive → List Op → Bool → Prop
  | intro {w : Bool} {ds₁ ds₂ : List Directive} {ops₁ ops₂ : List Op}
      (front : Renders r v ds₁ ops₁ w) (back : Ends r next w ds₂ ops₂) :
      RendersEnd r next v (ds₁ ++ ds₂) (ops₁ ++ ops₂) w

namespace RendersEnd

variable {r : Reading} {next : Option Spot} {u v w : Bool} {ds ds' : List Directive}
  {ops ops' : List Op}

theorem ofEnds (h : Ends r next v ds ops) : RendersEnd r next v ds ops v := .intro (.nil v) h

theorem prepend (h : Renders r u ds ops v) (h' : RendersEnd r next v ds' ops' w) :
    RendersEnd r next u (ds ++ ds') (ops ++ ops') w := by
  cases h' with
  | intro front back =>
    rw [← List.append_assoc, ← List.append_assoc]
    exact .intro (h.append front) back

end RendersEnd

end StackCode
