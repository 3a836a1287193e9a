/-!
# Runs of deterministic systems

A system goes on from a control point and a memory, comes to an end, or gets stuck.  One system
simulates another if it gets, from matching points, to points that match again, with at least one
step of its own for each step of the other; then the two show the same, however long they run
(`Run.simulates`, `Run.refines_of_shows`).  The memory of the first may hold more than that of the
second, which is a view of it.
-/

namespace StackCode

/-- What a step, or some steps, have come to: `S` are the control points, `M` the memories. -/
inductive Run (S M : Type) where
  | on (s : S) (m : M)
  | done (m : M)
  | stuck (m : M)

namespace Run

variable {S T M N : Type}

/-- The memory that has been come to. -/
def memory : Run S M → M
  | on _ m | done m | stuck m => m

/-- Goes on, where there is something to go on with. -/
def andThen (x : Run S M) (f : S → M → Run T M) : Run T M :=
  match x with
  | on s m => f s m
  | done m => done m
  | stuck m => stuck m

/-- What `n` steps come to. -/
def after (step : S → M → Run S M) (x : Run S M) : Nat → Run S M
  | 0 => x
  | n + 1 => after step (x.andThen step) n

section
variable {step : S → M → Run S M}

theorem after_add (x : Run S M) (n k : Nat) :
    x.after step (n + k) = (x.after step n).after step k := by
  induction n generalizing x with
  | zero => rw [Nat.zero_add]; rfl
  | succ n ih =>
    rw [Nat.add_right_comm]
    exact ih _

theorem after_succ (x : Run S M) (n : Nat) :
    x.after step (n + 1) = (x.after step n).andThen step := after_add x n 1

@[simp] theorem after_done (m : M) (n : Nat) : (done m : Run S M).after step n = done m := by
  induction n with
  | zero => rfl
  | succ n ih => exact ih

@[simp] theorem after_stuck (m : M) (n : Nat) : (stuck m : Run S M).after step n = stuck m := by
  induction n with
  | zero => rfl
  | succ n ih => exact ih

/-- What every step keeps up holds of any number of them. -/
theorem le_after {le : M → M → Prop} (hrefl : ∀ m, le m m)
    (htrans : ∀ {a b c}, le a b → le b c → le a c) (hstep : ∀ s m, le m (step s m).memory)
    (x : Run S M) (n : Nat) : le x.memory (x.after step n).memory := by
  induction n generalizing x with
  | zero => exact hrefl _
  | succ n ih =>
    refine htrans ?_ (ih (x.andThen step))
    cases x with
    | on s m => exact hstep s m
    | done m => exact hrefl m
    | stuck m => exact hrefl m

/-- A system that goes on like another comes to the same points, in as many steps. -/
theorem after_mono {step' : S → M → Run S M}
    (hstep : ∀ s m s' m', step s m = .on s' m' → step' s m = .on s' m') {n : Nat} {s s' : S}
    {m m' : M} (h : (on s m).after step n = .on s' m') : (on s m).after step' n = .on s' m' := by
  induction n generalizing s m with
  | zero => exact h
  | succ n ih =>
    change Run.after step (step s m) n = .on s' m' at h
    change Run.after step' (step' s m) n = .on s' m'
    cases hfirst : step s m with
    | on s₁ m₁ =>
      rw [hfirst] at h
      rw [hstep s m s₁ m₁ hfirst]
      exact ih h
    | done m₁ =>
      rw [hfirst, after_done] at h
      cases h
    | stuck m₁ =>
      rw [hfirst, after_stuck] at h
      cases h

end

/-- Some steps lead from a point to what they come to. -/
def Leads (step : S → M → Run S M) (x y : Run S M) : Prop := ∃ n, x.after step n = y

namespace Leads

variable {step : S → M → Run S M} {x y z : Run S M}

theorem refl (x : Run S M) : Leads step x x := ⟨0, rfl⟩

theorem trans (h : Leads step x y) (h' : Leads step y z) : Leads step x z := by
  obtain ⟨n, rfl⟩ := h
  obtain ⟨k, rfl⟩ := h'
  exact ⟨n + k, after_add x n k⟩

/-- One step, and what it leads to. -/
theorem of_step {s : S} {m : M} (h : Leads step (step s m) y) : Leads step (.on s m) y := by
  obtain ⟨n, hn⟩ := h
  exact ⟨n + 1, hn⟩

/-- Where steps lead to a point, what comes of one more step comes of at least one. -/
theorem step_of {s s' : S} {m m' : M} (h : Leads step (.on s m) (.on s' m'))
    (h' : Leads step (step s' m') y) : Leads step (step s m) y := by
  obtain ⟨n, hn⟩ := h
  obtain ⟨k, hk⟩ := h'
  refine ⟨n + k, ?_⟩
  have hlast : Run.after step (.on s m) (n + (k + 1)) = y := by
    rw [after_add, hn]
    exact hk
  exact hlast

/-- It takes a step to come to an end. -/
theorem step_of_done {s : S} {m m' : M} (h : Leads step (.on s m) (.done m')) :
    Leads step (step s m) (.done m') := by
  obtain ⟨n, hn⟩ := h
  cases n with
  | zero => cases hn
  | succ n => exact ⟨n, hn⟩

/-- A system that goes on like another leads to the same points. -/
theorem mono {step' : S → M → Run S M}
    (hstep : ∀ s m s' m', step s m = .on s' m' → step' s m = .on s' m') {s s' : S} {m m' : M}
    (h : Leads step (.on s m) (.on s' m')) : Leads step' (.on s m) (.on s' m') := by
  obtain ⟨n, hn⟩ := h
  exact ⟨n, after_mono hstep hn⟩

end Leads

/-- Two runs have got to points that match, or to the same end. -/
inductive Agrees (view : M → N) (R : S → T → M → Prop) (E : M → Prop) : Run S M → Run T N → Prop
  | on {s : S} {t : T} {m : M} (h : R s t m) : Agrees view R E (.on s m) (.on t (view m))
  | done {m : M} (h : E m) : Agrees view R E (.done m) (.done (view m))

/-- Two runs show the same: none is stuck, both or none have come to an end, and the memories
match. -/
inductive Shows (view : M → N) : Run S M → Run T N → Prop
  | on (s : S) (t : T) (m : M) : Shows view (.on s m) (.on t (view m))
  | done (m : M) : Shows view (.done m) (.done (view m))

section
variable {view : M → N} {R : S → T → M → Prop} {E : M → Prop} {stepS : S → M → Run S M}
  {stepT : T → N → Run T N} {x : Run S M} {y : Run T N}

theorem Agrees.shows (h : Agrees view R E x y) : Shows view x y := by
  cases h with
  | on _ => exact .on _ _ _
  | done _ => exact .done _

theorem Shows.memory_eq (h : Shows view x y) : view x.memory = y.memory := by
  cases h <;> rfl

/-- A system that makes at least one step from matching points for every step of the other keeps up
with it. -/
theorem simulates
    (hstep : ∀ s t m, R s t m →
      ∃ x, Leads stepS (stepS s m) x ∧ Agrees view R E x (stepT t (view m)))
    (h : Agrees view R E x y) (k : Nat) :
    ∃ n, k ≤ n ∧ Agrees view R E (x.after stepS n) (y.after stepT k) := by
  induction k generalizing x y with
  | zero => exact ⟨0, Nat.le_refl 0, h⟩
  | succ k ih =>
    cases h with
    | on hR =>
      obtain ⟨z, ⟨n, hn⟩, hagrees⟩ := hstep _ _ _ hR
      obtain ⟨n', hle, hagrees'⟩ := ih hagrees
      refine ⟨n + n' + 1, by omega, ?_⟩
      change Agrees view R E (Run.after stepS (stepS _ _) (n + n')) (Run.after stepT (stepT _ _) k)
      rw [after_add, hn]
      exact hagrees'
    | done hE =>
      refine ⟨k + 1, Nat.le_refl _, ?_⟩
      rw [after_done, after_done]
      exact .done hE

/-- A system and another one show the same, however long they run: it comes to everything that the
other comes to, it is never stuck, and what it has come to is the beginning of what the other comes to;
if it has ended, so has the other, with the same. -/
structure Refines (view : M → N) (le : M → M → Prop) (x : Nat → Run S M) (y : Nat → Run T N) : Prop
    where
  forth : ∀ k, ∃ n, k ≤ n ∧ Shows view (x n) (y k)
  back : ∀ n, ∃ k m, le (x n).memory m ∧ view m = (y k).memory
  not_stuck : ∀ n m, x n ≠ .stuck m
  done : ∀ n m, x n = .done m → ∃ k, y k = .done (view m)

/-- A system refines another one that it keeps up with. -/
theorem refines_of_shows {le : M → M → Prop} (hrefl : ∀ m, le m m)
    (htrans : ∀ {a b c}, le a b → le b c → le a c) (hstep : ∀ s m, le m (stepS s m).memory)
    (h : ∀ k, ∃ n, k ≤ n ∧ Shows view (x.after stepS n) (y.after stepT k)) :
    Refines view le (x.after stepS) (y.after stepT) := by
  have hlater (n : Nat) : ∃ d, Shows view ((x.after stepS n).after stepS d) (y.after stepT n) := by
    obtain ⟨n', hle, hshows⟩ := h n
    obtain ⟨d, rfl⟩ := Nat.exists_eq_add_of_le hle
    rw [after_add] at hshows
    exact ⟨d, hshows⟩
  refine ⟨h, fun n => ?_, fun n m hstuck => ?_, fun n m hdone => ?_⟩
  · obtain ⟨d, hshows⟩ := hlater n
    exact ⟨n, _, le_after hrefl htrans hstep _ d, hshows.memory_eq⟩
  · obtain ⟨d, hshows⟩ := hlater n
    rw [hstuck, after_stuck] at hshows
    cases hshows
  · obtain ⟨d, hshows⟩ := hlater n
    rw [hdone, after_done] at hshows
    refine ⟨n, ?_⟩
    generalize y.after stepT n = z at hshows
    cases hshows
    rfl

end

end Run

end StackCode
