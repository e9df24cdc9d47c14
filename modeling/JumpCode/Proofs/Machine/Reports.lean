import JumpCode.Proofs.Machine.Frames

/-!
# What a run reports

A run reports its outcome, how many steps it has counted, and the instructions it has noted.  The
outcome is known from `outcome_eq`.  Here the other two are told by the states that the machine
goes through: `executed` lists the instructions of the first steps.  The trace is this list
(`run_trace`), and the count is its length and one more if the run was stopped (`run_steps`).

So two runs that take the same steps from the same state report the same (`run_congr`).  The
routines and the limit on the depth of calls come into a step through the call it makes and in no
other way (`step_congr`).
-/

namespace JumpCode.Machine

variable {rs rs' : List Routine} {D D' : Nat} {entry : String} {args : List Value}

/-! ### Executed instructions -/

/-- The instruction that the machine runs next, and where it stands. -/
def traced? (m : Machine) : Option Traced := m.top.instr?.map fun i => ⟨m.top.site, i⟩

/-- The instructions that are run in the first `n` steps, in order. -/
def executed (rs : List Routine) (D : Nat) : Nat → Next → List Traced
  | n + 1, .running m => m.traced?.toList ++ executed rs D n (step rs D m)
  | _, _ => []

/-- One if the machine would go on, for the step that it is not granted. -/
def refusedStep : Next → Nat
  | .running _ => 1
  | .finished _ | .failed _ => 0

@[simp]
theorem executed_zero (x : Next) : executed rs D 0 x = [] := rfl

theorem executed_running (n : Nat) (m : Machine) :
    executed rs D (n + 1) (.running m) = m.traced?.toList ++ executed rs D n (step rs D m) := rfl

@[simp]
theorem executed_finished (n : Nat) (v : Option Value) : executed rs D n (.finished v) = [] := by
  cases n <;> rfl

@[simp]
theorem executed_failed (n : Nat) (e : Fault) : executed rs D n (.failed e) = [] := by
  cases n <;> rfl

/-- A machine at rest runs one instruction in a step. -/
theorem length_executed_succ {m : Machine} (h : Rests rs D (.running m)) (n : Nat) :
    (executed rs D (n + 1) (.running m)).length = (executed rs D n (step rs D m)).length + 1 := by
  obtain ⟨i, hi⟩ := h.2
  simp [executed_running, traced?, hi, Nat.add_comm]

theorem length_executed_le {x : Next} (h : Rests rs D x) (n : Nat) :
    (executed rs D n x).length ≤ n := by
  induction n generalizing x with
  | zero => simp
  | succ n ih =>
    cases x with
    | running m =>
      rw [length_executed_succ h]
      exact Nat.succ_le_succ (ih (step_rests h))
    | finished v => simp
    | failed e => simp

/-- A machine that is still running has run an instruction in every step. -/
theorem length_executed_of_running {x : Next} (h : Rests rs D x) {n : Nat} {m : Machine}
    (hgo : go rs D n x = .running m) : (executed rs D n x).length = n := by
  induction n generalizing x with
  | zero => simp
  | succ n ih =>
    cases x with
    | running m' => rw [length_executed_succ h, ih (step_rests h) hgo]
    | finished v => simp at hgo
    | failed e => simp at hgo

/-- After the last instruction that is run nothing changes any more. -/
theorem go_length_executed {x : Next} (h : Rests rs D x) (n : Nat) :
    go rs D (executed rs D n x).length x = go rs D n x := by
  induction n generalizing x with
  | zero => simp
  | succ n ih =>
    cases x with
    | running m =>
      rw [length_executed_succ h]
      exact ih (step_rests h)
    | finished v => simp
    | failed e => simp

/-- Before the last instruction that is run the machine is running. -/
theorem running_of_lt_length_executed {x : Next} (h : Rests rs D x) {n k : Nat}
    (hk : k < (executed rs D n x).length) : ∃ m, go rs D k x = .running m := by
  induction n generalizing x k with
  | zero => simp at hk
  | succ n ih =>
    cases x with
    | running m =>
      cases k with
      | zero => exact ⟨m, rfl⟩
      | succ k =>
        rw [length_executed_succ h] at hk
        exact ih (step_rests h) (Nat.lt_of_succ_lt_succ hk)
    | finished v => simp at hk
    | failed e => simp at hk

/-! ### Counts and traces -/

theorem note_toList (tracing : Bool) (t : Array Traced) (m : Machine) :
    (note tracing t m).toList = t.toList ++ if tracing then m.traced?.toList else [] := by
  unfold note traced?
  cases tracing with
  | false => simp
  | true => cases m.top.instr? <;> simp

theorem runFrom_trace (options : RunOptions) (n s : Nat) (t : Array Traced) (m : Machine) :
    (runFrom rs options n s t m).trace.toList =
      t.toList ++ if options.trace then executed rs options.maxDepth n (.running m) else [] := by
  induction n generalizing s t m with
  | zero => simp [runFrom]
  | succ n ih =>
    rw [runFrom]
    cases hstep : step rs options.maxDepth m with
    | running m' =>
      simp only [ih, note_toList, executed_running, hstep]
      split <;> simp
    | finished v =>
      simp only [note_toList, executed_running, hstep, executed_finished]
      split <;> simp
    | failed e =>
      simp only [note_toList, executed_running, hstep, executed_failed]
      split <;> simp

theorem runFrom_steps (options : RunOptions) (n s : Nat) (t : Array Traced) {m : Machine}
    (h : Rests rs options.maxDepth (.running m)) :
    (runFrom rs options n s t m).steps =
      s + (executed rs options.maxDepth n (.running m)).length +
        refusedStep (go rs options.maxDepth n (.running m)) := by
  induction n generalizing s t m with
  | zero => simp [runFrom, go, refusedStep]
  | succ n ih =>
    have hnext := step_rests h
    rw [runFrom, length_executed_succ h, go, onward]
    cases hstep : step rs options.maxDepth m with
    | running m' =>
      rw [hstep] at hnext
      simp only [ih _ _ hnext]
      omega
    | finished v => simp [refusedStep]
    | failed e => simp [refusedStep]

/-- The trace of a run is the list of the instructions it has run, if they were to be noted. -/
theorem run_trace (maxSteps D : Nat) (trace : Bool) :
    (run rs entry args ⟨maxSteps, D, trace⟩).trace.toList =
      if trace then executed rs D maxSteps (start rs D entry args) else [] := by
  rw [run, start, entering]
  cases call rs D entry args 0 .entry with
  | error e => simp
  | ok f =>
    simp only
    cases rest f [] with
    | running m => simp [runFrom_trace]
    | finished v => simp
    | failed e => simp

/-- A run counts the instructions it has run, and one more if it was stopped. -/
theorem run_steps (maxSteps D : Nat) (trace : Bool) :
    (run rs entry args ⟨maxSteps, D, trace⟩).steps =
      (executed rs D maxSteps (start rs D entry args)).length +
        refusedStep (go rs D maxSteps (start rs D entry args)) := by
  have hrests : Rests rs D (start rs D entry args) := start_rests
  rw [start, entering] at hrests ⊢
  rw [run]
  cases hcall : call rs D entry args 0 .entry with
  | error e => simp [refusedStep]
  | ok f =>
    simp only [hcall] at hrests ⊢
    cases hrest : rest f [] with
    | running m =>
      rw [hrest] at hrests
      simp [runFrom_steps ⟨maxSteps, D, trace⟩ _ _ _ hrests]
    | finished v => simp [refusedStep]
    | failed e => simp [refusedStep]

/-! ### Runs that take the same steps -/

/-- Of the routines and the limit on the depth, a step depends only on the call that it makes. -/
theorem step_congr {m : Machine}
    (h : ∀ d name regs, m.top.instr? = some (.call d name regs) →
      call rs' D' name (regs.map m.top.reg) (m.top.depth + 1) m.top.site =
        call rs D name (regs.map m.top.reg) (m.top.depth + 1) m.top.site) :
    step rs' D' m = step rs D m := by
  obtain ⟨f, cs⟩ := m
  rw [step, step]
  cases hi : f.instr? with
  | none => rfl
  | some i =>
    cases i with
    | call d name regs => simp only [exec, h d name regs hi]
    | _ => rfl

theorem runFrom_congr {maxSteps n : Nat} {trace : Bool} (s : Nat) (t : Array Traced) {m : Machine}
    (h : ∀ k < n, ∀ m', go rs D k (.running m) = .running m' → step rs' D' m' = step rs D m') :
    runFrom rs' ⟨maxSteps, D', trace⟩ n s t m = runFrom rs ⟨maxSteps, D, trace⟩ n s t m := by
  induction n generalizing s t m with
  | zero => rw [runFrom, runFrom]
  | succ n ih =>
    rw [runFrom, runFrom, h 0 (Nat.zero_lt_succ n) m rfl]
    cases hstep : step rs D m with
    | running m₁ =>
      apply ih
      intro k hk m' hgo
      refine h (k + 1) (Nat.succ_lt_succ hk) m' ?_
      rw [go, onward, hstep, hgo]
    | finished v => rfl
    | failed e => rfl

/-- Runs that start in the same state and take the same steps report the same. -/
theorem run_congr {maxSteps : Nat} {trace : Bool}
    (hstart : start rs' D' entry args = start rs D entry args)
    (hstep : ∀ k < maxSteps, ∀ m, go rs D k (start rs D entry args) = .running m →
      step rs' D' m = step rs D m) :
    run rs' entry args ⟨maxSteps, D', trace⟩ = run rs entry args ⟨maxSteps, D, trace⟩ := by
  rw [start, start, entering, entering] at hstart
  rw [start, entering] at hstep
  rw [run, run]
  cases hcall : call rs D entry args 0 .entry with
  | error e =>
    cases hcall' : call rs' D' entry args 0 .entry with
    | error e' =>
      simp only [hcall, hcall'] at hstart
      cases hstart
      rfl
    | ok f' =>
      simp only [hcall, hcall'] at hstart
      exact absurd hstart (rest_ne_failed _ _ _)
  | ok f =>
    cases hcall' : call rs' D' entry args 0 .entry with
    | error e' =>
      simp only [hcall, hcall'] at hstart
      exact absurd hstart.symm (rest_ne_failed _ _ _)
    | ok f' =>
      simp only [hcall, hcall'] at hstart hstep ⊢
      rw [hstart]
      cases hrest : rest f [] with
      | running m =>
        rw [hrest] at hstep
        exact runFrom_congr 0 #[] hstep
      | finished v => rfl
      | failed e => rfl

end JumpCode.Machine
