import JumpCode.Proofs.Machine.Reports

/-!
# The limits of a run

A run is granted a number of steps and a depth of calls.  Both limits are exact, and beyond what a
run needs they make no difference.  This holds of all routines, whether or not they came from a
program.

What the machine does after some steps does not depend on how many it is granted.  So the number of
instructions that a run executes until it is over is the least number of steps that lets it end, and
any larger number lets it end in the same way.  The depth comes in when a call is made: a call that
was not refused for its depth is made in the same way if more depth is allowed.
-/

namespace JumpCode

/-- Two runs come to the same outcome and count the same number of steps. -/
def RunReport.Agrees (r r' : RunReport) : Prop := r.outcome = r'.outcome ∧ r.steps = r'.steps

namespace Machine

variable {rs : List Routine} {D D' : Nat} {entry : String} {args : List Value}

/-! ### Frames -/

/-- The frames that are there at some moment of a run, the newest first.  Between two steps these are
    the frames of the machine.  A call puts the frame of its callee on them, which is gone again at
    once if the callee has no instruction to run. -/
inductive Alive (rs : List Routine) (D : Nat) (entry : String) (args : List Value) :
    List Frame → Prop where
  | entered {f : Frame} : call rs D entry args 0 .entry = .ok f → Alive rs D entry args [f]
  | between {m : Machine} : InRun rs D entry args m → Alive rs D entry args m.frames
  | called {m : Machine} {d : Reg} {name : String} {regs : List Reg} {g : Frame} :
      InRun rs D entry args m → m.top.instr? = some (.call d name regs) →
        call rs D name (regs.map m.top.reg) (m.top.depth + 1) m.top.site = .ok g →
          Alive rs D entry args (g :: m.frames)

theorem Alive.stacked {frames : List Frame} (h : Alive rs D entry args frames) :
    Stacked rs D frames := by
  cases h with
  | entered hf => exact Stacked.enter trivial hf
  | between hm => exact hm.rests.1
  | called hm _ hg =>
    have hstack := hm.rests.1
    rw [hstack.2.1] at hg
    exact hstack.enter hg

/-! ### Steps -/

/-- The machine itself never fails for lack of steps. -/
theorem go_ne_stepLimit {n limit : Nat} {site : Site} :
    go rs D n (start rs D entry args) ≠ .failed ⟨.stepLimit limit, site⟩ := by
  intro hgo
  rcases exists_step_of_go hgo with hstart | ⟨m, hreach, hstep⟩
  · cases isAboutCall_of_call (start_eq_failed hstart)
  · have hm : InRun rs D entry args m := hreach
    rcases hm.fault_of_step hstep with hzero | ⟨i, l, _, _, _, hlabel⟩ | ⟨d, name, regs, _, hcall⟩
    · simp at hzero
    · simp at hlabel
    · cases isAboutCall_of_call hcall

variable {m : Nat} {t : Bool}

/-- A run is stopped for lack of steps exactly if the machine is still running when they are used
    up. -/
theorem failsWith_stepLimit_iff {limit : Nat} :
    (run rs entry args ⟨m, D, t⟩).FailsWith (.stepLimit limit) ↔
      limit = m ∧ ∃ k, go rs D m (start rs D entry args) = .running k := by
  unfold RunReport.FailsWith
  rw [outcome_eq]
  cases hgo : go rs D m (start rs D entry args) with
  | running k => simp [outcomeAt, eq_comm]
  | finished v => simp [outcomeAt]
  | failed e =>
    simp only [outcomeAt, Except.error.injEq, reduceCtorEq, exists_false, and_false, iff_false]
    rintro ⟨site, rfl⟩
    exact go_ne_stepLimit hgo

theorem haltsIn_of_not_failsWith (h : ¬(run rs entry args ⟨m, D, t⟩).FailsWith (.stepLimit m)) :
    HaltsIn rs D m (start rs D entry args) := by
  intro k hk
  exact h (failsWith_stepLimit_iff.mpr ⟨rfl, k, hk⟩)

/-- When its steps are used up, the machine is running or has come to an end. -/
theorem running_or_haltsIn (m : Nat) (x : Next) :
    (∃ k, go rs D m x = .running k) ∨ HaltsIn rs D m x := by
  unfold HaltsIn
  cases go rs D m x with
  | running k => exact Or.inl ⟨k, rfl⟩
  | finished v => exact Or.inr nofun
  | failed e => exact Or.inr nofun

/-- A run that is stopped has run as many instructions as it was granted steps, and counts one
    more. -/
theorem steps_of_running {k : Machine} (h : go rs D m (start rs D entry args) = .running k) :
    (run rs entry args ⟨m, D, t⟩).steps = m + 1 := by
  rw [run_steps, length_executed_of_running start_rests h, h]
  rfl

/-- A run that comes to an end counts the instructions that it has run. -/
theorem steps_of_halted (h : HaltsIn rs D m (start rs D entry args)) :
    (run rs entry args ⟨m, D, t⟩).steps = (executed rs D m (start rs D entry args)).length := by
  rw [run_steps]
  cases hgo : go rs D m (start rs D entry args) with
  | running k => exact absurd hgo (h k)
  | finished v => rfl
  | failed e => rfl

theorem steps_le : (run rs entry args ⟨m, D, t⟩).steps ≤ m + 1 := by
  rcases running_or_haltsIn m (start rs D entry args) with ⟨k, hk⟩ | h
  · exact Nat.le_of_eq (steps_of_running hk)
  · rw [steps_of_halted h]
    exact Nat.le_succ_of_le (length_executed_le start_rests m)

/-- The step that was not granted is counted exactly if a run is stopped for lack of it. -/
theorem steps_eq_succ_iff :
    (run rs entry args ⟨m, D, t⟩).steps = m + 1 ↔
      ∃ limit, (run rs entry args ⟨m, D, t⟩).FailsWith (.stepLimit limit) := by
  constructor
  · intro hsteps
    rcases running_or_haltsIn m (start rs D entry args) with ⟨k, hk⟩ | h
    · exact ⟨m, failsWith_stepLimit_iff.mpr ⟨rfl, k, hk⟩⟩
    · rw [steps_of_halted h] at hsteps
      have hle : (executed rs D m (start rs D entry args)).length ≤ m :=
        length_executed_le start_rests m
      omega
  · rintro ⟨limit, hfails⟩
    obtain ⟨-, k, hk⟩ := failsWith_stepLimit_iff.mp hfails
    exact steps_of_running hk

/-- What has come to an end is in the same state, and has run the same number of instructions, after
    any number of steps that is not less than that number. -/
theorem halts_of_le {n : Nat} {x : Next} (hrests : Rests rs D x) (h : HaltsIn rs D m x)
    (hn : (executed rs D m x).length ≤ n) :
    go rs D n x = go rs D m x ∧
      (executed rs D n x).length = (executed rs D m x).length := by
  have hlast := go_length_executed hrests m
  have hover : HaltsIn rs D (executed rs D m x).length x := by
    intro k hk
    rw [hlast] at hk
    exact h k hk
  have hsame : go rs D n x = go rs D m x := by
    obtain ⟨more, rfl⟩ := Nat.exists_eq_add_of_le hn
    rw [go_add, go_of_halted hover, hlast]
  refine ⟨hsame, ?_⟩
  -- Neither number of instructions can be less, as the machine is running before the last one.
  rcases Nat.lt_trichotomy (executed rs D n x).length (executed rs D m x).length with
    hlt | heq | hlt
  · obtain ⟨k, hk⟩ := running_of_lt_length_executed hrests hlt
    rw [go_length_executed hrests, hsame] at hk
    exact absurd hk (h k)
  · exact heq
  · obtain ⟨k, hk⟩ := running_of_lt_length_executed hrests hlt
    exact absurd hk (hover k)

/-- A run that comes to an end comes to the same end if it is granted any number of steps that is not
    less than its count. -/
theorem agrees_of_steps_le (h : ¬(run rs entry args ⟨m, D, t⟩).FailsWith (.stepLimit m)) {n : Nat}
    (hn : (run rs entry args ⟨m, D, t⟩).steps ≤ n) :
    (run rs entry args ⟨n, D, t⟩).Agrees (run rs entry args ⟨m, D, t⟩) := by
  have hhalts := haltsIn_of_not_failsWith h
  rw [steps_of_halted hhalts] at hn
  obtain ⟨hgo, hlength⟩ := halts_of_le start_rests hhalts hn
  have hhalts' : HaltsIn rs D n (start rs D entry args) := by
    intro k hk
    exact hhalts k (hgo ▸ hk)
  constructor
  · rw [outcome_eq, outcome_eq, hgo]
    cases hend : go rs D m (start rs D entry args) with
    | running k => exact absurd hend (hhalts k)
    | finished v => rfl
    | failed e => rfl
  · rw [steps_of_halted hhalts, steps_of_halted hhalts', hlength]

/-- With fewer steps than it needs to come to an end, a run is stopped. -/
theorem stopped_of_lt_steps (h : ¬(run rs entry args ⟨m, D, t⟩).FailsWith (.stepLimit m)) {n : Nat}
    (hn : n < (run rs entry args ⟨m, D, t⟩).steps) :
    (run rs entry args ⟨n, D, t⟩).FailsWith (.stepLimit n) ∧
      (run rs entry args ⟨n, D, t⟩).steps = n + 1 := by
  rw [steps_of_halted (haltsIn_of_not_failsWith h)] at hn
  obtain ⟨k, hk⟩ := running_of_lt_length_executed start_rests hn
  exact ⟨failsWith_stepLimit_iff.mpr ⟨rfl, k, hk⟩, steps_of_running hk⟩

/-! ### Depth -/

/-- A call that is not refused for its depth is made in the same way if more depth is allowed. -/
theorem call_deeper (hD : D ≤ D') {name : String} {vs : List Value} {depth : Nat} {site : Site}
    (h : call rs D name vs depth site ≠ .error ⟨.callDepth D, site⟩) :
    call rs D' name vs depth site = call rs D name vs depth site := by
  unfold call at *
  cases hr : Routine.find? rs name with
  | none => rfl
  | some r =>
    simp only [hr] at h ⊢
    by_cases hargs : r.paramCount = vs.length
    · by_cases hdepth : D < depth
      · simp [hargs, hdepth] at h
      · have hdepth' : ¬D' < depth := by omega
        simp [hdepth, hdepth']
    · simp [hargs]

/-- The call that starts a run is nested in no other, so it cannot be too deep. -/
theorem start_deeper : start rs D' entry args = start rs D entry args := by
  have hcall : call rs D' entry args 0 .entry = call rs D entry args 0 .entry := by
    simp [call]
  rw [start, start, entering, entering, hcall]

/-- A step that does not go too deep is the same if more depth is allowed. -/
theorem step_deeper (hD : D ≤ D') {k : Machine}
    (h : ∀ site, step rs D k ≠ .failed ⟨.callDepth D, site⟩) : step rs D' k = step rs D k := by
  apply step_congr
  intro d name regs hi
  apply call_deeper hD
  intro hcall
  refine h k.top.site ?_
  obtain ⟨f, cs⟩ := k
  rw [step_of_instr hi]
  simp [exec, hcall]

/-- A run that does not go too deep reports the same if more depth is allowed. -/
theorem run_deeper (hD : D ≤ D') (h : ¬(run rs entry args ⟨m, D, t⟩).FailsWith (.callDepth D)) :
    run rs entry args ⟨m, D', t⟩ = run rs entry args ⟨m, D, t⟩ := by
  refine run_congr start_deeper fun n hn k hk => step_deeper hD fun site hstep => h ?_
  -- Had a step gone too deep, this would be the outcome.
  have hfail : go rs D m (start rs D entry args) = .failed ⟨.callDepth D, site⟩ := by
    obtain ⟨more, rfl⟩ := Nat.exists_eq_add_of_lt hn
    rw [Nat.add_assoc, Nat.add_comm more 1, go_add, hk, go_add]
    change go rs D more (step rs D k) = _
    rw [hstep, go_failed]
  refine ⟨site, ?_⟩
  rw [outcome_eq, hfail]
  rfl

/-! ### Traces -/

/-- Whether instructions are noted makes no difference to the outcome and the count. -/
theorem agrees_traced (t t' : Bool) :
    (run rs entry args ⟨m, D, t'⟩).Agrees (run rs entry args ⟨m, D, t⟩) := by
  constructor
  · rw [outcome_eq, outcome_eq]
  · rw [run_steps, run_steps]

theorem trace_toList :
    (run rs entry args ⟨m, D, true⟩).trace.toList = executed rs D m (start rs D entry args) := by
  rw [run_trace]
  rfl

/-- As many instructions are noted as the run counts, but for the step that it was not granted. -/
theorem trace_size :
    (run rs entry args ⟨m, D, true⟩).trace.size = min (run rs entry args ⟨m, D, t⟩).steps m := by
  rw [← Array.length_toList, trace_toList]
  rcases running_or_haltsIn m (start rs D entry args) with ⟨k, hk⟩ | h
  · rw [steps_of_running hk, length_executed_of_running start_rests hk]
    simp
  · rw [steps_of_halted h, Nat.min_eq_left (length_executed_le start_rests m)]

end Machine

/-! ### The limits -/

open Machine

/-- **The limits of a run are exact, and larger limits change nothing.**  Never are there more frames
    than one more than the depth allowed.  A run that is granted `m` steps counts at most one more,
    and counts it exactly if it is stopped for lack of steps.  If it is not stopped, it comes to the
    same end with any number of steps that is not less than its count, and is stopped with any that
    is.  If it does not go too deep, it comes to the same end with more depth.  Noting instructions
    changes neither the outcome nor the count.  What is noted are the instructions that were run, as
    many as the count says, or `m` if the run was stopped. -/
theorem limits_are_exact (rs : List Routine) (entry : String) (args : List Value) (D : Nat) :
    (∀ frames, Alive rs D entry args frames → frames.length ≤ D + 1) ∧
    ∀ m t r, run rs entry args ⟨m, D, t⟩ = r →
      r.steps ≤ m + 1 ∧
      (r.steps = m + 1 ↔ ∃ limit, r.FailsWith (.stepLimit limit)) ∧
      (¬r.FailsWith (.stepLimit m) →
        (∀ n, r.steps ≤ n → (run rs entry args ⟨n, D, t⟩).Agrees r) ∧
        ∀ n < r.steps, (run rs entry args ⟨n, D, t⟩).FailsWith (.stepLimit n) ∧
          (run rs entry args ⟨n, D, t⟩).steps = n + 1) ∧
      (¬r.FailsWith (.callDepth D) → ∀ D', D ≤ D' → (run rs entry args ⟨m, D', t⟩).Agrees r) ∧
      (run rs entry args ⟨m, D, true⟩).Agrees r ∧
      (run rs entry args ⟨m, D, true⟩).trace.toList = executed rs D m (start rs D entry args) ∧
      (¬r.FailsWith (.stepLimit m) → (run rs entry args ⟨m, D, true⟩).trace.size = r.steps) ∧
      (r.FailsWith (.stepLimit m) → (run rs entry args ⟨m, D, true⟩).trace.size = m) := by
  constructor
  · intro frames h
    exact h.stacked.length_le
  · rintro m t r rfl
    have hle : (run rs entry args ⟨m, D, t⟩).steps ≤ m + 1 := steps_le
    refine ⟨hle, steps_eq_succ_iff, ?_, ?_, agrees_traced t true, trace_toList, ?_, ?_⟩
    · intro h
      exact ⟨fun n hn => agrees_of_steps_le h hn, fun n hn => stopped_of_lt_steps h hn⟩
    · intro h D' hD
      rw [run_deeper hD h]
      exact ⟨rfl, rfl⟩
    · intro h
      have hne : (run rs entry args ⟨m, D, t⟩).steps ≠ m + 1 := by
        intro hsteps
        obtain ⟨limit, hfails⟩ := steps_eq_succ_iff.mp hsteps
        rw [(failsWith_stepLimit_iff.mp hfails).1] at hfails
        exact h hfails
      rw [trace_size (t := t)]
      omega
    · intro h
      rw [trace_size (t := t), steps_eq_succ_iff.mpr ⟨m, h⟩]
      omega

/-- A routine that calls another and returns what that returns. -/
def relay : Routine := ⟨"relay", 0, 0, 1, #[.call 0 "leaf" [], .ret 0], []⟩

/-- A routine that returns seven. -/
def leaf : Routine := ⟨"leaf", 0, 0, 1, #[.const 0 (.int 7), .ret 0], []⟩

theorem limits_are_exact_relay :
    (run [relay, leaf] "relay" [] ⟨4, 1, false⟩).steps = 4 ∧
      (run [relay, leaf] "relay" [] ⟨1000000, 1, false⟩).outcome = .ok (some (.int 7)) ∧
      (run [relay, leaf] "relay" [] ⟨3, 1, false⟩).FailsWith (.stepLimit 3) ∧
      (run [relay, leaf] "relay" [] ⟨4, 1000000, false⟩).steps = 4 ∧
      (run [relay, leaf] "relay" [] ⟨4, 1, true⟩).trace.size = 4 := by
  have hout : (run [relay, leaf] "relay" [] ⟨4, 1, false⟩).outcome = .ok (some (.int 7)) :=
    rfl
  have hsteps : (run [relay, leaf] "relay" [] ⟨4, 1, false⟩).steps = 4 := by decide +kernel
  have hnever (kind) : ¬(run [relay, leaf] "relay" [] ⟨4, 1, false⟩).FailsWith kind := by
    rintro ⟨site, hsite⟩
    rw [hout] at hsite
    cases hsite
  obtain ⟨-, -, hlimit, hdeeper, -, -, htrace, -⟩ :=
    (limits_are_exact [relay, leaf] "relay" [] 1).2 4 false _ rfl
  obtain ⟨hmore, hfewer⟩ := hlimit (hnever _)
  refine ⟨hsteps, ?_, ?_, ?_, ?_⟩
  · rw [(hmore 1000000 (by rw [hsteps]; decide)).1, hout]
  · exact (hfewer 3 (by rw [hsteps]; decide)).1
  · rw [(hdeeper (hnever _) 1000000 (by decide)).2, hsteps]
  · rw [htrace (hnever _), hsteps]

end JumpCode
