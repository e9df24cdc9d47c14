import JumpCode.Proofs.Semantics.Execution

/-!
# The frames of a run

Whatever its routines are, a machine can do only a few things with its frames: let the top one go
on, put the frame of a callee on it, return to the frame below, or fail.  `Effect` says so once for
all instructions, and what holds of every state of a run is read off it.

The frames of a run are `Stacked`.  Each runs one of the routines, and it is as deep as there are
frames under it, which the limit on the depth of calls keeps small.  A machine that rests between
two steps also has an instruction to run.  So a run can fail for three reasons only
(`fault_of_run`): its first call was refused, it has used up its steps, or an instruction failed.
-/

namespace JumpCode

/-- A run ends with a fault of the given kind. -/
def RunReport.FailsWith (r : RunReport) (kind : FaultKind) : Prop :=
  ∃ site, r.outcome = .error ⟨kind, site⟩

/-- Whether a fault is that a call was refused. -/
def FaultKind.isAboutCall : FaultKind → Bool
  | .unknownFunction _ | .arityMismatch _ _ _ | .callDepth _ => true
  | _ => false

/-- The instruction that a frame runs is one of its routine. -/
theorem Frame.mem_code_of_instr {f : Frame} {i : Instr} (h : f.instr? = some i) :
    i ∈ f.routine.code.toList := by
  rw [instr?, ← Array.getElem?_toList] at h
  exact List.mem_of_getElem? h

namespace Machine

variable {rs : List Routine} {D : Nat}

/-! ### Calls -/

/-- A call that may be made enters the routine of its name, within the limit on the depth. -/
theorem call_eq_ok {name : String} {args : List Value} {depth : Nat} {site : Site} {g : Frame}
    (h : call rs D name args depth site = .ok g) :
    ∃ r, Routine.find? rs name = some r ∧ r.paramCount = args.length ∧ depth ≤ D ∧
      g = .enter r args depth := by
  unfold call at h
  split at h
  · cases h
  · next r hr =>
    by_cases hargs : r.paramCount = args.length
    · by_cases hdepth : D < depth
      · simp [hargs, hdepth] at h
      · simp only [hargs, hdepth, ne_eq, not_true, if_false] at h
        cases h
        exact ⟨r, hr, hargs, Nat.le_of_not_lt hdepth, rfl⟩
    · simp [hargs] at h

/-- A call is refused if there is no such routine, if it takes another number of arguments, or if the
    call would be nested too deeply. -/
theorem call_eq_error {name : String} {args : List Value} {depth : Nat} {site : Site} {e : Fault}
    (h : call rs D name args depth site = .error e) :
    (Routine.find? rs name = none ∧ e = ⟨.unknownFunction name, site⟩) ∨
      ∃ r, Routine.find? rs name = some r ∧
        ((r.paramCount ≠ args.length ∧
            e = ⟨.arityMismatch name r.paramCount args.length, site⟩) ∨
          (r.paramCount = args.length ∧ D < depth ∧ e = ⟨.callDepth D, site⟩)) := by
  unfold call at h
  split at h
  · next hr =>
    cases h
    exact Or.inl ⟨hr, rfl⟩
  · next r hr =>
    refine Or.inr ⟨r, hr, ?_⟩
    by_cases hargs : r.paramCount = args.length
    · by_cases hdepth : D < depth
      · simp only [hargs, hdepth, ne_eq, not_true, if_false, if_true] at h
        cases h
        exact Or.inr ⟨hargs, hdepth, rfl⟩
      · simp [hargs, hdepth] at h
    · simp only [ne_eq, hargs, not_false_eq_true, if_true] at h
      cases h
      exact Or.inl ⟨hargs, rfl⟩

theorem isAboutCall_of_call {name : String} {args : List Value} {depth : Nat} {site : Site}
    {e : Fault} (h : call rs D name args depth site = .error e) : e.kind.isAboutCall = true := by
  rcases call_eq_error h with ⟨-, rfl⟩ | ⟨r, -, ⟨-, rfl⟩ | ⟨-, -, rfl⟩⟩
  all_goals rfl

/-! ### What an instruction does -/

/-- What can come of running the instruction `i` in the frame `f`, under which the frames `cs`
    wait. -/
inductive Effect (rs : List Routine) (D : Nat) (f : Frame) (cs : List Waiting) (i : Instr) :
    Next → Prop where
  /-- The frame goes on, with other contents or at another place. -/
  | goesOn {g : Frame} : g.routine = f.routine → g.depth = f.depth → Effect rs D f cs i (rest g cs)
  | calls {d : Reg} {name : String} {args : List Reg} {g : Frame} :
      i = .call d name args → call rs D name (args.map f.reg) (f.depth + 1) f.site = .ok g →
        Effect rs D f cs i (rest g (⟨f, d⟩ :: cs))
  | returns (v : Option Value) : Effect rs D f cs i (deliver v cs)
  | divides {op : BinaryOp} {d x y : Reg} :
      i = .binary op d x y → op.apply (f.reg x) (f.reg y) = none →
        Effect rs D f cs i (.failed ⟨.divisionByZero, f.site⟩)
  | strays {l : Label} : i.target? = some l → f.routine.positionOf l = none →
      Effect rs D f cs i (.failed ⟨.unknownLabel l, f.site⟩)
  | refused {d : Reg} {name : String} {args : List Reg} {e : Fault} :
      i = .call d name args → call rs D name (args.map f.reg) (f.depth + 1) f.site = .error e →
        Effect rs D f cs i (.failed e)

theorem goTo_effect {f : Frame} {cs : List Waiting} {i : Instr} {l : Label}
    (h : i.target? = some l) : Effect rs D f cs i (goTo f cs l) := by
  unfold goTo
  split
  · exact .goesOn rfl rfl
  · next hl => exact .strays h hl

/-- Every instruction does one of these things. -/
theorem exec_effect (f : Frame) (cs : List Waiting) (i : Instr) :
    Effect rs D f cs i (exec rs D f cs i) := by
  cases i with
  | const d v => exact .goesOn rfl rfl
  | load d j => exact .goesOn rfl rfl
  | store s j => exact .goesOn rfl rfl
  | binary op d l r =>
    rw [exec_binary]
    split
    · exact .goesOn rfl rfl
    · next hnone => exact .divides rfl hnone
  | unary op d s => exact .goesOn rfl rfl
  | label l => exact .goesOn rfl rfl
  | jump l => exact goTo_effect rfl
  | branchFalse c l =>
    rw [exec]
    split
    · exact goTo_effect rfl
    · exact .goesOn rfl rfl
  | call d name args =>
    rw [exec]
    split
    · next g hg => exact .calls rfl hg
    · next e he => exact .refused rfl he
  | ret s => exact .returns _
  | retVoid => exact .returns _

/-! ### Stacked frames -/

/-- All frames of a machine, the newest first. -/
def frames (m : Machine) : List Frame := m.top :: m.callers.map Waiting.frame

/-- Frames as they stand on one another in a run: each runs one of the routines and is as deep as
    there are frames under it, which is no deeper than allowed. -/
def Stacked (rs : List Routine) (D : Nat) : List Frame → Prop
  | [] => True
  | f :: fs => f.routine ∈ rs ∧ f.depth = fs.length ∧ fs.length ≤ D ∧ Stacked rs D fs

namespace Stacked

variable {f g : Frame} {fs : List Frame}

theorem length_le (h : Stacked rs D fs) : fs.length ≤ D + 1 := by
  cases fs with
  | nil => exact Nat.zero_le _
  | cons f fs => simpa using h.2.2.1

/-- A frame may change its contents and its place. -/
theorem change (h : Stacked rs D (f :: fs)) (hroutine : g.routine = f.routine)
    (hdepth : g.depth = f.depth) : Stacked rs D (g :: fs) := by
  obtain ⟨hmem, hlevel, hlimit, hrest⟩ := h
  exact ⟨by rwa [hroutine], by rw [hdepth, hlevel], hlimit, hrest⟩

/-- A call puts the frame of its callee on top. -/
theorem enter {name : String} {args : List Value} {site : Site} (h : Stacked rs D fs)
    (hg : call rs D name args fs.length site = .ok g) : Stacked rs D (g :: fs) := by
  obtain ⟨r, hr, -, hdepth, rfl⟩ := call_eq_ok hg
  exact ⟨List.mem_of_find?_eq_some hr, rfl, hdepth, h⟩

end Stacked

/-- If the machine goes on, its frames are stacked and it has an instruction to run. -/
def Rests (rs : List Routine) (D : Nat) : Next → Prop
  | .running m => Stacked rs D m.frames ∧ ∃ i, m.top.instr? = some i
  | .finished _ | .failed _ => True

theorem instr_of_not_isPastEnd {f : Frame} (h : ¬f.isPastEnd = true) : ∃ i, f.instr? = some i := by
  have hlt : f.pc < f.routine.code.size := by simpa [Frame.isPastEnd] using h
  exact ⟨f.routine.code[f.pc], by simp [Frame.instr?, hlt]⟩

/-- Returning goes down the frames until one of them has something left to do. -/
theorem deliver_rests {cs : List Waiting} (h : Stacked rs D (cs.map Waiting.frame))
    (v : Option Value) : Rests rs D (deliver v cs) := by
  induction cs generalizing v with
  | nil => trivial
  | cons c cs ih =>
    rw [deliver]
    split
    · exact ih h.2.2.2 none
    · next hend => exact ⟨h.change rfl rfl, instr_of_not_isPastEnd hend⟩

theorem rest_rests {f : Frame} {cs : List Waiting}
    (h : Stacked rs D (f :: cs.map Waiting.frame)) : Rests rs D (rest f cs) := by
  unfold rest
  split
  · exact deliver_rests h.2.2.2 none
  · next hend => exact ⟨h, instr_of_not_isPastEnd hend⟩

/-- A step keeps the frames stacked. -/
theorem step_rests {m : Machine} (h : Rests rs D (.running m)) : Rests rs D (step rs D m) := by
  obtain ⟨f, cs⟩ := m
  obtain ⟨hstack, i, hi⟩ := h
  have hdepth : f.depth + 1 = (f :: cs.map Waiting.frame).length := congrArg (· + 1) hstack.2.1
  have heffect : Effect rs D f cs i (exec rs D f cs i) := exec_effect f cs i
  rw [step_of_instr hi]
  generalize exec rs D f cs i = x at heffect
  cases heffect with
  | goesOn hroutine hlevel => exact rest_rests (hstack.change hroutine hlevel)
  | calls _ hg =>
    rw [hdepth] at hg
    exact rest_rests (hstack.enter hg)
  | returns v => exact deliver_rests hstack.2.2.2 v
  | divides _ _ => trivial
  | strays _ _ => trivial
  | refused _ _ => trivial

/-! ### The states of a run -/

/-- Where a run starts. -/
def start (rs : List Routine) (D : Nat) (entry : String) (args : List Value) : Next :=
  entering rs D entry args 0 .entry []

/-- The machine is at `m` at some moment of a run that is granted enough steps. -/
def InRun (rs : List Routine) (D : Nat) (entry : String) (args : List Value) (m : Machine) : Prop :=
  Reaches rs D (start rs D entry args) (.running m)

variable {entry : String} {args : List Value}

/-- The outcome of a run is what the machine has come to when its steps are used up. -/
theorem outcome_eq (maxSteps D : Nat) (trace : Bool) :
    (run rs entry args ⟨maxSteps, D, trace⟩).outcome =
      outcomeAt maxSteps (go rs D maxSteps (start rs D entry args)) :=
  run_outcome entry args ⟨maxSteps, D, trace⟩

theorem start_rests : Rests rs D (start rs D entry args) := by
  unfold start entering
  split
  · next f hf =>
    have hone : Stacked rs D [f] := Stacked.enter trivial hf
    exact rest_rests hone
  · trivial

theorem go_rests (n : Nat) {x : Next} (h : Rests rs D x) : Rests rs D (go rs D n x) := by
  induction n generalizing x with
  | zero => exact h
  | succ n ih =>
    apply ih
    cases x with
    | running m => exact step_rests h
    | finished v => trivial
    | failed e => trivial

namespace InRun

variable {m : Machine}

theorem rests (h : InRun rs D entry args m) : Rests rs D (.running m) := by
  obtain ⟨n, hn⟩ := h
  rw [← hn]
  exact go_rests n start_rests

/-- Whatever frame is on top, it runs one of the routines. -/
theorem routine_mem (h : InRun rs D entry args m) : m.top.routine ∈ rs := h.rests.1.1

theorem exists_instr (h : InRun rs D entry args m) : ∃ i, m.top.instr? = some i := h.rests.2

/-- What a step of a run does is what its instruction does. -/
theorem step_effect (h : InRun rs D entry args m) :
    ∃ i, m.top.instr? = some i ∧ Effect rs D m.top m.callers i (step rs D m) := by
  obtain ⟨i, hi⟩ := h.exists_instr
  refine ⟨i, hi, ?_⟩
  rw [step_of_instr hi]
  exact exec_effect _ _ _

end InRun

/-! ### How runs fail -/

theorem deliver_ne_failed (v : Option Value) (cs : List Waiting) (e : Fault) :
    deliver v cs ≠ .failed e := by
  induction cs generalizing v with
  | nil => simp [deliver]
  | cons c cs ih =>
    rw [deliver]
    split
    · exact ih none
    · simp

theorem rest_ne_failed (f : Frame) (cs : List Waiting) (e : Fault) : rest f cs ≠ .failed e := by
  unfold rest
  split
  · exact deliver_ne_failed none cs e
  · simp

/-- A step fails over a division by zero, over a jump that leads nowhere, or over a call that is
    refused. -/
theorem InRun.fault_of_step {m : Machine} {e : Fault} (h : InRun rs D entry args m)
    (he : step rs D m = .failed e) :
    e = ⟨.divisionByZero, m.top.site⟩ ∨
      (∃ i l, m.top.instr? = some i ∧ i.target? = some l ∧ m.top.routine.positionOf l = none ∧
        e = ⟨.unknownLabel l, m.top.site⟩) ∨
      ∃ d name regs, m.top.instr? = some (.call d name regs) ∧
        call rs D name (regs.map m.top.reg) (m.top.depth + 1) m.top.site = .error e := by
  obtain ⟨i, hi, heffect⟩ := h.step_effect
  generalize hx : step rs D m = x at heffect
  rw [hx] at he
  cases heffect with
  | goesOn _ _ => exact absurd he (rest_ne_failed _ _ _)
  | calls _ _ => exact absurd he (rest_ne_failed _ _ _)
  | returns v => exact absurd he (deliver_ne_failed _ _ _)
  | divides _ _ =>
    cases he
    exact Or.inl rfl
  | strays htarget hnone =>
    cases he
    exact Or.inr (Or.inl ⟨i, _, hi, htarget, hnone, rfl⟩)
  | refused hcall herror =>
    cases he
    subst hcall
    exact Or.inr (Or.inr ⟨_, _, _, hi, herror⟩)

/-- What has failed after some steps has failed at the start or in one of them. -/
theorem exists_step_of_go {n : Nat} {x : Next} {e : Fault} (h : go rs D n x = .failed e) :
    x = .failed e ∨ ∃ m, Reaches rs D x (.running m) ∧ step rs D m = .failed e := by
  induction n generalizing x with
  | zero => exact Or.inl h
  | succ n ih =>
    cases x with
    | running m =>
      rcases ih h with hstep | ⟨m', hreach, hstep⟩
      · exact Or.inr ⟨m, .refl _, hstep⟩
      · exact Or.inr ⟨m', (Reaches.step (.running m)).trans hreach, hstep⟩
    | finished v =>
      rw [go_finished] at h
      cases h
    | failed e' =>
      rw [go_failed] at h
      exact Or.inl h

theorem start_eq_failed {e : Fault} (h : start rs D entry args = .failed e) :
    call rs D entry args 0 .entry = .error e := by
  unfold start entering at h
  split at h
  · exact absurd h (rest_ne_failed _ _ _)
  · next e' he' =>
    cases h
    exact he'

/-- A run fails because its first call is refused, and then it takes no step, because its steps are
    used up, or because of an instruction that it runs. -/
theorem fault_of_run {options : RunOptions} {e : Fault}
    (h : (run rs entry args options).outcome = .error e) :
    (call rs options.maxDepth entry args 0 .entry = .error e ∧
        (run rs entry args options).steps = 0) ∨
      (∃ m, InRun rs options.maxDepth entry args m ∧
        e = ⟨.stepLimit options.maxSteps, m.top.site⟩) ∨
      ∃ m, InRun rs options.maxDepth entry args m ∧ step rs options.maxDepth m = .failed e := by
  obtain ⟨maxSteps, D, trace⟩ := options
  rw [outcome_eq] at h
  cases hgo : go rs D maxSteps (start rs D entry args) with
  | running m =>
    rw [hgo] at h
    cases h
    exact Or.inr (Or.inl ⟨m, ⟨maxSteps, hgo⟩, rfl⟩)
  | finished v =>
    rw [hgo] at h
    cases h
  | failed e' =>
    rw [hgo] at h
    cases h
    rcases exists_step_of_go hgo with hstart | ⟨m, hreach, hstep⟩
    · have hcall := start_eq_failed hstart
      refine Or.inl ⟨hcall, ?_⟩
      rw [run, hcall]
    · exact Or.inr (Or.inr ⟨m, hreach, hstep⟩)

end Machine

end JumpCode
