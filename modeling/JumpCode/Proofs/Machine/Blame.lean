import JumpCode.Proofs.Machine.Frames

/-!
# The instruction to blame

A fault names a function and a place in it.  Whatever the routines are, what stands there is the
instruction that failed: a division that had nothing to divide by, a jump to a label without a place,
a call that was refused.  A call is refused before its callee has a frame, and so it is the calling
instruction that is blamed.  Only the call that starts a run has no instruction to blame, and has a
place of its own.

A function is named, and names need not be unique.  A run enters the routine that a name leads to, so
the name of a routine that runs leads back to that routine (`InRun.find?_name`).
-/

namespace JumpCode

/-- The instruction `i` of the routine `r` is one that raises a fault of the given kind in a run with
    these options. -/
def FaultKind.BlamedOn (rs : List Routine) (options : RunOptions) (r : Routine) (i : Instr) :
    FaultKind → Prop
  | .stepLimit limit => limit = options.maxSteps
  | .callDepth limit =>
    limit = options.maxDepth ∧ ∃ d name args callee, i = .call d name args ∧
      Routine.find? rs name = some callee ∧ callee.paramCount = args.length
  | .divisionByZero => ∃ op d x y, i = .binary op d x y ∧ (op = .div ∨ op = .mod)
  | .unknownFunction name => Routine.find? rs name = none ∧ ∃ d args, i = .call d name args
  | .arityMismatch name expected found =>
    expected ≠ found ∧ ∃ d args callee, i = .call d name args ∧ found = args.length ∧
      Routine.find? rs name = some callee ∧ expected = callee.paramCount
  | .unknownLabel l => (i = .jump l ∨ ∃ c, i = .branchFalse c l) ∧ r.positionOf l = none

/-- The call that starts a run of `entry` is refused with this fault. -/
def Fault.RefusesEntry (rs : List Routine) (entry : String) (args : List Value) (e : Fault) : Prop :=
  e.site = .entry ∧
    ((Routine.find? rs entry = none ∧ e.kind = .unknownFunction entry) ∨
      ∃ r, Routine.find? rs entry = some r ∧ r.paramCount ≠ args.length ∧
        e.kind = .arityMismatch entry r.paramCount args.length)

/-- The fault names an instruction of the routine that its function's name leads to, and it is one
    that raises such a fault. -/
def Fault.BlamesInstr (rs : List Routine) (options : RunOptions) (e : Fault) : Prop :=
  ∃ r i, Routine.find? rs e.site.function = some r ∧ r.code[e.site.pc]? = some i ∧
    e.kind.BlamedOn rs options r i

/-- Only division and remainder can lack a result. -/
theorem BinaryOp.eq_of_apply_eq_none {op : BinaryOp} {v w : Value} (h : op.apply v w = none) :
    op = .div ∨ op = .mod := by
  cases op with
  | div => exact Or.inl rfl
  | mod => exact Or.inr rfl
  | _ => cases h

theorem Instr.eq_of_target? {i : Instr} {l : Label} (h : i.target? = some l) :
    i = .jump l ∨ ∃ c, i = .branchFalse c l := by
  cases i with
  | jump l' =>
    cases h
    exact Or.inl rfl
  | branchFalse c l' =>
    cases h
    exact Or.inr ⟨c, rfl⟩
  | _ => cases h

/-- The name that leads to a routine is its own. -/
theorem Routine.find?_name_of_find? {rs : List Routine} {name : String} {r : Routine}
    (h : find? rs name = some r) : find? rs r.name = some r := by
  have hname : r.name = name := by simpa using List.find?_some h
  rw [hname, h]

namespace Machine

variable {rs : List Routine} {D : Nat} {entry : String} {args : List Value}

/-! ### Routines that a run enters -/

/-- If the machine goes on, the routines of its frames satisfy `P`. -/
def Runs (P : Routine → Prop) : Next → Prop
  | .running m => ∀ f ∈ m.frames, P f.routine
  | .finished _ | .failed _ => True

section

variable {P : Routine → Prop}

theorem deliver_runs {cs : List Waiting} (h : ∀ c ∈ cs, P c.frame.routine) (v : Option Value) :
    Runs P (deliver v cs) := by
  induction cs generalizing v with
  | nil => trivial
  | cons c cs ih =>
    obtain ⟨hc, hcs⟩ := List.forall_mem_cons.mp h
    rw [deliver]
    split
    · exact ih hcs none
    · refine List.forall_mem_cons.mpr ⟨hc, ?_⟩
      simpa using hcs

theorem rest_runs {f : Frame} {cs : List Waiting} (hf : P f.routine)
    (h : ∀ c ∈ cs, P c.frame.routine) : Runs P (rest f cs) := by
  unfold rest
  split
  · exact deliver_runs h none
  · refine List.forall_mem_cons.mpr ⟨hf, ?_⟩
    simpa using h

/-- A step enters no routine but one that a name leads to. -/
theorem step_runs (hP : ∀ name r, Routine.find? rs name = some r → P r) {m : Machine}
    (h : Runs P (.running m)) : Runs P (step rs D m) := by
  obtain ⟨f, cs⟩ := m
  obtain ⟨hf, hcs⟩ := List.forall_mem_cons.mp h
  have hcs : ∀ c ∈ cs, P c.frame.routine := by simpa using hcs
  cases hi : f.instr? with
  | none =>
    rw [step, hi]
    exact deliver_runs hcs none
  | some i =>
    have heffect : Effect rs D f cs i (exec rs D f cs i) := exec_effect f cs i
    rw [step_of_instr hi]
    generalize exec rs D f cs i = x at heffect
    cases heffect with
    | goesOn hroutine _ => exact rest_runs (hroutine ▸ hf) hcs
    | calls _ hg =>
      obtain ⟨r, hr, -, -, rfl⟩ := call_eq_ok hg
      exact rest_runs (hP _ r hr) (List.forall_mem_cons.mpr ⟨hf, hcs⟩)
    | returns v => exact deliver_runs hcs v
    | divides _ _ => trivial
    | strays _ _ => trivial
    | refused _ _ => trivial

theorem start_runs (hP : ∀ name r, Routine.find? rs name = some r → P r) :
    Runs P (start rs D entry args) := by
  unfold start entering
  split
  · next f hf =>
    obtain ⟨r, hr, -, -, rfl⟩ := call_eq_ok hf
    exact rest_runs (hP entry r hr) (by simp)
  · trivial

theorem go_runs (hP : ∀ name r, Routine.find? rs name = some r → P r) (n : Nat) {x : Next}
    (h : Runs P x) : Runs P (go rs D n x) := by
  induction n generalizing x with
  | zero => exact h
  | succ n ih =>
    apply ih
    cases x with
    | running m => exact step_runs hP h
    | finished v => trivial
    | failed e => trivial

/-- What holds of every routine that a name leads to holds of those that a run enters. -/
theorem InRun.runs (hP : ∀ name r, Routine.find? rs name = some r → P r) {m : Machine}
    (h : InRun rs D entry args m) : ∀ f ∈ m.frames, P f.routine := by
  obtain ⟨n, hn⟩ := h
  have hruns : Runs P (go rs D n (start rs D entry args)) := go_runs hP n (start_runs hP)
  rw [hn] at hruns
  exact hruns

end

/-- The name of a routine that runs leads to that routine. -/
theorem InRun.find?_name {m : Machine} (h : InRun rs D entry args m) :
    Routine.find? rs m.top.routine.name = some m.top.routine :=
  h.runs (P := fun r => Routine.find? rs r.name = some r)
    (fun _ _ hr => Routine.find?_name_of_find? hr) m.top List.mem_cons_self

/-! ### Faults -/

/-- A call that is refused is refused for one of three reasons, looked for in this order. -/
theorem blamedOn_of_call {options : RunOptions} {r : Routine} {d : Reg} {name : String}
    {regs : List Reg} {vs : List Value} {depth : Nat} {site : Site} {e : Fault}
    (hlen : vs.length = regs.length) (h : call rs options.maxDepth name vs depth site = .error e) :
    e.site = site ∧ e.kind.BlamedOn rs options r (.call d name regs) := by
  rcases call_eq_error h with ⟨hnone, rfl⟩ | ⟨callee, hcallee, ⟨hne, rfl⟩ | ⟨hcount, -, rfl⟩⟩
  · exact ⟨rfl, hnone, d, regs, rfl⟩
  · exact ⟨rfl, hne, d, regs, callee, rfl, hlen, hcallee, rfl⟩
  · exact ⟨rfl, rfl, d, name, regs, callee, rfl, hcallee, hcount.trans hlen⟩

/-- A step that fails blames the instruction that it runs. -/
theorem InRun.blamedOn_of_step {options : RunOptions} {m : Machine} {e : Fault}
    (h : InRun rs options.maxDepth entry args m) (he : step rs options.maxDepth m = .failed e) :
    e.site = m.top.site ∧
      ∃ i, m.top.instr? = some i ∧ e.kind.BlamedOn rs options m.top.routine i := by
  obtain ⟨i, hi, heffect⟩ := h.step_effect
  rw [he] at heffect
  generalize hx : Next.failed e = x at heffect
  cases heffect with
  | goesOn _ _ => exact absurd hx.symm (rest_ne_failed _ _ _)
  | calls _ _ => exact absurd hx.symm (rest_ne_failed _ _ _)
  | returns v => exact absurd hx.symm (deliver_ne_failed _ _ _)
  | divides hbinary hnone =>
    cases hx
    exact ⟨rfl, i, hi, _, _, _, _, hbinary, BinaryOp.eq_of_apply_eq_none hnone⟩
  | strays htarget hnone =>
    cases hx
    exact ⟨rfl, i, hi, Instr.eq_of_target? htarget, hnone⟩
  | refused hcall herror =>
    cases hx
    subst hcall
    obtain ⟨hsite, hblamed⟩ := blamedOn_of_call (List.length_map _) herror
    exact ⟨hsite, _, hi, hblamed⟩

/-- The first call of a run is not nested in any other, so its depth is never the reason. -/
theorem refusesEntry_of_call {e : Fault} (h : call rs D entry args 0 .entry = .error e) :
    e.RefusesEntry rs entry args := by
  rcases call_eq_error h with ⟨hnone, rfl⟩ | ⟨r, hr, ⟨hne, rfl⟩ | ⟨-, hdepth, -⟩⟩
  · exact ⟨rfl, Or.inl ⟨hnone, rfl⟩⟩
  · exact ⟨rfl, Or.inr ⟨r, hr, hne, rfl⟩⟩
  · exact absurd hdepth (Nat.not_lt_zero D)

/-- What is blamed in a frame of a run can be found by the name and the place that the fault gives. -/
theorem InRun.blamesInstr {options : RunOptions} {m : Machine} {i : Instr} {e : Fault}
    (h : InRun rs D entry args m) (hsite : e.site = m.top.site) (hi : m.top.instr? = some i)
    (hblamed : e.kind.BlamedOn rs options m.top.routine i) : e.BlamesInstr rs options := by
  refine ⟨m.top.routine, i, ?_, ?_, hblamed⟩
  · rw [hsite]
    exact h.find?_name
  · rw [hsite]
    exact hi

end Machine

/-- **Faults name the instruction that raised them.**  A run of any routines that ends with a fault
    was refused at its entry, for its name or its number of arguments, or the fault's function and
    place lead to an instruction of the kind that raises it, for the reason it gives. -/
theorem faults_name_their_instruction (rs : List Routine) (entry : String) (args : List Value)
    (options : RunOptions) (e : Fault)
    (h : (Machine.run rs entry args options).outcome = .error e) :
    e.RefusesEntry rs entry args ∨ e.BlamesInstr rs options := by
  rcases Machine.fault_of_run h with ⟨hcall, -⟩ | ⟨m, hm, rfl⟩ | ⟨m, hm, hstep⟩
  · exact Or.inl (Machine.refusesEntry_of_call hcall)
  · obtain ⟨i, hi⟩ := hm.exists_instr
    exact Or.inr (hm.blamesInstr rfl hi rfl)
  · obtain ⟨hsite, i, hi, hblamed⟩ := hm.blamedOn_of_step hstep
    exact Or.inr (hm.blamesInstr hsite hi hblamed)

/-- Two routines of which the second calls the first with an argument that it does not take. -/
def entangled : List Routine :=
  [⟨"outer", 0, 0, 1, #[.call 0 "inner" [], .ret 0], []⟩,
    ⟨"inner", 0, 0, 2, #[.const 0 (.int 3), .call 1 "outer" [0], .ret 1], []⟩]

theorem faults_name_their_instruction_entangled :
    (Machine.run entangled "outer" [] {}).outcome =
        .error ⟨.arityMismatch "outer" 0 1, ⟨"inner", 1⟩⟩ ∧
      Fault.BlamesInstr entangled {} ⟨.arityMismatch "outer" 0 1, ⟨"inner", 1⟩⟩ := by
  have hrun : (Machine.run entangled "outer" [] {}).outcome =
      .error ⟨.arityMismatch "outer" 0 1, ⟨"inner", 1⟩⟩ := by rfl
  refine ⟨hrun, ?_⟩
  rcases faults_name_their_instruction _ _ _ _ _ hrun with ⟨hentry, -⟩ | hblames
  · exact absurd hentry (by decide)
  · exact hblames

end JumpCode
