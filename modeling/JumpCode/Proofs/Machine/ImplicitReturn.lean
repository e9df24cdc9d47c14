import JumpCode.Proofs.Lowering.Closing
import JumpCode.Proofs.Machine.Limits

/-!
# Runs with and without implicit returns

A frame that runs past its last instruction returns nothing.  With implicit returns this does not
happen: code ends with a return, jumps lead to labels inside it, and a frame that waits stands at a
call, which is not the last instruction.  So every step of such a run lets the top frame go on, puts
a frame on it, or gives up the one frame whose return it runs (`ClosedStep`).

Without them the machine does the same, but for the steps that run an appended return.  `Mirrors`
relates a state of the first run to one of the second.  A step of the first run is matched by one
step of the second or by none (`step_mirrors`), so the second run comes to the same end and is not
longer (`mirrors_run`).
-/

namespace JumpCode

/-- Code that ends with a return, and a place in it for each label. -/
structure Routine.Closed (r : Routine) : Prop where
  last : r.code.back?.any Instr.isReturn = true
  places : ∀ l i, r.positionOf l = some i → r.code[i]? = some (.label l)

namespace Routine.Closed

variable {r : Routine}

theorem size_pos (h : r.Closed) : 0 < r.code.size := by
  have hlast := h.last
  by_contra hsize
  have hempty : r.code = #[] := Array.eq_empty_of_size_eq_zero (by omega)
  simp [hempty] at hlast

/-- An instruction that is not a return has another one after it. -/
theorem lt_of_not_return (h : r.Closed) {k : Nat} {i : Instr} (hi : r.code[k]? = some i)
    (hret : i.isReturn = false) : k + 1 < r.code.size := by
  have hk : k < r.code.size := (Array.getElem?_eq_some_iff.mp hi).1
  by_contra hend
  have hlast := h.last
  have hsize : r.code.size - 1 = k := by omega
  rw [Array.back?, hsize, hi, Option.any_some, hret] at hlast
  cases hlast

end Routine.Closed

namespace Machine

variable {rs : List Routine} {D : Nat} {entry : String} {args : List Value}

theorem rest_of_lt {f : Frame} (h : f.pc < f.routine.code.size) (cs : List Waiting) :
    rest f cs = .running ⟨f, cs⟩ := by
  have hi : f.instr? = some f.routine.code[f.pc] := by simp [Frame.instr?, h]
  exact rest_of_instr hi

theorem lt_of_instr {f : Frame} {i : Instr} (h : f.instr? = some i) :
    f.pc < f.routine.code.size :=
  (Array.getElem?_eq_some_iff.mp h).1

/-! ### No frame runs past its end -/

/-- What a step can do when no frame runs past its last instruction.  A frame is given up only when
    it runs a return, and no other is given up with it. -/
inductive ClosedStep (m : Machine) : Next → Prop where
  | goesOn {i : Instr} {g : Frame} : m.top.instr? = some i → i.isReturn = false →
      g.routine = m.top.routine → g.depth = m.top.depth →
        ClosedStep m (.running ⟨g, m.callers⟩)
  | calls {d : Reg} {name : String} {regs : List Reg} {g : Frame} :
      m.top.instr? = some (.call d name regs) →
        ClosedStep m (.running ⟨g, ⟨m.top, d⟩ :: m.callers⟩)
  | returns {i : Instr} {c : Waiting} {cs : List Waiting} (v : Value) : m.top.instr? = some i →
      i.isReturn = true → m.callers = c :: cs →
        ClosedStep m (.running ⟨(c.frame.setReg c.dest v).advance, cs⟩)
  | finishes {i : Instr} (v : Option Value) : m.top.instr? = some i → i.isReturn = true →
      m.callers = [] → ClosedStep m (.finished v)
  | fails (e : Fault) : ClosedStep m (.failed e)

/-- Frames that wait, each at the call that it waits for. -/
def AtCalls (cs : List Waiting) : Prop :=
  ∀ c ∈ cs, ∃ name regs, c.frame.instr? = some (.call c.dest name regs)

section Closed

variable {f : Frame} {cs : List Waiting} {i : Instr}

theorem closedStep_rest (hi : f.instr? = some i) (hret : i.isReturn = false) {g : Frame}
    (hroutine : g.routine = f.routine) (hdepth : g.depth = f.depth)
    (hlt : g.pc < f.routine.code.size) : ClosedStep ⟨f, cs⟩ (rest g cs) := by
  rw [rest_of_lt (by rwa [hroutine])]
  exact .goesOn hi hret hroutine hdepth

/-- After an instruction that does not return, the next one is there. -/
theorem closedStep_advance (hclosed : f.routine.Closed) (hi : f.instr? = some i)
    (hret : i.isReturn = false) {g : Frame} (hroutine : g.routine = f.routine)
    (hdepth : g.depth = f.depth) (hpc : g.pc = f.pc) : ClosedStep ⟨f, cs⟩ (rest g.advance cs) := by
  refine closedStep_rest (g := g.advance) hi hret hroutine hdepth ?_
  have hlt := hclosed.lt_of_not_return hi hret
  rwa [← hpc] at hlt

/-- A jump goes to a label in the code. -/
theorem closedStep_goTo (hclosed : f.routine.Closed) (hi : f.instr? = some i)
    (hret : i.isReturn = false) (l : Label) : ClosedStep ⟨f, cs⟩ (goTo f cs l) := by
  unfold goTo
  split
  · next k hk =>
    have hlt : k < f.routine.code.size :=
      (Array.getElem?_eq_some_iff.mp (hclosed.places l k hk)).1
    exact closedStep_rest hi hret rfl rfl hlt
  · exact .fails _

theorem closedStep_deliver (hi : f.instr? = some i) (hret : i.isReturn = true) (hcs : AtCalls cs)
    (hclosed : ∀ c ∈ cs, c.frame.routine.Closed) (v : Option Value) :
    ClosedStep ⟨f, cs⟩ (deliver v cs) := by
  cases cs with
  | nil => exact .finishes v hi hret rfl
  | cons c cs =>
    obtain ⟨name, regs, hcall⟩ := hcs c List.mem_cons_self
    have hlt := (hclosed c List.mem_cons_self).lt_of_not_return hcall rfl
    change ClosedStep ⟨f, c :: cs⟩ (rest (c.frame.setReg c.dest (v.getD default)).advance cs)
    rw [rest_of_lt hlt]
    exact .returns _ hi hret rfl

theorem exec_closed (hrs : ∀ r ∈ rs, r.Closed) (hf : f.routine.Closed) (hi : f.instr? = some i)
    (hcs : AtCalls cs) (hclosed : ∀ c ∈ cs, c.frame.routine.Closed) :
    ClosedStep ⟨f, cs⟩ (exec rs D f cs i) := by
  cases i with
  | const d v => exact closedStep_advance hf hi rfl rfl rfl rfl
  | load d j => exact closedStep_advance hf hi rfl rfl rfl rfl
  | store s j => exact closedStep_advance hf hi rfl rfl rfl rfl
  | binary op d l r =>
    rw [exec_binary]
    split
    · exact closedStep_advance hf hi rfl rfl rfl rfl
    · exact .fails _
  | unary op d s => exact closedStep_advance hf hi rfl rfl rfl rfl
  | label l => exact closedStep_advance hf hi rfl rfl rfl rfl
  | jump l => exact closedStep_goTo hf hi rfl l
  | branchFalse c l =>
    rw [exec]
    split
    · exact closedStep_goTo hf hi rfl l
    · exact closedStep_advance hf hi rfl rfl rfl rfl
  | call d name regs =>
    rw [exec]
    split
    · next g hg =>
      obtain ⟨r, hr, -, -, rfl⟩ := call_eq_ok hg
      have hpos := (hrs r (List.mem_of_find?_eq_some hr)).size_pos
      rw [rest_of_lt hpos]
      exact .calls hi
    · exact .fails _
  | ret s => exact closedStep_deliver hi rfl hcs hclosed _
  | retVoid => exact closedStep_deliver hi rfl hcs hclosed _

end Closed

theorem Stacked.routine_mem {fs : List Frame} (h : Stacked rs D fs) {f : Frame} (hf : f ∈ fs) :
    f.routine ∈ rs := by
  induction fs with
  | nil => cases hf
  | cons g fs ih =>
    rcases List.mem_cons.mp hf with rfl | hf
    · exact h.1
    · exact ih h.2.2.2 hf

theorem step_closed (hrs : ∀ r ∈ rs, r.Closed) {m : Machine} (hrests : Rests rs D (.running m))
    (hcalls : AtCalls m.callers) : ClosedStep m (step rs D m) := by
  obtain ⟨f, cs⟩ := m
  obtain ⟨hstack, i, hi⟩ := hrests
  rw [step_of_instr hi]
  apply exec_closed hrs (hrs _ hstack.1) hi hcalls
  intro c hc
  exact hrs _ (hstack.routine_mem (List.mem_cons_of_mem _ (List.mem_map_of_mem hc)))

/-- A step keeps the waiting frames at their calls. -/
theorem ClosedStep.atCalls {m m' : Machine} (h : ClosedStep m (.running m'))
    (hm : AtCalls m.callers) : AtCalls m'.callers := by
  cases h with
  | goesOn hi hret hroutine hdepth => exact hm
  | calls hi =>
    intro c hc
    rcases List.mem_cons.mp hc with rfl | hc
    · exact ⟨_, _, hi⟩
    · exact hm c hc
  | returns v hi hret hcallers =>
    intro c hc
    apply hm c
    rw [hcallers]
    exact List.mem_cons_of_mem _ hc

theorem go_atCalls (hrs : ∀ r ∈ rs, r.Closed) (n : Nat) {x : Next} (hrests : Rests rs D x)
    (hcalls : ∀ m, x = .running m → AtCalls m.callers) {m : Machine}
    (h : go rs D n x = .running m) : AtCalls m.callers := by
  induction n generalizing x with
  | zero => exact hcalls m h
  | succ n ih =>
    cases x with
    | running k =>
      apply ih (step_rests hrests) _ h
      intro k' hk'
      have hstep := step_closed hrs hrests (hcalls k rfl)
      rw [hk'] at hstep
      exact hstep.atCalls (hcalls k rfl)
    | finished v => simp at h
    | failed e => simp at h

theorem InRun.atCalls (hrs : ∀ r ∈ rs, r.Closed) {m : Machine} (h : InRun rs D entry args m) :
    AtCalls m.callers := by
  obtain ⟨n, hn⟩ := h
  refine go_atCalls hrs n start_rests ?_ hn
  intro k hk
  unfold start entering at hk
  split at hk
  · next f hf =>
    obtain ⟨r, hr, -, -, rfl⟩ := call_eq_ok hf
    have hpos := (hrs r (List.mem_of_find?_eq_some hr)).size_pos
    rw [rest_of_lt hpos] at hk
    cases hk
    intro c hc
    cases hc
  · cases hk

/-- If all routines are closed, no step runs a frame past its end. -/
theorem InRun.closedStep (hrs : ∀ r ∈ rs, r.Closed) {m : Machine} (h : InRun rs D entry args m) :
    ClosedStep m (step rs D m) :=
  step_closed hrs h.rests (h.atCalls hrs)

theorem InRun.pc_lt (hrs : ∀ r ∈ rs, r.Closed) {m : Machine} (h : InRun rs D entry args m)
    {f : Frame} (hf : f ∈ m.frames) : f.pc < f.routine.code.size := by
  rcases List.mem_cons.mp hf with rfl | hf
  · obtain ⟨i, hi⟩ := h.exists_instr
    exact lt_of_instr hi
  · obtain ⟨c, hc, rfl⟩ := List.mem_map.mp hf
    obtain ⟨name, regs, hcall⟩ := h.atCalls hrs c hc
    exact lt_of_instr hcall

/-- If all routines are closed, every frame that is ever there is at an instruction. -/
theorem Alive.pc_lt (hrs : ∀ r ∈ rs, r.Closed) {frames : List Frame}
    (h : Alive rs D entry args frames) {f : Frame} (hf : f ∈ frames) :
    f.pc < f.routine.code.size := by
  have henter {name : String} {vs : List Value} {depth : Nat} {site : Site} {g : Frame}
      (hg : call rs D name vs depth site = .ok g) : g.pc < g.routine.code.size := by
    obtain ⟨r, hr, -, -, rfl⟩ := call_eq_ok hg
    exact (hrs r (List.mem_of_find?_eq_some hr)).size_pos
  cases h with
  | entered hg =>
    rw [List.mem_singleton.mp hf]
    exact henter hg
  | between hm => exact hm.pc_lt hrs hf
  | called hm _ hg =>
    rcases List.mem_cons.mp hf with rfl | hf
    · exact henter hg
    · exact hm.pc_lt hrs hf

end Machine

/-! ### The same run without implicit returns -/

/-- The frame as it is if its routine is closed. -/
def Frame.close (f : Frame) : Frame := { f with routine := f.routine.close }

def Waiting.close (c : Waiting) : Waiting := { c with frame := c.frame.close }

/-- A closed frame runs the same instruction, or the appended return. -/
theorem Frame.instr_of_close {f : Frame} {i : Instr} (h : f.close.instr? = some i) :
    f.instr? = some i ∨ (f.isPastEnd = true ∧ i = .retVoid) := by
  have h : f.routine.close.code[f.pc]? = some i := h
  rcases f.routine.code_close with hcode | hcode
  · rw [hcode] at h
    exact Or.inl h
  · rw [hcode, Array.getElem?_push] at h
    split at h
    · next hend =>
      right
      constructor
      · simp [isPastEnd, hend]
      · exact (Option.some.inj h).symm
    · exact Or.inl h

theorem Frame.isPastEnd_of_close {f : Frame} (h : f.close.isPastEnd = true) :
    f.isPastEnd = true := by
  have h : f.routine.close.code.size ≤ f.pc := of_decide_eq_true h
  rcases f.routine.code_close with hcode | hcode
  · rw [hcode] at h
    simpa [isPastEnd] using h
  · rw [hcode, Array.size_push] at h
    have hle : f.routine.code.size ≤ f.pc := Nat.le_of_succ_le h
    simpa [isPastEnd] using hle

namespace Machine

variable {rs : List Routine} {D : Nat} {entry : String} {args : List Value}

/-- States of two runs, of which the first has implicit returns.  Where the first is about to run an
    appended return, the second has returned already. -/
inductive Mirrors : Next → Next → Prop where
  | running {f : Frame} {cs : List Waiting} : f.close.isPastEnd = false →
      Mirrors (.running ⟨f.close, cs.map Waiting.close⟩) (rest f cs)
  | finished (v : Option Value) : Mirrors (.finished v) (.finished v)
  | failed (e : Fault) : Mirrors (.failed e) (.failed e)

theorem rest_mirrors (f : Frame) (cs : List Waiting) :
    Mirrors (rest f.close (cs.map Waiting.close)) (rest f cs) := by
  induction cs generalizing f with
  | nil =>
    cases hend : f.close.isPastEnd with
    | false =>
      rw [rest, hend]
      exact .running hend
    | true =>
      rw [rest, rest, hend, Frame.isPastEnd_of_close hend]
      exact .finished none
  | cons c cs ih =>
    cases hend : f.close.isPastEnd with
    | false =>
      rw [rest, hend]
      exact .running hend
    | true =>
      -- Both return nothing to the caller, which then rests or returns in its turn.
      rw [rest, rest, hend, Frame.isPastEnd_of_close hend]
      exact ih (c.frame.setReg c.dest default).advance

theorem deliver_mirrors (v : Option Value) (cs : List Waiting) :
    Mirrors (deliver v (cs.map Waiting.close)) (deliver v cs) := by
  cases cs with
  | nil => exact .finished v
  | cons c cs => exact rest_mirrors (c.frame.setReg c.dest (v.getD default)).advance cs

theorem goTo_mirrors (f : Frame) (cs : List Waiting) (l : Label) :
    Mirrors (goTo f.close (cs.map Waiting.close) l) (goTo f cs l) := by
  have hplace : f.close.routine.positionOf l = f.routine.positionOf l := by
    simp [Frame.close, Routine.positionOf]
  have hsite : f.close.site = f.site := by
    simp [Frame.close, Frame.site]
  rw [goTo, goTo, hplace, hsite]
  split
  · next i _ => exact rest_mirrors { f with pc := i } cs
  · exact .failed _

/-- A call of a closed routine is made if that of the routine is, and refused in the same way. -/
theorem call_close (name : String) (vs : List Value) (depth : Nat) (site : Site) :
    call (rs.map Routine.close) D name vs depth site =
      (call rs D name vs depth site).map Frame.close := by
  rw [call, call, Routine.find?_map_close]
  cases Routine.find? rs name with
  | none => rfl
  | some r =>
    simp only [Option.map_some, Routine.paramCount_close]
    by_cases hargs : r.paramCount = vs.length
    · by_cases hdepth : D < depth
      · simp [hargs, hdepth, Except.map]
      · simp [hargs, hdepth, Except.map, Frame.enter, Frame.close]
    · simp [hargs, Except.map]

theorem exec_mirrors (f : Frame) (cs : List Waiting) (i : Instr) :
    Mirrors (exec (rs.map Routine.close) D f.close (cs.map Waiting.close) i) (exec rs D f cs i) := by
  have hsite : f.close.site = f.site := by
    simp [Frame.close, Frame.site]
  have hreg : ∀ r, f.close.reg r = f.reg r := fun _ => rfl
  cases i with
  | const d v => exact rest_mirrors (f.setReg d v).advance cs
  | load d j => exact rest_mirrors (f.setReg d (f.slot j)).advance cs
  | store s j => exact rest_mirrors (f.setSlot j (f.reg s)).advance cs
  | binary op d l r =>
    rw [exec_binary, exec_binary, hsite, hreg, hreg]
    cases op.apply (f.reg l) (f.reg r) with
    | some v => exact rest_mirrors (f.setReg d v).advance cs
    | none => exact .failed _
  | unary op d s => exact rest_mirrors (f.setReg d (op.apply (f.reg s))).advance cs
  | label l => exact rest_mirrors f.advance cs
  | jump l => exact goTo_mirrors f cs l
  | branchFalse c l =>
    rw [exec, exec, hreg]
    split
    · exact goTo_mirrors f cs l
    · exact rest_mirrors f.advance cs
  | call d name regs =>
    have hargs : regs.map f.close.reg = regs.map f.reg := List.map_congr_left fun r _ => hreg r
    have hdepth : f.close.depth = f.depth := rfl
    rw [exec, exec, hsite, hargs, hdepth, call_close]
    cases call rs D name (regs.map f.reg) (f.depth + 1) f.site with
    | ok g => exact rest_mirrors g (⟨f, d⟩ :: cs)
    | error e => exact .failed e
  | ret s => exact deliver_mirrors _ cs
  | retVoid => exact deliver_mirrors _ cs

/-- A step of the run with implicit returns is matched by a step of the other run, or by none if it
    runs an appended return. -/
theorem step_mirrors (rs : List Routine) (D : Nat) {x y : Next} (h : Mirrors x y) :
    ∃ k ≤ 1, Mirrors (onward (rs.map Routine.close) D x) (go rs D k y) := by
  cases h with
  | finished v => exact ⟨0, Nat.zero_le 1, .finished v⟩
  | failed e => exact ⟨0, Nat.zero_le 1, .failed e⟩
  | @running f cs hend =>
    obtain ⟨i, hi⟩ := instr_of_not_isPastEnd (by simp [hend] : ¬f.close.isPastEnd = true)
    have hstep : onward (rs.map Routine.close) D (.running ⟨f.close, cs.map Waiting.close⟩) =
        exec (rs.map Routine.close) D f.close (cs.map Waiting.close) i := step_of_instr hi
    rw [hstep]
    rcases Frame.instr_of_close hi with hsame | ⟨hpast, rfl⟩
    · refine ⟨1, Nat.le_refl 1, ?_⟩
      have hgo : go rs D 1 (rest f cs) = exec rs D f cs i := by
        rw [rest_of_instr hsame, go, onward, step_of_instr hsame]
        rfl
      rw [hgo]
      exact exec_mirrors f cs i
    · refine ⟨0, Nat.zero_le 1, ?_⟩
      rw [go, rest, hpast]
      exact deliver_mirrors none cs

theorem go_mirrors {x y : Next} (h : Mirrors x y) (n : Nat) :
    ∃ k ≤ n, Mirrors (go (rs.map Routine.close) D n x) (go rs D k y) := by
  induction n generalizing x y with
  | zero => exact ⟨0, Nat.le_refl 0, h⟩
  | succ n ih =>
    obtain ⟨k, hk, hstep⟩ := step_mirrors rs D h
    obtain ⟨k', hk', hgo⟩ := ih hstep
    refine ⟨k + k', by omega, ?_⟩
    rw [go, go_add]
    exact hgo

theorem start_mirrors :
    Mirrors (start (rs.map Routine.close) D entry args) (start rs D entry args) := by
  rw [start, start, entering, entering, call_close]
  cases call rs D entry args 0 .entry with
  | ok f => exact rest_mirrors f []
  | error e => exact .failed e

/-- What mirrors an end is the same end. -/
theorem Mirrors.eq_of_halted {x y : Next} (h : Mirrors x y) (hx : ∀ m, x ≠ .running m) : y = x := by
  cases h with
  | running _ => exact absurd rfl (hx _)
  | finished v => rfl
  | failed e => rfl

/-- The machine has run no more instructions than the steps after which its run is over. -/
theorem length_executed_le_of_haltsIn {x : Next} (hrests : Rests rs D x) {k : Nat}
    (h : HaltsIn rs D k x) (n : Nat) : (executed rs D n x).length ≤ k := by
  by_contra hlt
  obtain ⟨m, hm⟩ := running_of_lt_length_executed hrests (Nat.lt_of_not_le hlt)
  exact h m hm

/-- A run with implicit returns that is not stopped comes to the same end without them, in no more
    steps. -/
theorem mirrors_run {options : RunOptions}
    (h : ∀ limit, ¬(run (rs.map Routine.close) entry args options).FailsWith (.stepLimit limit)) :
    (run rs entry args options).outcome = (run (rs.map Routine.close) entry args options).outcome ∧
      (run rs entry args options).steps ≤ (run (rs.map Routine.close) entry args options).steps := by
  obtain ⟨n, D, trace⟩ := options
  have hhalts := haltsIn_of_not_failsWith (h n)
  have hrests : Rests (rs.map Routine.close) D (start (rs.map Routine.close) D entry args) :=
    start_rests
  -- After the steps that the first run counts, the second has come to the same end.
  obtain ⟨k, hk, hmirrors⟩ := go_mirrors start_mirrors (executed (rs.map Routine.close) D n
    (start (rs.map Routine.close) D entry args)).length
  rw [go_length_executed hrests] at hmirrors
  have hend := hmirrors.eq_of_halted hhalts
  have hover : HaltsIn rs D k (start rs D entry args) := by
    intro m hm
    rw [hend] at hm
    exact hhalts m hm
  have hgo : go rs D n (start rs D entry args) =
      go (rs.map Routine.close) D n (start (rs.map Routine.close) D entry args) := by
    obtain ⟨more, rfl⟩ := Nat.exists_eq_add_of_le
      (Nat.le_trans hk (length_executed_le hrests n))
    rw [go_add, go_of_halted hover, hend]
  have hhalts' : HaltsIn rs D n (start rs D entry args) := by
    intro m hm
    rw [hgo] at hm
    exact hhalts m hm
  constructor
  · rw [outcome_eq, outcome_eq, hgo]
  · rw [steps_of_halted hhalts, steps_of_halted hhalts']
    exact Nat.le_trans (length_executed_le_of_haltsIn start_rests hover n) hk

end Machine

/-! ### Programs -/

/-- The routines differ at most in a return at the end of the code of the first. -/
structure Routine.ClosesOnly (a b : Routine) : Prop where
  name : a.name = b.name
  paramCount : a.paramCount = b.paramCount
  localCount : a.localCount = b.localCount
  regCount : a.regCount = b.regCount
  labels : a.labels = b.labels
  code : a.code = b.code ∨ a.code = b.code.push .retVoid

theorem Routine.closesOnly_close (r : Routine) : r.close.ClosesOnly r where
  name := r.name_close
  paramCount := r.paramCount_close
  localCount := r.localCount_close
  regCount := r.regCount_close
  labels := r.labels_close
  code := r.code_close

/-- With implicit returns every routine is closed. -/
theorem Function.closed_of_lower {ctx : Context} {f : Function} {r : Routine}
    (h : f.lower ctx = .ok r) (hreturn : ctx.options.implicitReturn = true) : r.Closed := by
  obtain ⟨-, hfinish⟩ := finish_of_lower h
  rw [hreturn, finished, if_pos rfl] at hfinish
  obtain ⟨-, -, -, -, hcode, hposition⟩ := Builder.finish_eq_ok hfinish
  constructor
  · rw [hcode]
    unfold Builder.close
    split
    · next hlast => exact hlast
    · simp [Builder.emit, Instr.isReturn]
  · intro l i hi
    rw [hposition, ← hcode] at hi
    obtain ⟨hlt, hlabel, -⟩ := List.idxOf?_eq_some_iff.mp hi
    rw [← Array.getElem?_toList, List.getElem?_eq_getElem hlt, hlabel]

open Machine

/-- **Implicit returns close functions and change nothing else.**  Lower a program with and without
    them.  The same functions fail with the same errors, and the routines differ at most in a return
    at the end of the code.  In every run with implicit returns all frames are at an instruction at
    all times, and a frame is given up only when it runs a return.  If such a run is not stopped for
    lack of steps, the run without implicit returns comes to the same end, with the same value, none,
    or the same fault at the same place, and it takes no more steps. -/
theorem implicit_returns_only_close (p : Program) (verify : Bool) :
    ∀ A B, p.lower ⟨verify, true⟩ = A → p.lower ⟨verify, false⟩ = B →
      (A.errors = B.errors ∧
        (∀ f ∈ p.functions, ∀ e, f.lower (.ofProgram p ⟨verify, true⟩) = .error e ↔
          f.lower (.ofProgram p ⟨verify, false⟩) = .error e) ∧
        List.Forall₂ Routine.ClosesOnly A.routines B.routines) ∧
      (∀ D entry args,
        (∀ frames, Alive A.routines D entry args frames →
          ∀ f ∈ frames, f.pc < f.routine.code.size) ∧
        ∀ m, InRun A.routines D entry args m → ClosedStep m (step A.routines D m)) ∧
      ∀ entry args options,
        (∀ limit, ¬(run A.routines entry args options).FailsWith (.stepLimit limit)) →
        (run B.routines entry args options).outcome = (run A.routines entry args options).outcome ∧
        (run B.routines entry args options).steps ≤ (run A.routines entry args options).steps := by
  rintro A B rfl rfl
  have hclosed : ∀ r ∈ (p.lower ⟨verify, true⟩).routines, r.Closed := by
    intro r hr
    obtain ⟨f, -, hf⟩ := Program.exists_of_mem_routines hr
    apply Function.closed_of_lower hf
    rw [Context.options_ofProgram]
  refine ⟨⟨?_, ?_, ?_⟩, ?_, ?_⟩
  · rw [Program.lower_closing]
  · intro f _ e
    rw [Program.lower_function_closing]
    cases f.lower (.ofProgram p ⟨verify, false⟩) <;> simp [Except.map]
  · rw [Program.lower_closing, List.forall₂_map_left_iff]
    exact List.forall₂_same.mpr fun r _ => r.closesOnly_close
  · intro D entry args
    exact ⟨fun frames h f hf => h.pc_lt hclosed hf, fun m hm => hm.closedStep hclosed⟩
  · intro entry args options h
    rw [Program.lower_closing] at h ⊢
    exact mirrors_run h

/-- A function that ends with a call of a function without a body. -/
def callsNothing : Program where
  functions :=
    [⟨"f", [], .eval ⟨⟨0⟩, .unknown⟩ (.call .unknown "g" []), .unknown⟩,
      ⟨"g", [], .block ⟨⟨1⟩, .unknown⟩ [], .unknown⟩]

theorem implicit_returns_only_close_callsNothing :
    (run (callsNothing.lower ⟨true, true⟩).routines "f" [] {}).steps = 3 ∧
      (run (callsNothing.lower ⟨true, false⟩).routines "f" [] {}).outcome = .ok none ∧
      (run (callsNothing.lower ⟨true, false⟩).routines "f" [] {}).steps ≤ 3 := by
  have hout : (run (callsNothing.lower ⟨true, true⟩).routines "f" [] {}).outcome = .ok none := rfl
  have hsteps : (run (callsNothing.lower ⟨true, true⟩).routines "f" [] {}).steps = 3 := rfl
  have hnever (limit) :
      ¬(run (callsNothing.lower ⟨true, true⟩).routines "f" [] {}).FailsWith (.stepLimit limit) := by
    rintro ⟨site, hsite⟩
    rw [hout] at hsite
    cases hsite
  obtain ⟨-, -, hrun⟩ := implicit_returns_only_close callsNothing true _ _ rfl rfl
  obtain ⟨hsame, hle⟩ := hrun "f" [] {} hnever
  rw [hout] at hsame
  rw [hsteps] at hle
  exact ⟨hsteps, hsame, hle⟩

end JumpCode
