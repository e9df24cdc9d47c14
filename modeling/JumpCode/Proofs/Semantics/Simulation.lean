import JumpCode.Proofs.Lowering.Breaks
import JumpCode.Proofs.Lowering.Resolution
import JumpCode.Proofs.Semantics.Execution

/-!
# The machine does what trees mean

The code of an expression or a statement, wherever it stands in a routine, is run by the machine as
the tree says.  An `Activation` is a call that is being run, and `Activation.Holds` ties one of its
frames to an environment: the slot of each name holds the value of the name.

Running an expression leaves the registers below its own as they were, which is how operands and
arguments are still there when they are needed.  Running a statement leads on to the code after it,
to the exit of the loop around it, or back to the callers.
-/

namespace JumpCode

/-! ### Registers and slots -/

namespace Frame

@[simp] theorem advance_pc (f : Frame) : f.advance.pc = f.pc + 1 := rfl
@[simp] theorem advance_reg (f : Frame) (k : Reg) : f.advance.reg k = f.reg k := rfl
@[simp] theorem advance_slot (f : Frame) (i : Slot) : f.advance.slot i = f.slot i := rfl
@[simp] theorem setReg_slot (f : Frame) (d : Reg) (v : Value) (i : Slot) :
    (f.setReg d v).slot i = f.slot i := rfl
@[simp] theorem setSlot_reg (f : Frame) (j : Slot) (v : Value) (k : Reg) :
    (f.setSlot j v).reg k = f.reg k := rfl

@[simp] theorem setReg_reg (f : Frame) (d : Reg) (v : Value) (k : Reg) :
    (f.setReg d v).reg k = if k = d then v else f.reg k :=
  Cells.read_write _ _ _ _

@[simp] theorem setSlot_slot (f : Frame) (j : Slot) (v : Value) (i : Slot) :
    (f.setSlot j v).slot i = if i = j then v else f.slot i :=
  Cells.read_write _ _ _ _

end Frame

/-- A call that is being run: its routine, how deep it is nested, the names that its slots stand
    for, and the frames that wait for it. -/
structure Activation where
  routine : Routine
  depth : Nat
  names : List String
  callers : List Waiting

namespace Activation

/-- The slot of a name. -/
def slot (a : Activation) (x : String) : Slot := a.names.idxOf x

/-- The frame `f` of the activation is at the instruction `i`, and its slots hold the values that
    the environment gives to their names. -/
structure Holds (a : Activation) (env : Env) (i : Nat) (f : Frame) : Prop where
  routine : f.routine = a.routine
  depth : f.depth = a.depth
  pc : f.pc = i
  slots : ∀ x ∈ a.names, f.slot (a.slot x) = env x

/-- The machine is at the instruction `i` of the activation. -/
def At (a : Activation) (env : Env) (i : Nat) (x : Next) : Prop :=
  ∃ f, a.Holds env i f ∧ x = Machine.rest f a.callers

variable {a : Activation} {env : Env} {i : Nat} {f : Frame}

namespace Holds

theorem instr? (hf : a.Holds env i f) {op : Instr} (h : a.routine.code.toList[i]? = some op) :
    f.instr? = some op := by
  rw [Frame.instr?, hf.routine, hf.pc, ← Array.getElem?_toList, h]

theorem advance (hf : a.Holds env i f) : a.Holds env (i + 1) f.advance :=
  ⟨hf.routine, hf.depth, congrArg (· + 1) hf.pc, hf.slots⟩

theorem setReg (hf : a.Holds env i f) (d : Reg) (v : Value) : a.Holds env i (f.setReg d v) :=
  ⟨hf.routine, hf.depth, hf.pc, hf.slots⟩

theorem jump (hf : a.Holds env i f) (j : Nat) : a.Holds env j { f with pc := j } :=
  ⟨hf.routine, hf.depth, rfl, hf.slots⟩

/-- Storing a value in the slot of a name is storing it under the name. -/
theorem setSlot (hf : a.Holds env i f) (x : String) (v : Value) :
    a.Holds (env.set x v) i (f.setSlot (a.slot x) v) := by
  refine ⟨hf.routine, hf.depth, hf.pc, ?_⟩
  intro y hy
  rw [Frame.setSlot_slot, Env.set]
  by_cases hyx : y = x
  · rw [if_pos hyx, if_pos (by rw [hyx])]
  · have hslot : a.slot y ≠ a.slot x := by
      intro heq
      exact hyx ((List.idxOf_inj hy).mp heq)
    rw [if_neg hyx, if_neg hslot, hf.slots y hy]

end Holds

end Activation

/-! ### Expressions -/

open Machine

variable {rs : List Routine} {D : Nat} {ctx : Context}

/-- Calls of declared functions that are made at a given depth come to what `call` says of them. -/
def CallsAt (rs : List Routine) (D : Nat) (ctx : Context) (depth : Nat) (call : Calls) : Prop :=
  ∀ name args sig, ctx.find? name = some sig → sig.arity = args.length → ∀ site cs,
    Simulates rs D (entering rs D name args depth site cs) (call name args)
      fun v y => y = deliver v cs

/-- Some registers have got values, the activation has gone on to the instruction `i`, and the
    registers below `n` are as they were in `f`. -/
def Activation.Evaluated {α : Type} (a : Activation) (f : Frame) (n i : Nat)
    (value : Frame → α) : α × Env → Next → Prop := fun (v, env) y =>
  ∃ g, y = rest g a.callers ∧ a.Holds env i g ∧ value g = v ∧ ∀ k : Nat, k < n → g.reg k = f.reg k

namespace Expr

variable {a : Activation} {call : Calls}

mutual

theorem eval_simulates (hcall : CallsAt rs D ctx (a.depth + 1) call) (e : Expr)
    (hres : e.Resolved ctx a.names) {n i : Nat}
    (hcode : Stands a.routine.code.toList i (e.code a.slot n)) {env : Env} {f : Frame}
    (hf : a.Holds env i f) :
    Simulates rs D (rest f a.callers) (e.eval call env)
      (a.Evaluated f n (i + e.size) fun g => g.reg (e.result n)) := by
  cases e with
  | int o v =>
    refine .after (reaches_exec (hf.instr? hcode.head)) (.pure ?_)
    refine ⟨_, rfl, (hf.setReg n _).advance, by simp [result], fun k hk => ?_⟩
    simp [Nat.ne_of_lt hk]
  | bool o b =>
    refine .after (reaches_exec (hf.instr? hcode.head)) (.pure ?_)
    refine ⟨_, rfl, (hf.setReg n _).advance, by simp [result], fun k hk => ?_⟩
    simp [Nat.ne_of_lt hk]
  | ident o x =>
    refine .after (reaches_exec (hf.instr? hcode.head)) (.pure ?_)
    refine ⟨_, rfl, (hf.setReg n _).advance, ?_, fun k hk => ?_⟩
    · simp [result, hf.slots x hres]
    · simp [Nat.ne_of_lt hk]
  | unary o op e =>
    refine (eval_simulates hcall e hres hcode.left hf).bind ?_
    rintro ⟨v, env₁⟩ _ ⟨f₁, rfl, hf₁, rfl, hkeep⟩
    have hop := hcode.right.head
    rw [length_code] at hop
    refine .after (reaches_exec (hf₁.instr? hop)) (.pure ?_)
    refine ⟨_, rfl, (hf₁.setReg _ _).advance, by simp [result], fun k hk => ?_⟩
    have hne : k ≠ n + e.regCount := by omega
    simp [hne, hkeep k hk]
  | binary o op l r =>
    have hcode_r := hcode.right
    rw [length_code] at hcode_r
    have hop := hcode_r.right.head
    rw [length_code] at hop
    refine (eval_simulates hcall l hres.1 hcode.left hf).bind ?_
    rintro ⟨v, env₁⟩ _ ⟨f₁, rfl, hf₁, hv, hkeep₁⟩
    refine (eval_simulates hcall r hres.2 hcode_r.left hf₁).bind ?_
    rintro ⟨w, env₂⟩ _ ⟨f₂, rfl, hf₂, hw, hkeep₂⟩
    -- The left operand is in a register that the right one does not use.
    have hv₂ : f₂.reg (l.result n) = v := (hkeep₂ _ (l.result_lt n)).trans hv
    have hw₂ : f₂.reg (r.result (n + l.regCount)) = w := hw
    refine .after (reaches_exec (hf₂.instr? hop)) ?_
    simp only [exec_binary, hv₂, hw₂]
    rw [size, ← Nat.add_assoc, ← Nat.add_assoc]
    cases op.apply v w with
    | none => exact .trap (.refl _)
    | some u =>
      refine .pure ⟨_, rfl, (hf₂.setReg _ _).advance, by simp [result], fun k hk => ?_⟩
      have hne : k ≠ n + l.regCount + r.regCount := by omega
      simp [hne, hkeep₂ k (by omega), hkeep₁ k hk]
  | assign o x e =>
    refine (eval_simulates hcall e hres.1 hcode.left hf).bind ?_
    rintro ⟨v, env₁⟩ _ ⟨f₁, rfl, hf₁, rfl, hkeep⟩
    have hop := hcode.right.head
    rw [length_code] at hop
    refine .after (reaches_exec (hf₁.instr? hop)) (.pure ?_)
    exact ⟨_, rfl, (hf₁.setSlot x _).advance, rfl, hkeep⟩
  | call o name args =>
    obtain ⟨⟨sig, hsig, harity⟩, hargs⟩ := hres
    refine (evalAll_simulates hcall args hargs hcode.left hf).bind ?_
    rintro ⟨vs, env₁⟩ _ ⟨f₁, rfl, hf₁, hvs, hkeep⟩
    have hop := hcode.right.head
    rw [length_codeAll] at hop
    refine .after (reaches_exec (hf₁.instr? hop)) ?_
    have hvs : (results n args).map f₁.reg = vs := hvs
    have hlen : vs.length = args.length := by rw [← hvs, List.length_map, length_results]
    have hexec : exec rs D f₁ a.callers (.call (n + regCountAll args) name (results n args)) =
        entering rs D name vs (a.depth + 1) f₁.site
          (⟨f₁, n + regCountAll args⟩ :: a.callers) := by
      rw [← hvs, ← hf₁.depth]
      rfl
    rw [hexec]
    refine (hcall name vs sig hsig (harity.trans hlen.symm) _ _).bind ?_
    rintro v _ rfl
    -- What the callee returns is put into the register of the call.
    refine .pure ⟨_, rfl, (hf₁.setReg _ _).advance, by simp [result]; rfl, fun k hk => ?_⟩
    have hne : k ≠ n + regCountAll args := by omega
    simp [hne, hkeep k hk]

theorem evalAll_simulates (hcall : CallsAt rs D ctx (a.depth + 1) call) (es : List Expr)
    (hres : ResolvedAll ctx a.names es) {n i : Nat}
    (hcode : Stands a.routine.code.toList i (codeAll a.slot n es)) {env : Env} {f : Frame}
    (hf : a.Holds env i f) :
    Simulates rs D (rest f a.callers) (evalAll call es env)
      (a.Evaluated f n (i + sizeAll es) fun g => (results n es).map g.reg) := by
  cases es with
  | nil => exact .pure ⟨f, rfl, hf, rfl, fun _ _ => rfl⟩
  | cons e es =>
    refine (eval_simulates hcall e hres.1 hcode.left hf).bind ?_
    rintro ⟨v, env₁⟩ _ ⟨f₁, rfl, hf₁, hv, hkeep₁⟩
    have hcode' := hcode.right
    rw [length_code] at hcode'
    refine (evalAll_simulates hcall es hres.2 hcode' hf₁).bind ?_
    rintro ⟨vs, env₂⟩ _ ⟨f₂, rfl, hf₂, hvs, hkeep₂⟩
    have hv₂ : f₂.reg (e.result n) = v := (hkeep₂ _ (e.result_lt n)).trans hv
    have hvs₂ : (results (n + e.regCount) es).map f₂.reg = vs := hvs
    rw [sizeAll, ← Nat.add_assoc]
    refine .pure ⟨f₂, rfl, hf₂, ?_, fun k hk => ?_⟩
    · simp [results, hv₂, hvs₂]
    · rw [hkeep₂ k (by omega), hkeep₁ k hk]

end

end Expr

/-! ### Going on -/

/-- Every label has the place at which it stands. -/
def Routine.LabelsPlaced (r : Routine) : Prop :=
  ∀ i l, r.code.toList[i]? = some (.label l) → r.positionOf l = some i

theorem Function.labelsPlaced_of_lower {f : Function} {r : Routine} (h : f.lower ctx = .ok r)
    (hn : f.body.labelCount ≤ UInt32.size) : r.LabelsPlaced := by
  obtain ⟨hv, hfinish⟩ := finish_of_lower h
  obtain ⟨-, -, -, -, hcode, hposition⟩ := Builder.finish_eq_ok hfinish
  have hsound := soundLabels_finished hv hn ctx.options.implicitReturn
  intro i l hi
  rw [hcode] at hi
  rw [hposition]
  exact idxOf?_eq_of_once (hsound.once l) hi

namespace Activation

variable {a : Activation}

/-- Where a statement leads: to the instruction `i` after its code, to the exit of the loop around
    it, or back to the callers. -/
def Leads (a : Activation) (loop : Option (StmtId × Label)) (i : Nat) : Flow → Next → Prop
  | .next env, y => a.At env i y
  | .broke env, y => ∃ x ∈ loop, ∃ j, a.routine.positionOf x.2 = some j ∧ a.At env j y
  | .returned v, y => y = deliver v a.callers

/-- From the instruction `i` the machine gets to the instruction `j`, and nothing else changes. -/
def Passes (rs : List Routine) (D : Nat) (a : Activation) (i j : Nat) : Prop :=
  ∀ env x, a.At env i x → ∃ y, Reaches rs D x y ∧ a.At env j y

theorem Passes.trans {i j k : Nat} (hij : Passes rs D a i j) (hjk : Passes rs D a j k) :
    Passes rs D a i k := by
  intro env x hx
  obtain ⟨y, hxy, hy⟩ := hij env x hx
  obtain ⟨z, hyz, hz⟩ := hjk env y hy
  exact ⟨z, hxy.trans hyz, hz⟩

theorem passes_label {i : Nat} {l : Label} (h : a.routine.code.toList[i]? = some (.label l)) :
    Passes rs D a i (i + 1) := by
  rintro env _ ⟨f, hf, rfl⟩
  exact ⟨_, reaches_exec (hf.instr? h), f.advance, hf.advance, rfl⟩

theorem goTo_eq {env : Env} {i j : Nat} {f : Frame} (hf : a.Holds env i f) {l : Label}
    (hl : a.routine.positionOf l = some j) :
    goTo f a.callers l = rest { f with pc := j } a.callers := by
  rw [goTo, hf.routine, hl]

theorem passes_jump {i j : Nat} {l : Label} (h : a.routine.code.toList[i]? = some (.jump l))
    (hl : a.routine.positionOf l = some j) : Passes rs D a i j := by
  rintro env _ ⟨f, hf, rfl⟩
  refine ⟨_, reaches_exec (hf.instr? h), _, hf.jump j, ?_⟩
  exact goTo_eq hf hl

/-- A statement whose code is followed by steps that change nothing leads to where they lead. -/
theorem Leads.pass {loop : Option (StmtId × Label)} {i j : Nat} (hij : Passes rs D a i j)
    {flow : Flow} {y : Next} (h : a.Leads loop i flow y) :
    ∃ z, Reaches rs D y z ∧ a.Leads loop j flow z := by
  cases flow with
  | next env => exact hij env y h
  | broke env => exact ⟨y, .refl y, h⟩
  | returned v => exact ⟨y, .refl y, h⟩

/-- A condition that fails leads to the label of its branch, and one that holds to what follows. -/
theorem simulates_branch {α : Type} {P₁ P₂ : Meaning α} {Q : α → Next → Prop} {env : Env}
    {i j : Nat} {f : Frame} (hf : a.Holds env i f) {c : Reg} {l : Label}
    (hop : a.routine.code.toList[i]? = some (.branchFalse c l))
    (hl : a.routine.positionOf l = some j)
    (hzero : ∀ g, a.Holds env j g → Simulates rs D (rest g a.callers) P₁ Q)
    (hnonzero : ∀ g, a.Holds env (i + 1) g → Simulates rs D (rest g a.callers) P₂ Q) :
    Simulates rs D (rest f a.callers) (if (f.reg c).isZero then P₁ else P₂) Q := by
  refine .after (reaches_exec (hf.instr? hop)) ?_
  rw [exec]
  split
  · rw [goTo_eq hf hl]
    exact hzero _ (hf.jump j)
  · exact hnonzero _ hf.advance

end Activation

/-! ### Statements -/

namespace Stmt

open Activation

variable {a : Activation} {call : Calls}

/-- Wherever the code of the statement stands in the routine of the activation, the machine does what
    the statement means, and then is where the statement leads. -/
def RunsAs (rs : List Routine) (D : Nat) (a : Activation) (call : Calls) (s : Stmt) : Prop :=
  ∀ ⦃p : Point⦄ ⦃loop : Option (StmtId × Label)⦄, Enclosed p loop s →
    (∀ x ∈ loop, (a.routine.positionOf x.2).isSome) →
    ∀ ⦃i : Nat⦄, Stands a.routine.code.toList i (s.code a.slot p) →
    ∀ ⦃env : Env⦄ ⦃f : Frame⦄, a.Holds env i f →
      Simulates rs D (rest f a.callers) (s.exec call env) (a.Leads loop (i + s.size))

theorem runsAs_eval (hcall : CallsAt rs D ctx (a.depth + 1) call) (m : Mark) {e : Expr}
    (hres : e.Resolved ctx a.names) : RunsAs rs D a call (.eval m e) := by
  intro p loop _ _ i hcode env f hf
  refine (e.eval_simulates hcall hres hcode hf).bind ?_
  rintro ⟨v, env₁⟩ _ ⟨g, rfl, hg, -, -⟩
  exact .pure ⟨g, hg, rfl⟩

theorem runsAs_ret (m : Mark) : RunsAs rs D a call (.ret m none) := by
  intro p loop _ _ i hcode env f hf
  exact .after (reaches_exec (hf.instr? hcode.head)) (.pure rfl)

theorem runsAs_retValue (hcall : CallsAt rs D ctx (a.depth + 1) call) (m : Mark) {e : Expr}
    (hres : e.Resolved ctx a.names) : RunsAs rs D a call (.ret m (some e)) := by
  intro p loop _ _ i hcode env f hf
  refine (e.eval_simulates hcall hres hcode.left hf).bind ?_
  rintro ⟨v, env₁⟩ _ ⟨g, rfl, hg, rfl, -⟩
  have hop := hcode.right.head
  rw [Expr.length_code] at hop
  exact .after (reaches_exec (hg.instr? hop)) (.pure rfl)

theorem runsAs_ifThen (hcall : CallsAt rs D ctx (a.depth + 1) call)
    (hlabels : a.routine.LabelsPlaced) (m : Mark) {c : Expr} {t : Stmt}
    (hres : c.Resolved ctx a.names) (ht : RunsAs rs D a call t) :
    RunsAs rs D a call (.ifThen m c t) := by
  intro p loop henc hloop i hcode env f hf
  have h := ifThenAt hcode
  rw [add_size_ifThen]
  refine (c.eval_simulates hcall hres h.cond hf).bind ?_
  rintro ⟨v, env₁⟩ _ ⟨g, rfl, hg, rfl, -⟩
  refine simulates_branch hg h.branch (hlabels _ _ h.last) (fun g hg => ?_) fun g hg => ?_
  · obtain ⟨y, hy, hat⟩ := passes_label h.last env₁ _ ⟨g, hg, rfl⟩
    exact .after hy (.pure hat)
  · exact (ht henc.ifThen hloop h.thenBranch hg).mono
      fun _ _ hy => hy.pass (passes_label h.last)

theorem runsAs_ifElse (hcall : CallsAt rs D ctx (a.depth + 1) call)
    (hlabels : a.routine.LabelsPlaced) (m : Mark) {c : Expr} {t e : Stmt}
    (hres : c.Resolved ctx a.names) (ht : RunsAs rs D a call t) (he : RunsAs rs D a call e) :
    RunsAs rs D a call (.ifElse m c t e) := by
  intro p loop henc hloop i hcode env f hf
  have h := ifElseAt hcode
  rw [add_size_ifElse]
  refine (c.eval_simulates hcall hres h.cond hf).bind ?_
  rintro ⟨v, env₁⟩ _ ⟨g, rfl, hg, rfl, -⟩
  refine simulates_branch hg h.branch (hlabels _ _ h.middle) (fun g hg => ?_) fun g hg => ?_
  · obtain ⟨_, hy, g', hg', rfl⟩ := passes_label h.middle env₁ _ ⟨g, hg, rfl⟩
    refine .after hy ?_
    exact (he henc.elseBranch hloop h.elseBranch hg').mono
      fun _ _ hy => hy.pass (passes_label h.last)
  · -- After the first branch the machine jumps over the second.
    refine (ht henc.thenBranch hloop h.thenBranch hg).mono fun _ _ hy => hy.pass ?_
    exact (passes_jump h.skip (hlabels _ _ h.last)).trans (passes_label h.last)

theorem runsAs_whileLoop (hcall : CallsAt rs D ctx (a.depth + 1) call)
    (hlabels : a.routine.LabelsPlaced) (m : Mark) {c : Expr} {body : Stmt}
    (hres : c.Resolved ctx a.names) (hbody : RunsAs rs D a call body) :
    RunsAs rs D a call (.whileLoop m c body) := by
  intro p loop henc _ i hcode env f hf
  have h := whileLoopAt hcode
  have hplaced := hlabels _ _ h.last
  rw [add_size_whileLoop]
  refine .rounds (fun env => a.At env i) ?_ ⟨f, hf, rfl⟩
  -- A round starts with the label at the start of the loop.
  rintro env _ ⟨f, hf, rfl⟩
  have hop := hf.instr? h.top
  refine ⟨⟨f, a.callers⟩, rest_of_instr hop, ?_⟩
  rw [step_of_instr hop]
  refine (c.eval_simulates hcall hres h.cond hf.advance).bind ?_
  rintro ⟨v, env₁⟩ _ ⟨g, rfl, hg, rfl, -⟩
  refine simulates_branch hg h.branch hplaced (fun g hg => ?_) fun g hg => ?_
  · obtain ⟨y, hy, hat⟩ := passes_label h.last env₁ _ ⟨g, hg, rfl⟩
    exact .after hy (.pure hat)
  · have hinside : ∀ x ∈ some (m.id, Label.ofNat (p.label + 1)),
        (a.routine.positionOf x.2).isSome := by
      intro x hx
      cases hx
      rw [hplaced]
      rfl
    refine (hbody henc.whileLoop hinside h.inside hg).mono fun flow y hy => ?_
    cases flow with
    | next env₂ => exact passes_jump h.back (hlabels _ _ h.top) env₂ y hy
    | broke env₂ =>
      -- The innermost loop around the body is this one.
      obtain ⟨x, hx, j, hj, hat⟩ := hy
      cases hx
      cases hplaced.symm.trans hj
      exact passes_label h.last env₂ y hat
    | returned v => exact ⟨y, .refl y, hy⟩

theorem runsAs_breakLoop (m : Mark) (link : Option StmtId) :
    RunsAs rs D a call (.breakLoop m link) := by
  intro p loop henc hloop i hcode env f hf
  obtain ⟨x, hx, hexit⟩ := henc.exit_of_break
  obtain ⟨j, hj⟩ := Option.isSome_iff_exists.mp (hloop x hx)
  rw [code, hexit] at hcode
  refine .after (reaches_exec (hf.instr? hcode.head)) (.pure ?_)
  exact ⟨x, hx, j, hj, _, hf.jump j, goTo_eq hf hj⟩

mutual

/-- **The code of a statement does what the statement means.** -/
theorem exec_simulates (hcall : CallsAt rs D ctx (a.depth + 1) call)
    (hlabels : a.routine.LabelsPlaced) (s : Stmt) (hres : s.Resolved ctx a.names) :
    RunsAs rs D a call s := by
  cases s with
  | block m body =>
    intro p loop henc hloop i hcode env f hf
    exact execAll_simulates hcall hlabels body hres henc hloop hcode hf
  | eval m e => exact runsAs_eval hcall m hres
  | ret m e =>
    cases e with
    | none => exact runsAs_ret m
    | some e => exact runsAs_retValue hcall m hres
  | ifThen m c t =>
    exact runsAs_ifThen hcall hlabels m hres.1 (exec_simulates hcall hlabels t hres.2)
  | ifElse m c t e =>
    exact runsAs_ifElse hcall hlabels m hres.1 (exec_simulates hcall hlabels t hres.2.1)
      (exec_simulates hcall hlabels e hres.2.2)
  | whileLoop m c body =>
    exact runsAs_whileLoop hcall hlabels m hres.1 (exec_simulates hcall hlabels body hres.2)
  | breakLoop m link => exact runsAs_breakLoop m link

theorem execAll_simulates (hcall : CallsAt rs D ctx (a.depth + 1) call)
    (hlabels : a.routine.LabelsPlaced) (ss : List Stmt) (hres : ResolvedAll ctx a.names ss)
    {p : Point} {m : Mark} {loop : Option (StmtId × Label)} (henc : Enclosed p loop (.block m ss))
    (hloop : ∀ x ∈ loop, (a.routine.positionOf x.2).isSome) {i : Nat}
    (hcode : Stands a.routine.code.toList i (codeAll a.slot p ss)) {env : Env} {f : Frame}
    (hf : a.Holds env i f) :
    Simulates rs D (rest f a.callers) (execAll call ss env) (a.Leads loop (i + sizeAll ss)) := by
  cases ss with
  | nil => exact .pure ⟨f, hf, rfl⟩
  | cons s ss =>
    refine (exec_simulates hcall hlabels s hres.1 henc.head hloop hcode.left hf).bind ?_
    intro flow y hy
    cases flow with
    | next env₁ =>
      obtain ⟨g, hg, rfl⟩ := hy
      have hcode' := hcode.right
      rw [length_code] at hcode'
      rw [sizeAll, ← Nat.add_assoc]
      exact execAll_simulates hcall hlabels ss hres.2 henc.tail hloop hcode' hg
    | broke env₁ => exact .pure hy
    | returned v => exact .pure hy

end

end Stmt

end JumpCode
