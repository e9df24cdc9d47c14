import JumpCode.Proofs.Machine.Activations
import JumpCode.Proofs.Semantics.Simulation

/-!
# The code of an expression

The code that an expression is lowered to can be put into any routine.  Wherever it stands, and
whatever registers and slots hold when it is entered, it computes the value of the expression and
disturbs nothing else.

Here nothing is known of the routines: a callee may be missing, may fail in any way, or may never
return.  So what the expression comes to is told by what its calls come to when the machine makes
them (`callEnding`).  There are three cases, and `Performs` says of each what the machine does: it
gets past the code and has the value, it fails while it is at the code, or it is at the code for
ever.
-/

namespace JumpCode

/-- How something may end: with a result, with a fault of some kind, or never. -/
abbrev Ending := ExceptT FaultKind Option

/-! ### What an expression comes to -/

namespace Expr

mutual

/-- The value of an expression and the environment after it, when `call` tells how calls end. -/
def outcome (call : String → List Value → Ending (Option Value)) :
    Expr → Env → Ending (Value × Env)
  | .int _ n, env => pure (.int n, env)
  | .bool _ b, env => pure (.bool b, env)
  | .ident _ x, env => pure (env x, env)
  | .unary _ op e, env => do
    let (v, env) ← e.outcome call env
    pure (op.apply v, env)
  | .binary _ op l r, env => do
    let (v, env) ← l.outcome call env
    let (w, env) ← r.outcome call env
    match op.apply v w with
    | some u => pure (u, env)
    | none => throw .divisionByZero
  | .assign _ x e, env => do
    let (v, env) ← e.outcome call env
    pure (v, env.set x v)
  | .call _ f args, env => do
    let (vs, env) ← outcomeAll call args env
    let v ← call f vs
    pure (v.getD (.int 0), env)

def outcomeAll (call : String → List Value → Ending (Option Value)) :
    List Expr → Env → Ending (List Value × Env)
  | [], env => pure ([], env)
  | e :: es, env => do
    let (v, env) ← e.outcome call env
    let (vs, env) ← outcomeAll call es env
    pure (v :: vs, env)

end

end Expr

/-! ### Endings and meanings

The meaning of a program evaluates expressions too, but knows of no faults other than traps.  The
two evaluations are the same one wherever their calls are.
-/

/-- The outcomes of `P` are the endings of `x`, if traps are reported under the limit `D`. -/
def Meaning.Is {α : Type} (D : Nat) (P : Meaning α) (x : Ending α) : Prop :=
  ∀ o : Except Trap α, P o ↔ x.run = some (o.mapError (Trap.kind D))

namespace Meaning.Is

variable {D : Nat} {α β : Type}

theorem pure (a : α) : Is D (pure a) (pure a) := by
  intro o
  cases o with
  | ok b => simp [Except.mapError, eq_comm]
  | error t => simp [Except.mapError]

theorem trap (t : Trap) : Is D (trap t : Meaning α) (throw (t.kind D)) := by
  intro o
  cases o with
  | ok b => simp [Meaning.trap, Except.mapError]
  | error t' => simp [Meaning.trap, Except.mapError, (Trap.kind_injective D).eq_iff, eq_comm]

theorem bind {P : Meaning α} {x : Ending α} {f : α → Meaning β} {k : α → Ending β}
    (h : Is D P x) (hf : ∀ a, Is D (f a) (k a)) : Is D (P >>= f) (x >>= k) := by
  intro o
  change ((∃ a, P (.ok a) ∧ f a o) ∨ ∃ t, P (.error t) ∧ o = .error t) ↔ _
  simp only [h _]
  rcases x with _ | e | a
  · change _ ↔ Option.none = _
    simp [ExceptT.run]
  · change _ ↔ some (Except.error e) = _
    cases o <;> simp [ExceptT.run, Except.mapError]
  · change _ ↔ (k a).run = _
    rw [← hf a o]
    simp [ExceptT.run, Except.mapError]

end Meaning.Is

namespace Expr

variable {D : Nat} {calls : Calls} {call : String → List Value → Ending (Option Value)}

mutual

/-- Where calls mean what they come to, so do expressions. -/
theorem eval_is_outcome (h : ∀ f vs, (calls f vs).Is D (call f vs)) (e : Expr) (env : Env) :
    (e.eval calls env).Is D (e.outcome call env) := by
  cases e with
  | int o n => exact .pure _
  | bool o b => exact .pure _
  | ident o x => exact .pure _
  | unary o op e => exact (eval_is_outcome h e env).bind fun _ => .pure _
  | binary o op l r =>
    refine (eval_is_outcome h l env).bind fun (v, env₁) => ?_
    refine (eval_is_outcome h r env₁).bind fun (w, env₂) => ?_
    dsimp only
    cases op.apply v w with
    | some u => exact .pure _
    | none => exact .trap .divisionByZero
  | assign o x e => exact (eval_is_outcome h e env).bind fun _ => .pure _
  | call o f args =>
    refine (evalAll_is_outcomeAll h args env).bind fun (vs, env₁) => ?_
    exact (h f vs).bind fun _ => .pure _

theorem evalAll_is_outcomeAll (h : ∀ f vs, (calls f vs).Is D (call f vs)) (es : List Expr)
    (env : Env) : (evalAll calls es env).Is D (outcomeAll call es env) := by
  cases es with
  | nil => exact .pure _
  | cons e es =>
    refine (eval_is_outcome h e env).bind fun (v, env₁) => ?_
    exact (evalAll_is_outcomeAll h es env₁).bind fun _ => .pure _

end

end Expr

/-! ### How the machine ends -/

/-- How a run has ended in a state. -/
def Next.ended : Next → Ending (Option Value)
  | .finished v => pure v
  | .failed e => throw e.kind
  | .running _ => ExceptT.mk none

namespace Machine

variable {rs : List Routine} {D : Nat}

open Classical in
/-- How a run from a state ends. -/
noncomputable def ending (rs : List Routine) (D : Nat) (x : Next) : Ending (Option Value) :=
  if h : ∃ n, HaltsIn rs D n x then (go rs D h.choose x).ended else ExceptT.mk none

theorem ending_of_reaches {x y : Next} (h : Reaches rs D x y) (hy : ∀ m, y ≠ .running m) :
    ending rs D x = y.ended := by
  have hhalts : ∃ n, HaltsIn rs D n x := by
    obtain ⟨n, rfl⟩ := h
    exact ⟨n, hy⟩
  rw [ending, dif_pos hhalts]
  exact congrArg Next.ended (Reaches.unique ⟨_, rfl⟩ h hhalts.choose_spec hy)

theorem ending_of_running {x : Next} (h : ∀ n, ∃ m, go rs D n x = .running m) :
    ending rs D x = ExceptT.mk none := by
  refine dif_neg ?_
  rintro ⟨n, hn⟩
  obtain ⟨m, hm⟩ := h n
  exact hn m hm

@[simp] theorem ending_failed (e : Fault) : ending rs D (.failed e) = throw e.kind :=
  ending_of_reaches (.refl _) nofun

/-- How a call ends that is made at the given depth. -/
noncomputable def callEnding (rs : List Routine) (D depth : Nat) (name : String)
    (args : List Value) : Ending (Option Value) :=
  ending rs D (entering rs D name args depth .entry [])

/-- A call ends in the same way wherever it is made from. -/
theorem ending_entering (name : String) (args : List Value) (depth : Nat) (site : Site) :
    ending rs D (entering rs D name args depth site []) = callEnding rs D depth name args := by
  unfold callEnding entering call
  cases Routine.find? rs name with
  | none => simp
  | some r =>
    by_cases harity : r.paramCount = args.length
    · by_cases hdepth : D < depth <;> simp [harity, hdepth]
    · simp [harity]

end Machine

/-! ### Doing something while at a stretch of code -/

/-- A stretch of the code of a frame: its routine, the frames under it, and the places from `first`
    up to but not including `stop`. -/
structure Stretch where
  routine : Routine
  callers : List Waiting
  first : Nat
  stop : Nat

namespace Stretch

/-- The frame is at an instruction of the stretch. -/
structure Covers (z : Stretch) (f : Frame) : Prop where
  routine : f.routine = z.routine
  first : z.first ≤ f.pc
  stop : f.pc < z.stop

/-- The machine is at the stretch: it runs a frame that is there, or something that this frame has
    called and waits for. -/
def WorksIn (z : Stretch) (x : Next) : Prop :=
  ∃ f, z.Covers f ∧
    (x = .running ⟨f, z.callers⟩ ∨
      ∃ top ws d, x = .running ⟨top, ws ++ ⟨f, d⟩ :: z.callers⟩)

end Stretch

namespace Machine

variable {rs : List Routine} {D : Nat} {z : Stretch} {α β : Type}

/-- What the machine does from the state `x` ends as `o` says.  Until then it is at the stretch `z`,
    and if there is a result then the state has to do with it as `Q` says. -/
def Performs (rs : List Routine) (D : Nat) (z : Stretch) (x : Next) (o : Ending α)
    (Q : α → Next → Prop) : Prop :=
  match o.run with
  | some (.ok a) => ∃ n, (∀ k < n, z.WorksIn (go rs D k x)) ∧ Q a (go rs D n x)
  | some (.error e) =>
    ∃ n, (∀ k ≤ n, z.WorksIn (go rs D k x)) ∧ ∃ site, go rs D (n + 1) x = .failed ⟨e, site⟩
  | none => ∀ n, z.WorksIn (go rs D n x)

namespace Performs

variable {x : Next} {o : Ending α} {Q : α → Next → Prop}

theorem pure {a : α} (h : Q a x) : Performs rs D z x (pure a) Q :=
  ⟨0, nofun, h⟩

/-- Going on to a later state, when the machine is at the stretch until then. -/
theorem after {n : Nat} (hx : ∀ k < n, z.WorksIn (go rs D k x))
    (h : Performs rs D z (go rs D n x) o Q) : Performs rs D z x o Q := by
  have hlater {m : Nat} (hm : ∀ k < m, z.WorksIn (go rs D k (go rs D n x))) :
      ∀ k < n + m, z.WorksIn (go rs D k x) := by
    intro k hk
    rcases Nat.lt_or_ge k n with hlt | hge
    · exact hx k hlt
    · rw [← Nat.add_sub_cancel' hge, go_add]
      exact hm (k - n) (by omega)
  unfold Performs at h ⊢
  cases hrun : o.run with
  | none =>
    rw [hrun] at h
    intro k
    exact hlater (m := k + 1) (fun j _ => h j) k (by omega)
  | some r =>
    rw [hrun] at h
    cases r with
    | ok a =>
      obtain ⟨m, hm, hq⟩ := h
      refine ⟨n + m, hlater hm, ?_⟩
      rwa [go_add]
    | error e =>
      obtain ⟨m, hm, site, hfail⟩ := h
      refine ⟨n + m, fun k hk => ?_, site, ?_⟩
      · exact hlater (m := m + 1) (fun j hj => hm j (Nat.le_of_lt_succ hj)) k (by omega)
      · rwa [Nat.add_assoc, go_add]

theorem bind {k : α → Ending β} {R : β → Next → Prop} (h : Performs rs D z x o Q)
    (hk : ∀ a y, Q a y → Performs rs D z y (k a) R) : Performs rs D z x (o >>= k) R := by
  -- What has failed or goes on for ever does so whatever was to follow.
  match o, h with
  | some (.ok a), h =>
    obtain ⟨n, hn, hq⟩ := h
    exact .after hn (hk a _ hq)
  | some (.error e), h => exact h
  | none, h => exact h

theorem mono {R : α → Next → Prop} (h : Performs rs D z x o Q) (hQ : ∀ a y, Q a y → R a y) :
    Performs rs D z x o R := by
  match o, h with
  | some (.ok a), h =>
    obtain ⟨n, hn, hq⟩ := h
    exact ⟨n, hn, hQ a _ hq⟩
  | some (.error e), h => exact h
  | none, h => exact h

/-- Running an instruction of the stretch. -/
theorem exec {f : Frame} {i : Instr} (hf : z.Covers f) (hi : f.instr? = some i)
    (h : Performs rs D z (Machine.exec rs D f z.callers i) o Q) :
    Performs rs D z (rest f z.callers) o Q := by
  rw [rest_of_instr hi]
  refine .after (n := 1) (fun k hk => ?_) ?_
  · rw [Nat.lt_one_iff.mp hk]
    exact ⟨f, hf, Or.inl rfl⟩
  · rw [← step_of_instr hi] at h
    exact h

/-- Running an instruction of the stretch that fails. -/
theorem fault {f : Frame} {i : Instr} {e : FaultKind} {site : Site} (hf : z.Covers f)
    (hi : f.instr? = some i) (h : Machine.exec rs D f z.callers i = .failed ⟨e, site⟩) :
    Performs rs D z (rest f z.callers) (throw e) Q := by
  rw [rest_of_instr hi]
  refine ⟨0, fun k hk => ?_, site, (step_of_instr hi).trans h⟩
  rw [Nat.le_zero.mp hk]
  exact ⟨f, hf, Or.inl rfl⟩

/-- Running a call of the stretch ends as the call does, and with the frame behind the call. -/
theorem call {f : Frame} {d : Reg} {name : String} {args : List Reg} (hf : z.Covers f)
    (hi : f.instr? = some (.call d name args)) :
    Performs rs D z (rest f z.callers) (callEnding rs D (f.depth + 1) name (args.map f.reg))
      fun v y => y = rest (f.setReg d (v.getD (.int 0))).advance z.callers := by
  have hstep : onward rs D (rest f z.callers) =
      (entering rs D name (args.map f.reg) (f.depth + 1) f.site []).under
        (⟨f, d⟩ :: z.callers) := by
    rw [rest_of_instr hi, ← entering_append]
    exact (step_of_instr hi).trans (exec_call f z.callers d name args)
  rw [← ending_entering _ _ _ f.site]
  generalize entering rs D name (args.map f.reg) (f.depth + 1) f.site [] = callee at hstep
  -- The callee runs as if nothing waited for it, and meanwhile the frame waits at the call.
  have hgo {n : Nat} (hrun : ∀ k < n, ∃ m, go rs D k callee = .running m) :
      go rs D (n + 1) (rest f z.callers) = (go rs D n callee).under (⟨f, d⟩ :: z.callers) := by
    rw [← go_under hrun, ← hstep]
    rfl
  have hworks {n : Nat} (hrun : ∀ k < n, ∃ m, go rs D k callee = .running m) :
      ∀ k < n + 1, z.WorksIn (go rs D k (rest f z.callers)) := by
    intro k hk
    cases k with
    | zero => exact ⟨f, hf, Or.inl (rest_of_instr hi)⟩
    | succ k =>
      obtain ⟨m, hm⟩ := hrun k (by omega)
      rw [hgo fun j hj => hrun j (by omega), hm]
      exact ⟨f, hf, Or.inr ⟨m.top, m.callers, d, rfl⟩⟩
  by_cases hrun : ∀ n, ∃ m, go rs D n callee = .running m
  · rw [ending_of_running hrun]
    intro n
    exact hworks (fun k _ => hrun k) n (Nat.lt_succ_self n)
  · obtain ⟨n, hn⟩ := not_forall.mp hrun
    rcases @running_or_first_halt rs D n callee with hall | ⟨k, -, hhalt, hbefore⟩
    · exact absurd (hall n (Nat.le_refl n)) hn
    · rw [ending_of_reaches ⟨k, rfl⟩ hhalt]
      have hlast := hgo hbefore
      cases hend : go rs D k callee with
      | running m => exact absurd hend (hhalt m)
      | finished v =>
        rw [hend] at hlast
        exact ⟨k + 1, hworks hbefore, hlast⟩
      | failed e =>
        rw [hend] at hlast
        exact ⟨k, fun j hj => hworks hbefore j (Nat.lt_succ_of_le hj), e.site, hlast⟩

end Performs

end Machine

/-! ### Frames during an expression -/

namespace Activation

/-- The stretch of an activation from one place up to another. -/
def stretch (a : Activation) (first stop : Nat) : Stretch := ⟨a.routine, a.callers, first, stop⟩

/-- The frame `f` of the activation is at the instruction `i`, and the slots of the names `ns` hold
    the values that the environment gives to them.  Other slots may hold anything. -/
def Knows (a : Activation) (ns : List String) (env : Env) (i : Nat) (f : Frame) : Prop :=
  ∃ held, a.Holds held i f ∧ ∀ x ∈ ns, held x = env x

/-- Since it was `f` the frame has kept its registers below `n`, and has kept all slots but those of
    the names `xs`. -/
structure Keeps (a : Activation) (n : Nat) (xs : List String) (f g : Frame) : Prop where
  regs : ∀ k : Reg, k < n → g.reg k = f.reg k
  slots : ∀ i : Slot, (∀ x ∈ xs, i ≠ a.slot x) → g.slot i = f.slot i

variable {a : Activation} {ns xs ys : List String} {env : Env} {i n m : Nat} {f g h : Frame}

namespace Knows

theorem slots (hf : a.Knows ns env i f) {x : String} (hx : x ∈ ns) (hname : x ∈ a.names) :
    f.slot (a.slot x) = env x := by
  obtain ⟨held, hf, hagree⟩ := hf
  rw [hf.slots x hname, hagree x hx]

theorem instr? (hf : a.Knows ns env i f) {op : Instr} (hop : a.routine.code.toList[i]? = some op) :
    f.instr? = some op := by
  obtain ⟨held, hf, -⟩ := hf
  exact hf.instr? hop

theorem covers (hf : a.Knows ns env i f) {first stop : Nat} (hfirst : first ≤ i)
    (hstop : i < stop) : (a.stretch first stop).Covers f := by
  obtain ⟨held, hf, -⟩ := hf
  exact ⟨hf.routine, hf.pc ▸ hfirst, hf.pc ▸ hstop⟩

theorem setReg (hf : a.Knows ns env i f) (d : Reg) (v : Value) :
    a.Knows ns env (i + 1) (f.setReg d v).advance := by
  obtain ⟨held, hf, hagree⟩ := hf
  exact ⟨held, (hf.setReg d v).advance, hagree⟩

theorem setSlot (hf : a.Knows ns env i f) (x : String) (v : Value) :
    a.Knows (addName ns x) (env.set x v) (i + 1) (f.setSlot (a.slot x) v).advance := by
  obtain ⟨held, hf, hagree⟩ := hf
  refine ⟨held.set x v, (hf.setSlot x v).advance, fun y hy => ?_⟩
  unfold Env.set
  by_cases hyx : y = x
  · rw [if_pos hyx, if_pos hyx]
  · rw [if_neg hyx, if_neg hyx]
    exact hagree y ((mem_addName.mp hy).resolve_right hyx)

end Knows

theorem keeps_refl (f : Frame) : a.Keeps n xs f f :=
  ⟨fun _ _ => rfl, fun _ _ => rfl⟩

namespace Keeps

theorem trans (h₁ : a.Keeps n xs f g) (h₂ : a.Keeps m ys g h) (hnm : n ≤ m) :
    a.Keeps n (xs ++ ys) f h := by
  constructor
  · intro k hk
    rw [h₂.regs k (Nat.lt_of_lt_of_le hk hnm), h₁.regs k hk]
  · intro i hi
    rw [h₂.slots i fun y hy => hi y (List.mem_append_right _ hy),
      h₁.slots i fun x hx => hi x (List.mem_append_left _ hx)]

theorem setReg (h : a.Keeps n xs f g) {d : Reg} (hd : n ≤ d) (v : Value) :
    a.Keeps n xs f (g.setReg d v).advance := by
  refine ⟨fun k hk => ?_, h.slots⟩
  have hne : k ≠ d := Nat.ne_of_lt (Nat.lt_of_lt_of_le hk hd)
  simp [hne, h.regs k hk]

theorem setSlot (h : a.Keeps n xs f g) (x : String) (v : Value) :
    a.Keeps n (xs ++ [x]) f (g.setSlot (a.slot x) v).advance := by
  refine ⟨h.regs, fun i hi => ?_⟩
  have hne : i ≠ a.slot x := hi x (by simp)
  simp [hne, h.slots i fun y hy => hi y (List.mem_append_left _ hy)]

end Keeps

/-- The code of something that assigns to `xs` and whose first register is `n` has been run: the
    frame, which was `f`, has gone on to the instruction `i` and holds the value. -/
def Computed {α : Type} (a : Activation) (ns xs : List String) (f : Frame) (n i : Nat)
    (value : Frame → α) : α × Env → Next → Prop := fun (v, env) y =>
  ∃ g, y = Machine.rest g a.callers ∧ a.Knows (addNames ns xs) env i g ∧ value g = v ∧
    a.Keeps n xs f g

end Activation

/-! ### The machine computes expressions -/

open Machine Activation

namespace Expr

theorem size_pos (e : Expr) : 0 < e.size := by
  cases e <;> exact Nat.succ_pos _

variable {rs : List Routine} {D : Nat} {ctx : Context} {a : Activation} {first stop : Nat}

mutual

theorem outcome_performs (e : Expr) {ns : List String} (hv : e.violation? ctx ns = none)
    (hnames : addNames ns e.targets ⊆ a.names) {n i : Nat}
    (hcode : Stands a.routine.code.toList i (e.code a.slot n)) (hfirst : first ≤ i)
    (hstop : i + e.size ≤ stop) {env : Env} {f : Frame} (hf : a.Knows ns env i f) :
    Performs rs D (a.stretch first stop) (rest f a.callers)
      (e.outcome (callEnding rs D (a.depth + 1)) env)
      (a.Computed ns e.targets f n (i + e.size) fun g => g.reg (e.result n)) := by
  cases e with
  | int o v =>
    refine .exec (hf.covers hfirst hstop) (hf.instr? hcode.head) (.pure ?_)
    exact ⟨_, rfl, hf.setReg n _, by simp [result], (keeps_refl f).setReg (Nat.le_refl n) _⟩
  | bool o b =>
    refine .exec (hf.covers hfirst hstop) (hf.instr? hcode.head) (.pure ?_)
    exact ⟨_, rfl, hf.setReg n _, by simp [result], (keeps_refl f).setReg (Nat.le_refl n) _⟩
  | ident o x =>
    refine .exec (hf.covers hfirst hstop) (hf.instr? hcode.head) (.pure ?_)
    refine ⟨_, rfl, hf.setReg n _, ?_, (keeps_refl f).setReg (Nat.le_refl n) _⟩
    have hx : x ∈ ns := by
      by_contra hx
      simp [violation?, hx] at hv
    simp [result, hf.slots hx (hnames hx)]
  | unary o op e =>
    rw [size, ← Nat.add_assoc] at hstop ⊢
    refine (outcome_performs e hv hnames hcode.left hfirst (by omega) hf).bind ?_
    rintro ⟨v, env₁⟩ _ ⟨g, rfl, hg, rfl, hkeep⟩
    have hop := hcode.right.head
    rw [length_code] at hop
    refine .exec (hg.covers (by omega) (by omega)) (hg.instr? hop) (.pure ?_)
    exact ⟨_, rfl, hg.setReg _ _, by simp [result], hkeep.setReg (Nat.le_add_right _ _) _⟩
  | binary o op l r =>
    rw [violation?, orElse_eq_none_iff] at hv
    rw [targets, addNames_append] at hnames
    rw [size, ← Nat.add_assoc, ← Nat.add_assoc] at hstop ⊢
    have hcode_r := hcode.right
    rw [length_code] at hcode_r
    have hop := hcode_r.right.head
    rw [length_code] at hop
    have hnames_l := subset_of_addNames hnames
    refine (outcome_performs l hv.1 hnames_l hcode.left hfirst (by omega) hf).bind ?_
    rintro ⟨v, env₁⟩ _ ⟨f₁, rfl, hf₁, hv₁, hkeep₁⟩
    refine (outcome_performs r hv.2 hnames hcode_r.left (by omega) (by omega) hf₁).bind ?_
    rintro ⟨w, env₂⟩ _ ⟨f₂, rfl, hf₂, hw, hkeep₂⟩
    -- The left operand is in a register that the right one does not use.
    have hv₂ : f₂.reg (l.result n) = v := (hkeep₂.regs _ (l.result_lt n)).trans hv₁
    have hw₂ : f₂.reg (r.result (n + l.regCount)) = w := hw
    have hkeep := hkeep₁.trans hkeep₂ (Nat.le_add_right _ _)
    have hcovers : (a.stretch first stop).Covers f₂ := hf₂.covers (by omega) (by omega)
    have hinstr := hf₂.instr? hop
    cases hu : op.apply v w with
    | none =>
      simp only [hu]
      have hfail : Machine.exec rs D f₂ a.callers (.binary op (n + l.regCount + r.regCount)
          (l.result n) (r.result (n + l.regCount))) = .failed ⟨.divisionByZero, f₂.site⟩ := by
        rw [Machine.exec_binary, hv₂, hw₂, hu]
      exact .fault hcovers hinstr hfail
    | some u =>
      simp only [hu]
      refine .exec hcovers hinstr ?_
      rw [Machine.exec_binary, hv₂, hw₂, hu]
      refine .pure ⟨_, rfl, ?_, by simp [result], hkeep.setReg (by omega) _⟩
      rw [targets, addNames_append]
      exact hf₂.setReg _ _
  | assign o x e =>
    rw [targets, addNames_append] at hnames
    rw [size, ← Nat.add_assoc] at hstop ⊢
    have hnames_e := subset_of_addNames hnames
    refine (outcome_performs e hv hnames_e hcode.left hfirst (by omega) hf).bind ?_
    rintro ⟨v, env₁⟩ _ ⟨g, rfl, hg, rfl, hkeep⟩
    have hop := hcode.right.head
    rw [length_code] at hop
    refine .exec (hg.covers (by omega) (by omega)) (hg.instr? hop) (.pure ?_)
    refine ⟨_, rfl, ?_, rfl, hkeep.setSlot x _⟩
    rw [targets, addNames_append]
    exact hg.setSlot x _
  | call o name args =>
    have hargs : violationAll? ctx ns args = none := by
      rw [violation?] at hv
      split at hv
      · cases hv
      · split at hv
        · exact hv
        · cases hv
    rw [size, ← Nat.add_assoc] at hstop ⊢
    refine (outcomeAll_performs args hargs hnames hcode.left hfirst (by omega) hf).bind ?_
    rintro ⟨vs, env₁⟩ _ ⟨g, rfl, hg, rfl, hkeep⟩
    have hop := hcode.right.head
    rw [length_codeAll] at hop
    have hdepth : g.depth = a.depth := by
      obtain ⟨held, hg, -⟩ := hg
      exact hg.depth
    rw [← hdepth]
    refine (Performs.call (hg.covers (by omega) (by omega)) (hg.instr? hop)).bind ?_
    rintro v _ rfl
    -- What the callee returns is put into the register of the call.
    exact .pure ⟨_, rfl, hg.setReg _ _, by simp [result], hkeep.setReg (Nat.le_add_right _ _) _⟩

theorem outcomeAll_performs (es : List Expr) {ns : List String}
    (hv : violationAll? ctx ns es = none) (hnames : addNames ns (targetsAll es) ⊆ a.names)
    {n i : Nat} (hcode : Stands a.routine.code.toList i (codeAll a.slot n es)) (hfirst : first ≤ i)
    (hstop : i + sizeAll es ≤ stop) {env : Env} {f : Frame} (hf : a.Knows ns env i f) :
    Performs rs D (a.stretch first stop) (rest f a.callers)
      (outcomeAll (callEnding rs D (a.depth + 1)) es env)
      (a.Computed ns (targetsAll es) f n (i + sizeAll es) fun g => (results n es).map g.reg) := by
  cases es with
  | nil => exact .pure ⟨f, rfl, hf, rfl, keeps_refl f⟩
  | cons e es =>
    rw [violationAll?, orElse_eq_none_iff] at hv
    rw [targetsAll, addNames_append] at hnames
    rw [sizeAll, ← Nat.add_assoc] at hstop ⊢
    have hnames_e := subset_of_addNames hnames
    refine (outcome_performs e hv.1 hnames_e hcode.left hfirst (by omega) hf).bind ?_
    rintro ⟨v, env₁⟩ _ ⟨f₁, rfl, hf₁, hv₁, hkeep₁⟩
    have hcode' := hcode.right
    rw [length_code] at hcode'
    refine (outcomeAll_performs es hv.2 hnames hcode' (by omega) hstop hf₁).bind ?_
    rintro ⟨vs, env₂⟩ _ ⟨f₂, rfl, hf₂, hvs, hkeep₂⟩
    have hv₂ : f₂.reg (e.result n) = v := (hkeep₂.regs _ (e.result_lt n)).trans hv₁
    have hvs₂ : (results (n + e.regCount) es).map f₂.reg = vs := hvs
    refine .pure ⟨f₂, rfl, ?_, by simp [results, hv₂, hvs₂],
      hkeep₁.trans hkeep₂ (Nat.le_add_right _ _)⟩
    rw [targetsAll, addNames_append]
    exact hf₂

end

end Expr

end JumpCode
