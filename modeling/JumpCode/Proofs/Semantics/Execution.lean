import JumpCode.Machine.Run
import JumpCode.Proofs.Semantics.Structured

/-!
# Following the machine

A run is a number of steps from where it starts, and its outcome is what it has come to by then.
This module speaks of the states between steps only: `go` takes a number of steps, `Reaches` says
that one state comes after another, and `HaltsIn` that a run is over after so many steps.

`Simulates` ties the machine to a meaning.  From a given state the machine gets to every outcome of
the meaning, and if it halts at all then there is an outcome.  Meanings are put together with `bind`
and in rounds, and simulations likewise, so that nothing about traps, or about runs that do not end,
has to be said again for any particular piece of code.
-/

namespace JumpCode.Machine

variable {rs : List Routine} {D : Nat}

/-! ### Steps -/

/-- One step, unless the run is over. -/
def onward (rs : List Routine) (D : Nat) : Next → Next
  | .running m => step rs D m
  | .finished v => .finished v
  | .failed e => .failed e

/-- A number of steps. -/
def go (rs : List Routine) (D : Nat) : Nat → Next → Next
  | 0, x => x
  | n + 1, x => go rs D n (onward rs D x)

/-- A state comes after another. -/
def Reaches (rs : List Routine) (D : Nat) (x y : Next) : Prop := ∃ n, go rs D n x = y

/-- A run is over after `n` steps. -/
def HaltsIn (rs : List Routine) (D : Nat) (n : Nat) (x : Next) : Prop :=
  ∀ m, go rs D n x ≠ .running m

theorem go_add (a b : Nat) (x : Next) : go rs D (a + b) x = go rs D b (go rs D a x) := by
  induction a generalizing x with
  | zero => rw [Nat.zero_add]; rfl
  | succ a ih => rw [Nat.succ_add]; exact ih _

theorem go_of_halted {x : Next} (hx : ∀ m, x ≠ .running m) (n : Nat) : go rs D n x = x := by
  induction n with
  | zero => rfl
  | succ n ih =>
    cases x with
    | running m => exact absurd rfl (hx m)
    | finished v => exact ih
    | failed e => exact ih

@[simp] theorem go_finished (n : Nat) (v : Option Value) :
    go rs D n (.finished v) = .finished v :=
  go_of_halted (fun _ h => by cases h) n

@[simp] theorem go_failed (n : Nat) (e : Fault) : go rs D n (.failed e) = .failed e :=
  go_of_halted (fun _ h => by cases h) n

namespace Reaches

variable {x y z : Next}

theorem refl (x : Next) : Reaches rs D x x := ⟨0, rfl⟩

theorem of_eq (h : x = y) : Reaches rs D x y := ⟨0, h⟩

theorem step (x : Next) : Reaches rs D x (onward rs D x) := ⟨1, rfl⟩

theorem trans (hxy : Reaches rs D x y) (hyz : Reaches rs D y z) : Reaches rs D x z := by
  obtain ⟨a, rfl⟩ := hxy
  obtain ⟨b, rfl⟩ := hyz
  exact ⟨a + b, go_add a b x⟩

/-- A run comes to one end only. -/
theorem unique (hy : Reaches rs D x y) (hz : Reaches rs D x z) (hy' : ∀ m, y ≠ .running m)
    (hz' : ∀ m, z ≠ .running m) : y = z := by
  obtain ⟨a, rfl⟩ := hy
  obtain ⟨b, rfl⟩ := hz
  rw [← go_of_halted hy' b, ← go_add, Nat.add_comm, go_add, go_of_halted hz' a]

end Reaches

/-- What comes after a state takes no longer to halt. -/
theorem HaltsIn.of_reaches {x y : Next} {n : Nat} (h : HaltsIn rs D n x) (hxy : Reaches rs D x y) :
    HaltsIn rs D n y := by
  obtain ⟨a, rfl⟩ := hxy
  intro m hm
  refine h m ?_
  rw [← hm, ← go_add, Nat.add_comm, go_add, go_of_halted h a]

theorem rest_of_instr {f : Frame} {cs : List Waiting} {i : Instr} (h : f.instr? = some i) :
    rest f cs = .running ⟨f, cs⟩ := by
  have hlt : f.pc < f.routine.code.size := (Array.getElem?_eq_some_iff.mp h).1
  have hend : f.isPastEnd = false := by simpa [Frame.isPastEnd] using hlt
  rw [rest, hend]
  rfl

theorem step_of_instr {f : Frame} {cs : List Waiting} {i : Instr} (h : f.instr? = some i) :
    step rs D ⟨f, cs⟩ = exec rs D f cs i := by
  rw [step, h]

/-- A frame that is at an instruction runs it next. -/
theorem reaches_exec {f : Frame} {cs : List Waiting} {i : Instr} (h : f.instr? = some i) :
    Reaches rs D (rest f cs) (exec rs D f cs i) := by
  rw [rest_of_instr h, ← step_of_instr h]
  exact .step _

/-- Where a call leads that returns to `cs`. -/
def entering (rs : List Routine) (D : Nat) (name : String) (args : List Value) (depth : Nat)
    (site : Site) (cs : List Waiting) : Next :=
  match call rs D name args depth site with
  | .ok f => rest f cs
  | .error e => .failed e

/-! ### Runs -/

/-- The outcome of a run that has used up its steps. -/
def outcomeAt (limit : Nat) : Next → Except Fault (Option Value)
  | .running m => .error ⟨.stepLimit limit, m.top.site⟩
  | .finished v => .ok v
  | .failed e => .error e

theorem runFrom_outcome (options : RunOptions) (n steps : Nat) (t : Array Traced) (m : Machine) :
    (runFrom rs options n steps t m).outcome =
      outcomeAt options.maxSteps (go rs options.maxDepth n (.running m)) := by
  induction n generalizing steps t m with
  | zero => rfl
  | succ n ih =>
    rw [runFrom, go, onward]
    cases step rs options.maxDepth m with
    | running m' => exact ih _ _ _
    | finished v => rw [go_finished]; rfl
    | failed e => rw [go_failed]; rfl

/-- The outcome of a run is what the call that starts it has come to. -/
theorem run_outcome (entry : String) (args : List Value) (options : RunOptions) :
    (run rs entry args options).outcome =
      outcomeAt options.maxSteps (go rs options.maxDepth options.maxSteps
        (entering rs options.maxDepth entry args 0 .entry [])) := by
  rw [run, entering]
  cases call rs options.maxDepth entry args 0 .entry with
  | error e => simp only [go_failed]; rfl
  | ok f =>
    simp only
    cases rest f [] with
    | running m => exact runFrom_outcome options _ _ _ m
    | finished v => rw [go_finished]; rfl
    | failed e => rw [go_failed]; rfl

/-! ### Simulation -/

section Simulation

variable {α β : Type} {x y : Next}

/-- From the state `x` the machine comes to an outcome: to one of the states `Q a`, or to a trap. -/
def ComesTo (rs : List Routine) (D : Nat) (x : Next) (Q : α → Next → Prop) : Except Trap α → Prop
  | .ok a => ∃ y, Reaches rs D x y ∧ Q a y
  | .error t => ∃ site, Reaches rs D x (.failed ⟨t.kind D, site⟩)

theorem ComesTo.after {Q : α → Next → Prop} {o : Except Trap α} (hxy : Reaches rs D x y)
    (h : ComesTo rs D y Q o) : ComesTo rs D x Q o := by
  cases o with
  | ok a =>
    obtain ⟨z, hyz, hz⟩ := h
    exact ⟨z, hxy.trans hyz, hz⟩
  | error t =>
    obtain ⟨site, hfail⟩ := h
    exact ⟨site, hxy.trans hfail⟩

/-- From the state `x` the machine does what `P` means: it comes to every outcome, and if it halts at
    all then there is one. -/
structure Simulates (rs : List Routine) (D : Nat) (x : Next) (P : Meaning α)
    (Q : α → Next → Prop) : Prop where
  sound : ∀ o, P o → ComesTo rs D x Q o
  total : ∀ n, HaltsIn rs D n x → ∃ o, P o

namespace Simulates

variable {P : Meaning α} {Q : α → Next → Prop}

theorem pure {a : α} (h : Q a x) : Simulates rs D x (pure a) Q := by
  refine ⟨?_, fun n _ => ⟨.ok a, rfl⟩⟩
  rintro o rfl
  exact ⟨x, .refl x, h⟩

theorem trap {t : Trap} {site : Site} (h : Reaches rs D x (.failed ⟨t.kind D, site⟩)) :
    Simulates rs D x (.trap t) Q := by
  refine ⟨?_, fun n _ => ⟨.error t, rfl⟩⟩
  rintro o rfl
  exact ⟨site, h⟩

theorem after (hxy : Reaches rs D x y) (h : Simulates rs D y P Q) : Simulates rs D x P Q :=
  ⟨fun o ho => (h.sound o ho).after hxy, fun n hn => h.total n (hn.of_reaches hxy)⟩

/-- A simulation may go on with steps that change nothing about the outcome. -/
theorem mono {R : α → Next → Prop} (h : Simulates rs D x P Q)
    (hQ : ∀ a y, Q a y → ∃ z, Reaches rs D y z ∧ R a z) : Simulates rs D x P R := by
  refine ⟨fun o ho => ?_, h.total⟩
  have hcomes := h.sound o ho
  cases o with
  | ok a =>
    obtain ⟨y, hxy, hy⟩ := hcomes
    exact ComesTo.after hxy (hQ a y hy)
  | error t => exact hcomes

theorem bind {f : α → Meaning β} {R : β → Next → Prop} (h : Simulates rs D x P Q)
    (hf : ∀ a y, Q a y → Simulates rs D y (f a) R) : Simulates rs D x (P >>= f) R := by
  constructor
  · rintro o (⟨a, ha, ho⟩ | ⟨t, ht, rfl⟩)
    · obtain ⟨y, hxy, hy⟩ := h.sound _ ha
      exact ((hf a y hy).sound o ho).after hxy
    · exact h.sound _ ht
  · intro n hn
    obtain ⟨o, ho⟩ := h.total n hn
    cases o with
    | error t => exact ⟨.error t, Or.inr ⟨t, ho, rfl⟩⟩
    | ok a =>
      obtain ⟨y, hxy, hy⟩ := h.sound _ ho
      obtain ⟨o, hb⟩ := (hf a y hy).total n (hn.of_reaches hxy)
      exact ⟨o, Or.inl ⟨a, ho, hb⟩⟩

end Simulates

/-! A loop is simulated round by round, from states with a step to do before a round begins.  The
outcomes are reached by induction on the rounds.  The other way round the induction is on how soon
the run halts, and it is that first step which makes it halt sooner after each round. -/

section Rounds

variable {round : Env → Meaning Flow} {start : Env → Next → Prop} {Q : Flow → Next → Prop}

/-- Where the machine is when a round of a loop has ended. -/
def RoundEnd (start : Env → Next → Prop) (Q : Flow → Next → Prop) : Flow → Next → Prop
  | .next env => start env
  | .broke env => Q (.next env)
  | .returned v => Q (.returned v)

theorem ComesTo.of_rounds
    (hround : ∀ env x, start env x → ∃ m, x = .running m ∧
      Simulates rs D (step rs D m) (round env) (RoundEnd start Q))
    {env : Env} {o : Except Trap Flow} (h : Rounds round env o) :
    ∀ x, start env x → ComesTo rs D x Q o := by
  induction h with
  | again h _ ih =>
    intro x hx
    obtain ⟨m, rfl, hsim⟩ := hround _ x hx
    obtain ⟨y, hy, hstart⟩ := hsim.sound _ h
    exact ((ih y hstart).after hy).after (.step _)
  | broke h =>
    intro x hx
    obtain ⟨m, rfl, hsim⟩ := hround _ x hx
    obtain ⟨y, hy, hQ⟩ := hsim.sound _ h
    exact ⟨y, (Reaches.step _).trans hy, hQ⟩
  | returned h =>
    intro x hx
    obtain ⟨m, rfl, hsim⟩ := hround _ x hx
    obtain ⟨y, hy, hQ⟩ := hsim.sound _ h
    exact ⟨y, (Reaches.step _).trans hy, hQ⟩
  | trap h =>
    intro x hx
    obtain ⟨m, rfl, hsim⟩ := hround _ x hx
    obtain ⟨site, hfail⟩ := hsim.sound _ h
    exact ⟨site, (Reaches.step _).trans hfail⟩

theorem exists_rounds
    (hround : ∀ env x, start env x → ∃ m, x = .running m ∧
      Simulates rs D (step rs D m) (round env) (RoundEnd start Q))
    {n : Nat} {env : Env} {x : Next} (hx : start env x) (hhalt : HaltsIn rs D n x) :
    ∃ o, Rounds round env o := by
  induction n generalizing env x with
  | zero =>
    obtain ⟨m, rfl, -⟩ := hround env x hx
    exact absurd rfl (hhalt m)
  | succ n ih =>
    obtain ⟨m, rfl, hsim⟩ := hround env x hx
    have hhalt : HaltsIn rs D n (step rs D m) := hhalt
    obtain ⟨o, ho⟩ := hsim.total n hhalt
    rcases o with t | env' | env' | v
    · exact ⟨_, .trap ho⟩
    · obtain ⟨y, hy, hstart⟩ := hsim.sound _ ho
      obtain ⟨o, hrest⟩ := ih hstart (hhalt.of_reaches hy)
      exact ⟨o, .again ho hrest⟩
    · exact ⟨_, .broke ho⟩
    · exact ⟨_, .returned ho⟩

theorem Simulates.rounds (start : Env → Next → Prop)
    (hround : ∀ env x, start env x → ∃ m, x = .running m ∧
      Simulates rs D (step rs D m) (round env) (RoundEnd start Q))
    {env : Env} (hx : start env x) : Simulates rs D x (Rounds round env) Q :=
  ⟨fun _ ho => ComesTo.of_rounds hround ho x hx, fun _ hhalt => exists_rounds hround hx hhalt⟩

end Rounds

end Simulation

end JumpCode.Machine
