import JumpCode.Proofs.Machine.Frames

/-!
# One frame of a run

A run goes back and forth between frames.  This module follows one of them.

While a callee runs, the frames under it neither change nor matter: the machine does what it would
do if nothing waited for the call, and returns to them in the end (`go_under`).  So a call changes
the frame that makes it only by the register for its result, and what one instruction makes of its
frame can be said without the callees (`Frame.Follows`).

`SameFrame` picks the steps of one frame out of a run.  Between two of them the frame has gone from
instruction to instruction (`SameFrame.next`), so what its instructions preserve holds as long as it
lives (`SameFrame.invariant`), beginning with its entry (`exists_entry`).
-/

namespace JumpCode

/-! ### Registers and slots of instructions -/

namespace Instr

/-- The register that an instruction writes. -/
def dest? : Instr → Option Reg
  | .const d _ | .load d _ | .binary _ d _ _ | .unary _ d _ | .call d _ _ => some d
  | .store _ _ | .label _ | .jump _ | .branchFalse _ _ | .ret _ | .retVoid => none

/-- The registers that an instruction reads: operands, a condition, arguments or what it returns. -/
def reads : Instr → List Reg
  | .store s _ | .unary _ _ s | .branchFalse s _ | .ret s => [s]
  | .binary _ _ l r => [l, r]
  | .call _ _ args => args
  | .const _ _ | .load _ _ | .label _ | .jump _ | .retVoid => []

/-- The slot that an instruction reads or writes. -/
def slot? : Instr → Option Slot
  | .load _ i | .store _ i => some i
  | _ => none

end Instr

/-- The frame `f` has become `g` by running its instruction `i`, and the call that `i` may be has
    returned. -/
structure Frame.Follows (f : Frame) (i : Instr) (g : Frame) : Prop where
  routine : g.routine = f.routine
  pc : g.pc = f.pc + 1 ∨ ∃ l, i.target? = some l ∧ f.routine.positionOf l = some g.pc
  regs : g.regs = f.regs ∨ ∃ d v, i.dest? = some d ∧ g.regs = f.regs.write d v
  slots : g.slots = f.slots ∨ ∃ k v, i.slot? = some k ∧ g.slots = f.slots.write k v

/-- The frame is at the entry of one of the routines, with as many arguments as it takes. -/
def Frame.IsEntry (rs : List Routine) (f : Frame) : Prop :=
  ∃ r ∈ rs, ∃ args depth, r.paramCount = args.length ∧ f = .enter r args depth

/-- The same state with more frames that wait under it.  What has returned, returns to them. -/
def Next.under (x : Next) (cs : List Waiting) : Next :=
  match x with
  | .running m => .running ⟨m.top, m.callers ++ cs⟩
  | .finished v => Machine.deliver v cs
  | .failed e => .failed e

namespace Machine

variable {rs : List Routine} {D : Nat}

/-! ### Frames under a callee -/

theorem deliver_append (v : Option Value) (ws cs : List Waiting) :
    deliver v (ws ++ cs) = (deliver v ws).under cs := by
  induction ws generalizing v with
  | nil => rfl
  | cons c ws ih =>
    simp only [List.cons_append, deliver]
    split
    · exact ih none
    · rfl

theorem rest_append (f : Frame) (ws cs : List Waiting) :
    rest f (ws ++ cs) = (rest f ws).under cs := by
  unfold rest
  split
  · exact deliver_append none ws cs
  · rfl

theorem goTo_append (f : Frame) (ws cs : List Waiting) (l : Label) :
    goTo f (ws ++ cs) l = (goTo f ws l).under cs := by
  unfold goTo
  split
  · exact rest_append _ ws cs
  · rfl

theorem entering_append (name : String) (args : List Value) (depth : Nat) (site : Site)
    (ws cs : List Waiting) :
    entering rs D name args depth site (ws ++ cs) =
      (entering rs D name args depth site ws).under cs := by
  unfold entering
  split
  · exact rest_append _ ws cs
  · rfl

/-- Running a call is entering its callee. -/
theorem exec_call (f : Frame) (cs : List Waiting) (d : Reg) (name : String) (args : List Reg) :
    exec rs D f cs (.call d name args) =
      entering rs D name (args.map f.reg) (f.depth + 1) f.site (⟨f, d⟩ :: cs) := by
  rfl

theorem exec_append (f : Frame) (ws cs : List Waiting) (i : Instr) :
    exec rs D f (ws ++ cs) i = (exec rs D f ws i).under cs := by
  cases i with
  | const d v => exact rest_append _ ws cs
  | load d j => exact rest_append _ ws cs
  | store s j => exact rest_append _ ws cs
  | binary op d l r =>
    rw [exec_binary, exec_binary]
    split
    · exact rest_append _ ws cs
    · rfl
  | unary op d s => exact rest_append _ ws cs
  | label l => exact rest_append _ ws cs
  | jump l => exact goTo_append f ws cs l
  | branchFalse c l =>
    rw [exec, exec]
    split
    · exact goTo_append f ws cs l
    · exact rest_append _ ws cs
  | call d name args =>
    rw [exec_call, exec_call]
    exact entering_append _ _ _ _ (_ :: ws) cs
  | ret s => exact deliver_append _ ws cs
  | retVoid => exact deliver_append _ ws cs

theorem step_append (f : Frame) (ws cs : List Waiting) :
    step rs D ⟨f, ws ++ cs⟩ = (step rs D ⟨f, ws⟩).under cs := by
  rw [step, step]
  split
  · exact exec_append f ws cs _
  · exact deliver_append none ws cs

theorem go_succ (n : Nat) (x : Next) : go rs D (n + 1) x = onward rs D (go rs D n x) :=
  go_add n 1 x

/-- As long as a call runs, it runs in the same way whatever waits under it. -/
theorem go_under {n : Nat} {x : Next} (h : ∀ k < n, ∃ m, go rs D k x = .running m)
    (cs : List Waiting) : go rs D n (x.under cs) = (go rs D n x).under cs := by
  induction n with
  | zero => rfl
  | succ n ih =>
    obtain ⟨m, hm⟩ := h n (Nat.lt_succ_self n)
    rw [go_succ, go_succ, ih fun k hk => h k (Nat.lt_succ_of_lt hk), hm]
    exact step_append m.top m.callers cs

/-- Within any number of steps the machine keeps running, or there is a first state in which it does
    not. -/
theorem running_or_first_halt (n : Nat) (x : Next) :
    (∀ k ≤ n, ∃ m, go rs D k x = .running m) ∨
      ∃ k ≤ n, HaltsIn rs D k x ∧ ∀ j < k, ∃ m, go rs D j x = .running m := by
  induction n with
  | zero =>
    cases x with
    | running m =>
      left
      intro k hk
      exact ⟨m, by rw [Nat.le_zero.mp hk]; rfl⟩
    | finished v => exact Or.inr ⟨0, Nat.le_refl 0, nofun, nofun⟩
    | failed e => exact Or.inr ⟨0, Nat.le_refl 0, nofun, nofun⟩
  | succ n ih =>
    rcases ih with hrun | ⟨k, hk, hhalt⟩
    · by_cases hlast : ∃ m, go rs D (n + 1) x = .running m
      · left
        intro k hk
        rcases Nat.lt_or_eq_of_le hk with hlt | rfl
        · exact hrun k (Nat.le_of_lt_succ hlt)
        · exact hlast
      · refine Or.inr ⟨n + 1, Nat.le_refl _, ?_, fun j hj => hrun j (Nat.le_of_lt_succ hj)⟩
        intro m hm
        exact hlast ⟨m, hm⟩
    · exact Or.inr ⟨k, Nat.le_succ_of_le hk, hhalt⟩

/-! ### What an instruction does to its frame -/

/-- What can come of running the instruction `i`, told by the frame `f` that runs it. -/
inductive Move (rs : List Routine) (D : Nat) (f : Frame) (cs : List Waiting) (i : Instr) :
    Next → Prop where
  | goesOn {g : Frame} : f.Follows i g → Move rs D f cs i (rest g cs)
  | calls {d : Reg} {name : String} {args : List Reg} : i = .call d name args →
      Move rs D f cs i
        (entering rs D name (args.map f.reg) (f.depth + 1) f.site (⟨f, d⟩ :: cs))
  | returns (v : Option Value) : Move rs D f cs i (deliver v cs)
  | fails (e : Fault) : Move rs D f cs i (.failed e)

variable {f g : Frame} {cs : List Waiting} {i : Instr}

theorem follows_setReg {d : Reg} (hd : i.dest? = some d) (v : Value) :
    f.Follows i (f.setReg d v).advance :=
  ⟨rfl, Or.inl rfl, Or.inr ⟨d, v, hd, rfl⟩, Or.inl rfl⟩

theorem goTo_move {l : Label} (hl : i.target? = some l) : Move rs D f cs i (goTo f cs l) := by
  unfold goTo
  split
  · next j hj => exact .goesOn ⟨rfl, Or.inr ⟨l, hl, hj⟩, Or.inl rfl, Or.inl rfl⟩
  · exact .fails _

theorem exec_move : Move rs D f cs i (exec rs D f cs i) := by
  cases i with
  | const d v => exact .goesOn (follows_setReg rfl v)
  | load d j => exact .goesOn (follows_setReg rfl _)
  | store s j => exact .goesOn ⟨rfl, Or.inl rfl, Or.inl rfl, Or.inr ⟨j, _, rfl, rfl⟩⟩
  | binary op d l r =>
    rw [exec_binary]
    split
    · exact .goesOn (follows_setReg rfl _)
    · exact .fails _
  | unary op d s => exact .goesOn (follows_setReg rfl _)
  | label l => exact .goesOn ⟨rfl, Or.inl rfl, Or.inl rfl, Or.inl rfl⟩
  | jump l => exact goTo_move rfl
  | branchFalse c l =>
    rw [exec]
    split
    · exact goTo_move rfl
    · exact .goesOn ⟨rfl, Or.inl rfl, Or.inl rfl, Or.inl rfl⟩
  | call d name args => exact .calls rfl
  | ret s => exact .returns _
  | retVoid => exact .returns _

/-- Returning gives up at least one frame. -/
theorem length_of_deliver {v : Option Value} {m : Machine} (h : deliver v cs = .running m) :
    m.callers.length < cs.length := by
  induction cs generalizing v with
  | nil => cases h
  | cons c cs ih =>
    rw [deliver] at h
    split at h
    · exact Nat.lt_succ_of_lt (ih h)
    · cases h
      exact Nat.lt_succ_self _

/-- A frame that goes on is on top, unless it has run past its end and is given up. -/
theorem rest_eq_running {m : Machine} (h : rest g cs = .running m) :
    m = ⟨g, cs⟩ ∨ m.callers.length < cs.length := by
  unfold rest at h
  split at h
  · exact Or.inr (length_of_deliver h)
  · cases h
    exact Or.inl rfl

/-! ### The steps of one frame -/

/-- After `s` and after `t` steps from `x` the same frame is on top: as many frames wait under it,
    and at no time between have there been fewer, so it has not returned. -/
def SameFrame (rs : List Routine) (D : Nat) (x : Next) (s t : Nat) : Prop :=
  s ≤ t ∧ ∃ m m', go rs D s x = .running m ∧ go rs D t x = .running m' ∧
    m'.callers.length = m.callers.length ∧
    ∀ u, s ≤ u → u ≤ t → ∃ k, go rs D u x = .running k ∧ m.callers.length ≤ k.callers.length

namespace SameFrame

variable {x : Next} {s t u : Nat} {m m' : Machine}

theorem refl (h : go rs D s x = .running m) : SameFrame rs D x s s := by
  refine ⟨Nat.le_refl s, m, m, h, h, rfl, fun u hs ht => ⟨m, ?_, Nat.le_refl _⟩⟩
  rw [Nat.le_antisymm ht hs, h]

/-- Of two steps of a frame the earlier one comes first. -/
theorem between (h₁ : SameFrame rs D x s u) (h₂ : SameFrame rs D x s t) (hle : u ≤ t) :
    SameFrame rs D x u t := by
  obtain ⟨hsu, m, k, hm, hk, hlen₁, -⟩ := h₁
  obtain ⟨-, m', k', hm', hk', hlen₂, hstay⟩ := h₂
  cases hm.symm.trans hm'
  refine ⟨hle, k, k', hk, hk', by rw [hlen₁, hlen₂], fun v hu ht => ?_⟩
  rw [hlen₁]
  exact hstay v (Nat.le_trans hsu hu) ht

theorem trans (h₁ : SameFrame rs D x s u) (h₂ : SameFrame rs D x u t) : SameFrame rs D x s t := by
  obtain ⟨hsu, m, k, hm, hk, hlen₁, hstay₁⟩ := h₁
  obtain ⟨hut, k', m', hk', hm', hlen₂, hstay₂⟩ := h₂
  cases hk.symm.trans hk'
  refine ⟨Nat.le_trans hsu hut, m, m', hm, hm', by rw [hlen₂, hlen₁], fun v hs ht => ?_⟩
  rcases Nat.le_total v u with hv | hv
  · exact hstay₁ v hs hv
  · rw [← hlen₁]
    exact hstay₂ v hv ht

/-- If a frame is on top and will be again, it gets there by running its instruction: there is a
    first step after which it is on top once more, and then it follows from what it was. -/
theorem next (h : SameFrame rs D x s t) (hlt : s < t) (hm : go rs D s x = .running m) {i : Instr}
    (hi : m.top.instr? = some i) :
    ∃ u k, s < u ∧ go rs D u x = .running k ∧ SameFrame rs D x s u ∧ SameFrame rs D x u t ∧
      m.top.Follows i k.top := by
  obtain ⟨-, m₀, m', hm₀, hm', hlen, hstay⟩ := h
  cases hm.symm.trans hm₀
  obtain ⟨f, cs⟩ := m
  have hlen : m'.callers.length = cs.length := hlen
  have hstay : ∀ u, s ≤ u → u ≤ t → ∃ k, go rs D u x = .running k ∧ cs.length ≤ k.callers.length :=
    hstay
  have hstep : go rs D (s + 1) x = exec rs D f cs i := by
    rw [go_succ, hm]
    exact step_of_instr hi
  -- Whenever the frame is on top again, that is a moment as claimed.
  have hback : ∀ u g, s < u → u ≤ t → f.Follows i g → go rs D u x = rest g cs →
      ∃ u k, s < u ∧ go rs D u x = .running k ∧ SameFrame rs D x s u ∧ SameFrame rs D x u t ∧
        f.Follows i k.top := by
    intro u g hsu hut hg hgo
    obtain ⟨k, hk, hheight⟩ := hstay u (Nat.le_of_lt hsu) hut
    rcases rest_eq_running (hgo.symm.trans hk) with rfl | hshort
    · have hsame : SameFrame rs D x s u :=
        ⟨Nat.le_of_lt hsu, _, _, hm, hk, rfl, fun v hv hvu => hstay v hv (Nat.le_trans hvu hut)⟩
      have hall : SameFrame rs D x s t := ⟨Nat.le_of_lt hlt, _, _, hm, hm', hlen, hstay⟩
      exact ⟨u, _, hsu, hk, hsame, hsame.between hall hut, hg⟩
    · omega
  obtain ⟨k, hk, hheight⟩ := hstay (s + 1) (Nat.le_succ s) hlt
  have hmove : Move rs D f cs i (exec rs D f cs i) := exec_move
  generalize hx : exec rs D f cs i = y at hmove
  rw [hx] at hstep
  cases hmove with
  | goesOn hg => exact hback (s + 1) _ (Nat.lt_succ_self s) hlt hg hstep
  | returns v =>
    have hshort := length_of_deliver (hstep.symm.trans hk)
    omega
  | fails e =>
    rw [hstep] at hk
    cases hk
  | @calls d name args hcall =>
    -- The callee runs on its own until it returns, which it does before the step `t`.
    rw [show (⟨f, d⟩ :: cs : List Waiting) = [] ++ ⟨f, d⟩ :: cs from rfl, entering_append] at hstep
    generalize entering rs D name (args.map f.reg) (f.depth + 1) f.site [] = callee at hstep
    have hlater {j : Nat} (hrun : ∀ k < j, ∃ m, go rs D k callee = .running m) :
        go rs D (s + 1 + j) x = (go rs D j callee).under (⟨f, d⟩ :: cs) := by
      rw [go_add, hstep, go_under hrun]
    rcases @running_or_first_halt rs D (t - (s + 1)) callee with
      hrun | ⟨j, hj, hhalt, hrun⟩
    · have hgo := hlater fun k hk => hrun k (Nat.le_of_lt hk)
      obtain ⟨m₁, hm₁⟩ := hrun (t - (s + 1)) (Nat.le_refl _)
      rw [Nat.add_sub_cancel' hlt, hm', hm₁] at hgo
      cases hgo
      simp only [List.length_append, List.length_cons] at hlen
      omega
    · have hgo := hlater hrun
      obtain ⟨k, hk, -⟩ := hstay (s + 1 + j) (by omega) (by omega)
      cases hend : go rs D j callee with
      | running m₁ => exact absurd hend (hhalt m₁)
      | failed e =>
        rw [hend, hk] at hgo
        cases hgo
      | finished v =>
        rw [hend] at hgo
        subst hcall
        exact hback (s + 1 + j) _ (by omega) (by omega) (follows_setReg rfl (v.getD default)) hgo

/-- What holds of a frame after some step, and is kept by its instructions, holds after all its
    later steps. -/
theorem invariant {P : Nat → Frame → Prop}
    (hkeep : ∀ u v k k' i, go rs D u x = .running k → go rs D v x = .running k' → u < v →
      SameFrame rs D x u v → k.top.instr? = some i → k.top.Follows i k'.top → P u k.top →
        P v k'.top)
    (hrests : Rests rs D x) (h : SameFrame rs D x s t) (hm : go rs D s x = .running m)
    (hm' : go rs D t x = .running m') (hstart : P s m.top) : P t m'.top := by
  -- The induction is on how many steps of the run are left; the frame takes the first of them.
  induction hn : t - s using Nat.strongRecOn generalizing s m with
  | ind n ih =>
    rcases Nat.lt_or_eq_of_le h.1 with hlt | rfl
    · obtain ⟨-, i, hi⟩ : Rests rs D (.running m) := hm ▸ go_rests s hrests
      obtain ⟨u, k, hsu, hk, hsame, hrest, hfollows⟩ := h.next hlt hm hi
      have hut := hrest.1
      exact ih (t - u) (by omega) hrest hk (hkeep s u m k i hm hk hsu hsame hi hfollows hstart) rfl
    · cases hm.symm.trans hm'
      exact hstart

theorem routine (hrests : Rests rs D x) (h : SameFrame rs D x s t) (hm : go rs D s x = .running m)
    (hm' : go rs D t x = .running m') : m'.top.routine = m.top.routine := by
  refine h.invariant (P := fun _ f => f.routine = m.top.routine) ?_ hrests hm hm' rfl
  intro u v k k' i _ _ _ _ _ hfollows hk
  exact hfollows.routine.trans hk

end SameFrame

/-! ### Entries -/

/-- A step puts at most one frame on the others, which is then at the entry of its routine. -/
theorem step_height {m m' : Machine} (h : step rs D m = .running m') :
    m'.callers.length ≤ m.callers.length ∨
      (m'.callers.length = m.callers.length + 1 ∧ m'.top.IsEntry rs) := by
  obtain ⟨f, cs⟩ := m
  cases hi : f.instr? with
  | none =>
    rw [step, hi] at h
    exact Or.inl (Nat.le_of_lt (length_of_deliver h))
  | some i =>
    rw [step_of_instr hi] at h
    have hmove : Move rs D f cs i (exec rs D f cs i) := exec_move
    rw [h] at hmove
    generalize hy : Next.running m' = y at hmove
    cases hmove with
    | goesOn hg =>
      rcases rest_eq_running hy.symm with rfl | hshort
      · exact Or.inl (Nat.le_refl _)
      · exact Or.inl (Nat.le_of_lt hshort)
    | returns v => exact Or.inl (Nat.le_of_lt (length_of_deliver hy.symm))
    | fails e => cases hy
    | calls hcall =>
      unfold entering at hy
      split at hy
      · next g hg =>
        obtain ⟨r, hr, hargs, -, rfl⟩ := call_eq_ok hg
        rcases rest_eq_running hy.symm with rfl | hshort
        · exact Or.inr ⟨rfl, r, List.mem_of_find?_eq_some hr, _, _, hargs, rfl⟩
        · exact Or.inl (Nat.le_of_lt_succ hshort)
      · cases hy

/-- The frame with `h` others under it was entered some time in the first `t` steps from `x`, and has
    not returned in them. -/
def EnteredOver (rs : List Routine) (D : Nat) (x : Next) (h t : Nat) : Prop :=
  ∃ s ≤ t, ∃ k, go rs D s x = .running k ∧ k.callers.length = h ∧ k.top.IsEntry rs ∧
    ∀ u, s ≤ u → u ≤ t → ∃ n, go rs D u x = .running n ∧ h ≤ n.callers.length

theorem EnteredOver.succ {x : Next} {h t : Nat} (hold : EnteredOver rs D x h t) {m : Machine}
    (hm : go rs D (t + 1) x = .running m) (hh : h ≤ m.callers.length) :
    EnteredOver rs D x h (t + 1) := by
  obtain ⟨s, hs, k, hk, hlen, hentry, hstay⟩ := hold
  refine ⟨s, Nat.le_succ_of_le hs, k, hk, hlen, hentry, fun u hu hut => ?_⟩
  rcases Nat.lt_or_eq_of_le hut with hlt | rfl
  · exact hstay u hu (Nat.le_of_lt_succ hlt)
  · exact ⟨m, hm, hh⟩

theorem EnteredOver.now {x : Next} {t : Nat} {m : Machine} (hm : go rs D t x = .running m)
    (hentry : m.top.IsEntry rs) : EnteredOver rs D x m.callers.length t := by
  refine ⟨t, Nat.le_refl t, m, hm, rfl, hentry, fun u hu hut => ⟨m, ?_, Nat.le_refl _⟩⟩
  rw [Nat.le_antisymm hut hu, hm]

variable {entry : String} {args : List Value}

/-- Each frame of a machine in a run, on top or waiting, was entered and has not returned since. -/
theorem enteredOver {t : Nat} {m : Machine} (hm : go rs D t (start rs D entry args) = .running m)
    {h : Nat} (hh : h ≤ m.callers.length) : EnteredOver rs D (start rs D entry args) h t := by
  induction t generalizing m with
  | zero =>
    have hstart : start rs D entry args = .running m := hm
    unfold start entering at hstart
    split at hstart
    · next g hg =>
      obtain ⟨r, hr, hargs, -, rfl⟩ := call_eq_ok hg
      rcases rest_eq_running hstart with rfl | hshort
      · rw [Nat.le_zero.mp hh]
        exact .now hm ⟨r, List.mem_of_find?_eq_some hr, _, _, hargs, rfl⟩
      · cases hshort
    · cases hstart
  | succ t ih =>
    cases hprev : go rs D t (start rs D entry args) with
    | finished v =>
      rw [go_succ, hprev] at hm
      cases hm
    | failed e =>
      rw [go_succ, hprev] at hm
      cases hm
    | running m₀ =>
      have hstep : step rs D m₀ = .running m := by
        rw [go_succ, hprev] at hm
        exact hm
      rcases step_height hstep with hsmall | ⟨hgrown, hentry⟩
      · exact (ih hprev (Nat.le_trans hh hsmall)).succ hm hh
      · rcases Nat.lt_or_eq_of_le hh with hlt | rfl
        · exact (ih hprev (by omega)).succ hm hh
        · exact .now hm hentry

/-- The frame on top has begun at the entry of its routine. -/
theorem exists_entry {t : Nat} {m : Machine}
    (hm : go rs D t (start rs D entry args) = .running m) :
    ∃ s k, SameFrame rs D (start rs D entry args) s t ∧
      go rs D s (start rs D entry args) = .running k ∧ k.top.IsEntry rs := by
  obtain ⟨s, hs, k, hk, hlen, hentry, hstay⟩ := enteredOver hm (Nat.le_refl _)
  exact ⟨s, k, ⟨hs, k, m, hk, hm, hlen.symm, hlen ▸ hstay⟩, hk, hentry⟩

end Machine

end JumpCode
