import JumpCode.Proofs.Lowering.Labels
import JumpCode.Proofs.Lowering.Resolution
import JumpCode.Proofs.Machine.Activations

/-!
# Registers are written before they are read

A register that was never written holds the initial value, and a register beyond the end is made
when it is written.  So code that used its registers carelessly would still run.  Lowered code is
`Orderly`: read from the front, its instructions write the registers 0, 1, 2 and so on, and each
reads only registers that were written since the last label.  The part after a label stands for
itself, so it does not matter how control came to the label, through a loop or through a break that
names the wrong one.

What is orderly when read is orderly when run.  A frame of lowered code goes from instruction to
instruction or to a label, and has at each of them already written what it reads
(`Function.registers_are_written_first`).
-/

namespace JumpCode

/-! ### Orderly code -/

/-- The first of the registers that are known to have been written after an instruction, when `lo`
    was the first of them before it and `n` is the next to be written.  At a label nothing is
    known. -/
def Instr.floor (lo n : Reg) : Instr → Reg
  | .label _ => n
  | _ => lo

theorem Instr.le_of_floor {i : Instr} {lo n k : Reg} (h : i.floor lo n ≤ k) (hk : k < n) :
    lo ≤ k := by
  cases i with
  | label l => exact absurd h (Nat.not_le_of_lt hk)
  | _ => exact h

/-- Instructions that write the registers from `n` on, one after another, and leave `stop` as the
    next.  They read only registers from `lo` on that have been written, and use only slots below
    `slots`. -/
def Orderly (slots stop : Nat) : (lo n : Reg) → List Instr → Prop
  | _, n, [] => n = stop
  | lo, n, i :: ops =>
    (∀ k ∈ i.reads, lo ≤ k ∧ k < n) ∧ (∀ j ∈ i.slot?, j < slots) ∧ (∀ d ∈ i.dest?, d = n) ∧
      Orderly slots stop (i.floor lo n) (i.dest?.elim n (· + 1)) ops

namespace Orderly

variable {slots stop : Nat} {lo lo' n : Reg} {i : Instr} {ops : List Instr}

/-- Code that reads only some registers from `lo'` on reads only registers from `lo` on. -/
theorem mono (h : Orderly slots stop lo' n ops) (hlo : lo ≤ lo') : Orderly slots stop lo n ops := by
  induction ops generalizing lo lo' n with
  | nil => exact h
  | cons i ops ih =>
    obtain ⟨hreads, hslot, hdest, hrest⟩ := h
    refine ⟨fun k hk => ?_, hslot, hdest, ih hrest ?_⟩
    · obtain ⟨hle, hlt⟩ := hreads k hk
      exact ⟨Nat.le_trans hlo hle, hlt⟩
    · cases i with
      | label l => exact Nat.le_refl n
      | _ => exact hlo

/-- The registers that are written, in the order of the code. -/
theorem dests (h : Orderly slots stop lo n ops) :
    List.range n ++ ops.filterMap Instr.dest? = List.range stop := by
  induction ops generalizing lo n with
  | nil =>
    cases h
    simp
  | cons i ops ih =>
    obtain ⟨-, -, hdest, hrest⟩ := h
    have hrest := ih hrest
    cases hd : i.dest? with
    | none => simpa [hd] using hrest
    | some d =>
      obtain rfl := hdest d hd
      simpa [hd, List.range_succ] using hrest

theorem slot_lt (h : Orderly slots stop lo n ops) (hi : i ∈ ops) {j : Slot}
    (hj : i.slot? = some j) : j < slots := by
  induction ops generalizing lo n with
  | nil => cases hi
  | cons i' ops ih =>
    obtain ⟨-, hslot, -, hrest⟩ := h
    rcases List.mem_cons.mp hi with rfl | hi
    · exact hslot j hj
    · exact ih hrest hi

/-- What is left of orderly code is orderly. -/
theorem drop (h : Orderly slots stop lo n ops) (q : Nat) :
    ∃ lo n, Orderly slots stop lo n (ops.drop q) := by
  induction q generalizing lo n ops with
  | zero => exact ⟨lo, n, h⟩
  | succ q ih =>
    cases ops with
    | nil => exact ⟨lo, n, h⟩
    | cons i ops => exact ih h.2.2.2

/-- At a label orderly code starts anew: it reads nothing that was written before. -/
theorem drop_at_label (h : Orderly slots stop lo n ops) {q : Nat} {l : Label}
    (hq : ops[q]? = some (.label l)) : ∃ n, Orderly slots stop n n (ops.drop q) := by
  obtain ⟨lo, n, hdrop⟩ := h.drop q
  obtain ⟨hlt, hlabel⟩ := List.getElem?_eq_some_iff.mp hq
  rw [List.drop_eq_getElem_cons hlt, hlabel] at hdrop ⊢
  exact ⟨n, nofun, nofun, nofun, hdrop.2.2.2⟩

end Orderly

/-! ### Lowered code is orderly -/

section Lowered

variable {ctx : Context} {names : List String} {stop : Nat}

namespace Expr

theorem le_result (n : Nat) (e : Expr) : n ≤ e.result n := by
  cases e with
  | int o v => exact Nat.le_refl n
  | bool o b => exact Nat.le_refl n
  | ident o x => exact Nat.le_refl n
  | unary o op e => exact Nat.le_add_right _ _
  | binary o op l r => exact Nat.le_trans (Nat.le_add_right _ _) (Nat.le_add_right _ _)
  | assign o x e => exact e.le_result n
  | call o f args => exact Nat.le_add_right _ _

/-- An instruction that reads the result of an expression reads a register that has been written. -/
theorem read_result (e : Expr) {lo n : Reg} (hlo : lo ≤ n) :
    ∀ k ∈ [e.result n], lo ≤ k ∧ k < n + e.regCount := by
  intro k hk
  cases List.mem_singleton.mp hk
  exact ⟨Nat.le_trans hlo (e.le_result n), e.result_lt n⟩

theorem mem_results {n k : Nat} {es : List Expr} (h : k ∈ results n es) :
    n ≤ k ∧ k < n + regCountAll es := by
  induction es generalizing n with
  | nil => cases h
  | cons e es ih =>
    rw [regCountAll, ← Nat.add_assoc]
    rcases List.mem_cons.mp h with rfl | h
    · exact ⟨e.le_result n, Nat.lt_add_right _ (e.result_lt n)⟩
    · obtain ⟨hle, hlt⟩ := ih h
      exact ⟨Nat.le_trans (Nat.le_add_right _ _) hle, hlt⟩

mutual

/-- The code of an expression is orderly, and what follows it may read all its registers. -/
theorem orderly_code (e : Expr) (hres : e.Resolved ctx names) {lo n : Reg} (hlo : lo ≤ n)
    {ops : List Instr} (hrest : Orderly names.length stop lo (n + e.regCount) ops) :
    Orderly names.length stop lo n (e.code (fun x => names.idxOf x) n ++ ops) := by
  cases e with
  | int o v => exact ⟨nofun, nofun, by rintro _ ⟨⟩; rfl, hrest⟩
  | bool o b => exact ⟨nofun, nofun, by rintro _ ⟨⟩; rfl, hrest⟩
  | ident o x =>
    refine ⟨nofun, ?_, by rintro _ ⟨⟩; rfl, hrest⟩
    rintro _ ⟨⟩
    exact List.idxOf_lt_length_of_mem hres
  | unary o op e =>
    rw [code, List.append_assoc]
    exact orderly_code e hres hlo ⟨e.read_result hlo, nofun, by rintro _ ⟨⟩; rfl, hrest⟩
  | binary o op l r =>
    rw [code, List.append_assoc, List.append_assoc]
    rw [regCount, ← Nat.add_assoc, ← Nat.add_assoc] at hrest
    have hlo' : lo ≤ n + l.regCount := Nat.le_trans hlo (Nat.le_add_right _ _)
    refine orderly_code l hres.1 hlo (orderly_code r hres.2 hlo'
      ⟨?_, nofun, by rintro _ ⟨⟩; rfl, hrest⟩)
    intro k hk
    rcases List.mem_cons.mp hk with rfl | hk
    · exact ⟨Nat.le_trans hlo (l.le_result n), Nat.lt_add_right _ (l.result_lt n)⟩
    · exact r.read_result hlo' k hk
  | assign o x e =>
    rw [code, List.append_assoc]
    refine orderly_code e hres.1 hlo ⟨e.read_result hlo, ?_, nofun, hrest⟩
    rintro _ ⟨⟩
    exact List.idxOf_lt_length_of_mem hres.2
  | call o f args =>
    rw [code, List.append_assoc]
    refine orderly_codeAll args hres.2 hlo ⟨?_, nofun, by rintro _ ⟨⟩; rfl, hrest⟩
    intro k hk
    obtain ⟨hle, hlt⟩ := mem_results hk
    exact ⟨Nat.le_trans hlo hle, hlt⟩

theorem orderly_codeAll (es : List Expr) (hres : ResolvedAll ctx names es) {lo n : Reg}
    (hlo : lo ≤ n) {ops : List Instr}
    (hrest : Orderly names.length stop lo (n + regCountAll es) ops) :
    Orderly names.length stop lo n (codeAll (fun x => names.idxOf x) n es ++ ops) := by
  cases es with
  | nil => exact hrest
  | cons e es =>
    rw [codeAll, List.append_assoc]
    rw [regCountAll, ← Nat.add_assoc] at hrest
    exact orderly_code e hres.1 hlo
      (orderly_codeAll es hres.2 (Nat.le_trans hlo (Nat.le_add_right _ _)) hrest)

end

/-- A condition and the branch on it, with what follows. -/
theorem orderly_branch (c : Expr) (hres : c.Resolved ctx names) {lo n : Reg} (hlo : lo ≤ n)
    (l : Label) {ops : List Instr}
    (hrest : Orderly names.length stop (n + c.regCount) (n + c.regCount) ops) :
    Orderly names.length stop lo n
      (c.code (fun x => names.idxOf x) n ++ .branchFalse (c.result n) l :: ops) := by
  refine c.orderly_code hres hlo ⟨c.read_result hlo, nofun, nofun, ?_⟩
  exact hrest.mono (Nat.le_trans hlo (Nat.le_add_right _ _))

end Expr

namespace Stmt

mutual

/-- The code of a statement is orderly, if what follows it reads no registers from before. -/
theorem orderly_code (s : Stmt) (hres : s.Resolved ctx names) {p : Point} {lo : Reg}
    (hlo : lo ≤ p.reg) {ops : List Instr}
    (hrest : Orderly names.length stop (s.after p).reg (s.after p).reg ops) :
    Orderly names.length stop lo p.reg (s.code (fun x => names.idxOf x) p ++ ops) := by
  cases s with
  | block m body => exact orderly_codeAll body hres hlo hrest
  | eval m e =>
    exact e.orderly_code hres hlo (hrest.mono (Nat.le_trans hlo (Nat.le_add_right _ _)))
  | ret m e =>
    cases e with
    | none => exact ⟨nofun, nofun, nofun, hrest.mono hlo⟩
    | some e =>
      rw [code, List.append_assoc]
      refine e.orderly_code hres hlo ⟨e.read_result hlo, nofun, nofun, ?_⟩
      exact hrest.mono (Nat.le_trans hlo (Nat.le_add_right _ _))
  | ifThen m c t =>
    rw [code, List.append_assoc, List.cons_append, List.append_assoc]
    refine c.orderly_branch hres.1 hlo _ ?_
    exact orderly_code t (p := (p.useRegs c.regCount).useLabels 1) hres.2 (Nat.le_refl _)
      ⟨nofun, nofun, nofun, hrest⟩
  | ifElse m c t e =>
    rw [code, List.append_assoc, List.cons_append, List.append_assoc, List.cons_append,
      List.cons_append, List.append_assoc]
    refine c.orderly_branch hres.1 hlo _ ?_
    let q := t.after ((p.useRegs c.regCount).useLabels 1)
    refine orderly_code t (p := (p.useRegs c.regCount).useLabels 1) hres.2.1 (Nat.le_refl _)
      ⟨nofun, nofun, nofun, nofun, nofun, nofun, ?_⟩
    exact orderly_code e (p := q.useLabels 1) hres.2.2 (Nat.le_refl _) ⟨nofun, nofun, nofun, hrest⟩
  | whileLoop m c body =>
    rw [code, List.cons_append, List.append_assoc, List.cons_append, List.append_assoc]
    refine ⟨nofun, nofun, nofun, c.orderly_branch hres.1 (Nat.le_refl _) _ ?_⟩
    exact orderly_code body (p := (p.enter m.id).useRegs c.regCount) hres.2 (Nat.le_refl _)
      ⟨nofun, nofun, nofun, nofun, nofun, nofun, hrest⟩
  | breakLoop m link => exact ⟨nofun, nofun, nofun, hrest.mono hlo⟩

theorem orderly_codeAll (ss : List Stmt) (hres : ResolvedAll ctx names ss) {p : Point} {lo : Reg}
    (hlo : lo ≤ p.reg) {ops : List Instr}
    (hrest : Orderly names.length stop (afterAll p ss).reg (afterAll p ss).reg ops) :
    Orderly names.length stop lo p.reg (codeAll (fun x => names.idxOf x) p ss ++ ops) := by
  cases ss with
  | nil => exact hrest.mono hlo
  | cons s ss =>
    rw [codeAll, List.append_assoc]
    exact orderly_code s hres.1 hlo (orderly_codeAll ss hres.2 (Nat.le_refl _) hrest)

end

end Stmt

end Lowered

/-- A routine whose code is orderly, and whose labels have places at which they stand. -/
structure Routine.IsOrderly (r : Routine) : Prop where
  code : Orderly r.localCount r.regCount 0 0 r.code.toList
  places : ∀ l q, r.positionOf l = some q → r.code.toList[q]? = some (.label l)

namespace Function

variable {ctx : Context} {f : Function} {r : Routine}

/-- A lowered function is orderly. -/
theorem isOrderly_of_lower (h : f.lower ctx = .ok r) : r.IsOrderly := by
  obtain ⟨hv, hfinish⟩ := finish_of_lower h
  obtain ⟨-, -, hlocals, hregs, hcode, hposition⟩ := Builder.finish_eq_ok hfinish
  constructor
  · have hnames : (f.finished ctx.options.implicitReturn).slotCount = f.slotNames.length :=
      congrArg Builder.slotCount (finished_eq _)
    have hnext : (f.finished ctx.options.implicitReturn).nextReg = (f.body.after .start).reg :=
      congrArg Builder.nextReg (finished_eq _)
    rw [hlocals, hregs, hcode, hnames, hnext]
    have hbody (ops : List Instr) (hops : Orderly f.slotNames.length (f.body.after .start).reg
        (f.body.after .start).reg (f.body.after .start).reg ops) :
        Orderly f.slotNames.length (f.body.after .start).reg 0 0 (f.bodyCode ++ ops) :=
      f.body.orderly_code (p := .start) (resolved_of_violation hv) (Nat.le_refl 0) hops
    rcases f.code_finished ctx.options.implicitReturn with hend | hend
    · rw [hend, ← List.append_nil f.bodyCode]
      exact hbody [] rfl
    · rw [hend]
      exact hbody [.retVoid] ⟨nofun, nofun, nofun, rfl⟩
  · intro l q hq
    rw [hposition] at hq
    obtain ⟨hlt, hlabel, -⟩ := List.idxOf?_eq_some_iff.mp hq
    rw [hcode]
    exact List.getElem?_eq_some_iff.mpr ⟨hlt, by simpa using hlabel⟩

end Function

namespace Routine.IsOrderly

variable {r : Routine} {i : Instr}

theorem dests (h : r.IsOrderly) : r.code.toList.filterMap Instr.dest? = List.range r.regCount := by
  simpa using h.code.dests

theorem dest_lt (h : r.IsOrderly) (hi : i ∈ r.code.toList) {d : Reg} (hd : i.dest? = some d) :
    d < r.regCount := by
  rw [← List.mem_range, ← h.dests]
  exact List.mem_filterMap.mpr ⟨i, hi, hd⟩

theorem slot_lt (h : r.IsOrderly) (hi : i ∈ r.code.toList) {j : Slot} (hj : i.slot? = some j) :
    j < r.localCount :=
  h.code.slot_lt hi hj

end Routine.IsOrderly

/-! ### Frames of orderly routines -/

namespace Cells

theorem size_write {a : Cells} {i : Nat} (h : i < a.size) (v : Value) :
    (a.write i v).size = a.size := by
  simp [write, h]

theorem size_blank (n : Nat) : (blank n).size = n := by
  simp [blank]

theorem size_ofValues (n : Nat) (vs : List Value) : (ofValues n vs).size = max n vs.length := by
  simp [ofValues, size_blank]
  omega

end Cells

/-- The code that a frame still has to run begins with the instruction that it is at. -/
theorem Frame.drop_code_of_instr {f : Frame} {i : Instr} (h : f.instr? = some i) :
    f.routine.code.toList.drop f.pc = i :: f.routine.code.toList.drop (f.pc + 1) := by
  rw [instr?, ← Array.getElem?_toList] at h
  obtain ⟨hlt, hop⟩ := List.getElem?_eq_some_iff.mp h
  rw [List.drop_eq_getElem_cons hlt, hop]

/-- A frame has as many registers and slots as it was entered with. -/
structure Frame.Fits (f : Frame) : Prop where
  regs : f.regs.size = f.routine.regCount
  slots : f.slots.size = max f.routine.localCount f.routine.paramCount

theorem Frame.fits_enter {r : Routine} {args : List Value} (h : r.paramCount = args.length)
    (depth : Nat) : (Frame.enter r args depth).Fits :=
  ⟨Cells.size_blank _, h ▸ Cells.size_ofValues _ _⟩

/-- An instruction of an orderly routine makes no new registers or slots. -/
theorem Frame.Fits.follows {f g : Frame} {i : Instr} (h : f.Fits) (hr : f.routine.IsOrderly)
    (hi : f.instr? = some i) (hfollows : f.Follows i g) : g.Fits := by
  have hmem := mem_code_of_instr hi
  constructor
  · rw [hfollows.routine, ← h.regs]
    rcases hfollows.regs with heq | ⟨d, v, hd, heq⟩
    · rw [heq]
    · rw [heq]
      exact Cells.size_write (h.regs ▸ hr.dest_lt hmem hd) v
  · rw [hfollows.routine, ← h.slots]
    rcases hfollows.slots with heq | ⟨j, v, hj, heq⟩
    · rw [heq]
    · rw [heq]
      refine Cells.size_write ?_ v
      rw [h.slots]
      exact Nat.lt_of_lt_of_le (hr.slot_lt hmem hj) (Nat.le_max_left _ _)

namespace Machine

variable {rs : List Routine} {D : Nat} {x : Next}

/-- The frame that is on top after `t` steps has written the register `k` before. -/
def WrittenBefore (rs : List Routine) (D : Nat) (x : Next) (t : Nat) (k : Reg) : Prop :=
  ∃ s < t, SameFrame rs D x s t ∧
    ∃ m i, go rs D s x = .running m ∧ m.top.instr? = some i ∧ i.dest? = some k

theorem WrittenBefore.later {u v : Nat} {k : Reg} (h : WrittenBefore rs D x u k) (huv : u < v)
    (hsame : SameFrame rs D x u v) : WrittenBefore rs D x v k := by
  obtain ⟨s, hs, hbefore, hwrites⟩ := h
  exact ⟨s, Nat.lt_trans hs huv, hbefore.trans hsame, hwrites⟩

/-- The frame `f`, on top after `t` steps, has written what the code that it still has to run
    reads. -/
def Prepared (rs : List Routine) (D : Nat) (x : Next) (t : Nat) (f : Frame) : Prop :=
  ∃ lo n, Orderly f.routine.localCount f.routine.regCount lo n
    (f.routine.code.toList.drop f.pc) ∧ ∀ k, lo ≤ k → k < n → WrittenBefore rs D x t k

theorem Prepared.follows {u v : Nat} {m m' : Machine} {i : Instr}
    (h : Prepared rs D x u m.top) (hr : m.top.routine.IsOrderly) (hm : go rs D u x = .running m)
    (huv : u < v) (hsame : SameFrame rs D x u v) (hi : m.top.instr? = some i)
    (hfollows : m.top.Follows i m'.top) : Prepared rs D x v m'.top := by
  obtain ⟨lo, n, horderly, hwritten⟩ := h
  unfold Prepared
  rw [hfollows.routine]
  rcases hfollows.pc with hpc | ⟨l, -, hl⟩
  · -- The frame goes on to the next instruction, and has written what this one writes.
    rw [Frame.drop_code_of_instr hi] at horderly
    obtain ⟨-, -, hdest, hrest⟩ := horderly
    rw [← hpc] at hrest
    refine ⟨_, _, hrest, fun k hlo hk => ?_⟩
    have hbefore (hkn : k < n) : WrittenBefore rs D x v k :=
      (hwritten k (Instr.le_of_floor hlo hkn) hkn).later huv hsame
    cases hd : i.dest? with
    | none =>
      rw [hd] at hk
      exact hbefore hk
    | some d =>
      obtain rfl := hdest d hd
      rw [hd] at hk
      rcases Nat.lt_or_eq_of_le (Nat.le_of_lt_succ hk) with hlt | rfl
      · exact hbefore hlt
      · exact ⟨u, huv, hsame, m, i, hm, hi, hd⟩
  · -- At a label nothing needs to have been written.
    obtain ⟨n, hlabel⟩ := hr.code.drop_at_label (hr.places l _ hl)
    exact ⟨n, n, hlabel, fun k hlo hk => absurd hlo (Nat.not_le_of_lt hk)⟩

/-- In any run the frames of orderly routines fit, and have written what they still have to read. -/
theorem fits_and_prepared {entry : String} {args : List Value} {t : Nat} {m : Machine}
    (hm : go rs D t (start rs D entry args) = .running m) (hr : m.top.routine.IsOrderly) :
    m.top.Fits ∧ Prepared rs D (start rs D entry args) t m.top := by
  obtain ⟨s, k, hsame, hk, r, -, vs, depth, hargs, henter⟩ := exists_entry hm
  have hentry : k.top.routine.IsOrderly := hsame.routine start_rests hk hm ▸ hr
  refine (hsame.invariant (P := fun u f => f.routine.IsOrderly ∧ f.Fits ∧
    Prepared rs D (start rs D entry args) u f) ?_ start_rests hk hm ⟨hentry, ?_, ?_⟩).2
  · rintro u v k k' i hk - huv hsame hi hfollows ⟨hr, hfits, hprepared⟩
    exact ⟨hfollows.routine ▸ hr, hfits.follows hr hi hfollows,
      hprepared.follows hr hk huv hsame hi hfollows⟩
  · rw [henter]
    exact Frame.fits_enter hargs depth
  · rw [henter] at hentry ⊢
    exact ⟨0, 0, hentry.code, fun k _ hk => absurd hk (Nat.not_lt_zero k)⟩

end Machine

open Machine

/-- **Registers are written before they are read.**  The registers that the code of a lowered
    function writes are, in the order of the code, all its registers, each once, and the slots that
    it uses are below its number of slots.  In any run, with any other routines and whatever breaks
    are linked to, a frame of the function that is about to read a register has written it before.
    So it never reads the initial value of a register, and has at all times as many registers and
    slots as it was entered with. -/
theorem registers_are_written_first {ctx : Context} {f : Function} {r : Routine}
    (h : f.lower ctx = .ok r) :
    r.code.toList.filterMap Instr.dest? = List.range r.regCount ∧
    (∀ i ∈ r.code.toList, ∀ j, i.slot? = some j → j < r.localCount) ∧
    ∀ rs D entry args t m, go rs D t (start rs D entry args) = .running m → m.top.routine = r →
      (∀ i, m.top.instr? = some i → ∀ k ∈ i.reads,
        WrittenBefore rs D (start rs D entry args) t k) ∧
      m.top.regs.size = r.regCount ∧ m.top.slots.size = max r.localCount r.paramCount := by
  have horderly := Function.isOrderly_of_lower h
  refine ⟨horderly.dests, fun i hi j hj => horderly.slot_lt hi hj, ?_⟩
  rintro rs D entry args t m hm rfl
  obtain ⟨hfits, lo, n, hrest, hwritten⟩ := fits_and_prepared hm horderly
  refine ⟨fun i hi k hk => ?_, hfits.regs, hfits.slots⟩
  rw [Frame.drop_code_of_instr hi] at hrest
  obtain ⟨hlo, hn⟩ := hrest.1 k hk
  exact hwritten k hlo hn

/-- A loop, and after it a break that names the loop all the same and so leads back to its exit:
    `while 0 { } x = x - 1; if x { break; } return x;` -/
def Function.countdownByBreak : Function where
  name := "f"
  params := ["x"]
  body := .block ⟨⟨6⟩, .unknown⟩
    [.whileLoop ⟨⟨1⟩, .unknown⟩ (.int .unknown 0) (.block ⟨⟨0⟩, .unknown⟩ []),
      .eval ⟨⟨2⟩, .unknown⟩ (.assign .unknown "x"
        (.binary .unknown .sub (.ident .unknown "x") (.int .unknown 1))),
      .ifThen ⟨⟨4⟩, .unknown⟩ (.ident .unknown "x") (.breakLoop ⟨⟨3⟩, .unknown⟩ (some ⟨1⟩)),
      .ret ⟨⟨5⟩, .unknown⟩ (some (.ident .unknown "x"))]
  origin := .unknown

def Routine.countdownByBreak : Routine where
  name := "f"
  paramCount := 1
  localCount := 1
  regCount := 6
  code := #[.label ⟨0⟩, .const 0 (.int 0), .branchFalse 0 ⟨1⟩, .jump ⟨0⟩, .label ⟨1⟩, .load 1 0,
    .const 2 (.int 1), .binary .sub 3 1 2, .store 3 0, .load 4 0, .branchFalse 4 ⟨2⟩, .jump ⟨1⟩,
    .label ⟨2⟩, .load 5 0, .ret 5]
  labels := [(⟨0⟩, 0), (⟨1⟩, 4), (⟨2⟩, 12)]

/-- After fourteen steps the frame is at the subtraction for the second time. -/
theorem registers_are_written_first_countdownByBreak :
    Function.countdownByBreak.lower (.empty {}) = .ok .countdownByBreak ∧
      Routine.countdownByBreak.code.toList.filterMap Instr.dest? = List.range 6 ∧
      ∃ m, go [.countdownByBreak] 0 14 (start [.countdownByBreak] 0 "f" [.int 2]) = .running m ∧
        m.top.instr? = some (.binary .sub 3 1 2) ∧ m.top.regs.size = 6 ∧
        ∀ k ∈ [1, 2], WrittenBefore [.countdownByBreak] 0
          (start [.countdownByBreak] 0 "f" [.int 2]) 14 k := by
  have hlower : Function.countdownByBreak.lower (.empty {}) = .ok .countdownByBreak := by
    rw [Function.lower_of_violation_none rfl]
    rfl
  obtain ⟨hdests, -, hrun⟩ := registers_are_written_first hlower
  refine ⟨hlower, hdests, ?_⟩
  obtain ⟨m, hm, hroutine, hinstr⟩ : ∃ m,
      go [.countdownByBreak] 0 14 (start [.countdownByBreak] 0 "f" [.int 2]) = .running m ∧
        m.top.routine = .countdownByBreak ∧ m.top.instr? = some (.binary .sub 3 1 2) :=
    ⟨_, rfl, rfl, rfl⟩
  obtain ⟨hwritten, hsize, -⟩ := hrun _ _ _ _ _ m hm hroutine
  exact ⟨m, hm, hinstr, hsize, hwritten _ hinstr⟩

end JumpCode
