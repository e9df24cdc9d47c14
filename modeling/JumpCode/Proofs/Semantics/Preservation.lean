import JumpCode.Proofs.Lowering.Declared
import JumpCode.Proofs.Semantics.Simulation

/-!
# Lowering preserves meaning

A call of a lowered function is run as the function says: its arguments are in the slots of its
parameters, its body is simulated, and when control comes to the end of the body nothing is
returned.  The calls that it makes are one deeper, so the simulation of calls is by induction on how
many more may be nested.  The limit on steps is all that the machine adds, and a run that is given
enough steps comes to the outcome that the program has.
-/

namespace JumpCode

open Machine

/-! ### Arguments -/

theorem Cells.read_ofValues (n : Nat) (vs : List Value) (i : Nat) :
    (Cells.ofValues n vs).read i = (vs[i]?).getD default := by
  have hblank := Cells.read_blank (n - vs.length) (i - vs.length)
  rw [Cells.read, Array.getD_eq_getD_getElem?] at hblank ⊢
  rw [Cells.ofValues, Array.getElem?_append, List.size_toArray]
  split
  · rw [List.getElem?_toArray]
  · next h => rw [hblank, List.getElem?_eq_none (Nat.le_of_not_lt h), Option.getD_none]

theorem lookup_zip {xs : List String} {vs : List Value} (h : xs.length = vs.length) (x : String) :
    (xs.zip vs).lookup x = vs[xs.idxOf x]? := by
  induction xs generalizing vs with
  | nil =>
    cases vs with
    | nil => rfl
    | cons v vs => cases h
  | cons y ys ih =>
    cases vs with
    | nil => cases h
    | cons v vs =>
      rw [List.zip_cons_cons, List.lookup_cons, List.idxOf_cons]
      by_cases hxy : x = y
      · simp [hxy]
      · have hxy' : (x == y) = false := beq_eq_false_iff_ne.mpr hxy
        have hyx : (y == x) = false := beq_eq_false_iff_ne.mpr (Ne.symm hxy)
        rw [hxy', hyx, ih (Nat.succ.inj h)]
        rfl

namespace Function

variable {f : Function} {args : List Value}

/-- When a function is entered, its slots hold what the environment of the call says. -/
theorem read_args (hparams : f.params.Nodup) (hargs : f.params.length = args.length) (n : Nat)
    (x : String) :
    (Cells.ofValues n args).read (f.slotNames.idxOf x) = Env.ofArgs f.params args x := by
  rw [Cells.read_ofValues, Env.ofArgs, lookup_zip hargs]
  obtain ⟨more, hmore⟩ : f.params <+: f.slotNames := by
    have hfirst : addNames [] f.params = f.params := addNames_of_nodup hparams
    rw [slotNames, addNames_append, hfirst]
    exact prefix_addNames _ _
  rw [← hmore, List.idxOf_append]
  split
  · rfl
  · next hx =>
    have hidx : f.params.idxOf x = f.params.length := List.idxOf_eq_length hx
    rw [List.getElem?_eq_none (by omega), List.getElem?_eq_none (by omega)]
    rfl

end Function

/-! ### Functions -/

/-- A routine is what a function was lowered to, and nothing is wrong with the function. -/
structure Function.Compiled (ctx : Context) (f : Function) (r : Routine) : Prop where
  params : r.paramCount = f.params.length
  code : r.code.toList = f.bodyCode ∨ r.code.toList = f.bodyCode ++ [.retVoid]
  labels : r.LabelsPlaced
  resolved : f.body.Resolved ctx f.slotNames
  enclosed : Enclosed .start none f.body
  nodup : f.params.Nodup

namespace Function

variable {rs : List Routine} {D : Nat} {ctx : Context} {f : Function} {r : Routine}

theorem compiled_of_lower (hlower : f.lower ctx = .ok r) (hn : f.body.labelCount ≤ UInt32.size)
    (henc : Enclosed .start none f.body) (hparams : f.params.Nodup) : f.Compiled ctx r := by
  obtain ⟨hv, hfinish⟩ := finish_of_lower hlower
  obtain ⟨-, -, -, -, hcode, -⟩ := Builder.finish_eq_ok hfinish
  refine ⟨paramCount_of_lower hlower, ?_, labelsPlaced_of_lower hlower hn,
    resolved_of_violation hv, henc, hparams⟩
  rw [hcode]
  exact code_finished _

/-- Coming to the end of its body, a function returns nothing. -/
theorem Compiled.returns (h : f.Compiled ctx r) {a : Activation} (ha : a.routine = r) {env : Env}
    {x : Next} (hx : a.At env f.body.size x) : Reaches rs D x (deliver none a.callers) := by
  obtain ⟨g, hg, rfl⟩ := hx
  have hsize : f.bodyCode.length = f.body.size := Stmt.length_code _ _ _
  rcases h.code with hcode | hcode
  · have hend : g.isPastEnd = true := by
      rw [Frame.isPastEnd, hg.routine, hg.pc, ha, ← Array.length_toList, hcode, hsize]
      simp
    refine .of_eq ?_
    rw [rest, hend]
    rfl
  · have hop : a.routine.code.toList[f.body.size]? = some .retVoid := by
      rw [ha, hcode, ← hsize, List.getElem?_concat_length]
    exact reaches_exec (hg.instr? hop)

/-- A call of a function is run as the function says. -/
theorem Compiled.apply_simulates (h : f.Compiled ctx r) {depth : Nat} {call : Calls}
    (hcall : CallsAt rs D ctx (depth + 1) call) {args : List Value}
    (hargs : f.params.length = args.length) (cs : List Waiting) :
    Simulates rs D (rest (.enter r args depth) cs) (f.apply call args)
      fun v y => y = deliver v cs := by
  let a : Activation := ⟨r, depth, f.slotNames, cs⟩
  have henter : a.Holds (.ofArgs f.params args) 0 (.enter r args depth) :=
    ⟨rfl, rfl, rfl, fun x _ => read_args h.nodup hargs _ x⟩
  have hcode : Stands a.routine.code.toList 0 (f.body.code a.slot .start) := by
    rcases h.code with hcode | hcode
    · exact hcode ▸ Stands.refl f.bodyCode
    · exact hcode ▸ (Stands.refl f.bodyCode).append _
  refine (f.body.exec_simulates hcall h.labels h.resolved h.enclosed nofun hcode henter).bind ?_
  intro flow y hy
  cases flow with
  | next env =>
    rw [Nat.zero_add] at hy
    exact .after (h.returns rfl hy) (.pure rfl)
  | broke env =>
    obtain ⟨x, hx, -⟩ := hy
    cases hx
  | returned v => exact .pure hy

end Function

/-! ### Calls -/

namespace Program

variable {p : Program} {f : Function} {name : String} {args : List Value}

theorem call_zero (hf : p.find? name = some f) (hargs : f.params.length = args.length) :
    p.call 0 name args = .trap .callDepth := by
  funext o
  simp [call, hf, hargs, Meaning.trap]

theorem call_succ (hf : p.find? name = some f) (hargs : f.params.length = args.length)
    (left : Nat) : p.call (left + 1) name args = f.apply (p.call left) args := by
  funext o
  simp [call, hf, hargs]

/-- Every declared function is found in the program, and its routine among the routines. -/
def Covered (p : Program) (ctx : Context) (rs : List Routine) : Prop :=
  ∀ name sig, ctx.find? name = some sig → ∃ f r, p.find? name = some f ∧
    f.params.length = sig.arity ∧ Routine.find? rs name = some r ∧ f.Compiled ctx r

theorem entering_of_find {rs : List Routine} {r : Routine} (hr : Routine.find? rs name = some r)
    (hargs : r.paramCount = args.length) (D depth : Nat) (site : Site) (cs : List Waiting) :
    entering rs D name args depth site cs =
      if D < depth then .failed ⟨.callDepth D, site⟩ else rest (.enter r args depth) cs := by
  by_cases hD : D < depth
  · simp [entering, Machine.call, hr, hargs, hD]
  · simp [entering, Machine.call, hr, hargs, hD]

/-- Calls come to what the program says, as many as may still be nested. -/
theorem call_simulates {rs : List Routine} {D : Nat} {ctx : Context} (hall : p.Covered ctx rs)
    {left depth : Nat} (hdepth : depth + left = D + 1) : CallsAt rs D ctx depth (p.call left) := by
  induction left generalizing depth with
  | zero =>
    intro name args sig hsig harity site cs
    obtain ⟨f, r, hf, hparams, hr, hcompiled⟩ := hall name sig hsig
    have hargs : f.params.length = args.length := hparams.trans harity
    rw [call_zero hf hargs, entering_of_find hr (hcompiled.params.trans hargs), if_pos (by omega)]
    exact .trap (.refl _)
  | succ left ih =>
    intro name args sig hsig harity site cs
    obtain ⟨f, r, hf, hparams, hr, hcompiled⟩ := hall name sig hsig
    have hargs : f.params.length = args.length := hparams.trans harity
    rw [call_succ hf hargs, entering_of_find hr (hcompiled.params.trans hargs), if_neg (by omega)]
    exact hcompiled.apply_simulates (ih (by omega)) hargs cs

/-- A program that was accepted and lowered without failures has a routine for every function. -/
theorem covered_of_lower {options : LowerOptions} (hnone : p.findings = [])
    (hids : ∀ f ∈ p.functions, f.body.loops.Nodup)
    (hlabels : ∀ f ∈ p.functions, f.body.labelCount ≤ UInt32.size)
    (hok : (p.link.lower options).errors = []) :
    p.link.Covered (.ofProgram p.link options) (p.link.lower options).routines := by
  have hnames := nodup_names_link hnone
  intro name sig hsig
  obtain ⟨f', hf', rfl, harity⟩ := exists_of_signature hnames hsig
  obtain ⟨r, hr⟩ := lower_of_errors hok hf'
  refine ⟨f', r, find?_of_mem hnames hf', harity, ?_, ?_⟩
  · exact find?_routines_of_lower hnames hf' hr
  · obtain ⟨f, hf, rfl⟩ := List.mem_map.mp hf'
    have hparams : f.link.params.Nodup := nodup_params_of_findings (f := f) hnone hf
    refine Function.compiled_of_lower hr ?_ ?_ hparams
    · rw [Function.link, Stmt.labelCount_link]
      exact hlabels f hf
    · exact Function.enclosed_link (hids f hf) (strayBreaks_of_findings hnone hf)

end Program

/-! ### Runs -/

/-- A run that simulates a call comes to an outcome of the call, and to each of them, if it is
    granted enough steps. -/
theorem Machine.Simulates.outcome_iff {rs : List Routine} {D : Nat} {x : Next}
    {P : Meaning (Option Value)} (h : Simulates rs D x P fun v y => y = deliver v [])
    (o : Except Trap (Option Value)) :
    P o ↔ ∃ n, (outcomeAt n (go rs D n x)).mapError Fault.kind = o.mapError (Trap.kind D) := by
  constructor
  · intro ho
    have hcomes := h.sound o ho
    cases o with
    | ok v =>
      obtain ⟨_, ⟨n, hn⟩, rfl⟩ := hcomes
      exact ⟨n, by rw [hn]; rfl⟩
    | error t =>
      obtain ⟨site, n, hn⟩ := hcomes
      exact ⟨n, by rw [hn]; rfl⟩
  · rintro ⟨n, hn⟩
    -- The run has ended, so the call has an outcome, and the run cannot have ended otherwise.
    have hreach : Reaches rs D x (go rs D n x) := ⟨n, rfl⟩
    have hhalt : HaltsIn rs D n x := by
      intro m hm
      rw [hm] at hn
      cases o with
      | ok v => cases hn
      | error t => cases t <;> cases hn
    obtain ⟨o', ho'⟩ := h.total n hhalt
    suffices heq : o = o' by rwa [heq]
    have hcomes := h.sound o' ho'
    cases o' with
    | ok v' =>
      obtain ⟨_, hend, rfl⟩ := hcomes
      rw [hreach.unique hend hhalt (fun m hm => by cases hm)] at hn
      cases o with
      | ok v =>
        cases hn
        rfl
      | error t => cases hn
    | error t' =>
      obtain ⟨site, hend⟩ := hcomes
      rw [hreach.unique hend hhalt (fun m hm => by cases hm)] at hn
      cases o with
      | ok v => cases hn
      | error t => rw [Trap.kind_injective D (Except.error.inj hn).symm]

/-- **Lowering preserves meaning.**  Take a program that was accepted and of which all functions were
    lowered, in which no two loops of a function have the same number and no function takes more
    labels than there are.  A call of one of its functions, with as many arguments as it has
    parameters, comes to an outcome (a value, no value, a division by zero or calls nested too
    deeply) exactly if the machine, granted some number of steps, ends with this outcome when it
    runs the lowered program. -/
theorem lowering_preserves_meaning {p q : Program} {options : LowerOptions}
    (hq : p.analyze = .ok q) (hids : ∀ f ∈ p.functions, f.body.loops.Nodup)
    (hlabels : ∀ f ∈ p.functions, f.body.labelCount ≤ UInt32.size)
    (hok : (q.lower options).errors = []) {f : Function} (hf : f ∈ p.functions)
    {args : List Value} (hargs : args.length = f.params.length) (maxDepth : Nat) (trace : Bool)
    (o : Except Trap (Option Value)) :
    p.run maxDepth f.name args o ↔ ∃ maxSteps,
      (Machine.run (q.lower options).routines f.name args
        ⟨maxSteps, maxDepth, trace⟩).outcome.mapError Fault.kind =
          o.mapError (Trap.kind maxDepth) := by
  obtain ⟨hnone, rfl⟩ := Program.analyze_eq_ok hq
  have hcovered := Program.covered_of_lower hnone hids hlabels hok
  have hcalls : CallsAt _ maxDepth _ 0 (p.link.call (maxDepth + 1)) :=
    Program.call_simulates hcovered (Nat.zero_add _)
  have hlink : f.link ∈ p.link.functions := List.mem_map_of_mem hf
  obtain ⟨id, hid⟩ := Context.arity_of_mem (Program.nodup_names_link hnone) options hlink
  rw [Program.run, ← Program.call_link]
  simp only [run_outcome]
  exact (hcalls f.name args _ hid hargs.symm .entry []).outcome_iff o

/-- A function that returns seven. -/
def seven : Function where
  name := "seven"
  params := []
  body := .ret ⟨⟨8⟩, .unknown⟩ (some (.int .unknown 7))
  origin := .unknown

/-- A function that counts down to zero, leaves its loop there, and returns seven. -/
def countdown : Function where
  name := "countdown"
  params := ["n"]
  body := .block ⟨⟨7⟩, .unknown⟩
    [.whileLoop ⟨⟨5⟩, .unknown⟩ (.bool .unknown true) (.block ⟨⟨4⟩, .unknown⟩
      [.ifThen ⟨⟨2⟩, .unknown⟩ (.unary .unknown .not (.ident .unknown "n"))
        (.breakLoop ⟨⟨1⟩, .unknown⟩ none),
      .eval ⟨⟨3⟩, .unknown⟩ (.assign .unknown "n"
        (.binary .unknown .sub (.ident .unknown "n") (.int .unknown 1)))]),
    .ret ⟨⟨6⟩, .unknown⟩ (some (.call .unknown "seven" []))]
  origin := .unknown

theorem lowering_preserves_meaning_countdown :
    (Program.mk [countdown, seven]).run 1 "countdown" [.int 2] (.ok (some (.int 7))) ∧
      (Program.mk [countdown, seven]).run 0 "countdown" [.int 2] (.error .callDepth) := by
  have hids : ∀ f ∈ [countdown, seven], f.body.loops.Nodup := by decide
  have hlabels : ∀ f ∈ [countdown, seven], f.body.labelCount ≤ UInt32.size := by decide
  have hok : ((Program.mk [countdown, seven]).link.lower {}).errors = [] := by decide +kernel
  have hf : countdown ∈ [countdown, seven] := List.mem_cons_self
  have hargs : [Value.int 2].length = countdown.params.length := rfl
  have hmeaning := lowering_preserves_meaning (p := ⟨[countdown, seven]⟩) rfl hids hlabels hok hf
    hargs
  constructor
  · exact (hmeaning 1 false _).mpr ⟨100, by decide +kernel⟩
  · exact (hmeaning 0 false _).mpr ⟨100, by decide +kernel⟩

end JumpCode
