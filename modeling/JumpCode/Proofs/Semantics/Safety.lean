import JumpCode.Proofs.Ast.Checked
import JumpCode.Proofs.Lowering.Callees
import JumpCode.Proofs.Lowering.Declared
import JumpCode.Proofs.Machine.Jumps
import JumpCode.Proofs.Semantics.Structured

/-!
# Compiled programs do not go wrong

The machine looks up callees by name and jumps by label, and can fail to find either.  With the
routines of a program that was accepted, and of which every function was lowered, this does not
happen.  A call stands in the code only if a function of its name was declared, with as many
parameters as it passes arguments.  As no two functions share a name, the routine that is found
under it was lowered from this very function.  A label that is jumped to stands in the code of the
function, whether or not mistakes in labels were looked for.

What is left are the limits of a run, divisions by zero, and the call that starts a run, which comes
from outside.
-/

namespace JumpCode

open Machine

/-! ### Routines that know where to go -/

/-- Every call of the routine finds a routine that takes its arguments. -/
def Routine.CallsMatch (rs : List Routine) (r : Routine) : Prop :=
  ∀ d name regs, Instr.call d name regs ∈ r.code.toList →
    ∃ callee, find? rs name = some callee ∧ callee.paramCount = regs.length

/-- A label that is jumped to stands in the code of the body, so it stands in the routine. -/
theorem Function.jumpsPlaced_of_lower {ctx : Context} {f : Function} {r : Routine}
    (h : f.lower ctx = .ok r) : r.JumpsPlaced := by
  intro i hi l hl
  obtain ⟨hv, hfinish⟩ := finish_of_lower h
  obtain ⟨-, -, -, -, hcode, hposition⟩ := Builder.finish_eq_ok hfinish
  have hbody : i ∈ f.bodyCode := by
    apply mem_bodyCode_of_mem h hi
    rintro rfl
    cases hl
  have hlabel : Instr.label l ∈ r.code.toList :=
    mem_of_mem_bodyCode h (label_mem_bodyCode hv hbody hl)
  rw [hposition, ← hcode]
  simpa [List.idxOf?_eq_none_iff] using hlabel

namespace Program

variable {p : Program} {options : LowerOptions}

theorem jumpsPlaced_routines : ∀ r ∈ (p.lower options).routines, r.JumpsPlaced := by
  intro r hr
  obtain ⟨f, -, hlower⟩ := exists_of_mem_routines hr
  exact Function.jumpsPlaced_of_lower hlower

/-- If its functions have different names and none of them failed, the routines of a program find
    each other. -/
theorem callsMatch_routines (hnames : (p.functions.map Function.name).Nodup)
    (hok : (p.lower options).errors = []) :
    ∀ r ∈ (p.lower options).routines, r.CallsMatch (p.lower options).routines := by
  intro r hr d name regs hcall
  obtain ⟨f, -, hlower⟩ := exists_of_mem_routines hr
  obtain ⟨sig, hsig, harity⟩ := Function.callee_of_lower hlower hcall
  obtain ⟨g, hg, rfl, hparams⟩ := exists_of_signature hnames hsig
  obtain ⟨callee, hcallee⟩ := lower_of_errors hok hg
  refine ⟨callee, find?_routines_of_lower hnames hg hcallee, ?_⟩
  rw [Function.paramCount_of_lower hcallee, hparams, harity]

end Program

/-! ### Runs -/

/-- If routines know where to jump to and what to call, an instruction fails only over a division by
    zero or over calls that are nested too deeply. -/
theorem Machine.InRun.kind_of_step {rs : List Routine} {D : Nat} {entry : String}
    {args : List Value} {m : Machine} (hjumps : ∀ r ∈ rs, r.JumpsPlaced)
    (hcalls : ∀ r ∈ rs, r.CallsMatch rs) (h : InRun rs D entry args m) {e : Fault}
    (he : step rs D m = .failed e) : e.kind = .callDepth D ∨ e.kind = .divisionByZero := by
  rcases h.fault_of_step he with rfl | ⟨i, l, hi, htarget, hnone, -⟩ | ⟨d, name, regs, hi, hcall⟩
  · exact Or.inr rfl
  · exact absurd hnone (hjumps _ h.routine_mem i (Frame.mem_code_of_instr hi) l htarget)
  · obtain ⟨callee, hfind, hcount⟩ := hcalls _ h.routine_mem d name regs (Frame.mem_code_of_instr hi)
    rcases call_eq_error hcall with ⟨hnone, -⟩ | ⟨r, hr, ⟨hne, -⟩ | ⟨-, -, rfl⟩⟩
    · rw [hfind] at hnone
      cases hnone
    · rw [hfind] at hr
      cases hr
      rw [List.length_map] at hne
      exact absurd hcount hne
    · exact Or.inl rfl

/-- The call that starts a run is refused only if there is no function of that name or if the function
    takes another number of arguments. -/
theorem Program.fault_of_entry {p : Program} {options : LowerOptions}
    (hnames : (p.functions.map Function.name).Nodup) (hok : (p.lower options).errors = [])
    {D : Nat} {entry : String} {args : List Value} {e : Fault}
    (h : Machine.call (p.lower options).routines D entry args 0 .entry = .error e) :
    e.site = .entry ∧
      ((p.find? entry = none ∧ e.kind = .unknownFunction entry) ∨
        ∃ f, p.find? entry = some f ∧ f.params.length ≠ args.length ∧
          e.kind = .arityMismatch entry f.params.length args.length) := by
  cases hf : p.find? entry with
  | none =>
    have hnone : Routine.find? (p.lower options).routines entry = none := by
      rw [find?_routines hnames, hf]
      rfl
    rcases call_eq_error h with ⟨-, rfl⟩ | ⟨r, hr, -⟩
    · exact ⟨rfl, Or.inl ⟨rfl, rfl⟩⟩
    · rw [hnone] at hr
      cases hr
  | some f =>
    have hmem : f ∈ p.functions := List.mem_of_find?_eq_some hf
    obtain ⟨r, hr⟩ := lower_of_errors hok hmem
    have hfound : Routine.find? (p.lower options).routines entry = some r := by
      rw [find?_routines hnames, hf]
      simp [hr, Except.toOption]
    rcases call_eq_error h with ⟨hnone, -⟩ | ⟨r', hr', hwhy⟩
    · rw [hfound] at hnone
      cases hnone
    · rw [hfound] at hr'
      cases hr'
      rw [Function.paramCount_of_lower hr] at hwhy
      rcases hwhy with ⟨hne, rfl⟩ | ⟨-, hdepth, -⟩
      · exact ⟨rfl, Or.inr ⟨f, rfl, hne, rfl⟩⟩
      · exact absurd hdepth (Nat.not_lt_zero D)

/-- **Compiled programs do not go wrong.**  Take a program that was accepted and of which all
    functions were lowered.  Whatever a run is asked to do, it fails before its first step because
    there is no function of the given name or because the function takes another number of
    arguments, or it fails over the limits on steps and depth or over a division by zero.  In every
    state of the run the function that is called is there and takes as many arguments as it gets,
    the label that is jumped to has a place, and if the instruction fails it is over the depth or a
    division. -/
theorem compiled_programs_do_not_go_wrong {p q : Program} {options : LowerOptions}
    (hq : p.analyze = .ok q) (hok : (q.lower options).errors = []) (entry : String)
    (args : List Value) (limits : RunOptions) :
    (∀ e, (run (q.lower options).routines entry args limits).outcome = .error e →
      (((p.find? entry = none ∧ e.kind = .unknownFunction entry) ∨
          ∃ f, p.find? entry = some f ∧ f.params.length ≠ args.length ∧
            e.kind = .arityMismatch entry f.params.length args.length) ∧
        e.site = .entry ∧ (run (q.lower options).routines entry args limits).steps = 0) ∨
      e.kind = .stepLimit limits.maxSteps ∨ e.kind = .callDepth limits.maxDepth ∨
        e.kind = .divisionByZero) ∧
    ∀ m, InRun (q.lower options).routines limits.maxDepth entry args m →
      (∀ d name regs, m.top.instr? = some (.call d name regs) →
        ∃ callee, (q.lower options).find? name = some callee ∧ callee.paramCount = regs.length) ∧
      (∀ i l, m.top.instr? = some i → i.target? = some l →
        m.top.routine.positionOf l ≠ none) ∧
      ∀ e, step (q.lower options).routines limits.maxDepth m = .failed e →
        e.kind = .callDepth limits.maxDepth ∨ e.kind = .divisionByZero := by
  obtain ⟨hnone, rfl⟩ := Program.analyze_eq_ok hq
  have hnames := Program.nodup_names_link hnone
  have hjumps : ∀ r ∈ (p.link.lower options).routines, r.JumpsPlaced :=
    Program.jumpsPlaced_routines
  have hcalls := Program.callsMatch_routines hnames hok
  constructor
  · intro e he
    rcases fault_of_run he with ⟨hcall, hsteps⟩ | ⟨m, -, rfl⟩ | ⟨m, hm, hstep⟩
    · obtain ⟨hsite, hwhy⟩ := Program.fault_of_entry hnames hok hcall
      rw [Program.find?_link] at hwhy
      refine Or.inl ⟨?_, hsite, hsteps⟩
      rcases hwhy with ⟨hmissing, hkind⟩ | ⟨f, hf, hne, hkind⟩
      · exact Or.inl ⟨Option.map_eq_none_iff.1 hmissing, hkind⟩
      · obtain ⟨g, hg, rfl⟩ := Option.map_eq_some_iff.1 hf
        exact Or.inr ⟨g, hg, hne, hkind⟩
    · exact Or.inr (Or.inl rfl)
    · exact Or.inr (Or.inr (hm.kind_of_step hjumps hcalls hstep))
  · intro m hm
    refine ⟨?_, ?_, fun e he => hm.kind_of_step hjumps hcalls he⟩
    · intro d name regs hi
      exact hcalls _ hm.routine_mem d name regs (Frame.mem_code_of_instr hi)
    · intro i l hi hl
      exact hjumps _ hm.routine_mem i (Frame.mem_code_of_instr hi) l hl

/-- Divides one argument by the other from inside a loop. -/
def quotient : Function where
  name := "quotient"
  params := ["a", "b"]
  body := .block ⟨⟨3⟩, .unknown⟩
    [.whileLoop ⟨⟨2⟩, .unknown⟩ (.bool .unknown true)
      (.ret ⟨⟨1⟩, .unknown⟩ (some (.binary .unknown .div (.ident .unknown "a")
        (.ident .unknown "b"))))]
  origin := .unknown

/-- Divides its argument by itself. -/
def ratio : Function where
  name := "ratio"
  params := ["n"]
  body := .ret ⟨⟨4⟩, .unknown⟩ (some (.call .unknown "quotient"
    [.ident .unknown "n", .ident .unknown "n"]))
  origin := .unknown

theorem compiled_programs_do_not_go_wrong_ratio :
    let rs := ((Program.mk [ratio, quotient]).link.lower {}).routines
    (run rs "ratio" [.int 6] {}).outcome = .ok (some (.int 1)) ∧
    (run rs "ratio" [.int 0] {}).FailsWith .divisionByZero ∧
    (run rs "ratio" [.int 6] ⟨100, 0, false⟩).FailsWith (.callDepth 0) ∧
    (run rs "ratio" [] {}).outcome = .error ⟨.arityMismatch "ratio" 1 0, .entry⟩ ∧
    ∀ args limits name, ¬(run rs "ratio" args limits).FailsWith (.unknownFunction name) := by
  intro rs
  refine ⟨by decide +kernel, ⟨⟨"quotient", 5⟩, by decide +kernel⟩, ⟨⟨"ratio", 2⟩, by decide +kernel⟩,
    by decide +kernel, ?_⟩
  rintro args limits name ⟨site, hsite⟩
  have hok : ((Program.mk [ratio, quotient]).link.lower {}).errors = [] := by decide +kernel
  have hsafe := (compiled_programs_do_not_go_wrong (p := ⟨[ratio, quotient]⟩) rfl hok "ratio" args
    limits).1 _ hsite
  simp [Program.find?, ratio] at hsafe

end JumpCode
