import JumpCode.Proofs.Semantics.Safety
import JumpCode.Proofs.Machine.Reports

/-!
# Functions and their surroundings

A function is lowered on its own, and whether it fails has no bearing on the others (`Settled`).
What the rest of a program has to do with it is which functions are declared and how many parameters
they take.  So a function that could be lowered can be lowered to the same routine wherever these
functions are declared (`Context.Within`).

The same goes for runs.  Routines that find all they call among each other run alike when there are
more routines, in whatever order, as long as the names they know still stand for the same routines
(`run_of_found`).
-/

namespace JumpCode

open Machine

variable {ctx ctx' : Context}

/-! ### Routines and failures -/

namespace Expr

mutual

/-- Whatever is wrong with an expression, no function has been blamed for it yet. -/
theorem blame_of_violation {ns : List String} {e : Expr} {err : LowerError}
    (h : e.violation? ctx ns = some err) : err.function = none := by
  cases e with
  | int o v => cases h
  | bool o b => cases h
  | ident o x =>
    rw [violation?] at h
    split at h <;> cases h
    rfl
  | unary o op e => exact blame_of_violation (e := e) h
  | binary o op l r =>
    rcases orElse_eq_some h with h | h
    · exact blame_of_violation h
    · exact blame_of_violation h
  | assign o x e => exact blame_of_violation (e := e) h
  | call o f args =>
    rw [violation?] at h
    split at h
    · cases h
      rfl
    · split at h
      · exact blame_of_violationAll h
      · cases h
        rfl

theorem blame_of_violationAll {ns : List String} {es : List Expr} {err : LowerError}
    (h : violationAll? ctx ns es = some err) : err.function = none := by
  cases es with
  | nil => cases h
  | cons e es =>
    rcases orElse_eq_some h with h | h
    · exact blame_of_violation h
    · exact blame_of_violationAll h

end

end Expr

namespace Stmt

mutual

theorem blame_of_violation {ns : List String} {entered : List StmtId} {s : Stmt} {err : LowerError}
    (h : s.violation? ctx ns entered = some err) : err.function = none := by
  cases s with
  | block m body => exact blame_of_violationAll h
  | eval m e => exact Expr.blame_of_violation h
  | ret m e =>
    cases e with
    | none => cases h
    | some e => exact Expr.blame_of_violation h
  | ifThen m c t =>
    rcases orElse_eq_some h with h | h
    · exact Expr.blame_of_violation h
    · exact blame_of_violation h
  | ifElse m c t e =>
    rcases orElse_eq_some h with h | h
    · exact Expr.blame_of_violation h
    · rcases orElse_eq_some h with h | h
      · exact blame_of_violation h
      · exact blame_of_violation h
  | whileLoop m c body =>
    rcases orElse_eq_some h with h | h
    · exact Expr.blame_of_violation h
    · exact blame_of_violation h
  | breakLoop m link =>
    rw [violation?] at h
    split at h <;> cases h
    rfl

theorem blame_of_violationAll {ns : List String} {entered : List StmtId} {ss : List Stmt}
    {err : LowerError} (h : violationAll? ctx ns entered ss = some err) : err.function = none := by
  cases ss with
  | nil => cases h
  | cons s ss =>
    rcases orElse_eq_some h with h | h
    · exact blame_of_violation h
    · exact blame_of_violationAll h

end

end Stmt

/-- A failure names the function that failed. -/
theorem Function.blame_of_lower {f : Function} {err : LowerError} (h : f.lower ctx = .error err) :
    err.function = some f.name := by
  cases hv : f.violation? ctx with
  | none =>
    rw [lower_of_violation_none hv] at h
    unfold Builder.finish at h
    split at h
    · cases h
    · cases h
      rfl
  | some e =>
    have hnone : e.function = none := Stmt.blame_of_violation hv
    rw [lower_of_violation_some hv] at h
    cases h
    simp [LowerError.inFunction, hnone]

/-- What has become of some functions: each was lowered or failed, and the routines and the failures
    stand in the order of the functions. -/
inductive Settled (ctx : Context) : List Function → Lowered → Prop where
  | nil : Settled ctx [] .empty
  | lowered {f : Function} {fs : List Function} {r : Routine} {l : Lowered} :
      f.lower ctx = .ok r → r.name = f.name → Settled ctx fs l →
        Settled ctx (f :: fs) ⟨r :: l.routines, l.errors⟩
  | failed {f : Function} {fs : List Function} {e : LowerError} {l : Lowered} :
      f.lower ctx = .error e → e.function = some f.name → Settled ctx fs l →
        Settled ctx (f :: fs) ⟨l.routines, e :: l.errors⟩

theorem Program.settled (p : Program) (options : LowerOptions) :
    Settled (.ofProgram p options) p.functions (p.lower options) := by
  rw [lower_eq]
  generalize Context.ofProgram p options = ctx
  induction p.functions with
  | nil => exact .nil
  | cons f fs ih =>
    cases hf : f.lower ctx with
    | ok r =>
      have hboth := Settled.lowered hf (Function.name_of_lower hf) ih
      simpa [Function.failure?, hf, Except.toOption] using hboth
    | error e =>
      have hboth := Settled.failed hf (Function.blame_of_lower hf) ih
      simpa [Function.failure?, hf, Except.toOption] using hboth

/-! ### Contexts that know more -/

/-- Every function that is declared in one context is declared in the other, with as many
    parameters. -/
structure Context.Within (ctx ctx' : Context) : Prop where
  options : ctx'.options = ctx.options
  declared {name : String} {sig : Signature} : ctx.find? name = some sig →
    ∃ sig', ctx'.find? name = some sig' ∧ sig'.arity = sig.arity

namespace Expr

mutual

/-- An expression that is all right stays so when more functions are declared. -/
theorem violation_of_within (hw : ctx.Within ctx') {ns : List String} {e : Expr}
    (h : e.violation? ctx ns = none) : e.violation? ctx' ns = none := by
  cases e with
  | int o v => rfl
  | bool o b => rfl
  | ident o x => exact h
  | unary o op e => exact violation_of_within hw (e := e) h
  | binary o op l r =>
    rw [violation?, orElse_eq_none_iff] at h ⊢
    exact ⟨violation_of_within hw h.1, violation_of_within hw h.2⟩
  | assign o x e => exact violation_of_within hw (e := e) h
  | call o f args =>
    rw [violation?] at h
    split at h
    · cases h
    · next sig hsig =>
      split at h
      · next harity =>
        obtain ⟨sig', hsig', hsame⟩ := hw.declared hsig
        rw [violation?, hsig']
        simp only [hsame, harity, ↓reduceIte]
        exact violationAll_of_within hw h
      · cases h

theorem violationAll_of_within (hw : ctx.Within ctx') {ns : List String} {es : List Expr}
    (h : violationAll? ctx ns es = none) : violationAll? ctx' ns es = none := by
  cases es with
  | nil => rfl
  | cons e es =>
    rw [violationAll?, orElse_eq_none_iff] at h ⊢
    exact ⟨violation_of_within hw h.1, violationAll_of_within hw h.2⟩

end

end Expr

namespace Stmt

mutual

theorem violation_of_within (hw : ctx.Within ctx') {ns : List String} {entered : List StmtId}
    {s : Stmt} (h : s.violation? ctx ns entered = none) : s.violation? ctx' ns entered = none := by
  cases s with
  | block m body => exact violationAll_of_within hw h
  | eval m e => exact Expr.violation_of_within hw h
  | ret m e =>
    cases e with
    | none => rfl
    | some e => exact Expr.violation_of_within hw h
  | ifThen m c t =>
    rw [violation?, orElse_eq_none_iff] at h ⊢
    exact ⟨Expr.violation_of_within hw h.1, violation_of_within hw h.2⟩
  | ifElse m c t e =>
    rw [violation?, orElse_eq_none_iff, orElse_eq_none_iff] at h ⊢
    exact ⟨Expr.violation_of_within hw h.1, violation_of_within hw h.2.1,
      violation_of_within hw h.2.2⟩
  | whileLoop m c body =>
    rw [violation?, orElse_eq_none_iff] at h ⊢
    exact ⟨Expr.violation_of_within hw h.1, violation_of_within hw h.2⟩
  | breakLoop m link => exact h

theorem violationAll_of_within (hw : ctx.Within ctx') {ns : List String} {entered : List StmtId}
    {ss : List Stmt} (h : violationAll? ctx ns entered ss = none) :
    violationAll? ctx' ns entered ss = none := by
  cases ss with
  | nil => rfl
  | cons s ss =>
    rw [violationAll?, orElse_eq_none_iff] at h ⊢
    exact ⟨violation_of_within hw h.1, violationAll_of_within hw h.2⟩

end

end Stmt

/-- A function that is lowered to a routine is lowered to the same routine when more functions are
    declared. -/
theorem Function.lower_of_within (hw : ctx.Within ctx') {f : Function} {r : Routine}
    (h : f.lower ctx = .ok r) : f.lower ctx' = .ok r := by
  have hv : f.violation? ctx = none := (finish_of_lower h).1
  have hv' : f.violation? ctx' = none := Stmt.violation_of_within hw hv
  rw [lower_of_violation_none hv']
  rw [lower_of_violation_none hv] at h
  rw [hw.options, h]

section Programs

variable {p q : Program} (options : LowerOptions)

/-- The declarations of a program are among those of a program that has all its functions. -/
theorem Context.Within.ofProgram (hp : (p.functions.map Function.name).Nodup)
    (hq : (q.functions.map Function.name).Nodup) (hsub : p.functions ⊆ q.functions) :
    (Context.ofProgram p options).Within (.ofProgram q options) := by
  constructor
  · rw [Context.options_ofProgram, Context.options_ofProgram]
  · intro name sig hsig
    obtain ⟨f, hf, rfl, harity⟩ := Program.exists_of_signature hp hsig
    obtain ⟨id, hid⟩ := Context.arity_of_mem hq options (hsub hf)
    exact ⟨_, hid, harity⟩

variable {options}

/-- A name stands for the same routine in a program that has more functions. -/
theorem Program.find?_routines_of_subset (hp : (p.functions.map Function.name).Nodup)
    (hq : (q.functions.map Function.name).Nodup) (hsub : p.functions ⊆ q.functions) {name : String}
    {r : Routine} (h : Routine.find? (p.lower options).routines name = some r) :
    Routine.find? (q.lower options).routines name = some r := by
  obtain ⟨f, hf, hr⟩ := exists_of_mem_routines (List.mem_of_find?_eq_some h)
  have hname : f.name = name := by
    rw [← Function.name_of_lower hr]
    simpa using List.find?_some h
  rw [← hname]
  exact find?_routines_of_lower hq (hsub hf)
    (Function.lower_of_within (.ofProgram options hp hq hsub) hr)

end Programs

/-! ### Runs among more routines -/

/-- Take routines of which each finds what it calls.  Among other routines they run in the same way,
    if each is still found under its name. -/
theorem run_of_found {rs rs' : List Routine} (hcalls : ∀ r ∈ rs, r.CallsMatch rs)
    (hfound : ∀ name r, Routine.find? rs name = some r → Routine.find? rs' name = some r)
    {entry : String} {r : Routine} (hentry : Routine.find? rs entry = some r) (args : List Value)
    (limits : RunOptions) : run rs' entry args limits = run rs entry args limits := by
  have hcall {name : String} {callee : Routine} (h : Routine.find? rs name = some callee) (D : Nat)
      (args : List Value) (depth : Nat) (site : Site) :
      call rs' D name args depth site = call rs D name args depth site := by
    rw [call, call, h, hfound name callee h]
  obtain ⟨maxSteps, D, trace⟩ := limits
  apply run_congr
  · rw [start, start, entering, entering, hcall hentry]
  · intro k hk m hm
    apply step_congr
    intro d name regs hi
    -- The frame that calls runs one of `rs`, so what it calls is found there.
    have hrun : InRun rs D entry args m := ⟨k, hm⟩
    obtain ⟨callee, hcallee, -⟩ := hcalls _ hrun.routine_mem d name regs (Frame.mem_code_of_instr hi)
    exact hcall hcallee D _ _ _

/-- **Functions are independent of their surroundings.**  Every function of a program ends up either
    among the routines or among the failures, and both are in the order of the program.  Now take a
    program that was accepted and of which all functions were lowered, and another one that was
    accepted and has all its functions, in any order and among any others.  Each of these functions
    is lowered to the same routine in both and is found under its name in both, and a run that starts
    with it ends in the same way, after as many steps, and leaves the same trace. -/
theorem functions_are_independent (options : LowerOptions) :
    (∀ p : Program, Settled (.ofProgram p options) p.functions (p.lower options)) ∧
    ∀ p q p' q' : Program, p.analyze = .ok p' → q.analyze = .ok q' → p.functions ⊆ q.functions →
      (p'.lower options).errors = [] → ∀ f ∈ p'.functions,
        (∃ r, f.lower (.ofProgram p' options) = .ok r ∧ f.lower (.ofProgram q' options) = .ok r ∧
          (p'.lower options).find? f.name = some r ∧ (q'.lower options).find? f.name = some r) ∧
        ∀ args limits, run (q'.lower options).routines f.name args limits =
          run (p'.lower options).routines f.name args limits := by
  refine ⟨fun p => p.settled options, ?_⟩
  intro p q p' q' hp hq hsub hok f hf
  obtain ⟨hnone, rfl⟩ := Program.analyze_eq_ok hp
  obtain ⟨hnone', rfl⟩ := Program.analyze_eq_ok hq
  have hnames := Program.nodup_names_link hnone
  have hnames' := Program.nodup_names_link hnone'
  have hlinked : p.link.functions ⊆ q.link.functions := List.map_subset _ hsub
  have hfound (name : String) (r : Routine)
      (h : Routine.find? (p.link.lower options).routines name = some r) :
      Routine.find? (q.link.lower options).routines name = some r :=
    Program.find?_routines_of_subset hnames hnames' hlinked h
  obtain ⟨r, hr⟩ := Program.lower_of_errors hok hf
  have hfind := Program.find?_routines_of_lower hnames hf hr
  constructor
  · refine ⟨r, hr, ?_, hfind, hfound _ r hfind⟩
    exact Function.lower_of_within (.ofProgram options hnames hnames' hlinked) hr
  · exact run_of_found (Program.callsMatch_routines hnames hok) hfound hfind

/-- A function that cannot be lowered, as there is nothing under the name it returns. -/
def misspelled : Function where
  name := "misspelled"
  params := ["count"]
  body := .ret ⟨⟨5⟩, .unknown⟩ (some (.ident .unknown "cuont"))
  origin := .unknown

theorem functions_are_independent_ratio :
    let small := (Program.mk [ratio, quotient]).link.lower {}
    let large := (Program.mk [misspelled, quotient, ratio]).link.lower {}
    small.errors = [] ∧ large.errors.map LowerError.function = [some "misspelled"] ∧
    (run small.routines "ratio" [.int 0] {}).FailsWith .divisionByZero ∧
    ∀ args limits, run large.routines "ratio" args limits = run small.routines "ratio" args limits := by
  intro small large
  have hok : small.errors = [] := by decide +kernel
  have hsub : [ratio, quotient] ⊆ [misspelled, quotient, ratio] := by simp
  have hboth := (functions_are_independent {}).2 ⟨[ratio, quotient]⟩
    ⟨[misspelled, quotient, ratio]⟩ _ _ rfl rfl hsub hok ratio.link List.mem_cons_self
  exact ⟨hok, by decide +kernel, ⟨⟨"quotient", 5⟩, by decide +kernel⟩, hboth.2⟩

end JumpCode
