import JumpCode.Proofs.Lowering.Labels
import JumpCode.Proofs.Lowering.Resolution

/-!
# Callees

A call in lowered code names a function that was declared, and passes as many arguments as the
function was declared with.  The code of a function has no calls but those of its expressions, and
an expression with a call that is not all right is not lowered.
-/

namespace JumpCode

variable {ctx : Context} {d : Reg} {name : String} {regs : List Reg}

/-! ### Calls in the code of a tree -/

section Code

variable {ns : List String}

namespace Expr

mutual

/-- The calls in the code of an expression are calls of declared functions. -/
theorem callee_of_code {slot : String → Slot} {n : Reg} {e : Expr} (hres : e.Resolved ctx ns)
    (h : Instr.call d name regs ∈ e.code slot n) :
    ∃ sig, ctx.find? name = some sig ∧ sig.arity = regs.length := by
  cases e with
  | int o v => simp [code] at h
  | bool o b => simp [code] at h
  | ident o x => simp [code] at h
  | unary o op e =>
    simp only [code, List.mem_append, List.mem_singleton, reduceCtorEq, or_false] at h
    exact callee_of_code (e := e) hres h
  | binary o op l r =>
    simp only [code, List.mem_append, List.mem_singleton, reduceCtorEq, or_false] at h
    rcases h with h | h
    · exact callee_of_code hres.1 h
    · exact callee_of_code hres.2 h
  | assign o x e =>
    simp only [code, List.mem_append, List.mem_singleton, reduceCtorEq, or_false] at h
    exact callee_of_code hres.1 h
  | call o f args =>
    rcases List.mem_append.mp h with h | h
    · exact callee_of_codeAll hres.2 h
    · obtain ⟨sig, hsig, harity⟩ := hres.1
      cases List.mem_singleton.mp h
      exact ⟨sig, hsig, harity.trans (length_results n args).symm⟩

theorem callee_of_codeAll {slot : String → Slot} {n : Reg} {es : List Expr}
    (hres : ResolvedAll ctx ns es) (h : Instr.call d name regs ∈ codeAll slot n es) :
    ∃ sig, ctx.find? name = some sig ∧ sig.arity = regs.length := by
  cases es with
  | nil => simp [codeAll] at h
  | cons e es =>
    rcases List.mem_append.mp h with h | h
    · exact callee_of_code hres.1 h
    · exact callee_of_codeAll hres.2 h

end

end Expr

namespace Stmt

mutual

/-- A statement makes no calls but those of its expressions. -/
theorem callee_of_code {slot : String → Slot} {p : Point} {s : Stmt} (hres : s.Resolved ctx ns)
    (h : Instr.call d name regs ∈ s.code slot p) :
    ∃ sig, ctx.find? name = some sig ∧ sig.arity = regs.length := by
  cases s with
  | block m body => exact callee_of_codeAll hres h
  | eval m e => exact Expr.callee_of_code hres h
  | ret m e =>
    cases e with
    | none => simp [code] at h
    | some e =>
      simp only [code, List.mem_append, List.mem_singleton, reduceCtorEq, or_false] at h
      exact Expr.callee_of_code hres h
  | ifThen m c t =>
    simp only [code, List.mem_append, List.mem_cons, List.not_mem_nil, reduceCtorEq, or_false,
      false_or] at h
    rcases h with h | h
    · exact Expr.callee_of_code hres.1 h
    · exact callee_of_code hres.2 h
  | ifElse m c t e =>
    simp only [code, List.mem_append, List.mem_cons, List.not_mem_nil, reduceCtorEq, or_false,
      false_or] at h
    rcases h with h | h | h
    · exact Expr.callee_of_code hres.1 h
    · exact callee_of_code hres.2.1 h
    · exact callee_of_code hres.2.2 h
  | whileLoop m c body =>
    simp only [code, List.mem_append, List.mem_cons, List.not_mem_nil, reduceCtorEq, or_false,
      false_or] at h
    rcases h with h | h
    · exact Expr.callee_of_code hres.1 h
    · exact callee_of_code hres.2 h
  | breakLoop m link => simp [code] at h

theorem callee_of_codeAll {slot : String → Slot} {p : Point} {ss : List Stmt}
    (hres : ResolvedAll ctx ns ss) (h : Instr.call d name regs ∈ codeAll slot p ss) :
    ∃ sig, ctx.find? name = some sig ∧ sig.arity = regs.length := by
  cases ss with
  | nil => simp [codeAll] at h
  | cons s ss =>
    rcases List.mem_append.mp h with h | h
    · exact callee_of_code hres.1 h
    · exact callee_of_codeAll hres.2 h

end

end Stmt

end Code

/-! ### Functions and their routines -/

namespace Function

variable {f : Function} {r : Routine}

/-- A routine has the code of the body of its function, and maybe a return after it. -/
theorem code_of_lower (h : f.lower ctx = .ok r) :
    r.code.toList = f.bodyCode ∨ r.code.toList = f.bodyCode ++ [.retVoid] := by
  obtain ⟨-, -, -, -, hcode, -⟩ := Builder.finish_eq_ok (finish_of_lower h).2
  rw [hcode]
  exact f.code_finished ctx.options.implicitReturn

/-- But for that return, what stands in a routine stands in the code of the body. -/
theorem mem_bodyCode_of_mem (h : f.lower ctx = .ok r) {i : Instr} (hi : i ∈ r.code.toList)
    (hret : i ≠ .retVoid) : i ∈ f.bodyCode := by
  rcases code_of_lower h with hcode | hcode
  · rwa [hcode] at hi
  · simpa [hcode, hret] using hi

theorem mem_of_mem_bodyCode (h : f.lower ctx = .ok r) {i : Instr} (hi : i ∈ f.bodyCode) :
    i ∈ r.code.toList := by
  rcases code_of_lower h with hcode | hcode
  · rwa [hcode]
  · rw [hcode]
    exact List.mem_append_left _ hi

/-- A routine calls declared functions only, with as many arguments as they take. -/
theorem callee_of_lower (h : f.lower ctx = .ok r)
    (hcall : Instr.call d name regs ∈ r.code.toList) :
    ∃ sig, ctx.find? name = some sig ∧ sig.arity = regs.length := by
  have hbody := mem_bodyCode_of_mem h hcall (by simp)
  exact Stmt.callee_of_code (resolved_of_violation (finish_of_lower h).1) hbody

end Function

end JumpCode
