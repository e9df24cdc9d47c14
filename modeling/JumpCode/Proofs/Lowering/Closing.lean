import JumpCode.Proofs.Lowering.Declared

/-!
# Ending a routine

A function may be lowered with or without a return at the end of its code.  The return is the one
thing that differs: labels stay where they are, so the same mistakes are found in them, and the
routine with the return is the other one with its code ended (`Routine.close`).  For a program this
means that the same functions fail, with the same errors, and that all routines are closed
(`Program.lower_closing`).
-/

namespace JumpCode

/-! ### Labels -/

theorem placeLabels_append_retVoid (unique : Bool) (table : List (Label × Nat)) (i : Nat)
    (code : List Instr) :
    placeLabels unique table i (code ++ [.retVoid]) = placeLabels unique table i code := by
  induction code generalizing table i with
  | nil => rfl
  | cons op code ih =>
    cases op with
    | label l => simp only [List.cons_append, placeLabels, ih]
    | _ => exact ih table (i + 1)

theorem danglingJump?_append_retVoid (table : List (Label × Nat)) (i : Nat) (code : List Instr) :
    danglingJump? table i (code ++ [.retVoid]) = danglingJump? table i code := by
  induction code generalizing i with
  | nil => rfl
  | cons op code ih => simp only [List.cons_append, danglingJump?, ih]

/-- A return at the end changes neither the places of labels nor the mistakes that are found. -/
theorem resolveLabels_append_retVoid (verify : Bool) (code : List Instr) :
    resolveLabels verify (code ++ [.retVoid]) = resolveLabels verify code := by
  simp only [resolveLabels, placeLabels_append_retVoid, danglingJump?_append_retVoid]

/-! ### Closed routines -/

namespace Routine

/-- The routine with its code ended by a return. -/
def close (r : Routine) : Routine :=
  if r.code.back?.any Instr.isReturn then r else { r with code := r.code.push .retVoid }

@[simp] theorem name_close (r : Routine) : r.close.name = r.name := by
  unfold close
  split <;> rfl

@[simp] theorem paramCount_close (r : Routine) : r.close.paramCount = r.paramCount := by
  unfold close
  split <;> rfl

@[simp] theorem localCount_close (r : Routine) : r.close.localCount = r.localCount := by
  unfold close
  split <;> rfl

@[simp] theorem regCount_close (r : Routine) : r.close.regCount = r.regCount := by
  unfold close
  split <;> rfl

@[simp] theorem labels_close (r : Routine) : r.close.labels = r.labels := by
  unfold close
  split <;> rfl

/-- Closing a routine appends a return or nothing. -/
theorem code_close (r : Routine) :
    r.close.code = r.code ∨ r.close.code = r.code.push .retVoid := by
  unfold close
  split
  · exact Or.inl rfl
  · exact Or.inr rfl

@[simp] theorem find?_map_close (rs : List Routine) (name : String) :
    find? (rs.map close) name = (find? rs name).map close := by
  simp only [find?, List.find?_map, Function.comp_def, name_close]

end Routine

/-- A builder whose code has been ended gives the closed routine. -/
theorem Builder.finish_close (b : Builder) (name : String) (verify : Bool) :
    b.close.finish name verify = (b.finish name verify).map Routine.close := by
  unfold close
  split
  · next h =>
    unfold finish
    cases resolveLabels verify b.code.toList with
    | error e => rfl
    | ok labels => simp [Except.map, Routine.close, h]
  · next h =>
    unfold finish
    simp only [emit, Array.toList_push, resolveLabels_append_retVoid]
    cases resolveLabels verify b.code.toList with
    | error e => rfl
    | ok labels => simp [Except.map, Routine.close, h, slotCount]

/-! ### Functions and programs -/

/-- Lowering a function with its end closed gives the closed routine, or the same failure. -/
theorem Function.lower_closing {ctx ctx' : Context} (f : Function)
    (hfind : ∀ g, ctx.find? g = ctx'.find? g)
    (hverify : ctx.options.verifyLabels = ctx'.options.verifyLabels)
    (hclosed : ctx.options.implicitReturn = true) (hopen : ctx'.options.implicitReturn = false) :
    f.lower ctx = (f.lower ctx').map Routine.close := by
  have hsame : f.violation? ctx = f.violation? ctx' := Stmt.violation?_congr hfind _ _ f.body
  cases hv : f.violation? ctx' with
  | none =>
    rw [lower_of_violation_none (hsame.trans hv), lower_of_violation_none hv, hclosed, hopen,
      hverify, if_pos rfl, if_neg Bool.false_ne_true, Builder.finish_close]
  | some e =>
    rw [lower_of_violation_some (hsame.trans hv), lower_of_violation_some hv]
    rfl

theorem Context.functions_declare {c c' : Context} (h : c.functions = c'.functions) (name : String)
    (arity : Nat) : (c.declare name arity).functions = (c'.declare name arity).functions := by
  unfold declare find?
  rw [h]
  split <;> rfl

/-- What is declared in a program does not depend on the options. -/
theorem Context.functions_ofProgram (p : Program) (options options' : LowerOptions) :
    (ofProgram p options).functions = (ofProgram p options').functions := by
  have hfold (fs : List Function) (c c' : Context) (h : c.functions = c'.functions) :
      (fs.foldl (fun c f => c.declare f.name f.params.length) c).functions =
        (fs.foldl (fun c f => c.declare f.name f.params.length) c').functions := by
    induction fs generalizing c c' with
    | nil => exact h
    | cons f fs ih => exact ih _ _ (functions_declare h f.name f.params.length)
  exact hfold p.functions _ _ rfl

namespace Program

variable (p : Program) (verify : Bool)

theorem lower_function_closing (f : Function) :
    f.lower (.ofProgram p ⟨verify, true⟩) =
      (f.lower (.ofProgram p ⟨verify, false⟩)).map Routine.close := by
  apply Function.lower_closing
  · intro g
    rw [Context.find?, Context.find?, Context.functions_ofProgram p _ ⟨verify, false⟩]
  · simp only [Context.options_ofProgram]
  · simp only [Context.options_ofProgram]
  · simp only [Context.options_ofProgram]

/-- With implicit returns a program has the same failures, and the routines that it has without them
    closed. -/
theorem lower_closing :
    p.lower ⟨verify, true⟩ =
      ⟨(p.lower ⟨verify, false⟩).routines.map Routine.close, (p.lower ⟨verify, false⟩).errors⟩ := by
  rw [lower_eq, lower_eq, List.map_filterMap]
  congr 1
  · apply List.filterMap_congr
    intro f _
    rw [lower_function_closing]
    cases f.lower (.ofProgram p ⟨verify, false⟩) <;> rfl
  · apply List.filterMap_congr
    intro f _
    rw [Function.failure?, Function.failure?, lower_function_closing]
    cases f.lower (.ofProgram p ⟨verify, false⟩) <;> rfl

end Program

end JumpCode
