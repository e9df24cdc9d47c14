import JumpCode.Proofs.Lowering.Labels
import Mathlib.Data.List.Nodup

/-!
# Declared functions and their routines

Lowering a program declares all of its functions first.  If they have different names, the signature
of a name is that of the one function that has it, and the routine of a name is what this function
was lowered to, if it did not fail.
-/

namespace JumpCode

namespace Context

theorem lookup_setArity (fs : List (String × Signature)) (name other : String) (arity : Nat) :
    (fs.map fun f => if f.1 = name then (f.1, { f.2 with arity }) else f).lookup other =
      (fs.lookup other).map fun sig => if other = name then { sig with arity } else sig := by
  induction fs with
  | nil => rfl
  | cons g fs ih =>
    have hkey : (if g.1 = name then (g.1, { g.2 with arity }) else g).1 = g.1 := by
      split <;> rfl
    rw [List.map_cons, List.lookup_cons, List.lookup_cons, hkey, ih]
    by_cases hg : other = g.1
    · subst hg
      by_cases hname : g.1 = name
      · simp [hname]
      · simp [hname]
    · have hne : (other == g.1) = false := beq_eq_false_iff_ne.mpr hg
      rw [hne]

/-- Declaring a function gives its name the number of its parameters and changes nothing about other
    names. -/
theorem find?_declare (c : Context) (name other : String) (arity : Nat) :
    (c.declare name arity).find? other =
      if other = name then some ⟨((c.find? name).map (·.id)).getD c.functions.length, arity⟩
      else c.find? other := by
  unfold declare
  cases h : c.find? name with
  | none =>
    have h : c.functions.lookup name = none := h
    simp only [find?, List.lookup_append]
    by_cases hne : other = name
    · simp [hne, h]
    · have hbeq : (other == name) = false := beq_eq_false_iff_ne.mpr hne
      simp [hne, hbeq, List.lookup_cons]
  | some sig =>
    have h : c.functions.lookup name = some sig := h
    simp only [find?, lookup_setArity]
    by_cases hne : other = name
    · simp [hne, h]
    · simp [hne]

theorem find?_foldl_declare (fs : List Function) (c : Context) {name : String}
    (h : name ∉ fs.map Function.name) :
    (fs.foldl (fun c f => c.declare f.name f.params.length) c).find? name = c.find? name := by
  induction fs generalizing c with
  | nil => rfl
  | cons f fs ih =>
    rw [List.map_cons, List.mem_cons, not_or] at h
    rw [List.foldl_cons, ih _ h.2, find?_declare, if_neg h.1]

theorem options_declare (c : Context) (name : String) (arity : Nat) :
    (c.declare name arity).options = c.options := by
  unfold declare
  split <;> rfl

variable {p : Program}

/-- A context is made under the options that are asked for. -/
theorem options_ofProgram (p : Program) (options : LowerOptions) :
    (ofProgram p options).options = options := by
  have hfold (fs : List Function) (c : Context) :
      (fs.foldl (fun c f => c.declare f.name f.params.length) c).options = c.options := by
    induction fs generalizing c with
    | nil => rfl
    | cons f fs ih => rw [List.foldl_cons, ih, options_declare]
  exact hfold p.functions (empty options)

/-- The declared functions are those of the program. -/
theorem exists_of_find? {options : LowerOptions} {name : String} {sig : Signature}
    (h : (ofProgram p options).find? name = some sig) : ∃ f ∈ p.functions, f.name = name := by
  have hmem : name ∈ p.functions.map Function.name := by
    by_contra hnot
    rw [ofProgram, find?_foldl_declare _ _ hnot] at h
    cases h
  obtain ⟨f, hf, hname⟩ := List.mem_map.mp hmem
  exact ⟨f, hf, hname⟩

/-- If the functions of a program have different names, each has its own signature. -/
theorem arity_of_mem (hnames : (p.functions.map Function.name).Nodup) (options : LowerOptions)
    {f : Function} (hf : f ∈ p.functions) :
    ∃ id, (ofProgram p options).find? f.name = some ⟨id, f.params.length⟩ := by
  obtain ⟨before, rest, hfs⟩ := List.append_of_mem hf
  rw [hfs, List.map_append, List.map_cons] at hnames
  have hrest : f.name ∉ rest.map Function.name :=
    (List.nodup_cons.mp (List.nodup_append.mp hnames).2.1).1
  rw [ofProgram, hfs, List.foldl_append, List.foldl_cons, find?_foldl_declare _ _ hrest,
    find?_declare, if_pos rfl]
  exact ⟨_, rfl⟩

end Context

namespace Program

variable {p : Program}

/-- If the functions of a program have different names, each is found under its own. -/
theorem find?_of_mem (hnames : (p.functions.map Function.name).Nodup) {f : Function}
    (hf : f ∈ p.functions) : p.find? f.name = some f := by
  cases h : p.find? f.name with
  | none =>
    have hne := List.find?_eq_none.mp h f hf
    simp at hne
  | some g =>
    have hname : g.name = f.name := by simpa using List.find?_some h
    have hg : g ∈ p.functions := List.mem_of_find?_eq_some h
    rw [List.inj_on_of_nodup_map hnames hg hf hname]

end Program

/-! ### Routines -/

namespace Function

variable {ctx : Context} {f : Function} {r : Routine}

theorem name_of_lower (h : f.lower ctx = .ok r) : r.name = f.name :=
  (Builder.finish_eq_ok (finish_of_lower h).2).1

theorem paramCount_of_lower (h : f.lower ctx = .ok r) : r.paramCount = f.params.length := by
  obtain ⟨-, hcount, -⟩ := Builder.finish_eq_ok (finish_of_lower h).2
  rw [hcount, finished_eq]
  rfl

end Function

theorem Routine.find?_filterMap {ctx : Context} {fs : List Function}
    (hnames : (fs.map Function.name).Nodup) (name : String) :
    find? (fs.filterMap fun f => (f.lower ctx).toOption) name =
      (fs.find? (·.name == name)).bind fun f => (f.lower ctx).toOption := by
  induction fs with
  | nil => rfl
  | cons f fs ih =>
    rw [List.map_cons, List.nodup_cons] at hnames
    have hrest := ih hnames.2
    by_cases hf : f.name = name
    · subst hf
      have hnone : fs.find? (·.name == f.name) = none := by
        rw [List.find?_eq_none]
        intro g hg hname
        exact hnames.1 (List.mem_map.mpr ⟨g, hg, by simpa using hname⟩)
      cases hr : f.lower ctx with
      | ok r =>
        have hname := Function.name_of_lower hr
        simp [find?, hr, hname, Except.toOption]
      | error e =>
        rw [hnone] at hrest
        simpa [hr, Except.toOption] using hrest
    · cases hr : f.lower ctx with
      | ok r =>
        have hname : ¬r.name = name := by rwa [Function.name_of_lower hr]
        simpa [find?, hr, hf, hname, Except.toOption] using hrest
      | error e => simpa [find?, hr, hf, Except.toOption] using hrest

namespace Program

variable {p : Program} {options : LowerOptions}

/-- If the functions of a program have different names, the routine of a name is what the function of
    that name was lowered to. -/
theorem find?_routines (hnames : (p.functions.map Function.name).Nodup) (name : String) :
    Routine.find? (p.lower options).routines name =
      (p.find? name).bind fun f => (f.lower (.ofProgram p options)).toOption := by
  rw [lower_eq]
  exact Routine.find?_filterMap hnames name

theorem find?_routines_of_lower (hnames : (p.functions.map Function.name).Nodup) {f : Function}
    (hf : f ∈ p.functions) {r : Routine} (hr : f.lower (.ofProgram p options) = .ok r) :
    Routine.find? (p.lower options).routines f.name = some r := by
  rw [find?_routines hnames, find?_of_mem hnames hf]
  simp [hr, Except.toOption]

/-- Every routine of a program is what some function was lowered to. -/
theorem exists_of_mem_routines {r : Routine} (h : r ∈ (p.lower options).routines) :
    ∃ f ∈ p.functions, f.lower (.ofProgram p options) = .ok r := by
  rw [lower_eq] at h
  obtain ⟨f, hf, hr⟩ := List.mem_filterMap.mp h
  refine ⟨f, hf, ?_⟩
  cases hlower : f.lower (.ofProgram p options) with
  | ok r' =>
    rw [hlower] at hr
    cases hr
    rfl
  | error e =>
    rw [hlower] at hr
    cases hr

/-- The function that a signature was declared for. -/
theorem exists_of_signature (hnames : (p.functions.map Function.name).Nodup) {name : String}
    {sig : Signature} (h : (Context.ofProgram p options).find? name = some sig) :
    ∃ f ∈ p.functions, f.name = name ∧ f.params.length = sig.arity := by
  obtain ⟨f, hf, rfl⟩ := Context.exists_of_find? h
  obtain ⟨id, hid⟩ := Context.arity_of_mem hnames options hf
  rw [hid] at h
  cases h
  exact ⟨f, hf, rfl, rfl⟩

/-- If no function of a program fails, each is lowered to a routine. -/
theorem lower_of_errors (h : (p.lower options).errors = []) {f : Function}
    (hf : f ∈ p.functions) : ∃ r, f.lower (.ofProgram p options) = .ok r := by
  rw [lower_eq] at h
  have hnone : f.failure? (.ofProgram p options) = none := List.filterMap_eq_nil_iff.mp h f hf
  unfold Function.failure? at hnone
  split at hnone
  · next r hr => exact ⟨r, hr⟩
  · cases hnone

end Program

end JumpCode
