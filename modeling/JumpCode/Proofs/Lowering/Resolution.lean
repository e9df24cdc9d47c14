import JumpCode.Proofs.Lowering.Emission

/-!
# Names and calls that are all right

A tree without a violation uses only names that have a slot in the end, and calls only functions
that are declared, with as many arguments as they take.  `Expr.Resolved` and `Stmt.Resolved` say so
without the order in which names get their slots, as the slots of a whole function are all there
when it runs.
-/

namespace JumpCode

namespace Expr

mutual

/-- Every name in an expression is among `ns`, and every call is of a declared function. -/
def Resolved (ctx : Context) (ns : List String) : Expr → Prop
  | .int _ _ | .bool _ _ => True
  | .ident _ x => x ∈ ns
  | .unary _ _ e => e.Resolved ctx ns
  | .binary _ _ l r => l.Resolved ctx ns ∧ r.Resolved ctx ns
  | .assign _ x e => e.Resolved ctx ns ∧ x ∈ ns
  | .call _ f args =>
    (∃ sig, ctx.find? f = some sig ∧ sig.arity = args.length) ∧ ResolvedAll ctx ns args

def ResolvedAll (ctx : Context) (ns : List String) : List Expr → Prop
  | [] => True
  | e :: es => e.Resolved ctx ns ∧ ResolvedAll ctx ns es

end

mutual

theorem resolved_of_violation {ctx : Context} {ns N : List String} {e : Expr}
    (h : e.violation? ctx ns = none) (hN : addNames ns e.targets ⊆ N) : e.Resolved ctx N := by
  cases e with
  | int o v => trivial
  | bool o b => trivial
  | ident o x =>
    rw [violation?] at h
    split at h
    · next hx => exact hN hx
    · cases h
  | unary o op e => exact resolved_of_violation (e := e) h hN
  | binary o op l r =>
    rw [violation?, orElse_eq_none_iff] at h
    rw [targets, addNames_append] at hN
    exact ⟨resolved_of_violation h.1 (subset_of_addNames hN), resolved_of_violation h.2 hN⟩
  | assign o x e =>
    rw [targets, addNames_append] at hN
    exact ⟨resolved_of_violation h (subset_of_addNames hN), hN (mem_addName.mpr (Or.inr rfl))⟩
  | call o f args =>
    rw [violation?] at h
    split at h
    · cases h
    · next sig hsig =>
      split at h
      · next harity => exact ⟨⟨sig, hsig, harity⟩, resolvedAll_of_violation h hN⟩
      · cases h

theorem resolvedAll_of_violation {ctx : Context} {ns N : List String} {es : List Expr}
    (h : violationAll? ctx ns es = none) (hN : addNames ns (targetsAll es) ⊆ N) :
    ResolvedAll ctx N es := by
  cases es with
  | nil => trivial
  | cons e es =>
    rw [violationAll?, orElse_eq_none_iff] at h
    rw [targetsAll, addNames_append] at hN
    exact ⟨resolved_of_violation h.1 (subset_of_addNames hN), resolvedAll_of_violation h.2 hN⟩

end

end Expr

namespace Stmt

mutual

/-- Every name in a statement is among `ns`, and every call is of a declared function. -/
def Resolved (ctx : Context) (ns : List String) : Stmt → Prop
  | .block _ body => ResolvedAll ctx ns body
  | .eval _ e => e.Resolved ctx ns
  | .ret _ none => True
  | .ret _ (some e) => e.Resolved ctx ns
  | .ifThen _ c t => c.Resolved ctx ns ∧ t.Resolved ctx ns
  | .ifElse _ c t e => c.Resolved ctx ns ∧ t.Resolved ctx ns ∧ e.Resolved ctx ns
  | .whileLoop _ c body => c.Resolved ctx ns ∧ body.Resolved ctx ns
  | .breakLoop _ _ => True

def ResolvedAll (ctx : Context) (ns : List String) : List Stmt → Prop
  | [] => True
  | s :: ss => s.Resolved ctx ns ∧ ResolvedAll ctx ns ss

end

mutual

theorem resolved_of_violation {ctx : Context} {ns N : List String} {entered : List StmtId}
    {s : Stmt} (h : s.violation? ctx ns entered = none) (hN : addNames ns s.targets ⊆ N) :
    s.Resolved ctx N := by
  cases s with
  | block m body => exact resolvedAll_of_violation h hN
  | eval m e => exact Expr.resolved_of_violation h hN
  | ret m e =>
    cases e with
    | none => trivial
    | some e => exact Expr.resolved_of_violation h hN
  | ifThen m c t =>
    rw [violation?, orElse_eq_none_iff] at h
    rw [targets, addNames_append] at hN
    exact ⟨Expr.resolved_of_violation h.1 (subset_of_addNames hN), resolved_of_violation h.2 hN⟩
  | ifElse m c t e =>
    rw [violation?, orElse_eq_none_iff, orElse_eq_none_iff, addNames_append] at h
    rw [targets, addNames_append, addNames_append] at hN
    have ht := subset_of_addNames hN
    exact ⟨Expr.resolved_of_violation h.1 (subset_of_addNames ht), resolved_of_violation h.2.1 ht,
      resolved_of_violation h.2.2 hN⟩
  | whileLoop m c body =>
    rw [violation?, orElse_eq_none_iff] at h
    rw [targets, addNames_append] at hN
    exact ⟨Expr.resolved_of_violation h.1 (subset_of_addNames hN), resolved_of_violation h.2 hN⟩
  | breakLoop m link => trivial

theorem resolvedAll_of_violation {ctx : Context} {ns N : List String} {entered : List StmtId}
    {ss : List Stmt} (h : violationAll? ctx ns entered ss = none)
    (hN : addNames ns (targetsAll ss) ⊆ N) : ResolvedAll ctx N ss := by
  cases ss with
  | nil => trivial
  | cons s ss =>
    rw [violationAll?, orElse_eq_none_iff] at h
    rw [targetsAll, addNames_append] at hN
    exact ⟨resolved_of_violation h.1 (subset_of_addNames hN), resolvedAll_of_violation h.2 hN⟩

end

end Stmt

/-- In a function without a violation every name has a slot. -/
theorem Function.resolved_of_violation {ctx : Context} {f : Function}
    (h : f.violation? ctx = none) : f.body.Resolved ctx f.slotNames := by
  refine Stmt.resolved_of_violation h ?_
  rw [Function.slotNames, addNames_append]
  exact List.Subset.refl _

end JumpCode
