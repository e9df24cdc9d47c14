import JumpCode.Proofs.Lowering.Labels
import JumpCode.Proofs.Lowering.Mistakes

/-!
# Nothing is dropped and nothing is doubled

How long the code of a function is, and how many registers, labels and slots it uses, can be counted
on the tree.  Every expression in it takes one instruction, and a register unless it assigns.  Every
statement takes a fixed number of instructions and labels for itself.  Code that cannot be reached
counts like any other.

The expressions of a tree are listed in the order of their instructions (`Expr.nodes`,
`Stmt.exprNodes`), so that the names assigned to come in the order in which they get their slots.
-/

namespace JumpCode

/-! ### Expressions -/

namespace Expr

mutual

/-- All expressions in an expression, each after those inside it, and last the expression itself. -/
def nodes : Expr → List Expr
  | e@(.int _ _) | e@(.bool _ _) | e@(.ident _ _) => [e]
  | e@(.unary _ _ x) => x.nodes ++ [e]
  | e@(.binary _ _ l r) => l.nodes ++ (r.nodes ++ [e])
  | e@(.assign _ _ x) => x.nodes ++ [e]
  | e@(.call _ _ args) => nodesAll args ++ [e]

def nodesAll : List Expr → List Expr
  | [] => []
  | e :: es => e.nodes ++ nodesAll es

end

/-- The name that is assigned to, if the expression is an assignment. -/
def target? : Expr → Option String
  | .assign _ x _ => some x
  | _ => none

/-- Whether the expression takes a register for its value: an assignment does not. -/
def takesReg (e : Expr) : Bool := e.target?.isNone

mutual

/-- An expression takes an instruction for every expression in it. -/
theorem size_eq_length_nodes (e : Expr) : e.size = e.nodes.length := by
  cases e with
  | int o v => rfl
  | bool o b => rfl
  | ident o x => rfl
  | unary o op e => simp [size, nodes, size_eq_length_nodes e]
  | binary o op l r =>
    simp [size, nodes, size_eq_length_nodes l, size_eq_length_nodes r, Nat.add_assoc]
  | assign o x e => simp [size, nodes, size_eq_length_nodes e]
  | call o f args => simp [size, nodes, sizeAll_eq_length_nodes args]

theorem sizeAll_eq_length_nodes (es : List Expr) : sizeAll es = (nodesAll es).length := by
  cases es with
  | nil => rfl
  | cons e es =>
    simp [sizeAll, nodesAll, size_eq_length_nodes e, sizeAll_eq_length_nodes es]

end

mutual

/-- An expression takes a register for every expression in it that is not an assignment. -/
theorem regCount_eq_countP_nodes (e : Expr) : e.regCount = e.nodes.countP takesReg := by
  cases e with
  | int o v => rfl
  | bool o b => rfl
  | ident o x => rfl
  | unary o op e => simp [regCount, nodes, takesReg, target?, regCount_eq_countP_nodes e]
  | binary o op l r =>
    simp [regCount, nodes, takesReg, target?, regCount_eq_countP_nodes l,
      regCount_eq_countP_nodes r, Nat.add_assoc]
  | assign o x e => simp [regCount, nodes, takesReg, target?, regCount_eq_countP_nodes e]
  | call o f args => simp [regCount, nodes, takesReg, target?, regCountAll_eq_countP_nodes args]

theorem regCountAll_eq_countP_nodes (es : List Expr) :
    regCountAll es = (nodesAll es).countP takesReg := by
  cases es with
  | nil => rfl
  | cons e es =>
    simp [regCountAll, nodesAll, regCount_eq_countP_nodes e, regCountAll_eq_countP_nodes es]

end

mutual

/-- The names that an expression assigns to are those of the assignments in it. -/
theorem targets_eq_filterMap_nodes (e : Expr) : e.targets = e.nodes.filterMap target? := by
  cases e with
  | int o v => rfl
  | bool o b => rfl
  | ident o x => rfl
  | unary o op e => simp [targets, nodes, target?, targets_eq_filterMap_nodes e]
  | binary o op l r =>
    simp [targets, nodes, target?, targets_eq_filterMap_nodes l, targets_eq_filterMap_nodes r]
  | assign o x e => simp [targets, nodes, target?, targets_eq_filterMap_nodes e]
  | call o f args => simp [targets, nodes, target?, targetsAll_eq_filterMap_nodes args]

theorem targetsAll_eq_filterMap_nodes (es : List Expr) :
    targetsAll es = (nodesAll es).filterMap target? := by
  cases es with
  | nil => rfl
  | cons e es =>
    simp [targetsAll, nodesAll, targets_eq_filterMap_nodes e, targetsAll_eq_filterMap_nodes es]

end

end Expr

/-! ### Statements -/

namespace Stmt

mutual

/-- A statement and all statements inside it, each before those inside it. -/
def nodes : Stmt → List Stmt
  | s@(.block _ body) => s :: nodesAll body
  | s@(.eval _ _) | s@(.ret _ _) | s@(.breakLoop _ _) => [s]
  | s@(.ifThen _ _ t) => s :: t.nodes
  | s@(.ifElse _ _ t e) => s :: (t.nodes ++ e.nodes)
  | s@(.whileLoop _ _ body) => s :: body.nodes

def nodesAll : List Stmt → List Stmt
  | [] => []
  | s :: ss => s.nodes ++ nodesAll ss

end

mutual

/-- All expressions in a statement and in the statements inside it. -/
def exprNodes : Stmt → List Expr
  | .block _ body => exprNodesAll body
  | .eval _ e => e.nodes
  | .ret _ none => []
  | .ret _ (some e) => e.nodes
  | .ifThen _ c t => c.nodes ++ t.exprNodes
  | .ifElse _ c t e => c.nodes ++ (t.exprNodes ++ e.exprNodes)
  | .whileLoop _ c body => c.nodes ++ body.exprNodes
  | .breakLoop _ _ => []

def exprNodesAll : List Stmt → List Expr
  | [] => []
  | s :: ss => s.exprNodes ++ exprNodesAll ss

end

/-- How many instructions a statement takes beside those of its expression and of the statements
    inside it. -/
def ownSize : Stmt → Nat
  | .block _ _ | .eval _ _ => 0
  | .ret _ _ | .breakLoop _ _ => 1
  | .ifThen _ _ _ => 2
  | .ifElse _ _ _ _ | .whileLoop _ _ _ => 4

/-- How many labels a statement takes beside those of the statements inside it. -/
def ownLabels : Stmt → Nat
  | .block _ _ | .eval _ _ | .ret _ _ | .breakLoop _ _ => 0
  | .ifThen _ _ _ => 1
  | .ifElse _ _ _ _ | .whileLoop _ _ _ => 2

mutual

/-- A statement takes an instruction for every expression in it, and each statement in it takes its
    own. -/
theorem size_eq_census (s : Stmt) :
    s.size = s.exprNodes.length + (s.nodes.map ownSize).sum := by
  cases s with
  | block m body =>
    rw [size, sizeAll_eq_census body, nodes, List.map_cons, List.sum_cons, ownSize, Nat.zero_add]
    rfl
  | eval m e => exact e.size_eq_length_nodes
  | ret m e =>
    cases e with
    | none => rfl
    | some e => exact congrArg (· + 1) e.size_eq_length_nodes
  | ifThen m c t =>
    rw [size, c.size_eq_length_nodes, size_eq_census t, exprNodes, nodes, List.length_append,
      List.map_cons, List.sum_cons, ownSize]
    omega
  | ifElse m c t e =>
    rw [size, c.size_eq_length_nodes, size_eq_census t, size_eq_census e, exprNodes, nodes,
      List.length_append, List.length_append, List.map_cons, List.sum_cons, List.map_append,
      List.sum_append, ownSize]
    omega
  | whileLoop m c body =>
    rw [size, c.size_eq_length_nodes, size_eq_census body, exprNodes, nodes, List.length_append,
      List.map_cons, List.sum_cons, ownSize]
    omega
  | breakLoop m link => rfl

theorem sizeAll_eq_census (ss : List Stmt) :
    sizeAll ss = (exprNodesAll ss).length + ((nodesAll ss).map ownSize).sum := by
  cases ss with
  | nil => rfl
  | cons s ss =>
    rw [sizeAll, size_eq_census s, sizeAll_eq_census ss, exprNodesAll, nodesAll,
      List.length_append, List.map_append, List.sum_append]
    omega

end

mutual

theorem labelCount_eq_census (s : Stmt) : s.labelCount = (s.nodes.map ownLabels).sum := by
  cases s with
  | block m body =>
    rw [labelCount, labelCountAll_eq_census body, nodes, List.map_cons, List.sum_cons, ownLabels,
      Nat.zero_add]
  | eval m e => rfl
  | ret m e => rfl
  | ifThen m c t =>
    rw [labelCount, labelCount_eq_census t, nodes, List.map_cons, List.sum_cons, ownLabels,
      Nat.add_comm]
  | ifElse m c t e =>
    rw [labelCount, labelCount_eq_census t, labelCount_eq_census e, nodes, List.map_cons,
      List.sum_cons, List.map_append, List.sum_append, ownLabels, Nat.add_comm]
  | whileLoop m c body =>
    rw [labelCount, labelCount_eq_census body, nodes, List.map_cons, List.sum_cons, ownLabels,
      Nat.add_comm]
  | breakLoop m link => rfl

theorem labelCountAll_eq_census (ss : List Stmt) :
    labelCountAll ss = ((nodesAll ss).map ownLabels).sum := by
  cases ss with
  | nil => rfl
  | cons s ss =>
    rw [labelCountAll, labelCount_eq_census s, labelCountAll_eq_census ss, nodesAll,
      List.map_append, List.sum_append]

end

mutual

/-- The names that a statement assigns to are those of the assignments in it. -/
theorem targets_eq_census (s : Stmt) : s.targets = s.exprNodes.filterMap Expr.target? := by
  cases s with
  | block m body => exact targetsAll_eq_census body
  | eval m e => exact e.targets_eq_filterMap_nodes
  | ret m e =>
    cases e with
    | none => rfl
    | some e => exact e.targets_eq_filterMap_nodes
  | ifThen m c t =>
    rw [targets, c.targets_eq_filterMap_nodes, targets_eq_census t, exprNodes,
      List.filterMap_append]
  | ifElse m c t e =>
    rw [targets, c.targets_eq_filterMap_nodes, targets_eq_census t, targets_eq_census e, exprNodes,
      List.filterMap_append, List.filterMap_append]
  | whileLoop m c body =>
    rw [targets, c.targets_eq_filterMap_nodes, targets_eq_census body, exprNodes,
      List.filterMap_append]
  | breakLoop m link => rfl

theorem targetsAll_eq_census (ss : List Stmt) :
    targetsAll ss = (exprNodesAll ss).filterMap Expr.target? := by
  cases ss with
  | nil => rfl
  | cons s ss =>
    rw [targetsAll, targets_eq_census s, targetsAll_eq_census ss, exprNodesAll,
      List.filterMap_append]

end

mutual

/-- A walk through a statement takes a register for every expression in it that is not an
    assignment. -/
theorem reg_after (p : Point) (s : Stmt) :
    (s.after p).reg = p.reg + s.exprNodes.countP Expr.takesReg := by
  cases s with
  | block m body => exact reg_afterAll p body
  | eval m e => exact congrArg (p.reg + ·) e.regCount_eq_countP_nodes
  | ret m e =>
    cases e with
    | none => rfl
    | some e => exact congrArg (p.reg + ·) e.regCount_eq_countP_nodes
  | ifThen m c t =>
    rw [after, reg_after _ t, exprNodes, List.countP_append, ← c.regCount_eq_countP_nodes,
      ← Nat.add_assoc]
    rfl
  | ifElse m c t e =>
    have ht := reg_after ((p.useRegs c.regCount).useLabels 1) t
    rw [after, reg_after _ e, exprNodes, List.countP_append, List.countP_append,
      ← c.regCount_eq_countP_nodes, ← Nat.add_assoc, ← Nat.add_assoc]
    exact congrArg (· + e.exprNodes.countP Expr.takesReg) ht
  | whileLoop m c body =>
    rw [after, reg_after _ body, exprNodes, List.countP_append, ← c.regCount_eq_countP_nodes,
      ← Nat.add_assoc]
    rfl
  | breakLoop m link => rfl

theorem reg_afterAll (p : Point) (ss : List Stmt) :
    (afterAll p ss).reg = p.reg + (exprNodesAll ss).countP Expr.takesReg := by
  cases ss with
  | nil => rfl
  | cons s ss =>
    rw [afterAll, reg_afterAll _ ss, reg_after p s, exprNodesAll, List.countP_append, Nat.add_assoc]

end

end Stmt

/-! ### Names and labels -/

theorem nodup_addName {ns : List String} (h : ns.Nodup) (x : String) : (addName ns x).Nodup := by
  unfold addName
  split
  · exact h
  · next hx =>
    rw [← List.concat_eq_append]
    exact h.concat hx

theorem nodup_addNames {ns : List String} (h : ns.Nodup) (xs : List String) :
    (addNames ns xs).Nodup := by
  induction xs generalizing ns with
  | nil => exact h
  | cons x xs ih => exact ih (nodup_addName h x)

/-- There are as many slots as different names. -/
theorem length_addNames_nil (xs : List String) : (addNames [] xs).length = xs.toFinset.card := by
  rw [← List.toFinset_card_of_nodup (nodup_addNames List.nodup_nil xs)]
  congr 1
  ext x
  simp [mem_addNames]

namespace Function

variable {ctx : Context} {f : Function} {r : Routine}

/-- Each label that a function takes has a place, and no other has one. -/
theorem labelCount_of_lower (h : f.lower ctx = .ok r) (hn : f.body.labelCount ≤ UInt32.size) :
    r.labelCount = f.body.labelCount := by
  obtain ⟨hv, hfinish⟩ := finish_of_lower h
  have hstands (l : Label) :
      (labelPlaces (f.finished ctx.options.implicitReturn).code.toList l).Nonempty ↔
        l ∈ labelsFrom 0 f.body.labelCount := by
    have hbody : Instr.label l ∈ f.bodyCode ↔ l.number.toNat < f.body.labelCount := by
      rw [← List.count_pos_iff, count_label_bodyCode hn]
      split <;> simp [*]
    rw [Set.nonempty_iff_ne_empty, ne_eq, labelPlaces_eq_empty_iff, not_not,
      mem_labelsFrom_zero hn, ← hbody]
    rcases f.code_finished ctx.options.implicitReturn with hcode | hcode
    · rw [hcode]
    · simp [hcode]
  have hset : {l : Label | (labelPlaces (f.finished ctx.options.implicitReturn).code.toList l).Nonempty} =
      ((labelsFrom 0 f.body.labelCount).toFinset : Set Label) := by
    ext l
    simp [hstands]
  rw [(Builder.finishesAs_of_finish hfinish).labelCount, hset, Set.ncard_coe_finset,
    List.toFinset_card_of_nodup (nodup_labelsFrom_zero hn)]
  simp [labelsFrom]

/-- Ending code makes it longer by one instruction if it did not end in a return. -/
theorem size_finished (implicitReturn : Bool) (f : Function) :
    (f.finished implicitReturn).code.size = f.body.size +
      if implicitReturn && !f.built.code.back?.any Instr.isReturn then 1 else 0 := by
  have hbuilt : f.built.code.size = f.body.size := by simp [built, bodyCode]
  unfold finished Builder.close
  cases implicitReturn with
  | false => simp [hbuilt]
  | true =>
    by_cases hlast : f.built.code.back?.any Instr.isReturn = true
    · simp [hlast, hbuilt]
    · simp [hlast, hbuilt, Builder.emit]

end Function

/-- **Nothing is dropped and nothing is doubled.**  The routine of a function has one instruction for
    every expression in it, those that each of its statements takes for itself, and one more if a
    return was called for and the body did not end in one.  It uses a register for every expression
    that is not an assignment, and a slot for every name among the parameters and the names assigned
    to.  If there are enough labels, it has those that each statement takes for itself. -/
theorem nothing_is_dropped (ctx : Context) (f : Function) (r : Routine)
    (h : f.lower ctx = .ok r) :
    ∃ w, f.walk ctx = .ok () w ∧
      r.code.size = f.body.exprNodes.length + (f.body.nodes.map Stmt.ownSize).sum +
        (if ctx.options.implicitReturn && !w.builder.code.back?.any Instr.isReturn then 1 else 0) ∧
      r.regCount = f.body.exprNodes.countP Expr.takesReg ∧
      ((f.body.nodes.map Stmt.ownLabels).sum ≤ UInt32.size →
        r.labelCount = (f.body.nodes.map Stmt.ownLabels).sum) ∧
      r.localCount = (f.params ++ f.body.exprNodes.filterMap Expr.target?).toFinset.card ∧
      r.paramCount = f.params.length := by
  obtain ⟨hv, hfinish⟩ := Function.finish_of_lower h
  obtain ⟨w, hw, hbuilt, -⟩ := Function.walk_of_violation_none hv none
  obtain ⟨-, hparams, hlocals, hregs, hcode, -⟩ := Builder.finish_eq_ok hfinish
  refine ⟨w, hw, ?_, ?_, fun hn => ?_, ?_, ?_⟩
  · rw [hcode, Function.size_finished, Stmt.size_eq_census, hbuilt]
  · rw [hregs, Function.finished_eq]
    exact (Stmt.reg_after .start f.body).trans (Nat.zero_add _)
  · rw [← Stmt.labelCount_eq_census] at hn ⊢
    exact Function.labelCount_of_lower h hn
  · rw [hlocals, Function.finished_eq, ← Stmt.targets_eq_census]
    exact length_addNames_nil _
  · rw [hparams, Function.finished_eq]
    rfl

/-- A function that assigns in a condition, and again to a parameter where nothing is reached. -/
def deadEnds : Function where
  name := "f"
  params := ["a", "b"]
  body := .block ⟨⟨8⟩, .unknown⟩
    [.whileLoop ⟨⟨5⟩, .unknown⟩ (.assign .unknown "c" (.ident .unknown "a"))
        (.block ⟨⟨4⟩, .unknown⟩
          [.breakLoop ⟨⟨1⟩, .unknown⟩ (some ⟨5⟩),
            .ifThen ⟨⟨3⟩, .unknown⟩ (.ident .unknown "c")
              (.eval ⟨⟨2⟩, .unknown⟩ (.assign .unknown "c" (.int .unknown 1)))]),
      .ret ⟨⟨6⟩, .unknown⟩ (some (.ident .unknown "c")),
      .eval ⟨⟨7⟩, .unknown⟩ (.assign .unknown "a" (.ident .unknown "b"))]
  origin := .unknown

theorem nothing_is_dropped_deadEnds :
    ∃ r, deadEnds.lower (.empty {}) = .ok r ∧ r.code.size = 17 ∧ r.regCount = 5 ∧
      r.labelCount = 3 ∧ r.localCount = 3 ∧ r.paramCount = 2 := by
  have hv : deadEnds.violation? (.empty {}) = none := rfl
  obtain ⟨r, hr, -⟩ := Function.lower_verifying hv (by decide)
  obtain ⟨w, hw, hsize, hregs, hlabels, hlocals, hparams⟩ := nothing_is_dropped _ _ r hr
  refine ⟨r, hr, ?_, hregs, hlabels (by decide), ?_, hparams⟩
  · rw [hsize, Function.built_of_walk hw]
    rfl
  · rw [hlocals]
    decide

end JumpCode
