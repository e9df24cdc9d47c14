import JumpCode.Lowering.Program

/-!
# The shape of lowered code

What lowering appends to a builder can be said without a builder.  The registers, labels and slots
that a tree uses are determined by how many of each have been handed out before, so this module
gives the code of an expression and of a statement as a function of these numbers: `Expr.code` and
`Stmt.code`.  Beside them stand the numbers themselves (`regCount`, `labelCount`, `size`) and the
first thing wrong with a tree in the order of the walk (`violation?`).

That the walk appends exactly this code, and fails exactly with this error, is proved in
`JumpCode.Proofs.Lowering.Emission`.
-/

namespace JumpCode

/-! ### Names and their slots -/

/-- The names with a slot once `x` has one. -/
def addName (ns : List String) (x : String) : List String := if x ∈ ns then ns else ns ++ [x]

/-- The names with a slot once each of `xs` has one. -/
def addNames (ns xs : List String) : List String := xs.foldl addName ns

@[simp] theorem addNames_nil (ns : List String) : addNames ns [] = ns := rfl

@[simp] theorem addNames_cons (ns : List String) (x : String) (xs : List String) :
    addNames ns (x :: xs) = addNames (addName ns x) xs := rfl

theorem addNames_append (ns xs ys : List String) :
    addNames ns (xs ++ ys) = addNames (addNames ns xs) ys := by
  simp [addNames]

theorem mem_addName {ns : List String} {x y : String} : y ∈ addName ns x ↔ y ∈ ns ∨ y = x := by
  unfold addName
  split
  · next h =>
    constructor
    · exact Or.inl
    · rintro (hy | rfl)
      · exact hy
      · exact h
  · simp

theorem prefix_addName (ns : List String) (x : String) : ns <+: addName ns x := by
  unfold addName
  split
  · exact List.prefix_rfl
  · exact List.prefix_append ns [x]

/-- Names only ever gain slots, and those that have one keep it. -/
theorem prefix_addNames (ns xs : List String) : ns <+: addNames ns xs := by
  induction xs generalizing ns with
  | nil => exact List.prefix_rfl
  | cons x xs ih => exact (prefix_addName ns x).trans (ih (addName ns x))

theorem mem_addNames {ns xs : List String} {y : String} : y ∈ addNames ns xs ↔ y ∈ ns ∨ y ∈ xs := by
  induction xs generalizing ns with
  | nil => simp
  | cons x xs ih => rw [addNames_cons, ih, mem_addName, List.mem_cons, or_assoc]

theorem mem_addNames_of_mem {ns xs : List String} {y : String} (h : y ∈ ns) : y ∈ addNames ns xs :=
  (prefix_addNames ns xs).subset h

theorem subset_of_addNames {ns xs N : List String} (h : addNames ns xs ⊆ N) : ns ⊆ N :=
  fun _ hy => h (mem_addNames_of_mem hy)

/-- Names that are all new get the next slots in order. -/
theorem addNames_of_nodup {ns xs : List String} (h : (ns ++ xs).Nodup) :
    addNames ns xs = ns ++ xs := by
  induction xs generalizing ns with
  | nil => simp
  | cons x xs ih =>
    have hx : x ∉ ns := by
      intro hmem
      exact (List.nodup_append.mp h).2.2 x hmem x (by simp) rfl
    rw [addNames_cons, addName, if_neg hx, ih (by simpa using h)]
    simp

/-- A longer list of names does not move the slot of a name. -/
theorem idxOf_stable {ns N : List String} {x : String} (h : ns <+: N) (hx : x ∈ ns) :
    N.idxOf x = ns.idxOf x := by
  obtain ⟨more, rfl⟩ := h
  rw [List.idxOf_append, if_pos hx]

/-! ### Expressions -/

namespace Expr

mutual

/-- The names that an expression assigns to, in the order in which it does. -/
def targets : Expr → List String
  | .int _ _ | .bool _ _ | .ident _ _ => []
  | .unary _ _ e => e.targets
  | .binary _ _ l r => l.targets ++ r.targets
  | .assign _ x e => e.targets ++ [x]
  | .call _ _ args => targetsAll args

def targetsAll : List Expr → List String
  | [] => []
  | e :: es => e.targets ++ targetsAll es

end

mutual

/-- How many registers an expression uses: one for each node that is not an assignment. -/
def regCount : Expr → Nat
  | .int _ _ | .bool _ _ | .ident _ _ => 1
  | .unary _ _ e => e.regCount + 1
  | .binary _ _ l r => l.regCount + r.regCount + 1
  | .assign _ _ e => e.regCount
  | .call _ _ args => regCountAll args + 1

def regCountAll : List Expr → Nat
  | [] => 0
  | e :: es => e.regCount + regCountAll es

end

mutual

/-- How many instructions an expression takes: one for each node. -/
def size : Expr → Nat
  | .int _ _ | .bool _ _ | .ident _ _ => 1
  | .unary _ _ e => e.size + 1
  | .binary _ _ l r => l.size + r.size + 1
  | .assign _ _ e => e.size + 1
  | .call _ _ args => sizeAll args + 1

def sizeAll : List Expr → Nat
  | [] => 0
  | e :: es => e.size + sizeAll es

end

/-- The register that holds the value of an expression, when `n` is the first that it may use. -/
def result (n : Reg) : Expr → Reg
  | .int _ _ | .bool _ _ | .ident _ _ => n
  | .unary _ _ e => n + e.regCount
  | .binary _ _ l r => n + l.regCount + r.regCount
  | .assign _ _ e => e.result n
  | .call _ _ args => n + regCountAll args

/-- The registers that hold the values of some expressions. -/
def results (n : Reg) : List Expr → List Reg
  | [] => []
  | e :: es => e.result n :: results (n + e.regCount) es

mutual

/-- The code of an expression, when `slot` gives the slots of names and `n` is the first register
    that it may use. -/
def code (slot : String → Slot) (n : Reg) : Expr → List Instr
  | .int _ v => [.const n (.int v)]
  | .bool _ b => [.const n (.bool b)]
  | .ident _ x => [.load n (slot x)]
  | .unary _ op e => e.code slot n ++ [.unary op (n + e.regCount) (e.result n)]
  | .binary _ op l r =>
    l.code slot n ++ (r.code slot (n + l.regCount) ++
      [.binary op (n + l.regCount + r.regCount) (l.result n) (r.result (n + l.regCount))])
  | .assign _ x e => e.code slot n ++ [.store (e.result n) (slot x)]
  | .call _ f args => codeAll slot n args ++ [.call (n + regCountAll args) f (results n args)]

def codeAll (slot : String → Slot) (n : Reg) : List Expr → List Instr
  | [] => []
  | e :: es => e.code slot n ++ codeAll slot (n + e.regCount) es

end

mutual

/-- The first thing wrong with an expression, when the names `ns` have a slot. -/
def violation? (ctx : Context) (ns : List String) : Expr → Option LowerError
  | .int _ _ | .bool _ _ => none
  | .ident o x => if x ∈ ns then none else some (.ofKind (.unknownIdentifier x) o)
  | .unary _ _ e => e.violation? ctx ns
  | .binary _ _ l r => l.violation? ctx ns <|> r.violation? ctx (addNames ns l.targets)
  | .assign _ _ e => e.violation? ctx ns
  | .call o f args =>
    match ctx.find? f with
    | none => some (.ofKind (.unknownFunction f) o)
    | some sig =>
      if sig.arity = args.length then violationAll? ctx ns args
      else some (.ofKind (.arityMismatch f sig.arity args.length) o)

def violationAll? (ctx : Context) (ns : List String) : List Expr → Option LowerError
  | [] => none
  | e :: es => e.violation? ctx ns <|> violationAll? ctx (addNames ns e.targets) es

end

mutual

@[simp] theorem length_code (slot : String → Slot) (n : Reg) (e : Expr) :
    (e.code slot n).length = e.size := by
  cases e with
  | int o v => rfl
  | bool o b => rfl
  | ident o x => rfl
  | unary o op e => simp [code, size, length_code slot n e]
  | binary o op l r =>
    simp [code, size, length_code slot n l, length_code slot (n + l.regCount) r, Nat.add_assoc]
  | assign o x e => simp [code, size, length_code slot n e]
  | call o f args => simp [code, size, length_codeAll slot n args]

@[simp] theorem length_codeAll (slot : String → Slot) (n : Reg) (es : List Expr) :
    (codeAll slot n es).length = sizeAll es := by
  cases es with
  | nil => rfl
  | cons e es =>
    simp [codeAll, sizeAll, length_code slot n e, length_codeAll slot (n + e.regCount) es]

end

/-- The result of an expression stands in one of its own registers. -/
theorem result_lt (n : Nat) (e : Expr) : e.result n < n + e.regCount := by
  cases e with
  | int o v => exact Nat.lt_succ_self n
  | bool o b => exact Nat.lt_succ_self n
  | ident o x => exact Nat.lt_succ_self n
  | unary o op e => exact Nat.lt_succ_self _
  | binary o op l r =>
    show (n + l.regCount + r.regCount : Nat) < n + (l.regCount + r.regCount + 1)
    omega
  | assign o x e => exact e.result_lt n
  | call o f args => exact Nat.lt_succ_self _

theorem length_results (n : Nat) (es : List Expr) : (results n es).length = es.length := by
  induction es generalizing n with
  | nil => rfl
  | cons e es ih => simp [results, ih]

end Expr

namespace Expr

variable {ctx ctx' : Context}

mutual

/-- What is wrong with an expression depends on the signatures of functions and on nothing else in
    the context. -/
theorem violation?_congr (h : ∀ f, ctx.find? f = ctx'.find? f) (ns : List String) (e : Expr) :
    e.violation? ctx ns = e.violation? ctx' ns := by
  cases e with
  | int o v => rfl
  | bool o b => rfl
  | ident o x => rfl
  | unary o op e => exact violation?_congr h ns e
  | binary o op l r =>
    simp only [violation?]
    rw [violation?_congr h ns l, violation?_congr h _ r]
  | assign o x e => exact violation?_congr h ns e
  | call o f args =>
    simp only [violation?]
    rw [h f, violationAll?_congr h ns args]

theorem violationAll?_congr (h : ∀ f, ctx.find? f = ctx'.find? f) (ns : List String)
    (es : List Expr) :
    violationAll? ctx ns es = violationAll? ctx' ns es := by
  cases es with
  | nil => rfl
  | cons e es =>
    simp only [violationAll?]
    rw [violation?_congr h ns e, violationAll?_congr h _ es]

end

end Expr

/-- Nothing is wrong with two parts together exactly if nothing is wrong with either. -/
theorem orElse_eq_none_iff {a b : Option LowerError} : (a <|> b) = none ↔ a = none ∧ b = none := by
  cases a <;> simp

/-! ### Statements -/

/-- The label with the number `n`, which counts labels as they are handed out. -/
def Label.ofNat (n : Nat) : Label := ⟨UInt32.ofNat n⟩

/-- How far a walk has got: how many registers and labels have been handed out, and the label after
    each loop that has been entered, the last entered first. -/
structure Point where
  reg : Reg
  label : Nat
  exits : List (StmtId × Label)

namespace Point

/-- Nothing has been handed out. -/
def start : Point := ⟨0, 0, []⟩

/-- After `k` more registers. -/
def useRegs (p : Point) (k : Nat) : Point := { p with reg := p.reg + k }

/-- After `k` more labels. -/
def useLabels (p : Point) (k : Nat) : Point := { p with label := p.label + k }

/-- Inside a loop that has just been entered with two labels of its own. -/
def enter (p : Point) (loop : StmtId) : Point :=
  { p with label := p.label + 2, exits := (loop, .ofNat (p.label + 1)) :: p.exits }

/-- The label that a break with the given link jumps to. -/
def exit? (p : Point) (link : Option StmtId) : Option Label := link.bind fun i => p.exits.lookup i

@[simp] theorem useRegs_label (p : Point) (k : Nat) : (p.useRegs k).label = p.label := rfl
@[simp] theorem useRegs_exits (p : Point) (k : Nat) : (p.useRegs k).exits = p.exits := rfl
@[simp] theorem useLabels_label (p : Point) (k : Nat) : (p.useLabels k).label = p.label + k := rfl
@[simp] theorem useLabels_exits (p : Point) (k : Nat) : (p.useLabels k).exits = p.exits := rfl
@[simp] theorem enter_label (p : Point) (i : StmtId) : (p.enter i).label = p.label + 2 := rfl
@[simp] theorem enter_exits (p : Point) (i : StmtId) :
    (p.enter i).exits = (i, .ofNat (p.label + 1)) :: p.exits := rfl

end Point

namespace Stmt

mutual

/-- The names that a statement assigns to, in the order of its code. -/
def targets : Stmt → List String
  | .block _ body => targetsAll body
  | .eval _ e => e.targets
  | .ret _ none => []
  | .ret _ (some e) => e.targets
  | .ifThen _ c t => c.targets ++ t.targets
  | .ifElse _ c t e => c.targets ++ (t.targets ++ e.targets)
  | .whileLoop _ c body => c.targets ++ body.targets
  | .breakLoop _ _ => []

def targetsAll : List Stmt → List String
  | [] => []
  | s :: ss => s.targets ++ targetsAll ss

end

mutual

/-- How many labels a statement takes: one for a conditional, two if it has an else, and two for a
    loop. -/
def labelCount : Stmt → Nat
  | .block _ body => labelCountAll body
  | .eval _ _ | .ret _ _ | .breakLoop _ _ => 0
  | .ifThen _ _ t => t.labelCount + 1
  | .ifElse _ _ t e => t.labelCount + e.labelCount + 2
  | .whileLoop _ _ body => body.labelCount + 2

def labelCountAll : List Stmt → Nat
  | [] => 0
  | s :: ss => s.labelCount + labelCountAll ss

end

mutual

/-- How many instructions a statement takes. -/
def size : Stmt → Nat
  | .block _ body => sizeAll body
  | .eval _ e => e.size
  | .ret _ none => 1
  | .ret _ (some e) => e.size + 1
  | .ifThen _ c t => c.size + t.size + 2
  | .ifElse _ c t e => c.size + t.size + e.size + 4
  | .whileLoop _ c body => c.size + body.size + 4
  | .breakLoop _ _ => 1

def sizeAll : List Stmt → Nat
  | [] => 0
  | s :: ss => s.size + sizeAll ss

end

mutual

/-- The numbers of the loops of a statement, in the order in which they are entered. -/
def loops : Stmt → List StmtId
  | .block _ body => loopsAll body
  | .eval _ _ | .ret _ _ | .breakLoop _ _ => []
  | .ifThen _ _ t => t.loops
  | .ifElse _ _ t e => t.loops ++ e.loops
  | .whileLoop m _ body => m.id :: body.loops

def loopsAll : List Stmt → List StmtId
  | [] => []
  | s :: ss => s.loops ++ loopsAll ss

end

mutual

/-- How far a walk has got after a statement. -/
def after (p : Point) : Stmt → Point
  | .block _ body => afterAll p body
  | .eval _ e => p.useRegs e.regCount
  | .ret _ none => p
  | .ret _ (some e) => p.useRegs e.regCount
  | .ifThen _ c t => t.after ((p.useRegs c.regCount).useLabels 1)
  | .ifElse _ c t e =>
    e.after ((t.after ((p.useRegs c.regCount).useLabels 1)).useLabels 1)
  | .whileLoop m c body => body.after ((p.enter m.id).useRegs c.regCount)
  | .breakLoop _ _ => p

def afterAll (p : Point) : List Stmt → Point
  | [] => p
  | s :: ss => afterAll (s.after p) ss

end

mutual

/-- The code of a statement, when `slot` gives the slots of names and the walk has got to `p`. -/
def code (slot : String → Slot) (p : Point) : Stmt → List Instr
  | .block _ body => codeAll slot p body
  | .eval _ e => e.code slot p.reg
  | .ret _ none => [.retVoid]
  | .ret _ (some e) => e.code slot p.reg ++ [.ret (e.result p.reg)]
  | .ifThen _ c t =>
    c.code slot p.reg ++ (.branchFalse (c.result p.reg) (.ofNat p.label) ::
      (t.code slot ((p.useRegs c.regCount).useLabels 1) ++ [.label (.ofNat p.label)]))
  | .ifElse _ c t e =>
    let q := t.after ((p.useRegs c.regCount).useLabels 1)
    c.code slot p.reg ++ (.branchFalse (c.result p.reg) (.ofNat p.label) ::
      (t.code slot ((p.useRegs c.regCount).useLabels 1) ++
        (.jump (.ofNat q.label) :: .label (.ofNat p.label) ::
          (e.code slot (q.useLabels 1) ++ [.label (.ofNat q.label)]))))
  | .whileLoop m c body =>
    .label (.ofNat p.label) :: (c.code slot p.reg ++
      (.branchFalse (c.result p.reg) (.ofNat (p.label + 1)) ::
        (body.code slot ((p.enter m.id).useRegs c.regCount) ++
          [.jump (.ofNat p.label), .label (.ofNat (p.label + 1))])))
  | .breakLoop _ link => [.jump ((p.exit? link).getD (.ofNat 0))]

def codeAll (slot : String → Slot) (p : Point) : List Stmt → List Instr
  | [] => []
  | s :: ss => s.code slot p ++ codeAll slot (s.after p) ss

end

mutual

/-- The first thing wrong with a statement in the order of the walk, when the names `ns` have a
    slot and the loops `entered` have been entered. -/
def violation? (ctx : Context) (ns : List String) (entered : List StmtId) : Stmt → Option LowerError
  | .block _ body => violationAll? ctx ns entered body
  | .eval _ e => e.violation? ctx ns
  | .ret _ none => none
  | .ret _ (some e) => e.violation? ctx ns
  | .ifThen _ c t => c.violation? ctx ns <|> t.violation? ctx (addNames ns c.targets) entered
  | .ifElse _ c t e =>
    c.violation? ctx ns <|> t.violation? ctx (addNames ns c.targets) entered <|>
      e.violation? ctx (addNames ns (c.targets ++ t.targets)) (t.loops.reverse ++ entered)
  | .whileLoop m c body =>
    c.violation? ctx ns <|> body.violation? ctx (addNames ns c.targets) (m.id :: entered)
  | .breakLoop m link =>
    if link.any entered.contains then none
    else some (.ofKind (.unresolvedBreak m.id link) m.origin)

def violationAll? (ctx : Context) (ns : List String) (entered : List StmtId) :
    List Stmt → Option LowerError
  | [] => none
  | s :: ss =>
    s.violation? ctx ns entered <|>
      violationAll? ctx (addNames ns s.targets) (s.loops.reverse ++ entered) ss

end

mutual

@[simp] theorem length_code (slot : String → Slot) (p : Point) (s : Stmt) :
    (s.code slot p).length = s.size := by
  cases s with
  | block m body => simp [code, size, length_codeAll slot p body]
  | eval m e => simp [code, size]
  | ret m e => cases e <;> simp [code, size]
  | ifThen m c t =>
    simp only [code, size, List.length_append, List.length_cons, List.length_nil,
      Expr.length_code, length_code slot _ t]
    omega
  | ifElse m c t e =>
    simp only [code, size, List.length_append, List.length_cons, List.length_nil,
      Expr.length_code, length_code slot _ t, length_code slot _ e]
    omega
  | whileLoop m c body =>
    simp only [code, size, List.length_append, List.length_cons, List.length_nil,
      Expr.length_code, length_code slot _ body]
    omega
  | breakLoop m link => rfl

@[simp] theorem length_codeAll (slot : String → Slot) (p : Point) (ss : List Stmt) :
    (codeAll slot p ss).length = sizeAll ss := by
  cases ss with
  | nil => rfl
  | cons s ss =>
    simp [codeAll, sizeAll, length_code slot p s, length_codeAll slot (s.after p) ss]

end

mutual

@[simp] theorem label_after (p : Point) (s : Stmt) : (s.after p).label = p.label + s.labelCount := by
  cases s with
  | block m body => exact label_afterAll p body
  | eval m e => rfl
  | ret m e => cases e <;> rfl
  | ifThen m c t =>
    rw [after, label_after _ t, labelCount]
    simp only [Point.useLabels_label, Point.useRegs_label]
    omega
  | ifElse m c t e =>
    rw [after, label_after _ e, Point.useLabels_label, label_after _ t, labelCount]
    simp only [Point.useLabels_label, Point.useRegs_label]
    omega
  | whileLoop m c body =>
    rw [after, label_after _ body, labelCount]
    simp only [Point.useRegs_label, Point.enter_label]
    omega
  | breakLoop m link => rfl

@[simp] theorem label_afterAll (p : Point) (ss : List Stmt) :
    (afterAll p ss).label = p.label + labelCountAll ss := by
  cases ss with
  | nil => rfl
  | cons s ss =>
    rw [afterAll, label_afterAll _ ss, label_after p s, labelCountAll, Nat.add_assoc]

end

mutual

/-- The loops that have been entered after a statement: its own and those from before. -/
@[simp] theorem entered_after (p : Point) (s : Stmt) :
    (s.after p).exits.map Prod.fst = s.loops.reverse ++ p.exits.map Prod.fst := by
  cases s with
  | block m body => exact entered_afterAll p body
  | eval m e => rfl
  | ret m e => cases e <;> rfl
  | ifThen m c t => rw [after, entered_after _ t, loops]; rfl
  | ifElse m c t e =>
    rw [after, entered_after _ e, Point.useLabels_exits, entered_after _ t, loops]
    simp
  | whileLoop m c body =>
    rw [after, entered_after _ body, loops]
    simp
  | breakLoop m link => rfl

@[simp] theorem entered_afterAll (p : Point) (ss : List Stmt) :
    (afterAll p ss).exits.map Prod.fst = (loopsAll ss).reverse ++ p.exits.map Prod.fst := by
  cases ss with
  | nil => rfl
  | cons s ss =>
    rw [afterAll, entered_afterAll _ ss, entered_after p s, loopsAll]
    simp

end

variable {ctx ctx' : Context}

mutual

theorem violation?_congr (h : ∀ f, ctx.find? f = ctx'.find? f) (ns : List String)
    (entered : List StmtId) (s : Stmt) :
    s.violation? ctx ns entered = s.violation? ctx' ns entered := by
  cases s with
  | block m body => exact violationAll?_congr h ns entered body
  | eval m e => exact Expr.violation?_congr h ns e
  | ret m e =>
    cases e with
    | none => rfl
    | some e => exact Expr.violation?_congr h ns e
  | ifThen m c t =>
    simp only [violation?]
    rw [Expr.violation?_congr h ns c, violation?_congr h _ _ t]
  | ifElse m c t e =>
    simp only [violation?]
    rw [Expr.violation?_congr h ns c, violation?_congr h _ _ t, violation?_congr h _ _ e]
  | whileLoop m c body =>
    simp only [violation?]
    rw [Expr.violation?_congr h ns c, violation?_congr h _ _ body]
  | breakLoop m link => rfl

theorem violationAll?_congr (h : ∀ f, ctx.find? f = ctx'.find? f) (ns : List String)
    (entered : List StmtId) (ss : List Stmt) :
    violationAll? ctx ns entered ss = violationAll? ctx' ns entered ss := by
  cases ss with
  | nil => rfl
  | cons s ss =>
    simp only [violationAll?]
    rw [violation?_congr h ns entered s, violationAll?_congr h _ _ ss]

end

end Stmt

/-! ### Where statements stand -/

/-- A statement, the place at which its code begins, and the innermost loop around it. -/
structure Placed where
  stmt : Stmt
  place : Nat
  loop : Option Placed

/-- How the walk notes that it came to a statement. -/
def Placed.visit (q : Placed) : Visit := ⟨q.stmt.kindName, q.stmt.id, q.place⟩

namespace Stmt

mutual

/-- A statement and all statements inside it, each before those inside it, when its code begins at
    `i` and `loop` is the innermost loop around it. -/
def placed (loop : Option Placed) (i : Nat) : Stmt → List Placed
  | s@(.block _ body) => ⟨s, i, loop⟩ :: placedAll loop i body
  | s@(.ifThen _ c t) => ⟨s, i, loop⟩ :: t.placed loop (i + c.size + 1)
  | s@(.ifElse _ c t e) =>
    ⟨s, i, loop⟩ :: (t.placed loop (i + c.size + 1) ++ e.placed loop (i + c.size + t.size + 3))
  | s@(.whileLoop _ c body) =>
    ⟨s, i, loop⟩ :: body.placed (some ⟨s, i, loop⟩) (i + c.size + 2)
  | s@(.eval _ _) | s@(.ret _ _) | s@(.breakLoop _ _) => [⟨s, i, loop⟩]

def placedAll (loop : Option Placed) (i : Nat) : List Stmt → List Placed
  | [] => []
  | s :: ss => s.placed loop i ++ placedAll loop (i + s.size) ss

end

end Stmt

end JumpCode
