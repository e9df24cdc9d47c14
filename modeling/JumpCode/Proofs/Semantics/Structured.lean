import JumpCode.Ast.Analysis
import JumpCode.Machine.Fault

/-!
# What programs mean

A program means something without being lowered.  Expressions are evaluated from left to right in an
environment that gives every name a value, statements are executed one after another, and a call
starts again with an environment of its own.  This module says so by recursion on the tree.

A tree need not have an outcome, as a loop may go on for ever.  So the meaning of a tree is a
relation: it holds of the outcomes that the tree can come to.  `Meaning` is the monad of such
relations, in which a trap ends everything that was still to be done.  Loops are the one place where
the recursion is not on the tree; there an outcome is reached after finitely many rounds.
-/

namespace JumpCode

/-- What can stop a program whose calls are all right. -/
inductive Trap where
  | divisionByZero
  | callDepth
  deriving DecidableEq, Repr

/-- How the machine, with a limit on the depth of calls, reports a trap. -/
def Trap.kind (maxDepth : Nat) : Trap → FaultKind
  | .divisionByZero => .divisionByZero
  | .callDepth => .callDepth maxDepth

theorem Trap.kind_injective (D : Nat) : Function.Injective (Trap.kind D) := by
  intro s t h
  cases s <;> cases t <;> simp_all [Trap.kind]

/-- The outcomes that something can come to. -/
def Meaning (α : Type) : Type := Except Trap α → Prop

namespace Meaning

variable {α β : Type}

/-- The one outcome is a trap. -/
def trap (t : Trap) : Meaning α := fun o => o = .error t

/-- There is no outcome. -/
def none : Meaning α := fun _ => False

instance : Monad Meaning where
  pure a := fun o => o = .ok a
  bind x f := fun o => (∃ a, x (.ok a) ∧ f a o) ∨ ∃ t, x (.error t) ∧ o = .error t

@[simp] theorem pure_apply (a : α) (o : Except Trap α) : (pure a : Meaning α) o ↔ o = .ok a :=
  Iff.rfl

end Meaning

/-- The values of names. -/
abbrev Env := String → Value

namespace Env

/-- Every name has the initial value. -/
def initial : Env := fun _ => .int 0

/-- The name `x` has got the value `v`. -/
def set (env : Env) (x : String) (v : Value) : Env := fun y => if y = x then v else env y

/-- Parameters have the values of their arguments, and all other names the initial value. -/
def ofArgs (params : List String) (args : List Value) : Env := fun x =>
  ((params.zip args).lookup x).getD (initial x)

end Env

/-- What calls come to: a value or none. -/
abbrev Calls := String → List Value → Meaning (Option Value)

/-! ### Expressions -/

namespace Expr

mutual

/-- The value of an expression, and the environment after it. -/
def eval (call : Calls) : Expr → Env → Meaning (Value × Env)
  | .int _ n, env => pure (.int n, env)
  | .bool _ b, env => pure (.bool b, env)
  | .ident _ x, env => pure (env x, env)
  | .unary _ op e, env => do
    let (v, env) ← e.eval call env
    pure (op.apply v, env)
  | .binary _ op l r, env => do
    let (v, env) ← l.eval call env
    let (w, env) ← r.eval call env
    match op.apply v w with
    | some u => pure (u, env)
    | none => .trap .divisionByZero
  | .assign _ x e, env => do
    let (v, env) ← e.eval call env
    pure (v, env.set x v)
  | .call _ f args, env => do
    let (vs, env) ← evalAll call args env
    let v ← call f vs
    pure (v.getD (.int 0), env)

/-- The values of some expressions, and the environment after them. -/
def evalAll (call : Calls) : List Expr → Env → Meaning (List Value × Env)
  | [], env => pure ([], env)
  | e :: es, env => do
    let (v, env) ← e.eval call env
    let (vs, env) ← evalAll call es env
    pure (v :: vs, env)

end

end Expr

/-! ### Statements -/

/-- How a statement ends. -/
inductive Flow where
  /-- What follows is next. -/
  | next (env : Env)
  /-- The innermost loop is left. -/
  | broke (env : Env)
  /-- The function is left, with a value or without. -/
  | returned (value : Option Value)

/-- The outcomes of doing something round after round, until a round breaks off. -/
inductive Rounds (round : Env → Meaning Flow) : Env → Meaning Flow where
  | again {env env' : Env} {o : Except Trap Flow} :
      round env (.ok (.next env')) → Rounds round env' o → Rounds round env o
  | broke {env env' : Env} :
      round env (.ok (.broke env')) → Rounds round env (.ok (.next env'))
  | returned {env : Env} {v : Option Value} :
      round env (.ok (.returned v)) → Rounds round env (.ok (.returned v))
  | trap {env : Env} {t : Trap} : round env (.error t) → Rounds round env (.error t)

namespace Stmt

mutual

/-- How a statement ends.  A round of a loop breaks off when its condition fails. -/
def exec (call : Calls) : Stmt → Env → Meaning Flow
  | .block _ body, env => execAll call body env
  | .eval _ e, env => do
    let (_, env) ← e.eval call env
    pure (.next env)
  | .ret _ none, _ => pure (.returned none)
  | .ret _ (some e), env => do
    let (v, _) ← e.eval call env
    pure (.returned (some v))
  | .ifThen _ c t, env => do
    let (v, env) ← c.eval call env
    if v.isZero then pure (.next env) else t.exec call env
  | .ifElse _ c t e, env => do
    let (v, env) ← c.eval call env
    if v.isZero then e.exec call env else t.exec call env
  | .whileLoop _ c body, env =>
    Rounds (fun env => do
      let (v, env) ← c.eval call env
      if v.isZero then pure (.broke env) else body.exec call env) env
  | .breakLoop _ _, env => pure (.broke env)

/-- How some statements end that follow one another. -/
def execAll (call : Calls) : List Stmt → Env → Meaning Flow
  | [], env => pure (.next env)
  | s :: ss, env => do
    match ← s.exec call env with
    | .next env => execAll call ss env
    | .broke env => pure (.broke env)
    | .returned v => pure (.returned v)

end

end Stmt

/-! ### Functions and programs -/

/-- What a function returns.  It returns nothing if it comes to its end, and a break without a loop
    has no meaning. -/
def Function.apply (call : Calls) (f : Function) (args : List Value) : Meaning (Option Value) := do
  match ← f.body.exec call (.ofArgs f.params args) with
  | .next _ => pure none
  | .broke _ => .none
  | .returned v => pure v

/-- What a call of a function of the program comes to, when calls may be nested `left` deep.  A call
    of a function that is not there, or with the wrong number of arguments, has no meaning. -/
def Program.call (p : Program) : (left : Nat) → Calls
  | 0, name, args => fun o =>
    ∃ f, p.find? name = some f ∧ f.params.length = args.length ∧ o = .error .callDepth
  | left + 1, name, args => fun o =>
    ∃ f, p.find? name = some f ∧ f.params.length = args.length ∧ f.apply (p.call left) args o

/-- What a run of a program comes to that calls a function, when at most `maxDepth` calls may be
    nested in that call. -/
def Program.run (p : Program) (maxDepth : Nat) (entry : String) (args : List Value) :
    Meaning (Option Value) :=
  p.call (maxDepth + 1) entry args

/-! ### Linking -/

namespace Stmt

mutual

/-- Which loop a break names makes no difference to what it means. -/
theorem exec_link (call : Calls) (loop : Option StmtId) (s : Stmt) :
    (s.link loop).exec call = s.exec call := by
  funext env
  cases s with
  | block m body => simp only [link, exec, execAll_linkAll call loop body]
  | eval m e => rfl
  | ret m e => rfl
  | ifThen m c t => simp only [link, exec, exec_link call loop t]
  | ifElse m c t e => simp only [link, exec, exec_link call loop t, exec_link call loop e]
  | whileLoop m c body => simp only [link, exec, exec_link call (some m.id) body]
  | breakLoop m old => rfl

theorem execAll_linkAll (call : Calls) (loop : Option StmtId) (ss : List Stmt) :
    execAll call (linkAll loop ss) = execAll call ss := by
  funext env
  cases ss with
  | nil => rfl
  | cons s ss => simp only [linkAll, execAll, exec_link call loop s, execAll_linkAll call loop ss]

end

end Stmt

namespace Program

theorem find?_link (p : Program) (name : String) :
    p.link.find? name = (p.find? name).map Function.link := by
  rw [find?, link, List.find?_map]
  rfl

theorem exists_find?_link {p : Program} {name : String} {P : Function → Prop} :
    (∃ f, p.link.find? name = some f ∧ P f) ↔ ∃ f, p.find? name = some f ∧ P f.link := by
  rw [find?_link]
  cases p.find? name <;> simp

/-- A linked program means the same. -/
theorem call_link (p : Program) (left : Nat) : p.link.call left = p.call left := by
  induction left with
  | zero =>
    funext name args o
    exact propext exists_find?_link
  | succ left ih =>
    funext name args o
    refine propext (exists_find?_link.trans ?_)
    have happly (f : Function) : f.link.apply (p.link.call left) = f.apply (p.call left) := by
      funext args
      rw [ih, Function.apply, Function.link, Stmt.exec_link]
      rfl
    simp only [happly]
    rfl

end Program

end JumpCode
