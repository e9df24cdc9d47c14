import JumpCode.Ast.Basic
import JumpCode.Grammar
import JumpCode.Source.Script
import JumpCode.Text.Decimal

/-!
# Reading a program

`Program.ofScript` reads a script with the grammar and turns the pairs it finds into a tree.  The
statements are numbered from 1 in the order in which they are finished: a statement comes after all
statements inside it.

A script is refused when the grammar does not accept it, when an integer does not fit in 64 bits,
or when it holds no function at all.
-/

namespace JumpCode

open Peg

/-- Why a script has no tree. -/
inductive Refusal where
  /-- There is no function in the script. -/
  | noFunctions (file : String)
  /-- The grammar stopped at a place where only the listed rules could have gone on. -/
  | unexpectedInput (location : Location) (expected : List Rule)
  /-- An integer of more than 63 bits. -/
  | tooLarge (digits : String) (origin : Origin)
  /-- A pair whose parts are not those of its rule. -/
  | unexpectedPair (rule : Rule) (text : String) (origin : Origin)

namespace Refusal

/-- The refusal of a text at which the grammar failed. -/
def ofAttempts (file : String) (t : Attempts Rule) : Refusal :=
  .unexpectedInput (t.place.toLocation file) (Rule.all.filter t.rules.contains)

/-- What is wrong with a text that the grammar refuses. -/
def expectation : List Rule → String
  | [] => "Unexpected input; did not expect []."
  | rules =>
    let names := String.intercalate ", " (rules.map Rule.name)
    s!"Unexpected input; expected one of [{names}]."

def toDiagnostic : Refusal → Diagnostic
  | .noFunctions file =>
    ⟨.script, .error, "The provided script contains no functions.",
      "flatline.ast.generate_ast_from_source", some ⟨file, 1, 1⟩, none⟩
  | .unexpectedInput l rules =>
    ⟨.parsing, .error, expectation rules, "flatline.ast.parse", some l, none⟩
  | .tooLarge digits o =>
    ⟨.parsing, .error, s!"Integer literal '{digits}' does not fit in 64 bits.",
      "flatline.expr.parse_primary_rule", o.location, o.span⟩
  | .unexpectedPair r text o =>
    ⟨.parsing, .error, s!"Unexpected rule {r.name} ('{text}').", "flatline.ast", o.location, o.span⟩

end Refusal

namespace Reader

variable (file : String)

def refuse {α : Type} (p : Pair Rule) : Except Refusal α :=
  .error (.unexpectedPair p.rule p.text (p.origin file))

def readInteger (digits : String) (o : Origin) : Except Refusal Expr :=
  let n := Text.ofDigits digits.toList
  if (n : Int) ≤ Int64.maxValue.toInt then .ok (.int o (Int64.ofNat n))
  else .error (.tooLarge digits o)

mutual

/-- The expression that a pair stands for. -/
def readExpr : Pair Rule → Except Refusal Expr
  | p@(.node r a b inner) =>
    let o := Cursor.originTo file a b
    match r, inner with
    | .expression, [q] => readExpr q
    | .assignment, [name, value] => do return .assign o name.text (← readExpr value)
    | .equality, q :: qs => do readChain (← readExpr q) qs
    | .relational, q :: qs => do readChain (← readExpr q) qs
    | .additive, q :: qs => do readChain (← readExpr q) qs
    | .multiplicative, q :: qs => do readChain (← readExpr q) qs
    | .unary, [q] => readExpr q
    | .unary, [op, q] =>
      match UnaryOp.ofSymbol? op.text with
      | some u => do return .unary o u (← readExpr q)
      | none => refuse file op
    | .primary, [q] => readExpr q
    | .integer, [] => readInteger (a.textTo b) o
    | .boolean, [] => .ok (.bool o (a.textTo b == "true"))
    | .identifier, [] => .ok (.ident o (a.textTo b))
    | .call, [name] => .ok (.call o name.text [])
    | .call, [name, .node .args _ _ qs] => do return .call o name.text (← readExprs qs)
    | _, _ => refuse file p

/-- The rest of a chain of operators, all applied from the left. -/
def readChain (left : Expr) : List (Pair Rule) → Except Refusal Expr
  | [] => .ok left
  | [op] => refuse file op
  | op :: q :: qs =>
    match BinaryOp.ofSymbol? op.text with
    | some b => do readChain (.binary (op.origin file) b left (← readExpr q)) qs
    | none => refuse file op

def readExprs : List (Pair Rule) → Except Refusal (List Expr)
  | [] => .ok []
  | q :: qs => do return (← readExpr q) :: (← readExprs qs)

end

/-- Reading that gives numbers to statements; the state is the next number. -/
abbrev Numbering := StateT Nat (Except Refusal)

/-- The mark of the statement that has just been finished. -/
def finish (o : Origin) : Numbering Mark := do
  let n ← get
  set (n + 1)
  return ⟨⟨n⟩, o⟩

mutual

/-- The statement that a pair stands for. -/
def readStmt : Pair Rule → Numbering Stmt
  | p@(.node r a b inner) =>
    let o := Cursor.originTo file a b
    match r, inner with
    | .statement, [q] => readStmt q
    | .block, qs => do
      let body ← readStmts qs
      return .block (← finish o) body
    | .ifStmt, [_, c, t] => do
      let cond ← readExpr file c
      let thenBranch ← readStmt t
      return .ifThen (← finish o) cond thenBranch
    | .ifStmt, [_, c, t, e] => do
      let cond ← readExpr file c
      let thenBranch ← readStmt t
      let elseBranch ← readStmt e
      return .ifElse (← finish o) cond thenBranch elseBranch
    | .elseClause, [_, q] => readStmt q
    | .whileStmt, [_, c, q] => do
      let cond ← readExpr file c
      let body ← readStmt q
      return .whileLoop (← finish o) cond body
    | .returnStmt, [_] => do return .ret (← finish o) none
    | .returnStmt, [_, e] => do
      let value ← readExpr file e
      return .ret (← finish o) (some value)
    | .breakStmt, [_] => do return .breakLoop (← finish o) none
    | .exprStmt, [e] => do
      let value ← readExpr file e
      return .eval (← finish o) value
    | _, _ => refuse file p

def readStmts : List (Pair Rule) → Numbering (List Stmt)
  | [] => return []
  | q :: qs => do
    let s ← readStmt q
    let rest ← readStmts qs
    return s :: rest

end

/-- The function that a pair stands for. -/
def readFunction : Pair Rule → Numbering Function
  | p@(.node r a b inner) =>
    let o := Cursor.originTo file a b
    match r, inner with
    | .function, [_, name, body] => do return ⟨name.text, [], ← readStmt file body, o⟩
    | .function, [_, name, .node .params _ _ params, body] => do
      return ⟨name.text, params.map Pair.text, ← readStmt file body, o⟩
    | _, _ => refuse file p

/-- The functions of a program, up to the end of the script. -/
def readFunctions : List (Pair Rule) → Numbering (List Function)
  | [] => return []
  | q :: qs =>
    if q.rule = .eoi then readFunctions qs
    else do
      let f ← readFunction file q
      let rest ← readFunctions qs
      return f :: rest

end Reader

/-- Read a program from a script. -/
def Program.ofScript (s : Script) : Except Refusal Program :=
  if s.isBlank then .error (.noFunctions s.name)
  else
    match scriptGrammar.parse .program s.content with
    | .error t => .error (.ofAttempts s.name t)
    | .ok pairs =>
      match (Reader.readFunctions s.name (pairs.flatMap Pair.inner)).run 1 with
      | .error e => .error e
      | .ok ([], _) => .error (.noFunctions s.name)
      | .ok (functions, _) => .ok ⟨functions⟩

end JumpCode
