import JumpCode.Peg.Matcher

/-!
# The grammar of scripts

A script is a list of functions.  Statements are blocks, conditionals, loops, returns, breaks and
expressions ended by a semicolon; expressions have the usual five levels of operators under an
assignment.  Words are made of letters, digits and underscores, and eight of them are reserved.

Blanks and comments may stand between any two parts of a rule that is not atomic.  A comment runs
from two slashes to the end of its line.
-/

namespace JumpCode

open Peg

/-- The rules of the grammar, the end of the text first and the others in the order in which they
    are listed in messages. -/
inductive Rule where
  | eoi | whitespace | comment | program | function | params | statement | block | ifStmt
  | elseClause | whileStmt | returnStmt | breakStmt | exprStmt | expression | assignment
  | equality | eqOp | relational | relOp | additive | addOp | multiplicative | mulOp | unary
  | unaryOp | primary | call | args | integer | boolean | keyword | identifier | identChar
  | kwFn | kwIf | kwElse | kwWhile | kwReturn | kwBreak
  deriving DecidableEq, Repr

namespace Rule

/-- Every rule, in the order of messages. -/
def all : List Rule :=
  [eoi, whitespace, comment, program, function, params, statement, block, ifStmt, elseClause,
   whileStmt, returnStmt, breakStmt, exprStmt, expression, assignment, equality, eqOp, relational,
   relOp, additive, addOp, multiplicative, mulOp, unary, unaryOp, primary, call, args, integer,
   boolean, keyword, identifier, identChar, kwFn, kwIf, kwElse, kwWhile, kwReturn, kwBreak]

def name : Rule → String
  | eoi => "EOI"
  | whitespace => "WHITESPACE"
  | comment => "COMMENT"
  | program => "program"
  | function => "function"
  | params => "params"
  | statement => "statement"
  | block => "block"
  | ifStmt => "if_stmt"
  | elseClause => "else_clause"
  | whileStmt => "while_stmt"
  | returnStmt => "return_stmt"
  | breakStmt => "break_stmt"
  | exprStmt => "expr_stmt"
  | expression => "expression"
  | assignment => "assignment"
  | equality => "equality"
  | eqOp => "eq_op"
  | relational => "relational"
  | relOp => "rel_op"
  | additive => "additive"
  | addOp => "add_op"
  | multiplicative => "multiplicative"
  | mulOp => "mul_op"
  | unary => "unary"
  | unaryOp => "unary_op"
  | primary => "primary"
  | call => "call"
  | args => "args"
  | integer => "integer"
  | boolean => "boolean"
  | keyword => "keyword"
  | identifier => "identifier"
  | identChar => "ident_char"
  | kwFn => "kw_fn"
  | kwIf => "kw_if"
  | kwElse => "kw_else"
  | kwWhile => "kw_while"
  | kwReturn => "kw_return"
  | kwBreak => "kw_break"

def ofName? (s : String) : Option Rule := all.find? (·.name == s)

theorem mem_all (r : Rule) : r ∈ all := by
  cases r <;> decide

/-! ### Bodies -/

def isWordChar (c : Char) : Bool := c.isAlphanum || c == '_'

/-- The word `w`, not as the beginning of a longer word. -/
private def word (w : String) : Pattern Rule := .seq (.literal w) (.not (.rule .identChar))

/-- A level of left-associative operators: operands of the next level with operators between. -/
private def chain (operand operator : Rule) : Pattern Rule :=
  .seq (.rule operand) (.many (.seq (.rule operator) (.rule operand)))

/-- One or more items with commas between. -/
private def listOf (item : Rule) : Pattern Rule :=
  .seq (.rule item) (.many (.seq (.literal ",") (.rule item)))

private def symbols (s : String) (rest : List String) : Pattern Rule :=
  .oneOf (.literal s) (rest.map .literal)

def body : Rule → Pattern Rule
  | eoi => .stop
  | whitespace => symbols " " ["\t", "\r", "\n"]
  | comment => .seq (.literal "//") (.many (.seq (.not (.literal "\n")) (.char fun _ => true)))
  | program => .sequence .start [.many (.rule .function), .rule .eoi]
  | function =>
    .sequence (.rule .kwFn)
      [.rule .identifier, .literal "(", .opt (.rule .params), .literal ")", .rule .block]
  | params => listOf .identifier
  | statement =>
    .oneOf (.rule .block)
      [.rule .ifStmt, .rule .whileStmt, .rule .returnStmt, .rule .breakStmt, .rule .exprStmt]
  | block => .sequence (.literal "\x7b") [.many (.rule .statement), .literal "\x7d"]
  | ifStmt =>
    .sequence (.rule .kwIf)
      [.literal "(", .rule .expression, .literal ")", .rule .statement, .opt (.rule .elseClause)]
  | elseClause => .seq (.rule .kwElse) (.rule .statement)
  | whileStmt =>
    .sequence (.rule .kwWhile) [.literal "(", .rule .expression, .literal ")", .rule .statement]
  | returnStmt => .sequence (.rule .kwReturn) [.opt (.rule .expression), .literal ";"]
  | breakStmt => .seq (.rule .kwBreak) (.literal ";")
  | exprStmt => .seq (.rule .expression) (.literal ";")
  | expression => .alt (.rule .assignment) (.rule .equality)
  | assignment =>
    .sequence (.rule .identifier) [.literal "=", .not (.literal "="), .rule .expression]
  | equality => chain .relational .eqOp
  | eqOp => symbols "==" ["!="]
  | relational => chain .additive .relOp
  | relOp => symbols "<=" [">=", "<", ">"]
  | additive => chain .multiplicative .addOp
  | addOp => symbols "+" ["-"]
  | multiplicative => chain .unary .mulOp
  | mulOp => symbols "*" ["/", "%"]
  | unary => .alt (.seq (.rule .unaryOp) (.rule .unary)) (.rule .primary)
  | unaryOp => symbols "-" ["!"]
  | primary =>
    .oneOf (.rule .integer)
      [.rule .boolean, .rule .call, .rule .identifier,
       .sequence (.literal "(") [.rule .expression, .literal ")"]]
  | call => .sequence (.rule .identifier) [.literal "(", .opt (.rule .args), .literal ")"]
  | args => listOf .expression
  | integer => .some (.char Char.isDigit)
  | boolean => .seq (symbols "true" ["false"]) (.not (.rule .identChar))
  | keyword =>
    .seq (symbols "fn" ["if", "else", "while", "return", "break", "true", "false"])
      (.not (.rule .identChar))
  | identifier =>
    .sequence (.not (.rule .keyword))
      [.char fun c => c.isAlpha || c == '_', .many (.rule .identChar)]
  | identChar => .char isWordChar
  | kwFn => word "fn"
  | kwIf => word "if"
  | kwElse => word "else"
  | kwWhile => word "while"
  | kwReturn => word "return"
  | kwBreak => word "break"

/-- Words, numbers and gaps are read without gaps inside them. -/
def isAtomic : Rule → Bool
  | whitespace | comment | integer | boolean | keyword | identifier
  | kwFn | kwIf | kwElse | kwWhile | kwReturn | kwBreak => true
  | _ => false

/-- Gaps and the characters of words are not recorded. -/
def isSilent : Rule → Bool
  | whitespace | comment | identChar => true
  | _ => false

end Rule

/-! ### Gaps -/

def isGapChar (c : Char) : Bool := c == ' ' || c == '\t' || c == '\r' || c == '\n'

/-- Pass over blanks and comments.  The flag tells whether a comment has begun and its line has not
    ended. -/
def passGap : Bool → Position → List Char → Cursor
  | _, p, [] => ⟨p, []⟩
  | true, p, c :: cs => passGap (c != '\n') (p.advance c) cs
  | false, p, '/' :: '/' :: cs => passGap true ((p.advance '/').advance '/') cs
  | false, p, c :: cs => if isGapChar c then passGap false (p.advance c) cs else ⟨p, c :: cs⟩

def scriptGrammar : Peg.Grammar Rule where
  body := Rule.body
  atomic := Rule.isAtomic
  silent := Rule.isSilent
  skip c := passGap false c.position c.rest

end JumpCode
