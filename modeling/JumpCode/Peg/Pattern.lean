import JumpCode.Source.Cursor

/-!
# Parsing expressions

A grammar is a table of named rules, each with a parsing expression as its body.  Choice is
ordered, repetition takes as much as it can, and neither is reconsidered once it has succeeded.

Between the parts of a sequence, and between two rounds of a repetition, a grammar lets a *gap* of
blanks and comments pass unnoticed.  Inside an *atomic* rule there are no gaps.  A *silent* rule
leaves no trace: what it reads is not recorded under its name.
-/

namespace JumpCode.Peg

/-- Parsing expressions over the rule names `ρ`. -/
inductive Pattern (ρ : Type) where
  /-- Nothing, at the start of the text. -/
  | start
  /-- Nothing, at the end of the text. -/
  | stop
  /-- Exactly this text. -/
  | literal (text : String)
  /-- One character of a class. -/
  | char (p : Char → Bool)
  /-- What the named rule reads. -/
  | rule (r : ρ)
  /-- One after the other, with a gap between. -/
  | seq (a b : Pattern ρ)
  /-- The first if it reads anything, else the second. -/
  | alt (a b : Pattern ρ)
  /-- At most one. -/
  | opt (a : Pattern ρ)
  /-- Any number, with gaps between. -/
  | many (a : Pattern ρ)
  /-- Any number more, with a gap before each. -/
  | more (a : Pattern ρ)
  /-- Nothing, where the expression cannot be read. -/
  | not (a : Pattern ρ)

namespace Pattern

variable {ρ : Type}

def sequence : Pattern ρ → List (Pattern ρ) → Pattern ρ
  | a, [] => a
  | a, b :: rest => .seq a (sequence b rest)

def oneOf : Pattern ρ → List (Pattern ρ) → Pattern ρ
  | a, [] => a
  | a, b :: rest => .alt a (oneOf b rest)

def some (a : Pattern ρ) : Pattern ρ := .seq a (.many a)

end Pattern

/-- Named rules with their bodies and kinds, and what counts as a gap. -/
structure Grammar (ρ : Type) where
  body : ρ → Pattern ρ
  atomic : ρ → Bool
  silent : ρ → Bool
  skip : Cursor → Cursor

/-- What one rule has read: the cursors before and after, and what the rules inside it read. -/
inductive Pair (ρ : Type) where
  | node (rule : ρ) (start stop : Cursor) (inner : List (Pair ρ))

namespace Pair

variable {ρ : Type}

def rule : Pair ρ → ρ
  | .node r _ _ _ => r

def start : Pair ρ → Cursor
  | .node _ a _ _ => a

def stop : Pair ρ → Cursor
  | .node _ _ b _ => b

def inner : Pair ρ → List (Pair ρ)
  | .node _ _ _ ps => ps

def text (p : Pair ρ) : String := p.start.textTo p.stop

def origin (p : Pair ρ) (file : String) : Origin := Cursor.originTo file p.start p.stop

end Pair

end JumpCode.Peg
