import JumpCode.Peg.Pattern

/-!
# Reading with a grammar

`Grammar.eval` reads one parsing expression from a cursor.  Beside the outcome it keeps
`Attempts`: the furthest place at which a rule failed, and the rules that failed there.  Attempts
outlive the choices and repetitions that recover from a failure, so that when the whole text is
refused they say what could have stood at the place that was reached.

The evaluator is a function of a bound on its depth.  Every call of it spends one unit, so it is
defined by recursion on the bound; `Grammar.parse` chooses the bound from the length of the text.
-/

namespace JumpCode.Peg

variable {ρ : Type}

/-- The rules that failed at the furthest place, in the order in which they failed there. -/
structure Attempts (ρ : Type) where
  place : Position
  rules : List ρ

namespace Attempts

def none : Attempts ρ := ⟨.start, []⟩

/-- How many rules are known to have failed at the place `p`. -/
def countAt (t : Attempts ρ) (p : Position) : Nat :=
  if t.place.byte = p.byte then t.rules.length else 0

/-- Note that rule `r` failed at `p`, where `before` failures were known when it began.  If exactly
    one of the rules inside it failed there, that one says more than `r`, and nothing changes.
    Otherwise `r` replaces the failures inside it. -/
def record (t : Attempts ρ) (r : ρ) (p : Position) (before : Nat) : Attempts ρ :=
  if t.countAt p = before + 1 then t
  else if p.byte = t.place.byte then ⟨p, t.rules.take before ++ [r]⟩
  else if t.place.byte < p.byte then ⟨p, [r]⟩
  else t

end Attempts

/-- How an expression is being read: whether gaps may pass, and whether rules leave pairs and
    attempts behind. -/
structure Mode where
  gaps : Bool
  recording : Bool

namespace Mode

def outermost : Mode := ⟨true, true⟩

/-- Inside an atomic rule there are no gaps, and the rules used there are not recorded. -/
def enter (m : Mode) (atomic : Bool) : Mode := if atomic then ⟨false, false⟩ else m

/-- A look ahead records nothing. -/
def quiet (m : Mode) : Mode := { m with recording := false }

end Mode

inductive Outcome (ρ : Type) where
  | matched (cursor : Cursor) (pairs : List (Pair ρ)) (attempts : Attempts ρ)
  | failed (attempts : Attempts ρ)
  /-- The bound on the depth was too small. -/
  | exhausted

namespace Outcome

/-- The outcome of an expression of which `ps` had been read before. -/
def after (ps : List (Pair ρ)) : Outcome ρ → Outcome ρ
  | .matched c qs t => .matched c (ps ++ qs) t
  | .failed t => .failed t
  | .exhausted => .exhausted

def ofOption (t : Attempts ρ) : Option Cursor → Outcome ρ
  | some c => .matched c [] t
  | none => .failed t

end Outcome

namespace Grammar

def gap (g : Grammar ρ) (m : Mode) (c : Cursor) : Cursor := if m.gaps then g.skip c else c

/-- Read an expression from a cursor, to the given depth at most. -/
def eval (g : Grammar ρ) : Nat → Mode → Pattern ρ → Cursor → Attempts ρ → Outcome ρ
  | 0, _, _, _, _ => .exhausted
  | n + 1, m, p, c, t =>
    match p with
    | .start => if c.position.byte = 0 then .matched c [] t else .failed t
    | .stop => if c.rest.isEmpty then .matched c [] t else .failed t
    | .literal s => .ofOption t (c.accept? s.toList)
    | .char q => .ofOption t (c.next? q)
    | .seq a b =>
      match g.eval n m a c t with
      | .matched c₁ ps t₁ => (g.eval n m b (g.gap m c₁) t₁).after ps
      | .failed t₁ => .failed t₁
      | .exhausted => .exhausted
    | .alt a b =>
      match g.eval n m a c t with
      | .matched c₁ ps t₁ => .matched c₁ ps t₁
      | .failed t₁ => g.eval n m b c t₁
      | .exhausted => .exhausted
    | .opt a =>
      match g.eval n m a c t with
      | .matched c₁ ps t₁ => .matched c₁ ps t₁
      | .failed t₁ => .matched c [] t₁
      | .exhausted => .exhausted
    | .many a =>
      match g.eval n m a c t with
      | .matched c₁ ps t₁ => (g.eval n m (.more a) c₁ t₁).after ps
      | .failed t₁ => .matched c [] t₁
      | .exhausted => .exhausted
    | .more a =>
      match g.eval n m a (g.gap m c) t with
      | .matched c₁ ps t₁ => (g.eval n m (.more a) c₁ t₁).after ps
      | .failed t₁ => .matched c [] t₁
      | .exhausted => .exhausted
    | .not a =>
      match g.eval n m.quiet a c t with
      | .matched _ _ _ => .failed t
      | .failed _ => .matched c [] t
      | .exhausted => .exhausted
    | .rule r =>
      let m₁ := m.enter (g.atomic r)
      if g.silent r then g.eval n m₁ (g.body r) c t
      else
        match g.eval n m₁ (g.body r) c t with
        | .matched c₁ ps t₁ => .matched c₁ (if m.recording then [.node r c c₁ ps] else []) t₁
        | .failed t₁ =>
          .failed (if m.recording then t₁.record r c.position (t.countAt c.position) else t₁)
        | .exhausted => .exhausted

/-- Depth granted for each character of a text and for its end. -/
def depthPerCharacter : Nat := 1024

/-- Read rule `r` from the start of a text, of which it need not read all. -/
def parse (g : Grammar ρ) (r : ρ) (text : String) : Except (Attempts ρ) (List (Pair ρ)) :=
  let c := Cursor.ofString text
  match g.eval (depthPerCharacter * (c.rest.length + 1)) .outermost (.rule r) c .none with
  | .matched _ ps _ => .ok ps
  | .failed t => .error t
  | .exhausted => .error .none

end Grammar

end JumpCode.Peg
