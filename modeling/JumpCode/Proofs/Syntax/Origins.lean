import JumpCode.Proofs.Ast.Numbering
import JumpCode.Proofs.Lowering.Violations
import JumpCode.Proofs.Syntax.Acceptance
import JumpCode.Proofs.Syntax.Nodes
import Mathlib.Data.List.Induction

/-!
# Origins in the text of a script

An origin names two points of a script by line and column.  What lies between them is its slice of
the text, which `Script.slice` cuts out by lines and columns alone.  As every character moves on
either the column or the line, the slice of what was read between two cursors is the text between
them (`covers_originTo`).

So the origins in a program that was read from a script can be checked against the text.  The slice
of a name that is read is the name itself, that of a call begins with the callee, that of a break is
a break, and that of a function is a function (`located_of_ofScript`).
-/

namespace JumpCode

open Peg

/-! ### Slices -/

/-- The place lies before the point, by line and column. -/
def Position.isBefore (p : Position) (l : Location) : Bool :=
  p.line < l.line || (p.line == l.line && p.column < l.column)

/-- The characters of a text, which begins at `p`, that lie between the points of a span. -/
def Span.slice (sp : Span) (p : Position) : List Char → List Char
  | [] => []
  | x :: xs =>
    if !p.isBefore sp.start && p.isBefore sp.stop then x :: sp.slice (p.advance x) xs
    else sp.slice (p.advance x) xs

/-- The text of a script between the points of a span. -/
def Script.slice (s : Script) (sp : Span) : String :=
  String.ofList (sp.slice .start s.content.toList)

namespace Position

variable {p : Position} {l : Location} {file : String}

theorem isBefore_iff :
    p.isBefore l = true ↔ p.line < l.line ∨ (p.line = l.line ∧ p.column < l.column) := by
  simp [isBefore]

theorem not_isBefore_self (p : Position) (file : String) : p.isBefore (p.toLocation file) = false := by
  simp [isBefore, toLocation]

theorem isBefore_advance (p : Position) (x : Char) (file : String) :
    p.isBefore ((p.advance x).toLocation file) = true := by
  rw [isBefore_iff]
  unfold advance toLocation
  split
  · exact Or.inl (Nat.lt_succ_self _)
  · exact Or.inr ⟨rfl, Nat.lt_succ_self _⟩

/-- What lies before a point after a character lies before it already. -/
theorem isBefore_of_advance {x : Char} (h : (p.advance x).isBefore l = true) :
    p.isBefore l = true := by
  rw [isBefore_iff] at *
  unfold advance at h
  split at h
  · simp only at h
    omega
  · simp only at h
    omega

/-- Every place lies before those after it. -/
theorem isBefore_advanceAll (p : Position) (x : Char) (w : List Char) (file : String) :
    p.isBefore ((p.advanceAll (x :: w)).toLocation file) = true := by
  induction w generalizing p x with
  | nil => exact p.isBefore_advance x file
  | cons y w ih => exact isBefore_of_advance (ih (p.advance x) y)

end Position

namespace Span

variable {sp : Span} {p : Position} {file : String}

/-- Nothing is cut out before the first point. -/
theorem slice_before {u : List Char} (h : sp.start = (p.advanceAll u).toLocation file)
    (r : List Char) : sp.slice p (u ++ r) = sp.slice (p.advanceAll u) r := by
  induction u generalizing p with
  | nil => rfl
  | cons x u ih =>
    have hbefore : p.isBefore sp.start = true := by
      rw [h]
      exact p.isBefore_advanceAll x u file
    rw [List.cons_append, slice, hbefore]
    exact ih h

/-- All is cut out between the two points. -/
theorem slice_between {w : List Char} (hstart : p.isBefore sp.start = false)
    (h : sp.stop = (p.advanceAll w).toLocation file) (r : List Char) :
    sp.slice p (w ++ r) = w ++ sp.slice (p.advanceAll w) r := by
  induction w generalizing p with
  | nil => rfl
  | cons x w ih =>
    have hbefore : p.isBefore sp.stop = true := by
      rw [h]
      exact p.isBefore_advanceAll x w file
    have hnext : (p.advance x).isBefore sp.start = false := by
      rw [Bool.eq_false_iff] at *
      exact mt Position.isBefore_of_advance hstart
    rw [List.cons_append, slice, hstart, hbefore]
    exact congrArg (x :: ·) (ih hnext h)

/-- Nothing is cut out after the second point. -/
theorem slice_after (h : p.isBefore sp.stop = false) (r : List Char) : sp.slice p r = [] := by
  induction r generalizing p with
  | nil => rfl
  | cons x r ih =>
    have hnext : (p.advance x).isBefore sp.stop = false := by
      rw [Bool.eq_false_iff] at *
      exact mt Position.isBefore_of_advance h
    rw [slice, h, Bool.and_false]
    exact ih hnext

end Span

/-- The origin is a stretch of the script, from its location on, with the text `w`. -/
def Origin.Covers (o : Origin) (s : Script) (w : String) : Prop :=
  ∃ sp : Span, o.location = some sp.start ∧ o.span = some sp ∧ sp.start.file = s.name ∧
    sp.stop.file = s.name ∧ s.slice sp = w

/-- The origin of what was read between two cursors is a stretch with the text between them. -/
theorem covers_originTo {s : Script} {a b : Cursor} (ha : (Cursor.ofString s.content).Before a)
    (hb : a.Before b) : (Cursor.originTo s.name a b).Covers s (a.textTo b) := by
  obtain ⟨u, hu⟩ := ha
  obtain ⟨w, hw⟩ := hb
  refine ⟨_, rfl, rfl, rfl, rfl, ?_⟩
  have htext : s.content.toList = u ++ (w ++ b.rest) := by
    rw [← hw.rest]
    exact hu.rest
  have hstart : Position.start.advanceAll u = a.position := hu.position.symm
  have hstop : a.position.advanceAll w = b.position := hw.position.symm
  rw [Script.slice, htext, Span.slice_before (by rw [hstart]), hstart,
    Span.slice_between (a.position.not_isBefore_self s.name) (by rw [hstop]), hstop,
    Span.slice_after (b.position.not_isBefore_self s.name), List.append_nil, hw.textTo]

/-! ### What was read -/

/-- The origin of what a walk meets covers the text that stands for it in the script. -/
def Event.Located (s : Script) : Event → Prop
  | .read o x => o.Covers s x
  | .call o f _ => ∃ w, o.Covers s w ∧ f.toList <+: w.toList ∧ [')'] <:+ w.toList
  | .leave m _ => ∃ w, m.origin.Covers s w ∧ "break".toList <+: w.toList ∧ [';'] <:+ w.toList
  | .assign _ | .enter _ => True

namespace Reader

variable {s : Script}

theorem covers_node {r : Rule} {a b : Cursor} {inner : List (Pair Rule)}
    (h : Node (.ofString s.content) (.node r a b inner)) :
    (Cursor.originTo s.name a b).Covers s (a.textTo b) :=
  covers_originTo h.before_start h.before_stop

theorem located_call {a b : Cursor} {name : Pair Rule} {rest : List (Pair Rule)}
    (h : Node (.ofString s.content) (.node .call a b (name :: rest))) (n : Nat) :
    (Event.call (Cursor.originTo s.name a b) name.text n).Located s :=
  ⟨_, covers_node h, h.text_call⟩

/-- The names and calls of the expression that a pair is read as are where its origins say. -/
def ReadsLocated (s : Script) (p : Pair Rule) : Prop :=
  ∀ e, readExpr s.name p = .ok e → ∀ event ∈ e.events, event.Located s

theorem located_of_readChain {left e : Expr} {qs : List (Pair Rule)}
    (hleft : ∀ event ∈ left.events, event.Located s) (hqs : ∀ q ∈ qs, ReadsLocated s q)
    (h : readChain s.name left qs = .ok e) : ∀ event ∈ e.events, event.Located s := by
  induction qs using List.twoStepInduction generalizing left with
  | nil =>
    cases h
    exact hleft
  | singleton op => cases h
  | cons_cons op q qs ih _ =>
    rw [readChain] at h
    split at h
    · obtain ⟨right, hright, hchain⟩ := except_bind_eq_ok h
      refine ih ?_ (fun p hp => hqs p (by simp [hp])) hchain
      rw [Expr.events, List.forall_mem_append]
      exact ⟨hleft, hqs q (by simp) right hright⟩
    · cases h

theorem located_of_readExprs {qs : List (Pair Rule)} {es : List Expr}
    (hqs : ∀ q ∈ qs, ReadsLocated s q) (h : readExprs s.name qs = .ok es) :
    ∀ event ∈ Expr.eventsAll es, event.Located s := by
  induction qs generalizing es with
  | nil =>
    cases h
    simp [Expr.eventsAll]
  | cons q qs ih =>
    obtain ⟨e, he, h₁⟩ := except_bind_eq_ok h
    obtain ⟨es, hes, hend⟩ := except_bind_eq_ok h₁
    cases hend
    rw [Expr.eventsAll, List.forall_mem_append]
    exact ⟨hqs q (by simp) e he, ih (fun p hp => hqs p (by simp [hp])) hes⟩

/-- What an expression that was read meets is where its origins say.  The pairs of arguments stand
    two levels below their call, so the induction over nodes speaks of two levels. -/
theorem readsLocated_of_node {p : Pair Rule} (hp : Node (.ofString s.content) p) :
    ReadsLocated s p ∧ ∀ q ∈ p.inner, ReadsLocated s q := by
  induction hp with
  | @intro r a b inner hstart hread hinner ih =>
  refine ⟨?_, fun q hq => (ih q hq).1⟩
  have hp : Node (.ofString s.content) (.node r a b inner) := .intro hstart hread hinner
  intro e h
  unfold readExpr at h
  dsimp only at h
  split at h
  · exact (ih _ (by simp)).1 e h
  · obtain ⟨value, hvalue, hend⟩ := except_bind_eq_ok h
    cases hend
    rw [Expr.events, List.forall_mem_append]
    constructor
    · exact (ih _ (by simp)).1 value hvalue
    · simp [Event.Located]
  -- The four levels of operators are read alike.
  iterate 4
    · obtain ⟨left, hleft, hchain⟩ := except_bind_eq_ok h
      exact located_of_readChain ((ih _ (by simp)).1 left hleft)
        (fun q hq => (ih q (by simp [hq])).1) hchain
  · exact (ih _ (by simp)).1 e h
  · split at h
    · obtain ⟨operand, hoperand, hend⟩ := except_bind_eq_ok h
      cases hend
      exact (ih _ (by simp)).1 operand hoperand
    · cases h
  · exact (ih _ (by simp)).1 e h
  · dsimp only [readInteger] at h
    split at h
    · cases h
      simp [Expr.events]
    · cases h
  · cases h
    simp [Expr.events]
  · cases h
    rw [Expr.events, List.forall_mem_singleton]
    exact covers_node hp
  · cases h
    rw [Expr.events, Expr.eventsAll, List.forall_mem_singleton]
    exact located_call hp _
  · obtain ⟨args, hargs, hend⟩ := except_bind_eq_ok h
    cases hend
    rw [Expr.events, List.forall_mem_cons]
    constructor
    · exact located_call hp _
    · exact located_of_readExprs (ih _ (List.mem_cons_of_mem _ List.mem_cons_self)).2 hargs
  · cases h

theorem located_of_readExpr {p : Pair Rule} (hp : Node (.ofString s.content) p) {e : Expr}
    (h : readExpr s.name p = .ok e) : ∀ event ∈ e.events, event.Located s :=
  (readsLocated_of_node hp).1 e h

mutual

/-- What a statement that was read meets is where its origins say. -/
theorem located_of_readsStmt {p : Pair Rule} (hp : Node (.ofString s.content) p) {n m : Nat}
    {t : Stmt} (h : ReadsStmt s.name p n t m) : ∀ event ∈ t.events, event.Located s := by
  cases h with
  | statement h => exact located_of_readsStmt (hp.of_inner (by simp)) h
  | block h => exact located_of_readsStmts (fun q hq => hp.of_inner hq) h
  | ifThen hc ht =>
    rw [Stmt.events, List.forall_mem_append]
    constructor
    · exact located_of_readExpr (hp.of_inner (by simp)) hc
    · exact located_of_readsStmt (hp.of_inner (by simp)) ht
  | ifElse hc ht he =>
    rw [Stmt.events, List.forall_mem_append, List.forall_mem_append]
    refine ⟨located_of_readExpr (hp.of_inner (by simp)) hc, ?_, ?_⟩
    · exact located_of_readsStmt (hp.of_inner (by simp)) ht
    · exact located_of_readsStmt (hp.of_inner (by simp)) he
  | elseClause h => exact located_of_readsStmt (hp.of_inner (by simp)) h
  | whileLoop hc h =>
    rw [Stmt.events, List.forall_mem_cons, List.forall_mem_append]
    refine ⟨trivial, located_of_readExpr (hp.of_inner (by simp)) hc, ?_⟩
    exact located_of_readsStmt (hp.of_inner (by simp)) h
  | ret => simp [Stmt.events]
  | retValue he =>
    have hlocated := located_of_readExpr (hp.of_inner (by simp)) he
    exact hlocated
  | breakLoop =>
    rw [Stmt.events, List.forall_mem_singleton]
    exact ⟨_, covers_node hp, hp.text_breakStmt⟩
  | eval he =>
    have hlocated := located_of_readExpr (hp.of_inner (by simp)) he
    exact hlocated

theorem located_of_readsStmts {qs : List (Pair Rule)} (hqs : ∀ q ∈ qs, Node (.ofString s.content) q)
    {n m : Nat} {ts : List Stmt} (h : ReadsStmts s.name qs n ts m) :
    ∀ event ∈ Stmt.eventsAll ts, event.Located s := by
  cases h with
  | nil => simp [Stmt.eventsAll]
  | cons h hrest =>
    rw [Stmt.eventsAll, List.forall_mem_append]
    constructor
    · exact located_of_readsStmt (hqs _ List.mem_cons_self) h
    · exact located_of_readsStmts (fun q hq => hqs q (List.mem_cons_of_mem _ hq)) hrest

end

end Reader

/-- The origin of a function covers its text in the script, and what it meets is where its origins
    say. -/
structure Function.Located (s : Script) (f : Function) : Prop where
  origin : ∃ w, f.origin.Covers s w ∧ "fn".toList <+: w.toList ∧ ['\x7d'] <:+ w.toList
  events : ∀ event ∈ f.events, event.Located s

namespace Reader

variable {s : Script}

theorem located_of_readFunction {p : Pair Rule} {n m : Nat} {f : Function}
    (hp : Node (.ofString s.content) p) (h : readFunction s.name p n = .ok (f, m)) :
    f.Located s := by
  cases p with
  | node r a b inner =>
  unfold readFunction at h
  dsimp only at h
  split at h
  · obtain ⟨body, n₁, hbody, hend⟩ := bind_eq_ok h
    cases hend
    exact ⟨⟨_, covers_node hp, hp.text_function⟩,
      located_of_readsStmt (hp.of_inner (by simp)) (readsStmt_of_ok hbody)⟩
  · obtain ⟨body, n₁, hbody, hend⟩ := bind_eq_ok h
    cases hend
    exact ⟨⟨_, covers_node hp, hp.text_function⟩,
      located_of_readsStmt (hp.of_inner (by simp)) (readsStmt_of_ok hbody)⟩
  · cases h

theorem located_of_readFunctions {qs : List (Pair Rule)} {n m : Nat} {fs : List Function}
    (hqs : ∀ q ∈ qs, Node (.ofString s.content) q) (h : readFunctions s.name qs n = .ok (fs, m)) :
    ∀ f ∈ fs, f.Located s := by
  induction qs generalizing n fs m with
  | nil =>
    cases h
    simp
  | cons q qs ih =>
    have hrest : ∀ q ∈ qs, Node (.ofString s.content) q := fun q hq => hqs q (by simp [hq])
    unfold readFunctions at h
    split at h
    · exact ih hrest h
    · obtain ⟨f, n₁, hf, h₁⟩ := bind_eq_ok h
      obtain ⟨gs, n₂, hgs, hend⟩ := bind_eq_ok h₁
      cases hend
      rw [List.forall_mem_cons]
      exact ⟨located_of_readFunction (hqs q (by simp)) hf, ih hrest hgs⟩

end Reader

/-- All origins in a program that was read from a script cover the text that they should. -/
theorem Program.located_of_ofScript {s : Script} {p : Program} (h : ofScript s = .ok p) :
    ∀ f ∈ p.functions, f.Located s := by
  obtain ⟨pairs, m, hparse, hread, -⟩ := exists_readFunctions_of_ofScript h
  obtain ⟨c', hreads⟩ := parse_program_eq_ok.mp hparse
  refine Reader.located_of_readFunctions ?_ hread
  intro q hq
  obtain ⟨p, hp, hinner⟩ := List.mem_flatMap.mp hq
  obtain ⟨r, a, b, inner⟩ := p
  exact (Rule.node_of_reads hreads hp).of_inner hinner

end JumpCode
