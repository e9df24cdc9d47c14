import JumpCode.Proofs.Syntax.Origins

/-!
# Whatever the grammar reads becomes a tree

The grammar and the reader are two descriptions of one language.  The reader takes the parts of a
pair by their number and order, and refuses a pair whose parts are not those of its rule; no pair
that the grammar leaves is refused so.  The one thing that reading can stumble over is an integer
that is too large, and then the first such integer of the text is blamed.

`Vetted` says this of one reading and of the integers in what it reads, and it follows the order
of reading: two readings in a row vet the integers of both (`Vetted.bind`).  `Promise` says for
each rule which reading of a pair vets its integers, and `promise_of_node` goes through the rules.
That the first integer to be met is also the first in the text is a fact about the pairs alone
(`inOrder_of_reads`).
-/

namespace JumpCode

open Peg Grammar

namespace Reader

/-! ### Integers -/

mutual

/-- The integers that were read in a pair, first to last. -/
def integers : Pair Rule → List (Pair Rule)
  | .node r a b inner => if r = .integer then [.node r a b inner] else integersOf inner

def integersOf : List (Pair Rule) → List (Pair Rule)
  | [] => []
  | p :: ps => integers p ++ integersOf ps

end

theorem integersOf_append (ps qs : List (Pair Rule)) :
    integersOf (ps ++ qs) = integersOf ps ++ integersOf qs := by
  induction ps with
  | nil => rfl
  | cons p ps ih => rw [List.cons_append, integersOf, integersOf, ih, List.append_assoc]

theorem integersOf_singleton (p : Pair Rule) : integersOf [p] = integers p := by
  rw [integersOf, integersOf, List.append_nil]

theorem integers_node {r : Rule} (hr : r ≠ .integer) (a b : Cursor) (inner : List (Pair Rule)) :
    integers (.node r a b inner) = integersOf inner := by
  rw [integers, if_neg hr]

theorem integersOf_eq_nil {ps : List (Pair Rule)} (h : ∀ p ∈ ps, integers p = []) :
    integersOf ps = [] := by
  induction ps with
  | nil => rfl
  | cons p ps ih =>
    obtain ⟨hp, hps⟩ := List.forall_mem_cons.mp h
    rw [integersOf, hp, ih hps, List.append_nil]

/-- Whether the digits of an integer stand for a number above 2 ^ 63 - 1. -/
def isTooLarge (p : Pair Rule) : Bool := 9223372036854775807 < Text.ofDigits p.text.toList

/-! ### Integers in the order of the text -/

/-- Pairs that lie one after the other between two cursors. -/
structure InOrder (c : Cursor) (ts : List (Pair Rule)) (c' : Cursor) : Prop where
  before : c.Before c'
  within : ∀ t ∈ ts, c.Before t.start ∧ t.start.Before t.stop ∧ t.stop.Before c'
  pairwise : ts.Pairwise fun t u => t.stop.Before u.start

namespace InOrder

variable {c c₁ c₂ : Cursor} {ts us : List (Pair Rule)}

theorem nil (h : c.Before c₁) : InOrder c [] c₁ := ⟨h, nofun, .nil⟩

theorem after (hc : c.Before c₁) (h : InOrder c₁ ts c₂) : InOrder c ts c₂ where
  before := hc.trans h.before
  within t ht := ⟨hc.trans (h.within t ht).1, (h.within t ht).2⟩
  pairwise := h.pairwise

theorem trans (h : InOrder c ts c₁) (h' : InOrder c₁ us c₂) : InOrder c (ts ++ us) c₂ where
  before := h.before.trans h'.before
  within := by
    intro t ht
    rcases List.mem_append.mp ht with ht | ht
    · obtain ⟨hstart, hpair, hstop⟩ := h.within t ht
      exact ⟨hstart, hpair, hstop.trans h'.before⟩
    · obtain ⟨hstart, hpair, hstop⟩ := h'.within t ht
      exact ⟨h.before.trans hstart, hpair, hstop⟩
  pairwise := by
    refine List.pairwise_append.mpr ⟨h.pairwise, h'.pairwise, fun t ht u hu => ?_⟩
    exact (h.within t ht).2.2.trans (h'.within u hu).1

/-- A rule leaves one pair with the integers of its body, or is an integer itself. -/
theorem pairs {m : Mode} {ps : List (Pair Rule)} (h : InOrder c (integersOf ps) c₁) (r : Rule) :
    InOrder c (integersOf (m.pairs r c c₁ ps)) c₁ := by
  unfold Mode.pairs
  split
  · rw [integersOf_singleton, integers]
    split
    · refine ⟨h.before, fun t ht => ?_, List.pairwise_singleton _ _⟩
      cases List.mem_singleton.mp ht
      exact ⟨.refl c, h.before, .refl c₁⟩
    · exact h
  · exact .nil h.before

end InOrder

theorem inOrder_of_reads {m : Mode} {p : Pattern Rule} {c : Cursor} {x : Result Rule}
    (h : scriptGrammar.Reads m p c x) :
    ∀ c' ps, x = some (c', ps) → InOrder c (integersOf ps) c' := by
  induction h with
  | start _ | stop _ | optNone _ _ | manyNone _ _ | moreNone _ _ | not _ _ =>
    rintro c' ps ⟨⟩
    exact .nil (.refl _)
  | notStart _ | notStop _ | seqLeft _ _ | seqRight _ _ _ _ | notNone _ _ | ruleNone _ _ _ =>
    rintro c' ps ⟨⟩
  | literal s =>
    intro c' ps hx
    obtain ⟨c₁, haccept, hc₁⟩ := Option.map_eq_some_iff.mp hx
    cases hc₁
    exact .nil (.of_over (Cursor.accept?_eq_some.mp haccept))
  | char q =>
    intro c' ps hx
    obtain ⟨c₁, hnext, hc₁⟩ := Option.map_eq_some_iff.mp hx
    cases hc₁
    obtain ⟨x, -, hover⟩ := Cursor.next?_eq_some.mp hnext
    exact .nil (.of_over hover)
  | seq _ _ iha ihb =>
    rintro c' ps ⟨⟩
    rw [integersOf_append]
    exact (iha _ _ rfl).trans (.after (Cursor.before_gap _ _) (ihb _ _ rfl))
  | altLeft _ ih => exact ih
  | altRight _ _ _ ih => exact ih
  | opt _ ih => exact ih
  | many _ _ iha ihb =>
    rintro c' ps ⟨⟩
    rw [integersOf_append]
    exact (iha _ _ rfl).trans (ihb _ _ rfl)
  | more _ _ iha ihb =>
    rintro c' ps ⟨⟩
    rw [integersOf_append]
    exact (InOrder.after (Cursor.before_gap _ _) (iha _ _ rfl)).trans (ihb _ _ rfl)
  | silent _ _ ih => exact ih
  | rule hr hread ih =>
    rintro c' ps ⟨⟩
    exact (ih _ _ rfl).pairs _

/-! ### Readings that vet integers -/

/-- The reading is refused for the first of the integers that is too large, and if none is, it
    succeeds. -/
def Vetted {α : Type} (file : String) (ts : List (Pair Rule)) (x : Except Refusal α) : Prop :=
  match ts.find? isTooLarge with
  | some t => x = .error (.tooLarge t.text (t.origin file))
  | none => ∃ a, x = .ok a

section Vetted

variable {α β : Type} {file : String} {ts us : List (Pair Rule)}

namespace Vetted

theorem ok (a : α) : Vetted file [] (.ok a) := ⟨a, rfl⟩

/-- Of two readings in a row, the first one decides if it can. -/
theorem bind {x : Except Refusal α} {f : α → Except Refusal β} (hx : Vetted file ts x)
    (hf : ∀ a, Vetted file us (f a)) : Vetted file (ts ++ us) (x >>= f) := by
  unfold Vetted at *
  rw [List.find?_append]
  cases ht : ts.find? isTooLarge with
  | some t =>
    rw [ht] at hx
    rw [hx]
    rfl
  | none =>
    rw [ht] at hx
    obtain ⟨a, rfl⟩ := hx
    exact hf a

theorem map {x : Except Refusal α} (hx : Vetted file ts x) (f : α → β) :
    Vetted file ts (x >>= fun a => .ok (f a)) := by
  rw [← List.append_nil ts]
  exact hx.bind fun a => .ok (f a)

end Vetted

/-- The same of a reading that numbers statements, from whatever number on. -/
def Vets (file : String) (ts : List (Pair Rule)) (x : Numbering α) : Prop :=
  ∀ i, Vetted file ts (x i)

namespace Vets

theorem pure (a : α) : Vets file [] (pure a : Numbering α) := fun i => .ok (a, i)

theorem finish (o : Origin) : Vets file [] (finish o) := fun i => .ok (Mark.mk ⟨i⟩ o, i + 1)

theorem lift {x : Except Refusal α} (hx : Vetted file ts x) :
    Vets file ts (liftM x : Numbering α) := fun i => hx.map fun a => (a, i)

theorem bind {x : Numbering α} {f : α → Numbering β} (hx : Vets file ts x)
    (hf : ∀ a, Vets file us (f a)) : Vets file (ts ++ us) (x >>= f) :=
  fun i => (hx i).bind fun a => hf a.1 a.2

/-- A reading may go on with steps that meet no integers. -/
theorem andThen {x : Numbering α} {f : α → Numbering β} (hx : Vets file ts x)
    (hf : ∀ a, Vets file [] (f a)) : Vets file ts (x >>= f) := by
  rw [← List.append_nil ts]
  exact hx.bind hf

end Vets

end Vetted

/-! ### Repetitions -/

section Repetitions

variable {a : Pattern Rule} {item : Rule} {c c' : Cursor} {ps : List (Pair Rule)}

/-- A repetition leaves the pairs of its rounds. -/
theorem exists_rounds_of_reads_many
    (h : scriptGrammar.Reads .outermost (.many a) c (some (c', ps))) :
    ∃ rounds : List (List (Pair Rule)), ps = rounds.flatten ∧
      ∀ qs ∈ rounds, ∃ c c', scriptGrammar.Reads .outermost a c (some (c', qs)) := by
  rcases reads_many.mp h with ⟨c₁, qs, rs, hfirst, hmore, rfl⟩ | ⟨-, -, rfl⟩
  · have hrest : ∃ rounds : List (List (Pair Rule)), rs = rounds.flatten ∧
        ∀ qs ∈ rounds, ∃ c c', scriptGrammar.Reads .outermost a c (some (c', qs)) := by
      refine more_induction (motive := fun _ _ rs => ∃ rounds : List (List (Pair Rule)),
        rs = rounds.flatten ∧
        ∀ qs ∈ rounds, ∃ c c', scriptGrammar.Reads .outermost a c (some (c', qs))) ?_ ?_ hmore
      · intro c _
        exact ⟨[], rfl, nofun⟩
      · rintro c c₁ c₂ qs _ hround ⟨rounds, rfl, hrounds⟩
        exact ⟨qs :: rounds, rfl, List.forall_mem_cons.mpr ⟨⟨_, _, hround⟩, hrounds⟩⟩
    obtain ⟨rounds, rfl, hrounds⟩ := hrest
    exact ⟨qs :: rounds, rfl, List.forall_mem_cons.mpr ⟨⟨_, _, hfirst⟩, hrounds⟩⟩
  · exact ⟨[], rfl, nofun⟩

/-- What holds of the pairs of every round holds of all pairs of a repetition. -/
theorem forall_of_reads_many {P : Pair Rule → Prop}
    (ha : ∀ c c' qs, scriptGrammar.Reads .outermost a c (some (c', qs)) → ∀ q ∈ qs, P q)
    (h : scriptGrammar.Reads .outermost (.many a) c (some (c', ps))) : ∀ p ∈ ps, P p := by
  obtain ⟨rounds, rfl, hrounds⟩ := exists_rounds_of_reads_many h
  intro p hp
  obtain ⟨qs, hqs, hmem⟩ := List.mem_flatten.mp hp
  obtain ⟨c, c', hread⟩ := hrounds qs hqs
  exact ha c c' qs hread p hmem

/-- What holds of the pairs of an item holds of all pairs of a list of items. -/
theorem forall_of_reads_list {P : Pair Rule → Prop}
    (hitem : ∀ c c' qs, item.Reads c (some (c', qs)) → ∀ q ∈ qs, P q)
    (h : scriptGrammar.Reads .outermost
      (.seq (.rule item) (.many (.seq (.literal ",") (.rule item)))) c (some (c', ps))) :
    ∀ p ∈ ps, P p := by
  obtain ⟨c₁, qs, rs, hfirst, hrest, rfl⟩ := reads_then.mp h
  have hround (c c' qs) (h : scriptGrammar.Reads .outermost (.seq (.literal ",") (.rule item)) c
      (some (c', qs))) : ∀ q ∈ qs, P q := by
    obtain ⟨c₁, qs, rs, hcomma, hnext, rfl⟩ := reads_then.mp h
    obtain ⟨-, rfl⟩ := reads_literal.mp hcomma
    exact hitem _ _ rs hnext
  exact List.forall_mem_append.mpr ⟨hitem _ _ _ hfirst, forall_of_reads_many hround hrest⟩

theorem rule_of_reads {r : Rule} (hr : r.isSilent = false) (c c' : Cursor) (qs : List (Pair Rule))
    (h : r.Reads c (some (c', qs))) : ∀ q ∈ qs, q.rule = r := by
  obtain ⟨inner, -, rfl⟩ := (Rule.reads_iff hr).mp h
  exact List.forall_mem_singleton.mpr rfl

end Repetitions

/-! ### Rules and their readings -/

/-- The function that was read in a pair has the name and the parameters in it. -/
structure StandsFor (file : String) (p : Pair Rule) (f : Function) : Prop where
  origin : f.origin = p.origin file
  name : p.inner[1]?.map Pair.text = some f.name
  params : f.params =
    ((p.inner.filter fun q => q.rule = .params).flatMap Pair.inner).map Pair.text

/-- The rules of what is read as an expression. -/
def isExpr : Rule → Bool
  | .expression | .assignment | .equality | .relational | .additive | .multiplicative | .unary
  | .primary | .integer | .boolean | .identifier | .call => true
  | _ => false

/-- The rules of what is read as a statement. -/
def isStmt : Rule → Bool
  | .statement | .block | .ifStmt | .elseClause | .whileStmt | .returnStmt | .breakStmt
  | .exprStmt => true
  | _ => false

/-- What the rule of a pair promises about reading the pair. -/
def Promise (file : String) (p : Pair Rule) : Prop :=
  if isExpr p.rule then Vetted file (integers p) (readExpr file p)
  else if isStmt p.rule then Vets file (integers p) (readStmt file p)
  else match p.rule with
  | .args => Vetted file (integers p) (readExprs file p.inner)
  | .function => Vets file (integers p) (readFunction file p) ∧
      ∀ i f j, readFunction file p i = .ok (f, j) → StandsFor file p f
  | _ => True

theorem Promise.expr {file : String} {p : Pair Rule} (h : Promise file p)
    (hp : isExpr p.rule = true) : Vetted file (integers p) (readExpr file p) := by
  rwa [Promise, if_pos hp] at h

theorem Promise.stmt {file : String} {p : Pair Rule} (h : Promise file p)
    (hp : isStmt p.rule = true) : Vets file (integers p) (readStmt file p) := by
  have hexpr : ¬ isExpr p.rule = true := by
    cases hr : p.rule <;> rw [hr] at hp <;> cases hp <;> decide
  rwa [Promise, if_neg hexpr, if_pos hp] at h

section Expressions

variable {file : String} {a b : Cursor} {inner : List (Pair Rule)}

theorem vetted_singleton {α : Type} {q : Pair Rule} {x : Except Refusal α}
    (h : Vetted file (integers q) x) : Vetted file (integersOf [q]) x := by
  rw [integersOf_singleton]
  exact h

theorem vetted_readInteger (p : Pair Rule) :
    Vetted file [p] (readInteger p.text (p.origin file)) := by
  have hfits : (Text.ofDigits p.text.toList : Int) ≤ Int64.maxValue.toInt ↔
      isTooLarge p = false := by
    rw [Int64.toInt_maxValue, isTooLarge, decide_eq_false_iff_not]
    omega
  unfold Vetted readInteger
  cases hlarge : isTooLarge p with
  | true =>
    have hnot : ¬ (Text.ofDigits p.text.toList : Int) ≤ Int64.maxValue.toInt := by
      rw [hfits, hlarge]
      exact Bool.noConfusion
    rw [List.find?_cons_of_pos hlarge, if_neg hnot]
  | false =>
    have hnone : [p].find? isTooLarge = none := by simp [hlarge]
    rw [hnone, if_pos (hfits.mpr hlarge)]
    exact ⟨_, rfl⟩

theorem promise_integer (h : Rule.integer.Reads a (some (b, [.node .integer a b inner]))) :
    Promise file (.node .integer a b inner) := by
  obtain ⟨-, -, hinner⟩ := reads_integer.mp h
  cases hinner
  exact vetted_readInteger (.node .integer a b [])

theorem promise_boolean (h : Rule.boolean.Reads a (some (b, [.node .boolean a b inner]))) :
    Promise file (.node .boolean a b inner) := by
  obtain ⟨-, -, hinner⟩ := reads_boolean.mp h
  cases hinner
  exact (Vetted.ok _ : Vetted file [] _)

theorem promise_identifier
    (h : Rule.identifier.Reads a (some (b, [.node .identifier a b inner]))) :
    Promise file (.node .identifier a b inner) := by
  obtain ⟨-, -, hinner⟩ := reads_identifier.mp h
  cases hinner
  exact (Vetted.ok _ : Vetted file [] _)

/-- What is read of a rule is one pair. -/
theorem vetted_of_reads {r : Rule} (hr : r.isSilent = false) (hexpr : isExpr r = true)
    (h : r.Reads a (some (b, inner))) (ih : ∀ q ∈ inner, Promise file q) :
    ∃ q, inner = [q] ∧ Vetted file (integersOf inner) (readExpr file q) := by
  obtain ⟨inner, -, rfl⟩ := (Rule.reads_iff hr).mp h
  exact ⟨_, rfl, vetted_singleton ((ih _ (.head _)).expr hexpr)⟩

theorem promise_expression
    (h : scriptGrammar.Reads .outermost Rule.expression.body a (some (b, inner)))
    (ih : ∀ q ∈ inner, Promise file q) : Promise file (.node .expression a b inner) := by
  have hone {r : Rule} (hr : r.isSilent = false) (hexpr : isExpr r = true)
      (h : r.Reads a (some (b, inner))) : Promise file (.node .expression a b inner) := by
    obtain ⟨q, rfl, hq⟩ := vetted_of_reads hr hexpr h ih
    exact hq
  rcases reads_alt.mp h with h | ⟨-, h⟩
  · exact hone rfl rfl h
  · exact hone rfl rfl h

theorem promise_assignment
    (h : scriptGrammar.Reads .outermost Rule.assignment.body a (some (b, inner)))
    (ih : ∀ q ∈ inner, Promise file q) : Promise file (.node .assignment a b inner) := by
  obtain ⟨c₁, ps₁, rs₁, hname, htail₁, rfl⟩ := reads_then.mp h
  obtain ⟨c₂, ps₂, rs₂, hassign, htail₂, rfl⟩ := reads_then.mp htail₁
  obtain ⟨c₃, ps₃, rs₃, hnot, hvalue, rfl⟩ := reads_then.mp htail₂
  obtain ⟨-, -, rfl⟩ := reads_identifier.mp hname
  obtain ⟨-, rfl⟩ := reads_literal.mp hassign
  obtain ⟨-, -, rfl⟩ := reads_not.mp hnot
  obtain ⟨inner, -, rfl⟩ := (Rule.reads_node rfl rfl).mp hvalue
  have hq : Vetted file _ _ := ih _ (.tail _ (.head _))
  exact vetted_singleton (hq.map _)

/-- A chain meets the integers of its operands from left to right; its operators hold none. -/
theorem vetted_readChain {rounds : List (List (Pair Rule))}
    (hrounds : ∀ qs ∈ rounds, ∃ (p q : Pair Rule) (op : BinaryOp), qs = [p, q] ∧
      p.text = op.symbol ∧ integers p = [] ∧ Vetted file (integers q) (readExpr file q))
    (left : Expr) :
    Vetted file (integersOf rounds.flatten) (readChain file left rounds.flatten) := by
  induction rounds generalizing left with
  | nil => exact (Vetted.ok left : Vetted file [] _)
  | cons qs rounds ih =>
    obtain ⟨⟨p, q, op, rfl, htext, hp, hq⟩, hrest⟩ := List.forall_mem_cons.mp hrounds
    rw [List.flatten_cons, List.cons_append, List.singleton_append, readChain_cons htext,
      integersOf, integersOf, hp, List.nil_append]
    exact hq.bind fun right => ih hrest _

theorem levelRule_ne_integer (j : Nat) : levelRule j ≠ .integer := by
  unfold levelRule
  split <;> decide

theorem opRule_ne_integer (j : Nat) : opRule j ≠ .integer := by
  unfold opRule
  split <;> decide

theorem promise_levelRule {j : Nat} : Promise file (.node (levelRule j) a b inner) ↔
    Vetted file (integers (.node (levelRule j) a b inner))
      (readExpr file (.node (levelRule j) a b inner)) := by
  unfold levelRule
  split <;> exact Iff.rfl

theorem promise_chain {j : Nat} (hj : 1 ≤ j ∧ j ≤ 4)
    (h : scriptGrammar.Reads .outermost (levelRule j).body a (some (b, inner)))
    (ih : ∀ q ∈ inner, Promise file q) : Promise file (.node (levelRule j) a b inner) := by
  have hkind := kind_levelRule (j + 1)
  rw [body_levelRule hj] at h
  obtain ⟨c₁, ps₁, rs₁, hfirst, hrest, rfl⟩ := reads_then.mp h
  obtain ⟨inner₁, -, rfl⟩ := (Rule.reads_node hkind.1 hkind.2).mp hfirst
  obtain ⟨rounds, rfl, hrounds⟩ := exists_rounds_of_reads_many hrest
  rw [List.singleton_append] at *
  obtain ⟨hq, ih⟩ := List.forall_mem_cons.mp ih
  rw [promise_levelRule, integers_node (levelRule_ne_integer j), integersOf, readExpr_chain hj]
  refine (promise_levelRule.mp hq).bind (vetted_readChain fun qs hqs => ?_)
  obtain ⟨c, c', hround⟩ := hrounds qs hqs
  obtain ⟨c₂, ps₂, rs₂, hop, hoperand, rfl⟩ := reads_then.mp hround
  obtain ⟨op, -, hover, rfl⟩ := exists_of_reads_op hj hop
  obtain ⟨inner₂, -, rfl⟩ := (Rule.reads_node hkind.1 hkind.2).mp hoperand
  refine ⟨_, _, op, rfl, Pair.text_node hover, integers_node (opRule_ne_integer j) _ _ _, ?_⟩
  exact promise_levelRule.mp (ih _ (List.mem_flatten.mpr ⟨_, hqs, .tail _ (.head _)⟩))

theorem promise_unary
    (h : scriptGrammar.Reads .outermost Rule.unary.body a (some (b, inner)))
    (ih : ∀ q ∈ inner, Promise file q) : Promise file (.node .unary a b inner) := by
  rcases reads_alt.mp h with h | ⟨-, h⟩
  · obtain ⟨c₁, ps₁, rs₁, hop, hoperand, rfl⟩ := reads_then.mp h
    obtain ⟨op, hover, rfl⟩ := reads_unaryOp.mp hop
    obtain ⟨inner, -, rfl⟩ := (Rule.reads_node rfl rfl).mp hoperand
    have hq : Vetted file _ _ := ih _ (.tail _ (.head _))
    show Vetted file (integersOf [_]) (readExpr file (.node .unary a b [_, _]))
    rw [readExpr_unary (Pair.text_node hover)]
    exact vetted_singleton (hq.map _)
  · obtain ⟨inner, -, rfl⟩ := (Rule.reads_node rfl rfl).mp h
    exact vetted_singleton (ih _ (.head _))

theorem promise_primary
    (h : scriptGrammar.Reads .outermost Rule.primary.body a (some (b, inner)))
    (ih : ∀ q ∈ inner, Promise file q) : Promise file (.node .primary a b inner) := by
  have hone {r : Rule} {a' b' : Cursor} (hr : r.isSilent = false) (hexpr : isExpr r = true)
      (h : r.Reads a' (some (b', inner))) : Promise file (.node .primary a b inner) := by
    obtain ⟨q, rfl, hq⟩ := vetted_of_reads hr hexpr h ih
    exact hq
  rcases reads_alt.mp h with h | ⟨-, h⟩
  · exact hone rfl rfl h
  rcases reads_alt.mp h with h | ⟨-, h⟩
  · exact hone rfl rfl h
  rcases reads_alt.mp h with h | ⟨-, h⟩
  · exact hone rfl rfl h
  rcases reads_alt.mp h with h | ⟨-, h⟩
  · exact hone rfl rfl h
  · obtain ⟨c₁, ps₁, rs₁, hopen, htail, rfl⟩ := reads_then.mp h
    obtain ⟨c₂, ps₂, rs₂, hexpr, hclose, rfl⟩ := reads_then.mp htail
    obtain ⟨-, rfl⟩ := reads_literal.mp hopen
    obtain ⟨-, rfl⟩ := reads_literal.mp hclose
    rw [List.nil_append, List.append_nil] at *
    exact hone rfl rfl hexpr

theorem vetted_readExprs {qs : List (Pair Rule)}
    (h : ∀ q ∈ qs, Vetted file (integers q) (readExpr file q)) :
    Vetted file (integersOf qs) (readExprs file qs) := by
  induction qs with
  | nil => exact (Vetted.ok [] : Vetted file [] _)
  | cons q qs ih =>
    obtain ⟨hq, hqs⟩ := List.forall_mem_cons.mp h
    exact hq.bind fun e => (ih hqs).map _

theorem promise_args
    (h : scriptGrammar.Reads .outermost Rule.args.body a (some (b, inner)))
    (ih : ∀ q ∈ inner, Promise file q) : Promise file (.node .args a b inner) := by
  have hrule := forall_of_reads_list (rule_of_reads rfl) h
  exact vetted_readExprs fun q hq => (ih q hq).expr (congrArg isExpr (hrule q hq))

theorem promise_call
    (h : scriptGrammar.Reads .outermost Rule.call.body a (some (b, inner)))
    (ih : ∀ q ∈ inner, Promise file q) : Promise file (.node .call a b inner) := by
  obtain ⟨c₁, ps₁, rs₁, hname, htail₁, rfl⟩ := reads_then.mp h
  obtain ⟨c₂, ps₂, rs₂, hopen, htail₂, rfl⟩ := reads_then.mp htail₁
  obtain ⟨c₃, ps₃, rs₃, hargs, hclose, rfl⟩ := reads_then.mp htail₂
  obtain ⟨-, -, rfl⟩ := reads_identifier.mp hname
  obtain ⟨-, rfl⟩ := reads_literal.mp hopen
  obtain ⟨-, rfl⟩ := reads_literal.mp hclose
  rcases reads_opt.mp hargs with hargs | ⟨-, -, rfl⟩
  · obtain ⟨inner, -, rfl⟩ := (Rule.reads_node rfl rfl).mp hargs
    have hq : Vetted file _ _ := ih _ (.tail _ (.head _))
    exact vetted_singleton (hq.map _)
  · exact (Vetted.ok _ : Vetted file [] _)

end Expressions

section Statements

variable {file : String} {a b : Cursor} {inner : List (Pair Rule)}

theorem promise_statement
    (h : scriptGrammar.Reads .outermost Rule.statement.body a (some (b, inner)))
    (ih : ∀ q ∈ inner, Promise file q) : Promise file (.node .statement a b inner) := by
  have hone {r : Rule} (hr : r.isSilent = false) (hstmt : isStmt r = true)
      (h : r.Reads a (some (b, inner))) : Promise file (.node .statement a b inner) := by
    obtain ⟨inner, -, rfl⟩ := (Rule.reads_iff hr).mp h
    exact fun i => vetted_singleton ((ih _ (.head _)).stmt hstmt i)
  rcases reads_alt.mp h with h | ⟨-, h⟩
  · exact hone rfl rfl h
  rcases reads_alt.mp h with h | ⟨-, h⟩
  · exact hone rfl rfl h
  rcases reads_alt.mp h with h | ⟨-, h⟩
  · exact hone rfl rfl h
  rcases reads_alt.mp h with h | ⟨-, h⟩
  · exact hone rfl rfl h
  rcases reads_alt.mp h with h | ⟨-, h⟩
  · exact hone rfl rfl h
  · exact hone rfl rfl h

theorem vets_readStmts {qs : List (Pair Rule)}
    (h : ∀ q ∈ qs, Vets file (integers q) (readStmt file q)) :
    Vets file (integersOf qs) (readStmts file qs) := by
  induction qs with
  | nil => exact .pure []
  | cons q qs ih =>
    obtain ⟨hq, hqs⟩ := List.forall_mem_cons.mp h
    exact hq.bind fun s => (ih hqs).andThen fun rest => .pure _

theorem promise_block
    (h : scriptGrammar.Reads .outermost Rule.block.body a (some (b, inner)))
    (ih : ∀ q ∈ inner, Promise file q) : Promise file (.node .block a b inner) := by
  obtain ⟨c₁, ps₁, rs₁, hopen, htail, rfl⟩ := reads_then.mp h
  obtain ⟨c₂, ps₂, rs₂, hstatements, hclose, rfl⟩ := reads_then.mp htail
  obtain ⟨-, rfl⟩ := reads_literal.mp hopen
  obtain ⟨-, rfl⟩ := reads_literal.mp hclose
  rw [List.nil_append, List.append_nil] at *
  have hrule := forall_of_reads_many (rule_of_reads rfl) hstatements
  have hbody := vets_readStmts fun q hq => (ih q hq).stmt (congrArg isStmt (hrule q hq))
  exact hbody.andThen fun body => (Vets.finish _).andThen fun m => .pure _

/-- A condition in parentheses, and what comes after it. -/
theorem exists_of_reads_condition {p : Pattern Rule} {c c' : Cursor} {ps : List (Pair Rule)}
    (h : scriptGrammar.Reads .outermost
      (.seq (.literal "(") (.seq (.rule .expression) (.seq (.literal ")") p))) c (some (c', ps))) :
    ∃ a b inner c₁ rs, ps = .node .expression a b inner :: rs ∧
      scriptGrammar.Reads .outermost p c₁ (some (c', rs)) := by
  obtain ⟨c₁, ps₁, rs₁, hopen, htail₁, rfl⟩ := reads_then.mp h
  obtain ⟨c₂, ps₂, rs₂, hexpr, htail₂, rfl⟩ := reads_then.mp htail₁
  obtain ⟨c₃, ps₃, rs₃, hclose, hrest, rfl⟩ := reads_then.mp htail₂
  obtain ⟨-, rfl⟩ := reads_literal.mp hopen
  obtain ⟨-, rfl⟩ := reads_literal.mp hclose
  obtain ⟨inner, -, rfl⟩ := (Rule.reads_node rfl rfl).mp hexpr
  exact ⟨_, _, inner, _, rs₃, rfl, hrest⟩

theorem promise_ifStmt
    (h : scriptGrammar.Reads .outermost Rule.ifStmt.body a (some (b, inner)))
    (ih : ∀ q ∈ inner, Promise file q) : Promise file (.node .ifStmt a b inner) := by
  obtain ⟨c₁, ps₁, rs₁, hkeyword, htail₁, rfl⟩ := reads_then.mp h
  obtain ⟨-, -, rfl⟩ := (reads_keyword rfl).mp hkeyword
  obtain ⟨a₂, b₂, inner₂, c₂, rs₂, rfl, htail₂⟩ := exists_of_reads_condition htail₁
  obtain ⟨c₃, ps₃, rs₃, hthen, helse, rfl⟩ := reads_then.mp htail₂
  obtain ⟨inner₃, -, rfl⟩ := (Rule.reads_node rfl rfl).mp hthen
  -- The keyword holds no integers, so what the pair holds is in its condition and its branches.
  have hcond : Vetted file _ _ := ih _ (.tail _ (.head _))
  have hbranch : Vets file _ _ := ih _ (.tail _ (.tail _ (.head _)))
  rcases reads_opt.mp helse with helse | ⟨-, -, rfl⟩
  · obtain ⟨inner₄, -, rfl⟩ := (Rule.reads_node rfl rfl).mp helse
    have hbranch' : Vets file _ _ := ih _ (.tail _ (.tail _ (.tail _ (.head _))))
    exact (Vets.lift hcond).bind fun cond => hbranch.bind fun thenBranch =>
      hbranch'.bind fun elseBranch => (Vets.finish _).bind fun m => .pure _
  · exact (Vets.lift hcond).bind fun cond => hbranch.bind fun thenBranch =>
      (Vets.finish _).bind fun m => .pure _

theorem promise_elseClause
    (h : scriptGrammar.Reads .outermost Rule.elseClause.body a (some (b, inner)))
    (ih : ∀ q ∈ inner, Promise file q) : Promise file (.node .elseClause a b inner) := by
  obtain ⟨c₁, ps₁, rs₁, hkeyword, hstatement, rfl⟩ := reads_then.mp h
  obtain ⟨-, -, rfl⟩ := (reads_keyword rfl).mp hkeyword
  obtain ⟨inner, -, rfl⟩ := (Rule.reads_node rfl rfl).mp hstatement
  have hbranch : Vets file _ _ := ih _ (.tail _ (.head _))
  exact fun i => vetted_singleton (hbranch i)

theorem promise_whileStmt
    (h : scriptGrammar.Reads .outermost Rule.whileStmt.body a (some (b, inner)))
    (ih : ∀ q ∈ inner, Promise file q) : Promise file (.node .whileStmt a b inner) := by
  obtain ⟨c₁, ps₁, rs₁, hkeyword, htail₁, rfl⟩ := reads_then.mp h
  obtain ⟨-, -, rfl⟩ := (reads_keyword rfl).mp hkeyword
  obtain ⟨a₂, b₂, inner₂, c₂, rs₂, rfl, hstatement⟩ := exists_of_reads_condition htail₁
  obtain ⟨inner₃, -, rfl⟩ := (Rule.reads_node rfl rfl).mp hstatement
  have hcond : Vetted file _ _ := ih _ (.tail _ (.head _))
  have hbody : Vets file _ _ := ih _ (.tail _ (.tail _ (.head _)))
  exact (Vets.lift hcond).bind fun cond => hbody.bind fun body =>
    (Vets.finish _).bind fun m => .pure _

theorem promise_returnStmt
    (h : scriptGrammar.Reads .outermost Rule.returnStmt.body a (some (b, inner)))
    (ih : ∀ q ∈ inner, Promise file q) : Promise file (.node .returnStmt a b inner) := by
  obtain ⟨c₁, ps₁, rs₁, hkeyword, htail₁, rfl⟩ := reads_then.mp h
  obtain ⟨c₂, ps₂, rs₂, hvalue, hsemicolon, rfl⟩ := reads_then.mp htail₁
  obtain ⟨-, -, rfl⟩ := (reads_keyword rfl).mp hkeyword
  obtain ⟨-, rfl⟩ := reads_literal.mp hsemicolon
  rcases reads_opt.mp hvalue with hvalue | ⟨-, -, rfl⟩
  · obtain ⟨inner, -, rfl⟩ := (Rule.reads_node rfl rfl).mp hvalue
    have hexpr : Vetted file _ _ := ih _ (.tail _ (.head _))
    exact (Vets.lift hexpr).bind fun value => (Vets.finish _).bind fun m => .pure _
  · exact (Vets.finish _ : Vets file [] _).bind fun m => .pure _

theorem promise_breakStmt
    (h : scriptGrammar.Reads .outermost Rule.breakStmt.body a (some (b, inner))) :
    Promise file (.node .breakStmt a b inner) := by
  obtain ⟨c₁, ps₁, rs₁, hkeyword, hsemicolon, rfl⟩ := reads_then.mp h
  obtain ⟨-, -, rfl⟩ := (reads_keyword rfl).mp hkeyword
  obtain ⟨-, rfl⟩ := reads_literal.mp hsemicolon
  exact (Vets.finish _ : Vets file [] _).bind fun m => .pure _

theorem promise_exprStmt
    (h : scriptGrammar.Reads .outermost Rule.exprStmt.body a (some (b, inner)))
    (ih : ∀ q ∈ inner, Promise file q) : Promise file (.node .exprStmt a b inner) := by
  obtain ⟨c₁, ps₁, rs₁, hvalue, hsemicolon, rfl⟩ := reads_then.mp h
  obtain ⟨-, rfl⟩ := reads_literal.mp hsemicolon
  obtain ⟨inner, -, rfl⟩ := (Rule.reads_node rfl rfl).mp hvalue
  have hexpr : Vetted file _ _ := ih _ (.head _)
  exact (Vets.lift hexpr).bind fun value => (Vets.finish _).bind fun m => .pure _

theorem promise_function
    (h : scriptGrammar.Reads .outermost Rule.function.body a (some (b, inner)))
    (ih : ∀ q ∈ inner, Promise file q) : Promise file (.node .function a b inner) := by
  obtain ⟨c₁, ps₁, rs₁, hkeyword, htail₁, rfl⟩ := reads_then.mp h
  obtain ⟨c₂, ps₂, rs₂, hname, htail₂, rfl⟩ := reads_then.mp htail₁
  obtain ⟨c₃, ps₃, rs₃, hopen, htail₃, rfl⟩ := reads_then.mp htail₂
  obtain ⟨c₄, ps₄, rs₄, hparams, htail₄, rfl⟩ := reads_then.mp htail₃
  obtain ⟨c₅, ps₅, rs₅, hclose, hblock, rfl⟩ := reads_then.mp htail₄
  obtain ⟨-, -, rfl⟩ := (reads_keyword rfl).mp hkeyword
  obtain ⟨-, -, rfl⟩ := reads_identifier.mp hname
  obtain ⟨-, rfl⟩ := reads_literal.mp hopen
  obtain ⟨-, rfl⟩ := reads_literal.mp hclose
  obtain ⟨inner₅, -, rfl⟩ := (Rule.reads_node rfl rfl).mp hblock
  rcases reads_opt.mp hparams with hparams | ⟨-, -, rfl⟩
  · obtain ⟨names, hlist, rfl⟩ := (Rule.reads_node rfl rfl).mp hparams
    have hnames : integersOf names = [] := by
      refine integersOf_eq_nil (forall_of_reads_list (fun c c' qs hq => ?_) hlist)
      obtain ⟨-, -, rfl⟩ := reads_identifier.mp hq
      exact List.forall_mem_singleton.mpr rfl
    have hbody : Vets file _ _ := ih _ (.tail _ (.tail _ (.tail _ (.head _))))
    constructor
    · show Vets file (integersOf names ++ integersOf [_]) _
      rw [hnames]
      exact hbody.bind fun body => .pure _
    · intro i f j hf
      obtain ⟨body, i₁, -, hend⟩ := bind_eq_ok hf
      cases hend
      exact ⟨rfl, rfl, by simp [Pair.inner, Pair.rule]⟩
  · have hbody : Vets file _ _ := ih _ (.tail _ (.tail _ (.head _)))
    constructor
    · exact hbody.bind fun body => .pure _
    · intro i f j hf
      obtain ⟨body, i₁, -, hend⟩ := bind_eq_ok hf
      cases hend
      exact ⟨rfl, rfl, rfl⟩

end Statements

/-- Every pair that was left by reading keeps the promise of its rule. -/
theorem promise_of_node {c₀ : Cursor} {p : Pair Rule} (hp : Node c₀ p) (file : String) :
    Promise file p := by
  -- The induction is on the pairs inside a pair; each rule has a lemma of its own.
  induction hp with
  | @intro r a b inner hstart hread hinner ih =>
    have hbody := (Node.intro hstart hread hinner).reads_body
    cases r with
    | integer => exact promise_integer hread
    | boolean => exact promise_boolean hread
    | identifier => exact promise_identifier hread
    | expression => exact promise_expression (hbody rfl rfl) ih
    | assignment => exact promise_assignment (hbody rfl rfl) ih
    | equality => exact promise_chain (j := 1) (by decide) (hbody rfl rfl) ih
    | relational => exact promise_chain (j := 2) (by decide) (hbody rfl rfl) ih
    | additive => exact promise_chain (j := 3) (by decide) (hbody rfl rfl) ih
    | multiplicative => exact promise_chain (j := 4) (by decide) (hbody rfl rfl) ih
    | unary => exact promise_unary (hbody rfl rfl) ih
    | primary => exact promise_primary (hbody rfl rfl) ih
    | call => exact promise_call (hbody rfl rfl) ih
    | args => exact promise_args (hbody rfl rfl) ih
    | statement => exact promise_statement (hbody rfl rfl) ih
    | block => exact promise_block (hbody rfl rfl) ih
    | ifStmt => exact promise_ifStmt (hbody rfl rfl) ih
    | elseClause => exact promise_elseClause (hbody rfl rfl) ih
    | whileStmt => exact promise_whileStmt (hbody rfl rfl) ih
    | returnStmt => exact promise_returnStmt (hbody rfl rfl) ih
    | breakStmt => exact promise_breakStmt (hbody rfl rfl)
    | exprStmt => exact promise_exprStmt (hbody rfl rfl) ih
    | function => exact promise_function (hbody rfl rfl) ih
    | _ => trivial

/-! ### Programs -/

section Programs

variable {file : String} {qs : List (Pair Rule)} {last : Pair Rule}

theorem Promise.function {p : Pair Rule} (h : Promise file p) (hp : p.rule = .function) :
    Vets file (integers p) (readFunction file p) ∧
      ∀ i f j, readFunction file p i = .ok (f, j) → StandsFor file p f := by
  unfold Promise at h
  rw [hp] at h
  exact h

theorem readFunctions_cons {q : Pair Rule} (hq : q.rule = .function) (rest : List (Pair Rule)) :
    readFunctions file (q :: rest) = (do
      let f ← readFunction file q
      let fs ← readFunctions file rest
      return f :: fs) := by
  rw [readFunctions, if_neg (by rw [hq]; decide)]

theorem readFunctions_eoi (hlast : last.rule = .eoi) :
    readFunctions file [last] = (pure [] : Numbering (List Function)) := by
  rw [readFunctions, if_pos hlast, readFunctions]

theorem vets_readFunctions (hlast : last.rule = .eoi) (hrule : ∀ q ∈ qs, q.rule = .function)
    (hqs : ∀ q ∈ qs, Promise file q) :
    Vets file (integersOf qs) (readFunctions file (qs ++ [last])) := by
  induction qs with
  | nil =>
    rw [List.nil_append, readFunctions_eoi hlast]
    exact .pure []
  | cons q qs ih =>
    obtain ⟨hq, hqs⟩ := List.forall_mem_cons.mp hqs
    obtain ⟨hfirst, hrest⟩ := List.forall_mem_cons.mp hrule
    rw [List.cons_append, readFunctions_cons hfirst]
    exact (hq.function hfirst).1.bind fun f => (ih hrest hqs).andThen fun fs => .pure _

theorem standsFor_of_readFunctions {fs : List Function} {i j : Nat} (hlast : last.rule = .eoi)
    (hrule : ∀ q ∈ qs, q.rule = .function) (hqs : ∀ q ∈ qs, Promise file q)
    (h : readFunctions file (qs ++ [last]) i = .ok (fs, j)) :
    List.Forall₂ (StandsFor file) qs fs := by
  induction qs generalizing fs i j with
  | nil =>
    rw [List.nil_append, readFunctions_eoi hlast] at h
    cases h
    exact .nil
  | cons q qs ih =>
    obtain ⟨hq, hqs⟩ := List.forall_mem_cons.mp hqs
    obtain ⟨hfirst, hrest⟩ := List.forall_mem_cons.mp hrule
    rw [List.cons_append, readFunctions_cons hfirst] at h
    obtain ⟨f, i₁, hf, h₁⟩ := bind_eq_ok h
    obtain ⟨fs, i₂, hfs, h₂⟩ := bind_eq_ok h₁
    cases h₂
    exact .cons ((hq.function hfirst).2 i f i₁ hf) (ih hrest hqs hfs)

/-- A program is a list of functions and the end of the text. -/
theorem exists_functions_of_reads {c c' : Cursor} {ps : List (Pair Rule)}
    (h : Rule.program.Reads c (some (c', ps))) :
    ∃ functions a b, ps = [.node .program c c' (functions ++ [.node .eoi a b []])] ∧
      ∀ q ∈ functions, q.rule = .function := by
  obtain ⟨inner, hbody, rfl⟩ := (Rule.reads_node rfl rfl).mp h
  obtain ⟨c₁, ps₁, rs₁, hstart, htail, rfl⟩ := reads_then.mp hbody
  obtain ⟨c₂, functions, rs₂, hfunctions, heoi, rfl⟩ := reads_then.mp htail
  cases hstart
  obtain ⟨inner, hstop, rfl⟩ := (Rule.reads_node rfl rfl).mp heoi
  cases hstop
  exact ⟨functions, _, _, rfl, forall_of_reads_many (rule_of_reads rfl) hfunctions⟩

end Programs

/-- The functions that were read in a program. -/
def functionsOf (pairs : List (Pair Rule)) : List (Pair Rule) :=
  (pairs.flatMap Pair.inner).filter fun q => q.rule = .function

/-- What can become of a script that the grammar accepts. -/
inductive Decision (s : Script) (pairs : List (Pair Rule)) : Except Refusal Program → Prop where
  /-- The script is refused for an integer that is too large, the first such integer in the text,
      and the refusal points at this integer. -/
  | tooLarge (t : Pair Rule) : t ∈ integersOf pairs → isTooLarge t = true →
      (∀ u ∈ integersOf pairs, isTooLarge u = true → u = t ∨ t.stop.Before u.start) →
      (t.origin s.name).Covers s t.text →
        Decision s pairs (.error (.tooLarge t.text (t.origin s.name)))
  | noFunctions : functionsOf pairs = [] → Decision s pairs (.error (.noFunctions s.name))
  /-- There is one function for each that was read, in their order. -/
  | program (fs : List Function) : (∀ t ∈ integersOf pairs, isTooLarge t = false) →
      functionsOf pairs ≠ [] → List.Forall₂ (StandsFor s.name) (functionsOf pairs) fs →
        Decision s pairs (.ok ⟨fs⟩)

/-- Of integers in the order of the text, the first to be found is the first in the text. -/
theorem InOrder.first {c c' : Cursor} {ts : List (Pair Rule)} {t : Pair Rule}
    (h : InOrder c ts c') (hfind : ts.find? isTooLarge = some t) :
    ∀ u ∈ ts, isTooLarge u = true → u = t ∨ t.stop.Before u.start := by
  obtain ⟨-, before, after, rfl, hbefore⟩ := List.find?_eq_some_iff_append.mp hfind
  intro u hu hlarge
  rcases List.mem_append.mp hu with hu | hu
  · have hsmall := hbefore u hu
    rw [hlarge] at hsmall
    cases hsmall
  rcases List.mem_cons.mp hu with rfl | hu
  · exact Or.inl rfl
  · have hpairwise := (List.pairwise_append.mp h.pairwise).2.1
    exact Or.inr ((List.pairwise_cons.mp hpairwise).1 u hu)

end Reader

namespace Program

variable {s : Script} {pairs : List (Pair Rule)}

theorem ofScript_of_error {e : Refusal} (hblank : s.isBlank = false)
    (hparse : scriptGrammar.parse .program s.content = .ok pairs)
    (h : Reader.readFunctions s.name (pairs.flatMap Pair.inner) 1 = .error e) :
    ofScript s = .error e := by
  simp [ofScript, hblank, hparse, StateT.run, h]

theorem ofScript_of_ok {fs : List Function} {j : Nat} (hblank : s.isBlank = false)
    (hparse : scriptGrammar.parse .program s.content = .ok pairs)
    (h : Reader.readFunctions s.name (pairs.flatMap Pair.inner) 1 = .ok (fs, j)) :
    ofScript s = if fs = [] then .error (.noFunctions s.name) else .ok ⟨fs⟩ := by
  cases fs with
  | nil => simp [ofScript, hblank, hparse, StateT.run, h]
  | cons f fs => simp [ofScript, hblank, hparse, StateT.run, h]

end Program

open Reader in
/-- **Whatever the grammar reads becomes a program**, unless an integer is too large or there is no
    function. -/
theorem reader_fits_grammar (s : Script) (pairs : List (Pair Rule)) (hblank : s.isBlank = false)
    (hparse : scriptGrammar.parse .program s.content = .ok pairs) :
    Decision s pairs (Program.ofScript s) := by
  obtain ⟨c', hreads⟩ := parse_program_eq_ok.mp hparse
  have horder := inOrder_of_reads hreads c' pairs rfl
  obtain ⟨functions, a, b, hpairs, hrule⟩ := exists_functions_of_reads hreads
  have hinner : pairs.flatMap Pair.inner = functions ++ [.node .eoi a b []] := by
    rw [hpairs, List.flatMap_singleton]
    rfl
  have hintegers : integersOf pairs = integersOf functions := by
    rw [hpairs, integersOf_singleton, integers_node (by decide), integersOf_append]
    exact List.append_nil _
  have hfunctions : functionsOf pairs = functions := by
    rw [functionsOf, hinner, List.filter_append, List.filter_eq_self.mpr (by simpa using hrule)]
    exact List.append_nil _
  have hpromise (q) (hq : q ∈ functions) : Promise s.name q := by
    rw [hpairs] at hreads
    have hprogram := Rule.node_of_reads hreads (.head _)
    exact promise_of_node (hprogram.of_inner (List.mem_append_left _ hq)) s.name
  have hvetted : Vetted s.name (integersOf pairs)
      (readFunctions s.name (pairs.flatMap Pair.inner) 1) := by
    rw [hintegers, hinner]
    exact vets_readFunctions rfl hrule hpromise 1
  unfold Vetted at hvetted
  cases hfind : (integersOf pairs).find? isTooLarge with
  | some t =>
    rw [hfind] at hvetted
    rw [Program.ofScript_of_error hblank hparse hvetted]
    have ht := List.mem_of_find?_eq_some hfind
    obtain ⟨hstart, hstop, -⟩ := horder.within t ht
    exact .tooLarge t ht (List.find?_some hfind) (horder.first hfind)
      (covers_originTo hstart hstop)
  | none =>
    rw [hfind] at hvetted
    obtain ⟨⟨fs, j⟩, hread⟩ := hvetted
    have hstands : List.Forall₂ (StandsFor s.name) (functionsOf pairs) fs := by
      rw [hinner] at hread
      rw [hfunctions]
      exact standsFor_of_readFunctions rfl hrule hpromise hread
    rw [Program.ofScript_of_ok hblank hparse hread]
    by_cases hempty : fs = []
    · rw [if_pos hempty]
      rw [hempty, List.forall₂_nil_right_iff] at hstands
      exact .noFunctions hstands
    · rw [if_neg hempty]
      refine .program fs (by simpa using hfind) ?_ hstands
      intro hnil
      rw [hnil, List.forall₂_nil_left_iff] at hstands
      exact hempty hstands

/-- A script with two integers that are too large, after one that is not. -/
def hugeScript : Script :=
  .ofSource "huge" "fn f() \x7b return 9223372036854775807; \x7d
    fn g(a) \x7b if (a) a = f(-9223372036854775808, 99999999999999999999); \x7d"

open Reader in
theorem reader_fits_grammar_huge :
    hugeScript.isBlank = false ∧
      ∃ pairs, scriptGrammar.parse .program hugeScript.content = .ok pairs ∧
      ∃ t ∈ integersOf pairs, t.text = "9223372036854775808" ∧
        (∀ u ∈ integersOf pairs, isTooLarge u = true → u = t ∨ t.stop.Before u.start) ∧
        Program.ofScript hugeScript = .error (.tooLarge t.text (t.origin "huge")) := by
  have hblank : hugeScript.isBlank = false := by decide +kernel
  have hparses : (scriptGrammar.parse .program hugeScript.content).toOption.isSome = true := by
    decide +kernel
  have hdigits : (match Program.ofScript hugeScript with
      | .error (.tooLarge digits _) => digits
      | _ => "") = "9223372036854775808" := by decide +kernel
  have hne : "" ≠ "9223372036854775808" := by decide
  cases hparse : scriptGrammar.parse .program hugeScript.content with
  | error t =>
    rw [hparse] at hparses
    cases hparses
  | ok pairs =>
    refine ⟨hblank, pairs, rfl, ?_⟩
    have hdecision := reader_fits_grammar hugeScript pairs hblank hparse
    cases hx : Program.ofScript hugeScript with
    | ok p =>
      rw [hx] at hdigits
      exact absurd hdigits hne
    | error e =>
      rw [hx] at hdigits hdecision
      cases hdecision with
      | tooLarge t ht hlarge hfirst hcovers => exact ⟨t, ht, hdigits, hfirst, rfl⟩
      | noFunctions hnone => exact absurd hdigits hne

end JumpCode
