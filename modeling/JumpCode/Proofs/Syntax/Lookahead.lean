import JumpCode.Proofs.Syntax.Lexical

/-!
# What the next token tells

The grammar commits to the first alternative that can be read, so the alternatives before the right
one must fail, and a repetition must stop where its parts do.  Both are decided by the token at the
cursor: a rule fails where a token stands that it cannot begin with, and what follows an expression
(`Follows`) cannot continue it.  So a repetition or a list reads exactly the tokens laid out for it.
-/

namespace JumpCode

open Peg Grammar

/-! ### The first character -/

section Heads

variable {c c' : Cursor} {t : Token} {ts : List Token}

theorem Cursor.Over.head? {w : List Char} (h : c.Over w c') (hw : w ≠ []) :
    c.rest.head? = w.head? := by
  obtain ⟨x, xs, rfl⟩ := List.exists_cons_of_ne_nil hw
  rw [h.rest]
  rfl

theorem Layout.head? (h : Layout (t :: ts) c.rest) : c.rest.head? = t.text.toList.head? := by
  obtain ⟨x, xs, hrest, hhead, -⟩ := h.exists_head
  rw [hrest, hhead]
  rfl

/-- A token stands in the way of a literal that begins otherwise. -/
theorem Layout.not_over {s : String} (h : Layout (t :: ts) c.rest) (hs : s.toList ≠ [])
    (hne : t.text.toList.head? ≠ s.toList.head?) (c' : Cursor) : ¬ c.Over s.toList c' := by
  intro hover
  exact hne (h.head?.symm.trans (hover.head? hs))

theorem Layout.head_word {w : String} {x : Char} (h : Layout (.word w :: ts) c.rest)
    (hx : Rule.isWordChar x = false) : w.toList.head? ≠ some x := by
  obtain ⟨y, ys, -, hhead, hy⟩ := h.exists_head
  intro hw
  obtain rfl : y = x := Option.some.inj (hhead.symm.trans hw)
  cases hx.symm.trans hy

theorem Layout.isValid {r : List Char} (h : Layout (t :: ts) r) : t.isValid = true := by
  cases h with
  | cons hvalid _ _ _ => exact hvalid

theorem Layout.word_of_sign {s : String} (h : Layout (.sign s :: ts) c.rest) : c.word = "" := by
  obtain ⟨x, xs, hrest, -, hx⟩ := h.exists_head
  have hx : Rule.isWordChar x = false := hx
  simp [Cursor.word, hrest, hx]

theorem Layout.word_of_nil (h : Layout [] c.rest) : c.word = "" := by
  generalize hr : c.rest = r at h
  cases h
  simp [Cursor.word, hr]

/-- Before a token there may be a gap, but nothing else. -/
theorem Layout.head_before {x : Char} (h : Layout (t :: ts) c.skip.rest)
    (hx : t.text.toList.head? ≠ some x) (hgap : isGapChar x = false) (hslash : x ≠ '/') :
    c.rest.head? ≠ some x := by
  obtain ⟨g, hrest, hg⟩ := c.exists_gap
  rw [hrest]
  cases g with
  | nil => rwa [List.nil_append, h.head?]
  | cons y g =>
    intro hy
    obtain rfl : y = x := Option.some.inj hy
    cases hg with
    | blank hblank _ => cases hgap.symm.trans hblank
    | comment _ _ => exact hslash rfl
    | last _ _ => exact hslash rfl

end Heads

/-! ### Rules that fail -/

section Failures

variable {c : Cursor} {r : Rule}

theorem fails_keyword {w : String} (hr : r.keyword? = some w) (h : c.word ≠ w) : r.Reads c none :=
  Rule.reads_none fun _ _ hread => h ((reads_keyword hr).mp hread).1

theorem fails_identifier (h : isName c.word = false) : Rule.identifier.Reads c none := by
  refine Rule.reads_none fun _ _ hread => ?_
  rw [(reads_identifier.mp hread).1] at h
  cases h

theorem fails_boolean (h : c.word ∉ ["true", "false"]) : Rule.boolean.Reads c none :=
  Rule.reads_none fun _ _ hread => h (reads_boolean.mp hread).1

theorem fails_integer (h : c.word.toList.head?.any Char.isDigit = false) :
    Rule.integer.Reads c none := by
  refine Rule.reads_none fun c' ps hread => ?_
  obtain ⟨hne, hover, -⟩ := reads_integer.mp hread
  obtain ⟨x, xs, hxs⟩ := List.exists_cons_of_ne_nil hne
  have hall : c.digits.all Char.isDigit = true := List.all_takeWhile
  have hx : x.isDigit = true := List.all_eq_true.mp hall x (by simp [hxs])
  have hrest : c.rest = x :: (xs ++ c'.rest) := by rw [hover.rest, hxs]; rfl
  have hword : Rule.isWordChar x = true := isWordChar_of_isDigit hx
  simp [Cursor.word, hrest, hword, hx] at h

theorem fails_unaryOp (h : c.rest.head? ≠ some '-' ∧ c.rest.head? ≠ some '!') :
    Rule.unaryOp.Reads c none := by
  refine Rule.reads_none fun c' ps hread => ?_
  obtain ⟨op, hover, -⟩ := reads_unaryOp.mp hread
  cases op with
  | minus => exact h.1 (hover.head? (by decide))
  | not => exact h.2 (hover.head? (by decide))

/-- No expression begins where there is neither a word nor one of three signs. -/
theorem fails_expression (hword : c.word = "")
    (hhead : c.rest.head? ≠ some '-' ∧ c.rest.head? ≠ some '!' ∧ c.rest.head? ≠ some '(') :
    Rule.expression.Reads c none := by
  have hidentifier : Rule.identifier.Reads c none := fails_identifier (by rw [hword]; decide)
  have hparen : scriptGrammar.Reads .outermost (.literal "(") c none :=
    reads_literal_none fun c' hover => hhead.2.2 (hover.head? (by decide))
  have hcall : Rule.call.Reads c none := .ruleNone rfl (.seqLeft hidentifier)
  have hprimary : Rule.primary.Reads c none := by
    refine .ruleNone rfl (.altRight (fails_integer (by rw [hword]; decide)) ?_)
    refine .altRight (fails_boolean (by rw [hword]; decide)) ?_
    exact .altRight hcall (.altRight hidentifier (.seqLeft hparen))
  have hunary : Rule.unary.Reads c none := by
    refine .ruleNone rfl (.altRight (.seqLeft (fails_unaryOp ⟨hhead.1, hhead.2.1⟩)) hprimary)
  have hmultiplicative : Rule.multiplicative.Reads c none := .ruleNone rfl (.seqLeft hunary)
  have hadditive : Rule.additive.Reads c none := .ruleNone rfl (.seqLeft hmultiplicative)
  have hrelational : Rule.relational.Reads c none := .ruleNone rfl (.seqLeft hadditive)
  have hequality : Rule.equality.Reads c none := .ruleNone rfl (.seqLeft hrelational)
  have hassignment : Rule.assignment.Reads c none := .ruleNone rfl (.seqLeft hidentifier)
  exact .ruleNone rfl (.altRight hassignment hequality)

end Failures

/-! ### How expressions begin and end -/

/-- Whether an expression may begin with a token. -/
def Token.opensExpr : Token → Bool
  | .word w => !(["fn", "if", "else", "while", "return", "break"].contains w)
  | .sign s => ["-", "!", "("].contains s

namespace Expr.Spells

variable {k : Nat} {e : Expr} {ts : List Token}

theorem keyword_of_isName {x : String} (h : isName x = true) : x ∉ keywords := by
  obtain ⟨-, -, -, -, -, hkeyword⟩ := isName_iff.mp h
  exact hkeyword

theorem opensExpr_of_isName {x : String} (h : isName x = true) :
    (Token.word x).opensExpr = true := by
  have hkeyword := keyword_of_isName h
  simp only [keywords, List.mem_cons, List.not_mem_nil, or_false, not_or] at hkeyword
  simp [Token.opensExpr, hkeyword]

theorem opensExpr_of_natural? {w : String} {n : Nat} (h : Text.natural? w.toList = some n) :
    (Token.word w).opensExpr = true := by
  obtain ⟨-, hdigits, -⟩ := Text.natural?_eq_some.mp h
  rw [Token.opensExpr, Bool.not_eq_true', Bool.eq_false_iff]
  intro hmem
  simp only [List.contains_eq_mem, List.mem_cons, List.not_mem_nil, or_false,
    decide_eq_true_eq] at hmem
  rcases hmem with rfl | rfl | rfl | rfl | rfl | rfl <;> revert hdigits <;> decide

/-- An expression begins with a word or with one of three signs. -/
theorem exists_head (h : e.Spells k ts) : ∃ t us, ts = t :: us ∧ t.opensExpr = true := by
  induction h with
  | int hdigits _ => exact ⟨_, _, rfl, opensExpr_of_natural? hdigits⟩
  | @bool _ _ b => exact ⟨_, _, rfl, by cases b <;> decide⟩
  | ident hname => exact ⟨_, _, rfl, opensExpr_of_isName hname⟩
  | @unary _ _ op _ _ _ _ _ => exact ⟨_, _, rfl, by cases op <;> decide⟩
  | binary _ _ _ ihl _ =>
    obtain ⟨t, us, rfl, ht⟩ := ihl
    exact ⟨t, _, rfl, ht⟩
  | assign hname _ _ => exact ⟨_, _, rfl, opensExpr_of_isName hname⟩
  | call _ hname _ _ => exact ⟨_, _, rfl, opensExpr_of_isName hname⟩
  | paren _ _ => exact ⟨_, _, rfl, by decide⟩

theorem level_pos (op : BinaryOp) : 1 ≤ op.level ∧ op.level ≤ 4 := by
  cases op <;> decide

/-- Only an assignment has an equals sign after a first word. -/
theorem ne_assign (h : e.Spells k ts) (hk : 1 ≤ k) (x : String) (vs : List Token) :
    ts ≠ .word x :: .sign "=" :: vs := by
  induction h generalizing vs with
  | int _ _ => nofun
  | bool => nofun
  | ident _ => nofun
  | unary _ _ _ => nofun
  | @binary _ _ op l r ts us _ hl _ ihl _ =>
    obtain ⟨t, ts, rfl, -⟩ := hl.exists_head
    intro heq
    cases ts with
    | nil =>
      obtain ⟨-, hsecond⟩ := List.cons.inj heq
      have hop : op.symbol = "=" := Token.sign.inj (List.cons.inj hsecond).1
      exact absurd hop (by cases op <;> decide)
    | cons u ts =>
      obtain ⟨rfl, hsecond⟩ := List.cons.inj heq
      obtain ⟨rfl, -⟩ := List.cons.inj hsecond
      exact ihl (level_pos op).1 ts rfl
  | assign _ _ _ => cases hk
  | call _ _ _ _ =>
    intro heq
    have hsecond : "(" = "=" := Token.sign.inj (List.cons.inj (List.cons.inj heq).2).1
    exact absurd hsecond (by decide)
  | paren _ _ => nofun

end Expr.Spells

/-- The signs after an expression of level `k`: closing marks, and operators that bind less
    tightly. -/
def stops (k : Nat) : List String :=
  [")", ";", ","] ++ (BinaryOp.all.filter fun op => op.level < k).map BinaryOp.symbol

/-- The tokens after an expression of level `k`. -/
def Follows (k : Nat) (us : List Token) : Prop := ∃ s vs, us = .sign s :: vs ∧ s ∈ stops k

theorem Follows.mono {j k : Nat} {us : List Token} (h : Follows j us) (hjk : j ≤ k) :
    Follows k us := by
  obtain ⟨s, vs, rfl, hs⟩ := h
  refine ⟨s, vs, rfl, ?_⟩
  simp only [stops, List.mem_append, List.mem_map, List.mem_filter, decide_eq_true_eq] at hs ⊢
  rcases hs with hs | ⟨op, ⟨hall, hlevel⟩, rfl⟩
  · exact Or.inl hs
  · exact Or.inr ⟨op, ⟨hall, Nat.lt_of_lt_of_le hlevel hjk⟩, rfl⟩

theorem follows_op {op : BinaryOp} {k : Nat} (h : op.level < k) (vs : List Token) :
    Follows k (.sign op.symbol :: vs) := by
  refine ⟨_, _, rfl, ?_⟩
  simp only [stops, List.mem_append, List.mem_map, List.mem_filter, decide_eq_true_eq]
  exact Or.inr ⟨op, ⟨by cases op <;> decide, h⟩, rfl⟩

/-- No operator of a level is read where an expression of that level ends. -/
theorem fails_op {j : Nat} (hj : 1 ≤ j ∧ j ≤ 4) {c : Cursor} {us : List Token}
    (h : Layout us c.rest) (hus : Follows j us) : (opRule j).Reads c none := by
  obtain ⟨s, vs, rfl, hs⟩ := hus
  refine Rule.reads_none fun c' ps hread => ?_
  obtain ⟨op, hlevel, hover, -⟩ := exists_of_reads_op hj hread
  have hhead : s.toList.head? = op.symbol.toList.head? :=
    h.head?.symm.trans (hover.head? (by cases op <;> decide))
  -- The first characters are enough: no sign that may follow begins like an operator of the level.
  subst hlevel
  have hdisjoint : ∀ s ∈ stops op.level, s.toList.head? ≠ op.symbol.toList.head? := by
    cases op <;> decide
  exact hdisjoint s hs hhead

/-! ### Repetitions -/

/-- If the tokens of each `x` can be read in one round, and no round can be read after the last, the
    repetition reads the tokens of all of them. -/
theorem reads_rounds {ι : Type} {a : Pattern Rule} (tokens : ι → List Token)
    (next : List Token → Prop) (R : ι → Pair Rule → Prop) {xs : List ι} {us : List Token}
    (hround : ∀ x ∈ xs, ∀ c vs, Layout (tokens x ++ vs) c.rest → next vs → ∃ c' q,
      scriptGrammar.Reads .outermost a c (some (c', [q])) ∧ Layout vs c'.skip.rest ∧ R x q)
    (hnext : ∀ ys, ys <:+ xs → next (ys.flatMap tokens ++ us))
    (hstop : ∀ c, Layout us c.rest → scriptGrammar.Reads .outermost a c none)
    {c : Cursor} (h : Layout (xs.flatMap tokens ++ us) c.skip.rest) :
    ∃ (c' : Cursor) (parts : List (ι × Pair Rule)),
      scriptGrammar.Reads .outermost (.many a) c.skip (some (c', parts.map Prod.snd)) ∧
        Layout us c'.skip.rest ∧ parts.map Prod.fst = xs ∧ ∀ p ∈ parts, R p.1 p.2 := by
  have hmore : ∃ (c' : Cursor) (parts : List (ι × Pair Rule)),
      scriptGrammar.Reads .outermost (.more a) c (some (c', parts.map Prod.snd)) ∧
        Layout us c'.skip.rest ∧ parts.map Prod.fst = xs ∧ ∀ p ∈ parts, R p.1 p.2 := by
    induction xs generalizing c with
    | nil => exact ⟨c, [], .moreNone (hstop c.skip h), h, rfl, List.forall_mem_nil _⟩
    | cons x xs ih =>
      obtain ⟨hx, hxs⟩ := List.forall_mem_cons.mp hround
      rw [List.flatMap_cons, List.append_assoc] at h
      obtain ⟨c₁, q, hfirst, hlayout, hR⟩ := hx _ _ h (hnext xs (List.suffix_cons x xs))
      obtain ⟨c', parts, hmore, hlayout', rfl, hparts⟩ :=
        ih hxs (fun ys hys => hnext ys (hys.trans (List.suffix_cons x xs))) hlayout
      refine ⟨c', (x, q) :: parts, ?_, hlayout', rfl, List.forall_mem_cons.mpr ⟨hR, hparts⟩⟩
      exact .more hfirst hmore
  obtain ⟨c₁, parts, hread, hlayout, hxs, hparts⟩ := hmore
  obtain ⟨c', hmany, hskip⟩ := exists_many_of_more hread
  exact ⟨c', parts, hmany, by rwa [hskip], hxs, hparts⟩

/-- Whether a list with commas goes on or ends here. -/
def ListNext (us : List Token) : Prop := ∃ s vs, us = .sign s :: vs ∧ (s = "," ∨ s = ")")

/-- If the tokens of each item can be read where a comma or a closing parenthesis follows, a list of
    them with commas can be read before a closing parenthesis. -/
theorem reads_list {ι : Type} (item : Rule) (tokens : ι → List Token) (R : ι → Pair Rule → Prop)
    {x : ι} {xs : List ι} {vs : List Token}
    (hitem : ∀ y ∈ x :: xs, ∀ c us, Layout (tokens y ++ us) c.rest → ListNext us → ∃ c' q,
      item.Reads c (some (c', [q])) ∧ Layout us c'.skip.rest ∧ R y q)
    {c : Cursor} (h : Layout (commas ((x :: xs).map tokens) ++ .sign ")" :: vs) c.rest) :
    ∃ (c' : Cursor) (parts : List (ι × Pair Rule)), scriptGrammar.Reads .outermost
        (.seq (.rule item) (.many (.seq (.literal ",") (.rule item)))) c
        (some (c', parts.map Prod.snd)) ∧
      Layout (.sign ")" :: vs) c'.skip.rest ∧ parts.map Prod.fst = x :: xs ∧
      ∀ p ∈ parts, R p.1 p.2 := by
  obtain ⟨hx, hxs⟩ := List.forall_mem_cons.mp hitem
  rw [List.map_cons, commas_cons, List.flatMap_map, List.append_assoc] at h
  have hlist (ys : List ι) :
      ListNext (ys.flatMap (fun y => .sign "," :: tokens y) ++ .sign ")" :: vs) := by
    cases ys with
    | nil => exact ⟨")", vs, rfl, Or.inr rfl⟩
    | cons y ys => exact ⟨",", _, rfl, Or.inl rfl⟩
  obtain ⟨c₁, q, hfirst, hlayout, hq⟩ := hx c _ h (hlist xs)
  obtain ⟨c', parts, hrest, hlayout', hfst, hparts⟩ := reads_rounds
    (a := .seq (.literal ",") (.rule item)) (fun y => .sign "," :: tokens y) ListNext R
    (fun y hy c us h hus => by
      obtain ⟨c₁, hover, hlayout⟩ := h.at_sign
      obtain ⟨c', q, hread, hlayout', hq⟩ := hxs y hy _ us hlayout hus
      exact ⟨c', q, .seq (reads_literal.mpr ⟨hover, rfl⟩) hread, hlayout', hq⟩)
    (fun ys _ => hlist ys)
    (fun c h => .seqLeft (reads_literal_none (h.not_over (by decide) (by decide))))
    hlayout
  refine ⟨c', (x, q) :: parts, .seq hfirst hrest, hlayout', ?_, ?_⟩
  · rw [List.map_cons, hfst]
  · exact List.forall_mem_cons.mpr ⟨hq, hparts⟩

end JumpCode
