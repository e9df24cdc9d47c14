import JumpCode.Proofs.Ast.Numbering
import JumpCode.Proofs.Syntax.ExprCompleteness

/-!
# Statements that are spelled are read

The tokens of a statement, of a function and of a program are read as what they spell.  The first
token of a statement tells which rule reads it.  A conditional without `else` is read as such
because no `else` follows: what comes after a statement that ends in one is said in
`StmtReadsBack`.
-/

namespace JumpCode

open Peg Grammar

/-! ### Statements -/

section Statements

variable {file : String} {c : Cursor} {us : List Token}

/-- The pair is read as the statement, wherever the numbers are. -/
def ReadAs (file : String) (s : Stmt) (q : Pair Rule) : Prop :=
  ∀ i, ∃ s' j, Reader.readStmt file q i = .ok (s', j) ∧ s'.bare = s.bare

/-- Wherever the tokens are laid out, the rule reads them, and the reader makes the statement of
    them.  No `else` may follow a statement that would take it. -/
def StmtReadsBack (file : String) (r : Rule) (s : Stmt) (ts : List Token) : Prop :=
  ∀ c us, Layout (ts ++ us) c.rest → (s.endsOpen = true → us.head? ≠ some (.word "else")) →
    ∃ c' q, r.Reads c (some (c', [q])) ∧ Layout us c'.skip.rest ∧ ReadAs file s q

/-- A condition in parentheses is read before whatever can be read after it. -/
theorem reads_condition {e : Expr} {ts : List Token} (file : String) (h : e.Spells 0 ts)
    (hlayout : Layout (.sign "(" :: (ts ++ .sign ")" :: us)) c.rest) :
    ∃ (c₁ : Cursor) (q : Pair Rule) (e' : Expr), Layout us c₁.skip.rest ∧
      Reader.readExpr file q = .ok e' ∧ e'.bare = e.bare ∧
      ∀ b c' rs, scriptGrammar.Reads .outermost b c₁.skip (some (c', rs)) →
        scriptGrammar.Reads .outermost
          (.seq (.literal "(") (.seq (.rule .expression) (.seq (.literal ")") b))) c
          (some (c', q :: rs)) := by
  obtain ⟨c₁, hover₁, hrest₁⟩ := hlayout.at_sign
  obtain ⟨c₂, q, e', hread, hrest₂, he', hbare⟩ :=
    readsBack_expression file h c₁.skip _ hrest₁ ⟨")", us, rfl, by decide⟩
  obtain ⟨c₃, hover₃, hrest₃⟩ := hrest₂.at_sign
  refine ⟨c₃, q, e', hrest₃, he', hbare, fun b c' rs hb => ?_⟩
  refine reads_then.mpr ⟨c₁, [], q :: rs, reads_literal.mpr ⟨hover₁, rfl⟩, ?_, rfl⟩
  refine reads_then.mpr ⟨c₂, [q], rs, hread, ?_, rfl⟩
  exact reads_then.mpr ⟨c₃, [], rs, reads_literal.mpr ⟨hover₃, rfl⟩, hb, rfl⟩

theorem reads_keyword_at {r : Rule} {w : String} (hr : r.keyword? = some w)
    (h : Layout (.word w :: us) c.rest) :
    ∃ c' : Cursor, Layout us c'.skip.rest ∧ r.Reads c (some (c', [.node r c c' []])) := by
  obtain ⟨hword, c', hover, hrest⟩ := h.at_word
  exact ⟨c', hrest, (reads_keyword hr).mpr ⟨hword, hover, rfl⟩⟩

theorem reads_semicolon (h : Layout (.sign ";" :: us) c.rest) :
    ∃ c' : Cursor, Layout us c'.skip.rest ∧
      scriptGrammar.Reads .outermost (.literal ";") c (some (c', [])) := by
  obtain ⟨c', hover, hrest⟩ := h.at_sign
  exact ⟨c', hrest, reads_literal.mpr ⟨hover, rfl⟩⟩

theorem fails_elseClause (h : Layout us c.rest) (hus : us.head? ≠ some (.word "else")) :
    Rule.elseClause.Reads c none := by
  refine .ruleNone rfl (.seqLeft (fails_keyword rfl ?_))
  cases us with
  | nil =>
    rw [h.word_of_nil]
    decide
  | cons u us =>
    cases u with
    | sign s =>
      rw [h.word_of_sign]
      decide
    | word w =>
      rw [h.at_word.1]
      rintro rfl
      exact hus rfl

theorem stmtReadsBack_eval {m : Mark} {e : Expr} {ts : List Token} (h : e.Spells 0 ts) :
    StmtReadsBack file .exprStmt (.eval m e) (ts ++ [.sign ";"]) := by
  intro c us hlayout _
  rw [List.append_assoc] at hlayout
  obtain ⟨c₁, q, e', hread, hrest₁, he', hbare⟩ :=
    readsBack_expression file h c _ hlayout ⟨";", us, rfl, by decide⟩
  obtain ⟨c', hrest, hend⟩ := reads_semicolon hrest₁
  refine ⟨c', _, .rule rfl (reads_then.mpr ⟨c₁, [q], [], hread, hend, rfl⟩), hrest, fun i => ?_⟩
  refine ⟨.eval ⟨⟨i⟩, Cursor.originTo file c c'⟩ e', i + 1, ?_, by rw [Stmt.bare, Stmt.bare, hbare]⟩
  exact Reader.bind_of_ok (Reader.lift_of_ok he' i)

theorem stmtReadsBack_ret {m : Mark} :
    StmtReadsBack file .returnStmt (.ret m none) [.word "return", .sign ";"] := by
  intro c us hlayout _
  obtain ⟨c₁, hrest₁, hkeyword⟩ := reads_keyword_at (r := .kwReturn) rfl hlayout
  obtain ⟨c', hrest, hend⟩ := reads_semicolon hrest₁
  have hexpression : Rule.expression.Reads c₁.skip none :=
    fails_expression hrest₁.word_of_sign (by rw [hrest₁.head?]; decide)
  refine ⟨c', .node .returnStmt c c' [.node .kwReturn c c₁ []], ?_, hrest, fun i => ?_⟩
  · refine (Rule.reads_node rfl rfl).mpr ⟨_, ?_, rfl⟩
    refine reads_then.mpr ⟨c₁, _, [], hkeyword, ?_, rfl⟩
    refine reads_then.mpr ⟨c₁.skip, [], [], .optNone hexpression, ?_, rfl⟩
    rw [Cursor.skip_skip]
    exact hend
  · exact ⟨.ret ⟨⟨i⟩, Cursor.originTo file c c'⟩ none, i + 1, rfl, rfl⟩

theorem stmtReadsBack_retValue {m : Mark} {e : Expr} {ts : List Token} (h : e.Spells 0 ts) :
    StmtReadsBack file .returnStmt (.ret m (some e)) (.word "return" :: (ts ++ [.sign ";"])) := by
  intro c us hlayout _
  obtain ⟨c₁, hrest₁, hkeyword⟩ := reads_keyword_at (r := .kwReturn) rfl hlayout
  rw [List.append_eq, List.append_assoc] at hrest₁
  obtain ⟨c₂, q, e', hread, hrest₂, he', hbare⟩ :=
    readsBack_expression file h c₁.skip _ hrest₁ ⟨";", us, rfl, by decide⟩
  obtain ⟨c', hrest, hend⟩ := reads_semicolon hrest₂
  refine ⟨c', .node .returnStmt c c' [.node .kwReturn c c₁ [], q], ?_, hrest, fun i => ?_⟩
  · refine (Rule.reads_node rfl rfl).mpr ⟨_, ?_, rfl⟩
    refine reads_then.mpr ⟨c₁, _, [q], hkeyword, ?_, rfl⟩
    exact reads_then.mpr ⟨c₂, [q], [], .opt hread, hend, rfl⟩
  · refine ⟨.ret ⟨⟨i⟩, Cursor.originTo file c c'⟩ (some e'), i + 1, ?_, ?_⟩
    · exact Reader.bind_of_ok (Reader.lift_of_ok he' i)
    · rw [Stmt.bare, Stmt.bare, Option.map_some, Option.map_some, hbare]

theorem stmtReadsBack_breakLoop {m : Mark} :
    StmtReadsBack file .breakStmt (.breakLoop m none) [.word "break", .sign ";"] := by
  intro c us hlayout _
  obtain ⟨c₁, hrest₁, hkeyword⟩ := reads_keyword_at (r := .kwBreak) rfl hlayout
  obtain ⟨c', hrest, hend⟩ := reads_semicolon hrest₁
  refine ⟨c', .node .breakStmt c c' [.node .kwBreak c c₁ []],
    .rule rfl (reads_then.mpr ⟨c₁, _, [], hkeyword, hend, rfl⟩), hrest, fun i => ?_⟩
  exact ⟨.breakLoop ⟨⟨i⟩, Cursor.originTo file c c'⟩ none, i + 1, rfl, rfl⟩

theorem stmtReadsBack_ifThen {m : Mark} {e : Expr} {t : Stmt} {cs ts : List Token}
    (he : e.Spells 0 cs) (ht : StmtReadsBack file .statement t ts) :
    StmtReadsBack file .ifStmt (.ifThen m e t)
      (.word "if" :: .sign "(" :: (cs ++ .sign ")" :: ts)) := by
  intro c us hlayout helse
  obtain ⟨c₁, hrest₁, hkeyword⟩ := reads_keyword_at (r := .kwIf) rfl hlayout
  obtain ⟨c₂, p, e', hrest₂, hp, hbare, hcondition⟩ :=
    reads_condition file he (by simpa using hrest₁)
  obtain ⟨c₃, q, hthen, hrest₃, hq⟩ := ht c₂.skip us hrest₂ fun _ => helse rfl
  have hnone : Rule.elseClause.Reads c₃.skip none := fails_elseClause hrest₃ (helse rfl)
  have htail := hcondition _ _ _
    (reads_then.mpr ⟨c₃, [q], [], hthen, .optNone (a := .rule .elseClause) hnone, rfl⟩)
  refine ⟨c₃.skip, .node .ifStmt c c₃.skip [.node .kwIf c c₁ [], p, q],
    .rule rfl (reads_then.mpr ⟨c₁, _, _, hkeyword, htail, rfl⟩), by rwa [Cursor.skip_skip],
    fun i => ?_⟩
  obtain ⟨t', j, ht', hbare'⟩ := hq i
  refine ⟨.ifThen ⟨⟨j⟩, Cursor.originTo file c c₃.skip⟩ e' t', j + 1, ?_, ?_⟩
  · exact (Reader.bind_of_ok (Reader.lift_of_ok hp i)).trans (Reader.bind_of_ok ht')
  · rw [Stmt.bare, Stmt.bare, hbare, hbare']

theorem stmtReadsBack_ifElse {m : Mark} {e : Expr} {t f : Stmt} {cs ts fs : List Token}
    (he : e.Spells 0 cs) (ht : StmtReadsBack file .statement t ts) (hopen : t.endsOpen = false)
    (hf : StmtReadsBack file .statement f fs) :
    StmtReadsBack file .ifStmt (.ifElse m e t f)
      (.word "if" :: .sign "(" :: (cs ++ .sign ")" :: (ts ++ .word "else" :: fs))) := by
  intro c us hlayout helse
  obtain ⟨c₁, hrest₁, hkeyword⟩ := reads_keyword_at (r := .kwIf) rfl hlayout
  have hafter : Layout (.sign "(" :: (cs ++ .sign ")" :: (ts ++ .word "else" :: (fs ++ us))))
      c₁.skip.rest := by simpa using hrest₁
  obtain ⟨c₂, p, e', hrest₂, hp, hbare, hcondition⟩ := reads_condition file he hafter
  -- An `else` follows the first branch, which therefore must not end in an open conditional.
  obtain ⟨c₃, q, hthen, hrest₃, hq⟩ := ht c₂.skip _ hrest₂ fun h => by
    rw [hopen] at h
    cases h
  obtain ⟨c₄, hrest₄, hkeyword₄⟩ := reads_keyword_at (r := .kwElse) rfl hrest₃
  obtain ⟨c', r, hstatement, hrest, hr⟩ := hf c₄.skip us hrest₄ helse
  have helseClause : Rule.elseClause.Reads c₃.skip
      (some (c', [.node .elseClause c₃.skip c' [.node .kwElse c₃.skip c₄ [], r]])) :=
    .rule rfl (reads_then.mpr ⟨c₄, _, _, hkeyword₄, hstatement, rfl⟩)
  have htail := hcondition _ _ _
    (reads_then.mpr ⟨c₃, [q], _, hthen, .opt helseClause, rfl⟩)
  refine ⟨c', .node .ifStmt c c' [.node .kwIf c c₁ [], p, q, _],
    .rule rfl (reads_then.mpr ⟨c₁, _, _, hkeyword, htail, rfl⟩), hrest, fun i => ?_⟩
  obtain ⟨t', j, ht', hbare'⟩ := hq i
  obtain ⟨f', k, hf', hbare''⟩ := hr j
  refine ⟨.ifElse ⟨⟨k⟩, Cursor.originTo file c c'⟩ e' t' f', k + 1, ?_, ?_⟩
  · refine (Reader.bind_of_ok (Reader.lift_of_ok hp i)).trans ?_
    exact (Reader.bind_of_ok ht').trans (Reader.bind_of_ok hf')
  · rw [Stmt.bare, Stmt.bare, hbare, hbare', hbare'']

theorem stmtReadsBack_whileLoop {m : Mark} {e : Expr} {t : Stmt} {cs ts : List Token}
    (he : e.Spells 0 cs) (ht : StmtReadsBack file .statement t ts) :
    StmtReadsBack file .whileStmt (.whileLoop m e t)
      (.word "while" :: .sign "(" :: (cs ++ .sign ")" :: ts)) := by
  intro c us hlayout helse
  obtain ⟨c₁, hrest₁, hkeyword⟩ := reads_keyword_at (r := .kwWhile) rfl hlayout
  obtain ⟨c₂, p, e', hrest₂, hp, hbare, hcondition⟩ :=
    reads_condition file he (by simpa using hrest₁)
  obtain ⟨c', q, hbody, hrest, hq⟩ := ht c₂.skip us hrest₂ helse
  refine ⟨c', .node .whileStmt c c' [.node .kwWhile c c₁ [], p, q],
    .rule rfl (reads_then.mpr ⟨c₁, _, _, hkeyword, hcondition _ _ _ hbody, rfl⟩), hrest,
    fun i => ?_⟩
  obtain ⟨t', j, ht', hbare'⟩ := hq i
  refine ⟨.whileLoop ⟨⟨j⟩, Cursor.originTo file c c'⟩ e' t', j + 1, ?_, ?_⟩
  · exact (Reader.bind_of_ok (Reader.lift_of_ok hp i)).trans (Reader.bind_of_ok ht')
  · rw [Stmt.bare, Stmt.bare, hbare, hbare']

/-! ### Which rule reads a statement -/

theorem fails_block (h : c.rest.head? ≠ some '\x7b') : Rule.block.Reads c none :=
  .ruleNone rfl (.seqLeft (reads_literal_none fun _ hover => h (hover.head? (by decide))))

theorem fails_ifStmt (h : c.word ≠ "if") : Rule.ifStmt.Reads c none :=
  .ruleNone rfl (.seqLeft (fails_keyword rfl h))

theorem fails_whileStmt (h : c.word ≠ "while") : Rule.whileStmt.Reads c none :=
  .ruleNone rfl (.seqLeft (fails_keyword rfl h))

theorem fails_returnStmt (h : c.word ≠ "return") : Rule.returnStmt.Reads c none :=
  .ruleNone rfl (.seqLeft (fails_keyword rfl h))

theorem fails_breakStmt (h : c.word ≠ "break") : Rule.breakStmt.Reads c none :=
  .ruleNone rfl (.seqLeft (fails_keyword rfl h))

/-- The words that begin statements, each with the rule of its statements. -/
def statementWords : List (String × Rule) :=
  [("if", .ifStmt), ("while", .whileStmt), ("return", .returnStmt), ("break", .breakStmt)]

theorem StmtReadsBack.of_word {s : Stmt} {w : String} {r : Rule} {ts : List Token}
    (hw : (w, r) ∈ statementWords) (h : StmtReadsBack file r s (.word w :: ts)) :
    StmtReadsBack file .statement s (.word w :: ts) := by
  intro c us hlayout helse
  obtain ⟨c', q, hread, hrest, hq⟩ := h c us hlayout helse
  have hword : c.word = w := hlayout.at_word.1
  have hblock : Rule.block.Reads c none := by
    apply fails_block
    rw [hlayout.head?]
    exact hlayout.head_word (by decide)
  refine ⟨c', .node .statement c c' [q], .rule rfl (.altRight hblock ?_), hrest, hq⟩
  simp only [statementWords, List.mem_cons, Prod.mk.injEq, List.not_mem_nil, or_false] at hw
  rcases hw with ⟨rfl, rfl⟩ | ⟨rfl, rfl⟩ | ⟨rfl, rfl⟩ | ⟨rfl, rfl⟩
  · exact .altLeft hread
  · exact .altRight (fails_ifStmt (by rw [hword]; decide)) (.altLeft hread)
  · refine .altRight (fails_ifStmt (by rw [hword]; decide)) ?_
    exact .altRight (fails_whileStmt (by rw [hword]; decide)) (.altLeft hread)
  · refine .altRight (fails_ifStmt (by rw [hword]; decide)) ?_
    refine .altRight (fails_whileStmt (by rw [hword]; decide)) ?_
    exact .altRight (fails_returnStmt (by rw [hword]; decide)) (.altLeft hread)

/-- Where neither a brace nor one of four words stands, only an expression can be a statement. -/
theorem reads_statement_of_exprStmt {o : Result Rule} (hhead : c.rest.head? ≠ some '\x7b')
    (hword : c.word ∉ ["if", "while", "return", "break"]) (h : Rule.exprStmt.Reads c o) :
    scriptGrammar.Reads .outermost Rule.statement.body c o := by
  simp only [List.mem_cons, List.not_mem_nil, or_false, not_or] at hword
  obtain ⟨hif, hwhile, hreturn, hbreak⟩ := hword
  refine .altRight (fails_block hhead) (.altRight (fails_ifStmt hif) ?_)
  refine .altRight (fails_whileStmt hwhile) (.altRight (fails_returnStmt hreturn) ?_)
  exact .altRight (fails_breakStmt hbreak) h

theorem StmtReadsBack.of_exprStmt {s : Stmt} {t : Token} {ts : List Token}
    (ht : t.opensExpr = true) (h : StmtReadsBack file .exprStmt s (t :: ts)) :
    StmtReadsBack file .statement s (t :: ts) := by
  intro c us hlayout helse
  obtain ⟨c', q, hread, hrest, hq⟩ := h c us hlayout helse
  refine ⟨c', .node .statement c c' [q], .rule rfl (reads_statement_of_exprStmt ?_ ?_ hread),
    hrest, hq⟩
  · rw [hlayout.head?]
    cases t with
    | word w => exact hlayout.head_word (by decide)
    | sign s =>
      have hs : ∀ s ∈ ["-", "!", "("], s.toList.head? ≠ some '\x7b' := by decide
      exact hs s (List.contains_iff_mem.mp ht)
  · cases t with
    | word w =>
      rw [hlayout.at_word.1]
      intro hmem
      have hopens : ∀ w ∈ ["if", "while", "return", "break"],
          (Token.word w).opensExpr = false := by decide
      cases (hopens w hmem).symm.trans ht
    | sign s =>
      rw [hlayout.word_of_sign]
      decide

/-- No statement begins with a closing brace. -/
theorem fails_statement (h : Layout (.sign "\x7d" :: us) c.rest) : Rule.statement.Reads c none := by
  have hword : c.word = "" := h.word_of_sign
  have hexpression : Rule.expression.Reads c none :=
    fails_expression hword (by rw [h.head?]; decide)
  refine .ruleNone rfl (reads_statement_of_exprStmt ?_ ?_ (.ruleNone rfl (.seqLeft hexpression)))
  · rw [h.head?]
    decide
  · rw [hword]
    decide

/-! ### Blocks -/

theorem Stmt.Spells.head_ne_else {s : Stmt} {ts : List Token} (h : s.Spells ts) (us : List Token) :
    (ts ++ us).head? ≠ some (.word "else") := by
  cases h with
  | block _ _ => nofun
  | eval he =>
    obtain ⟨t, vs, rfl, ht⟩ := he.exists_head
    intro heq
    obtain rfl : t = .word "else" := Option.some.inj heq
    exact absurd ht (by decide)
  | ret => simp
  | retValue _ => simp
  | ifThen _ _ => simp
  | ifElse _ _ _ _ => simp
  | whileLoop _ _ => simp
  | breakLoop => simp

/-- Pairs that are read as statements one by one are read as the list of them. -/
theorem readStmts_of_parts {parts : List ((Stmt × List Token) × Pair Rule)}
    (h : ∀ p ∈ parts, ReadAs file p.1.1 p.2) (i : Nat) :
    ∃ ss j, Reader.readStmts file (parts.map Prod.snd) i = .ok (ss, j) ∧
      ss.map Stmt.bare = (parts.map Prod.fst).map fun s => s.1.bare := by
  induction parts generalizing i with
  | nil => exact ⟨[], i, rfl, rfl⟩
  | cons p parts ih =>
    obtain ⟨hp, hparts⟩ := List.forall_mem_cons.mp h
    obtain ⟨s, j, hs, hbare⟩ := hp i
    obtain ⟨ss, k, hss, hbares⟩ := ih hparts j
    refine ⟨s :: ss, k, ?_, by rw [List.map_cons, List.map_cons, List.map_cons, hbare, hbares]⟩
    exact (Reader.bind_of_ok hs).trans (Reader.bind_of_ok hss)

theorem stmtReadsBack_block {m : Mark} {body : List (Stmt × List Token)}
    (hspells : ∀ s ∈ body, s.1.Spells s.2)
    (hbody : ∀ s ∈ body, StmtReadsBack file .statement s.1 s.2) :
    StmtReadsBack file .block (.block m (body.map Prod.fst))
      (.sign "\x7b" :: ((body.map Prod.snd).flatten ++ [.sign "\x7d"])) := by
  intro c us hlayout _
  obtain ⟨c₁, hover₁, hrest₁⟩ := hlayout.at_sign
  rw [List.append_eq, List.append_assoc, ← List.flatMap_def] at hrest₁
  -- After each statement comes another one or the brace, and neither begins with `else`.
  have hnext (ss : List (Stmt × List Token)) (hss : ss <:+ body) :
      (ss.flatMap Prod.snd ++ .sign "\x7d" :: us).head? ≠ some (.word "else") := by
    cases ss with
    | nil => nofun
    | cons s ss =>
      rw [List.flatMap_cons, List.append_assoc]
      exact (hspells s (hss.subset List.mem_cons_self)).head_ne_else _
  obtain ⟨c₂, parts, hstatements, hrest₂, hfst, hparts⟩ := reads_rounds (a := .rule .statement)
    Prod.snd (fun vs => vs.head? ≠ some (.word "else")) (fun s q => ReadAs file s.1 q)
    (fun s hs c vs h hvs => hbody s hs c vs h fun _ => hvs) hnext (fun _ h => fails_statement h)
    hrest₁
  obtain ⟨c', hover, hrest⟩ := hrest₂.at_sign
  have hclose : scriptGrammar.Reads .outermost (.literal "\x7d") c₂.skip (some (c', [])) :=
    reads_literal.mpr ⟨hover, rfl⟩
  refine ⟨c', .node .block c c' (parts.map Prod.snd), .rule rfl ?_, hrest, fun i => ?_⟩
  · refine reads_then.mpr ⟨c₁, [], _, reads_literal.mpr ⟨hover₁, rfl⟩, ?_, rfl⟩
    exact reads_then.mpr ⟨c₂, _, [], hstatements, hclose, (List.append_nil _).symm⟩
  · obtain ⟨ss, j, hss, hbares⟩ := readStmts_of_parts hparts i
    refine ⟨.block ⟨⟨j⟩, Cursor.originTo file c c'⟩ ss, j + 1, Reader.bind_of_ok hss, ?_⟩
    rw [Stmt.bare, Stmt.bare, Stmt.bareAll_eq_map, Stmt.bareAll_eq_map, hbares, hfst, List.map_map]
    rfl

/-- **What spells a statement is read as it.** -/
theorem stmtReadsBack_statement (file : String) {s : Stmt} {ts : List Token} (h : s.Spells ts) :
    StmtReadsBack file .statement s ts := by
  induction h with
  | block body hspells ih =>
    intro c us hlayout helse
    obtain ⟨c', q, hread, hrest, hq⟩ := stmtReadsBack_block hspells ih c us hlayout helse
    exact ⟨c', .node .statement c c' [q], .rule rfl (.altLeft hread), hrest, hq⟩
  | eval he =>
    obtain ⟨t, ts, rfl, ht⟩ := he.exists_head
    exact .of_exprStmt ht (stmtReadsBack_eval he)
  | ret => exact .of_word (by decide) stmtReadsBack_ret
  | retValue he => exact .of_word (by decide) (stmtReadsBack_retValue he)
  | ifThen he _ ih => exact .of_word (by decide) (stmtReadsBack_ifThen he ih)
  | ifElse he _ hopen _ iht ihf =>
    exact .of_word (by decide) (stmtReadsBack_ifElse he iht hopen ihf)
  | whileLoop he _ ih => exact .of_word (by decide) (stmtReadsBack_whileLoop he ih)
  | breakLoop => exact .of_word (by decide) stmtReadsBack_breakLoop

end Statements

/-! ### Functions and programs -/

section Functions

variable {c : Cursor} {us : List Token}

theorem stmtReadsBack_body (file : String) {m : Mark} {body : List Stmt} {ts : List Token}
    (h : (Stmt.block m body).Spells ts) : StmtReadsBack file .block (.block m body) ts := by
  cases h with
  | block body hspells =>
    exact stmtReadsBack_block hspells fun s hs => stmtReadsBack_statement file (hspells s hs)

/-- Parameters are read before a closing parenthesis, and leave no pair if there are none. -/
theorem reads_params {xs : List String} (hnames : ∀ x ∈ xs, isName x = true)
    (h : Layout (commas (xs.map fun x => [.word x]) ++ .sign ")" :: us) c.skip.rest) :
    ∃ (c' : Cursor) (ps : List (Pair Rule)),
      scriptGrammar.Reads .outermost (.opt (.rule .params)) c.skip (some (c', ps)) ∧
      Layout (.sign ")" :: us) c'.skip.rest ∧
      (ps = [] ∧ xs = [] ∨ ∃ a b qs, ps = [.node .params a b qs] ∧ qs.map Pair.text = xs) := by
  cases xs with
  | nil =>
    have h : Layout (.sign ")" :: us) c.skip.rest := h
    have hidentifier : Rule.identifier.Reads c.skip none :=
      fails_identifier (by rw [h.word_of_sign]; decide)
    have hparams : Rule.params.Reads c.skip none := .ruleNone rfl (.seqLeft hidentifier)
    exact ⟨c.skip, [], .optNone hparams, by rwa [Cursor.skip_skip], Or.inl ⟨rfl, rfl⟩⟩
  | cons x xs =>
    obtain ⟨c', parts, hlist, hrest, hfst, hparts⟩ := reads_list .identifier
      (fun x => [.word x]) (fun x q => q.text = x)
      (fun y hy c us h _ => by
        obtain ⟨c', hrest, hover, hidentifier, -⟩ := reads_name (hnames y hy) h
        exact ⟨c', _, hidentifier, hrest, Pair.text_node hover⟩) h
    refine ⟨c', _, .opt (.rule rfl hlist), hrest, Or.inr ⟨c.skip, c', _, rfl, ?_⟩⟩
    rw [← hfst, List.map_map]
    exact List.map_congr_left hparts

/-- The pair is read as the function, wherever the numbers are. -/
def FunctionReadAs (file : String) (f : Function) (q : Pair Rule) : Prop :=
  q.rule ≠ .eoi ∧ ∀ i, ∃ f' j, Reader.readFunction file q i = .ok (f', j) ∧ f'.bare = f.bare

theorem reads_function (file : String) {f : Function} {ts : List Token} (h : f.Spells ts)
    (hlayout : Layout (ts ++ us) c.rest) :
    ∃ (c' : Cursor) (q : Pair Rule), Rule.function.Reads c (some (c', [q])) ∧
      Layout us c'.skip.rest ∧ FunctionReadAs file f q := by
  cases h with
  | @intro name params m body o ts hname hparams hbody =>
    obtain ⟨c₁, hrest₁, hkeyword⟩ := reads_keyword_at (r := .kwFn) rfl hlayout
    obtain ⟨c₂, hrest₂, hover₂, hidentifier, -⟩ := reads_name hname hrest₁
    obtain ⟨c₃, hover₃, hrest₃⟩ := hrest₂.at_sign
    rw [List.append_eq, List.append_assoc] at hrest₃
    obtain ⟨c₄, ps, hopt, hrest₄, hps⟩ := reads_params hparams hrest₃
    obtain ⟨c₅, hover₅, hrest₅⟩ := hrest₄.at_sign
    obtain ⟨c', q, hblock, hrest, hq⟩ :=
      stmtReadsBack_body file hbody c₅.skip us hrest₅ nofun
    refine ⟨c', .node .function c c'
      (.node .kwFn c c₁ [] :: .node .identifier c₁.skip c₂ [] :: (ps ++ [q])), .rule rfl ?_, hrest,
      nofun, fun i => ?_⟩
    · refine reads_then.mpr ⟨c₁, _, _, hkeyword, ?_, rfl⟩
      refine reads_then.mpr ⟨c₂, _, _, hidentifier, ?_, rfl⟩
      refine reads_then.mpr ⟨c₃, [], _, reads_literal.mpr ⟨hover₃, rfl⟩, ?_, rfl⟩
      refine reads_then.mpr ⟨c₄, ps, _, hopt, ?_, rfl⟩
      exact reads_then.mpr ⟨c₅, [], _, reads_literal.mpr ⟨hover₅, rfl⟩, hblock, rfl⟩
    · obtain ⟨s, j, hs, hbare⟩ := hq i
      have htext : (Pair.node Rule.identifier c₁.skip c₂ []).text = name := Pair.text_node hover₂
      refine ⟨⟨name, params, s, Cursor.originTo file c c'⟩, j, ?_, ?_⟩
      · rw [← htext]
        rcases hps with ⟨rfl, rfl⟩ | ⟨a, b, qs, rfl, rfl⟩
        · exact Reader.bind_of_ok hs
        · exact Reader.bind_of_ok hs
      · rw [Function.bare, Function.bare, hbare]

/-- Pairs that are read as functions one by one are read as the list of them, and the pair at the
    end of the text is passed over. -/
theorem readFunctions_of_parts {file : String} {parts : List ((Function × List Token) × Pair Rule)}
    {q : Pair Rule} (hq : q.rule = .eoi) (h : ∀ p ∈ parts, FunctionReadAs file p.1.1 p.2)
    (i : Nat) :
    ∃ fs j, Reader.readFunctions file (parts.map Prod.snd ++ [q]) i = .ok (fs, j) ∧
      fs.map Function.bare = (parts.map Prod.fst).map fun f => f.1.bare := by
  induction parts generalizing i with
  | nil =>
    refine ⟨[], i, ?_, rfl⟩
    rw [List.map_nil, List.nil_append, Reader.readFunctions, if_pos hq]
    rfl
  | cons p parts ih =>
    obtain ⟨⟨hrule, hp⟩, hparts⟩ := List.forall_mem_cons.mp h
    obtain ⟨f, j, hf, hbare⟩ := hp i
    obtain ⟨fs, k, hfs, hbares⟩ := ih hparts j
    refine ⟨f :: fs, k, ?_, by rw [List.map_cons, List.map_cons, List.map_cons, hbare, hbares]⟩
    rw [List.map_cons, List.cons_append, Reader.readFunctions, if_neg hrule]
    exact (Reader.bind_of_ok hf).trans (Reader.bind_of_ok hfs)

/-- **A rendering of a program is read as it.** -/
theorem reads_of_renders (file : String) {p : Program} {text : String} (h : p.Renders text) :
    ∃ c' ps fs j, Rule.program.Reads (.ofString text) (some (c', ps)) ∧
      Reader.readFunctions file (ps.flatMap Pair.inner) 1 = .ok (fs, j) ∧
      fs.map Function.bare = p.functions.map Function.bare := by
  obtain ⟨ts, g, rest, hspells, hlayout, hg, htext⟩ := h
  have hrest : Layout ts (Cursor.ofString text).skip.rest := by
    rwa [Cursor.rest_skip htext hg hlayout.solid]
  cases hspells with
  | intro functions _ hspells =>
    rw [← List.flatMap_def, ← List.append_nil (functions.flatMap Prod.snd)] at hrest
    -- The repetition stops at the end of the text, where no `fn` stands.
    have hfails (c : Cursor) (h : Layout [] c.rest) : Rule.function.Reads c none :=
      .ruleNone rfl (.seqLeft (fails_keyword rfl (by rw [h.word_of_nil]; decide)))
    obtain ⟨c₁, parts, hfunctions, hend, hfst, hparts⟩ := reads_rounds (a := .rule .function)
      Prod.snd (fun _ => True) (fun f q => FunctionReadAs file f.1 q)
      (fun f hf c vs h _ => reads_function file (hspells f hf) h) (fun _ _ => trivial) hfails hrest
    have hstop : c₁.skip.rest = [] := by
      generalize c₁.skip.rest = r at hend
      cases hend
      rfl
    obtain ⟨fs, j, hfs, hbares⟩ := readFunctions_of_parts
      (q := .node .eoi c₁.skip c₁.skip []) rfl hparts 1
    refine ⟨c₁.skip, [.node .program (.ofString text) c₁.skip _], fs, j, .rule rfl ?_,
      (by simpa [Pair.inner] using hfs), ?_⟩
    · refine reads_then.mpr ⟨.ofString text, [], _, .start rfl, ?_, rfl⟩
      exact reads_then.mpr ⟨c₁, _, _, hfunctions, .rule rfl (.stop hstop), rfl⟩
    · rw [hbares, hfst, List.map_map]
      rfl

end Functions

end JumpCode
