import JumpCode.Proofs.Ast.Numbering
import JumpCode.Proofs.Syntax.ExprSoundness

/-!
# Statements that are read are spelled

Whatever the reader makes a statement, a function or a program of spells it.  A conditional takes
the `else` that follows it if it can, so where a statement ends in a conditional without one, no
`else` can be read: that is the second half of `SpelledStmt`, and it keeps the `else` of an outer
conditional away from its branch.
-/

namespace JumpCode

open Peg Grammar

/-! ### Statements -/

section Statements

variable {file : String} {n : Nat} {c c' : Cursor} {q : Pair Rule}

/-- If there is a statement for the pair, the tokens spell it, and no `else` follows a statement
    that would take it. -/
def SpelledStmt (file : String) (q : Pair Rule) (ts : List Token) : Prop :=
  ∀ i s j, Reader.readStmt file q i = .ok (s, j) →
    s.Spells ts ∧ (s.endsOpen = true → Rule.elseClause.Reads q.stop.skip none)

theorem stop_of_reads {r : Rule} (hsilent : r.isSilent = false)
    (h : r.Reads c (some (c', [q]))) : q.stop = c' := by
  obtain ⟨inner, -, hq⟩ := (Rule.reads_iff hsilent).mp h
  cases hq
  rfl

theorem spans_keyword {r : Rule} {w : String} {ps : List (Pair Rule)}
    (hr : r.keyword? = some w) (h : r.Reads c (some (c', ps))) :
    ps = [.node r c c' []] ∧ Spans true c [.word w] c' ∧
      c'.skip.rest.length < c.rest.length := by
  obtain ⟨hword, hover, rfl⟩ := (reads_keyword hr).mp h
  have hne : w.toList ≠ [] := by cases r <;> cases hr <;> decide
  exact ⟨rfl, .word hword hne hover, hover.length_skip_lt hne⟩

theorem exists_spells_of_readStmts {items : List (Pair Rule × List Token)} {ss : List Stmt}
    {i j : Nat} (hitems : ∀ p ∈ items, SpelledStmt file p.1 p.2)
    (h : Reader.readStmts file (items.map Prod.fst) i = .ok (ss, j)) :
    ∃ body : List (Stmt × List Token), ss = body.map Prod.fst ∧
      items.map Prod.snd = body.map Prod.snd ∧ ∀ s ∈ body, s.1.Spells s.2 := by
  induction items generalizing ss i j with
  | nil =>
    cases h
    exact ⟨[], rfl, rfl, nofun⟩
  | cons p items ih =>
    obtain ⟨hp, hitems⟩ := List.forall_mem_cons.mp hitems
    obtain ⟨s, i₁, hs, h₁⟩ := Reader.bind_eq_ok h
    obtain ⟨ss, i₂, hss, h₂⟩ := Reader.bind_eq_ok h₁
    cases h₂
    obtain ⟨body, rfl, htokens, hbody⟩ := ih hitems hss
    refine ⟨(s, p.2) :: body, rfl, ?_, List.forall_mem_cons.mpr ⟨(hp i s i₁ hs).1, hbody⟩⟩
    rw [List.map_cons, List.map_cons, htokens]

theorem readsOne_block (ih : ∀ m < n, ReadsOne true m .statement (SpelledStmt file)) :
    ReadsOne true n .block (SpelledStmt file) := by
  intro c c' ps hn h
  obtain ⟨inner, hbody, rfl⟩ := (Rule.reads_node rfl rfl).mp h
  obtain ⟨c₁, ps₁, rs₁, hopen, htail₁, rfl⟩ := reads_then.mp hbody
  obtain ⟨c₂, ps₂, rs₂, hstatements, hclose, rfl⟩ := reads_then.mp htail₁
  obtain ⟨hover₁, rfl⟩ := reads_literal.mp hopen
  obtain ⟨hover, rfl⟩ := reads_literal.mp hclose
  have hlt := hover₁.length_skip_lt (by decide)
  obtain ⟨items, rfl, hspans, hitems⟩ :=
    exists_items (ih _ (by omega)) (Nat.le_refl _) hstatements
  have hopen : Spans true c [.sign "\x7b"] c₁ := .mark (by decide) hover₁
  have hclose : Spans true c₂.skip [.sign "\x7d"] c' := .mark (by decide) hover
  refine ⟨_, _, rfl, hopen.trans (hspans.trans hclose), fun i s j hs => ?_⟩
  rw [List.nil_append, List.append_nil] at hs
  obtain ⟨ss, i₁, hss, hend⟩ := Reader.bind_eq_ok hs
  obtain ⟨body, rfl, htokens, hbody⟩ := exists_spells_of_readStmts hitems hss
  cases hend
  rw [htokens]
  exact ⟨.block body hbody, nofun⟩

/-- A condition in parentheses, and what comes after it. -/
theorem exists_condition {b : Pattern Rule} {ps : List (Pair Rule)} (file : String)
    (h : scriptGrammar.Reads .outermost
      (.seq (.literal "(") (.seq (.rule .expression) (.seq (.literal ")") b))) c (some (c', ps))) :
    ∃ c₁ q ts rs, ps = q :: rs ∧ SpelledExpr file 0 q ts ∧
      Spans true c (.sign "(" :: (ts ++ [.sign ")"])) c₁ ∧
      c₁.skip.rest.length < c.rest.length ∧
      scriptGrammar.Reads .outermost b c₁.skip (some (c', rs)) := by
  obtain ⟨c₁, ps₁, rs₁, hopen, htail₁, rfl⟩ := reads_then.mp h
  obtain ⟨c₂, ps₂, rs₂, hexpr, htail₂, rfl⟩ := reads_then.mp htail₁
  obtain ⟨c₃, ps₃, rs₃, hclose, hrest, rfl⟩ := reads_then.mp htail₂
  obtain ⟨hover₁, rfl⟩ := reads_literal.mp hopen
  obtain ⟨hover₃, rfl⟩ := reads_literal.mp hclose
  obtain ⟨q, ts, rfl, hspans, hq⟩ := spelled_expression file _ _ _ _ (Nat.le_refl _) hexpr
  have hopen : Spans true c [.sign "("] c₁ := .mark (by decide) hover₁
  have hclose : Spans true c₂.skip [.sign ")"] c₃ := .mark (by decide) hover₃
  refine ⟨c₃, q, ts, rs₃, rfl, hq, hopen.trans (hspans.trans_open hclose rfl nofun), ?_, hrest⟩
  have hlt₁ := hover₁.length_skip_lt (by decide)
  have hle := length_skip_of_reads hexpr
  have hlt₃ := hover₃.length_skip_lt (by decide)
  omega

theorem readsOne_elseClause (ih : ∀ m < n, ReadsOne true m .statement (SpelledStmt file)) :
    ReadsOne true n .elseClause fun q ts =>
      ∃ us, ts = .word "else" :: us ∧ SpelledStmt file q us := by
  intro c c' ps hn h
  obtain ⟨inner, hbody, rfl⟩ := (Rule.reads_node rfl rfl).mp h
  obtain ⟨c₁, ps₁, rs₁, hkeyword, hstatement, rfl⟩ := reads_then.mp hbody
  obtain ⟨rfl, hword, hlt⟩ := spans_keyword rfl hkeyword
  obtain ⟨q, ts, rfl, hspans, hq⟩ := ih _ (by omega) _ _ _ (Nat.le_refl _) hstatement
  refine ⟨_, _, rfl, hword.trans hspans, ts, rfl, fun i s j hs => ?_⟩
  obtain ⟨hspells, hopen⟩ := hq i s j hs
  rw [stop_of_reads rfl hstatement] at hopen
  exact ⟨hspells, hopen⟩

theorem readsOne_ifStmt (ih : ∀ m < n, ReadsOne true m .statement (SpelledStmt file)) :
    ReadsOne true n .ifStmt (SpelledStmt file) := by
  intro c c' ps hn h
  obtain ⟨inner, hbody, rfl⟩ := (Rule.reads_node rfl rfl).mp h
  obtain ⟨c₁, ps₁, rs₁, hkeyword, htail₁, rfl⟩ := reads_then.mp hbody
  obtain ⟨rfl, hword, hlt₁⟩ := spans_keyword rfl hkeyword
  obtain ⟨c₂, q, ts, rs₂, rfl, hq, hcondition, hlt₂, htail₂⟩ := exists_condition file htail₁
  obtain ⟨c₃, ps₃, rs₃, hthen, helse, rfl⟩ := reads_then.mp htail₂
  obtain ⟨t, us, rfl, hspans, ht⟩ := ih _ (by omega) _ _ _ (Nat.le_refl _) hthen
  have hstop : t.stop = c₃ := stop_of_reads rfl hthen
  have hbegin := hword.trans (hcondition.trans hspans)
  rcases reads_opt.mp helse with helse | ⟨hnone, rfl, rfl⟩
  · have hlength := length_skip_of_reads hthen
    obtain ⟨e, vs, rfl, hspans', es, rfl, he⟩ := readsOne_elseClause (n := c₃.skip.rest.length)
      (fun m hm => ih m (by omega)) _ _ _ (Nat.le_refl _) helse
    refine ⟨_, _, rfl, hbegin.trans hspans', fun i s j hs => ?_⟩
    obtain ⟨cond, i₁, hcond, h₁⟩ := Reader.bind_eq_ok hs
    obtain ⟨hread, rfl⟩ := Reader.lift_eq_ok hcond
    obtain ⟨thenBranch, i₂, hthenBranch, h₂⟩ := Reader.bind_eq_ok h₁
    obtain ⟨elseBranch, i₃, helseBranch, hend⟩ := Reader.bind_eq_ok h₂
    cases hend
    obtain ⟨hthenSpells, hopen⟩ := ht _ _ _ hthenBranch
    obtain ⟨helseSpells, hopen'⟩ := he _ _ _ helseBranch
    -- The branch did not take the `else` that follows it.
    have hclosed : thenBranch.endsOpen = false := by
      rw [Bool.eq_false_iff]
      intro htrue
      have hnone := hopen htrue
      rw [hstop] at hnone
      cases hnone.unique helse
    rw [stop_of_reads rfl helse] at hopen'
    refine ⟨?_, hopen'⟩
    have hspells := Stmt.Spells.ifElse (m := ⟨⟨i₃⟩, Cursor.originTo file c c'⟩) (hq cond hread)
      hthenSpells hclosed helseSpells
    simpa using hspells
  · refine ⟨_, _, rfl, hbegin.congr (Cursor.skip_skip c₃).symm, fun i s j hs => ?_⟩
    obtain ⟨cond, i₁, hcond, h₁⟩ := Reader.bind_eq_ok hs
    obtain ⟨hread, rfl⟩ := Reader.lift_eq_ok hcond
    obtain ⟨thenBranch, i₂, hthenBranch, hend⟩ := Reader.bind_eq_ok h₁
    cases hend
    refine ⟨?_, fun _ => ?_⟩
    · have hspells := Stmt.Spells.ifThen (m := ⟨⟨i₂⟩, Cursor.originTo file c c₃.skip⟩)
        (hq cond hread) (ht _ _ _ hthenBranch).1
      simpa using hspells
    · show Rule.elseClause.Reads c₃.skip.skip none
      rw [Cursor.skip_skip]
      exact hnone

theorem readsOne_whileStmt (ih : ∀ m < n, ReadsOne true m .statement (SpelledStmt file)) :
    ReadsOne true n .whileStmt (SpelledStmt file) := by
  intro c c' ps hn h
  obtain ⟨inner, hbody, rfl⟩ := (Rule.reads_node rfl rfl).mp h
  obtain ⟨c₁, ps₁, rs₁, hkeyword, htail₁, rfl⟩ := reads_then.mp hbody
  obtain ⟨rfl, hword, hlt₁⟩ := spans_keyword rfl hkeyword
  obtain ⟨c₂, q, ts, rs₂, rfl, hq, hcondition, hlt₂, hstatement⟩ := exists_condition file htail₁
  obtain ⟨t, us, rfl, hspans, ht⟩ := ih _ (by omega) _ _ _ (Nat.le_refl _) hstatement
  refine ⟨_, _, rfl, hword.trans (hcondition.trans hspans), fun i s j hs => ?_⟩
  obtain ⟨cond, i₁, hcond, h₁⟩ := Reader.bind_eq_ok hs
  obtain ⟨hread, rfl⟩ := Reader.lift_eq_ok hcond
  obtain ⟨body, i₂, hloop, hend⟩ := Reader.bind_eq_ok h₁
  cases hend
  obtain ⟨hspells, hopen⟩ := ht _ _ _ hloop
  rw [stop_of_reads rfl hstatement] at hopen
  refine ⟨?_, hopen⟩
  have hspells := Stmt.Spells.whileLoop (m := ⟨⟨i₂⟩, Cursor.originTo file c c'⟩)
    (hq cond hread) hspells
  simpa using hspells

theorem readsOne_returnStmt : ReadsOne true n .returnStmt (SpelledStmt file) := by
  intro c c' ps hn h
  obtain ⟨inner, hbody, rfl⟩ := (Rule.reads_node rfl rfl).mp h
  obtain ⟨c₁, ps₁, rs₁, hkeyword, htail₁, rfl⟩ := reads_then.mp hbody
  obtain ⟨rfl, hword, hlt₁⟩ := spans_keyword rfl hkeyword
  obtain ⟨c₂, ps₂, rs₂, hvalue, hsemicolon, rfl⟩ := reads_then.mp htail₁
  obtain ⟨hover, rfl⟩ := reads_literal.mp hsemicolon
  have hend : Spans true c₂.skip [.sign ";"] c' := .mark (by decide) hover
  rcases reads_opt.mp hvalue with hvalue | ⟨-, rfl, rfl⟩
  · obtain ⟨q, ts, rfl, hspans, hq⟩ := spelled_expression file _ _ _ _ (Nat.le_refl _) hvalue
    refine ⟨_, _, rfl, hword.trans (hspans.trans_open hend rfl nofun), fun i s j hs => ?_⟩
    obtain ⟨value, i₁, hread, hfinish⟩ := Reader.bind_eq_ok hs
    obtain ⟨hvalue, rfl⟩ := Reader.lift_eq_ok hread
    cases hfinish
    exact ⟨.retValue (hq value hvalue), nofun⟩
  · rw [Cursor.skip_skip] at hend
    refine ⟨_, _, rfl, hword.trans hend, fun i s j hs => ?_⟩
    cases hs
    exact ⟨.ret, nofun⟩

theorem readsOne_breakStmt : ReadsOne true n .breakStmt (SpelledStmt file) := by
  intro c c' ps hn h
  obtain ⟨inner, hbody, rfl⟩ := (Rule.reads_node rfl rfl).mp h
  obtain ⟨c₁, ps₁, rs₁, hkeyword, hsemicolon, rfl⟩ := reads_then.mp hbody
  obtain ⟨rfl, hword, -⟩ := spans_keyword rfl hkeyword
  obtain ⟨hover, rfl⟩ := reads_literal.mp hsemicolon
  have hend : Spans true c₁.skip [.sign ";"] c' := .mark (by decide) hover
  refine ⟨_, _, rfl, hword.trans hend, fun i s j hs => ?_⟩
  cases hs
  exact ⟨.breakLoop, nofun⟩

theorem readsOne_exprStmt : ReadsOne true n .exprStmt (SpelledStmt file) := by
  intro c c' ps hn h
  obtain ⟨inner, hbody, rfl⟩ := (Rule.reads_node rfl rfl).mp h
  obtain ⟨c₁, ps₁, rs₁, hexpr, hsemicolon, rfl⟩ := reads_then.mp hbody
  obtain ⟨hover, rfl⟩ := reads_literal.mp hsemicolon
  obtain ⟨q, ts, rfl, hspans, hq⟩ := spelled_expression file _ _ _ _ (Nat.le_refl _) hexpr
  have hend : Spans true c₁.skip [.sign ";"] c' := .mark (by decide) hover
  refine ⟨_, _, rfl, hspans.trans_open hend rfl nofun, fun i s j hs => ?_⟩
  obtain ⟨value, i₁, hread, hfinish⟩ := Reader.bind_eq_ok hs
  obtain ⟨hvalue, rfl⟩ := Reader.lift_eq_ok hread
  cases hfinish
  exact ⟨.eval (hq value hvalue), nofun⟩

/-- **What is read as a statement is spelled.** -/
theorem spelled_statement (file : String) (n : Nat) :
    ReadsOne true n .statement (SpelledStmt file) := by
  induction n using Nat.strongRecOn with
  | ind n ih =>
    intro c c' ps hn h
    obtain ⟨inner, hbody, rfl⟩ := (Rule.reads_node rfl rfl).mp h
    have hinner {r : Rule} (hsilent : r.isSilent = false)
        (hr : ReadsOne true n r (SpelledStmt file)) (h : r.Reads c (some (c', inner))) :
        ∃ q ts, [.node .statement c c' inner] = [q] ∧ Spans true c ts c' ∧
          SpelledStmt file q ts := by
      obtain ⟨q, ts, rfl, hspans, hq⟩ := hr c c' inner hn h
      have hstop : q.stop = c' := stop_of_reads hsilent h
      refine ⟨_, ts, rfl, hspans, fun i s j hs => ?_⟩
      obtain ⟨hspells, hopen⟩ := hq i s j hs
      rw [hstop] at hopen
      exact ⟨hspells, hopen⟩
    rcases reads_alt.mp hbody with h₁ | ⟨-, hbody₁⟩
    · exact hinner rfl (readsOne_block ih) h₁
    rcases reads_alt.mp hbody₁ with h₂ | ⟨-, hbody₂⟩
    · exact hinner rfl (readsOne_ifStmt ih) h₂
    rcases reads_alt.mp hbody₂ with h₃ | ⟨-, hbody₃⟩
    · exact hinner rfl (readsOne_whileStmt ih) h₃
    rcases reads_alt.mp hbody₃ with h₄ | ⟨-, hbody₄⟩
    · exact hinner rfl readsOne_returnStmt h₄
    rcases reads_alt.mp hbody₄ with h₅ | ⟨-, h₆⟩
    · exact hinner rfl readsOne_breakStmt h₅
    · exact hinner rfl readsOne_exprStmt h₆

end Statements

/-! ### Functions and programs -/

section Functions

variable {file : String} {n : Nat}

theorem Reader.exists_block_of_readStmt {a b : Cursor} {qs : List (Pair Rule)} {i j : Nat}
    {s : Stmt} (h : Reader.readStmt file (.node .block a b qs) i = .ok (s, j)) :
    ∃ m body, s = .block m body := by
  obtain ⟨body, i₁, -, hend⟩ := Reader.bind_eq_ok h
  cases hend
  exact ⟨_, _, rfl⟩

/-- The body of a function, with its closing brace. -/
theorem readsOne_body (file : String) : ReadsOne true n .block fun q ts =>
    ∀ i s j, Reader.readStmt file q i = .ok (s, j) → s.Spells ts ∧ ∃ m body, s = .block m body := by
  intro c c' ps hn h
  obtain ⟨q, ts, rfl, hspans, hq⟩ :=
    readsOne_block (fun m _ => spelled_statement file m) _ _ _ hn h
  obtain ⟨inner, -, hnode⟩ := (Rule.reads_node rfl rfl).mp h
  obtain rfl : q = _ := List.singleton_inj.mp hnode
  exact ⟨_, ts, rfl, hspans, fun i s j hs => ⟨(hq i s j hs).1, Reader.exists_block_of_readStmt hs⟩⟩

/-- Names with commas between them, in a parameter list. -/
theorem readsOne_params : ReadsOne false n .params fun q ts => ∃ a b qs, q = .node .params a b qs ∧
    (∀ x ∈ qs.map Pair.text, isName x = true) ∧
    ts = commas ((qs.map Pair.text).map fun x => [.word x]) := by
  intro c c' ps hn h
  obtain ⟨inner, hbody, rfl⟩ := (Rule.reads_node rfl rfl).mp h
  obtain ⟨parts, rfl, hspans, hparts⟩ := exists_parts (readsOne_identifier) hn hbody
  refine ⟨_, _, rfl, hspans, c, c', _, rfl, ?_, ?_⟩
  · simp only [List.map_map, List.mem_map, forall_exists_index, and_imp]
    rintro x p hp rfl
    exact (hparts p hp).1
  · congr 1
    rw [List.map_map, List.map_map]
    exact List.map_congr_left fun p hp => (hparts p hp).2.1

def SpelledFunction (file : String) (q : Pair Rule) (ts : List Token) : Prop :=
  q.rule ≠ .eoi ∧ ∀ i f j, Reader.readFunction file q i = .ok (f, j) → f.Spells ts

theorem spelled_function (file : String) (n : Nat) :
    ReadsOne true n .function (SpelledFunction file) := by
  intro c c' ps hn h
  obtain ⟨inner, hbody, rfl⟩ := (Rule.reads_node rfl rfl).mp h
  obtain ⟨c₁, ps₁, rs₁, hkeyword, htail₁, rfl⟩ := reads_then.mp hbody
  obtain ⟨c₂, ps₂, rs₂, hname, htail₂, rfl⟩ := reads_then.mp htail₁
  obtain ⟨c₃, ps₃, rs₃, hopen, htail₃, rfl⟩ := reads_then.mp htail₂
  obtain ⟨c₄, ps₄, rs₄, hparams, htail₄, rfl⟩ := reads_then.mp htail₃
  obtain ⟨c₅, ps₅, rs₅, hclose, hblock, rfl⟩ := reads_then.mp htail₄
  obtain ⟨rfl, hword, -⟩ := spans_keyword rfl hkeyword
  obtain ⟨q, us, rfl, hspans, hisName, rfl, -⟩ :=
    readsOne_identifier _ _ _ (Nat.le_refl _) hname
  obtain ⟨hover₃, rfl⟩ := reads_literal.mp hopen
  obtain ⟨hover₅, rfl⟩ := reads_literal.mp hclose
  obtain ⟨b, ts, rfl, hspans', hb⟩ := readsOne_body file _ _ _ (Nat.le_refl _) hblock
  have hopen : Spans true c₂.skip [.sign "("] c₃ := .mark (by decide) hover₃
  have hclose : Spans true c₄.skip [.sign ")"] c₅ := .mark (by decide) hover₅
  have hbegin := hword.trans (hspans.trans hopen)
  -- What is left is to say which function the pairs stand for.
  have hspells {params : List String} {i j : Nat} {f : Function}
      (hparams : ∀ x ∈ params, isName x = true)
      (hf : (do return ⟨q.text, params, ← Reader.readStmt file b, Cursor.originTo file c c'⟩ :
        Reader.Numbering Function) i = .ok (f, j)) :
      f.Spells (.word "fn" :: .word q.text :: .sign "(" ::
        (commas (params.map fun x => [.word x]) ++ .sign ")" :: ts)) := by
    obtain ⟨s, i₁, hs, hend⟩ := Reader.bind_eq_ok hf
    obtain ⟨hspells, m, body, rfl⟩ := hb _ _ _ hs
    cases hend
    exact .intro hisName hparams hspells
  rcases reads_opt.mp hparams with hparams | ⟨-, rfl, rfl⟩
  · obtain ⟨p, vs, rfl, hspans'', a, b, qs, rfl, hnames, rfl⟩ :=
      readsOne_params _ _ _ (Nat.le_refl _) hparams
    have hlist := hspans''.trans_open hclose rfl nofun
    refine ⟨_, _, rfl, hbegin.trans (hlist.trans hspans'), nofun, fun i f j hf => ?_⟩
    simpa using hspells hnames hf
  · rw [Cursor.skip_skip] at hclose
    refine ⟨_, _, rfl, hbegin.trans (hclose.trans hspans'), nofun, ?_⟩
    intro i f j hf
    exact hspells (List.forall_mem_nil _) hf

theorem exists_spells_of_readFunctions {items : List (Pair Rule × List Token)}
    {rest : List (Pair Rule)} {fs : List Function} {i j : Nat}
    (hitems : ∀ p ∈ items, SpelledFunction file p.1 p.2) (hrest : ∀ q ∈ rest, q.rule = .eoi)
    (h : Reader.readFunctions file (items.map Prod.fst ++ rest) i = .ok (fs, j)) :
    ∃ functions : List (Function × List Token), fs = functions.map Prod.fst ∧
      items.map Prod.snd = functions.map Prod.snd ∧ ∀ f ∈ functions, f.1.Spells f.2 := by
  induction items generalizing fs i j with
  | nil =>
    have hfs : fs = [] := by
      induction rest with
      | nil =>
        cases h
        rfl
      | cons q rest ih =>
        obtain ⟨hq, hrest⟩ := List.forall_mem_cons.mp hrest
        rw [List.map_nil, List.nil_append, Reader.readFunctions, if_pos hq] at h
        exact ih hrest h
    exact ⟨[], hfs, rfl, List.forall_mem_nil _⟩
  | cons p items ih =>
    obtain ⟨⟨hrule, hp⟩, hitems⟩ := List.forall_mem_cons.mp hitems
    rw [List.map_cons, List.cons_append, Reader.readFunctions, if_neg hrule] at h
    obtain ⟨f, i₁, hf, h₁⟩ := Reader.bind_eq_ok h
    obtain ⟨fs, i₂, hfs, h₂⟩ := Reader.bind_eq_ok h₁
    cases h₂
    obtain ⟨functions, rfl, htokens, hfunctions⟩ := ih hitems hfs
    refine ⟨(f, p.2) :: functions, rfl, ?_, List.forall_mem_cons.mpr ⟨hp i f i₁ hf, hfunctions⟩⟩
    rw [List.map_cons, List.map_cons, htokens]

/-- **What is read as a program is a rendering of it.** -/
theorem renders_of_reads {text : String} {c' : Cursor} {ps : List (Pair Rule)}
    {fs : List Function} {i j : Nat} (h : Rule.program.Reads (.ofString text) (some (c', ps)))
    (hread : Reader.readFunctions file (ps.flatMap Pair.inner) i = .ok (fs, j)) (hne : fs ≠ []) :
    Program.Renders ⟨fs⟩ text := by
  obtain ⟨inner, hbody, rfl⟩ := (Rule.reads_node rfl rfl).mp h
  obtain ⟨c₁, ps₁, rs₁, hstart, htail₁, rfl⟩ := reads_then.mp hbody
  obtain ⟨c₂, ps₂, rs₂, hfunctions, heoi, rfl⟩ := reads_then.mp htail₁
  cases hstart
  obtain ⟨items, rfl, hspans, hitems⟩ :=
    exists_items (spelled_function file _) (Nat.le_refl _) hfunctions
  obtain ⟨inner, hstop, rfl⟩ := (Rule.reads_node rfl rfl).mp heoi
  have heoi : ∀ q ∈ [Pair.node Rule.eoi c₂.skip c' inner], q.rule = .eoi := by simp [Pair.rule]
  obtain ⟨functions, rfl, htokens, hspells⟩ :=
    exists_spells_of_readFunctions hitems heoi (by simpa [Pair.inner] using hread)
  have hend : c₂.skip.rest = [] := by
    cases hstop with
    | stop hend => exact hend
  -- The text begins with a gap, and the functions come after it.
  obtain ⟨g, hrest, hg⟩ := (Cursor.ofString text).exists_gap
  refine ⟨_, g, _, .intro functions ?_ hspells, ?_, hg, hrest⟩
  · rintro rfl
    exact hne rfl
  · rw [← htokens, ← List.append_nil (items.map Prod.snd).flatten]
    refine hspans [] nofun ?_
    rw [hend]
    exact .nil

end Functions

end JumpCode
