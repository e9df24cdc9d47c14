import JumpCode.Proofs.Syntax.Lookahead

/-!
# Expressions that are spelled are read

Where the tokens of an expression are laid out, the grammar reads them and the reader makes the
expression of them again, up to origins.  Expressions are taken level by level, as they are read:
each level is complete if the next is, and the last is complete if whole expressions with fewer
tokens are.
-/

namespace JumpCode

open Peg Grammar

/-! ### Primary expressions -/

section Expressions

variable {file : String} {n : Nat}

/-- Wherever the tokens are laid out before others that cannot continue them, the rule of the level
    reads them, and the reader makes the expression of them. -/
def ReadsBack (file : String) (k : Nat) (e : Expr) (ts : List Token) : Prop :=
  ∀ c us, Layout (ts ++ us) c.rest → Follows k us → ∃ c' q e',
    (levelRule k).Reads c (some (c', [q])) ∧ Layout us c'.skip.rest ∧
      Reader.readExpr file q = .ok e' ∧ e'.bare = e.bare

theorem Reader.readInteger_of_natural? {w : String} {m : Nat} {v : Int64} (o : Origin)
    (h : Text.natural? w.toList = some m) (hv : (m : Int) = v.toInt) :
    Reader.readInteger w o = .ok (.int o v) := by
  obtain ⟨-, -, hm⟩ := Text.natural?_eq_some.mp h
  have hle : (m : Int) ≤ Int64.maxValue.toInt := by
    rw [hv]
    exact v.toInt_le
  have hofNat : Int64.ofNat m = v := by
    have hlt := v.toInt_lt
    rw [← Int64.toInt_inj, Int64.toInt_ofNat_of_lt (by omega), hv]
  simp only [Reader.readInteger, hm, hle, if_true, hofNat]

theorem Cursor.digits_eq {c c' : Cursor} {w : List Char} (h : c.Over w c')
    (hw : w.all Char.isDigit = true) (hend : c'.rest.head?.any Rule.isWordChar = false) :
    c.digits = w := by
  have htake : c'.rest.takeWhile Char.isDigit = [] := by
    cases hr : c'.rest with
    | nil => rfl
    | cons x xs =>
      rw [hr] at hend
      have hx : x.isDigit = false := by
        simp [Rule.isWordChar, Char.isAlphanum] at hend
        exact hend.1.2
      simp [hx]
  rw [Cursor.digits, h.rest, List.takeWhile_append_of_pos (List.all_eq_true.mp hw), htake,
    List.append_nil]

theorem readsBack_int {o : Origin} {v : Int64} {w : String} {m : Nat}
    (hdigits : Text.natural? w.toList = some m) (hv : (m : Int) = v.toInt) :
    ReadsBack file 6 (.int o v) [.word w] := by
  intro c us hlayout _
  obtain ⟨hword, c', hover, hrest⟩ := hlayout.at_word
  obtain ⟨hne, hall, -⟩ := Text.natural?_eq_some.mp hdigits
  have hend : c'.rest.head?.any Rule.isWordChar = false := by
    subst hword
    exact Cursor.head_after_word hover
  have hc : c.digits = w.toList := Cursor.digits_eq hover hall hend
  have hinteger : Rule.integer.Reads c (some (c', [.node .integer c c' []])) :=
    reads_integer.mpr ⟨by rwa [hc], by rwa [hc], rfl⟩
  refine ⟨c', _, .int (Cursor.originTo file c c') v, .rule rfl (.altLeft hinteger), hrest, ?_, rfl⟩
  show Reader.readInteger (c.textTo c') _ = _
  rw [hover.textTo, String.ofList_toList]
  exact Reader.readInteger_of_natural? _ hdigits hv

theorem readsBack_bool {o : Origin} {b : Bool} :
    ReadsBack file 6 (.bool o b) [.word (if b then "true" else "false")] := by
  intro c us hlayout _
  obtain ⟨hword, c', hover, hrest⟩ := hlayout.at_word
  have hinteger : Rule.integer.Reads c none :=
    fails_integer (by rw [hword]; cases b <;> decide)
  have hboolean : Rule.boolean.Reads c (some (c', [.node .boolean c c' []])) :=
    reads_boolean.mpr ⟨by rw [hword]; cases b <;> decide, by rw [hword]; exact hover, rfl⟩
  refine ⟨c', _, .bool (Cursor.originTo file c c') b,
    .rule rfl (.altRight hinteger (.altLeft hboolean)), hrest, ?_, rfl⟩
  show Except.ok (Expr.bool _ (c.textTo c' == "true")) = _
  rw [hover.textTo, String.ofList_toList]
  cases b <;> rfl

theorem isDigit_of_starts {x : Char} (h : (x.isAlpha || x == '_') = true) : x.isDigit = false := by
  rw [Bool.eq_false_iff]
  intro hdigit
  have hle : x.toNat ≤ 57 := (Char.isDigit_iff_toNat.mp hdigit).2
  rcases Bool.or_eq_true_iff.mp h with h | h
  · -- All letters come after the digits.
    rcases Bool.or_eq_true_iff.mp h with h | h
    · have hupper : 65 ≤ x.toNat := (of_decide_eq_true h).1
      omega
    · have hlower : 97 ≤ x.toNat := of_decide_eq_true (Bool.and_eq_true_iff.mp h).1
      omega
  · obtain rfl : x = '_' := beq_iff_eq.mp h
    exact absurd hdigit (by decide)

/-- Where a name stands, neither a number nor a truth value is read. -/
theorem reads_name {c : Cursor} {x : String} {us : List Token} (hname : isName x = true)
    (h : Layout (.word x :: us) c.rest) : ∃ c', Layout us c'.skip.rest ∧ c.Over x.toList c' ∧
      Rule.identifier.Reads c (some (c', [.node .identifier c c' []])) ∧
      Rule.integer.Reads c none ∧ Rule.boolean.Reads c none := by
  obtain ⟨rfl, c', hover, hrest⟩ := h.at_word
  obtain ⟨y, ys, hys, hy, -, hkeyword⟩ := isName_iff.mp hname
  refine ⟨c', hrest, hover, reads_identifier.mpr ⟨hname, hover, rfl⟩, fails_integer ?_,
    fails_boolean fun hword => hkeyword ?_⟩
  · rw [hys]
    exact isDigit_of_starts hy
  · simp only [List.mem_cons, List.not_mem_nil, or_false] at hword
    rcases hword with hword | hword <;> rw [hword] <;> decide

theorem readsBack_ident {o : Origin} {x : String} (hname : isName x = true) :
    ReadsBack file 6 (.ident o x) [.word x] := by
  intro c us hlayout hus
  obtain ⟨c', hrest, hover, hidentifier, hinteger, hboolean⟩ := reads_name hname hlayout
  have hcall : Rule.call.Reads c none := by
    obtain ⟨s, vs, rfl, hs⟩ := hus
    have hparen : ∀ s ∈ stops 6, s.toList.head? ≠ "(".toList.head? := by decide
    refine .ruleNone rfl (.seqRight hidentifier (.seqLeft (reads_literal_none ?_)))
    exact hrest.not_over (by decide) (hparen s hs)
  refine ⟨c', _, .ident (Cursor.originTo file c c') x,
    .rule rfl (.altRight hinteger (.altRight hboolean (.altRight hcall (.altLeft hidentifier)))),
    hrest, ?_, rfl⟩
  show Except.ok (Expr.ident _ (c.textTo c')) = _
  rw [hover.textTo, String.ofList_toList]

theorem readsBack_paren {e : Expr} {ts : List Token} (h : ReadsBack file 0 e ts) :
    ReadsBack file 6 e (.sign "(" :: (ts ++ [.sign ")"])) := by
  intro c us hlayout _
  have hword : c.word = "" := hlayout.word_of_sign
  have hidentifier : Rule.identifier.Reads c none := fails_identifier (by rw [hword]; decide)
  have hcall : Rule.call.Reads c none := .ruleNone rfl (.seqLeft hidentifier)
  obtain ⟨c₁, hover₁, hrest₁⟩ := hlayout.at_sign
  rw [List.append_eq, List.append_assoc] at hrest₁
  obtain ⟨c₂, q, e', hexpr, hrest₂, hread, hbare⟩ :=
    h c₁.skip _ hrest₁ ⟨")", us, rfl, by decide⟩
  obtain ⟨c₃, hover₃, hrest₃⟩ := hrest₂.at_sign
  refine ⟨c₃, .node .primary c c₃ [q], e', ?_, hrest₃, hread, hbare⟩
  refine .rule rfl (.altRight (fails_integer (by rw [hword]; decide)) ?_)
  refine .altRight (fails_boolean (by rw [hword]; decide)) (.altRight hcall ?_)
  refine .altRight hidentifier (reads_then.mpr ⟨c₁, [], [q], ?_, ?_, rfl⟩)
  · exact reads_literal.mpr ⟨hover₁, rfl⟩
  · exact reads_then.mpr ⟨c₂, [q], [], hexpr, reads_literal.mpr ⟨hover₃, rfl⟩, rfl⟩

/-- Pairs that are read as expressions one by one are read as the list of them. -/
theorem readExprs_of_parts {parts : List ((Expr × List Token) × Pair Rule)}
    (h : ∀ p ∈ parts, ∃ e', Reader.readExpr file p.2 = .ok e' ∧ e'.bare = p.1.1.bare) :
    ∃ es, Reader.readExprs file (parts.map Prod.snd) = .ok es ∧
      es.map Expr.bare = (parts.map Prod.fst).map fun a => a.1.bare := by
  induction parts with
  | nil => exact ⟨[], rfl, rfl⟩
  | cons p parts ih =>
    obtain ⟨⟨e, he, hbare⟩, hparts⟩ := List.forall_mem_cons.mp h
    obtain ⟨es, hes, hbares⟩ := ih hparts
    refine ⟨e :: es, ?_, by rw [List.map_cons, List.map_cons, List.map_cons, hbare, hbares]⟩
    rw [List.map_cons, Reader.readExprs, he, hes]
    rfl

theorem ListNext.follows {us : List Token} (h : ListNext us) : Follows 0 us := by
  obtain ⟨s, vs, rfl, rfl | rfl⟩ := h
  · exact ⟨",", vs, rfl, by decide⟩
  · exact ⟨")", vs, rfl, by decide⟩

theorem readsBack_call {o : Origin} {f : String} {args : List (Expr × List Token)}
    (hname : isName f = true) (hargs : ∀ a ∈ args, ReadsBack file 0 a.1 a.2) :
    ReadsBack file 6 (.call o f (args.map Prod.fst))
      (.word f :: .sign "(" :: (commas (args.map Prod.snd) ++ [.sign ")"])) := by
  intro c us hlayout _
  obtain ⟨c₁, hrest₁, hover₁, hidentifier, hinteger, hboolean⟩ := reads_name hname hlayout
  obtain ⟨c₂, hover₂, hrest₂⟩ := hrest₁.at_sign
  rw [List.append_eq, List.append_assoc] at hrest₂
  have htext : (Pair.node Rule.identifier c c₁ []).text = f := Pair.text_node hover₁
  -- The name, the parentheses and what is between them are read as a call.
  have hcall {c₃ c₄ : Cursor} {qs : List (Pair Rule)}
      (hopt : scriptGrammar.Reads .outermost (.opt (.rule .args)) c₂.skip (some (c₃, qs)))
      (hover : c₃.skip.Over ")".toList c₄) : Rule.primary.Reads c
        (some (c₄,
          [.node .primary c c₄ [.node .call c c₄ (.node .identifier c c₁ [] :: qs)]])) := by
    refine .rule rfl (.altRight hinteger (.altRight hboolean (.altLeft ?_)))
    refine (Rule.reads_node rfl rfl).mpr ⟨_, ?_, rfl⟩
    refine reads_then.mpr ⟨c₁, _, qs, hidentifier, ?_, rfl⟩
    refine reads_then.mpr ⟨c₂, [], qs, reads_literal.mpr ⟨hover₂, rfl⟩, ?_, rfl⟩
    exact reads_then.mpr ⟨c₃, qs, [], hopt, reads_literal.mpr ⟨hover, rfl⟩, by simp⟩
  cases args with
  | nil =>
    have hrest₂ : Layout (.sign ")" :: us) c₂.skip.rest := hrest₂
    obtain ⟨c₃, hover₃, hrest₃⟩ := hrest₂.at_sign
    have hexpression : Rule.expression.Reads c₂.skip none :=
      fails_expression hrest₂.word_of_sign (by rw [hrest₂.head?]; decide)
    have hnone : Rule.args.Reads c₂.skip none := .ruleNone rfl (.seqLeft hexpression)
    refine ⟨c₃, _, .call (Cursor.originTo file c c₃) f [],
      hcall (.optNone hnone) (by rwa [Cursor.skip_skip]), hrest₃, ?_, rfl⟩
    rw [← htext]
    rfl
  | cons a args =>
    obtain ⟨c₃, parts, hlist, hrest₃, hfst, hparts⟩ := reads_list .expression Prod.snd
      (fun a q => ∃ e', Reader.readExpr file q = .ok e' ∧ e'.bare = a.1.bare)
      (fun y hy c us h hus => by
        obtain ⟨c', q, e', hread, hrest, he', hbare⟩ := hargs y hy c us h hus.follows
        exact ⟨c', q, hread, hrest, e', he', hbare⟩) hrest₂
    obtain ⟨c₄, hover₄, hrest₄⟩ := hrest₃.at_sign
    obtain ⟨es, hes, hbares⟩ := readExprs_of_parts hparts
    have hargs : Rule.args.Reads c₂.skip
        (some (c₃, [.node .args c₂.skip c₃ (parts.map Prod.snd)])) := .rule rfl hlist
    refine ⟨c₄, _, .call (Cursor.originTo file c c₄) f es, hcall (.opt hargs) hover₄, hrest₄,
      ?_, ?_⟩
    · show (do
        let es ← Reader.readExprs file (parts.map Prod.snd)
        return Expr.call _ (Pair.node Rule.identifier c c₁ []).text es) = _
      rw [hes, htext]
      rfl
    · rw [Expr.bare, Expr.bare, Expr.bareAll_eq_map, Expr.bareAll_eq_map, hbares, hfst,
        List.map_map]
      rfl

/-! ### Levels -/

/-- All expressions of a level with at most `n` tokens are read back. -/
def AllReadBack (file : String) (n k : Nat) : Prop :=
  ∀ e ts, ts.length ≤ n → Expr.Spells k e ts → ReadsBack file k e ts

theorem length_le_commas {ts : List Token} {parts : List (List Token)} (h : ts ∈ parts) :
    ts.length ≤ (commas parts).length := by
  cases parts with
  | nil => cases h
  | cons us parts =>
    rw [commas_cons, List.length_append]
    rcases List.mem_cons.mp h with rfl | h
    · exact Nat.le_add_right _ _
    · obtain ⟨before, after, rfl⟩ := List.append_of_mem h
      simp only [List.flatMap_append, List.flatMap_cons, List.length_append, List.length_cons]
      omega

theorem allReadBack_primary (ih : ∀ m < n, AllReadBack file m 0) : AllReadBack file n 6 := by
  intro e ts hn h
  cases h with
  | int hdigits hv => exact readsBack_int hdigits hv
  | bool => exact readsBack_bool
  | ident hname => exact readsBack_ident hname
  | unary hk _ => exact absurd hk (by decide)
  | @binary _ _ op _ _ _ _ hk _ _ => exact absurd hk (by cases op <;> decide)
  | call args hname hargs =>
    refine readsBack_call hname fun a ha => ih a.2.length ?_ _ _ (Nat.le_refl _) (hargs a ha)
    have hlength := length_le_commas (List.mem_map_of_mem (f := Prod.snd) ha)
    simp only [List.length_cons, List.length_append, List.length_nil] at hn
    omega
  | @paren _ _ ts he =>
    refine readsBack_paren (ih ts.length ?_ _ _ (Nat.le_refl _) he)
    simp only [List.length_cons, List.length_append, List.length_nil] at hn
    omega

/-- A primary expression does not begin with an operator. -/
theorem Expr.Spells.head_primary {e : Expr} {ts : List Token} (h : e.Spells 6 ts) :
    ∃ t us, ts = t :: us ∧ (t.isWord = true ∨ t = .sign "(") := by
  cases h with
  | int _ _ => exact ⟨_, _, rfl, Or.inl rfl⟩
  | bool => exact ⟨_, _, rfl, Or.inl rfl⟩
  | ident _ => exact ⟨_, _, rfl, Or.inl rfl⟩
  | unary hk _ => exact absurd hk (by decide)
  | @binary _ _ op _ _ _ _ hk _ _ => exact absurd hk (by cases op <;> decide)
  | call _ _ _ => exact ⟨_, _, rfl, Or.inl rfl⟩
  | paren _ => exact ⟨_, _, rfl, Or.inr rfl⟩

theorem allReadBack_unary (hprimary : AllReadBack file n 6) (ih : ∀ m < n, AllReadBack file m 5) :
    AllReadBack file n 5 := by
  intro e ts hn h
  -- A primary expression, which no operator begins.
  have hatom (h : e.Spells 6 ts) : ReadsBack file 5 e ts := by
    intro c us hlayout hus
    obtain ⟨c', q, e', hread, hrest, he', hbare⟩ :=
      hprimary e ts hn h c us hlayout (hus.mono (by decide))
    have hop : Rule.unaryOp.Reads c none := by
      obtain ⟨t, vs, rfl, ht⟩ := h.head_primary
      apply fails_unaryOp
      rcases ht with ht | rfl
      · cases t with
        | word w =>
          rw [hlayout.head?]
          exact ⟨hlayout.head_word (by decide), hlayout.head_word (by decide)⟩
        | sign s => cases ht
      · rw [hlayout.head?]
        decide
    exact ⟨c', _, e', .rule rfl (.altRight (.seqLeft hop) hread), hrest, he', hbare⟩
  cases h with
  | int hdigits hv => exact hatom (.int hdigits hv)
  | bool => exact hatom .bool
  | ident hname => exact hatom (.ident hname)
  | @unary _ o op e ts _ he =>
    intro c us hlayout hus
    obtain ⟨c₁, hover, hrest₁⟩ := hlayout.at_sign
    have hlt : ts.length < n := hn
    obtain ⟨c', q, e', hread, hrest, he', hbare⟩ :=
      ih ts.length hlt e ts (Nat.le_refl _) he c₁.skip us hrest₁ hus
    refine ⟨c', _, .unary (Cursor.originTo file c c') op e',
      .rule rfl (.altLeft (.seq (reads_unaryOp.mpr ⟨op, hover, rfl⟩) hread)), hrest, ?_, ?_⟩
    · show Reader.readExpr file (.node .unary c c' [.node .unaryOp c c₁ [], q]) = _
      rw [Reader.readExpr_unary (Pair.text_node hover), he']
      rfl
    · rw [Expr.bare, Expr.bare, hbare]
  | @binary _ _ op _ _ _ _ hk _ _ => exact absurd hk (by cases op <;> decide)
  | call args hname hargs => exact hatom (.call args hname hargs)
  | paren he => exact hatom (.paren he)

/-- No expression begins with an equals sign. -/
theorem Layout.head_opensExpr {c : Cursor} {t : Token} {ts : List Token}
    (h : Layout (t :: ts) c.rest) (ht : t.opensExpr = true) :
    t.text.toList.head? ≠ some '=' := by
  cases t with
  | word w => exact h.head_word (by decide)
  | sign s =>
    have hs : ∀ s ∈ ["-", "!", "("], s.toList.head? ≠ some '=' := by decide
    exact hs s (List.contains_iff_mem.mp ht)

/-- An operator and its right operand after an expression of the same level. -/
def round (k : Nat) : Pattern Rule := .seq (.rule (opRule k)) (.rule (levelRule (k + 1)))

/-- At `c` a first operand is read, and then rounds that make the expression `e` of it, whatever
    rounds come after them; the tokens after the expression are `us`. -/
def ReadsChain (file : String) (k : Nat) (e : Expr) (us : List Token) (c : Cursor) : Prop :=
  ∃ c₁ q c₂ e', (levelRule (k + 1)).Reads c (some (c₁, [q])) ∧ Layout us c₂.skip.rest ∧
    e'.bare = e.bare ∧
    ∀ c₃ rs, scriptGrammar.Reads .outermost (.more (round k)) c₂ (some (c₃, rs)) →
      ∃ qs, scriptGrammar.Reads .outermost (.more (round k)) c₁ (some (c₃, qs ++ rs)) ∧
        (do Reader.readChain file (← Reader.readExpr file q) (qs ++ rs)) =
          Reader.readChain file e' rs

theorem readsChain_first {k : Nat} {e : Expr} {ts us : List Token} {c : Cursor}
    (h : ReadsBack file (k + 1) e ts) (hlayout : Layout (ts ++ us) c.rest)
    (hus : Follows (k + 1) us) : ReadsChain file k e us c := by
  obtain ⟨c₁, q, e', hread, hrest, he', hbare⟩ := h c us hlayout hus
  refine ⟨c₁, q, c₁, e', hread, hrest, hbare, fun c₃ rs hmore => ⟨[], hmore, ?_⟩⟩
  rw [he']
  rfl

/-- Another round makes an expression of the same level. -/
theorem readsChain_round {o : Origin} {op : BinaryOp} {l r : Expr} {rs us : List Token} {c : Cursor}
    (hr : r.Spells (op.level + 1) rs) (hright : ReadsBack file (op.level + 1) r rs)
    (hleft : ReadsChain file op.level l (.sign op.symbol :: (rs ++ us)) c)
    (hus : Follows (op.level + 1) us) : ReadsChain file op.level (.binary o op l r) us c := by
  obtain ⟨c₁, q, c₂, l', hfirst, hrest₂, hbare, hcontinue⟩ := hleft
  obtain ⟨c₃, hover, hrest₃⟩ := hrest₂.at_sign
  -- No equals sign stands right after the operator, so a longer operator was not meant.
  have hhead : c₃.rest.head? ≠ some '=' := by
    obtain ⟨t, vs, rfl, ht⟩ := hr.exists_head
    exact hrest₃.head_before (hrest₃.head_opensExpr ht) (by decide) (by decide)
  obtain ⟨c₄, q', r', hoperand, hrest₄, hr', hbare'⟩ := hright c₃.skip us hrest₃ hus
  have hround : scriptGrammar.Reads .outermost (round op.level) c₂.skip
      (some (c₄, [.node (opRule op.level) c₂.skip c₃ [], q'])) :=
    .seq (reads_op hover hhead) hoperand
  refine ⟨c₁, q, c₄, .binary (Cursor.originTo file c₂.skip c₃) op l' r', hfirst, hrest₄,
    by rw [Expr.bare, Expr.bare, hbare, hbare'], fun c₅ vs hmore => ?_⟩
  obtain ⟨qs, hread, hchain⟩ := hcontinue c₅ _ (.more hround hmore)
  refine ⟨qs ++ [.node (opRule op.level) c₂.skip c₃ [], q'], by simpa using hread, ?_⟩
  rw [List.append_assoc, hchain, List.cons_append, List.singleton_append,
    Reader.readChain_cons (Pair.text_node hover), hr']
  rfl

theorem reads_chain {k : Nat} {e : Expr} {ts : List Token} (h : e.Spells k ts)
    (hk : 1 ≤ k ∧ k ≤ 4) (hnext : AllReadBack file n (k + 1)) (hn : ts.length ≤ n) {c : Cursor}
    {us : List Token} (hlayout : Layout (ts ++ us) c.rest) (hus : Follows (k + 1) us) :
    ReadsChain file k e us c := by
  -- The induction goes down the left operands as long as they have the same level.
  induction h generalizing c us with
  | int hdigits hv => exact readsChain_first (hnext _ _ hn (.int hdigits hv)) hlayout hus
  | bool => exact readsChain_first (hnext _ _ hn .bool) hlayout hus
  | ident hname => exact readsChain_first (hnext _ _ hn (.ident hname)) hlayout hus
  | unary _ he _ => exact readsChain_first (hnext _ _ hn (.unary (by omega) he)) hlayout hus
  | assign _ _ _ => exact absurd hk.1 (by decide)
  | call args hname hargs _ =>
    exact readsChain_first (hnext _ _ hn (.call args hname hargs)) hlayout hus
  | paren he _ => exact readsChain_first (hnext _ _ hn (.paren he)) hlayout hus
  | @binary k o op l r ts rs hlevel hl hr ihl _ =>
    by_cases heq : k = op.level
    · subst heq
      rw [List.append_assoc] at hlayout
      simp only [List.length_append, List.length_cons] at hn
      have hleft := ihl hk hnext (by omega) hlayout (follows_op (Nat.lt_succ_self _) _)
      exact readsChain_round hr (hnext r rs (by omega) hr) hleft hus
    · exact readsChain_first (hnext _ _ hn (.binary (by omega) hl hr)) hlayout hus

theorem allReadBack_chain {k : Nat} (hk : 1 ≤ k ∧ k ≤ 4) (hnext : AllReadBack file n (k + 1)) :
    AllReadBack file n k := by
  intro e ts hn h c us hlayout hus
  obtain ⟨c₁, q, c₂, e', hfirst, hrest, hbare, hcontinue⟩ :=
    reads_chain h hk hnext hn hlayout (hus.mono (Nat.le_succ k))
  -- After the last round an operator of this level would have to follow, and none does.
  have hend : scriptGrammar.Reads .outermost (.more (round k)) c₂ (some (c₂, [])) :=
    .moreNone (.seqLeft (fails_op hk hrest hus))
  obtain ⟨qs, hmore, hchain⟩ := hcontinue c₂ [] hend
  rw [List.append_nil] at hmore hchain
  obtain ⟨c', hmany, hskip⟩ := exists_many_of_more hmore
  have hread : (levelRule k).Reads c (some (c', [.node (levelRule k) c c' (q :: qs)])) := by
    refine (Rule.reads_node (kind_levelRule k).1 (kind_levelRule k).2).mpr ⟨_, ?_, rfl⟩
    rw [body_levelRule hk]
    exact reads_then.mpr ⟨c₁, [q], qs, hfirst, hmany, rfl⟩
  refine ⟨c', _, e', hread, by rwa [hskip], ?_, hbare⟩
  rw [Reader.readExpr_chain hk, hchain]
  rfl

/-- An equals sign that no other follows is a token of its own. -/
theorem Layout.head_assign {c c₁ : Cursor} {us : List Token} (h : Layout us c.rest)
    (hover : c.Over "=".toList c₁) (hsingle : ∀ c₂, ¬ c₁.skip.Over "=".toList c₂) :
    ∃ vs, us = .sign "=" :: vs := by
  have hrest : c.rest = '=' :: c₁.rest := hover.rest
  cases us with
  | nil =>
    rw [hrest] at h
    cases h
  | cons u vs =>
    have hhead : u.text.toList.head? = some '=' := by rw [← h.head?, hrest]; rfl
    cases u with
    | word w => exact absurd hhead (h.head_word (by decide))
    | sign s =>
      have hsigns : ∀ s ∈ Token.signs, s.toList.head? = some '=' → s = "=" ∨ s = "==" := by decide
      rcases hsigns s (List.contains_iff_mem.mp h.isValid) hhead with rfl | rfl
      · exact ⟨vs, rfl⟩
      · -- The second half of the longer sign is another equals sign.
        obtain ⟨c₃, hover₃, -⟩ := h.at_sign
        have hrest₁ : c₁.rest = '=' :: c₃.rest :=
          (List.cons.inj (hrest.symm.trans hover₃.rest)).2
        have hsolid : Solid c₁.rest := by
          rw [hrest₁]
          refine ⟨rfl, ?_⟩
          rintro ⟨tail, htail⟩
          exact absurd (List.cons.inj htail).1 (by decide)
        rw [Cursor.skip_of_solid hsolid] at hsingle
        obtain ⟨c₂, hover₂, -⟩ := Cursor.exists_over (w := "=".toList) hrest₁
        exact absurd hover₂ (hsingle c₂)

/-- What has no equals sign after a first word is not read as an assignment. -/
theorem fails_assignment {e : Expr} {ts us : List Token} {c : Cursor} (h : e.Spells 1 ts)
    (hlayout : Layout (ts ++ us) c.rest) (hus : Follows 0 us) : Rule.assignment.Reads c none := by
  -- An assignment would have a name and a single equals sign in front, and the tokens do not.
  refine Rule.reads_none fun c' ps hread => ?_
  obtain ⟨inner, hbody, -⟩ := (Rule.reads_node rfl rfl).mp hread
  obtain ⟨c₁, _, _, hidentifier, htail₁, -⟩ := reads_then.mp hbody
  obtain ⟨c₂, _, _, hassign, htail₂, -⟩ := reads_then.mp htail₁
  obtain ⟨c₃, _, _, hnot, -, -⟩ := reads_then.mp htail₂
  obtain ⟨hname, hover₁, -⟩ := reads_identifier.mp hidentifier
  obtain ⟨hover₂, -⟩ := reads_literal.mp hassign
  obtain ⟨t, vs, rfl, -⟩ := h.exists_head
  cases t with
  | sign s =>
    rw [hlayout.word_of_sign] at hname
    cases hname
  | word x =>
    obtain ⟨rfl, c₄, hover₄, hrest⟩ := hlayout.at_word
    obtain rfl : c₁ = c₄ := hover₁.unique hover₄
    have hsingle (c₄ : Cursor) : ¬ c₂.skip.Over "=".toList c₄ := by
      intro hover
      cases (reads_not.mp hnot).1.unique (reads_literal.mpr ⟨hover, rfl⟩)
    obtain ⟨ws, hws⟩ := hrest.head_assign hover₂ hsingle
    cases vs with
    | nil =>
      obtain ⟨s, us, rfl, hs⟩ := hus
      obtain rfl : s = "=" := Token.sign.inj (List.cons.inj hws).1
      exact absurd hs (by decide)
    | cons v vs =>
      obtain rfl : v = .sign "=" := (List.cons.inj hws).1
      exact h.ne_assign (Nat.le_refl 1) _ vs rfl

theorem Expr.Spells.assign_or {e : Expr} {ts : List Token} (h : e.Spells 0 ts) :
    (∃ o x v us, e = .assign o x v ∧ ts = .word x :: .sign "=" :: us ∧ isName x = true ∧
      v.Spells 0 us) ∨ e.Spells 1 ts := by
  cases h with
  | int hdigits hv => exact Or.inr (.int hdigits hv)
  | bool => exact Or.inr .bool
  | ident hname => exact Or.inr (.ident hname)
  | unary _ he => exact Or.inr (.unary (by decide) he)
  | @binary _ _ op _ _ _ _ _ hl hr => exact Or.inr (.binary (level_pos op).1 hl hr)
  | assign hname he => exact Or.inl ⟨_, _, _, _, rfl, rfl, hname, he⟩
  | call args hname hargs => exact Or.inr (.call args hname hargs)
  | paren he => exact Or.inr (.paren he)

theorem allReadBack_expression (hequality : AllReadBack file n 1)
    (ih : ∀ m < n, AllReadBack file m 0) : AllReadBack file n 0 := by
  intro e ts hn h c us hlayout hus
  rcases h.assign_or with ⟨o, x, v, vs, rfl, rfl, hname, hv⟩ | h
  · obtain ⟨c₁, hrest₁, hover₁, hidentifier, -, -⟩ := reads_name hname hlayout
    obtain ⟨c₂, hover₂, hrest₂⟩ := hrest₁.at_sign
    have hsingle : scriptGrammar.Reads .outermost (.not (.literal "=")) c₂.skip
        (some (c₂.skip, [])) := by
      obtain ⟨t, ws, rfl, ht⟩ := hv.exists_head
      refine .not (reads_literal_none (hrest₂.not_over (by decide) ?_))
      exact hrest₂.head_opensExpr ht
    obtain ⟨c', q, v', hread, hrest, hv', hbare⟩ :=
      ih vs.length (by simp only [List.length_cons] at hn; omega) v vs (Nat.le_refl _) hv
        c₂.skip us hrest₂ hus
    have hassignment : Rule.assignment.Reads c
        (some (c', [.node .assignment c c' [.node .identifier c c₁ [], q]])) := by
      refine (Rule.reads_node rfl rfl).mpr ⟨_, ?_, rfl⟩
      refine reads_then.mpr ⟨c₁, _, [q], hidentifier, ?_, rfl⟩
      refine reads_then.mpr ⟨c₂, [], [q], reads_literal.mpr ⟨hover₂, rfl⟩, ?_, rfl⟩
      refine reads_then.mpr ⟨c₂.skip, [], [q], hsingle, ?_, rfl⟩
      rw [Cursor.skip_skip]
      exact hread
    refine ⟨c', _, .assign (Cursor.originTo file c c') x v', .rule rfl (.altLeft hassignment),
      hrest, ?_, by rw [Expr.bare, Expr.bare, hbare]⟩
    show (do
      let v ← Reader.readExpr file q
      return Expr.assign _ (Pair.node Rule.identifier c c₁ []).text v) = _
    rw [hv', Pair.text_node hover₁]
    rfl
  · obtain ⟨c', q, e', hread, hrest, he', hbare⟩ :=
      hequality e ts hn h c us hlayout (hus.mono (by decide))
    have hassignment := fails_assignment h hlayout hus
    exact ⟨c', _, e', .rule rfl (.altRight hassignment hread), hrest, he', hbare⟩

/-- **What spells an expression is read as it.** -/
theorem readsBack_expression (file : String) {e : Expr} {ts : List Token} (h : e.Spells 0 ts) :
    ReadsBack file 0 e ts := by
  have hall (n : Nat) : AllReadBack file n 0 ∧ AllReadBack file n 5 := by
    induction n using Nat.strongRecOn with
    | ind n ih =>
      have h₆ := allReadBack_primary fun m hm => (ih m hm).1
      have h₅ := allReadBack_unary h₆ fun m hm => (ih m hm).2
      have h₄ := allReadBack_chain (k := 4) (by decide) h₅
      have h₃ := allReadBack_chain (k := 3) (by decide) h₄
      have h₂ := allReadBack_chain (k := 2) (by decide) h₃
      have h₁ := allReadBack_chain (k := 1) (by decide) h₂
      exact ⟨allReadBack_expression h₁ fun m hm => (ih m hm).1, h₅⟩
  exact (hall ts.length).1 e ts (Nat.le_refl _) h

end Expressions

end JumpCode
