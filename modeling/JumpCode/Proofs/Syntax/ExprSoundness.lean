import JumpCode.Proofs.Syntax.Lexical

/-!
# Expressions that are read are spelled

Whatever the grammar reads, and the reader makes an expression of, is a sequence of tokens that
spells the expression.  `Spans` says that tokens lie between two cursors.  Expressions are taken
level by level: each level is sound if the next is, and the last is sound if whole expressions in a
shorter text are.
-/

namespace JumpCode

open Peg Grammar

/-! ### Tokens between two cursors -/

/-- The tokens `ts` lie between `c` and `c'`, so that a text which goes on with other tokens after
    `c'` has both.  If the stretch is not `closed`, its last word might go on, and the other tokens
    must not begin with a word. -/
def Spans (closed : Bool) (c : Cursor) (ts : List Token) (c' : Cursor) : Prop :=
  ∀ us, (closed = false → us.head?.any Token.isWord = false) → Layout us c'.skip.rest →
    Layout (ts ++ us) c.rest

namespace Spans

variable {closed : Bool} {c c₁ c₂ : Cursor} {ts us : List Token}

theorem nil (c : Cursor) : Spans closed c.skip [] c := fun _ _ h => h

theorem congr (h : Spans closed c ts c₁) (hskip : c₁.skip = c₂.skip) : Spans closed c ts c₂ := by
  unfold Spans at h ⊢
  rw [← hskip]
  exact h

theorem weaken (h : Spans true c ts c₁) : Spans closed c ts c₁ :=
  fun us _ hus => h us nofun hus

theorem trans (h : Spans true c ts c₁) (h' : Spans closed c₁.skip us c₂) :
    Spans closed c (ts ++ us) c₂ := by
  intro vs hvs hlayout
  rw [List.append_assoc]
  exact h (us ++ vs) nofun (h' vs hvs hlayout)

/-- After an open stretch comes a sign, or nothing for now. -/
theorem trans_open (h : Spans false c ts c₁) (h' : Spans closed c₁.skip us c₂)
    (hus : us.head?.any Token.isWord = false) (hclosed : closed = true → us ≠ []) :
    Spans closed c (ts ++ us) c₂ := by
  intro vs hvs hlayout
  rw [List.append_assoc]
  refine h (us ++ vs) (fun _ => ?_) (h' vs hvs hlayout)
  cases us with
  | cons u us => exact hus
  | nil =>
    cases closed with
    | false => exact hvs rfl
    | true => exact absurd rfl (hclosed rfl)

theorem sign {s : String} (hvalid : (Token.sign s).isValid = true) (h : c.Over s.toList c₁)
    (hslash : s = "/" → c₁.rest.head? ≠ some '/') : Spans closed c [.sign s] c₁ :=
  fun _ _ hus => Layout.sign hvalid h hslash hus

theorem mark {s : String} (hs : (Token.sign s).isValid = true ∧ s ≠ "/") (h : c.Over s.toList c₁) :
    Spans closed c [.sign s] c₁ :=
  sign hs.1 h fun hslash => absurd hslash hs.2

/-- A word that is over. -/
theorem word {w : String} (hw : c.word = w) (hne : w.toList ≠ []) (h : c.Over w.toList c₁) :
    Spans closed c [.word w] c₁ := by
  subst hw
  have hall : c.word.toList.all Rule.isWordChar = true := by
    rw [Cursor.word, String.toList_ofList]
    exact List.all_takeWhile
  have hvalid : (Token.word c.word).isValid = true := by
    simp [Token.isValid, hall, hne]
  exact fun _ _ hus => Layout.word hvalid h (fun _ => Cursor.head_after_word h) hus

/-- A word that might go on. -/
theorem word_open {w : String} (hvalid : (Token.word w).isValid = true) (h : c.Over w.toList c₁) :
    Spans false c [.word w] c₁ := by
  intro us hus hlayout
  refine Layout.word hvalid h (fun hword => ?_) hlayout
  cases (hus rfl).symm.trans hword

theorem name (hname : isName c.word = true) (h : c.Over c.word.toList c₁) :
    Spans closed c [.word c.word] c₁ := by
  obtain ⟨x, xs, hx, -⟩ := isName_iff.mp hname
  exact word rfl (by simp [hx]) h

end Spans

/-! ### Repetitions -/

section Repetitions

variable {n : Nat} {c c' : Cursor} {ps : List (Pair Rule)}

/-- After a reading, and a gap, no more characters are left than before. -/
theorem length_skip_of_reads {a : Pattern Rule}
    (h : scriptGrammar.Reads .outermost a c (some (c', ps))) :
    c'.skip.rest.length ≤ c.rest.length :=
  Nat.le_trans (scriptRanking.length_skip c') (scriptRanking.length_of_reads h _ _ rfl).1

theorem Cursor.Over.length_skip_lt {w : List Char} (h : c.Over w c') (hw : w ≠ []) :
    c'.skip.rest.length < c.rest.length := by
  have hskip : c'.skip.rest.length ≤ c'.rest.length := scriptRanking.length_skip c'
  have hpos := List.length_pos_iff.mpr hw
  rw [h.rest, List.length_append]
  omega

/-- The rounds of a repetition, if each of them is described by some `x` that gives its pairs and
    its tokens. -/
theorem exists_rounds {ι : Type} {a : Pattern Rule} (closed : Bool)
    (pairs : ι → List (Pair Rule)) (tokens : ι → List Token) (S : ι → Prop)
    (hround : ∀ c c' ps, Solid c.rest → c.rest.length ≤ n →
      scriptGrammar.Reads .outermost a c (some (c', ps)) →
      ∃ x, ps = pairs x ∧ Spans closed c (tokens x) c' ∧ S x)
    (hsign : closed = false → ∀ x, (tokens x).head?.any Token.isWord = false)
    (hn : c.skip.rest.length ≤ n)
    (h : scriptGrammar.Reads .outermost (.many a) c.skip (some (c', ps))) :
    ∃ xs : List ι, ps = xs.flatMap pairs ∧ Spans closed c.skip (xs.flatMap tokens) c' ∧
      ∀ x ∈ xs, S x := by
  obtain ⟨c'', hmore, hskip⟩ := exists_more_of_many h
  have hrounds : c.skip.rest.length ≤ n → ∃ xs : List ι, ps = xs.flatMap pairs ∧
      Spans closed c.skip (xs.flatMap tokens) c'' ∧
      (closed = false → (xs.flatMap tokens).head?.any Token.isWord = false) ∧ ∀ x ∈ xs, S x := by
    refine more_induction (motive := fun c c'' ps => c.skip.rest.length ≤ n → ∃ xs : List ι,
      ps = xs.flatMap pairs ∧ Spans closed c.skip (xs.flatMap tokens) c'' ∧
      (closed = false → (xs.flatMap tokens).head?.any Token.isWord = false) ∧ ∀ x ∈ xs, S x)
      ?_ ?_ hmore
    · intro c _ _
      exact ⟨[], rfl, .nil c, fun _ => rfl, nofun⟩
    · intro c c₁ c₂ qs rs hfirst ih hn
      obtain ⟨x, rfl, hspans, hx⟩ := hround _ _ _ c.solid_skip hn hfirst
      obtain ⟨xs, rfl, hspans', hhead, hxs⟩ := ih (Nat.le_trans (length_skip_of_reads hfirst) hn)
      refine ⟨x :: xs, rfl, ?_, ?_, List.forall_mem_cons.mpr ⟨hx, hxs⟩⟩
      · cases closed with
        | true => exact hspans.trans hspans'
        | false => exact hspans.trans_open hspans' (hhead rfl) nofun
      · intro hclosed
        have hx := hsign hclosed x
        rw [List.flatMap_cons]
        cases htokens : tokens x with
        | nil => exact hhead hclosed
        | cons t ts => simpa [htokens] using hx
  obtain ⟨xs, hps, hspans, -, hxs⟩ := hrounds hn
  exact ⟨xs, hps, hspans.congr hskip, hxs⟩

/-- What a rule reads in at most `n` characters is one pair, and `R` holds of the pair and of the
    tokens that were read. -/
def ReadsOne (closed : Bool) (n : Nat) (r : Rule) (R : Pair Rule → List Token → Prop) : Prop :=
  ∀ c c' ps, c.rest.length ≤ n → r.Reads c (some (c', ps)) →
    ∃ q ts, ps = [q] ∧ Spans closed c ts c' ∧ R q ts

variable {item : Rule} {R : Pair Rule → List Token → Prop}

theorem exists_items (hitem : ReadsOne true n item R) (hn : c.skip.rest.length ≤ n)
    (h : scriptGrammar.Reads .outermost (.many (.rule item)) c.skip (some (c', ps))) :
    ∃ items : List (Pair Rule × List Token), ps = items.map Prod.fst ∧
      Spans true c.skip (items.map Prod.snd).flatten c' ∧ ∀ p ∈ items, R p.1 p.2 := by
  obtain ⟨items, rfl, hspans, hitems⟩ := exists_rounds true (fun p => [p.1]) Prod.snd
    (fun p => R p.1 p.2)
    (fun c c' ps _ hn h => by
      obtain ⟨q, ts, rfl, hspans, hR⟩ := hitem c c' ps hn h
      exact ⟨(q, ts), rfl, hspans, hR⟩) nofun hn h
  refine ⟨items, ?_, ?_, hitems⟩
  · rw [List.map_eq_flatMap]
  · rw [← List.flatMap_def]
    exact hspans

/-! ### Lists with commas -/

theorem exists_parts (hitem : ReadsOne false n item R) (hn : c.rest.length ≤ n)
    (h : scriptGrammar.Reads .outermost
      (.seq (.rule item) (.many (.seq (.literal ",") (.rule item)))) c (some (c', ps))) :
    ∃ parts : List (Pair Rule × List Token), ps = parts.map Prod.fst ∧
      Spans false c (commas (parts.map Prod.snd)) c' ∧ ∀ p ∈ parts, R p.1 p.2 := by
  obtain ⟨c₁, qs, rs, hfirst, hrest, rfl⟩ := reads_then.mp h
  obtain ⟨q, ts, rfl, hspans, hq⟩ := hitem _ _ _ hn hfirst
  have hlength := length_skip_of_reads hfirst
  obtain ⟨parts, rfl, hspans', hparts⟩ := exists_rounds (c := c₁) (n := n) false
    (fun p : Pair Rule × List Token => [p.1]) (fun p => .sign "," :: p.2) (fun p => R p.1 p.2)
    (fun c c' ps _ hn h => by
      obtain ⟨c₁, qs, rs, hcomma, hnext, rfl⟩ := reads_then.mp h
      obtain ⟨hover, rfl⟩ := reads_literal.mp hcomma
      have hlength := length_skip_of_reads hcomma
      obtain ⟨q, ts, rfl, hspans, hR⟩ := hitem _ _ _ (by omega) hnext
      have hsign : Spans true c [.sign ","] c₁ := .mark (by decide) hover
      exact ⟨(q, ts), rfl, hsign.trans hspans, hR⟩)
    (fun _ _ => rfl) (by omega) hrest
  refine ⟨(q, ts) :: parts, ?_, ?_, List.forall_mem_cons.mpr ⟨hq, hparts⟩⟩
  · rw [List.map_cons, List.map_eq_flatMap]
    rfl
  · rw [List.map_cons, commas_cons, List.flatMap_map]
    refine hspans.trans_open hspans' ?_ nofun
    cases parts with
    | nil => rfl
    | cons p parts => rfl

end Repetitions

/-! ### Expressions -/

theorem Expr.Spells.mono {j k : Nat} {e : Expr} {ts : List Token} (h : e.Spells k ts)
    (hjk : j ≤ k) : e.Spells j ts := by
  cases h with
  | int hdigits hvalue => exact .int hdigits hvalue
  | bool => exact .bool
  | ident hname => exact .ident hname
  | unary hk he => exact .unary (Nat.le_trans hjk hk) he
  | binary hk hl hr => exact .binary (Nat.le_trans hjk hk) hl hr
  | assign hname he =>
    obtain rfl : j = 0 := Nat.le_zero.mp hjk
    exact .assign hname he
  | call args hname hargs => exact .call args hname hargs
  | paren he => exact .paren he

namespace Reader

theorem except_bind_eq_ok {α β : Type} {x : Except Refusal α} {f : α → Except Refusal β} {b : β}
    (h : (x >>= f) = .ok b) : ∃ a, x = .ok a ∧ f a = .ok b := by
  cases x with
  | error e => cases h
  | ok a => exact ⟨a, rfl, h⟩

theorem spells_of_readInteger {digits : String} {o : Origin} {e : Expr} {k : Nat}
    (hne : digits.toList ≠ []) (hall : digits.toList.all Char.isDigit = true)
    (h : readInteger digits o = .ok e) : e.Spells k [.word digits] := by
  simp only [readInteger] at h
  split at h
  · next hle =>
    cases h
    rw [Int64.toInt_maxValue] at hle
    exact .int (Text.natural?_eq_some.mpr ⟨hne, hall, rfl⟩)
      (Int64.toInt_ofNat_of_lt (by omega)).symm
  · cases h

end Reader

section Expressions

variable {file : String} {n : Nat}

/-- If there is an expression for the pair, the tokens spell it. -/
def SpelledExpr (file : String) (k : Nat) (q : Pair Rule) (ts : List Token) : Prop :=
  ∀ e, Reader.readExpr file q = .ok e → e.Spells k ts

theorem readsOne_integer {k : Nat} : ReadsOne false n .integer (SpelledExpr file k) := by
  intro c c' ps _ h
  obtain ⟨hne, hover, rfl⟩ := reads_integer.mp h
  have hall : c.digits.all Char.isDigit = true := List.all_takeWhile
  have hword : c.digits.all Rule.isWordChar = true :=
    List.all_eq_true.mpr fun x hx => isWordChar_of_isDigit (List.all_eq_true.mp hall x hx)
  refine ⟨_, [.word (String.ofList c.digits)], rfl, ?_, fun e he => ?_⟩
  · refine .word_open ?_ (by rwa [String.toList_ofList])
    simp [Token.isValid, hne, hword]
  · have he : Reader.readInteger (c.textTo c') (Cursor.originTo file c c') = .ok e := he
    rw [hover.textTo] at he
    exact Reader.spells_of_readInteger (by simpa using hne) (by simpa using hall) he

theorem readsOne_boolean {k : Nat} : ReadsOne false n .boolean (SpelledExpr file k) := by
  intro c c' ps _ h
  obtain ⟨hword, hover, rfl⟩ := reads_boolean.mp h
  have htext : c.textTo c' = c.word := by rw [hover.textTo, String.ofList_toList]
  refine ⟨_, [.word c.word], rfl, .word rfl ?_ hover, fun e he => ?_⟩
  · simp only [List.mem_cons, List.not_mem_nil, or_false] at hword
    rcases hword with hword | hword <;> rw [hword] <;> decide
  · have he : Expr.bool (Cursor.originTo file c c') (c.textTo c' == "true") = e :=
      Except.ok.inj he
    simp only [List.mem_cons, List.not_mem_nil, or_false] at hword
    rw [← he, htext]
    rcases hword with hword | hword
    · rw [hword]
      exact .bool (b := true)
    · rw [hword]
      exact .bool (b := false)

/-- A name is read as one word, which is the text of its pair. -/
theorem readsOne_identifier {closed : Bool} : ReadsOne closed n .identifier
    fun q ts => isName q.text = true ∧ ts = [.word q.text] ∧
      ∀ file k, SpelledExpr file k q ts := by
  intro c c' ps _ h
  obtain ⟨hname, hover, rfl⟩ := reads_identifier.mp h
  have htext : c.textTo c' = c.word := by rw [hover.textTo, String.ofList_toList]
  refine ⟨_, [.word c.word], rfl, .name hname hover, ?_⟩
  show isName (c.textTo c') = true ∧ [Token.word c.word] = [.word (c.textTo c')] ∧ _
  rw [htext]
  refine ⟨hname, rfl, fun file k e he => ?_⟩
  have he : Expr.ident (Cursor.originTo file c c') (c.textTo c') = e := Except.ok.inj he
  rw [← he, htext]
  exact .ident hname

/-- Parts that spell what their pairs stand for. -/
theorem exists_spells_of_readExprs {parts : List (Pair Rule × List Token)} {es : List Expr}
    (hparts : ∀ p ∈ parts, SpelledExpr file 0 p.1 p.2)
    (h : Reader.readExprs file (parts.map Prod.fst) = .ok es) :
    ∃ args : List (Expr × List Token), es = args.map Prod.fst ∧
      parts.map Prod.snd = args.map Prod.snd ∧ ∀ a ∈ args, a.1.Spells 0 a.2 := by
  induction parts generalizing es with
  | nil =>
    cases h
    exact ⟨[], rfl, rfl, nofun⟩
  | cons p parts ih =>
    obtain ⟨hp, hparts⟩ := List.forall_mem_cons.mp hparts
    obtain ⟨e, he, h₁⟩ := Reader.except_bind_eq_ok h
    obtain ⟨es, hes, h₂⟩ := Reader.except_bind_eq_ok h₁
    cases h₂
    obtain ⟨args, rfl, htokens, hargs⟩ := ih hparts hes
    refine ⟨(e, p.2) :: args, rfl, ?_, List.forall_mem_cons.mpr ⟨hp e he, hargs⟩⟩
    rw [List.map_cons, List.map_cons, htokens]

theorem readsOne_call {k : Nat} (ih : ∀ m < n, ReadsOne false m .expression (SpelledExpr file 0)) :
    ReadsOne false n .call (SpelledExpr file k) := by
  intro c c' ps hn h
  obtain ⟨inner, hbody, rfl⟩ := (Rule.reads_node rfl rfl).mp h
  obtain ⟨c₁, ps₁, rs₁, hname, htail₁, rfl⟩ := reads_then.mp hbody
  obtain ⟨c₂, ps₂, rs₂, hopen, htail₂, rfl⟩ := reads_then.mp htail₁
  obtain ⟨c₃, ps₃, rs₃, hargs, hclose, rfl⟩ := reads_then.mp htail₂
  obtain ⟨q, ts, rfl, hspans, hisName, rfl, -⟩ := readsOne_identifier _ _ _ hn hname
  obtain ⟨hover₂, rfl⟩ := reads_literal.mp hopen
  obtain ⟨hover, rfl⟩ := reads_literal.mp hclose
  have hopen : Spans true c₁.skip [.sign "("] c₂ := .mark (by decide) hover₂
  have hclose : Spans true c₃.skip [.sign ")"] c' := .mark (by decide) hover
  have hbegin : Spans true c [.word q.text, .sign "("] c₂ := hspans.trans hopen
  rcases reads_opt.mp hargs with hargs | ⟨-, rfl, rfl⟩
  · obtain ⟨inner, hlist, rfl⟩ := (Rule.reads_node rfl rfl).mp hargs
    have hle := length_skip_of_reads hname
    have hlt := hover₂.length_skip_lt (by decide)
    obtain ⟨parts, rfl, hspans', hparts⟩ :=
      exists_parts (ih c₂.skip.rest.length (by omega)) (Nat.le_refl _) hlist
    refine ⟨_, _, rfl, (hbegin.trans (hspans'.trans_open hclose rfl nofun)).weaken, ?_⟩
    intro e he
    obtain ⟨es, hes, hend⟩ := Reader.except_bind_eq_ok he
    obtain ⟨args, rfl, htokens, hspells⟩ := exists_spells_of_readExprs hparts hes
    cases hend
    rw [htokens]
    exact .call args hisName hspells
  · rw [Cursor.skip_skip] at hclose
    refine ⟨_, _, rfl, (hbegin.trans hclose).weaken, ?_⟩
    intro e he
    cases he
    exact .call [] hisName nofun

theorem readsOne_primary (ih : ∀ m < n, ReadsOne false m .expression (SpelledExpr file 0)) :
    ReadsOne false n .primary (SpelledExpr file 6) := by
  intro c c' ps hn h
  obtain ⟨inner, hbody, rfl⟩ := (Rule.reads_node rfl rfl).mp h
  -- Whatever the one pair inside is read as, the primary expression is read as the same.
  have hinner {r : Rule} (hr : ReadsOne false n r (SpelledExpr file 6))
      (h : r.Reads c (some (c', inner))) : ∃ q ts, [.node .primary c c' inner] = [q] ∧
        Spans false c ts c' ∧ SpelledExpr file 6 q ts := by
    obtain ⟨q, ts, rfl, hspans, hq⟩ := hr c c' inner hn h
    exact ⟨_, ts, rfl, hspans, hq⟩
  rcases reads_alt.mp hbody with h₁ | ⟨-, hbody₁⟩
  · exact hinner readsOne_integer h₁
  rcases reads_alt.mp hbody₁ with h₂ | ⟨-, hbody₂⟩
  · exact hinner readsOne_boolean h₂
  rcases reads_alt.mp hbody₂ with h₃ | ⟨-, hbody₃⟩
  · exact hinner (readsOne_call ih) h₃
  rcases reads_alt.mp hbody₃ with h₄ | ⟨-, hbody₄⟩
  · obtain ⟨q, ts, rfl, hspans, -, -, hq⟩ := readsOne_identifier c c' inner hn h₄
    exact ⟨_, ts, rfl, hspans, hq file 6⟩
  · obtain ⟨c₁, ps₁, rs₁, hopen, htail₁, rfl⟩ := reads_then.mp hbody₄
    obtain ⟨c₂, ps₂, rs₂, hexpr, hclose, rfl⟩ := reads_then.mp htail₁
    obtain ⟨hover₁, rfl⟩ := reads_literal.mp hopen
    obtain ⟨hover, rfl⟩ := reads_literal.mp hclose
    have hlt := hover₁.length_skip_lt (by decide)
    obtain ⟨q, ts, rfl, hspans, hq⟩ := ih _ (by omega) _ _ _ (Nat.le_refl _) hexpr
    have hopen : Spans true c [.sign "("] c₁ := .mark (by decide) hover₁
    have hclose : Spans true c₂.skip [.sign ")"] c' := .mark (by decide) hover
    refine ⟨_, _, rfl, (hopen.trans (hspans.trans_open hclose rfl nofun)).weaken, ?_⟩
    exact fun e he => .paren (hq e he)

theorem readsOne_unary (hprimary : ReadsOne false n .primary (SpelledExpr file 6))
    (ih : ∀ m < n, ReadsOne false m .unary (SpelledExpr file 5)) :
    ReadsOne false n .unary (SpelledExpr file 5) := by
  intro c c' ps hn h
  obtain ⟨inner, hbody, rfl⟩ := (Rule.reads_node rfl rfl).mp h
  rcases reads_alt.mp hbody with h₁ | ⟨-, h₁⟩
  · obtain ⟨c₁, ps₁, rs₁, hop, hoperand, rfl⟩ := reads_then.mp h₁
    obtain ⟨op, hover, rfl⟩ := reads_unaryOp.mp hop
    have hlt := hover.length_skip_lt (by cases op <;> decide)
    obtain ⟨q, ts, rfl, hspans, hq⟩ := ih _ (by omega) _ _ _ (Nat.le_refl _) hoperand
    have hsign : Spans true c [.sign op.symbol] c₁ := .mark (by cases op <;> decide) hover
    refine ⟨_, _, rfl, hsign.trans hspans, fun e he => ?_⟩
    rw [List.singleton_append, Reader.readExpr_unary (Pair.text_node hover)] at he
    obtain ⟨v, hv, hend⟩ := Reader.except_bind_eq_ok he
    cases hend
    exact .unary (Nat.le_refl 5) (hq v hv)
  · obtain ⟨q, ts, rfl, hspans, hq⟩ := hprimary _ _ _ hn h₁
    exact ⟨_, ts, rfl, hspans, fun e he => (hq e he).mono (by decide)⟩

/-- An operand after the first, with the operator before it. -/
structure Round where
  sign : Pair Rule
  operand : Pair Rule
  op : BinaryOp
  tokens : List Token

/-- Operands of level `j + 1` after an expression of level `j` make an expression of level `j`. -/
theorem spells_of_readChain {j : Nat} {rounds : List Round} {left e : Expr} {ts : List Token}
    (hrounds : ∀ x ∈ rounds, x.op.level = j ∧ x.sign.text = x.op.symbol ∧
      SpelledExpr file (j + 1) x.operand x.tokens)
    (hleft : left.Spells j ts)
    (h : Reader.readChain file left (rounds.flatMap fun x => [x.sign, x.operand]) = .ok e) :
    e.Spells j (ts ++ rounds.flatMap fun x => .sign x.op.symbol :: x.tokens) := by
  induction rounds generalizing left ts with
  | nil =>
    cases h
    rwa [List.flatMap_nil, List.append_nil]
  | cons x rounds ih =>
    obtain ⟨⟨rfl, hsign, hoperand⟩, hrounds⟩ := List.forall_mem_cons.mp hrounds
    rw [List.flatMap_cons, List.cons_append, List.singleton_append,
      Reader.readChain_cons hsign] at h
    obtain ⟨right, hright, hrest⟩ := Reader.except_bind_eq_ok h
    have hspells := ih hrounds (.binary (Nat.le_refl _) hleft (hoperand right hright)) hrest
    rwa [List.append_assoc] at hspells

/-- One round of a chain. -/
theorem exists_round {j : Nat} (hj : 1 ≤ j ∧ j ≤ 4)
    (hnext : ReadsOne false n (levelRule (j + 1)) (SpelledExpr file (j + 1)))
    {c c' : Cursor} {ps : List (Pair Rule)} (hsolid : Solid c.rest) (hn : c.rest.length ≤ n)
    (h : scriptGrammar.Reads .outermost (.seq (.rule (opRule j)) (.rule (levelRule (j + 1)))) c
      (some (c', ps))) :
    ∃ x : Round, ps = [x.sign, x.operand] ∧ Spans false c (.sign x.op.symbol :: x.tokens) c' ∧
      x.op.level = j ∧ x.sign.text = x.op.symbol ∧
      SpelledExpr file (j + 1) x.operand x.tokens := by
  obtain ⟨c₁, ps₁, rs₁, hop, hoperand, rfl⟩ := reads_then.mp h
  obtain ⟨op, hlevel, hover, rfl⟩ := exists_of_reads_op hj hop
  have hlength := length_skip_of_reads hop
  obtain ⟨q, ts, rfl, hspans, hq⟩ := hnext _ _ _ (by omega) hoperand
  -- Had a slash followed the operator, the gap before the round would have passed over both.
  have hslash : op.symbol = "/" → c₁.rest.head? ≠ some '/' := by
    intro hop hhead
    obtain ⟨xs, hxs⟩ := List.head?_eq_some_iff.mp hhead
    refine hsolid.2 ⟨xs, ?_⟩
    rw [hover.rest, hop, hxs]
    rfl
  have hsign : Spans true c [.sign op.symbol] c₁ := .sign (by cases op <;> decide) hover hslash
  exact ⟨⟨_, q, op, ts⟩, rfl, hsign.trans hspans, hlevel, Pair.text_node hover, hq⟩

theorem readsOne_chain {j : Nat} (hj : 1 ≤ j ∧ j ≤ 4)
    (hnext : ReadsOne false n (levelRule (j + 1)) (SpelledExpr file (j + 1))) :
    ReadsOne false n (levelRule j) (SpelledExpr file j) := by
  intro c c' ps hn h
  obtain ⟨inner, hbody, rfl⟩ := (Rule.reads_node (kind_levelRule j).1 (kind_levelRule j).2).mp h
  rw [body_levelRule hj] at hbody
  obtain ⟨c₁, ps₁, rs₁, hfirst, hrest, rfl⟩ := reads_then.mp hbody
  obtain ⟨q, ts, rfl, hspans, hq⟩ := hnext _ _ _ hn hfirst
  have hlength := length_skip_of_reads hfirst
  obtain ⟨rounds, rfl, hspans', hrounds⟩ := exists_rounds (c := c₁) (n := n) false
    (fun x : Round => [x.sign, x.operand]) (fun x => .sign x.op.symbol :: x.tokens) _
    (fun _ _ _ hsolid hn h => exists_round hj hnext hsolid hn h)
    (fun _ _ => rfl) (by omega) hrest
  refine ⟨_, _, rfl, hspans.trans_open hspans' ?_ nofun, fun e he => ?_⟩
  · cases rounds with
    | nil => rfl
    | cons x rounds => rfl
  · rw [List.singleton_append, Reader.readExpr_chain hj] at he
    obtain ⟨left, hleft, hchain⟩ := Reader.except_bind_eq_ok he
    exact spells_of_readChain hrounds ((hq left hleft).mono (Nat.le_succ j)) hchain

theorem readsOne_expression (hequality : ReadsOne false n .equality (SpelledExpr file 1))
    (ih : ∀ m < n, ReadsOne false m .expression (SpelledExpr file 0)) :
    ReadsOne false n .expression (SpelledExpr file 0) := by
  intro c c' ps hn h
  obtain ⟨inner, hbody, rfl⟩ := (Rule.reads_node rfl rfl).mp h
  rcases reads_alt.mp hbody with h₁ | ⟨-, h₁⟩
  · obtain ⟨inner, hassignment, rfl⟩ := (Rule.reads_node rfl rfl).mp h₁
    obtain ⟨c₁, ps₁, rs₁, hname, htail₁, rfl⟩ := reads_then.mp hassignment
    obtain ⟨c₂, ps₂, rs₂, hassign, htail₂, rfl⟩ := reads_then.mp htail₁
    obtain ⟨c₃, ps₃, rs₃, hnot, hvalue, rfl⟩ := reads_then.mp htail₂
    obtain ⟨p, us, rfl, hspans, hisName, rfl, -⟩ :=
      readsOne_identifier _ _ _ hn hname
    obtain ⟨hover, rfl⟩ := reads_literal.mp hassign
    obtain ⟨-, rfl, rfl⟩ := reads_not.mp hnot
    rw [Cursor.skip_skip] at hvalue
    have hle := length_skip_of_reads hname
    have hlt := hover.length_skip_lt (by decide)
    obtain ⟨q, ts, rfl, hspans', hq⟩ := ih _ (by omega) _ _ _ (Nat.le_refl _) hvalue
    have hsign : Spans true c₁.skip [.sign "="] c₂ := .mark (by decide) hover
    refine ⟨_, _, rfl, hspans.trans (hsign.trans hspans'), fun e he => ?_⟩
    obtain ⟨v, hv, hend⟩ := Reader.except_bind_eq_ok he
    cases hend
    exact .assign hisName (hq v hv)
  · obtain ⟨q, ts, rfl, hspans, hq⟩ := hequality _ _ _ hn h₁
    exact ⟨_, ts, rfl, hspans, fun e he => (hq e he).mono (by decide)⟩

/-- **What is read as an expression is spelled.** -/
theorem spelled_expression (file : String) (n : Nat) :
    ReadsOne false n .expression (SpelledExpr file 0) := by
  have hboth : ReadsOne false n .expression (SpelledExpr file 0) ∧
      ReadsOne false n .unary (SpelledExpr file 5) := by
    -- Parentheses and arguments hold whole expressions, and an operator in front holds a unary one;
    -- both in a shorter text.
    induction n using Nat.strongRecOn with
    | ind n ih =>
      have h₆ := readsOne_primary fun m hm => (ih m hm).1
      have h₅ := readsOne_unary h₆ fun m hm => (ih m hm).2
      have h₄ : ReadsOne false n .multiplicative (SpelledExpr file 4) :=
        readsOne_chain (j := 4) (by decide) h₅
      have h₃ : ReadsOne false n .additive (SpelledExpr file 3) :=
        readsOne_chain (j := 3) (by decide) h₄
      have h₂ : ReadsOne false n .relational (SpelledExpr file 2) :=
        readsOne_chain (j := 2) (by decide) h₃
      have h₁ : ReadsOne false n .equality (SpelledExpr file 1) :=
        readsOne_chain (j := 1) (by decide) h₂
      exact ⟨readsOne_expression h₁ fun m hm => (ih m hm).1, h₅⟩
  exact hboth.1

end Expressions

end JumpCode
