import JumpCode.Proofs.Peg.Termination
import JumpCode.Proofs.Syntax.Layout

/-!
# What the rules for words and signs read

The rules at the bottom of the grammar, in terms of the characters at a cursor.  A rule for a word
looks at `Cursor.word`, all letters, digits and underscores that follow: a keyword is read where
they are that keyword, and a name where they are a name.  A rule for operators reads the longest
operator of its level.

The grammar has a ranking, so every rule reads something or fails.  That a rule fails is always
proved by showing that it cannot have read anything.
-/

namespace JumpCode

open Peg Grammar

/-! ### The ranking of the grammar -/

theorem length_passGap (inside : Bool) (p : Position) (cs : List Char) :
    (passGap inside p cs).rest.length ≤ cs.length := by
  obtain ⟨-, g, hcs, -⟩ := gap_passGap inside p cs
  have hlength : cs.length = g.length + (passGap inside p cs).rest.length := by
    rw [← List.length_append, ← hcs]
  omega

/-- Only the end of the text and the whole program may read nothing, and the longest way to the
    first character leads from a statement through all levels of expressions to a name. -/
def scriptRanking : scriptGrammar.Ranking where
  may
    | .eoi | .program => true
    | _ => false
  rank
    | .statement => 38
    | .exprStmt | .args => 32
    | .expression => 30
    | .equality => 28
    | .relational => 26
    | .additive => 24
    | .multiplicative => 22
    | .unary => 20
    | .primary | .program => 18
    | .params | .call | .assignment => 14
    | .identifier | .function | .ifStmt | .elseClause | .whileStmt | .returnStmt | .breakStmt => 12
    | _ => 9
  bound := depthPerCharacter
  may_of_body r := by cases r <;> decide
  depth_body r := by cases r <;> decide
  bounded_body r := by cases r <;> decide
  length_skip c := length_passGap false c.position c.rest

/-- What a rule reads where gaps may pass and pairs are recorded. -/
abbrev Rule.Reads (r : Rule) (c : Cursor) (x : Result Rule) : Prop :=
  scriptGrammar.Reads .outermost (.rule r) c x

theorem bounded_rule (r : Rule) :
    (Pattern.rule r).bounded scriptRanking.may scriptRanking.rank scriptRanking.bound = true := by
  cases r <;> decide

namespace Rule

variable {r : Rule} {c c' : Cursor} {ps : List (Pair Rule)}

/-- A rule fails where it cannot have read anything. -/
theorem reads_none (h : ∀ c' ps, ¬ r.Reads c (some (c', ps))) : r.Reads c none :=
  (scriptRanking.reads_none_iff (bounded_rule r)).mpr fun x => h x.1 x.2

theorem reads_iff (hsilent : r.isSilent = false) : r.Reads c (some (c', ps)) ↔
    ∃ inner, scriptGrammar.Reads (Mode.outermost.enter r.isAtomic) r.body c (some (c', inner)) ∧
      ps = [.node r c c' inner] := by
  constructor
  · intro h
    cases h with
    | silent hr _ => cases hsilent.symm.trans hr
    | rule _ h => exact ⟨_, h, rfl⟩
  · rintro ⟨inner, h, rfl⟩
    exact .rule hsilent h

theorem reads_node (hsilent : r.isSilent = false) (hatomic : r.isAtomic = false) :
    r.Reads c (some (c', ps)) ↔
      ∃ inner, scriptGrammar.Reads .outermost r.body c (some (c', inner)) ∧
        ps = [.node r c c' inner] := by
  rw [reads_iff hsilent, hatomic]
  rfl

end Rule

/-- One expression is read after another with a gap between. -/
theorem reads_then {a b : Pattern Rule} {c c' : Cursor} {ps : List (Pair Rule)} :
    scriptGrammar.Reads .outermost (.seq a b) c (some (c', ps)) ↔ ∃ c₁ qs rs,
      scriptGrammar.Reads .outermost a c (some (c₁, qs)) ∧
        scriptGrammar.Reads .outermost b c₁.skip (some (c', rs)) ∧ ps = qs ++ rs :=
  reads_seq

/-! ### Characters and literals -/

section Characters

variable {ρ : Type} {g : Peg.Grammar ρ} {m : Mode} {c c' : Cursor} {ps : List (Pair ρ)}

theorem reads_literal {s : String} :
    g.Reads m (.literal s) c (some (c', ps)) ↔ c.Over s.toList c' ∧ ps = [] := by
  rw [← Cursor.accept?_eq_some]
  constructor
  · intro h
    obtain ⟨c₁, haccept, hc₁⟩ := Option.map_eq_some_iff.mp ((Reads.literal s).unique h)
    cases hc₁
    exact ⟨haccept, rfl⟩
  · rintro ⟨h, rfl⟩
    have hread : g.Reads m (.literal s) c _ := .literal s
    rw [h] at hread
    exact hread

theorem reads_literal_none {s : String} (h : ∀ c', ¬ c.Over s.toList c') :
    g.Reads m (.literal s) c none := by
  have hread : g.Reads m (.literal s) c _ := .literal s
  have hnone : c.accept? s.toList = none :=
    Option.eq_none_iff_forall_ne_some.mpr fun c' hc' => h c' (Cursor.accept?_eq_some.mp hc')
  rw [hnone] at hread
  exact hread

theorem reads_char {q : Char → Bool} :
    g.Reads m (.char q) c (some (c', ps)) ↔ (∃ x, q x = true ∧ c.Over [x] c') ∧ ps = [] := by
  rw [← Cursor.next?_eq_some]
  constructor
  · intro h
    obtain ⟨c₁, hnext, hc₁⟩ := Option.map_eq_some_iff.mp ((Reads.char q).unique h)
    cases hc₁
    exact ⟨hnext, rfl⟩
  · rintro ⟨h, rfl⟩
    have hread : g.Reads m (.char q) c _ := .char q
    rw [h] at hread
    exact hread

/-- Of several literals the first that fits is read. -/
theorem reads_symbols (s : String) (ss : List String) :
    g.Reads m (.oneOf (.literal s) (ss.map .literal)) c
      (((s :: ss).findSome? fun s => c.accept? s.toList).map fun c' => (c', [])) := by
  induction ss generalizing s with
  | nil =>
    have hread : g.Reads m (.literal s) c _ := .literal s
    cases h : c.accept? s.toList with
    | none => simpa [Pattern.oneOf, h] using hread
    | some c₁ => simpa [Pattern.oneOf, h] using hread
  | cons s' ss ih =>
    have hread : g.Reads m (.literal s) c _ := .literal s
    show g.Reads m (.alt (.literal s) (.oneOf (.literal s') (ss.map .literal))) c _
    cases h : c.accept? s.toList with
    | none =>
      rw [h] at hread
      simpa [h] using Reads.altRight hread (ih s')
    | some c₁ =>
      rw [h] at hread
      simpa [h] using Reads.altLeft hread

theorem exists_of_reads_symbols {s : String} {ss : List String}
    (h : g.Reads m (.oneOf (.literal s) (ss.map .literal)) c (some (c', ps))) :
    (∃ v ∈ s :: ss, c.Over v.toList c') ∧ ps = [] := by
  obtain ⟨c₁, hfind, hc₁⟩ := Option.map_eq_some_iff.mp ((reads_symbols s ss).unique h)
  cases hc₁
  obtain ⟨v, hv, haccept⟩ := List.exists_of_findSome?_eq_some hfind
  exact ⟨⟨v, hv, Cursor.accept?_eq_some.mp haccept⟩, rfl⟩

/-- Where no gaps pass, a repetition of single characters reads as many as there are. -/
theorem reads_more_char {a : Pattern ρ} {q : Char → Bool} (hm : m.gaps = false)
    (ha : ∀ c, g.Reads m a c ((c.next? q).map fun c' => (c', []))) (c : Cursor) :
    ∃ c', c.Over (c.rest.takeWhile q) c' ∧ g.Reads m (.more a) c (some (c', [])) := by
  have hgap (c : Cursor) : g.gap m c = c := by
    unfold gap
    rw [hm]
    rfl
  obtain ⟨p, r⟩ := c
  induction r generalizing p with
  | nil => exact ⟨_, .refl _, .moreNone (by rw [hgap]; exact ha _)⟩
  | cons x xs ih =>
    have hread := ha ⟨p, x :: xs⟩
    cases hx : q x with
    | false =>
      simp only [Cursor.next?, hx, Bool.false_eq_true, if_false, Option.map_none] at hread
      refine ⟨⟨p, x :: xs⟩, ?_, .moreNone (by rw [hgap]; exact hread)⟩
      simp only [List.takeWhile_cons, hx, Bool.false_eq_true, if_false]
      exact .refl _
    | true =>
      simp only [Cursor.next?, hx, if_true, Option.map_some] at hread
      obtain ⟨c', hover, hmore⟩ := ih (p.advance x)
      refine ⟨c', ?_, .more (by rw [hgap]; exact hread) hmore⟩
      simp only [List.takeWhile_cons, hx, if_true]
      have hfirst : Cursor.Over ⟨p, x :: xs⟩ [x] ⟨p.advance x, xs⟩ := ⟨rfl, rfl⟩
      exact hfirst.trans hover

theorem reads_many_char {a : Pattern ρ} {q : Char → Bool} (hm : m.gaps = false)
    (ha : ∀ c, g.Reads m a c ((c.next? q).map fun c' => (c', []))) :
    g.Reads m (.many a) c (some (c', ps)) ↔ c.Over (c.rest.takeWhile q) c' ∧ ps = [] := by
  have hgap : g.gap m c = c := by
    unfold gap
    rw [hm]
    rfl
  obtain ⟨c₁, hover, hmore⟩ := reads_more_char hm ha c
  have hmany : g.Reads m (.many a) c (some (c₁, [])) := by
    rw [reads_more, hgap] at hmore
    exact reads_many.mpr hmore
  constructor
  · intro h
    cases h.unique hmany
    exact ⟨hover, rfl⟩
  · rintro ⟨hover', rfl⟩
    rw [hover'.unique hover]
    exact hmany

end Characters

/-! ### Words -/

section Words

variable {c c' : Cursor} {ps : List (Pair Rule)}

theorem Cursor.head_after_word (h : c.Over c.word.toList c') :
    c'.rest.head?.any Rule.isWordChar = false := by
  have hrest : c.rest = c.rest.takeWhile Rule.isWordChar ++ c'.rest := by
    simpa [Cursor.word] using h.rest
  have hdrop : c'.rest = c.rest.dropWhile Rule.isWordChar := by
    refine List.append_cancel_left (hrest.symm.trans ?_)
    exact List.takeWhile_append_dropWhile.symm
  have hhead := List.head?_dropWhile_not Rule.isWordChar c.rest
  rw [hdrop]
  cases hx : (c.rest.dropWhile Rule.isWordChar).head? with
  | none => rfl
  | some x =>
    rw [hx] at hhead
    simpa using hhead

theorem reads_identChar (m : Mode) (c : Cursor) :
    scriptGrammar.Reads m (.rule .identChar) c
      ((c.next? Rule.isWordChar).map fun c' => (c', [])) :=
  .silent rfl (.char Rule.isWordChar)

/-- A word is over where no character continues it. -/
theorem reads_not_identChar {m : Mode} :
    scriptGrammar.Reads m (.not (.rule .identChar)) c (some (c', ps)) ↔
      c.rest.head?.any Rule.isWordChar = false ∧ c' = c ∧ ps = [] := by
  rw [reads_not]
  refine and_congr_left fun _ => ?_
  have hread := reads_identChar m.quiet c
  constructor
  · intro h
    have hnone : c.next? Rule.isWordChar = none := Option.map_eq_none_iff.mp (hread.unique h)
    unfold Cursor.next? at hnone
    cases hr : c.rest with
    | nil => rfl
    | cons x xs =>
      rw [hr] at hnone
      simpa using hnone
  · intro h
    have hnone : c.next? Rule.isWordChar = none := by
      unfold Cursor.next?
      cases hr : c.rest with
      | nil => rfl
      | cons x xs =>
        rw [hr] at h
        simpa using h
    rw [hnone] at hread
    exact hread

/-- One of several words, none of which begins another, is read where it is the word at the
    cursor. -/
theorem reads_words (w : String) (ws : List String)
    (hall : ∀ v ∈ w :: ws, v.toList.all Rule.isWordChar = true)
    (hfree : ∀ u ∈ w :: ws, ∀ v ∈ w :: ws, u.toList <+: v.toList → u = v) :
    scriptGrammar.Reads ⟨false, false⟩
        (.seq (.oneOf (.literal w) (ws.map .literal)) (.not (.rule .identChar))) c
        (some (c', ps)) ↔
      c.word ∈ w :: ws ∧ c.Over c.word.toList c' ∧ ps = [] := by
  rw [reads_seq]
  constructor
  · rintro ⟨c₁, qs, rs, hfirst, hsecond, rfl⟩
    obtain ⟨⟨v, hv, hover⟩, rfl⟩ := exists_of_reads_symbols hfirst
    obtain ⟨hend, rfl, rfl⟩ := reads_not_identChar.mp hsecond
    have hword : c.word = v := Cursor.word_eq hover (hall v hv) hend
    rw [hword]
    exact ⟨hv, hover, rfl⟩
  · rintro ⟨hv, hover, rfl⟩
    have hend := Cursor.head_after_word hover
    refine ⟨c', [], [], ?_, reads_not_identChar.mpr ⟨hend, rfl, rfl⟩, rfl⟩
    have hread := reads_symbols (g := scriptGrammar) (m := ⟨false, false⟩) (c := c) w ws
    cases hfind : (w :: ws).findSome? fun s => c.accept? s.toList with
    | none =>
      have hnone := List.findSome?_eq_none_iff.mp hfind _ hv
      rw [Cursor.accept?_eq_some.mpr hover] at hnone
      cases hnone
    | some c₁ =>
      -- Both the word that was found and the word at the cursor begin the text.
      obtain ⟨u, hu, haccept⟩ := List.exists_of_findSome?_eq_some hfind
      have hover₁ : c.Over u.toList c₁ := Cursor.accept?_eq_some.mp haccept
      have hsame : u = c.word := by
        rcases List.prefix_or_prefix_of_prefix ⟨_, hover₁.rest.symm⟩ ⟨_, hover.rest.symm⟩ with h | h
        · exact hfree _ hu _ hv h
        · exact (hfree _ hv _ hu h).symm
      rw [hfind] at hread
      rw [hsame] at hover₁
      rw [← hover₁.unique hover]
      exact hread

theorem Rule.reads_word {r : Rule} {w : String} {ws : List String}
    (hbody : r.body = .seq (.oneOf (.literal w) (ws.map .literal)) (.not (.rule .identChar)))
    (hsilent : r.isSilent = false) (hatomic : r.isAtomic = true)
    (hall : ∀ v ∈ w :: ws, v.toList.all Rule.isWordChar = true)
    (hfree : ∀ u ∈ w :: ws, ∀ v ∈ w :: ws, u.toList <+: v.toList → u = v) :
    r.Reads c (some (c', ps)) ↔
      c.word ∈ w :: ws ∧ c.Over c.word.toList c' ∧ ps = [.node r c c' []] := by
  rw [Rule.reads_iff hsilent, hatomic, hbody]
  constructor
  · rintro ⟨inner, h, rfl⟩
    obtain ⟨hw, hover, rfl⟩ := (reads_words w ws hall hfree).mp h
    exact ⟨hw, hover, rfl⟩
  · rintro ⟨hw, hover, rfl⟩
    exact ⟨[], (reads_words w ws hall hfree).mpr ⟨hw, hover, rfl⟩, rfl⟩

theorem reads_boolean : Rule.boolean.Reads c (some (c', ps)) ↔
    c.word ∈ ["true", "false"] ∧ c.Over c.word.toList c' ∧ ps = [.node .boolean c c' []] :=
  Rule.reads_word rfl rfl rfl (by decide) (by decide)

/-- The keyword that a rule reads, if it is such a rule. -/
def Rule.keyword? : Rule → Option String
  | .kwFn => some "fn"
  | .kwIf => some "if"
  | .kwElse => some "else"
  | .kwWhile => some "while"
  | .kwReturn => some "return"
  | .kwBreak => some "break"
  | _ => none

theorem reads_keyword {r : Rule} {w : String} (hr : r.keyword? = some w) :
    r.Reads c (some (c', ps)) ↔ c.word = w ∧ c.Over w.toList c' ∧ ps = [.node r c c' []] := by
  have hword : r.Reads c (some (c', ps)) ↔
      c.word ∈ [w] ∧ c.Over c.word.toList c' ∧ ps = [.node r c c' []] := by
    cases r <;> cases hr <;> exact Rule.reads_word rfl rfl rfl (by decide) (by decide)
  rw [hword, List.mem_singleton]
  constructor
  · rintro ⟨rfl, hover, hps⟩
    exact ⟨rfl, hover, hps⟩
  · rintro ⟨rfl, hover, hps⟩
    exact ⟨rfl, hover, hps⟩

/-- A keyword is looked for without a trace, before a name is read. -/
theorem reads_not_keyword : scriptGrammar.Reads ⟨false, false⟩ (.not (.rule .keyword)) c
    (some (c', ps)) ↔ c.word ∉ keywords ∧ c' = c ∧ ps = [] := by
  rw [reads_not]
  refine and_congr_left fun _ => ?_
  have hword (c' : Cursor) (ps : List (Pair Rule)) :
      scriptGrammar.Reads ⟨false, false⟩ (Rule.keyword.body) c (some (c', ps)) ↔
        c.word ∈ keywords ∧ c.Over c.word.toList c' ∧ ps = [] :=
    reads_words "fn" ["if", "else", "while", "return", "break", "true", "false"]
      (by decide) (by decide)
  constructor
  · intro h hkeyword
    obtain ⟨c', hover, -⟩ :
        ∃ c', c.Over c.word.toList c' ∧ c'.rest = c.rest.dropWhile Rule.isWordChar :=
      Cursor.exists_over (by simp [Cursor.word])
    cases h with
    | silent hsilent _ => cases hsilent
    | ruleNone _ hbody => cases hbody.unique ((hword c' []).mpr ⟨hkeyword, hover, rfl⟩)
  · intro hkeyword
    refine .ruleNone rfl ?_
    obtain ⟨x, hx⟩ := scriptRanking.exists_reads ⟨false, false⟩ c
      (scriptRanking.bounded_body .keyword)
    cases x with
    | none => exact hx
    | some x => exact absurd ((hword x.1 x.2).mp hx).1 hkeyword

theorem isName_iff {x : String} : isName x = true ↔ ∃ y ys, x.toList = y :: ys ∧
    (y.isAlpha || y == '_') = true ∧ ys.all Rule.isWordChar = true ∧ x ∉ keywords := by
  unfold isName
  cases x.toList with
  | nil => simp
  | cons y ys =>
    simp only [Bool.and_eq_true, Bool.not_eq_true', List.contains_eq_mem, decide_eq_false_iff_not,
      and_assoc]
    constructor
    · rintro ⟨hy, hys, hx⟩
      exact ⟨y, ys, rfl, hy, hys, hx⟩
    · rintro ⟨_, _, ⟨⟩, hy, hys, hx⟩
      exact ⟨hy, hys, hx⟩

theorem isWordChar_of_starts {x : Char} (h : (x.isAlpha || x == '_') = true) :
    Rule.isWordChar x = true := by
  unfold Rule.isWordChar Char.isAlphanum
  rcases Bool.or_eq_true_iff.mp h with h | h <;> simp [h]

theorem isWordChar_of_isDigit {x : Char} (h : x.isDigit = true) : Rule.isWordChar x = true := by
  simp [Rule.isWordChar, Char.isAlphanum, h]

theorem Cursor.toList_word_of_over {x : Char} (h : c.Over [x] c') (hx : Rule.isWordChar x = true) :
    c.word.toList = x :: c'.rest.takeWhile Rule.isWordChar := by
  simp [Cursor.word, h.rest, hx]

theorem reads_identifier : Rule.identifier.Reads c (some (c', ps)) ↔
    isName c.word = true ∧ c.Over c.word.toList c' ∧ ps = [.node .identifier c c' []] := by
  have hmany {c c' : Cursor} {ps : List (Pair Rule)} :
      scriptGrammar.Reads ⟨false, false⟩ (.many (.rule .identChar)) c (some (c', ps)) ↔
        c.Over (c.rest.takeWhile Rule.isWordChar) c' ∧ ps = [] :=
    reads_many_char rfl (reads_identChar ⟨false, false⟩)
  rw [Rule.reads_iff rfl]
  constructor
  · rintro ⟨inner, h, rfl⟩
    obtain ⟨c₁, qs, rs, hnot, htail, rfl⟩ := reads_seq.mp h
    obtain ⟨hkeyword, rfl, rfl⟩ := reads_not_keyword.mp hnot
    obtain ⟨c₂, qs, rs, hchar, hrest, rfl⟩ := reads_seq.mp htail
    obtain ⟨⟨x, hx, hfirst⟩, rfl⟩ := reads_char.mp hchar
    obtain ⟨hover, rfl⟩ := hmany.mp hrest
    have hfirst : c₁.Over [x] c₂ := hfirst
    have hword := Cursor.toList_word_of_over hfirst (isWordChar_of_starts hx)
    refine ⟨isName_iff.mpr ⟨x, _, hword, hx, List.all_takeWhile, hkeyword⟩, ?_, rfl⟩
    rw [hword]
    exact hfirst.trans hover
  · rintro ⟨hname, hover, rfl⟩
    obtain ⟨x, xs, hword, hx, -, hkeyword⟩ := isName_iff.mp hname
    have hrest : c.rest = [x] ++ (xs ++ c'.rest) := by rw [hover.rest, hword]; rfl
    obtain ⟨c₂, hfirst, -⟩ := Cursor.exists_over hrest
    obtain ⟨c₃, hover₃, -⟩ :=
      Cursor.exists_over (List.takeWhile_append_dropWhile (p := Rule.isWordChar) (l := c₂.rest)).symm
    have hsame : c₃ = c' := by
      refine Cursor.Over.unique (w := c.word.toList) ?_ hover
      rw [Cursor.toList_word_of_over hfirst (isWordChar_of_starts hx)]
      exact hfirst.trans hover₃
    rw [hsame] at hover₃
    refine ⟨[], reads_seq.mpr ⟨c, [], [], reads_not_keyword.mpr ⟨hkeyword, rfl, rfl⟩, ?_, rfl⟩, rfl⟩
    exact reads_seq.mpr ⟨c₂, [], [], reads_char.mpr ⟨⟨x, hx, hfirst⟩, rfl⟩,
      hmany.mpr ⟨hover₃, rfl⟩, rfl⟩

/-- The digits at a cursor. -/
def Cursor.digits (c : Cursor) : List Char := c.rest.takeWhile Char.isDigit

theorem reads_integer : Rule.integer.Reads c (some (c', ps)) ↔
    c.digits ≠ [] ∧ c.Over c.digits c' ∧ ps = [.node .integer c c' []] := by
  have hmany {c c' : Cursor} {ps : List (Pair Rule)} :
      scriptGrammar.Reads ⟨false, false⟩ (.many (.char Char.isDigit)) c (some (c', ps)) ↔
        c.Over c.digits c' ∧ ps = [] :=
    reads_many_char rfl fun _ => .char Char.isDigit
  have hdigits {c c' : Cursor} {x : Char} (h : c.Over [x] c') (hx : x.isDigit = true) :
      c.digits = [x] ++ c'.digits := by
    simp [Cursor.digits, h.rest, hx]
  rw [Rule.reads_iff rfl]
  constructor
  · rintro ⟨inner, h, rfl⟩
    obtain ⟨c₁, qs, rs, hchar, hrest, rfl⟩ := reads_seq.mp h
    obtain ⟨⟨x, hx, hfirst⟩, rfl⟩ := reads_char.mp hchar
    obtain ⟨hover, rfl⟩ := hmany.mp hrest
    rw [hdigits hfirst hx]
    exact ⟨by simp, hfirst.trans hover, rfl⟩
  · rintro ⟨hne, hover, rfl⟩
    obtain ⟨x, xs, hxs⟩ := List.exists_cons_of_ne_nil hne
    have hall : c.digits.all Char.isDigit = true := List.all_takeWhile
    have hx : x.isDigit = true := List.all_eq_true.mp hall x (by simp [hxs])
    have hrest : c.rest = [x] ++ (xs ++ c'.rest) := by rw [hover.rest, hxs]; rfl
    obtain ⟨c₂, hfirst, -⟩ := Cursor.exists_over hrest
    obtain ⟨c₃, hover₃, -⟩ :=
      Cursor.exists_over (List.takeWhile_append_dropWhile (p := Char.isDigit) (l := c₂.rest)).symm
    have hsame : c₃ = c' := by
      refine Cursor.Over.unique (w := c.digits) ?_ hover
      rw [hdigits hfirst hx]
      exact hfirst.trans hover₃
    rw [hsame] at hover₃
    exact ⟨[], reads_seq.mpr ⟨c₂, [], [], reads_char.mpr ⟨⟨x, hx, hfirst⟩, rfl⟩,
      hmany.mpr ⟨hover₃, rfl⟩, rfl⟩, rfl⟩

end Words

/-! ### Operators -/

section Operators

variable {c c' : Cursor} {ps : List (Pair Rule)}

/-- The rule for expressions of a level or of a higher one. -/
def levelRule : Nat → Rule
  | 0 => .expression
  | 1 => .equality
  | 2 => .relational
  | 3 => .additive
  | 4 => .multiplicative
  | 5 => .unary
  | _ => .primary

/-- The rule for the operators of a level. -/
def opRule : Nat → Rule
  | 1 => .eqOp
  | 2 => .relOp
  | 3 => .addOp
  | _ => .mulOp

theorem kind_levelRule (j : Nat) :
    (levelRule j).isSilent = false ∧ (levelRule j).isAtomic = false := by
  unfold levelRule
  split <;> decide

/-- The levels with binary operators have chains of operands of the next level. -/
theorem body_levelRule {j : Nat} (hj : 1 ≤ j ∧ j ≤ 4) : (levelRule j).body =
    .seq (.rule (levelRule (j + 1)))
      (.many (.seq (.rule (opRule j)) (.rule (levelRule (j + 1))))) := by
  obtain rfl | rfl | rfl | rfl : j = 1 ∨ j = 2 ∨ j = 3 ∨ j = 4 := by omega
  all_goals rfl

theorem Rule.reads_symbol {r : Rule} {s : String} {ss : List String}
    (hbody : r.body = .oneOf (.literal s) (ss.map .literal)) (hsilent : r.isSilent = false)
    (hatomic : r.isAtomic = false) : r.Reads c (some (c', ps)) ↔
      (s :: ss).findSome? (fun s => c.accept? s.toList) = some c' ∧ ps = [.node r c c' []] := by
  rw [Rule.reads_iff hsilent, hatomic, hbody]
  constructor
  · rintro ⟨inner, h, rfl⟩
    obtain ⟨c₁, hfind, hc₁⟩ := Option.map_eq_some_iff.mp ((reads_symbols s ss).unique h)
    cases hc₁
    exact ⟨hfind, rfl⟩
  · rintro ⟨hfind, rfl⟩
    have hread := reads_symbols (g := scriptGrammar) (m := .outermost) (c := c) s ss
    rw [hfind] at hread
    exact ⟨[], hread, rfl⟩

theorem Cursor.next?_cons (q : Char → Bool) (p : Position) (x : Char) (xs : List Char) :
    Cursor.next? q ⟨p, x :: xs⟩ = if q x then some ⟨p.advance x, xs⟩ else none := rfl

theorem exists_over_of_findSome? {ss : List String}
    (h : ss.findSome? (fun s => c.accept? s.toList) = some c') : ∃ s ∈ ss, c.Over s.toList c' := by
  obtain ⟨s, hs, haccept⟩ := List.exists_of_findSome?_eq_some h
  exact ⟨s, hs, Cursor.accept?_eq_some.mp haccept⟩

theorem exists_of_reads_op {j : Nat} (hj : 1 ≤ j ∧ j ≤ 4) (h : (opRule j).Reads c (some (c', ps))) :
    ∃ op : BinaryOp, op.level = j ∧ c.Over op.symbol.toList c' ∧
      ps = [.node (opRule j) c c' []] := by
  obtain rfl | rfl | rfl | rfl : j = 1 ∨ j = 2 ∨ j = 3 ∨ j = 4 := by omega
  all_goals
    obtain ⟨hfind, hps⟩ := (Rule.reads_symbol rfl rfl rfl).mp h
    obtain ⟨s, hs, hover⟩ := exists_over_of_findSome? hfind
    simp only [List.mem_cons, List.not_mem_nil, or_false] at hs
  · rcases hs with rfl | rfl
    · exact ⟨.eq, rfl, hover, hps⟩
    · exact ⟨.ne, rfl, hover, hps⟩
  · rcases hs with rfl | rfl | rfl | rfl
    · exact ⟨.le, rfl, hover, hps⟩
    · exact ⟨.ge, rfl, hover, hps⟩
    · exact ⟨.lt, rfl, hover, hps⟩
    · exact ⟨.gt, rfl, hover, hps⟩
  · rcases hs with rfl | rfl
    · exact ⟨.add, rfl, hover, hps⟩
    · exact ⟨.sub, rfl, hover, hps⟩
  · rcases hs with rfl | rfl | rfl
    · exact ⟨.mul, rfl, hover, hps⟩
    · exact ⟨.div, rfl, hover, hps⟩
    · exact ⟨.mod, rfl, hover, hps⟩

/-- An operator is read unless an equals sign after it makes it a longer one. -/
theorem reads_op {op : BinaryOp} (h : c.Over op.symbol.toList c')
    (hnext : c'.rest.head? ≠ some '=') :
    (opRule op.level).Reads c (some (c', [.node (opRule op.level) c c' []])) := by
  obtain ⟨p, r⟩ := c
  obtain ⟨p', r'⟩ := c'
  obtain rfl : p' = p.advanceAll op.symbol.toList := h.position
  obtain rfl : r = op.symbol.toList ++ r' := h.rest
  -- Only `<` and `>` begin longer operators, which are tried before them.
  have hlonger (p : Position) : Cursor.next? (· == '=') ⟨p, r'⟩ = none := by
    cases r' with
    | nil => rfl
    | cons x xs =>
      have hx : x ≠ '=' := fun hx => hnext (by rw [hx]; rfl)
      simp [Cursor.next?, hx]
  cases op
  all_goals
    refine (Rule.reads_symbol rfl rfl rfl).mpr ⟨?_, rfl⟩
    simp [BinaryOp.symbol, Cursor.accept?, Cursor.next?_cons, hlonger]

theorem reads_unaryOp : Rule.unaryOp.Reads c (some (c', ps)) ↔
    ∃ op : UnaryOp, c.Over op.symbol.toList c' ∧ ps = [.node .unaryOp c c' []] := by
  constructor
  · intro h
    obtain ⟨hfind, hps⟩ := (Rule.reads_symbol rfl rfl rfl).mp h
    obtain ⟨s, hs, hover⟩ := exists_over_of_findSome? hfind
    simp only [List.mem_cons, List.not_mem_nil, or_false] at hs
    rcases hs with rfl | rfl
    · exact ⟨.minus, hover, hps⟩
    · exact ⟨.not, hover, hps⟩
  · rintro ⟨op, h, rfl⟩
    obtain ⟨p, r⟩ := c
    obtain ⟨p', r'⟩ := c'
    obtain rfl : p' = p.advanceAll op.symbol.toList := h.position
    obtain rfl : r = op.symbol.toList ++ r' := h.rest
    cases op
    all_goals
      refine (Rule.reads_symbol rfl rfl rfl).mpr ⟨?_, rfl⟩
      simp [UnaryOp.symbol, Cursor.accept?, Cursor.next?_cons]

theorem UnaryOp.ofSymbol?_symbol (op : UnaryOp) : UnaryOp.ofSymbol? op.symbol = some op := by
  cases op <;> decide

theorem BinaryOp.ofSymbol?_symbol (op : BinaryOp) : BinaryOp.ofSymbol? op.symbol = some op := by
  cases op <;> decide

/-- The text of a pair is what its rule has read. -/
theorem Pair.text_node {r : Rule} {inner : List (Pair Rule)} {w : String}
    (h : c.Over w.toList c') : (Pair.node r c c' inner).text = w := by
  show c.textTo c' = w
  rw [h.textTo, String.ofList_toList]

theorem Reader.readExpr_unary {file : String} {p q : Pair Rule} {op : UnaryOp}
    (hp : p.text = op.symbol) : Reader.readExpr file (.node .unary c c' [p, q]) =
      (do return .unary (Cursor.originTo file c c') op (← Reader.readExpr file q)) := by
  have hsymbol : UnaryOp.ofSymbol? p.text = some op := by rw [hp, UnaryOp.ofSymbol?_symbol]
  rw [Reader.readExpr, hsymbol]

theorem Reader.readExpr_chain {file : String} {q : Pair Rule} {j : Nat} (hj : 1 ≤ j ∧ j ≤ 4) :
    Reader.readExpr file (.node (levelRule j) c c' (q :: ps)) =
      (do Reader.readChain file (← Reader.readExpr file q) ps) := by
  obtain rfl | rfl | rfl | rfl : j = 1 ∨ j = 2 ∨ j = 3 ∨ j = 4 := by omega
  all_goals rfl

theorem Reader.readChain_cons {file : String} {p q : Pair Rule} {op : BinaryOp} {left : Expr}
    (hp : p.text = op.symbol) : Reader.readChain file left (p :: q :: ps) = (do
      Reader.readChain file (.binary (p.origin file) op left (← Reader.readExpr file q)) ps) := by
  have hsymbol : BinaryOp.ofSymbol? p.text = some op := by rw [hp, BinaryOp.ofSymbol?_symbol]
  rw [Reader.readChain, hsymbol]

end Operators

/-! ### Repetitions after a gap -/

section Repetition

variable {a : Pattern Rule} {c c' : Cursor} {ps : List (Pair Rule)}

/-- Before a repetition a gap passes, as it does before each of its rounds.  Only where the reading
    stops is there a difference, and a gap makes up for it. -/
theorem exists_more_of_many (h : scriptGrammar.Reads .outermost (.many a) c.skip (some (c', ps))) :
    ∃ c₁, scriptGrammar.Reads .outermost (.more a) c (some (c₁, ps)) ∧ c₁.skip = c'.skip := by
  rcases reads_many.mp h with ⟨c₁, qs, rs, hfirst, hrest, rfl⟩ | ⟨hnone, rfl, rfl⟩
  · exact ⟨c', .more hfirst hrest, rfl⟩
  · exact ⟨c, .moreNone hnone, c.skip_skip.symm⟩

theorem exists_many_of_more (h : scriptGrammar.Reads .outermost (.more a) c (some (c', ps))) :
    ∃ c₁, scriptGrammar.Reads .outermost (.many a) c.skip (some (c₁, ps)) ∧ c₁.skip = c'.skip := by
  rcases reads_more.mp h with ⟨c₁, qs, rs, hfirst, hrest, rfl⟩ | ⟨hnone, rfl, rfl⟩
  · exact ⟨c', .many hfirst hrest, rfl⟩
  · exact ⟨c'.skip, .manyNone hnone, c'.skip_skip⟩

end Repetition

end JumpCode
