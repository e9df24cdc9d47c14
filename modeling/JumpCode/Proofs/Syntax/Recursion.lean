import JumpCode.Proofs.Syntax.Lexical

/-!
# Reading a script comes to an end

The ranking of the grammar says how deep each rule may go before it reads a character.  So every
rule ends at every cursor with a match or a failure, every round of a repetition reads a character,
and a rule that is entered again before it has ended has read a character since.

Gaps are passed over by a function of their own.  It does what the two rules for gaps do when they
are read one after the other as often as they can be (`reads_gapPattern`), so that the same can be
said of gaps.
-/

namespace JumpCode

open Peg Grammar

/-! ### Gaps are read by rules -/

/-- Blanks, and then comments with blanks after each. -/
def gapPattern : Pattern Rule :=
  .seq (.many (.rule .whitespace)) (.many (.seq (.rule .comment) (.many (.rule .whitespace))))

/-- One character of a comment. -/
def commentChar : Pattern Rule := .seq (.not (.literal "\n")) (.char fun _ => true)

theorem reads_whitespace (m : Mode) (c : Cursor) :
    scriptGrammar.Reads m (.rule .whitespace) c ((c.next? isGapChar).map fun c' => (c', [])) := by
  have hread := reads_symbols (g := scriptGrammar) (m := m.enter true) (c := c) " "
    ["\t", "\r", "\n"]
  have hfind : ([" ", "\t", "\r", "\n"].findSome? fun s => c.accept? s.toList) =
      c.next? isGapChar := by
    obtain ⟨p, r⟩ := c
    cases r with
    | nil => rfl
    | cons x xs =>
      by_cases hx : isGapChar x = true
      · simp only [isGapChar, Bool.or_eq_true, beq_iff_eq] at hx
        rcases hx with ((rfl | rfl) | rfl) | rfl <;> rfl
      · have hne : ¬ (((x = ' ' ∨ x = '\t') ∨ x = '\r') ∨ x = '\n') := by
          simpa only [isGapChar, Bool.or_eq_true, beq_iff_eq] using hx
        simp only [not_or] at hne
        simp [Cursor.accept?, Cursor.next?, hx, hne]
  rw [hfind] at hread
  exact .silent rfl hread

theorem reads_commentChar (recording : Bool) (c : Cursor) :
    scriptGrammar.Reads ⟨false, recording⟩ commentChar c
      ((c.next? (· != '\n')).map fun c' => (c', [])) := by
  obtain ⟨p, r⟩ := c
  cases r with
  | nil => exact .seqRight (.not (.literal "\n")) (.char _)
  | cons x xs =>
    by_cases hx : x = '\n'
    · subst hx
      exact .seqLeft (.notNone (.literal "\n"))
    · have hnot : scriptGrammar.Reads ⟨false, false⟩ (.literal "\n") ⟨p, x :: xs⟩ none := by
        apply reads_literal_none
        intro c' hover
        exact hx (List.cons.inj hover.rest).1
      have hnext : Cursor.next? (· != '\n') ⟨p, x :: xs⟩ = some ⟨p.advance x, xs⟩ := by
        simp [Cursor.next?, hx]
      rw [hnext]
      exact .seq (.not hnot) (.char _)

/-- Where no gaps pass, the first round of a repetition is like the others. -/
theorem reads_many_of_more {recording : Bool} {a : Pattern Rule} {c c' : Cursor}
    {ps : List (Pair Rule)}
    (h : scriptGrammar.Reads ⟨false, recording⟩ (.more a) c (some (c', ps))) :
    scriptGrammar.Reads ⟨false, recording⟩ (.many a) c (some (c', ps)) :=
  reads_many.mpr (reads_more.mp h)

theorem reads_comment (recording : Bool) {p : Position} {cs : List Char} {c : Cursor}
    (h : scriptGrammar.Reads ⟨false, false⟩ (.more commentChar) ⟨(p.advance '/').advance '/', cs⟩
      (some (c, []))) :
    scriptGrammar.Reads ⟨false, recording⟩ (.rule .comment) ⟨p, '/' :: '/' :: cs⟩
      (some (c, [])) := by
  have hslashes : scriptGrammar.Reads ⟨false, false⟩ (.literal "//") ⟨p, '/' :: '/' :: cs⟩
      (some (⟨(p.advance '/').advance '/', cs⟩, [])) := .literal "//"
  exact .silent rfl (Reads.seq hslashes (reads_many_of_more h))

theorem reads_comment_none {recording : Bool} {c : Cursor} (h : ¬ ['/', '/'] <+: c.rest) :
    scriptGrammar.Reads ⟨false, recording⟩ (.rule .comment) c none := by
  refine .silent rfl (.seqLeft (reads_literal_none ?_))
  intro c' hover
  exact h ⟨c'.rest, hover.rest.symm⟩

/-- Passing over a gap, or over the rest of one when a comment has begun, is to read the characters
    of that comment, then blanks, and then comments with blanks after each. -/
theorem reads_passGap (recording inside : Bool) (p : Position) (cs : List Char) :
    ∃ c₀ c₁,
      (if inside then scriptGrammar.Reads ⟨false, false⟩ (.more commentChar) ⟨p, cs⟩ (some (c₀, []))
        else c₀ = ⟨p, cs⟩) ∧
      scriptGrammar.Reads ⟨false, recording⟩ (.more (.rule .whitespace)) c₀ (some (c₁, [])) ∧
      scriptGrammar.Reads ⟨false, recording⟩
        (.more (.seq (.rule .comment) (.many (.rule .whitespace)))) c₁
        (some (passGap inside p cs, [])) := by
  fun_induction passGap inside p cs with
  | case1 inside p =>
    have hend : ¬ ['/', '/'] <+: ([] : List Char) := by simp
    refine ⟨⟨p, []⟩, ⟨p, []⟩, ?_, .moreNone (reads_whitespace _ _),
      .moreNone (.seqLeft (reads_comment_none hend))⟩
    cases inside with
    | false => rfl
    | true => exact .moreNone (reads_commentChar false _)
  | case2 p x cs ih =>
    obtain ⟨c₀, c₁, hfirst, hblanks, hcomments⟩ := ih
    have hchar := reads_commentChar false ⟨p, x :: cs⟩
    by_cases hx : x = '\n'
    · -- The comment ends before the newline, which is a blank.
      subst hx
      cases hfirst
      have hblank : scriptGrammar.Reads ⟨false, recording⟩ (.rule .whitespace) ⟨p, '\n' :: cs⟩
          (some (⟨p.advance '\n', cs⟩, [])) := reads_whitespace _ _
      exact ⟨_, c₁, .moreNone hchar, .more hblank hblanks, hcomments⟩
    · have hnext : Cursor.next? (· != '\n') ⟨p, x :: cs⟩ = some ⟨p.advance x, cs⟩ := by
        simp [Cursor.next?, hx]
      have hstill : (x != '\n') = true := by simp [hx]
      rw [hnext] at hchar
      rw [hstill] at hfirst hcomments
      rw [hstill]
      exact ⟨c₀, c₁, .more hchar hfirst, hblanks, hcomments⟩
  | case3 p cs ih =>
    obtain ⟨c₀, c₁, hfirst, hblanks, hcomments⟩ := ih
    have hround := Reads.seq (reads_comment recording hfirst) (reads_many_of_more hblanks)
    exact ⟨_, _, rfl, .moreNone (reads_whitespace _ _), .more hround hcomments⟩
  | case4 p x cs hcomment hx ih =>
    obtain ⟨c₀, c₁, hfirst, hblanks, hcomments⟩ := ih
    cases hfirst
    have hblank := reads_whitespace ⟨false, recording⟩ ⟨p, x :: cs⟩
    simp only [Cursor.next?, hx, if_true, Option.map_some] at hblank
    exact ⟨_, c₁, rfl, .more hblank hblanks, hcomments⟩
  | case5 p x cs hcomment hx =>
    have hblank := reads_whitespace ⟨false, recording⟩ ⟨p, x :: cs⟩
    simp only [Cursor.next?, hx, Bool.false_eq_true, if_false, Option.map_none] at hblank
    refine ⟨_, _, rfl, .moreNone hblank, .moreNone (.seqLeft (reads_comment_none ?_))⟩
    rintro ⟨tail, htail⟩
    obtain ⟨hfirst, hsecond⟩ := List.cons.inj (htail : '/' :: '/' :: tail = x :: cs)
    exact hcomment tail hfirst.symm hsecond.symm

/-- **Gaps are what the rules for blanks and comments read.** -/
theorem reads_gapPattern (recording : Bool) (c : Cursor) :
    scriptGrammar.Reads ⟨false, recording⟩ gapPattern c (some (scriptGrammar.skip c, [])) := by
  obtain ⟨c₀, c₁, hfirst, hblanks, hcomments⟩ := reads_passGap recording false c.position c.rest
  cases hfirst
  exact .seq (reads_many_of_more hblanks) (reads_many_of_more hcomments)

theorem bounded_gapPattern :
    gapPattern.bounded scriptRanking.may scriptRanking.rank scriptRanking.bound = true := by
  decide

/-! ### Rules and repetitions -/

/-- A depth in proportion to the text that is left is enough for whatever fits the ranking. -/
theorem enough_le {p : Pattern Rule}
    (hp : p.bounded scriptRanking.may scriptRanking.rank scriptRanking.bound = true) (n : Nat) :
    scriptRanking.enough p n ≤ depthPerCharacter * (n + 1) := by
  have hdepth : p.depth scriptRanking.may scriptRanking.rank ≤ depthPerCharacter :=
    Pattern.depth_le_of_bounded hp
  rw [Nat.mul_succ, Nat.add_comm]
  exact Nat.add_le_add_right hdepth _

/-- **Reading a rule comes to an end, at every cursor of every text.**  A depth in proportion to the
    text that is left is enough to read the rule or to see that it fails, and what is found does not
    depend on the depth.  The same holds of gaps, which the rules for blanks and comments read.
    A round of a repetition that is read reads a character, and a rule that calls itself through
    whatever other rules has read a character before it does; calls being those that the evaluator
    makes. -/
theorem every_rule_comes_to_an_end (r : Rule) (m : Mode) (c : Cursor) :
    (∃ x, ∀ n t, depthPerCharacter * (c.rest.length + 1) ≤ n →
      (scriptGrammar.eval n m (.rule r) c t).result? = some x) ∧
    (∀ recording n t, depthPerCharacter * (c.rest.length + 1) ≤ n →
      (scriptGrammar.eval n ⟨false, recording⟩ gapPattern c t).result? =
        some (some (scriptGrammar.skip c, []))) ∧
    (∀ a ∈ gapPattern.repeated ++ r.body.repeated, ∀ m c c' ps,
      scriptGrammar.Reads m a c (some (c', ps)) → c'.rest.length < c.rest.length) ∧
    (∀ n t, scriptGrammar.eval n m (.rule r) c t = .exhausted ↔
      scriptGrammar.Descends n ⟨m, .rule r, c⟩) ∧
    (∀ m' c', Relation.TransGen scriptGrammar.Calls ⟨m, .rule r, c⟩ ⟨m', .rule r, c'⟩ →
      c'.rest.length < c.rest.length) := by
  refine ⟨?_, ?_, ?_, ?_, ?_⟩
  · obtain ⟨x, hx⟩ := scriptRanking.exists_reads m c (bounded_rule r)
    refine ⟨x, fun n t hn => ?_⟩
    exact scriptRanking.eval_eq_of_reads hx (bounded_rule r)
      (Nat.le_trans (enough_le (bounded_rule r) _) hn)
  · intro recording n t hn
    exact scriptRanking.eval_eq_of_reads (reads_gapPattern recording c) bounded_gapPattern
      (Nat.le_trans (enough_le bounded_gapPattern _) hn)
  · intro a ha m c c' ps h
    rcases List.mem_append.mp ha with ha | ha
    · exact scriptRanking.length_lt_of_repeated bounded_gapPattern ha h
    · exact scriptRanking.length_lt_of_repeated (scriptRanking.bounded_body r) ha h
  · intro n t
    exact eval_eq_exhausted_iff
  · intro m' c' h
    exact scriptRanking.length_lt_of_cycle (bounded_rule r) h

/-- After a minus the rule for operands calls itself, and a blank is read in a round of a gap. -/
theorem every_rule_comes_to_an_end_minus :
    (∃ x, (scriptGrammar.eval 3072 .outermost (.rule .unary) (.ofString "-1") .none).result? =
      some x) ∧
    (∃ c', Relation.TransGen scriptGrammar.Calls ⟨.outermost, .rule .unary, .ofString "-1"⟩
        ⟨.outermost, .rule .unary, c'⟩ ∧ c'.rest.length < 2) ∧
    ∃ c', scriptGrammar.Reads .outermost (.rule .whitespace) (.ofString " 1") (some (c', [])) ∧
      c'.rest.length < 2 := by
  have hminus : scriptGrammar.Reads .outermost (.rule .unaryOp) (.ofString "-1")
      (some (⟨⟨1, 1, 2⟩, ['1']⟩, [.node .unaryOp (.ofString "-1") ⟨⟨1, 1, 2⟩, ['1']⟩ []])) :=
    reads_of_eval (n := 4) (t := .none) rfl
  have hcycle : Relation.TransGen scriptGrammar.Calls
      ⟨.outermost, .rule .unary, .ofString "-1"⟩ ⟨.outermost, .rule .unary, ⟨⟨1, 1, 2⟩, ['1']⟩⟩ :=
    ((Relation.TransGen.single .rule).tail .altLeft).tail (.seqRight hminus)
  have hblank : scriptGrammar.Reads .outermost (.rule .whitespace) (.ofString " 1")
      (some (⟨⟨1, 1, 2⟩, ['1']⟩, [])) := reads_whitespace _ _
  obtain ⟨⟨x, hx⟩, -, hrounds, -, hshorter⟩ :=
    every_rule_comes_to_an_end .unary .outermost (.ofString "-1")
  refine ⟨⟨x, hx 3072 .none (by decide)⟩, ⟨_, hcycle, hshorter _ _ hcycle⟩, _, hblank, ?_⟩
  exact hrounds _ (List.mem_append_left _ List.mem_cons_self) _ _ _ _ hblank

end JumpCode
