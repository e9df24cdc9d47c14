import JumpCode.Proofs.Syntax.Rendering

/-!
# Texts and the tokens in them

A cursor that passes over a piece of text is described by `Cursor.Over`, and the text between two
such cursors is that piece.  `Cursor.skip` passes over a gap; what it stops at is `Solid`, and every
layout is.  So a cursor at a token finds the token and, after a gap, the next one: `Layout` can be
taken apart and put together one token at a time.
-/

namespace JumpCode

/-! ### Cursors that move over a piece of text -/

namespace Cursor

/-- Passing over the text `w` leads from `c` to `c'`. -/
structure Over (c : Cursor) (w : List Char) (c' : Cursor) : Prop where
  rest : c.rest = w ++ c'.rest
  position : c'.position = c.position.advanceAll w

variable {c c₁ c₂ : Cursor} {v w : List Char}

theorem Over.refl (c : Cursor) : c.Over [] c := ⟨rfl, rfl⟩

theorem Over.trans (h : c.Over v c₁) (h' : c₁.Over w c₂) : c.Over (v ++ w) c₂ := by
  refine ⟨?_, ?_⟩
  · rw [h.rest, h'.rest, List.append_assoc]
  · rw [h'.position, h.position, Position.advanceAll_append]

theorem exists_over {r : List Char} (h : c.rest = w ++ r) : ∃ c', c.Over w c' ∧ c'.rest = r :=
  ⟨⟨c.position.advanceAll w, r⟩, ⟨h, rfl⟩, rfl⟩

theorem Over.unique (h : c.Over w c₁) (h' : c.Over w c₂) : c₁ = c₂ := by
  obtain ⟨p₁, r₁⟩ := c₁
  obtain ⟨p₂, r₂⟩ := c₂
  have hrest : r₁ = r₂ := List.append_cancel_left (h.rest.symm.trans h'.rest)
  have hposition : p₁ = p₂ := h.position.trans h'.position.symm
  rw [hrest, hposition]

theorem next?_eq_some {q : Char → Bool} :
    c.next? q = some c₁ ↔ ∃ x, q x = true ∧ c.Over [x] c₁ := by
  unfold next?
  constructor
  · intro h
    split at h
    · cases h
    · next x xs hrest =>
      split at h
      · next hx =>
        cases h
        exact ⟨x, hx, hrest, rfl⟩
      · cases h
  · rintro ⟨x, hx, h⟩
    rw [h.rest]
    simp only [List.cons_append, List.nil_append, hx, if_pos]
    rw [← Position.advanceAll_nil (c.position.advance x), ← Position.advanceAll_cons, ← h.position]

theorem accept?_eq_some : c.accept? w = some c₁ ↔ c.Over w c₁ := by
  induction w generalizing c with
  | nil =>
    constructor
    · intro h
      cases h
      exact .refl _
    · intro h
      rw [← (Over.refl c).unique h]
      rfl
  | cons x xs ih =>
    simp only [accept?, Option.bind_eq_some_iff, next?_eq_some, beq_iff_eq, ih]
    constructor
    · rintro ⟨c₂, ⟨y, rfl, hfirst⟩, hrest⟩
      exact hfirst.trans hrest
    · intro h
      have hcons : c.rest = [x] ++ (xs ++ c₁.rest) := h.rest
      obtain ⟨c₂, hfirst, hrest⟩ := exists_over hcons
      refine ⟨c₂, ⟨x, rfl, hfirst⟩, hrest, ?_⟩
      rw [h.position, hfirst.position]
      rfl

/-! ### The text between two cursors -/

/-- How many bytes a text fills. -/
def bytes : List Char → Nat
  | [] => 0
  | x :: w => x.utf8Size + bytes w

theorem byte_advanceAll (p : Position) (w : List Char) :
    (p.advanceAll w).byte = p.byte + bytes w := by
  induction w generalizing p with
  | nil => rfl
  | cons x xs ih =>
    have hbyte : (p.advance x).byte = p.byte + x.utf8Size := by
      unfold Position.advance
      split <;> rfl
    rw [Position.advanceAll_cons, ih, hbyte, Nat.add_assoc]
    rfl

theorem takeBytes_append (w r : List Char) : takeBytes (bytes w) (w ++ r) = w := by
  induction w with
  | nil =>
    cases r with
    | nil => rfl
    | cons x xs =>
      have hpos : 0 < x.utf8Size := x.utf8Size_pos
      simp [bytes, takeBytes, Nat.not_le.mpr hpos]
  | cons x xs ih =>
    simp [takeBytes, bytes, ih]

theorem Over.textTo (h : c.Over w c₁) : c.textTo c₁ = String.ofList w := by
  unfold Cursor.textTo
  rw [h.position, byte_advanceAll, Nat.add_sub_cancel_left, h.rest, takeBytes_append]

end Cursor

/-! ### Gaps -/

/-- A text that does not begin with a gap. -/
def Solid (r : List Char) : Prop := r.head?.any isGapChar = false ∧ ¬ ['/', '/'] <+: r

theorem Solid.nil : Solid [] := ⟨rfl, nofun⟩

/-- The cursor after the gap that follows. -/
def Cursor.skip (c : Cursor) : Cursor := passGap false c.position c.rest

theorem passGap_of_solid {p : Position} {r : List Char} (h : Solid r) :
    passGap false p r = ⟨p, r⟩ := by
  obtain ⟨hblank, hcomment⟩ := h
  unfold passGap
  split
  · rfl
  · contradiction
  · next cs _ => exact absurd ⟨cs, rfl⟩ hcomment
  · next c cs _ _ =>
    have hc : isGapChar c = false := by simpa using hblank
    simp [hc]

/-- A comment goes on up to the end of its line. -/
theorem passGap_inside {p : Position} {x : Char} {cs : List Char} (h : x ≠ '\n') :
    passGap true p (x :: cs) = passGap true (p.advance x) cs := by
  have hstill : (x != '\n') = true := by simp [h]
  exact congrArg (passGap · (p.advance x) cs) hstill

theorem passGap_comment {p : Position} {text r : List Char} (h : '\n' ∉ text) :
    ∃ p', passGap true p (text ++ '\n' :: r) = passGap false p' r := by
  induction text generalizing p with
  | nil => exact ⟨_, rfl⟩
  | cons x xs ih =>
    obtain ⟨hx, hxs⟩ := not_or.mp (mt List.mem_cons.mpr h)
    rw [List.cons_append, passGap_inside (Ne.symm hx)]
    exact ih hxs

theorem rest_passGap_last {p : Position} {text : List Char} (h : '\n' ∉ text) :
    (passGap true p text).rest = [] := by
  induction text generalizing p with
  | nil => rfl
  | cons x xs ih =>
    obtain ⟨hx, hxs⟩ := not_or.mp (mt List.mem_cons.mpr h)
    rw [passGap_inside (Ne.symm hx)]
    exact ih hxs

/-- Skipping passes over every gap before a solid text. -/
theorem rest_passGap {p : Position} {g r : List Char} (hg : Gap r g) (hr : Solid r) :
    (passGap false p (g ++ r)).rest = r := by
  induction hg generalizing p with
  | none => rw [List.nil_append, passGap_of_solid hr]
  | @blank c g hc _ ih =>
    have hslash : c ≠ '/' := by
      rintro rfl
      cases hc
    rw [List.cons_append, passGap]
    · simp only [hc, if_pos]
      exact ih
    · rintro cs rfl
      contradiction
  | @comment text g htext _ ih =>
    obtain ⟨p', hp'⟩ := passGap_comment (p := (p.advance '/').advance '/') (r := g ++ r) htext
    simp only [List.cons_append, List.append_assoc, passGap, hp']
    exact ih
  | last htext hr' =>
    subst hr'
    simp only [List.append_nil, passGap]
    exact rest_passGap_last htext

/-- A comment may have another character after its two slashes. -/
theorem Gap.longer {r g : List Char} {x : Char} (h : Gap r ('/' :: '/' :: g)) (hx : x ≠ '\n') :
    Gap r ('/' :: '/' :: x :: g) := by
  cases h with
  | blank hslash _ => cases hslash
  | @comment text g htext hg =>
    have htext' : '\n' ∉ x :: text := by simp [htext, Ne.symm hx]
    exact .comment htext' hg
  | last htext hr => exact .last (by simp [htext, Ne.symm hx]) hr

/-- What is skipped is a gap, or the rest of one if a comment has begun, and what is stopped at is
    solid. -/
theorem gap_passGap (inside : Bool) (p : Position) (cs : List Char) :
    Solid (passGap inside p cs).rest ∧
      ∃ g, cs = g ++ (passGap inside p cs).rest ∧
        Gap (passGap inside p cs).rest (if inside then '/' :: '/' :: g else g) := by
  fun_induction passGap inside p cs with
  | case1 inside p =>
    refine ⟨.nil, [], rfl, ?_⟩
    split
    · exact .last List.not_mem_nil rfl
    · exact .none
  | case2 p x cs ih =>
    obtain ⟨hsolid, g, hcs, hg⟩ := ih
    refine ⟨hsolid, x :: g, by rw [List.cons_append, ← hcs], ?_⟩
    -- A newline ends the comment, and any other character belongs to it.
    by_cases hx : x = '\n'
    · subst hx
      have htext : '\n' ∉ ([] : List Char) := List.not_mem_nil
      exact .comment htext hg
    · have hstill : (x != '\n') = true := by simp [hx]
      rw [hstill] at hg
      simp only [hstill]
      exact hg.longer hx
  | case3 p cs ih =>
    obtain ⟨hsolid, g, hcs, hg⟩ := ih
    exact ⟨hsolid, '/' :: '/' :: g, by rw [List.cons_append, List.cons_append, ← hcs], hg⟩
  | case4 p c cs hcomment hc ih =>
    obtain ⟨hsolid, g, hcs, hg⟩ := ih
    exact ⟨hsolid, c :: g, by rw [List.cons_append, ← hcs], .blank hc hg⟩
  | case5 p c cs hcomment hc =>
    refine ⟨⟨by simpa using hc, ?_⟩, [], rfl, .none⟩
    rintro ⟨tail, htail⟩
    obtain ⟨hfirst, hsecond⟩ := List.cons.inj (htail : '/' :: '/' :: tail = c :: cs)
    exact hcomment tail hfirst.symm hsecond.symm

namespace Cursor

theorem solid_skip (c : Cursor) : Solid c.skip.rest := (gap_passGap false c.position c.rest).1

theorem exists_gap (c : Cursor) : ∃ g, c.rest = g ++ c.skip.rest ∧ Gap c.skip.rest g :=
  (gap_passGap false c.position c.rest).2

theorem rest_skip {c : Cursor} {g r : List Char} (h : c.rest = g ++ r) (hg : Gap r g)
    (hr : Solid r) : c.skip.rest = r := by
  unfold skip
  rw [h, rest_passGap hg hr]

theorem skip_of_solid {c : Cursor} (h : Solid c.rest) : c.skip = c := passGap_of_solid h

@[simp] theorem skip_skip (c : Cursor) : c.skip.skip = c.skip := skip_of_solid c.solid_skip

end Cursor

/-! ### First characters -/

theorem Gap.isWordChar_head {r g : List Char} {x : Char} (h : Gap r (x :: g)) :
    Rule.isWordChar x = false := by
  cases h with
  | blank hx _ =>
    simp only [isGapChar, Bool.or_eq_true, beq_iff_eq] at hx
    rcases hx with ((rfl | rfl) | rfl) | rfl <;> decide
  | comment _ _ => decide
  | last _ _ => decide

theorem isGapChar_of_isWordChar {x : Char} (h : Rule.isWordChar x = true) :
    isGapChar x = false := by
  rw [Bool.eq_false_iff]
  intro hx
  simp only [isGapChar, Bool.or_eq_true, beq_iff_eq] at hx
  rcases hx with ((rfl | rfl) | rfl) | rfl <;> revert h <;> decide

namespace Token

/-- A sign begins with a character of its own, and only the slash with a slash. -/
theorem head_of_mem_signs : ∀ s ∈ signs, (s.toList.head?.any fun x =>
    !Rule.isWordChar x && !isGapChar x && (x != '/' || s == "/")) = true := by
  decide

theorem head_of_isValid {t : Token} (h : t.isValid = true) : ∃ x ∈ t.text.toList.head?,
    Rule.isWordChar x = t.isWord ∧ isGapChar x = false ∧ (x = '/' → t = .sign "/") := by
  cases t with
  | word w =>
    simp only [isValid, Bool.and_eq_true, Bool.not_eq_true', List.isEmpty_eq_false_iff,
      List.all_eq_true] at h
    obtain ⟨hne, hall⟩ := h
    obtain ⟨x, xs, hw⟩ := List.exists_cons_of_ne_nil hne
    have hx : Rule.isWordChar x = true := hall x (by simp [hw])
    refine ⟨x, by simp [text, hw], hx, isGapChar_of_isWordChar hx, ?_⟩
    rintro rfl
    cases hx
  | sign s =>
    have hhead := head_of_mem_signs s (List.contains_iff_mem.mp h)
    simp only [Option.any_eq_true, Bool.and_eq_true, Bool.not_eq_true', Bool.or_eq_true,
      bne_iff_ne, beq_iff_eq] at hhead
    obtain ⟨x, hx, ⟨hword, hgap⟩, hslash⟩ := hhead
    exact ⟨x, hx, hword, hgap, fun hx' => by rw [hslash.resolve_left (not_not_intro hx')]⟩

end Token

namespace Layout

variable {t : Token} {ts : List Token} {r : List Char}

/-- A text begins with the first character of its first token. -/
theorem exists_head (h : Layout (t :: ts) r) : ∃ x xs, r = x :: xs ∧
    t.text.toList.head? = some x ∧ Rule.isWordChar x = t.isWord := by
  cases h with
  | cons hvalid _ _ _ =>
    obtain ⟨x, hx, hword, -⟩ := Token.head_of_isValid hvalid
    obtain ⟨xs, hxs⟩ := List.head?_eq_some_iff.mp hx
    exact ⟨x, xs ++ _, by rw [hxs]; rfl, hx, hword⟩

theorem solid (h : Layout ts r) : Solid r := by
  cases h with
  | nil => exact .nil
  | @cons t ts g rest hvalid _ hapart _ =>
    obtain ⟨x, hx, -, hgap, hslash⟩ := Token.head_of_isValid hvalid
    obtain ⟨xs, hxs⟩ := List.head?_eq_some_iff.mp hx
    rw [hxs]
    refine ⟨by simp [hgap], ?_⟩
    rintro ⟨tail, htail⟩
    obtain ⟨rfl, hsecond⟩ := List.cons.inj htail
    -- Only the slash begins with a slash, and no slash stands right after it.
    obtain rfl := hslash rfl
    obtain rfl : [] = xs := (List.cons.inj (hxs : ['/'] = '/' :: xs)).2
    refine hapart rfl ?_
    rw [List.head?_eq_some_iff]
    exact ⟨tail, hsecond.symm⟩

/-- A word is not followed by a character that would continue it. -/
theorem head_after_word {w : String} {g : List Char} (hg : Gap r g)
    (hapart : (Token.word w).Apart g ts r) (h : Layout ts r) :
    (g ++ r).head?.any Rule.isWordChar = false := by
  cases g with
  | cons x g => simp [hg.isWordChar_head]
  | nil =>
    cases ts with
    | nil =>
      cases h
      rfl
    | cons t ts =>
      obtain ⟨x, xs, rfl, -, hx⟩ := h.exists_head
      have hsign : t.isWord = false := by
        rw [Bool.eq_false_iff]
        intro ht
        exact hapart (by simp [ht]) rfl
      simp [hx, hsign]

end Layout

/-! ### One token at a time -/

/-- The letters, digits and underscores at a cursor. -/
def Cursor.word (c : Cursor) : String := String.ofList (c.rest.takeWhile Rule.isWordChar)

namespace Cursor

variable {c c' : Cursor}

theorem word_eq {w : String} (h : c.Over w.toList c') (hw : w.toList.all Rule.isWordChar = true)
    (hend : c'.rest.head?.any Rule.isWordChar = false) : c.word = w := by
  have htake : c'.rest.takeWhile Rule.isWordChar = [] := by
    cases hr : c'.rest with
    | nil => rfl
    | cons x xs =>
      rw [hr] at hend
      simp only [List.head?_cons, Option.any_some] at hend
      simp [hend]
  unfold word
  rw [h.rest, List.takeWhile_append_of_pos (List.all_eq_true.mp hw), htake, List.append_nil,
    String.ofList_toList]

end Cursor

namespace Layout

variable {c c' : Cursor} {ts : List Token}

/-- A cursor at a word reads the word and comes to the token after it. -/
theorem at_word {w : String} (h : Layout (.word w :: ts) c.rest) :
    c.word = w ∧ ∃ c', c.Over w.toList c' ∧ Layout ts c'.skip.rest := by
  generalize hr : c.rest = r at h
  cases h with
  | @cons _ _ g rest hvalid hg hapart hts =>
    obtain ⟨c', hover, hrest⟩ := Cursor.exists_over hr
    have hend := head_after_word hg hapart hts
    rw [← hrest] at hend
    have hall : w.toList.all Rule.isWordChar = true := (Bool.and_eq_true_iff.mp hvalid).2
    refine ⟨Cursor.word_eq hover hall hend, c', hover, ?_⟩
    rw [Cursor.rest_skip hrest hg hts.solid]
    exact hts

/-- A cursor at a sign reads the sign and comes to the token after it. -/
theorem at_sign {s : String} (h : Layout (.sign s :: ts) c.rest) :
    ∃ c', c.Over s.toList c' ∧ Layout ts c'.skip.rest := by
  generalize hr : c.rest = r at h
  cases h with
  | @cons _ _ g rest hvalid hg hapart hts =>
    obtain ⟨c', hover, hrest⟩ := Cursor.exists_over hr
    refine ⟨c', hover, ?_⟩
    rw [Cursor.rest_skip hrest hg hts.solid]
    exact hts

/-- A word that has been read is put before the tokens after it. -/
theorem word {w : String} (hvalid : (Token.word w).isValid = true) (h : c.Over w.toList c')
    (hend : ts.head?.any Token.isWord = true → c'.rest.head?.any Rule.isWordChar = false)
    (hts : Layout ts c'.skip.rest) : Layout (.word w :: ts) c.rest := by
  obtain ⟨g, hrest, hg⟩ := c'.exists_gap
  rw [h.rest, hrest]
  refine .cons hvalid hg (fun hnext hempty => ?_) hts
  have hchar := hend hnext
  cases ts with
  | nil => cases hnext
  | cons t ts =>
    -- Without a gap the next word would begin right here.
    obtain ⟨x, xs, hxs, -, hx⟩ := hts.exists_head
    rw [hrest, hempty, List.nil_append, hxs] at hchar
    simp only [List.head?_cons, Option.any_some] at hchar hnext
    rw [hx, hnext] at hchar
    cases hchar

/-- A sign that has been read is put before the tokens after it. -/
theorem sign {s : String} (hvalid : (Token.sign s).isValid = true) (h : c.Over s.toList c')
    (hslash : s = "/" → c'.rest.head? ≠ some '/') (hts : Layout ts c'.skip.rest) :
    Layout (.sign s :: ts) c.rest := by
  obtain ⟨g, hrest, hg⟩ := c'.exists_gap
  rw [h.rest, hrest]
  rw [hrest] at hslash
  exact .cons hvalid hg hslash hts

end Layout

end JumpCode
