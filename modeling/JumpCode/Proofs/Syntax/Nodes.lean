import JumpCode.Proofs.Syntax.Lexical

/-!
# The nodes of what was read

Reading a script leaves pairs, and each pair holds those that were left inside it.  Every one of
them, however deep, is a `Node`: its rule reads from where the pair starts to where it stops, and
this lies in the text that was read.  `nodes_of_reads` shows so once for all parsing expressions.

From this the text of a pair is known as far as its rule fixes it.  A call begins with the name that
is called and ends with a parenthesis, a break begins with its keyword and ends with a semicolon, and
a function begins with its keyword and ends with a brace.
-/

namespace JumpCode

open Peg Grammar

/-! ### Cursors in one text -/

/-- The second cursor is further on in the same text. -/
def Cursor.Before (c c' : Cursor) : Prop := ∃ w, c.Over w c'

namespace Cursor.Before

variable {c c₁ c₂ : Cursor}

theorem refl (c : Cursor) : c.Before c := ⟨[], .refl c⟩

theorem trans (h : c.Before c₁) (h' : c₁.Before c₂) : c.Before c₂ := by
  obtain ⟨v, hv⟩ := h
  obtain ⟨w, hw⟩ := h'
  exact ⟨v ++ w, hv.trans hw⟩

theorem of_over {w : List Char} (h : c.Over w c₁) : c.Before c₁ := ⟨w, h⟩

end Cursor.Before

theorem over_passGap (inside : Bool) (p : Position) (cs : List Char) :
    Cursor.Before ⟨p, cs⟩ (passGap inside p cs) := by
  have hone (p : Position) (x : Char) (xs : List Char) :
      Cursor.Before ⟨p, x :: xs⟩ ⟨p.advance x, xs⟩ := ⟨[x], rfl, rfl⟩
  fun_induction passGap inside p cs with
  | case1 inside p => exact .refl _
  | case2 p x cs ih => exact (hone p x cs).trans ih
  | case3 p cs ih => exact ((hone p '/' _).trans (hone _ '/' cs)).trans ih
  | case4 p x cs _ _ ih => exact (hone p x cs).trans ih
  | case5 p x cs _ _ => exact .refl _

theorem Cursor.before_skip (c : Cursor) : c.Before c.skip := over_passGap false c.position c.rest

theorem Cursor.before_gap (m : Mode) (c : Cursor) : c.Before (scriptGrammar.gap m c) := by
  unfold gap
  split
  · exact c.before_skip
  · exact .refl c

/-- A text begins with what is passed over first. -/
theorem Cursor.Over.prefix_textTo {a b c : Cursor} {w : List Char} (h : a.Over w c)
    (hb : c.Before b) : w <+: (a.textTo b).toList := by
  obtain ⟨v, hv⟩ := hb
  rw [(h.trans hv).textTo, String.toList_ofList]
  exact List.prefix_append w v

/-- A text ends with what is passed over last. -/
theorem Cursor.Over.suffix_textTo {a b c : Cursor} {w : List Char} (h : c.Over w b)
    (ha : a.Before c) : w <:+ (a.textTo b).toList := by
  obtain ⟨v, hv⟩ := ha
  rw [(hv.trans h).textTo, String.toList_ofList]
  exact List.suffix_append v w

/-! ### Nodes -/

/-- A pair that was left where its rule was read, in the text from `c₀` on, and so were the pairs
    inside it. -/
inductive Node (c₀ : Cursor) : Pair Rule → Prop where
  | intro {r : Rule} {a b : Cursor} {inner : List (Pair Rule)} : c₀.Before a →
      r.Reads a (some (b, [.node r a b inner])) → (∀ q ∈ inner, Node c₀ q) →
        Node c₀ (.node r a b inner)

/-- What reading leaves behind: a cursor further on, and pairs that are nodes if pairs are left at
    all. -/
structure Leaves (m : Mode) (c c' : Cursor) (ps : List (Pair Rule)) : Prop where
  before : c.Before c'
  silent : m.recording = false → ps = []
  nodes : m = .outermost → ∀ c₀ : Cursor, c₀.Before c → ∀ p ∈ ps, Node c₀ p

namespace Leaves

variable {m : Mode} {c c₁ c₂ : Cursor} {ps qs : List (Pair Rule)}

theorem nothing (h : c.Before c₁) : Leaves m c c₁ [] where
  before := h
  silent _ := rfl
  nodes _ _ _ _ hp := by cases hp

theorem after (hc : c.Before c₁) (h : Leaves m c₁ c₂ ps) : Leaves m c c₂ ps where
  before := hc.trans h.before
  silent := h.silent
  nodes hm c₀ h₀ := h.nodes hm c₀ (h₀.trans hc)

theorem trans (h : Leaves m c c₁ ps) (h' : Leaves m c₁ c₂ qs) : Leaves m c c₂ (ps ++ qs) where
  before := h.before.trans h'.before
  silent hm := by rw [h.silent hm, h'.silent hm]; rfl
  nodes := by
    intro hm c₀ h₀ p hp
    rcases List.mem_append.mp hp with hp | hp
    · exact h.nodes hm c₀ h₀ p hp
    · exact h'.nodes hm c₀ (h₀.trans h.before) p hp

/-- What is read in an atomic rule leaves no pairs, and in another rule it is read in the same
    mode. -/
theorem of_enter {atomic : Bool} (h : Leaves (m.enter atomic) c c₁ ps) : Leaves m c c₁ ps := by
  cases atomic with
  | false => exact h
  | true =>
    rw [h.silent rfl]
    exact nothing h.before

/-- A rule leaves a pair that holds those of its body. -/
theorem rule {r : Rule} (hr : r.isSilent = false)
    (hread : scriptGrammar.Reads (m.enter r.isAtomic) r.body c (some (c₁, ps)))
    (h : Leaves m c c₁ ps) : Leaves m c c₁ (m.pairs r c c₁ ps) where
  before := h.before
  silent hm := by simp [Mode.pairs, hm]
  nodes := by
    rintro rfl c₀ h₀ p hp
    cases List.mem_singleton.mp hp
    exact .intro h₀ (.rule hr hread) (h.nodes rfl c₀ h₀)

end Leaves

theorem leaves_of_reads {m : Mode} {p : Pattern Rule} {c : Cursor} {x : Result Rule}
    (h : scriptGrammar.Reads m p c x) :
    ∀ c' ps, x = some (c', ps) → Leaves m c c' ps := by
  induction h with
  | start _ | stop _ | optNone _ _ | manyNone _ _ | moreNone _ _ | not _ _ =>
    rintro c' ps ⟨⟩
    exact .nothing (.refl _)
  | notStart _ | notStop _ | seqLeft _ _ | seqRight _ _ _ _ | notNone _ _ | ruleNone _ _ _ =>
    rintro c' ps ⟨⟩
  | literal s =>
    intro c' ps hx
    obtain ⟨c₁, haccept, hc₁⟩ := Option.map_eq_some_iff.mp hx
    cases hc₁
    exact .nothing (.of_over (Cursor.accept?_eq_some.mp haccept))
  | char q =>
    intro c' ps hx
    obtain ⟨c₁, hnext, hc₁⟩ := Option.map_eq_some_iff.mp hx
    cases hc₁
    obtain ⟨x, -, hover⟩ := Cursor.next?_eq_some.mp hnext
    exact .nothing (.of_over hover)
  | seq _ _ iha ihb =>
    rintro c' ps ⟨⟩
    exact (iha _ _ rfl).trans (.after (Cursor.before_gap _ _) (ihb _ _ rfl))
  | altLeft _ ih => exact ih
  | altRight _ _ _ ih => exact ih
  | opt _ ih => exact ih
  | many _ _ iha ihb =>
    rintro c' ps ⟨⟩
    exact (iha _ _ rfl).trans (ihb _ _ rfl)
  | more _ _ iha ihb =>
    rintro c' ps ⟨⟩
    exact (Leaves.after (Cursor.before_gap _ _) (iha _ _ rfl)).trans (ihb _ _ rfl)
  | silent _ _ ih =>
    intro c' ps hx
    exact (ih c' ps hx).of_enter
  | rule hr hread ih =>
    rintro c' ps ⟨⟩
    exact .rule hr hread (ih _ _ rfl).of_enter

theorem before_of_reads {m : Mode} {p : Pattern Rule} {c c' : Cursor} {ps : List (Pair Rule)}
    (h : scriptGrammar.Reads m p c (some (c', ps))) : c.Before c' :=
  (leaves_of_reads h c' ps rfl).before

theorem before_skip_of_reads {m : Mode} {p : Pattern Rule} {c c' : Cursor} {ps : List (Pair Rule)}
    (h : scriptGrammar.Reads m p c (some (c', ps))) : c.Before c'.skip :=
  (before_of_reads h).trans c'.before_skip

/-- Every pair that is left by reading a rule is a node. -/
theorem Rule.node_of_reads {r : Rule} {c c' : Cursor} {ps : List (Pair Rule)}
    (h : r.Reads c (some (c', ps))) {p : Pair Rule} (hp : p ∈ ps) : Node c p :=
  (leaves_of_reads h c' ps rfl).nodes rfl c (.refl c) p hp

/-! ### The text of a node -/

namespace Node

variable {c₀ a b : Cursor} {r : Rule} {inner : List (Pair Rule)}

theorem before_start (h : Node c₀ (.node r a b inner)) : c₀.Before a := by
  cases h with
  | intro h₀ _ _ => exact h₀

theorem before_stop (h : Node c₀ (.node r a b inner)) : a.Before b := by
  cases h with
  | intro _ hread _ => exact before_of_reads hread

theorem of_inner (h : Node c₀ (.node r a b inner)) {q : Pair Rule} (hq : q ∈ inner) : Node c₀ q := by
  cases h with
  | intro _ _ hinner => exact hinner q hq

/-- A rule that is not atomic has read its body. -/
theorem reads_body (h : Node c₀ (.node r a b inner)) (hsilent : r.isSilent = false)
    (hatomic : r.isAtomic = false) :
    scriptGrammar.Reads .outermost r.body a (some (b, inner)) := by
  cases h with
  | intro _ hread _ =>
    obtain ⟨inner', hbody, hpair⟩ := (Rule.reads_node hsilent hatomic).mp hread
    cases hpair
    exact hbody

/-- A call begins with the name that is called and ends with a parenthesis. -/
theorem text_call {name : Pair Rule} {rest : List (Pair Rule)}
    (h : Node c₀ (.node .call a b (name :: rest))) :
    name.text.toList <+: (a.textTo b).toList ∧ [')'] <:+ (a.textTo b).toList := by
  obtain ⟨c₁, qs, rs, hname, htail, hinner⟩ := reads_then.mp (h.reads_body rfl rfl)
  obtain ⟨-, hover, rfl⟩ := reads_identifier.mp hname
  cases hinner
  obtain ⟨c₂, _, _, hopen, htail₂, -⟩ := reads_then.mp htail
  obtain ⟨c₃, _, _, hargs, hclose, -⟩ := reads_then.mp htail₂
  have hlast : c₃.skip.Over [')'] b := (reads_literal.mp hclose).1
  have hbefore : a.Before c₃.skip := (before_skip_of_reads hname).trans
    ((before_skip_of_reads hopen).trans (before_skip_of_reads hargs))
  constructor
  · change (a.textTo c₁).toList <+: _
    rw [hover.textTo, String.toList_ofList]
    exact hover.prefix_textTo (c₁.before_skip.trans (before_of_reads htail))
  · exact hlast.suffix_textTo hbefore

/-- A break begins with its keyword and ends with a semicolon. -/
theorem text_breakStmt (h : Node c₀ (.node .breakStmt a b inner)) :
    "break".toList <+: (a.textTo b).toList ∧ [';'] <:+ (a.textTo b).toList := by
  obtain ⟨c₁, _, _, hword, hend, -⟩ := reads_then.mp (h.reads_body rfl rfl)
  obtain ⟨-, hover, -⟩ := (reads_keyword rfl).mp hword
  have hlast : c₁.skip.Over [';'] b := (reads_literal.mp hend).1
  constructor
  · exact hover.prefix_textTo (c₁.before_skip.trans (before_of_reads hend))
  · exact hlast.suffix_textTo (before_skip_of_reads hword)

/-- A block ends with a brace. -/
theorem exists_brace {c c' : Cursor} {ps : List (Pair Rule)}
    (h : Rule.block.Reads c (some (c', ps))) : ∃ c₁, c.Before c₁ ∧ c₁.Over ['\x7d'] c' := by
  obtain ⟨inner, hbody, -⟩ := (Rule.reads_node rfl rfl).mp h
  obtain ⟨c₁, _, _, hopen, htail, -⟩ := reads_then.mp hbody
  obtain ⟨c₂, _, _, hstmts, hclose, -⟩ := reads_then.mp htail
  refine ⟨c₂.skip, ?_, (reads_literal.mp hclose).1⟩
  exact (before_skip_of_reads hopen).trans (before_skip_of_reads hstmts)

/-- A function begins with its keyword and ends with a brace. -/
theorem text_function (h : Node c₀ (.node .function a b inner)) :
    "fn".toList <+: (a.textTo b).toList ∧ ['\x7d'] <:+ (a.textTo b).toList := by
  obtain ⟨c₁, _, _, hword, htail, -⟩ := reads_then.mp (h.reads_body rfl rfl)
  obtain ⟨-, hover, -⟩ := (reads_keyword rfl).mp hword
  obtain ⟨c₂, _, _, hname, htail₂, -⟩ := reads_then.mp htail
  obtain ⟨c₃, _, _, hopen, htail₃, -⟩ := reads_then.mp htail₂
  obtain ⟨c₄, _, _, hparams, htail₄, -⟩ := reads_then.mp htail₃
  obtain ⟨c₅, _, _, hclose, hblock, -⟩ := reads_then.mp htail₄
  obtain ⟨c₆, hbefore, hlast⟩ := exists_brace hblock
  constructor
  · exact hover.prefix_textTo (c₁.before_skip.trans (before_of_reads htail))
  · refine hlast.suffix_textTo (.trans ?_ hbefore)
    exact (before_skip_of_reads hword).trans <| (before_skip_of_reads hname).trans <|
      (before_skip_of_reads hopen).trans <| (before_skip_of_reads hparams).trans <|
      before_skip_of_reads hclose

end Node

end JumpCode
