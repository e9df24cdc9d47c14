import JumpCode.Proofs.Peg.Calls
import JumpCode.Grammar
import Mathlib.Logic.Relation

/-!
# Reading ends

An expression that reads no character may still call itself through other rules, and a repetition
of it would go on for ever.  A `Ranking` of a grammar rules both out.  It tells which rules may read
nothing, and how deep each rule may go before it reads a character; every repetition must read
something in each round.

Then a depth proportional to the text that is left is enough for any expression, so the evaluator
with such a bound is never exhausted, and every expression reads something or nothing everywhere.
-/

namespace JumpCode.Peg

variable {ρ : Type}

namespace Pattern

/-- Whether an expression may read no character, given the rules that may. -/
def nullable (may : ρ → Bool) : Pattern ρ → Bool
  | .start | .stop | .opt _ | .many _ | .more _ | .not _ => true
  | .literal s => s.toList.isEmpty
  | .char _ => false
  | .rule r => may r
  | .seq a b => a.nullable may && b.nullable may
  | .alt a b => a.nullable may || b.nullable may

/-- How deep an expression may go before it reads a character, given how deep rules may. -/
def depth (may : ρ → Bool) (rank : ρ → Nat) : Pattern ρ → Nat
  | .start | .stop | .literal _ | .char _ => 1
  | .rule r => rank r + 1
  | .seq a b => max (a.depth may rank) (if a.nullable may then b.depth may rank else 0) + 1
  | .alt a b => max (a.depth may rank) (b.depth may rank) + 1
  | .opt a | .many a | .more a | .not a => a.depth may rank + 1

/-- Whether no part of an expression may go deeper than `bound` before it reads a character, and all
    repetitions read something in each round. -/
def bounded (may : ρ → Bool) (rank : ρ → Nat) (bound : Nat) (p : Pattern ρ) : Bool :=
  p.depth may rank ≤ bound &&
    match p with
    | .start | .stop | .literal _ | .char _ | .rule _ => true
    | .seq a b | .alt a b => a.bounded may rank bound && b.bounded may rank bound
    | .opt a | .not a => a.bounded may rank bound
    | .many a | .more a => a.bounded may rank bound && !a.nullable may

/-- What is repeated somewhere in an expression. -/
def repeated : Pattern ρ → List (Pattern ρ)
  | .start | .stop | .literal _ | .char _ | .rule _ => []
  | .seq a b | .alt a b => a.repeated ++ b.repeated
  | .opt a | .not a => a.repeated
  | .many a | .more a => a :: a.repeated

variable {may : ρ → Bool} {rank : ρ → Nat} {bound : Nat}

theorem depth_pos (p : Pattern ρ) : 0 < p.depth may rank := by
  cases p <;> simp [depth]

theorem nullable_of_mem_repeated {p a : Pattern ρ} (hp : p.bounded may rank bound = true)
    (ha : a ∈ p.repeated) : a.nullable may = false := by
  induction p with
  | start | stop | literal _ | char _ | rule _ => cases ha
  | seq b d ihb ihd | alt b d ihb ihd =>
    simp only [bounded, Bool.and_eq_true] at hp
    rcases List.mem_append.mp ha with ha | ha
    · exact ihb hp.2.1 ha
    · exact ihd hp.2.2 ha
  | opt b ih | not b ih =>
    simp only [bounded, Bool.and_eq_true] at hp
    exact ih hp.2 ha
  | many b ih | more b ih =>
    simp only [bounded, Bool.and_eq_true, Bool.not_eq_true'] at hp
    rcases List.mem_cons.mp ha with rfl | ha
    · exact hp.2.2
    · exact ih hp.2.1 ha

theorem depth_le_of_bounded {p : Pattern ρ} (h : p.bounded may rank bound = true) :
    p.depth may rank ≤ bound := by
  unfold bounded at h
  exact of_decide_eq_true (Bool.and_eq_true_iff.mp h).1

end Pattern

namespace Grammar

/-- Which rules may read nothing, and how deep rules may go before they read a character. -/
structure Ranking (g : Grammar ρ) where
  may : ρ → Bool
  rank : ρ → Nat
  bound : Nat
  may_of_body : ∀ r, (g.body r).nullable may = true → may r = true
  depth_body : ∀ r, (g.body r).depth may rank ≤ rank r
  bounded_body : ∀ r, (g.body r).bounded may rank bound = true
  length_skip : ∀ c, (g.skip c).rest.length ≤ c.rest.length

variable {g : Grammar ρ}

/-! ### Characters that are read -/

theorem length_next? {q : Char → Bool} {c c' : Cursor} (h : c.next? q = some c') :
    c'.rest.length < c.rest.length := by
  unfold Cursor.next? at h
  split at h
  · cases h
  · next x xs hrest =>
    split at h
    · cases h
      simp [hrest]
    · cases h

theorem length_accept? {xs : List Char} {c c' : Cursor} (h : c.accept? xs = some c') :
    c'.rest.length + xs.length ≤ c.rest.length := by
  induction xs generalizing c with
  | nil =>
    cases h
    simp
  | cons x xs ih =>
    obtain ⟨c₁, hnext, hrest⟩ := Option.bind_eq_some_iff.mp h
    have h₁ := length_next? hnext
    have h₂ := ih hrest
    simp only [List.length_cons]
    omega

namespace Ranking

variable (k : g.Ranking) {m : Mode} {p : Pattern ρ} {c c' : Cursor} {ps : List (Pair ρ)}

include k in
theorem length_gap (m : Mode) (c : Cursor) : (g.gap m c).rest.length ≤ c.rest.length := by
  unfold gap
  split
  · exact k.length_skip c
  · exact Nat.le_refl _

theorem nullable_body {r : ρ} (h : k.may r = false) : (g.body r).nullable k.may = false :=
  Bool.eq_false_iff.mpr fun hbody => by simp [k.may_of_body r hbody] at h

/-- Reading never goes back, and goes forward unless the expression may read nothing. -/
theorem length_of_reads {r : Result ρ} (h : g.Reads m p c r) : ∀ c' ps, r = some (c', ps) →
    c'.rest.length ≤ c.rest.length ∧
      (p.nullable k.may = false → c'.rest.length < c.rest.length) := by
  induction h with
  | start _ | stop _ | optNone _ _ | manyNone _ _ | moreNone _ _ | not _ _ =>
    rintro c' ps ⟨⟩
    exact ⟨Nat.le_refl _, nofun⟩
  | literal s =>
    intro c' ps hx
    obtain ⟨c'', haccept, ⟨⟩⟩ := Option.map_eq_some_iff.mp hx
    have hlen := length_accept? haccept
    refine ⟨Nat.le_of_add_right_le hlen, fun hnull => ?_⟩
    have hpos : 0 < s.toList.length := by simpa [Pattern.nullable, List.length_pos_iff] using hnull
    exact Nat.lt_of_lt_of_le (Nat.lt_add_of_pos_right hpos) hlen
  | char q =>
    intro c' ps hx
    obtain ⟨c'', hnext, ⟨⟩⟩ := Option.map_eq_some_iff.mp hx
    have hlen := length_next? hnext
    exact ⟨Nat.le_of_lt hlen, fun _ => hlen⟩
  | @seq m a b c c₁ c₂ ps qs _ _ iha ihb =>
    rintro c' ps' ⟨⟩
    obtain ⟨ha, ha'⟩ := iha _ _ rfl
    obtain ⟨hb, hb'⟩ := ihb _ _ rfl
    have hgap := k.length_gap m c₁
    refine ⟨by omega, fun hnull => ?_⟩
    rcases Bool.and_eq_false_iff.mp hnull with hnull | hnull
    · have := ha' hnull
      omega
    · have := hb' hnull
      omega
  | altLeft _ iha =>
    rintro c' ps ⟨⟩
    obtain ⟨ha, ha'⟩ := iha _ _ rfl
    exact ⟨ha, fun hnull => ha' (Bool.or_eq_false_iff.mp hnull).1⟩
  | altRight _ _ _ ihb =>
    intro c' ps hx
    obtain ⟨hb, hb'⟩ := ihb _ _ hx
    exact ⟨hb, fun hnull => hb' (Bool.or_eq_false_iff.mp hnull).2⟩
  | opt _ iha =>
    rintro c' ps ⟨⟩
    exact ⟨(iha _ _ rfl).1, nofun⟩
  | many _ _ iha ihb =>
    rintro c' ps ⟨⟩
    exact ⟨Nat.le_trans (ihb _ _ rfl).1 (iha _ _ rfl).1, nofun⟩
  | @more m a c c₁ c₂ ps qs _ _ iha ihb =>
    rintro c' ps ⟨⟩
    have hgap := k.length_gap m c
    exact ⟨Nat.le_trans (ihb _ _ rfl).1 (Nat.le_trans (iha _ _ rfl).1 hgap), nofun⟩
  | @silent m r c x _ _ ih =>
    intro c' ps hx
    obtain ⟨hle, hlt⟩ := ih _ _ hx
    exact ⟨hle, fun hnull => hlt (k.nullable_body hnull)⟩
  | @rule m r c c₁ ps _ _ ih =>
    rintro c' ps ⟨⟩
    obtain ⟨hle, hlt⟩ := ih _ _ rfl
    exact ⟨hle, fun hnull => hlt (k.nullable_body hnull)⟩
  | _ => nofun

/-! ### Enough depth -/

/-- A depth that is enough for an expression where `length` characters are left. -/
def enough (p : Pattern ρ) (length : Nat) : Nat := p.depth k.may k.rank + k.bound * length

theorem enough_lt {a b : Pattern ρ} {i j : Nat} (h : a.depth k.may k.rank < b.depth k.may k.rank)
    (hle : i ≤ j) : k.enough a i < k.enough b j := by
  have hmul : k.bound * i ≤ k.bound * j := Nat.mul_le_mul_left _ hle
  unfold enough
  omega

/-- Once a character has been read, anything within the bound needs less than was needed before. -/
theorem enough_lt_of_lt {a b : Pattern ρ} {i j : Nat}
    (ha : a.bounded k.may k.rank k.bound = true) (hlt : i < j) : k.enough a i < k.enough b j := by
  have hdepth : a.depth k.may k.rank ≤ k.bound := Pattern.depth_le_of_bounded ha
  have hpos : 0 < b.depth k.may k.rank := b.depth_pos
  have hmul : k.bound * (i + 1) ≤ k.bound * j := Nat.mul_le_mul_left _ hlt
  rw [Nat.mul_succ] at hmul
  unfold enough
  omega

/-- No part of the expression goes deeper than the ranking allows. -/
def Admits (x : Task ρ) : Prop := x.pattern.bounded k.may k.rank k.bound = true

/-- A depth that is enough for a task. -/
def need (x : Task ρ) : Nat := k.enough x.pattern x.cursor.rest.length

/-- A call stays within the ranking and needs less depth than its caller. -/
theorem need_lt_of_calls {x y : Task ρ} (h : g.Calls x y) (hx : k.Admits x) :
    k.Admits y ∧ k.need y < k.need x := by
  -- After a part that may read nothing the next one lies deeper, and else a character was read.
  have hnext {m a b c c₁ ps} (ha : g.Reads m a c (some (c₁, ps)))
      (hb : b.bounded k.may k.rank k.bound = true) :
      k.enough b (g.gap m c₁).rest.length < k.enough (.seq a b) c.rest.length := by
    obtain ⟨hle, hlt⟩ := k.length_of_reads ha _ _ rfl
    have hgap := k.length_gap m c₁
    by_cases hnull : a.nullable k.may = true
    · refine k.enough_lt ?_ (Nat.le_trans hgap hle)
      simp only [Pattern.depth, if_pos hnull]
      omega
    · have := hlt (by simpa using hnull)
      exact k.enough_lt_of_lt hb (by omega)
  unfold Admits need at *
  cases h with
  | seqLeft =>
    simp only [Pattern.bounded, Bool.and_eq_true] at hx
    exact ⟨hx.2.1, k.enough_lt (by simp only [Pattern.depth]; omega) (Nat.le_refl _)⟩
  | seqRight ha =>
    simp only [Pattern.bounded, Bool.and_eq_true] at hx
    exact ⟨hx.2.2, hnext ha hx.2.2⟩
  | altLeft =>
    simp only [Pattern.bounded, Bool.and_eq_true] at hx
    exact ⟨hx.2.1, k.enough_lt (by simp only [Pattern.depth]; omega) (Nat.le_refl _)⟩
  | altRight _ =>
    simp only [Pattern.bounded, Bool.and_eq_true] at hx
    exact ⟨hx.2.2, k.enough_lt (by simp only [Pattern.depth]; omega) (Nat.le_refl _)⟩
  | opt | not =>
    simp only [Pattern.bounded, Bool.and_eq_true] at hx
    exact ⟨hx.2, k.enough_lt (by simp only [Pattern.depth]; omega) (Nat.le_refl _)⟩
  | many =>
    simp only [Pattern.bounded, Bool.and_eq_true] at hx
    exact ⟨hx.2.1, k.enough_lt (by simp only [Pattern.depth]; omega) (Nat.le_refl _)⟩
  | @manyNext m a c c₁ ps ha =>
    have hmore : (Pattern.more a).bounded k.may k.rank k.bound = true := hx
    simp only [Pattern.bounded, Bool.and_eq_true, Bool.not_eq_true'] at hx
    exact ⟨hmore, k.enough_lt_of_lt hmore ((k.length_of_reads ha _ _ rfl).2 hx.2.2)⟩
  | @more m a c =>
    simp only [Pattern.bounded, Bool.and_eq_true] at hx
    exact ⟨hx.2.1, k.enough_lt (by simp only [Pattern.depth]; omega) (k.length_gap m c)⟩
  | @moreNext m a c c₁ ps ha =>
    have hmore : (Pattern.more a).bounded k.may k.rank k.bound = true := hx
    simp only [Pattern.bounded, Bool.and_eq_true, Bool.not_eq_true'] at hx
    have hgap := k.length_gap m c
    have hlt := (k.length_of_reads ha _ _ rfl).2 hx.2.2
    exact ⟨hmore, k.enough_lt_of_lt hmore (Nat.lt_of_lt_of_le hlt hgap)⟩
  | @rule m r c =>
    exact ⟨k.bounded_body r, k.enough_lt (Nat.lt_succ_of_le (k.depth_body r)) (Nat.le_refl _)⟩

/-- Fewer calls can follow one another than the depth that a task needs. -/
theorem not_descends {n : Nat} {x : Task ρ} (hx : k.Admits x) (hn : k.need x ≤ n) :
    ¬ g.Descends n x := by
  induction n generalizing x with
  | zero =>
    have hpos : 0 < x.pattern.depth k.may k.rank := x.pattern.depth_pos
    unfold need enough at hn
    omega
  | succ n ih =>
    rintro ⟨y, hcall, hy⟩
    obtain ⟨hadmits, hlt⟩ := k.need_lt_of_calls hcall hx
    exact ih hadmits (Nat.le_of_lt_succ (Nat.lt_of_lt_of_le hlt hn)) hy

/-- **With enough depth, reading comes to an end.** -/
theorem eval_ne_exhausted {n : Nat} {t : Attempts ρ} (hp : p.bounded k.may k.rank k.bound = true)
    (hn : k.enough p c.rest.length ≤ n) : g.eval n m p c t ≠ .exhausted :=
  mt eval_eq_exhausted_iff.mp (k.not_descends (x := ⟨m, p, c⟩) hp hn)

theorem need_lt_of_transGen {x y : Task ρ} (h : Relation.TransGen g.Calls x y) (hx : k.Admits x) :
    k.Admits y ∧ k.need y < k.need x := by
  induction h with
  | single hcall => exact k.need_lt_of_calls hcall hx
  | tail _ hcall ih =>
    obtain ⟨hy, hlt⟩ := ih
    obtain ⟨hz, hlt'⟩ := k.need_lt_of_calls hcall hy
    exact ⟨hz, Nat.lt_trans hlt' hlt⟩

/-- **An expression that comes back to itself has read a character in between.** -/
theorem length_lt_of_cycle {p : Pattern ρ} {m m' : Mode} {c c' : Cursor}
    (hp : p.bounded k.may k.rank k.bound = true)
    (h : Relation.TransGen g.Calls ⟨m, p, c⟩ ⟨m', p, c'⟩) : c'.rest.length < c.rest.length := by
  have hlt := (k.need_lt_of_transGen h hp).2
  -- The expression is the same, so only the text that is left can have become less.
  have hmul : k.bound * c'.rest.length < k.bound * c.rest.length := Nat.lt_of_add_lt_add_left hlt
  exact Nat.lt_of_mul_lt_mul_left hmul

/-- What is repeated reads something in each round. -/
theorem length_lt_of_repeated {p a : Pattern ρ} (hp : p.bounded k.may k.rank k.bound = true)
    (ha : a ∈ p.repeated) {m : Mode} {c c' : Cursor} {ps : List (Pair ρ)}
    (h : g.Reads m a c (some (c', ps))) : c'.rest.length < c.rest.length :=
  (k.length_of_reads h _ _ rfl).2 (Pattern.nullable_of_mem_repeated hp ha)

/-! ### What is read everywhere -/

theorem eval_eq_of_reads {n : Nat} {t : Attempts ρ} {r : Result ρ} (h : g.Reads m p c r)
    (hp : p.bounded k.may k.rank k.bound = true) (hn : k.enough p c.rest.length ≤ n) :
    (g.eval n m p c t).result? = some r :=
  result?_of_reads h (k.eval_ne_exhausted hp hn)

include k in
/-- An expression reads something or nothing everywhere. -/
theorem exists_reads (m : Mode) (c : Cursor) (hp : p.bounded k.may k.rank k.bound = true) :
    ∃ r, g.Reads m p c r := by
  obtain ⟨r, hr⟩ := Outcome.exists_result?
    (k.eval_ne_exhausted (m := m) (t := .none) hp (Nat.le_refl (k.enough p c.rest.length)))
  exact ⟨r, reads_of_eval hr⟩

/-- A rule that is not read fails, and fails only then. -/
theorem reads_none_iff {p : Pattern ρ} (hp : p.bounded k.may k.rank k.bound = true) :
    g.Reads m p c none ↔ ∀ x, ¬ g.Reads m p c (some x) := by
  constructor
  · intro h x hx
    cases h.unique hx
  · intro h
    obtain ⟨r, hr⟩ := k.exists_reads m c hp
    cases r with
    | none => exact hr
    | some x => exact absurd hr (h x)

/-- **Reading a text finds what the rule reads at its start.** -/
theorem parse_eq_ok {r : ρ} {text : String} {ps : List (Pair ρ)}
    (hr : (Pattern.rule r).bounded k.may k.rank k.bound = true)
    (hbound : k.bound ≤ depthPerCharacter) : g.parse r text = .ok ps ↔
      ∃ c', g.Reads .outermost (.rule r) (.ofString text) (some (c', ps)) := by
  have henough : k.enough (.rule r) (Cursor.ofString text).rest.length ≤
      depthPerCharacter * ((Cursor.ofString text).rest.length + 1) := by
    have hdepth : (Pattern.rule r).depth k.may k.rank ≤ k.bound := Pattern.depth_le_of_bounded hr
    have hmul := Nat.mul_le_mul_right (Cursor.ofString text).rest.length hbound
    rw [Nat.mul_succ]
    unfold enough
    omega
  simp only [parse]
  constructor
  · intro h
    split at h
    · next c' qs t heval =>
      cases h
      exact ⟨c', reads_of_eval (by rw [heval]; rfl)⟩
    · cases h
    · cases h
  · rintro ⟨c', h⟩
    have hresult := k.eval_eq_of_reads (t := .none) h hr henough
    split
    · next heval =>
      rw [heval] at hresult
      cases hresult
      rfl
    · next heval =>
      rw [heval] at hresult
      cases hresult
    · next heval =>
      rw [heval] at hresult
      cases hresult

end Ranking

end Grammar

end JumpCode.Peg
