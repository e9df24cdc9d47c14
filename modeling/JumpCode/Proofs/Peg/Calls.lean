import JumpCode.Proofs.Peg.Reading

/-!
# What reading calls

To read an expression is to read its parts, each from a cursor that depends on what was read before.
`Calls` lists these readings one by one.  It is the recursion of the evaluator, no more and no less:
a depth of `n` is too small exactly if `n` calls can follow one another (`eval_eq_exhausted_iff`).
-/

namespace JumpCode.Peg

variable {ρ : Type}

/-- An expression that is to be read at a cursor. -/
structure Task (ρ : Type) where
  mode : Mode
  pattern : Pattern ρ
  cursor : Cursor

namespace Outcome

theorem ofOption_ne_exhausted {t : Attempts ρ} (x : Option Cursor) : ofOption t x ≠ .exhausted := by
  cases x <;> nofun

theorem exhausted_of_after {ps : List (Pair ρ)} {o : Outcome ρ} (h : o.after ps = .exhausted) :
    o = .exhausted := by
  cases o with
  | exhausted => rfl
  | _ => cases h

theorem exists_result? {o : Outcome ρ} (h : o ≠ .exhausted) : ∃ r, o.result? = some r := by
  cases o with
  | matched c qs t => exact ⟨_, rfl⟩
  | failed t => exact ⟨_, rfl⟩
  | exhausted => exact absurd rfl h

theorem exists_eq_matched {o : Outcome ρ} {c : Cursor} {ps : List (Pair ρ)}
    (h : o.result? = some (some (c, ps))) : ∃ t, o = .matched c ps t := by
  cases o with
  | matched c qs t =>
    cases h
    exact ⟨t, rfl⟩
  | _ => cases h

theorem exists_eq_failed {o : Outcome ρ} (h : o.result? = some none) : ∃ t, o = .failed t := by
  cases o with
  | failed t => exact ⟨t, rfl⟩
  | _ => cases h

end Outcome

namespace Grammar

/-- Reading the one involves reading the other. -/
inductive Calls (g : Grammar ρ) : Task ρ → Task ρ → Prop where
  | seqLeft {m a b c} : Calls g ⟨m, .seq a b, c⟩ ⟨m, a, c⟩
  | seqRight {m a b c c₁ ps} : g.Reads m a c (some (c₁, ps)) →
      Calls g ⟨m, .seq a b, c⟩ ⟨m, b, g.gap m c₁⟩
  | altLeft {m a b c} : Calls g ⟨m, .alt a b, c⟩ ⟨m, a, c⟩
  | altRight {m a b c} : g.Reads m a c none → Calls g ⟨m, .alt a b, c⟩ ⟨m, b, c⟩
  | opt {m a c} : Calls g ⟨m, .opt a, c⟩ ⟨m, a, c⟩
  | many {m a c} : Calls g ⟨m, .many a, c⟩ ⟨m, a, c⟩
  | manyNext {m a c c₁ ps} : g.Reads m a c (some (c₁, ps)) →
      Calls g ⟨m, .many a, c⟩ ⟨m, .more a, c₁⟩
  | more {m a c} : Calls g ⟨m, .more a, c⟩ ⟨m, a, g.gap m c⟩
  | moreNext {m a c c₁ ps} : g.Reads m a (g.gap m c) (some (c₁, ps)) →
      Calls g ⟨m, .more a, c⟩ ⟨m, .more a, c₁⟩
  | not {m a c} : Calls g ⟨m, .not a, c⟩ ⟨m.quiet, a, c⟩
  | rule {m r c} : Calls g ⟨m, .rule r, c⟩ ⟨m.enter (g.atomic r), g.body r, c⟩

/-- `n` calls can follow one another, beginning with a call of the task. -/
def Descends (g : Grammar ρ) : Nat → Task ρ → Prop
  | 0, _ => True
  | n + 1, x => ∃ y, g.Calls x y ∧ g.Descends n y

variable {g : Grammar ρ}

/-! ### Calls are the recursion of the evaluator -/

section Recursion

variable {n : Nat} {m : Mode} {c : Cursor} {t : Attempts ρ}

/-- An evaluation that comes to an end finds what the expression reads. -/
theorem result?_of_reads {p : Pattern ρ} {r : Result ρ} (h : g.Reads m p c r)
    (hend : g.eval n m p c t ≠ .exhausted) : (g.eval n m p c t).result? = some r := by
  obtain ⟨r', hr'⟩ := Outcome.exists_result? hend
  rw [hr', (reads_of_eval hr').unique h]

/-- Where the depth is too small, it is too small for a call. -/
theorem exists_calls_of_exhausted {p : Pattern ρ} (h : g.eval (n + 1) m p c t = .exhausted) :
    ∃ y t', g.Calls ⟨m, p, c⟩ y ∧ g.eval n y.mode y.pattern y.cursor t' = .exhausted := by
  have hreads {m p c t c₁ ps t₁} (h : g.eval n m p c t = .matched c₁ ps t₁) :
      g.Reads m p c (some (c₁, ps)) := reads_of_eval (t := t) (by rw [h]; rfl)
  have hfails {m p c t t₁} (h : g.eval n m p c t = .failed t₁) : g.Reads m p c none :=
    reads_of_eval (t := t) (by rw [h]; rfl)
  cases p with
  | start | stop =>
    simp only [eval] at h
    split at h <;> cases h
  | literal s => exact absurd h (Outcome.ofOption_ne_exhausted _)
  | char q => exact absurd h (Outcome.ofOption_ne_exhausted _)
  | seq a b =>
    simp only [eval] at h
    split at h
    · next ha => exact ⟨_, _, .seqRight (hreads ha), Outcome.exhausted_of_after h⟩
    · cases h
    · next ha => exact ⟨_, _, .seqLeft, ha⟩
  | alt a b =>
    simp only [eval] at h
    split at h
    · cases h
    · next ha => exact ⟨_, _, .altRight (hfails ha), h⟩
    · next ha => exact ⟨_, _, .altLeft, ha⟩
  | opt a =>
    simp only [eval] at h
    split at h
    · cases h
    · cases h
    · next ha => exact ⟨_, _, .opt, ha⟩
  | many a =>
    simp only [eval] at h
    split at h
    · next ha => exact ⟨_, _, .manyNext (hreads ha), Outcome.exhausted_of_after h⟩
    · cases h
    · next ha => exact ⟨_, _, .many, ha⟩
  | more a =>
    simp only [eval] at h
    split at h
    · next ha => exact ⟨_, _, .moreNext (hreads ha), Outcome.exhausted_of_after h⟩
    · cases h
    · next ha => exact ⟨_, _, .more, ha⟩
  | not a =>
    simp only [eval] at h
    split at h
    · cases h
    · cases h
    · next ha => exact ⟨_, _, .not, ha⟩
  | rule r =>
    simp only [eval] at h
    split at h
    · exact ⟨_, _, .rule, h⟩
    · split at h
      · cases h
      · cases h
      · next ha => exact ⟨_, _, .rule, ha⟩

/-- Where the depth is too small for a call, whatever failed before it, it is too small. -/
theorem exhausted_of_calls {x y : Task ρ} (h : g.Calls x y)
    (hy : ∀ t', g.eval n y.mode y.pattern y.cursor t' = .exhausted) :
    g.eval (n + 1) x.mode x.pattern x.cursor t = .exhausted := by
  cases h with
  | @seqRight m a b c c₁ ps ha =>
    simp only [eval]
    by_cases hend : g.eval n m a c t = .exhausted
    · rw [hend]
    · obtain ⟨t₁, ht₁⟩ := Outcome.exists_eq_matched (result?_of_reads ha hend)
      simp only [ht₁, hy t₁]
      rfl
  | @altRight m a b c ha =>
    simp only [eval]
    by_cases hend : g.eval n m a c t = .exhausted
    · rw [hend]
    · obtain ⟨t₁, ht₁⟩ := Outcome.exists_eq_failed (result?_of_reads ha hend)
      simp only [ht₁, hy t₁]
  | @manyNext m a c c₁ ps ha =>
    simp only [eval]
    by_cases hend : g.eval n m a c t = .exhausted
    · rw [hend]
    · obtain ⟨t₁, ht₁⟩ := Outcome.exists_eq_matched (result?_of_reads ha hend)
      simp only [ht₁, hy t₁]
      rfl
  | @moreNext m a c c₁ ps ha =>
    simp only [eval]
    by_cases hend : g.eval n m a (g.gap m c) t = .exhausted
    · rw [hend]
    · obtain ⟨t₁, ht₁⟩ := Outcome.exists_eq_matched (result?_of_reads ha hend)
      simp only [ht₁, hy t₁]
      rfl
  | rule =>
    simp only [eval, hy t]
    split <;> rfl
  | _ => simp only [eval, hy t]

/-- **A depth is too small exactly if that many calls can follow one another.** -/
theorem eval_eq_exhausted_iff {p : Pattern ρ} :
    g.eval n m p c t = .exhausted ↔ g.Descends n ⟨m, p, c⟩ := by
  induction n generalizing m p c t with
  | zero => exact ⟨fun _ => trivial, fun _ => rfl⟩
  | succ n ih =>
    constructor
    · intro h
      obtain ⟨y, t', hcall, hy⟩ := exists_calls_of_exhausted h
      exact ⟨y, hcall, ih.mp hy⟩
    · rintro ⟨y, hcall, hy⟩
      exact exhausted_of_calls hcall fun t' => ih.mpr hy

end Recursion

end Grammar

end JumpCode.Peg
