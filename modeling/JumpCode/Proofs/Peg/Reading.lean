import JumpCode.Peg.Matcher

/-!
# What parsing expressions read

`Grammar.eval` has a bound on its depth and keeps the attempts that failed.  Neither has a say in
what is read.  `Reads` is the same evaluation without them: it relates an expression and a cursor to
the cursor after what was read and the pairs of the rules, or to nothing if the expression cannot be
read there.  It is a partial function, and `eval` computes it as far as its bound goes.
-/

namespace JumpCode.Peg

variable {ρ : Type}

/-- The result of reading an expression: where it ends and the pairs that it leaves, if it can be
    read. -/
abbrev Result (ρ : Type) := Option (Cursor × List (Pair ρ))

/-- The pairs that rule `r` leaves, read from `a` to `b` with `inner` inside it. -/
def Mode.pairs (m : Mode) (r : ρ) (a b : Cursor) (inner : List (Pair ρ)) : List (Pair ρ) :=
  if m.recording then [.node r a b inner] else []

namespace Grammar

/-- What an expression reads at a cursor. -/
inductive Reads (g : Grammar ρ) : Mode → Pattern ρ → Cursor → Result ρ → Prop where
  | start {m c} : c.position.byte = 0 → Reads g m .start c (some (c, []))
  | notStart {m c} : c.position.byte ≠ 0 → Reads g m .start c none
  | stop {m c} : c.rest = [] → Reads g m .stop c (some (c, []))
  | notStop {m c} : c.rest ≠ [] → Reads g m .stop c none
  | literal {m c} (s : String) :
      Reads g m (.literal s) c ((c.accept? s.toList).map fun c' => (c', []))
  | char {m c} (q : Char → Bool) : Reads g m (.char q) c ((c.next? q).map fun c' => (c', []))
  | seq {m a b c c₁ c₂ ps qs} : Reads g m a c (some (c₁, ps)) →
      Reads g m b (g.gap m c₁) (some (c₂, qs)) → Reads g m (.seq a b) c (some (c₂, ps ++ qs))
  | seqLeft {m a b c} : Reads g m a c none → Reads g m (.seq a b) c none
  | seqRight {m a b c c₁ ps} : Reads g m a c (some (c₁, ps)) → Reads g m b (g.gap m c₁) none →
      Reads g m (.seq a b) c none
  | altLeft {m a b c x} : Reads g m a c (some x) → Reads g m (.alt a b) c (some x)
  | altRight {m a b c r} : Reads g m a c none → Reads g m b c r → Reads g m (.alt a b) c r
  | opt {m a c x} : Reads g m a c (some x) → Reads g m (.opt a) c (some x)
  | optNone {m a c} : Reads g m a c none → Reads g m (.opt a) c (some (c, []))
  | many {m a c c₁ c₂ ps qs} : Reads g m a c (some (c₁, ps)) →
      Reads g m (.more a) c₁ (some (c₂, qs)) → Reads g m (.many a) c (some (c₂, ps ++ qs))
  | manyNone {m a c} : Reads g m a c none → Reads g m (.many a) c (some (c, []))
  | more {m a c c₁ c₂ ps qs} : Reads g m a (g.gap m c) (some (c₁, ps)) →
      Reads g m (.more a) c₁ (some (c₂, qs)) → Reads g m (.more a) c (some (c₂, ps ++ qs))
  | moreNone {m a c} : Reads g m a (g.gap m c) none → Reads g m (.more a) c (some (c, []))
  | not {m a c} : Reads g m.quiet a c none → Reads g m (.not a) c (some (c, []))
  | notNone {m a c x} : Reads g m.quiet a c (some x) → Reads g m (.not a) c none
  | silent {m r c x} : g.silent r = true → Reads g (m.enter (g.atomic r)) (g.body r) c x →
      Reads g m (.rule r) c x
  | rule {m r c c₁ ps} : g.silent r = false →
      Reads g (m.enter (g.atomic r)) (g.body r) c (some (c₁, ps)) →
      Reads g m (.rule r) c (some (c₁, m.pairs r c c₁ ps))
  | ruleNone {m r c} : g.silent r = false → Reads g (m.enter (g.atomic r)) (g.body r) c none →
      Reads g m (.rule r) c none

variable {g : Grammar ρ} {m : Mode} {c : Cursor}

/-! ### What has been read -/

section Inversion

variable {a b : Pattern ρ} {c' : Cursor} {ps : List (Pair ρ)}

theorem reads_seq : g.Reads m (.seq a b) c (some (c', ps)) ↔ ∃ c₁ qs rs,
    g.Reads m a c (some (c₁, qs)) ∧ g.Reads m b (g.gap m c₁) (some (c', rs)) ∧ ps = qs ++ rs := by
  constructor
  · intro h
    cases h with
    | seq ha hb => exact ⟨_, _, _, ha, hb, rfl⟩
  · rintro ⟨c₁, qs, rs, ha, hb, rfl⟩
    exact .seq ha hb

theorem reads_alt : g.Reads m (.alt a b) c (some (c', ps)) ↔
    g.Reads m a c (some (c', ps)) ∨ (g.Reads m a c none ∧ g.Reads m b c (some (c', ps))) := by
  constructor
  · intro h
    cases h with
    | altLeft ha => exact Or.inl ha
    | altRight ha hb => exact Or.inr ⟨ha, hb⟩
  · rintro (ha | ⟨ha, hb⟩)
    · exact .altLeft ha
    · exact .altRight ha hb

theorem reads_opt : g.Reads m (.opt a) c (some (c', ps)) ↔
    g.Reads m a c (some (c', ps)) ∨ (g.Reads m a c none ∧ c' = c ∧ ps = []) := by
  constructor
  · intro h
    cases h with
    | opt ha => exact Or.inl ha
    | optNone ha => exact Or.inr ⟨ha, rfl, rfl⟩
  · rintro (ha | ⟨ha, rfl, rfl⟩)
    · exact .opt ha
    · exact .optNone ha

theorem reads_many : g.Reads m (.many a) c (some (c', ps)) ↔
    (∃ c₁ qs rs, g.Reads m a c (some (c₁, qs)) ∧ g.Reads m (.more a) c₁ (some (c', rs)) ∧
      ps = qs ++ rs) ∨ (g.Reads m a c none ∧ c' = c ∧ ps = []) := by
  constructor
  · intro h
    cases h with
    | many ha hb => exact Or.inl ⟨_, _, _, ha, hb, rfl⟩
    | manyNone ha => exact Or.inr ⟨ha, rfl, rfl⟩
  · rintro (⟨c₁, qs, rs, ha, hb, rfl⟩ | ⟨ha, rfl, rfl⟩)
    · exact .many ha hb
    · exact .manyNone ha

theorem reads_more : g.Reads m (.more a) c (some (c', ps)) ↔
    (∃ c₁ qs rs, g.Reads m a (g.gap m c) (some (c₁, qs)) ∧ g.Reads m (.more a) c₁ (some (c', rs)) ∧
      ps = qs ++ rs) ∨ (g.Reads m a (g.gap m c) none ∧ c' = c ∧ ps = []) := by
  constructor
  · intro h
    cases h with
    | more ha hb => exact Or.inl ⟨_, _, _, ha, hb, rfl⟩
    | moreNone ha => exact Or.inr ⟨ha, rfl, rfl⟩
  · rintro (⟨c₁, qs, rs, ha, hb, rfl⟩ | ⟨ha, rfl, rfl⟩)
    · exact .more ha hb
    · exact .moreNone ha

theorem reads_not : g.Reads m (.not a) c (some (c', ps)) ↔
    g.Reads m.quiet a c none ∧ c' = c ∧ ps = [] := by
  constructor
  · intro h
    cases h with
    | not ha => exact ⟨ha, rfl, rfl⟩
  · rintro ⟨ha, rfl, rfl⟩
    exact .not ha

end Inversion

/-- A repetition can always be read. -/
theorem not_reads_more {a : Pattern ρ} : ¬ g.Reads m (.more a) c none := by
  intro h
  cases h

/-- What holds where a repetition stops, and before each of its rounds if it holds after the round,
    holds of the repetition. -/
theorem more_induction {a : Pattern ρ} {motive : Cursor → Cursor → List (Pair ρ) → Prop}
    (stop : ∀ c, g.Reads m a (g.gap m c) none → motive c c [])
    (round : ∀ c c₁ c₂ qs rs, g.Reads m a (g.gap m c) (some (c₁, qs)) → motive c₁ c₂ rs →
      motive c c₂ (qs ++ rs))
    {c' : Cursor} {ps : List (Pair ρ)} (h : g.Reads m (.more a) c (some (c', ps))) :
    motive c c' ps := by
  generalize hp : Pattern.more a = p at h
  generalize hx : some (c', ps) = x at h
  induction h generalizing c' ps with
  | more hfirst _ _ ih =>
    cases hp
    cases hx
    exact round _ _ _ _ _ hfirst (ih stop round rfl rfl)
  | moreNone hnone _ =>
    cases hp
    cases hx
    exact stop _ hnone
  | _ => cases hp

/-! ### Reading is a partial function -/

theorem Reads.unique {p : Pattern ρ} {r r' : Result ρ} (h : g.Reads m p c r)
    (h' : g.Reads m p c r') : r = r' := by
  -- Two derivations of one expression differ first where a part is read in one and fails in the
  -- other, and the hypothesis about that part rules this out.
  induction h generalizing r' with
  | start h₀ =>
    cases h' with
    | start _ => rfl
    | notStart h₁ => exact absurd h₀ h₁
  | notStart h₀ =>
    cases h' with
    | start h₁ => exact absurd h₁ h₀
    | notStart _ => rfl
  | stop h₀ =>
    cases h' with
    | stop _ => rfl
    | notStop h₁ => exact absurd h₀ h₁
  | notStop h₀ =>
    cases h' with
    | stop h₁ => exact absurd h₁ h₀
    | notStop _ => rfl
  | literal s => cases h'; rfl
  | char q => cases h'; rfl
  | seq _ _ iha ihb =>
    cases h' with
    | seq ha hb => cases iha ha; cases ihb hb; rfl
    | seqLeft ha => cases iha ha
    | seqRight ha hb => cases iha ha; cases ihb hb
  | seqLeft _ iha =>
    cases h' with
    | seq ha _ => cases iha ha
    | seqLeft _ => rfl
    | seqRight ha _ => cases iha ha
  | seqRight _ _ iha ihb =>
    cases h' with
    | seq ha hb => cases iha ha; cases ihb hb
    | seqLeft ha => cases iha ha
    | seqRight _ _ => rfl
  | altLeft _ iha =>
    cases h' with
    | altLeft ha => exact iha ha
    | altRight ha _ => cases iha ha
  | altRight _ _ iha ihb =>
    cases h' with
    | altLeft ha => cases iha ha
    | altRight _ hb => exact ihb hb
  | opt _ iha =>
    cases h' with
    | opt ha => exact iha ha
    | optNone ha => cases iha ha
  | optNone _ iha =>
    cases h' with
    | opt ha => cases iha ha
    | optNone _ => rfl
  | many _ _ iha ihb =>
    cases h' with
    | many ha hb => cases iha ha; cases ihb hb; rfl
    | manyNone ha => cases iha ha
  | manyNone _ iha =>
    cases h' with
    | many ha _ => cases iha ha
    | manyNone _ => rfl
  | more _ _ iha ihb =>
    cases h' with
    | more ha hb => cases iha ha; cases ihb hb; rfl
    | moreNone ha => cases iha ha
  | moreNone _ iha =>
    cases h' with
    | more ha _ => cases iha ha
    | moreNone _ => rfl
  | not _ iha =>
    cases h' with
    | not _ => rfl
    | notNone ha => cases iha ha
  | notNone _ iha =>
    cases h' with
    | not ha => cases iha ha
    | notNone _ => rfl
  | silent h₀ _ ih =>
    cases h' with
    | silent _ h => exact ih h
    | rule h₁ _ => cases h₀.symm.trans h₁
    | ruleNone h₁ _ => cases h₀.symm.trans h₁
  | rule h₀ _ ih =>
    cases h' with
    | silent h₁ _ => cases h₀.symm.trans h₁
    | rule _ h => cases ih h; rfl
    | ruleNone _ h => cases ih h
  | ruleNone h₀ _ ih =>
    cases h' with
    | silent h₁ _ => cases h₀.symm.trans h₁
    | rule _ h => cases ih h
    | ruleNone _ _ => rfl

end Grammar

/-! ### The evaluator computes it -/

namespace Outcome

/-- The outcome of an evaluation without the attempts, unless the bound was too small. -/
def result? : Outcome ρ → Option (Result ρ)
  | .matched c ps _ => some (some (c, ps))
  | .failed _ => some none
  | .exhausted => none

theorem result?_after {ps : List (Pair ρ)} {o : Outcome ρ} {r : Result ρ}
    (h : (o.after ps).result? = some r) :
    (∃ c qs t, o = .matched c qs t ∧ r = some (c, ps ++ qs)) ∨ ∃ t, o = .failed t ∧ r = none := by
  cases o with
  | matched c qs t =>
    cases h
    exact Or.inl ⟨c, qs, t, rfl, rfl⟩
  | failed t =>
    cases h
    exact Or.inr ⟨t, rfl, rfl⟩
  | exhausted => cases h

theorem result?_ofOption (t : Attempts ρ) (x : Option Cursor) :
    (ofOption t x).result? = some (x.map fun c => (c, [])) := by
  cases x <;> rfl

end Outcome

namespace Grammar

variable {g : Grammar ρ}

/-- What the evaluator finds is what the expression reads. -/
theorem reads_of_eval {n : Nat} {m : Mode} {p : Pattern ρ} {c : Cursor} {t : Attempts ρ}
    {r : Result ρ} (h : (g.eval n m p c t).result? = some r) : g.Reads m p c r := by
  -- Every call spends one unit of depth, so the induction is on the depth and not on `p`.
  induction n generalizing m p c t r with
  | zero => cases h
  | succ n ih =>
    have hmatched {m p c t c₁ ps t₁} (h : g.eval n m p c t = .matched c₁ ps t₁) :
        g.Reads m p c (some (c₁, ps)) := ih (t := t) (by rw [h]; rfl)
    have hfailed {m p c t t₁} (h : g.eval n m p c t = .failed t₁) : g.Reads m p c none :=
      ih (t := t) (by rw [h]; rfl)
    cases p with
    | start =>
      simp only [eval] at h
      split at h
      · next h₀ => cases h; exact .start h₀
      · next h₀ => cases h; exact .notStart h₀
    | stop =>
      simp only [eval] at h
      split at h
      · next h₀ => cases h; exact .stop (List.isEmpty_iff.mp h₀)
      · next h₀ => cases h; exact .notStop (fun h₁ => h₀ (List.isEmpty_iff.mpr h₁))
    | literal s =>
      simp only [eval, Outcome.result?_ofOption] at h
      cases h
      exact .literal s
    | char q =>
      simp only [eval, Outcome.result?_ofOption] at h
      cases h
      exact .char q
    | seq a b =>
      simp only [eval] at h
      split at h
      · next c₁ ps t₁ ha =>
        rcases Outcome.result?_after h with ⟨c₂, qs, t₂, hb, rfl⟩ | ⟨t₂, hb, rfl⟩
        · exact .seq (hmatched ha) (hmatched hb)
        · exact .seqRight (hmatched ha) (hfailed hb)
      · next ha => cases h; exact .seqLeft (hfailed ha)
      · cases h
    | alt a b =>
      simp only [eval] at h
      split at h
      · next ha => cases h; exact .altLeft (hmatched ha)
      · next ha => exact .altRight (hfailed ha) (ih h)
      · cases h
    | opt a =>
      simp only [eval] at h
      split at h
      · next ha => cases h; exact .opt (hmatched ha)
      · next ha => cases h; exact .optNone (hfailed ha)
      · cases h
    | many a =>
      simp only [eval] at h
      split at h
      · next c₁ ps t₁ ha =>
        rcases Outcome.result?_after h with ⟨c₂, qs, t₂, hb, rfl⟩ | ⟨t₂, hb, rfl⟩
        · exact .many (hmatched ha) (hmatched hb)
        · exact absurd (hfailed hb) not_reads_more
      · next ha => cases h; exact .manyNone (hfailed ha)
      · cases h
    | more a =>
      simp only [eval] at h
      split at h
      · next c₁ ps t₁ ha =>
        rcases Outcome.result?_after h with ⟨c₂, qs, t₂, hb, rfl⟩ | ⟨t₂, hb, rfl⟩
        · exact .more (hmatched ha) (hmatched hb)
        · exact absurd (hfailed hb) not_reads_more
      · next ha => cases h; exact .moreNone (hfailed ha)
      · cases h
    | not a =>
      simp only [eval] at h
      split at h
      · next ha => cases h; exact .notNone (hmatched ha)
      · next ha => cases h; exact .not (hfailed ha)
      · cases h
    | rule r =>
      simp only [eval] at h
      split at h
      · next h₀ => exact .silent h₀ (ih h)
      · next h₀ =>
        have h₀ : g.silent r = false := by simpa using h₀
        split at h
        · next ha => cases h; exact .rule h₀ (hmatched ha)
        · next ha => cases h; exact .ruleNone h₀ (hfailed ha)
        · cases h

end Grammar

end JumpCode.Peg
