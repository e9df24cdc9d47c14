import JumpCode.Proofs.Lowering.Lockstep

/-!
# Lowering is relocatable

What lowering a statement appends depends on the names that the builder knows, and on nothing else
that it holds.  The code that is there already is never looked at, and registers and labels are taken
from where the counters stand.  So the same statement lowered on another builder gives the same code
moved: every register by the distance of the register counters and every label by the distance of the
label counters.  The same failure comes at the same node, after the same code.

This is lowering in step with itself, under the renaming that renames nothing.
-/

namespace JumpCode

/-! ### Renaming nothing -/

theorem Expr.rename_refl (e : Expr) : e.rename .refl = e := e.rename_eq_self fun _ => rfl

theorem Mark.rename_refl (m : Mark) : m.rename .refl = m := rfl

namespace Stmt

mutual

theorem rename_refl (s : Stmt) : s.rename .refl = s := by
  cases s with
  | block m body => rw [rename, m.rename_refl, renameAll_refl body]
  | eval m e => rw [rename, m.rename_refl, e.rename_refl]
  | ret m e =>
    cases e with
    | none => rfl
    | some e => rw [rename, m.rename_refl, Option.map_some, e.rename_refl]
  | ifThen m c t => rw [rename, m.rename_refl, c.rename_refl, rename_refl t]
  | ifElse m c t e => rw [rename, m.rename_refl, c.rename_refl, rename_refl t, rename_refl e]
  | whileLoop m c body => rw [rename, m.rename_refl, c.rename_refl, rename_refl body]
  | breakLoop m loop =>
    cases loop with
    | none => rfl
    | some i => rfl

theorem renameAll_refl (ss : List Stmt) : renameAll .refl ss = ss := by
  cases ss with
  | nil => rfl
  | cons s ss => rw [renameAll, rename_refl s, renameAll_refl ss]

end

end Stmt

theorem LowerError.rename_refl (e : LowerError) : e.rename .refl = e := by
  obtain ⟨kind, function, origin⟩ := e
  cases kind with
  | unresolvedBreak s loop =>
    cases loop with
    | none => rfl
    | some i => rfl
  | _ => rfl

/-! ### Distances -/

/-- Two registers that are as far apart as the register counters of two builders. -/
def RegsMoved (b b' : Builder) (r r' : Reg) : Prop := (r' : Int) - r = b'.nextReg - b.nextReg

/-- Two labels that are as far apart as the label counters of two builders. -/
def LabelsMoved (b b' : Builder) (l l' : Label) : Prop :=
  (l'.number.toNat : Int) - l.number.toNat = b'.nextLabel.toNat - b.nextLabel.toNat

theorem RegsApart.moved {b b' : Builder} {r r' : Reg} (h : RegsApart b b' r r') :
    RegsMoved b b' r r' := by
  obtain ⟨i, rfl, rfl⟩ := h
  unfold RegsMoved
  omega

/-- As long as the counters do not wrap, labels stay as far apart as they began. -/
theorem LabelsApart.moved {b b' : Builder} {k : Nat} {l l' : Label} (h : LabelsApart b b' k l l')
    (hb : b.nextLabel.toNat + k ≤ UInt32.size) (hb' : b'.nextLabel.toNat + k ≤ UInt32.size) :
    LabelsMoved b b' l l' := by
  obtain ⟨i, hi, rfl, rfl⟩ := h
  have hnext (m : UInt32) (hm : m.toNat + k ≤ UInt32.size) :
      (m + .ofNat i).toNat = m.toNat + i := by
    rw [UInt32.toNat_add, UInt32.toNat_ofNat', Nat.add_mod_mod, Nat.mod_eq_of_lt]
    exact Nat.lt_of_lt_of_le (Nat.add_lt_add_left hi _) hm
  unfold LabelsMoved
  rw [hnext _ hb, hnext _ hb']
  omega

/-- From the builders `b` and `b'` two walks have come to `c` and `c'`.  Each has taken `k` labels,
    both know the same names, and the instructions that were appended are the same but for the
    registers and the labels, which are as far apart as the counters were. -/
structure Builder.Relocated (b b' : Builder) (k : Nat) (c c' : Builder) : Prop where
  reg : RegsMoved b b' c.nextReg c'.nextReg
  label : c.nextLabel = b.nextLabel + .ofNat k
  label' : c'.nextLabel = b'.nextLabel + .ofNat k
  names : c'.names = c.names
  code : ∃ ops ops', c.code.toList = b.code.toList ++ ops ∧ c'.code.toList = b'.code.toList ++ ops' ∧
    (b.nextLabel.toNat + k ≤ UInt32.size → b'.nextLabel.toNat + k ≤ UInt32.size →
      List.Forall₂ (Instr.Alike (RegsMoved b b') (LabelsMoved b b')) ops ops')

theorem Builder.Apart.relocated {b b' c c' : Builder} {k : Nat}
    (h : Builder.Apart .refl b b' k c c') : Builder.Relocated b b' k c c' where
  reg := h.reg.moved
  label := h.label
  label' := h.label'
  names := h.names.trans (List.map_id' _)
  code := by
    obtain ⟨ops, ops', hops, hops', halike⟩ := h.code
    refine ⟨ops, ops', hops, hops', fun hb hb' => halike.imp fun i i' hi => ?_⟩
    exact hi.mono (fun _ _ hr => hr.moved) fun _ _ hl => hl.moved hb hb'

/-! ### Relocation -/

/-- **Lowering is relocatable.**  On two builders that know the same names, lowering a statement
    fails on both with one error or succeeds on both, and either way what it appends on the one is
    what it appends on the other, moved.  A statement that is lowered takes its number of labels; one
    that fails takes no more. -/
theorem lowering_is_relocatable (ctx : Context) (s : Stmt) (b b' : Builder)
    (hnames : b'.names = b.names) :
    Abreast (s.lower (Expr.lower ctx)) (s.lower (Expr.lower ctx)) (.start b) (.start b')
      (fun e e' w w' => e' = e ∧
        ∃ k ≤ s.labelCount, Builder.Relocated b b' k w.builder w'.builder)
      (fun _ _ w w' => Builder.Relocated b b' s.labelCount w.builder w'.builder) := by
  have hstart : Walk.Apart .refl b b' 0 (.start b) (.start b') :=
    ⟨.start (hnames.trans (List.map_id' _).symm), .nil⟩
  have hstep := s.lower_abreast .refl b b' ctx s.labelCount 0 _ _ hstart
    (Nat.le_of_eq (Nat.zero_add _))
  rw [s.rename_refl, Nat.zero_add] at hstep
  rcases hstep.cases with ⟨_, w, _, w', hrun, hrun', hapart⟩ | ⟨e, w, e', w', hrun, hrun', hfail⟩
  · exact .of_ok hrun hrun' hapart.builder.relocated
  · obtain ⟨he, k, hk, hapart⟩ := hfail
    exact .of_error hrun hrun' ⟨he.trans e.rename_refl, k, hk, hapart.relocated⟩

/-- A loop that gives a new name a value and leaves itself under a condition. -/
def seekLoop : Stmt :=
  .whileLoop ⟨⟨4⟩, .unknown⟩ (.ident .unknown "n") (.block ⟨⟨3⟩, .unknown⟩
    [.eval ⟨⟨0⟩, .unknown⟩ (.assign .unknown "last" (.ident .unknown "n")),
      .ifThen ⟨⟨2⟩, .unknown⟩ (.ident .unknown "last") (.breakLoop ⟨⟨1⟩, .unknown⟩ (some ⟨4⟩))])

/-- A builder that knows a name and has nothing else. -/
def freshBuilder : Builder := .withParams ["n"]

/-- A builder that knows the same name and has been in use. -/
def usedBuilder : Builder :=
  ⟨3, 7, 1, ["n"], #[.const 0 (.int 5), .label ⟨6⟩, .load 2 0]⟩

theorem lowering_is_relocatable_seekLoop :
    usedBuilder.names = freshBuilder.names ∧
    ∃ w w', seekLoop.lower (Expr.lower (.empty {})) (.start freshBuilder) = .ok () w ∧
      seekLoop.lower (Expr.lower (.empty {})) (.start usedBuilder) = .ok () w' ∧
      Builder.Relocated freshBuilder usedBuilder 3 w.builder w'.builder := by
  have hnames : usedBuilder.names = freshBuilder.names := by decide
  refine ⟨hnames, ?_⟩
  have h := lowering_is_relocatable (.empty {}) seekLoop freshBuilder usedBuilder hnames
  rcases h.cases with ⟨_, w, _, w', hrun, hrun', hmoved⟩ | ⟨e, w, _, _, hrun, -, -⟩
  · exact ⟨w, w', hrun, hrun', hmoved⟩
  · cases hrun

end JumpCode
