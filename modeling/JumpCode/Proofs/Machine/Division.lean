import JumpCode.Proofs.Semantics.Simulation

/-!
# Division by machine

The machine divides 64-bit numbers toward zero, and a quotient that is too large wraps around.  There
is one such quotient only, that of the least number by minus one.  `IsDivision` is the law that
quotient and remainder obey together.  It is proved for numbers first, by way of the integers that
they stand for: there the law holds without exception (`Int.tdiv_mul_add_tmod`), and reading integers
as 64-bit numbers keeps sums and products.

Nothing is divided by zero.  An instruction that would have to fails before it has stored anything.
-/

namespace JumpCode

/-! ### Numbers -/

/-- The numbers `q` and `m` are quotient and remainder of `x` by `y`. -/
structure IsDivision (x y q m : Int64) : Prop where
  /-- The law of division, in arithmetic that wraps around. -/
  law : q * y + m = x
  smaller : m.toInt.natAbs < y.toInt.natAbs
  sign : m = 0 ∨ m.toInt.sign = x.toInt.sign
  truncated : ¬(x = Int64.minValue ∧ y = -1) → q.toInt = x.toInt.tdiv y.toInt
  /-- The least number is `-2 ^ 63`, and `2 ^ 63` is no 64-bit number. -/
  wrapped : x = Int64.minValue ∧ y = -1 → q = Int64.minValue ∧ m = 0

theorem div_eq_ofInt_tdiv (x y : Int64) : x / y = .ofInt (x.toInt.tdiv y.toInt) := by
  rw [Int64.ofInt_tdiv x.minValue_le_toInt x.toInt_le y.minValue_le_toInt y.toInt_le,
    Int64.ofInt_toInt, Int64.ofInt_toInt]

theorem mod_eq_ofInt_tmod (x y : Int64) : x % y = .ofInt (x.toInt.tmod y.toInt) := by
  rw [← Int64.toInt_mod, Int64.ofInt_toInt]

theorem div_mul_add_mod (x y : Int64) : x / y * y + x % y = x := by
  calc x / y * y + x % y
      = .ofInt (x.toInt.tdiv y.toInt) * .ofInt y.toInt + .ofInt (x.toInt.tmod y.toInt) := by
        rw [div_eq_ofInt_tdiv, mod_eq_ofInt_tmod, Int64.ofInt_toInt]
    _ = .ofInt (x.toInt.tdiv y.toInt * y.toInt + x.toInt.tmod y.toInt) := by
        rw [Int64.ofInt_add, Int64.ofInt_mul]
    _ = .ofInt x.toInt := by rw [Int.tdiv_mul_add_tmod]
    _ = x := Int64.ofInt_toInt x

theorem natAbs_mod_lt {y : Int64} (hy : y ≠ 0) (x : Int64) :
    (x % y).toInt.natAbs < y.toInt.natAbs := by
  have hne : y.toInt ≠ 0 := fun h => hy (Int64.toInt_inj.mp h)
  rw [Int64.toInt_mod, Int.natAbs_tmod]
  exact Nat.mod_lt _ (Int.natAbs_pos.mpr hne)

/-- A remainder has the sign of what was divided, if it has one. -/
theorem sign_mod (x y : Int64) : x % y = 0 ∨ (x % y).toInt.sign = x.toInt.sign := by
  have hsign := Int.sign_tmod x.toInt y.toInt
  rw [← Int64.toInt_mod] at hsign
  by_cases hdvd : y.toInt ∣ x.toInt
  · rw [if_pos hdvd] at hsign
    exact Or.inl (Int64.toInt_inj.mp (Int.sign_eq_zero_iff_zero.mp hsign))
  · rw [if_neg hdvd] at hsign
    exact Or.inr hsign

theorem toInt_div_of_fits {x y : Int64} (h : ¬(x = Int64.minValue ∧ y = -1)) :
    (x / y).toInt = x.toInt.tdiv y.toInt := by
  by_cases hx : x = Int64.minValue
  · exact Int64.toInt_div_of_ne_right x y fun hy => h ⟨hx, hy⟩
  · exact Int64.toInt_div_of_ne_left x y hx

theorem isDivision_div_mod {y : Int64} (hy : y ≠ 0) (x : Int64) :
    IsDivision x y (x / y) (x % y) where
  law := div_mul_add_mod x y
  smaller := natAbs_mod_lt hy x
  sign := sign_mod x y
  truncated := toInt_div_of_fits
  wrapped := by
    rintro ⟨rfl, rfl⟩
    exact ⟨Int64.minValue_div_neg_one, by decide⟩

/-! ### Operators -/

namespace BinaryOp

variable {v w : Value}

theorem apply_div (hw : w.toInt64 ≠ 0) :
    div.apply v w = some (.int (v.toInt64 / w.toInt64)) := if_neg hw

theorem apply_mod (hw : w.toInt64 ≠ 0) :
    mod.apply v w = some (.int (v.toInt64 % w.toInt64)) := if_neg hw

theorem apply_eq_none {op : BinaryOp} (hop : op = div ∨ op = mod) (hw : w.toInt64 = 0) :
    op.apply v w = none := by
  rcases hop with rfl | rfl
  · exact if_pos hw
  · exact if_pos hw

example : div.apply (.int (-7)) (.int 2) = some (.int (-3)) ∧
    mod.apply (.int (-7)) (.int 2) = some (.int (-1)) := by decide

end BinaryOp

/-! ### Instructions -/

namespace Frame

/-- The frame is at an instruction that applies an operator to `v` and `w`, which the registers `l`
    and `r` hold, and stores the result in the register `d`. -/
structure Applies (f : Frame) (op : BinaryOp) (d l r : Reg) (v w : Value) : Prop where
  instr : f.instr? = some (.binary op d l r)
  left : f.reg l = v
  right : f.reg r = w

/-- The frame `f` becomes `g` by storing `v` in the register `d` and going on to the next
    instruction. -/
structure Stores (f : Frame) (d : Reg) (v : Value) (g : Frame) : Prop where
  routine : g.routine = f.routine
  depth : g.depth = f.depth
  pc : g.pc = f.pc + 1
  dest : g.reg d = v
  others : ∀ k, k ≠ d → g.reg k = f.reg k
  slots : g.slots = f.slots

theorem stores_setReg (f : Frame) (d : Reg) (v : Value) : f.Stores d v (f.setReg d v).advance where
  routine := rfl
  depth := rfl
  pc := rfl
  dest := by simp
  others k hk := by simp [hk]
  slots := rfl

namespace Applies

variable {rs : List Routine} {D : Nat} {f : Frame} {cs : List Waiting} {op : BinaryOp}
  {d l r : Reg} {v w : Value}

theorem exists_stores (h : f.Applies op d l r v w) {u : Value} (hu : op.apply v w = some u) :
    ∃ g, f.Stores d u g ∧ Machine.step rs D ⟨f, cs⟩ = Machine.rest g cs := by
  refine ⟨_, f.stores_setReg d u, ?_⟩
  rw [Machine.step_of_instr h.instr, Machine.exec_binary, h.left, h.right, hu]

theorem step_eq_failed (h : f.Applies op d l r v w) (hu : op.apply v w = none) :
    Machine.step rs D ⟨f, cs⟩ = .failed ⟨.divisionByZero, f.site⟩ := by
  rw [Machine.step_of_instr h.instr, Machine.exec_binary, h.left, h.right, hu]

theorem run_operate_eq_error (h : f.Applies op d l r v w) (hu : op.apply v w = none) :
    (operate op d l r).run f = .error ⟨.divisionByZero, f.site⟩ f := by
  rw [run_operate, h.left, h.right, hu]

end Applies

end Frame

/-- **Division obeys its law.**  Two values, read as numbers of which the second is not zero, have a
    quotient and a remainder, and these are what the machine stores when it divides or takes the
    remainder, in whatever frame it does so.  If the second value reads as zero, both instructions
    fail, and the frame stays as it was, with its registers, its slots and its place. -/
theorem division_obeys_its_law (v w : Value) :
    (w.toInt64 ≠ 0 →
      ∃ q m : Int64, IsDivision v.toInt64 w.toInt64 q m ∧
        ∀ (rs : List Routine) (D : Nat) (f : Frame) (cs : List Waiting) (d l r : Reg),
          (f.Applies .div d l r v w →
            ∃ g, f.Stores d (.int q) g ∧ Machine.step rs D ⟨f, cs⟩ = Machine.rest g cs) ∧
          (f.Applies .mod d l r v w →
            ∃ g, f.Stores d (.int m) g ∧ Machine.step rs D ⟨f, cs⟩ = Machine.rest g cs)) ∧
    (w.toInt64 = 0 →
      ∀ (rs : List Routine) (D : Nat) (f : Frame) (cs : List Waiting) (op : BinaryOp)
        (d l r : Reg), op = .div ∨ op = .mod → f.Applies op d l r v w →
          Machine.step rs D ⟨f, cs⟩ = .failed ⟨.divisionByZero, f.site⟩ ∧
            (Frame.operate op d l r).run f = .error ⟨.divisionByZero, f.site⟩ f) := by
  constructor
  · intro hw
    refine ⟨_, _, isDivision_div_mod hw v.toInt64, ?_⟩
    intro rs D f cs d l r
    constructor
    · intro hdiv
      exact hdiv.exists_stores (BinaryOp.apply_div hw)
    · intro hmod
      exact hmod.exists_stores (BinaryOp.apply_mod hw)
  · intro hw rs D f cs op d l r hop happlies
    have hnone : op.apply v w = none := BinaryOp.apply_eq_none hop hw
    exact ⟨happlies.step_eq_failed hnone, happlies.run_operate_eq_error hnone⟩

/-- A frame that is about to divide the least number by `w`, or to take the remainder, and to store
    the result where the least number was. -/
def Frame.atLeastNumber (op : BinaryOp) (w : Value) : Frame where
  routine := ⟨"least", 0, 0, 2, #[.binary op 0 0 1, .ret 0], []⟩
  depth := 0
  pc := 0
  regs := #[.int Int64.minValue, w]
  slots := #[]

theorem division_obeys_its_law_atLeastNumber :
    (∃ g, (Frame.atLeastNumber .div (.int (-1))).Stores 0 (.int Int64.minValue) g ∧
        Machine.step [] 0 ⟨.atLeastNumber .div (.int (-1)), []⟩ = Machine.rest g []) ∧
      (∃ g, (Frame.atLeastNumber .mod (.int (-1))).Stores 0 (.int 0) g ∧
        Machine.step [] 0 ⟨.atLeastNumber .mod (.int (-1)), []⟩ = Machine.rest g []) ∧
      Machine.step [] 0 ⟨.atLeastNumber .mod (.bool false), []⟩ =
          .failed ⟨.divisionByZero, ⟨"least", 0⟩⟩ ∧
        (Frame.operate .mod 0 0 1).run (.atLeastNumber .mod (.bool false)) =
          .error ⟨.divisionByZero, ⟨"least", 0⟩⟩ (.atLeastNumber .mod (.bool false)) := by
  have happlies (op : BinaryOp) (w : Value) :
      (Frame.atLeastNumber op w).Applies op 0 0 1 (.int Int64.minValue) w := ⟨rfl, rfl, rfl⟩
  obtain ⟨q, m, hlaw, hsteps⟩ :=
    (division_obeys_its_law (.int Int64.minValue) (.int (-1))).1 (by decide)
  obtain ⟨rfl, rfl⟩ := hlaw.wrapped ⟨rfl, rfl⟩
  refine ⟨(hsteps [] 0 _ [] 0 0 1).1 (happlies _ _), (hsteps [] 0 _ [] 0 0 1).2 (happlies _ _), ?_⟩
  exact (division_obeys_its_law (.int Int64.minValue) (.bool false)).2 rfl [] 0 _ [] .mod 0 0 1
    (Or.inr rfl) (happlies _ _)

end JumpCode
