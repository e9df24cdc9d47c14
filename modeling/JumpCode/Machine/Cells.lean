import JumpCode.Code.Value

/-!
# Cells

A row of numbered cells that hold values.  A cell that has not been written holds the initial value,
and writing to a cell beyond the end makes the row longer.  `read_write` is all that is to be known
about the two.
-/

namespace JumpCode

abbrev Cells := Array Value

namespace Cells

/-- A row of `n` cells that nothing has been written to. -/
def blank (n : Nat) : Cells := Array.replicate n default

def read (a : Cells) (i : Nat) : Value := a.getD i default

def write (a : Cells) (i : Nat) (v : Value) : Cells :=
  if h : i < a.size then a.set i v h
  else (a ++ Array.replicate (i - a.size) default).push v

/-- A row that starts with the given values and has at least `n` cells. -/
def ofValues (n : Nat) (vs : List Value) : Cells :=
  vs.toArray ++ blank (n - vs.length)

theorem read_blank (n i : Nat) : (blank n).read i = default := by
  simp only [read, blank, Array.getD_eq_getD_getElem?, Array.getElem?_replicate]
  split <;> rfl

theorem read_write (a : Cells) (i j : Nat) (v : Value) :
    (a.write i v).read j = if j = i then v else a.read j := by
  simp only [read, write, Array.getD_eq_getD_getElem?]
  split
  · next h =>
    rw [Array.getElem?_set]
    by_cases hij : i = j
    · simp [hij]
    · simp [hij, Ne.symm hij]
  · next h =>
    have hsize : (a ++ Array.replicate (i - a.size) (default : Value)).size = i := by
      simp; omega
    rw [Array.getElem?_push, hsize]
    by_cases hij : j = i
    · simp [hij]
    · simp only [hij, if_false, Array.getElem?_append, Array.getElem?_replicate]
      by_cases hj : j < a.size
      · simp [hj]
      · simp only [hj, if_false, Array.getElem?_eq_none (Nat.le_of_not_lt hj)]
        split <;> rfl

end Cells

end JumpCode
