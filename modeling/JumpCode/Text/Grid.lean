import JumpCode.Text.Decimal

/-!
# Grids

A grid has a header and rows of cells, drawn with lines between the rows.  Every column is as wide
as its widest cell, with one blank on either side.  The header and the first column stand on the
left of their cells, all other cells on the right.
-/

namespace JumpCode.Text

structure Grid where
  header : List String
  rows : List (List String)

namespace Grid

/-- The greater of two widths at each column; the longer row decides how many there are. -/
def widen : List Nat → List Nat → List Nat
  | [], ws => ws
  | ws, [] => ws
  | v :: vs, w :: ws => max v w :: widen vs ws

def widths (g : Grid) : List Nat :=
  g.rows.foldl (fun ws row => widen ws (row.map String.length)) (g.header.map String.length)

/-- A line across the grid: `fill` over the columns and their blanks, the other marks at the left,
    between columns and at the right. -/
def rule (left fill cross right : String) (ws : List Nat) : String :=
  left ++ String.intercalate cross (ws.map fun w => String.join (List.replicate (w + 2) fill)) ++ right

def line (cells : List String) : String :=
  "│ " ++ String.intercalate " ┆ " cells ++ " │"

def headerCells (ws : List Nat) (cells : List String) : List String :=
  List.zipWith (padRight ' ') ws cells

def rowCells : List Nat → List String → List String
  | w :: ws, c :: cs => padRight ' ' w c :: List.zipWith (padLeft ' ') ws cs
  | _, _ => []

def lines (g : Grid) : List String :=
  let ws := g.widths
  let rows := g.rows.map fun r => line (rowCells ws r)
  [rule "┌" "─" "┬" "┐" ws, line (headerCells ws g.header), rule "╞" "═" "╪" "╡" ws] ++
    rows.intersperse (rule "├" "╌" "┼" "┤" ws) ++ [rule "└" "─" "┴" "┘" ws]

def render (g : Grid) : String := String.intercalate "\n" g.lines

end Grid

end JumpCode.Text
