import ConicSaddle.Dense.Matrix
import ConicSaddle.Number.Scientific

/-!
# Matrices as text

One line for each row, after an empty line.
-/

namespace ConicSaddle.Matrix

/-- Entries have three digits after the point and are ten characters wide or wider. -/
def entryFormat : Scientific := ⟨3, 10⟩

/-- The text of a row. -/
def rowText {α : Type} [FloatFormat α] (A : Matrix α) (i : Fin A.rows) : String :=
  let entries := (List.finRange A.cols).map fun j =>
    " " ++ entryFormat.render (FloatFormat.decode (A.grid.get i j))
  "[ " ++ String.join entries ++ "]\n"

/-- The text of a matrix. -/
def display {α : Type} [FloatFormat α] (A : Matrix α) : String :=
  "\n" ++ String.join ((List.finRange A.rows).map A.rowText)

end ConicSaddle.Matrix
