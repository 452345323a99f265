import ConicSaddle.Dense.Grid
import ConicSaddle.Vec.Slice

/-!
# Writing blocks

Rectangular blocks written into a grid, one column slice after the other.  A block that does not
lie inside the grid is a fault, and then nothing is written.

* `Grid.setBlock`: a block copied from another grid;
* `Grid.fillBlock`: a block of one value;
* `Grid.setBlockDiagonal`: the diagonal of a square block, and nothing else.
-/

namespace ConicSaddle.Grid

variable {α : Type} {m n : Nat}

/-- `ys` written into the storage from row `row` of column `col` on. -/
def writeSlice (A : Grid m n α) (row col : Nat) (ys : Array α) : Checked (Grid m n α) :=
  Grid.mk <$> splice A.entries (row + m * col) ys

/-- `B` written with its first entry in row `row` of column `col`. -/
def setBlock {p q : Nat} (A : Grid m n α) (row col : Nat) (B : Grid p q α) :
    Checked (Grid m n α) := do
  require (row + p ≤ m ∧ col + q ≤ n) .shape
  (List.finRange q).foldlM (fun A j => A.writeSlice row (col + j.val) (B.col j).toArray) A

/-- The value `c` in `p` rows from `row` on of `q` columns from `col` on. -/
def fillBlock (A : Grid m n α) (row col p q : Nat) (c : α) : Checked (Grid m n α) := do
  require (row + p ≤ m ∧ col + q ≤ n) .shape
  (List.range' col q).foldlM (fun A j => A.writeSlice row j (.replicate p c)) A

/-- The value `c` in `len` places of the diagonal from row and column `start` on. -/
def setBlockDiagonal (A : Grid m n α) (start len : Nat) (c : α) : Checked (Grid m n α) := do
  require (start + len ≤ m ∧ start + len ≤ n) .shape
  (List.range' start len).foldlM (fun A i => A.writeSlice i i #[c]) A

end ConicSaddle.Grid
