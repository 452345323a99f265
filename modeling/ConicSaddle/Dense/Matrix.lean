import ConicSaddle.Dense.Block
import ConicSaddle.Scalar

/-!
# Matrices

Dense matrices whose size is known only when the program runs: a size and a grid of that size.
Requests that do not fit the size are faults.

* `zeros`, `identity`, `ofArray`, `ofRows`: new matrices, as far as storage goes;
* `entry`, `setEntry`: one entry by its place in the storage, where only that place is checked, so
  that a row beyond the last one is a place in a later column;
* `isSymmetric`, `equal`: comparisons.
-/

namespace ConicSaddle

/-- A dense matrix. -/
structure Matrix (α : Type) where
  rows : Nat
  cols : Nat
  grid : Grid rows cols α

namespace Matrix

variable {α : Type}

/-- A grid as a matrix. -/
def ofGrid {m n : Nat} (A : Grid m n α) : Matrix α := ⟨m, n, A⟩

/-- The entries, column after column. -/
def toArray (A : Matrix α) : Array α := A.grid.entries.toArray

/-- As many rows as columns. -/
def IsSquare (A : Matrix α) : Prop := A.rows = A.cols

instance (A : Matrix α) : Decidable A.IsSquare := inferInstanceAs (Decidable (_ = _))

/-- The number of rows and the number of columns. -/
def size (A : Matrix α) : Nat × Nat := (A.rows, A.cols)

/-- The grid of a matrix whose size is known. -/
def toGrid (A : Matrix α) {m n : Nat} (h : A.size = (m, n)) : Grid m n α where
  entries := A.grid.entries.cast (by
    rw [show A.rows = m from congrArg Prod.fst h, show A.cols = n from congrArg Prod.snd h])

/-- The matrix with its grid changed by an operation that keeps the size. -/
def modify (A : Matrix α) (f : Grid A.rows A.cols α → Checked (Grid A.rows A.cols α)) :
    Checked (Matrix α) :=
  (fun g => { A with grid := g }) <$> f A.grid

theorem size_of_rows_eq {A : Matrix α} (h : A.rows = A.cols) : A.size = (A.cols, A.cols) := by
  rw [size, h]

/-! ### New matrices -/

/-- The matrix of a size with the given entries, column after column. -/
def ofArray (m n : Nat) (entries : Array α) : Checked (Matrix α) := do
  let entries ← sized entries (m * n)
  pure ⟨m, n, ⟨entries⟩⟩

/-- Storage for `m * n` entries. -/
def allocate (m n : Nat) : Checked Unit := do
  let count ← Word.mul m n
  let _ ← Word.storage count

/-- A matrix of zeros. -/
def zeros [Zero α] (m n : Nat) : Checked (Matrix α) := do
  allocate m n
  pure ⟨m, n, .replicate m n 0⟩

/-- The identity matrix. -/
def identity [Zero α] [One α] (n : Nat) : Checked (Matrix α) := do
  allocate n n
  pure ⟨n, n, .diagonal n 1 0⟩

/-- The matrix with the given rows, which are all of one length. -/
def ofRows [Zero α] (rows : List (Array α)) : Checked (Matrix α) := do
  let n := (rows.head?.map Array.size).getD 0
  let rows ← rows.mapM (sized · n)
  pure ⟨rows.length, n, .ofFn fun i j => (rows.get i).get j⟩

/-- A matrix of another size over the same storage, filled up with zeros at the end. -/
def resize [Zero α] (A : Matrix α) (m n : Nat) : Checked (Matrix α) := do
  allocate m n
  pure ⟨m, n, A.grid.resize m n 0⟩

/-! ### Changes -/

/-- A square matrix made the identity. -/
def setIdentity [Zero α] [One α] (A : Matrix α) : Checked (Matrix α) := do
  require A.IsSquare .shape
  pure { A with grid := .ofFn fun i j => if i.val = j.val then 1 else 0 }

/-- All entries replaced, column after column. -/
def setEntries (A : Matrix α) (entries : Array α) : Checked (Matrix α) :=
  A.modify fun _ => Grid.mk <$> sized entries (A.rows * A.cols)

/-- Every entry replaced by one value. -/
def fill (A : Matrix α) (c : α) : Matrix α := { A with grid := .replicate _ _ c }

/-- A column replaced by entries of the same number. -/
def setCol (A : Matrix α) (j : Nat) (entries : Array α) : Checked (Matrix α) :=
  A.modify fun g =>
    if h : j < A.cols then do
      let entries ← sized entries A.rows
      pure (g.setCol ⟨j, h⟩ entries)
    else
      throw .position

/-- The entry at the place of row `i` of column `j` replaced. -/
def setEntry (A : Matrix α) (i j : Nat) (c : α) : Checked (Matrix α) :=
  A.modify (·.writeSlice i j #[c])

/-! ### Queries -/

/-- The place of row `i` of column `j` in the storage. -/
def place (A : Matrix α) (i j : Nat) : Nat := i + A.rows * j

/-- The entry at a place of the storage. -/
def entryAt (A : Matrix α) (k : Nat) : Checked α :=
  if h : k < A.rows * A.cols then pure A.grid.entries[k] else throw .position

/-- The entry at the place of row `i` of column `j`. -/
def entry (A : Matrix α) (i j : Nat) : Checked α := A.entryAt (A.place i j)

/-- A column. -/
def col (A : Matrix α) (j : Nat) : Checked (Vector α A.rows) :=
  if h : j < A.cols then pure (A.grid.col ⟨j, h⟩) else throw .position

/-- Square, and no entry and its transposed entry differ by more than `tol`. -/
def isSymmetric [Scalar α] (A : Matrix α) (tol : α) : Bool :=
  if h : A.rows = A.cols then
    let g := A.toGrid (size_of_rows_eq h)
    (List.finRange A.cols).all fun j => (List.finRange A.cols).all fun i =>
      decide (i ≤ j) || !Scalar.lt tol (Scalar.abs (g.get i j - g.get j i))
  else
    false

/-- Of one size, with equal numbers at each place. -/
def equal [Scalar α] (A B : Matrix α) : Bool :=
  decide (A.size = B.size) && (A.toArray.zip B.toArray).all fun (x, y) => Scalar.same x y

/-! ### Entries -/

theorem entry_ofGrid {m n : Nat} (A : Grid m n α) (i : Fin m) (j : Fin n) :
    (ofGrid A).entry i.val j.val = .ok (A.get i j) := by
  simp only [entry, entryAt, place, ofGrid]
  exact dif_pos (Grid.place_lt i j)

theorem toGrid_ofGrid {m n : Nat} (A : Grid m n α) (h : (ofGrid A).size = (m, n)) :
    (ofGrid A).toGrid h = A := rfl

end Matrix

end ConicSaddle
