import ConicSaddle.Ldl.Factor
import ConicSaddle.Vec.PairwiseSum
import ConicSaddle.Vec.Slice

/-!
# Solving

The solution of a linear system from the factors of its matrix and their pivot record.  A forward
sweep undoes `P L D`, a backward sweep undoes `Lᵀ Pᵀ`.  Each reads the blocks from the record on
its own: the forward sweep takes an entry that is not positive with the entry after it, the backward
sweep with the entry before it.

* `rowOf`: the row that an entry of the record names;
* `forward`, `backward`: the two sweeps;
* `solve`: both, for a matrix and a right hand side that fit the record.
-/

namespace ConicSaddle.Ldl

variable {α : Type} {n : Nat}

/-- The row that is counted `e` from one. -/
def rowOf (e : Int) : Checked (Fin n) :=
  if h : 1 ≤ e ∧ e ≤ n then pure ⟨(e - 1).toNat, by omega⟩ else throw .position

/-- A vector with two entries exchanged. -/
def swapEntries (b : Vector α n) (i j : Fin n) : Vector α n := .ofFn fun k => b[exchange i j k]

/-! ### The forward sweep -/

/-- The block of order one in column `k` undone. -/
def undoSingle [Scalar α] (A : Grid n n α) (b : Vector α n) (k : Fin n) : Vector α n :=
  .ofFn fun i =>
    if k < i then b.get i - A.get i k * b.get k
    else if i = k then b.get k / A.get k k
    else b.get i

/-- The block of order two in columns `k` and `l` undone. -/
def undoPair [Scalar α] (A : Grid n n α) (b : Vector α n) (k l : Fin n) : Vector α n :=
  let e := A.get l k
  let d1 := A.get k k / e
  let d2 := A.get l l / e
  let denom := d1 * d2 - 1
  let y1 := b.get k / e
  let y2 := b.get l / e
  .ofFn fun i =>
    if l < i then b.get i - (A.get i k * b.get k + A.get i l * b.get l)
    else if i = k then (d2 * y1 - y2) / denom
    else if i = l then (d1 * y2 - y1) / denom
    else b.get i

/-- The forward sweep from column `k` on. -/
def forward [Scalar α] (A : Grid n n α) (record : Record n) (b : Vector α n) (k : Nat) :
    Checked (Vector α n) :=
  if h : k < n then
    if 0 < record[k] then do
      let p ← rowOf record[k]
      forward A record (undoSingle A (swapEntries b ⟨k, h⟩ p) ⟨k, h⟩) (k + 1)
    else if h2 : k + 1 < n then do
      let p ← rowOf (-record[k])
      let l : Fin n := ⟨k + 1, h2⟩
      forward A record (undoPair A (swapEntries b l p) ⟨k, h⟩ l) (k + 2)
    else
      throw .position
  else
    pure b
termination_by n - k

/-! ### The backward sweep -/

/-- Entry `c` reduced by the inner product, over the rows below row `k`, of column `c` with the
vector. -/
def reduceBy [Scalar α] (A : Grid n n α) (b : Vector α n) (c k : Fin n) : Vector α n :=
  let column := (A.col c).toArray.extract (k.val + 1) n
  let rest := b.toArray.extract (k.val + 1) n
  b.set c.val (b.get c - Vec.dot column rest) c.isLt

/-- The backward sweep over the first `k` columns. -/
def backward [Scalar α] (A : Grid n n α) (record : Record n) :
    (k : Nat) → k ≤ n → Vector α n → Checked (Vector α n)
  | 0, _, b => pure b
  | k + 1, h, b =>
    let last : Fin n := ⟨k, h⟩
    let b := reduceBy A b last last
    if 0 < record[k] then do
      let p ← rowOf record[k]
      backward A record k (Nat.le_of_succ_le h) (swapEntries b last p)
    else
      match k with
      | 0 => throw .position
      | k + 1 => do
        let b := reduceBy A b ⟨k, by omega⟩ last
        let p ← rowOf (-record[k + 1])
        backward A record k (by omega) (swapEntries b last p)

/-! ### The solution -/

/-- The solution for a factored grid. -/
def solveGrid [Scalar α] (A : Grid n n α) (record : Record n) (b : Vector α n) :
    Checked (Vector α n) := do
  let b ← forward A record b 0
  backward A record n (Nat.le_refl n) b

/-- The grid of the first columns of a matrix, as many as there are rows. -/
def leading (A : Matrix α) (n : Nat) : Checked (Grid n n α) :=
  if h : A.rows = n ∧ n ≤ A.cols then
    pure (.ofFn fun i j => A.grid.get ⟨i.val, by omega⟩ ⟨j.val, by omega⟩)
  else
    throw .position

/-- The solution for a factored matrix and a right hand side of the order of the record. -/
def solve [Scalar α] (A : Matrix α) (record : Record n) (b : Array α) :
    Checked (Vector α n) := do
  require (A.rows = n) .shape
  let b ← sized b n
  let A ← leading A n
  solveGrid A record b

end ConicSaddle.Ldl
