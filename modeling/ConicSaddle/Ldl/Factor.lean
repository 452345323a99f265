import ConicSaddle.Dense.Matrix
import ConicSaddle.Ldl.Error
import ConicSaddle.Ldl.Pivot

/-!
# Factoring

The factorization `P L D Lᵀ Pᵀ` of a symmetric matrix that is held in a lower triangle, where `L`
is unit lower triangular and `D` has blocks of order one and two on its diagonal.  The factors
replace the triangle; what stands above the diagonal is neither read nor changed.

The pivot record has one entry per column: for a block of order one the row, counted from one, that
was brought to the diagonal, and for a block of order two twice the negative of the row that was
brought to its second place.

* `interchange`: rows and columns exchanged in the trailing symmetric matrix;
* `eliminateSingle`, `eliminatePair`: one step of elimination;
* `sweep`: the steps from a column on;
* `factor`: the whole factorization, with the status that it ends in.
-/

namespace ConicSaddle.Ldl

variable {α : Type} {n : Nat}

/-- The row, counted from one, that a pivot brings into place; its negative for order two. -/
abbrev Record (n : Nat) := Vector Int n

/-- The exchange of `a` and `b`. -/
def exchange (a b i : Fin n) : Fin n := if i = a then b else if i = b then a else i

/-- Rows and columns `a` and `b` exchanged in the symmetric matrix from row and column `k` on. -/
def interchange (A : Grid n n α) (k a b : Fin n) : Grid n n α :=
  .ofFn fun i j =>
    if k ≤ j ∧ j ≤ i then A.symm (exchange a b i) (exchange a b j) else A.get i j

/-- The elimination of column `k` with its diagonal entry.  A multiplier that is zero leaves its
column alone. -/
def eliminateSingle [Scalar α] (A : Grid n n α) (k : Fin n) : Grid n n α :=
  let d := Scalar.recip (A.get k k)
  .ofFn fun i j =>
    if k < j ∧ j ≤ i then
      if Scalar.isZero (A.get j k) then A.get i j
      else A.get i j - d * A.get j k * A.get i k
    else if k < i ∧ j = k then A.get i k * d
    else A.get i j

/-- The multipliers of row `j` in the elimination of columns `k` and `l` with the block of order
two that they have on the diagonal. -/
def pairMultipliers [Scalar α] (A : Grid n n α) (k l j : Fin n) : α × α :=
  let b := A.get l k
  let d1 := A.get l l / b
  let d2 := A.get k k / b
  let s := Scalar.recip (d1 * d2 - 1) / b
  (s * (d1 * A.get j k - A.get j l), s * (d2 * A.get j l - A.get j k))

/-- The elimination of column `k` and the next column `l` with their block on the diagonal. -/
def eliminatePair [Scalar α] (A : Grid n n α) (k l : Fin n) : Grid n n α :=
  .ofFn fun i j =>
    if l < j ∧ j ≤ i then
      let w := pairMultipliers A k l j
      A.get i j - (A.get i k * w.1 + A.get i l * w.2)
    else if l < i ∧ j = k then (pairMultipliers A k l i).1
    else if l < i ∧ j = l then (pairMultipliers A k l i).2
    else A.get i j

/-- What is known between two steps: the matrix, the record, and the first column, counted from
one, that counted as zero, or zero while there was none. -/
structure Progress (n : Nat) (α : Type) where
  grid : Grid n n α
  record : Record n
  info : Nat

/-- The elimination of column `k` with a pivot. -/
def Progress.eliminate [Scalar α] (s : Progress n α) (k : Fin n) :
    Pivot n → Checked (Progress n α)
  | .zeroColumn =>
    pure {
      grid := s.grid
      record := s.record.set k.val (k.val + 1) k.isLt
      info := if s.info = 0 then k.val + 1 else s.info }
  | .single p =>
    pure {
      grid := eliminateSingle (interchange s.grid k k p) k
      record := s.record.set k.val (p.val + 1) k.isLt
      info := s.info }
  | .pair p =>
    if h : k.val + 1 < n then
      let l : Fin n := ⟨k.val + 1, h⟩
      pure {
        grid := eliminatePair (interchange s.grid k l p) k l
        record := (s.record.set k.val (-(p.val + 1)) k.isLt).set l.val (-(p.val + 1)) l.isLt
        info := s.info }
    else
      throw .position

/-- The elimination of all columns from `k` on. -/
def sweep [Scalar α] (s : Progress n α) (k : Nat) : Checked (Progress n α) :=
  if h : k < n then do
    let pivot := choosePivot s.grid ⟨k, h⟩
    let s ← s.eliminate ⟨k, h⟩ pivot
    sweep s (k + pivot.width)
  else
    pure s
termination_by n - k
decreasing_by exact Nat.sub_lt_sub_left h (Nat.lt_add_of_pos_right (Pivot.width_pos _))

/-- The factorization of a grid.  It is completed also when it ends in an error. -/
def factorGrid [Scalar α] (A : Grid n n α) (record : Record n) :
    Checked (Reply FactorizationError Unit (Grid n n α × Record n)) := do
  let s ← sweep ⟨A, record, 0⟩ 0
  pure {
    answer := if s.info = 0 then .ok () else .error (.zeroPivot s.info)
    state := (s.grid, s.record) }

/-- The factorization of a matrix of the order that the record is for. -/
def factor [Scalar α] (A : Matrix α) (record : Record n) :
    Checked (Reply FactorizationError Unit (Matrix α × Record n)) :=
  if h : A.size = (n, n) then do
    let reply ← factorGrid (A.toGrid h) record
    pure { answer := reply.answer, state := (.ofGrid reply.state.1, reply.state.2) }
  else
    pure { answer := .error .incompatibleDimension, state := (A, record) }

end ConicSaddle.Ldl
