import Mathlib.Data.Matrix.Mul
import ConicSaddle.Proofs.Dense.Product
import ConicSaddle.Proofs.Exact.Action
import ConicSaddle.Proofs.Scaling.Workspace

/-!
# Views as matrices

A view shows the entries of a matrix that could be written out, and a product cannot tell a view
from the matrix written out.

* `Matrix.transposed`, `Matrix.mirrored`, `Operand.explicit`: the matrices written out;
* `Operand.Conforms`: operands and a target whose sizes fit;
* `Matrix.mul_eq_blend`, `Matrix.symv_eq_blend`: what the two products compute, for every view;
* `Matrix.mul_explicit`: views and matrices written out, vectors and columns, and exact arithmetic.
-/

/-- A table of real numbers. -/
abbrev RealTable (m n : ℕ) : Type := Matrix (Fin m) (Fin n) ℝ

namespace ConicSaddle

section

variable {α : Type} [Scalar α] {m n : ℕ}

/-! ### Matrices written out -/

/-- The matrix with rows and columns exchanged. -/
def Matrix.transposed (A : Matrix α) : Matrix α :=
  ⟨A.cols, A.rows, .ofFn fun i j => A.grid.get j i⟩

/-- The matrix whose entries in the given triangle stand on both sides of the diagonal. -/
def Matrix.mirrored (A : Matrix α) (stored : Triangle) : Matrix α :=
  ⟨A.rows, A.cols, .ofFn fun i j =>
    if stored.contains i j then A.grid.at i j else A.grid.at j i⟩

/-- The matrix that an operand stands for, written out. -/
def Operand.explicit (A : Operand α) : Matrix α :=
  match A.view with
  | .plain => A.base
  | .adjoint => A.base.transposed
  | .symmetric stored => A.base.mirrored stored

@[simp] theorem Operand.rows_explicit (A : Operand α) : A.explicit.rows = A.rows := by
  obtain ⟨_ | _ | _, A⟩ := A <;> rfl

@[simp] theorem Operand.cols_explicit (A : Operand α) : A.explicit.cols = A.cols := by
  obtain ⟨_ | _ | _, A⟩ := A <;> rfl

theorem Grid.at_ofFn (f : Fin m → Fin n → α) {i j : ℕ} (hi : i < m) (hj : j < n) :
    (ofFn f).at i j = f ⟨i, hi⟩ ⟨j, hj⟩ := by
  rw [Grid.at, dif_pos ⟨hi, hj⟩, get_ofFn]

/-- An operand shows the entries of the matrix written out. -/
theorem Operand.shows_explicit {A : Operand α} (hA : A.Proper) :
    A.Shows A.rows A.cols A.explicit.grid.at := by
  obtain ⟨view, m, n, A⟩ := A
  refine ⟨rfl, rfl, fun i hi j hj => ?_⟩
  cases view with
  | plain => exact Matrix.entry_of_lt A hi hj
  | adjoint =>
    have hshown : (Matrix.ofGrid A).transposed.grid.at i j = A.at j i :=
      (Grid.at_ofFn _ hi hj).trans (A.at_val ⟨j, hj⟩ ⟨i, hi⟩).symm
    exact (Matrix.entry_of_lt A hj hi).trans (congrArg Except.ok hshown.symm)
  | symmetric stored =>
    obtain rfl : m = n := hA
    have hshown : ((Matrix.ofGrid A).mirrored stored).grid.at i j =
        if stored.contains i j then A.at i j else A.at j i := Grid.at_ofFn _ hi hj
    have hplace : ((Matrix.ofGrid A).symmetric stored).entry i j =
        if stored.contains i j then (Matrix.ofGrid A).entry i j
        else (Matrix.ofGrid A).entry j i := apply_ite (Matrix.ofGrid A).entryAt _ _ _
    refine hplace.trans (Eq.trans ?_ (congrArg Except.ok hshown.symm))
    simp only [Matrix.entry_of_lt A hi hj, Matrix.entry_of_lt A hj hi, apply_ite Except.ok]

/-! ### Products -/

/-- Two operands and a target for their product: symmetric views are of square matrices, and the
sizes fit. -/
structure Operand.Conforms (A B : Operand α) (C : Matrix α) : Prop where
  left : A.Proper
  right : B.Proper
  inner : A.cols = B.rows
  rows : C.rows = A.rows
  cols : C.cols = B.cols

namespace Matrix

open Operand (Conforms)

/-- The product `alpha * A * B + beta * C` of two matrices with `k` terms in each inner product. -/
def blended (A B : Matrix α) (k : ℕ) (alpha beta : α) (C : Matrix α) : Matrix α :=
  ⟨C.rows, C.cols, .ofFn fun i j =>
    blend alpha (rowSum k fun l => A.grid.at i l * B.grid.at l j) beta (C.grid.get i j)⟩

variable {A B : Operand α} {C : Matrix α}

/-- A product is that of the matrices written out, whatever the views. -/
theorem mul_eq_blend (h : Conforms A B C) (alpha beta : α) :
    C.mul A B alpha beta = .ok (blended A.explicit B.explicit A.cols alpha beta C) := by
  have hA : A.Shows C.rows A.cols A.explicit.grid.at := h.rows ▸ Operand.shows_explicit h.left
  have hB : B.Shows A.cols C.cols B.explicit.grid.at := by
    rw [h.inner, h.cols]
    exact Operand.shows_explicit h.right
  exact congrArg (Functor.map fun g : Grid C.rows C.cols α => { C with grid := g })
    (C.grid.mul_eq_ok hA hB alpha beta)

theorem conforms_explicit (h : Conforms A B C) :
    Conforms A.explicit.plain B.explicit.plain C where
  left := trivial
  right := trivial
  inner := by simpa [plain, Operand.rows, Operand.cols] using h.inner
  rows := by simpa [plain, Operand.rows] using h.rows
  cols := by simpa [plain, Operand.cols] using h.cols

/-- Without a share of the old entries, targets of one size become equal. -/
theorem blended_eq_of_isZero (A B : Matrix α) (k : ℕ) (alpha : α) {beta : α}
    (hbeta : Scalar.isZero beta = true) {C C' : Matrix α} (hsize : C'.size = C.size) :
    blended A B k alpha beta C' = blended A B k alpha beta C := by
  obtain ⟨m, n, C⟩ := C
  obtain ⟨m', n', C'⟩ := C'
  obtain ⟨rfl, rfl⟩ := Prod.mk.inj hsize
  simp [blended, blend, hbeta]

/-! ### Vectors -/

/-- The matrix whose only column is the vector. -/
def column (x : Vector α n) : Matrix α := ⟨n, 1, .ofFn fun i _ => x.get i⟩

omit [Scalar α] in
theorem column_ofFn (f : Fin n → α) : column (.ofFn f) = ⟨n, 1, .ofFn fun i _ => f i⟩ := by
  simp only [column, Vec.get_ofFn]

theorem column_at (x : Vector α n) (l : Fin n) : (column x).grid.at l 0 = x.get l :=
  Grid.at_ofFn (fun i (_ : Fin 1) => x.get i) l.isLt Nat.zero_lt_one

theorem foldl_finRange (f : ℕ → α) :
    (List.finRange n).foldl (fun s (j : Fin n) => s + f j) 0 = rowSum n f := by
  rw [rowSum, ← List.map_coe_finRange_eq_range, List.foldl_map]

/-- A product with a vector is that of the matrix written out and the column. -/
theorem symv_eq_blend {A : Matrix α} (hA : A.IsSquare) (stored : Triangle)
    (x y : Vector α A.cols) (alpha beta : α) :
    A.symv stored x.toArray y alpha beta = .ok (.ofFn fun i =>
      blend alpha (rowSum A.cols fun l => (A.mirrored stored).grid.at i l * (column x).grid.at l 0)
        beta (y.get i)) := by
  obtain ⟨m, n, A⟩ := A
  obtain rfl : m = n := hA
  have hshows : ((ofGrid A).symmetric stored).Shows m m ((ofGrid A).mirrored stored).grid.at :=
    Operand.shows_explicit (show (ofGrid A).IsSquare from rfl)
  refine (symv_of_entries (fun i j => hshows.entry_eq i i.isLt j j.isLt) x y alpha beta).trans ?_
  simp only [← column_at]
  refine congrArg Except.ok (congrArg Vector.ofFn (funext fun i => ?_))
  rw [← foldl_finRange]
  rfl

/-- The product with a vector is the column of the product with the column. -/
theorem blended_column (A : Matrix α) {m : ℕ} (x : Vector α n) (y : Vector α m) (alpha beta : α) :
    blended A (column x) n alpha beta (column y) = column (.ofFn fun i =>
      blend alpha (rowSum n fun l => A.grid.at i l * (column x).grid.at l 0) beta (y.get i)) := by
  rw [column_ofFn]
  refine congrArg (Matrix.mk m 1) (congrArg Grid.ofFn (funext fun i => funext fun j => ?_))
  have hj : j.val = 0 := Nat.lt_one_iff.mp j.isLt
  have hold : (column y).grid.get i j = y.get i := Grid.get_ofFn (fun i (_ : Fin 1) => y.get i) i j
  rw [hj, hold]

end Matrix

end

/-! ### Exact arithmetic -/

/-- The entries of a matrix over the reals as a table, zero outside of the matrix. -/
noncomputable def Matrix.table (A : Matrix ℝ) (m n : ℕ) : RealTable m n := fun i j => A.grid.at i j

/-- The table that an operand stands for. -/
noncomputable def Operand.table (A : Operand ℝ) (m n : ℕ) : RealTable m n :=
  match A.view with
  | .plain => A.base.table m n
  | .adjoint => (A.base.table n m).transpose
  | .symmetric stored => fun i j =>
    if stored.contains i j then A.base.grid.at i j else A.base.grid.at j i

/-- The matrix written out has the table of the operand. -/
theorem Operand.table_explicit {A : Operand ℝ} {m n : ℕ} (hrows : A.rows = m) (hcols : A.cols = n) :
    A.explicit.table m n = A.table m n := by
  subst hrows hcols
  obtain ⟨view, A⟩ := A
  ext i j
  cases view with
  | plain => rfl
  | adjoint => exact (Grid.at_ofFn _ i.isLt j.isLt).trans (A.grid.at_val j i).symm
  | symmetric stored => exact Grid.at_ofFn _ i.isLt j.isLt

theorem blend_exact (alpha s beta old : ℝ) : blend alpha s beta old = alpha * s + beta * old := by
  unfold blend
  split <;> simp_all

/-- The table of a product is the product of the tables. -/
theorem Matrix.table_blended (A B : Matrix ℝ) (k : ℕ) (alpha beta : ℝ) (C : Matrix ℝ) :
    (blended A B k alpha beta C).table C.rows C.cols =
      alpha • (A.table C.rows k * B.table k C.cols) + beta • C.table C.rows C.cols := by
  ext i j
  have hentry : (blended A B k alpha beta C).grid.at i j =
      blend alpha (rowSum k fun l => A.grid.at i l * B.grid.at l j) beta (C.grid.get i j) :=
    Grid.at_ofFn (fun (i : Fin C.rows) (j : Fin C.cols) =>
      blend alpha (rowSum k fun l => A.grid.at i l * B.grid.at l j) beta (C.grid.get i j))
      i.isLt j.isLt
  have hproduct : (A.table C.rows k * B.table k C.cols) i j =
      rowSum k fun l => A.grid.at i l * B.grid.at l j := by
    rw [rowSum_eq_sum, Finset.sum_range]
    rfl
  rw [Matrix.table, hentry, blend_exact, ← hproduct, ← Grid.at_val]
  rfl

/-! ### Views and matrices -/

namespace Matrix

open Operand (Conforms)

/-- **Products do not tell views from matrices.**  In any arithmetic a product of conforming
operands is the product of the matrices written out, entry by entry the same; the product of a
symmetric view and a vector is the product with the column; without a share of the old entries the
target does not matter, whatever it holds.  Over the reals the product is the one of tables. -/
theorem mul_explicit :
    (∀ {α : Type} [Scalar α] {A B : Operand α} {C : Matrix α}, Conforms A B C →
      ∀ alpha beta : α, ∃ R, C.mul A B alpha beta = .ok R ∧ R.size = C.size ∧
        C.mul A.explicit.plain B.explicit.plain alpha beta = .ok R ∧
        (Scalar.isZero beta = true → ∀ C' : Matrix α, C'.size = C.size →
          C'.mul A B alpha beta = .ok R)) ∧
    (∀ {α : Type} [Scalar α] {A : Matrix α}, A.IsSquare →
      ∀ (stored : Triangle) (x y : Vector α A.cols) (alpha beta : α),
        ∃ z, A.symv stored x.toArray y alpha beta = .ok z ∧
          (column y).mul (A.symmetric stored) (column x).plain alpha beta = .ok (column z) ∧
          (Scalar.isZero beta = true → ∀ y' : Vector α A.cols,
            A.symv stored x.toArray y' alpha beta = .ok z)) ∧
    (∀ {A B : Operand ℝ} {C : Matrix ℝ}, Conforms A B C → ∀ alpha beta : ℝ,
      ∃ R, C.mul A B alpha beta = .ok R ∧ R.size = C.size ∧
        R.table C.rows C.cols =
          alpha • (A.table C.rows A.cols * B.table A.cols C.cols) +
            beta • C.table C.rows C.cols) := by
  refine ⟨fun {α _ A B C} h alpha beta => ?_, fun hA stored x y alpha beta => ?_,
    fun h alpha beta => ?_⟩
  · refine ⟨_, mul_eq_blend h alpha beta, rfl, ?_, fun hbeta C' hsize => ?_⟩
    · have hterms : A.explicit.plain.cols = A.cols := A.cols_explicit
      rw [mul_eq_blend (conforms_explicit h), hterms]
      rfl
    · obtain ⟨hrows, hcols⟩ := Prod.mk.inj hsize
      rw [mul_eq_blend ⟨h.left, h.right, h.inner, hrows.trans h.rows, hcols.trans h.cols⟩,
        blended_eq_of_isZero _ _ _ _ hbeta hsize]
  · refine ⟨_, symv_eq_blend hA stored x y alpha beta, ?_, fun hbeta y' => ?_⟩
    · have hconforms : Conforms (symmetric _ stored) (column x).plain (column y) :=
        ⟨hA, trivial, rfl, hA.symm, rfl⟩
      rw [mul_eq_blend hconforms]
      exact congrArg Except.ok (blended_column _ x y alpha beta)
    · rw [symv_eq_blend hA]
      simp [blend, hbeta]
  · refine ⟨_, mul_eq_blend h alpha beta, rfl, ?_⟩
    rw [table_blended, Operand.table_explicit h.rows.symm rfl,
      Operand.table_explicit h.inner.symm h.cols.symm]

/-! ### A target of NaN -/

/-- Two rows and columns that are not symmetric. -/
def uneven (α : Type) [Scalar α] : Matrix α := ⟨2, 2, ⟨#v[1, 0, 1, 1]⟩⟩

/-- A row of two entries. -/
def twoEntries {α : Type} (u v : α) : Matrix α := ⟨1, 2, ⟨#v[u, v]⟩⟩

/-- The upper triangle of a matrix times a transposed row, into a column of NaN. -/
theorem mul_explicit_nanTarget :
    (∃ R, (column #v[0 / 0, 0 / 0]).mul ((uneven Float).symmetric .upper)
        (twoEntries 1 (0 / 0)).adjoint 1 0 = .ok R ∧
      (column #v[0 / 0, 0 / 0]).mul ((uneven Float).mirrored .upper).plain
        (twoEntries 1 (0 / 0)).transposed.plain 1 0 = .ok R ∧
      (column #v[1, 1]).mul ((uneven Float).symmetric .upper)
        (twoEntries 1 (0 / 0)).adjoint 1 0 = .ok R) ∧
    (∃ z, (uneven Float).symv .upper #[1, 0 / 0] #v[0 / 0, 0 / 0] 1 0 = .ok z ∧
      (uneven Float).symv .upper #[1, 0 / 0] #v[1, 1] 1 0 = .ok z) ∧
    ∃ R, (column #v[1, 1]).mul ((uneven ℝ).symmetric .upper) (twoEntries 1 2).adjoint 3 4 = .ok R ∧
      R.table 2 1 = (3 : ℝ) • (((uneven ℝ).symmetric .upper).table 2 2 *
        (twoEntries (1 : ℝ) 2).adjoint.table 2 1) + (4 : ℝ) • (column #v[1, 1]).table 2 1 := by
  have hzero : Scalar.isZero (0 : Float) = true := ZeroRule.isZero_zero
  obtain ⟨hmul, hsymv, hexact⟩ := mul_explicit
  refine ⟨?_, ?_, ?_⟩
  · obtain ⟨R, hR, -, hwritten, hany⟩ := hmul (A := (uneven Float).symmetric .upper)
      (B := (twoEntries 1 (0 / 0)).adjoint) (C := column #v[0 / 0, 0 / 0])
      ⟨rfl, trivial, rfl, rfl, rfl⟩ 1 0
    exact ⟨R, hR, hwritten, hany hzero _ rfl⟩
  · obtain ⟨z, hz, -, hany⟩ := hsymv (A := uneven Float) rfl .upper #v[1, 0 / 0]
      #v[0 / 0, 0 / 0] 1 0
    exact ⟨z, hz, hany hzero #v[1, 1]⟩
  · obtain ⟨R, hR, -, htable⟩ := hexact (A := (uneven ℝ).symmetric .upper)
      (B := (twoEntries 1 2).adjoint) (C := column #v[1, 1]) ⟨rfl, trivial, rfl, rfl, rfl⟩ 3 4
    exact ⟨R, hR, htable⟩

end Matrix

end ConicSaddle
