import Mathlib.Tactic.Common
import ConicSaddle.Dense.Product
import ConicSaddle.Proofs.Checked

/-!
# Products entry by entry

A product of operands of conforming sizes succeeds, and every entry is a sum from the left.

* `rowSum`: a sum from the left, starting from zero;
* `Operand.Shows`: the entries that an operand shows, with the three views of a grid;
* `Grid.mul_eq_ok`, `Matrix.symv_of_entries`: the products.
-/

namespace ConicSaddle

variable {α : Type} [Scalar α] {m n k : ℕ}

/-- The sum of the first terms from the left, starting from zero. -/
def rowSum (count : ℕ) (f : ℕ → α) : α := (List.range count).foldl (fun s l => s + f l) 0

theorem rowSum_succ (count : ℕ) (f : ℕ → α) :
    rowSum (count + 1) f = rowSum count f + f count := by
  unfold rowSum
  rw [List.range_succ, List.foldl_append]
  rfl

/-- The operand is of the size and shows the entries. -/
structure Operand.Shows (A : Operand α) (m n : ℕ) (a : ℕ → ℕ → α) : Prop where
  rows_eq : A.rows = m
  cols_eq : A.cols = n
  entry_eq : ∀ i < m, ∀ j < n, A.entry i j = .ok (a i j)

/-- The entries of a grid at all places, zero outside. -/
def Grid.at (A : Grid m n α) (i j : ℕ) : α :=
  if h : i < m ∧ j < n then A.get ⟨i, h.1⟩ ⟨j, h.2⟩ else 0

theorem Grid.at_val (A : Grid m n α) (i : Fin m) (j : Fin n) : A.at i j = A.get i j :=
  dif_pos ⟨i.isLt, j.isLt⟩

theorem Matrix.entry_of_lt (A : Grid m n α) {i j : ℕ} (hi : i < m) (hj : j < n) :
    (ofGrid A).entry i j = .ok (A.at i j) := by
  unfold Grid.at
  rw [dif_pos ⟨hi, hj⟩]
  exact entry_ofGrid A ⟨i, hi⟩ ⟨j, hj⟩

theorem Matrix.shows_plain (A : Grid m n α) : (ofGrid A).plain.Shows m n A.at where
  rows_eq := rfl
  cols_eq := rfl
  entry_eq _ hi _ hj := entry_of_lt A hi hj

theorem Matrix.shows_adjoint (A : Grid m n α) :
    (ofGrid A).adjoint.Shows n m fun i j => A.at j i where
  rows_eq := rfl
  cols_eq := rfl
  entry_eq _ hi _ hj := entry_of_lt A hj hi

/-- The inner product of a row and a column. -/
theorem rowTimesCol_eq_ok {A B : Operand α} {count i j : ℕ} {a b : ℕ → α}
    (ha : ∀ l < count, A.entry i l = .ok (a l)) (hb : ∀ l < count, B.entry l j = .ok (b l)) :
    rowTimesCol A B count i j = .ok (rowSum count fun l => a l * b l) := by
  unfold rowTimesCol
  induction count with
  | zero => rfl
  | succ count ih =>
    have hcount := ih (fun l hl => ha l (Nat.lt_succ_of_lt hl)) fun l hl =>
      hb l (Nat.lt_succ_of_lt hl)
    rw [List.range_succ, List.foldlM_append, hcount, Checked.ok_bind, rowSum_succ,
      List.foldlM_cons, ha count (Nat.lt_succ_self count), hb count (Nat.lt_succ_self count)]
    rfl

/-- A product of conforming operands. -/
theorem Grid.mul_eq_ok (C : Grid m n α) {A B : Operand α} {a b : ℕ → ℕ → α}
    (hA : A.Shows m k a) (hB : B.Shows k n b) (alpha beta : α) :
    C.mul A B alpha beta = .ok (.ofFn fun i j =>
      blend alpha (rowSum k fun l => a i l * b l j) beta (C.get i j)) := by
  have hshape : A.cols = B.rows ∧ m = A.rows ∧ n = B.cols :=
    ⟨hA.cols_eq.trans hB.rows_eq.symm, hA.rows_eq.symm, hB.cols_eq.symm⟩
  have hentry : ∀ p : Fin (m * n), rowTimesCol A B A.cols (p.val % m) (p.val / m) =
      .ok (rowSum k fun l => a (p.val % m) l * b l (p.val / m)) := by
    intro p
    rw [hA.cols_eq]
    have hrow : p.val % m < m := Nat.mod_lt _ (rows_pos p)
    have hcol : p.val / m < n := Nat.div_lt_of_lt_mul p.isLt
    exact rowTimesCol_eq_ok (fun l hl => hA.entry_eq _ hrow l hl)
      fun l hl => hB.entry_eq l hl _ hcol
  unfold mul
  simp only [require_of_pos hshape, hentry, Checked.ok_bind]
  rw [Vector.ofFnM_pure, pure_bind]
  refine congrArg Except.ok (congrArg Grid.mk (congrArg Vector.ofFn (funext fun p => ?_)))
  congr 1
  simp only [get, Nat.mod_add_div]
  rfl

omit [Scalar α] in
/-- The place of a symmetric view, and the entry that it shows. -/
theorem Matrix.entry_symmetric_lower (A : Grid n n α) (i j : Fin n) :
    ((ofGrid A).symmetric .lower).entry i j = .ok (A.symm i j) := by
  unfold Grid.symm
  by_cases h : j ≤ i
  · have hplace : ((ofGrid A).symmetric .lower).place i j = (ofGrid A).place i j :=
      if_pos (decide_eq_true h)
    rw [if_pos h, Operand.entry, hplace]
    exact entry_ofGrid A i j
  · have hplace : ((ofGrid A).symmetric .lower).place i j = (ofGrid A).place j i :=
      if_neg fun hc => h (of_decide_eq_true hc)
    rw [if_neg h, Operand.entry, hplace]
    exact entry_ofGrid A j i

/-- The product of a symmetric view and a vector, from the entries that the view shows. -/
theorem Matrix.symv_of_entries {A : Grid n n α} {stored : Triangle} {a : Fin n → Fin n → α}
    (ha : ∀ i j : Fin n, ((ofGrid A).symmetric stored).entry i j = .ok (a i j)) (x y : Vector α n)
    (alpha beta : α) :
    (ofGrid A).symv stored x.toArray y alpha beta = .ok (.ofFn fun i =>
      blend alpha ((List.finRange n).foldl (fun s j => s + a i j * x.get j) 0) beta
        (y.get i)) := by
  have hshape : (ofGrid A).rows = (ofGrid A).cols ∧ (ofGrid A).cols = n := ⟨rfl, rfl⟩
  have hrow : ∀ i : Fin n, (List.finRange n).foldlM (fun s j => do
      let c ← ((ofGrid A).symmetric stored).entry i.val j.val
      pure (s + c * x.get j)) 0 =
      (.ok ((List.finRange n).foldl (fun s j => s + a i j * x.get j) 0) : Checked α) := by
    intro i
    simp only [ha, Checked.ok_bind]
    exact List.foldlM_pure
  unfold symv
  simp only [require_of_pos hshape, sized_toArray, hrow, Checked.ok_bind]
  exact Vector.ofFnM_pure

/-- The product of a symmetric matrix and a vector. -/
theorem Matrix.symv_eq_ok (A : Grid n n α) (x y : Vector α n) (alpha beta : α) :
    (ofGrid A).symv .lower x.toArray y alpha beta = .ok (.ofFn fun i =>
      blend alpha ((List.finRange n).foldl (fun s j => s + A.symm i j * x.get j) 0) beta
        (y.get i)) :=
  symv_of_entries (entry_symmetric_lower A) x y alpha beta

end ConicSaddle
