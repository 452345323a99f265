import ConicSaddle.Proofs.Ldl.BlockInertia

/-!
# Inertia in exact arithmetic

The inertia that is read from the factors is the inertia of the matrix that was factored, also when
the factorization ends in an error.

* `Sweeps.exists_inertia_eq`: a diagonal matrix that is congruent to what a sweep started from,
  with the signs that are read from what it left;
* `inertia_of_factor`: the statement for a whole factorization.
-/

namespace ConicSaddle

theorem Grid.isHermitian_symmMatrix {n : ℕ} (A : Grid n n ℝ) : A.symmMatrix.IsHermitian := by
  ext i j
  exact A.symm_comm j i

namespace Ldl

variable {n : ℕ}

/-- The inertia that is read counts the signs of a diagonal that the matrix is congruent to, as the
block diagonal matrix in the middle of the factors is. -/
theorem Sweeps.exists_inertia_eq {A : Grid n n ℝ} {record : Record n} {t : Progress n ℝ}
    (h : Sweeps 0 ⟨A, record, 0⟩ t) :
    ∃ e, Congruent A.symmMatrix (Matrix.diagonal e) ∧
      inertia (.ofGrid t.grid) t.record = .ok (Inertia.count Finset.univ e) := by
  obtain ⟨blocks, names⟩ := h.splits.exists_names
  obtain ⟨e, he⟩ := names.reads.exists_diagonalizes t.grid
  have hproduct := (h.blockSweeps names.reads.blocksFrom_eq).stacked_eq 1
  rw [stacked_zero, stacked_zero] at hproduct
  have hfactors : Congruent A.symmMatrix (blockDiagonal t.grid blocks) :=
    ⟨multiplier t.grid blocks, isUnit_multiplier t.grid blocks, hproduct⟩
  exact ⟨e, hfactors.trans he.congruent_all,
    he.inertia_eq names.reads fun i j _ => Matrix.entry_ofGrid t.grid i j⟩

/-- **The inertia is that of the matrix.**  After every factorization of a square matrix, whether it
ends in an error or not, the factors have an inertia, and it counts every dimension once.  The
symmetric matrix that the lower triangle stands for is congruent to a diagonal matrix with these
numbers of positive, negative and zero entries, and they are the numbers of its positive, negative
and zero eigenvalues. -/
theorem inertia_of_factor (A : Grid n n ℝ) (record : Record n) :
    ∃ answer, ∃ F : Grid n n ℝ, ∃ pivots found,
      factor (.ofGrid A) record = .ok ⟨answer, (.ofGrid F, pivots)⟩ ∧
      inertia (.ofGrid F) pivots = .ok found ∧
      found.positive + found.negative + found.zero = n ∧
      (∃ e, Congruent A.symmMatrix (Matrix.diagonal e) ∧ found = Inertia.count Finset.univ e) ∧
      found = Inertia.count Finset.univ (Grid.isHermitian_symmMatrix A).eigenvalues := by
  obtain ⟨t, hsweep, ht⟩ := exists_factorGrid A record
  obtain ⟨e, hS, hread⟩ := hsweep.exists_inertia_eq
  refine ⟨_, t.grid, t.record, Inertia.count Finset.univ e, by rw [factor_ofGrid, ht]; rfl, hread,
    ?_, ⟨e, hS, rfl⟩, ?_⟩
  · rw [Inertia.count_total, Finset.card_univ, Fintype.card_fin]
  · exact (hS.symm.trans (congruent_eigenvalues _)).count_eq

end Ldl

end ConicSaddle
