import Mathlib.Analysis.Matrix.Spectrum
import Mathlib.LinearAlgebra.Matrix.ToLinearEquiv
import Mathlib.LinearAlgebra.QuadraticForm.Signature
import ConicSaddle.Ldl.Inertia
import ConicSaddle.Proofs.Exact.Scalar

/-!
# Congruent matrices

Two real matrices are congruent if one is `M T Mᵀ` for the other one `T` and an invertible `M`.
Congruent diagonal matrices have equally many positive, negative and zero entries, which is
Sylvester's law of inertia.

* `Congruent S T`: the relation, with `refl` and `trans`;
* `Inertia.count s e`: how many entries at some positions of a vector are positive, negative and
  zero;
* `Congruent.count_eq`: the law of inertia;
* `congruent_eigenvalues`: a symmetric matrix is congruent to the diagonal of its eigenvalues.
-/

namespace ConicSaddle

variable {n : ℕ}

/-- `S` is `M T Mᵀ` for an invertible matrix `M`. -/
def Congruent (S T : RealMatrix n) : Prop :=
  ∃ M : RealMatrix n, IsUnit M ∧ S = M * T * M.transpose

namespace Congruent

variable {S T U : RealMatrix n}

theorem refl (S : RealMatrix n) : Congruent S S := ⟨1, isUnit_one, by simp⟩

theorem trans (h : Congruent S T) (h' : Congruent T U) : Congruent S U := by
  obtain ⟨M, hM, rfl⟩ := h
  obtain ⟨N, hN, rfl⟩ := h'
  refine ⟨M * N, hM.mul hN, ?_⟩
  simp only [Matrix.transpose_mul, Matrix.mul_assoc]

theorem symm (h : Congruent S T) : Congruent T S := by
  obtain ⟨M, hM, rfl⟩ := h
  have hdet := (Matrix.isUnit_iff_isUnit_det M).mp hM
  have hdet' := (Matrix.isUnit_iff_isUnit_det _).mp ((Matrix.isUnit_transpose M).mpr hM)
  refine ⟨M⁻¹, Matrix.isUnit_nonsing_inv_iff.mpr hM, ?_⟩
  rw [Matrix.transpose_nonsing_inv, Matrix.mul_assoc M, Matrix.nonsing_inv_mul_cancel_left _ _ hdet,
    Matrix.mul_nonsing_inv_cancel_right _ _ hdet']

end Congruent

/-! ### Signs of entries -/

namespace Inertia

@[simp] theorem mk_add_mk (p q z p' q' z' : ℕ) :
    (⟨p, q, z⟩ + ⟨p', q', z'⟩ : Inertia) = ⟨p + p', q + q', z + z'⟩ := rfl

theorem add_assoc (a b c : Inertia) : a + b + c = a + (b + c) := by
  cases a
  cases b
  cases c
  simp only [mk_add_mk, Nat.add_assoc]

theorem none_add (a : Inertia) : none + a = a := by
  cases a
  simp [none]

/-- How many entries at some positions are positive, negative and zero. -/
noncomputable def count (s : Finset (Fin n)) (e : Fin n → ℝ) : Inertia where
  positive := (s.filter fun i => 0 < e i).card
  negative := (s.filter fun i => e i < 0).card
  zero := (s.filter fun i => e i = 0).card

@[simp] theorem add_count_empty (seen : Inertia) (e : Fin n → ℝ) : seen + count ∅ e = seen := rfl

theorem count_congr {s : Finset (Fin n)} {e e' : Fin n → ℝ} (h : ∀ i ∈ s, e i = e' i) :
    count s e = count s e' := by
  simp only [count, mk.injEq]
  refine ⟨?_, ?_, ?_⟩ <;>
  · refine congrArg Finset.card (Finset.filter_congr fun i hi => ?_)
    rw [h i hi]

theorem count_singleton (a : Fin n) (e : Fin n → ℝ) : count {a} e = ofNumber (e a) := by
  simp only [count, ofNumber, Scalar.isPositive, Scalar.isNegative, Exact.lt_eq,
    decide_eq_true_eq, Finset.filter_singleton]
  rcases lt_trichotomy (e a) 0 with hneg | hzero | hpos
  · simp [hneg, hneg.ne, hneg.not_gt]
  · simp [hzero]
  · simp [hpos, hpos.ne', hpos.not_gt]

/-- Entries at positions of two kinds are counted one kind after the other. -/
theorem count_union {s t : Finset (Fin n)} (h : Disjoint s t) (e : Fin n → ℝ) :
    count (s ∪ t) e = count s e + count t e := by
  simp [count, Finset.filter_union, Finset.card_union_of_disjoint (Finset.disjoint_filter_filter h)]

/-- Every entry is counted once. -/
theorem count_total (s : Finset (Fin n)) (e : Fin n → ℝ) :
    (count s e).positive + (count s e).negative + (count s e).zero = s.card := by
  have hone : ∀ i, (if 0 < e i then 1 else 0) + (if e i < 0 then 1 else 0) +
      (if e i = 0 then 1 else 0) = 1 := by
    intro i
    rcases lt_trichotomy (e i) 0 with hneg | hzero | hpos
    · simp [hneg, hneg.ne, hneg.not_gt]
    · simp [hzero]
    · simp [hpos, hpos.ne', hpos.not_gt]
  simp only [count, Finset.card_filter, ← Finset.sum_add_distrib, hone, Finset.sum_const,
    smul_eq_mul, mul_one]

end Inertia

/-! ### Sylvester's law of inertia -/

theorem dotProduct_diagonal (e v : Fin n → ℝ) :
    dotProduct v ((Matrix.diagonal e).mulVec v) = QuadraticMap.weightedSumSquares ℝ e v := by
  rw [QuadraticMap.weightedSumSquares_apply, dotProduct]
  refine Finset.sum_congr rfl fun i _ => ?_
  rw [Matrix.mulVec_diagonal, smul_eq_mul]
  ring

/-- Congruent diagonal matrices are the same sum of squares in other coordinates. -/
theorem Congruent.equivalent {e f : Fin n → ℝ}
    (h : Congruent (Matrix.diagonal e) (Matrix.diagonal f)) :
    (QuadraticMap.weightedSumSquares ℝ e).Equivalent (QuadraticMap.weightedSumSquares ℝ f) := by
  obtain ⟨M, hM, hef⟩ := h
  obtain ⟨inv⟩ :=
    (nonempty_invertible_iff_isUnit _).mpr ((Matrix.isUnit_transpose M).mpr hM)
  refine ⟨⟨M.transpose.toLinearEquiv' inv, fun v => ?_⟩⟩
  change QuadraticMap.weightedSumSquares ℝ f (M.transpose.mulVec v) = _
  rw [← dotProduct_diagonal, ← dotProduct_diagonal, hef, ← Matrix.mulVec_mulVec,
    ← Matrix.mulVec_mulVec, Matrix.dotProduct_mulVec v M, Matrix.mulVec_transpose]

/-- **Sylvester's law of inertia.**  Congruent diagonal matrices have equally many entries of each
sign. -/
theorem Congruent.count_eq {e f : Fin n → ℝ}
    (h : Congruent (Matrix.diagonal e) (Matrix.diagonal f)) :
    Inertia.count Finset.univ e = Inertia.count Finset.univ f := by
  have hpos := h.equivalent.sigPos_eq
  have hneg := h.equivalent.sigNeg_eq
  rw [QuadraticForm.sigPos_weightedSumSquares, QuadraticForm.sigPos_weightedSumSquares] at hpos
  rw [QuadraticForm.sigNeg_weightedSumSquares, QuadraticForm.sigNeg_weightedSumSquares] at hneg
  have htotal := (Inertia.count_total Finset.univ e).trans (Inertia.count_total Finset.univ f).symm
  have hp : (Inertia.count Finset.univ e).positive = (Inertia.count Finset.univ f).positive := by
    simpa [Inertia.count, Set.ncard_eq_toFinset_card'] using hpos
  have hq : (Inertia.count Finset.univ e).negative = (Inertia.count Finset.univ f).negative := by
    simpa [Inertia.count, Set.ncard_eq_toFinset_card'] using hneg
  have hz : (Inertia.count Finset.univ e).zero = (Inertia.count Finset.univ f).zero := by
    rw [hp, hq] at htotal
    exact Nat.add_left_cancel htotal
  exact (Inertia.mk.injEq ..).mpr ⟨hp, hq, hz⟩

/-- A symmetric matrix is congruent to the diagonal of its eigenvalues. -/
theorem congruent_eigenvalues {S : RealMatrix n} (hS : S.IsHermitian) :
    Congruent S (Matrix.diagonal hS.eigenvalues) := by
  refine ⟨hS.eigenvectorUnitary, ?_, ?_⟩
  · exact IsUnit.of_mul_eq_one _ (Unitary.coe_mul_star_self hS.eigenvectorUnitary)
  · have hspectral := hS.spectral_theorem
    rw [Unitary.conjStarAlgAut_apply] at hspectral
    exact hspectral

end ConicSaddle
