import ConicSaddle.Proofs.Exact.Congruence

/-!
# Signs and subspaces

A symmetric matrix that is congruent to a diagonal one has as many positive entries there as the
largest subspace has dimensions on which its quadratic form is positive.

* `Congruent.exists_squares`: the quadratic form as a sum of squares in other coordinates;
* `Congruent.finrank_le_positive`: a subspace on which the form is positive;
* `Congruent.positive_add_finrank_le`: a subspace on which the form is nowhere positive;
* `Congruent.zero_eq_zero`: a nonsingular matrix;
* `Congruent.count_eq_of_subspaces`: the signs of a nonsingular matrix from two subspaces that fill
  the space.
-/

namespace ConicSaddle.Congruent

variable {n : ℕ} {S : RealMatrix n} {e : Fin n → ℝ} {E F : Type} [AddCommGroup E] [Module ℝ E]
  [AddCommGroup F] [Module ℝ F]

/-- The quadratic form is a sum of squares in other coordinates. -/
theorem exists_squares (h : Congruent S (Matrix.diagonal e)) :
    ∃ M : (Fin n → ℝ) →ₗ[ℝ] (Fin n → ℝ), Function.Injective M ∧
      ∀ v, dotProduct v (S.mulVec v) = QuadraticMap.weightedSumSquares ℝ e (M v) := by
  obtain ⟨M, hM, rfl⟩ := h
  refine ⟨M.transpose.mulVecLin, ?_, fun v => ?_⟩
  · exact Matrix.mulVec_injective_iff_isUnit.mpr ((Matrix.isUnit_transpose M).mpr hM)
  · rw [Matrix.mulVecLin_apply, ← dotProduct_diagonal, ← Matrix.mulVec_mulVec,
      ← Matrix.mulVec_mulVec, Matrix.dotProduct_mulVec v M, Matrix.mulVec_transpose]

theorem sigPos_eq (e : Fin n → ℝ) : sigPos (QuadraticMap.weightedSumSquares ℝ e) =
    (Inertia.count Finset.univ e).positive := by
  rw [QuadraticForm.sigPos_weightedSumSquares]
  simp [Inertia.count, Set.ncard_eq_toFinset_card']

/-- There are at least as many positive entries as a subspace has dimensions on which the form is
positive. -/
theorem finrank_le_positive (h : Congruent S (Matrix.diagonal e)) (f : E →ₗ[ℝ] (Fin n → ℝ))
    (hf : ∀ x, x ≠ 0 → 0 < dotProduct (f x) (S.mulVec (f x))) :
    Module.finrank ℝ E ≤ (Inertia.count Finset.univ e).positive := by
  obtain ⟨M, -, hM⟩ := h.exists_squares
  have hinjective : Function.Injective (M ∘ₗ f) := by
    rw [← LinearMap.ker_eq_bot, LinearMap.ker_eq_bot']
    intro x hx
    by_contra hne
    have hpos := hf x hne
    rw [hM, show M (f x) = 0 from hx, map_zero] at hpos
    exact lt_irrefl 0 hpos
  rw [← sigPos_eq, ← LinearMap.finrank_range_of_inj hinjective]
  refine le_sigPos_of_posDef _ ?_
  rintro ⟨-, x, rfl⟩ hne
  have hx : x ≠ 0 := by
    rintro rfl
    exact hne (Subtype.ext (map_zero _))
  have hpos := hf x hx
  rwa [hM] at hpos

/-- Behind the positive entries there is room for a subspace on which the form is nowhere
positive. -/
theorem positive_add_finrank_le (h : Congruent S (Matrix.diagonal e)) {f : F →ₗ[ℝ] (Fin n → ℝ)}
    (hinjective : Function.Injective f) (hf : ∀ x, dotProduct (f x) (S.mulVec (f x)) ≤ 0) :
    (Inertia.count Finset.univ e).positive + Module.finrank ℝ F ≤ n := by
  obtain ⟨M, hMinjective, hM⟩ := h.exists_squares
  have hcomp : Function.Injective (M ∘ₗ f) := hMinjective.comp hinjective
  have hnonpos : ∀ v ∈ LinearMap.range (M ∘ₗ f), QuadraticMap.weightedSumSquares ℝ e v ≤ 0 := by
    rintro - ⟨x, rfl⟩
    rw [LinearMap.comp_apply, ← hM]
    exact hf x
  have hle := QuadraticForm.sigPos_add_finrank_le_of_nonpos hnonpos
  rwa [sigPos_eq, LinearMap.finrank_range_of_inj hcomp, Module.finrank_fin_fun] at hle

/-- A nonsingular matrix has no zeros on the diagonal. -/
theorem zero_eq_zero (h : Congruent S (Matrix.diagonal e)) (hdet : S.det ≠ 0) :
    (Inertia.count Finset.univ e).zero = 0 := by
  obtain ⟨M, -, rfl⟩ := h
  have hdiagonal : (Matrix.diagonal e).det ≠ 0 := by
    intro hzero
    rw [Matrix.det_mul, Matrix.det_mul, hzero, mul_zero, zero_mul] at hdet
    exact hdet rfl
  rw [Matrix.det_diagonal, Finset.prod_ne_zero_iff] at hdiagonal
  exact Finset.card_eq_zero.mpr (Finset.filter_eq_empty_iff.mpr hdiagonal)

/-- The signs of a nonsingular matrix from two subspaces that fill the space: the form is positive
on one and nowhere positive on the other. -/
theorem count_eq_of_subspaces (h : Congruent S (Matrix.diagonal e)) (hdet : S.det ≠ 0)
    (f : E →ₗ[ℝ] (Fin n → ℝ)) (hf : ∀ x, x ≠ 0 → 0 < dotProduct (f x) (S.mulVec (f x)))
    {g : F →ₗ[ℝ] (Fin n → ℝ)} (hinjective : Function.Injective g)
    (hg : ∀ x, dotProduct (g x) (S.mulVec (g x)) ≤ 0)
    (hfill : Module.finrank ℝ E + Module.finrank ℝ F = n) :
    Inertia.count Finset.univ e = ⟨Module.finrank ℝ E, Module.finrank ℝ F, 0⟩ := by
  have hle := h.finrank_le_positive f hf
  have hge := h.positive_add_finrank_le hinjective hg
  have hzero := h.zero_eq_zero hdet
  have htotal := Inertia.count_total Finset.univ e
  rw [Finset.card_univ, Fintype.card_fin] at htotal
  generalize Inertia.count Finset.univ e = found at hle hge hzero htotal
  obtain ⟨p, q, z⟩ := found
  dsimp only at hle hge htotal
  obtain rfl : z = 0 := hzero
  obtain rfl : p = Module.finrank ℝ E := by omega
  obtain rfl : q = Module.finrank ℝ F := by omega
  rfl

end ConicSaddle.Congruent
