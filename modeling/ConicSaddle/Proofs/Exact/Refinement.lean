import ConicSaddle.Proofs.Exact.Ordered
import ConicSaddle.Proofs.Kkt.Refinement

/-!
# Refinement in exact arithmetic

In an ordered field refinement never makes the residual larger, whatever the factors are that the
corrections are computed with.  A quotient by zero may be anything: it is formed only where the
candidate has no residual left.

* `Refinement.distance`: the norm of the residual in the field;
* `Refinement.Accepts.distance_le`: a step that is accepted;
* `Refinement.refinement_never_worse`: all steps.
-/

namespace ConicSaddle.Refinement

open ExactScalar

variable {α F : Type} [Scalar α] [Field F] [LinearOrder F] [IsStrictOrderedRing F]
  [ExactScalar α F] {n : ℕ}

/-- The entries of the right hand side less those of the product of the symmetric matrix and the
vector. -/
def defect (R : Refinement n α) (x : Vector α n) (i : Fin n) : F :=
  value (R.rhs.get i) - ∑ j, value (R.matrix.symm i j) * value (x.get j)

/-- The largest magnitude of an entry of the right hand side less the product. -/
def distance (R : Refinement n α) (x : Vector α n) : F := supNorm (R.defect x)

theorem value_residual (R : Refinement n α) (x : Vector α n) (i : Fin n) :
    value ((R.residual x).get i) = R.defect x i := by
  have hone : Scalar.isZero (1 : α) = false := by
    show Scalar.same (1 : α) 0 = false
    rw [same_eq, value_one, value_zero]
    exact decide_eq_false one_ne_zero
  unfold residual
  rw [Vec.get_ofFn, blend, hone]
  simp only [Bool.false_eq_true, if_false, value_add, value_mul, value_neg, value_one,
    value_foldl_add, value_zero, zero_add, neg_mul, one_mul]
  rw [neg_add_eq_sub, ← Fin.sum_univ_def]
  rfl

theorem value_residualNorm (R : Refinement n α) (x : Vector α n) :
    value (R.residualNorm x) = R.distance x := by
  unfold residualNorm distance
  rw [value_normInf]
  simp only [value_residual]

/-- A candidate that is accepted has no larger residual. -/
theorem Accepts.distance_le {R : Refinement n α} {x y : Vector α n} (h : R.Accepts x y)
    (ratio : 1 ≤ value R.stopRatio) : R.distance y ≤ R.distance x := by
  rcases (supNorm_nonneg (R.defect y)).eq_or_lt with hzero | hpos
  · -- nothing is left of the residual
    exact hzero.symm.trans_le (supNorm_nonneg (R.defect x))
  have hnorm : value (R.residualNorm y) = R.distance y := value_residualNorm R y
  have hshrinkage : value (R.shrinkage x y) = R.distance x / R.distance y := by
    unfold shrinkage
    rw [value_div _ (hnorm.trans_ne hpos.ne'), hnorm, value_residualNorm]
  suffices hle : 1 ≤ R.distance x / R.distance y from (one_le_div hpos).mp hle
  rw [← hshrinkage]
  rcases h.shrinks with henough | hsmaller
  · rw [lt_eq] at henough
    exact ratio.trans (not_lt.mp (of_decide_eq_false henough))
  · rw [lt_eq, value_one] at hsmaller
    exact (of_decide_eq_true hsmaller).le

/-- **Refinement never makes the residual larger.**  Let the record of the pivots split the columns,
and let the stop ratio be at least one; the factors, the matrix, the right hand side, the start and
the tolerances are arbitrary.  Then refinement ends after any number `m` of steps, with `held m`;
from one number to the next the vector stays or is replaced by a candidate that a step accepts; and
the norm of the residual never grows. -/
theorem refinement_never_worse (R : Refinement n α) (record : R.record.Splits 0)
    (ratio : 1 ≤ value R.stopRatio) (x candidate : Vector α n) :
    ∃ held : ℕ → Result n α, (∀ m, R.run m x candidate = .ok (held m)) ∧
      (held 0).trial.solution = x ∧
      (∀ m, (held (m + 1)).trial.solution = (held m).trial.solution ∨
        R.Accepts (held m).trial.solution (held (m + 1)).trial.solution) ∧
      Antitone fun m => R.distance (held m).trial.solution := by
  choose held hrun hends using fun m => R.exists_run record m x candidate
  have hnext : ∀ m, (held (m + 1)).trial.solution = (held m).trial.solution ∨
      R.Accepts (held m).trial.solution (held (m + 1)).trial.solution :=
    fun m => (hends m).next (hends (m + 1))
  refine ⟨held, hrun, (hends 0).eq_of_limit, hnext, antitone_nat_of_succ_le fun m => ?_⟩
  rcases hnext m with hkept | haccepted
  · exact (congrArg R.distance hkept).le
  · exact haccepted.distance_le ratio

/-- The factors of the identity, for a system with another matrix. -/
noncomputable def strangeFactors : Refinement 2 ℝ where
  factors := .ofFn fun i j => if i = j then 1 else 0
  record := #v[1, 2]
  matrix := .ofFn fun i j => if i = j then 1 + 1 else 1
  rhs := #v[1, 0]
  reltol := 0
  abstol := 0
  stopRatio := 1

/-- From zero the strange factors never lead to a larger residual. -/
theorem refinement_never_worse_strangeFactors :
    strangeFactors.record.Splits 0 ∧ 1 ≤ strangeFactors.stopRatio ∧
    ∃ held : ℕ → Result 2 ℝ,
      (∀ m, strangeFactors.run m (.replicate 2 0) (.replicate 2 0) = .ok (held m)) ∧
      (held 0).trial.solution = .replicate 2 0 ∧
      Antitone fun m => strangeFactors.distance (held m).trial.solution := by
  have record : strangeFactors.record.Splits 0 :=
    .single 0 0 (le_refl 0) rfl (.single 1 1 (le_refl 1) rfl .done)
  have ratio : 1 ≤ strangeFactors.stopRatio := le_refl 1
  obtain ⟨held, hrun, hstart, -, hdistance⟩ :=
    refinement_never_worse strangeFactors record ratio (.replicate 2 0) (.replicate 2 0)
  exact ⟨record, ratio, held, hrun, hstart, hdistance⟩

end ConicSaddle.Refinement
