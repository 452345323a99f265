import ConicSaddle.Proofs.Exact.Reduction
import ConicSaddle.Proofs.Kkt.Calls
import ConicSaddle.Proofs.Ldl.Solution

/-!
# The system that is answered

The packed system that a solver solves, taken back over the reals to the system of the problem.

* `Solver.Answers`: vectors solve the system of a problem;
* `Solver.Solved`: a vector solves the assembled system, row by row;
* `Solver.Solved.answers`: it then solves the system of the problem, once its last part is unpacked
  and scaled back.
-/

namespace ConicSaddle

open ConeDims (total)
open Vec (entries)

namespace Solver

variable {P : Problem ℝ} {W : Scaling ℝ} {H Df : Option (Matrix ℝ)} {blocks : List (ScalingBlock ℝ)}
  {K : Grid P.order P.order ℝ}

/-- An entry of the Hessian, symmetric by its lower triangle, zero if there is none. -/
noncomputable def hessianSymm (H : Option (Matrix ℝ)) (i j : ℕ) : ℝ :=
  if j ≤ i then hessianAt H i j else hessianAt H j i

/-- The vectors `x`, `y`, `z` solve the system

```text
H x + Aᵀ y + Gᵀ z = bx
A x               = by
G x        - s    = bz
```

where `s` stands for `Wᵀ W z`, the Hessian is symmetric by its lower triangle, and so are the
semidefinite blocks of `bz` and of the columns of `G`. -/
structure Answers (P : Problem ℝ) (H Df : Option (Matrix ℝ)) (rhs : Rhs ℝ) (x y z s : ℕ → ℝ) :
    Prop where
  stationarity : ∀ k < P.vars,
    ∑ j ∈ Finset.range P.vars, hessianSymm H k j * x j +
      ∑ e ∈ Finset.range P.eqs, P.A.grid.at e k * y e +
      ∑ i ∈ Finset.range P.rows, mirroredVector P.dims P.mnl (P.constraint Df k) i * z i =
    entries rhs.x k
  feasibility : ∀ e < P.eqs, ∑ j ∈ Finset.range P.vars, P.A.grid.at e j * x j = entries rhs.y e
  slackness : ∀ i < P.rows,
    ∑ j ∈ Finset.range P.vars, mirroredVector P.dims P.mnl (P.constraint Df j) i * x j - s i =
      mirroredVector P.dims P.mnl (entries rhs.z) i

/-- Only the entries that belong to the unknowns count. -/
theorem Answers.congr {rhs : Rhs ℝ} {x x' y y' z s : ℕ → ℝ} (h : Answers P H Df rhs x y z s)
    (hx : AgreeTo P.vars x' x) (hy : AgreeTo P.eqs y' y) : Answers P H Df rhs x' y' z s where
  stationarity k hk := by
    rw [← h.stationarity k hk]
    congr 1
    congr 1
    · exact Finset.sum_congr rfl fun j hj => by rw [hx j (Finset.mem_range.mp hj)]
    · exact Finset.sum_congr rfl fun e he => by rw [hy e (Finset.mem_range.mp he)]
  feasibility e he := by
    rw [← h.feasibility e he]
    exact Finset.sum_congr rfl fun j hj => by rw [hx j (Finset.mem_range.mp hj)]
  slackness i hi := by
    rw [← h.slackness i hi]
    congr 1
    exact Finset.sum_congr rfl fun j hj => by rw [hx j (Finset.mem_range.mp hj)]

/-! ### Rows of the assembled matrix -/

/-- An entry of the symmetric matrix given by the lower triangle, at all places. -/
noncomputable def symmAt (K : Grid P.order P.order ℝ) (i j : ℕ) : ℝ :=
  if j ≤ i then K.at i j else K.at j i

theorem symmAt_of_le {i j : ℕ} (h : j ≤ i) : symmAt K i j = K.at i j := if_pos h

theorem symmAt_of_lt {i j : ℕ} (h : i < j) : symmAt K i j = K.at j i := if_neg (Nat.not_le.mpr h)

theorem symmAt_val (i j : Fin P.order) : symmAt K i j = K.symm i j := by
  unfold symmAt Grid.symm
  simp only [Grid.at_val, Fin.le_def]

theorem at_eq_get {i j : ℕ} (hi : i < P.order) (hj : j < P.order) :
    K.at i j = K.get ⟨i, hi⟩ ⟨j, hj⟩ := dif_pos ⟨hi, hj⟩

namespace Assembled

variable (h : Assembled P blocks H Df K)
include h

theorem at_hessian {i j : ℕ} (hi : i < P.vars) (hj : j < P.vars) :
    symmAt K i j = hessianSymm H i j := by
  have hvars := P.vars_le_order
  have hentry : ∀ i j, i < P.vars → j < P.vars → K.at i j = hessianAt H i j := by
    intro i j hi hj
    rw [at_eq_get (by omega) (by omega)]
    exact h.hessian ⟨i, by omega⟩ ⟨j, by omega⟩ hi hj
  unfold symmAt hessianSymm
  rw [hentry i j hi hj, hentry j i hj hi]

theorem at_equality {e j : ℕ} (he : e < P.eqs) (hj : j < P.vars) :
    K.at (P.vars + e) j = P.A.grid.at e j := by
  have horder : P.order = P.vars + P.eqs + P.coneRows := rfl
  rw [at_eq_get (by omega) (by omega),
    h.equality ⟨P.vars + e, by omega⟩ ⟨j, by omega⟩ (Nat.le_add_right _ _)
      (Nat.add_lt_add_left he _) hj]
  show P.A.grid.at (P.vars + e - P.vars) j = _
  rw [Nat.add_sub_cancel_left]

theorem at_middle {i j : ℕ} (hi : P.vars ≤ i) (hi' : i < P.order) (hj : P.vars ≤ j)
    (hj' : j < P.order) (hmiddle : i < P.vars + P.eqs ∨ j < P.vars + P.eqs) :
    symmAt K i j = 0 := by
  unfold symmAt
  split
  · rw [at_eq_get hi' hj']
    exact h.middle ⟨i, hi'⟩ ⟨j, hj'⟩ hi hj hmiddle
  · rw [at_eq_get hj' hi']
    exact h.middle ⟨j, hj'⟩ ⟨i, hi'⟩ hj hi hmiddle.symm

theorem at_corner {t u : ℕ} (ht : t < P.coneRows) (hu : u < P.coneRows) :
    symmAt K (P.vars + P.eqs + t) (P.vars + P.eqs + u) = if t = u then -1 else 0 := by
  have horder : P.order = P.vars + P.eqs + P.coneRows := rfl
  have ht' : P.vars + P.eqs + t < P.order := by omega
  have hu' : P.vars + P.eqs + u < P.order := by omega
  rw [symmAt_val ⟨_, ht'⟩ ⟨_, hu'⟩]
  unfold Grid.symm
  rw [h.corner ⟨_, ht'⟩ ⟨_, hu'⟩ (Nat.le_add_right _ _) (Nat.le_add_right _ _),
    h.corner ⟨_, hu'⟩ ⟨_, ht'⟩ (Nat.le_add_right _ _) (Nat.le_add_right _ _)]
  simp only [Fin.mk.injEq, Nat.add_left_cancel_iff]
  split
  · rfl
  · split
    · next heq => rw [if_pos heq.symm]
    · next hne => rw [if_neg fun heq => hne heq.symm]

end Assembled

/-! ### The packed system -/

/-- A vector solves the system of the symmetric matrix given by the lower triangle. -/
def Solved (K : Grid P.order P.order ℝ) (u b : ℕ → ℝ) : Prop :=
  ∀ i < P.order, ∑ j ∈ Finset.range P.order, symmAt K i j * u j = b i

/-- The factors of a matrix that was factored without an error solve its system. -/
theorem solved_of_sweeps {record : Ldl.Record P.order} {t : Ldl.Progress P.order ℝ}
    (h : Ldl.Sweeps 0 ⟨K, record, 0⟩ t) (hinfo : t.info = 0) {b u : Vector ℝ P.order}
    (hu : Ldl.solveGrid t.grid t.record b = .ok u) :
    Solved K (entries u.toArray) (entries b.toArray) := by
  intro i hi
  have hrow := congrFun (h.mulVec_eq hinfo hu) ⟨i, hi⟩
  rw [← Vec.get_eq_entries b hi, ← hrow, Finset.sum_range]
  refine Finset.sum_congr rfl fun j _ => ?_
  rw [symmAt_val ⟨i, hi⟩ j, Vec.entries_get]
  rfl

/-- A row of the system, split into its three parts. -/
theorem Solved.row {u b : ℕ → ℝ} (h : Solved K u b) {i : ℕ} (hi : i < P.order) :
    ∑ j ∈ Finset.range P.vars, symmAt K i j * u j +
      ∑ e ∈ Finset.range P.eqs, symmAt K i (P.vars + e) * u (P.vars + e) +
      ∑ t ∈ Finset.range P.coneRows,
        symmAt K i (P.vars + P.eqs + t) * u (P.vars + P.eqs + t) = b i := by
  have horder : P.order = P.vars + P.eqs + P.coneRows := rfl
  rw [← h i hi, horder, Finset.sum_range_add, Finset.sum_range_add]

section

variable (hassembled : Assembled P blocks H Df K) {u b : ℕ → ℝ} (h : Solved K u b)
include hassembled h

theorem Solved.row_variable {k : ℕ} (hk : k < P.vars) :
    ∑ j ∈ Finset.range P.vars, hessianSymm H k j * u j +
      ∑ e ∈ Finset.range P.eqs, P.A.grid.at e k * u (P.vars + e) +
      ∑ t ∈ Finset.range P.coneRows,
        K.at (P.vars + P.eqs + t) k * u (P.vars + P.eqs + t) = b k := by
  have hvars := P.vars_le_order
  rw [← h.row (by omega)]
  congr 1
  · congr 1
    · refine Finset.sum_congr rfl fun j hj => ?_
      rw [hassembled.at_hessian hk (Finset.mem_range.mp hj)]
    · refine Finset.sum_congr rfl fun e he => ?_
      rw [symmAt_of_lt (by omega), hassembled.at_equality (Finset.mem_range.mp he) hk]
  · refine Finset.sum_congr rfl fun t _ => ?_
    rw [symmAt_of_lt (by omega)]

theorem Solved.row_equality {e : ℕ} (he : e < P.eqs) :
    ∑ j ∈ Finset.range P.vars, P.A.grid.at e j * u j = b (P.vars + e) := by
  have horder : P.order = P.vars + P.eqs + P.coneRows := rfl
  have hmiddle : ∀ j, P.vars ≤ j → j < P.order → symmAt K (P.vars + e) j * u j = 0 := by
    intro j hj hj'
    rw [hassembled.at_middle (Nat.le_add_right _ _) (by omega) hj hj' (.inl (by omega)), zero_mul]
  have heqs : ∑ f ∈ Finset.range P.eqs,
      symmAt K (P.vars + e) (P.vars + f) * u (P.vars + f) = 0 := by
    refine Finset.sum_eq_zero fun f hf => ?_
    have hlt := Finset.mem_range.mp hf
    exact hmiddle _ (Nat.le_add_right _ _) (by omega)
  have hcones : ∑ t ∈ Finset.range P.coneRows,
      symmAt K (P.vars + e) (P.vars + P.eqs + t) * u (P.vars + P.eqs + t) = 0 := by
    refine Finset.sum_eq_zero fun t ht => ?_
    have hlt := Finset.mem_range.mp ht
    exact hmiddle _ (by omega) (by omega)
  rw [← h.row (show P.vars + e < P.order by omega), heqs, hcones, add_zero, add_zero]
  refine Finset.sum_congr rfl fun j hj => ?_
  have hlt := Finset.mem_range.mp hj
  rw [symmAt_of_le (by omega), hassembled.at_equality he hlt]

theorem Solved.row_cone {t : ℕ} (ht : t < P.coneRows) :
    ∑ j ∈ Finset.range P.vars, K.at (P.vars + P.eqs + t) j * u j - u (P.vars + P.eqs + t) =
      b (P.vars + P.eqs + t) := by
  have horder : P.order = P.vars + P.eqs + P.coneRows := rfl
  have heqs : ∑ e ∈ Finset.range P.eqs,
      symmAt K (P.vars + P.eqs + t) (P.vars + e) * u (P.vars + e) = 0 := by
    refine Finset.sum_eq_zero fun e he => ?_
    have hlt := Finset.mem_range.mp he
    rw [hassembled.at_middle (by omega) (by omega) (Nat.le_add_right _ _) (by omega)
      (.inr (by omega)), zero_mul]
  have hcorner : ∑ s ∈ Finset.range P.coneRows,
      symmAt K (P.vars + P.eqs + t) (P.vars + P.eqs + s) * u (P.vars + P.eqs + s) =
        -u (P.vars + P.eqs + t) := by
    rw [Finset.sum_eq_single_of_mem t (Finset.mem_range.mpr ht)]
    · rw [hassembled.at_corner ht ht, if_pos rfl, neg_one_mul]
    · intro s hs hne
      rw [hassembled.at_corner ht (Finset.mem_range.mp hs), if_neg hne.symm, zero_mul]
  rw [← h.row (show P.vars + P.eqs + t < P.order by omega), heqs, hcorner, add_zero, sub_eq_add_neg]
  congr 1
  refine Finset.sum_congr rfl fun j hj => ?_
  have hlt := Finset.mem_range.mp hj
  rw [symmAt_of_le (by omega)]

end

/-! ### The system of the problem -/

/-- A solution of the packed system solves the system of the problem.  The rows of the variables use
that the two inverses are adjoint, the rows of the cones that lifting is linear. -/
theorem Solved.answers (hfits : W.Fits P.dims P.mnl) (hblocks : W.blocks = .ok blocks)
    (hgenuine : W.Genuine) (hassembled : Assembled P blocks H Df K) {u b : ℕ → ℝ}
    (h : Solved K u b) {rhs : Rhs ℝ} (hbx : ∀ i < P.vars, b i = entries rhs.x i)
    (hby : ∀ e < P.eqs, b (P.vars + e) = entries rhs.y e)
    (hbz : Reduces P blocks (entries rhs.z) (shift (P.vars + P.eqs) b)) {y z w s : ℕ → ℝ}
    (hy : AgreeTo P.rows y (unpackedVector P.dims P.mnl (shift (P.vars + P.eqs) u)))
    (hz : EachBlock ScalingBlock.numel ScalingBlock.numel (ScalingBlock.Acts ⟨false, true⟩)
      blocks y z)
    (hw : EachBlock ScalingBlock.numel ScalingBlock.numel (ScalingBlock.Acts ⟨false, false⟩)
      blocks z w)
    (hs : EachBlock ScalingBlock.numel ScalingBlock.numel (ScalingBlock.Acts ⟨true, false⟩)
      blocks w s) :
    Answers P H Df rhs u (shift P.vars u) z s where
  stationarity k hk := by
    rw [← hbx k hk, ← h.row_variable hassembled hk,
      ← (hassembled.constraint k hk).sum_mul hfits hblocks hy hz]
    rfl
  feasibility e he := by
    rw [← hby e he]
    exact h.row_equality hassembled he
  slackness i hi := by
    obtain ⟨f, hf⟩ : ∃ f : (ℕ → ℝ) →ₗ[ℝ] (ℕ → ℝ), ∀ x, f x = lifted blocks x :=
      ⟨(isLinearMap_lifted blocks).mk' _, fun _ => rfl⟩
    let column : ℕ → ℕ → ℝ := fun j t => K.at (P.vars + P.eqs + t) j
    -- the rows of the cones, as an equation between packed vectors
    have hpacked : AgreeTo P.coneRows
        ((∑ j ∈ Finset.range P.vars, u j • column j) - shift (P.vars + P.eqs) u)
        (shift (P.vars + P.eqs) b) := by
      intro t ht
      rw [Pi.sub_apply, Finset.sum_apply, shift_apply, shift_apply, ← h.row_cone hassembled ht]
      congr 1
      exact Finset.sum_congr rfl fun j _ => mul_comm _ _
    rw [← total_packedSize hfits hblocks] at hpacked
    have hlifted := lifted_congr hpacked i (by rwa [total_numel hfits hblocks])
    have hsum : lifted blocks
        ((∑ j ∈ Finset.range P.vars, u j • column j) - shift (P.vars + P.eqs) u) =
          ∑ j ∈ Finset.range P.vars, u j • lifted blocks (column j) -
            lifted blocks (shift (P.vars + P.eqs) u) := by
      simp only [← hf, map_sub, map_sum, map_smul]
    rw [hsum, Pi.sub_apply, Finset.sum_apply, hbz.lifted hfits hblocks hgenuine i hi,
      ← lifted_of_acts hfits hblocks hgenuine hy hz hw hs i hi] at hlifted
    rw [← hlifted]
    congr 1
    refine Finset.sum_congr rfl fun j hj => ?_
    rw [Pi.smul_apply,
      (hassembled.constraint j (Finset.mem_range.mp hj)).lifted hfits hblocks hgenuine i hi]
    exact mul_comm _ _

end Solver

end ConicSaddle
