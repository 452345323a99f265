import Mathlib.Analysis.Matrix.Order
import ConicSaddle.Proofs.Exact.Subspaces
import ConicSaddle.Proofs.Kkt.Alike
import ConicSaddle.Proofs.Kkt.Solution
import ConicSaddle.Proofs.Ldl.Signature

/-!
# Well posed systems

In exact arithmetic a well posed system is always factored, and its inertia is known beforehand: one
positive eigenvalue for each variable, and one negative eigenvalue for each equality constraint and
each row of the cones.

* `hessianMatrix`, `equalityMatrix`, `coneMatrix`: the blocks of the assembled matrix;
* `Assembled.mulVec_column`, `mulVec_equalityRow`, `mulVec_coneRow`, `Assembled.form_eq`: the
  assembled matrix as a linear map and as a quadratic form;
* `WellPosed`: semidefinite, independent and determined;
* `WellPosed.det_ne_zero`, `WellPosed.form_pos`, `WellPosed.count_eq`: what that says of the matrix;
* `PackedColumns`: the columns of the constraints, scaled and packed;
* `well_posed_factors`: the statement for every reachable state.
-/

/-- A rectangular matrix of real numbers. -/
abbrev RealRectangle (m n : ℕ) : Type := Matrix (Fin m) (Fin n) ℝ

namespace ConicSaddle

open Vec (entries)

/-! ### The parts of a vector -/

namespace Problem

/-- The row of the factored matrix that belongs to an equality constraint. -/
def equalityRow (P : Problem ℝ) (e : Fin P.eqs) : Fin P.order :=
  ⟨P.vars + e, by unfold order; omega⟩

/-- The row of the factored matrix that belongs to a row of the cones. -/
def coneRow (P : Problem ℝ) (t : Fin P.coneRows) : Fin P.order :=
  ⟨P.vars + P.eqs + t, by unfold order; omega⟩

variable (P : Problem ℝ)

/-- A sum over all rows, in its three parts. -/
theorem sum_order (f : Fin P.order → ℝ) :
    ∑ i, f i = ∑ k, f (P.column k) + ∑ e, f (P.equalityRow e) + ∑ t, f (P.coneRow t) := by
  have hparts := Fin.sum_univ_add fun i : Fin (P.vars + P.eqs + P.coneRows) => f i
  have hfront := Fin.sum_univ_add fun i : Fin (P.vars + P.eqs) => f (Fin.castAdd P.coneRows i)
  exact hparts.trans (congrArg (· + _) hfront)

/-- A vector put together from its three parts. -/
def stack :
    (Fin P.vars → ℝ) × (Fin P.eqs → ℝ) × (Fin P.coneRows → ℝ) →ₗ[ℝ] (Fin P.order → ℝ) where
  toFun w i :=
    if h : i.val < P.vars then w.1 ⟨i, h⟩
    else if h' : i.val < P.vars + P.eqs then w.2.1 ⟨i - P.vars, by omega⟩
    else w.2.2 ⟨i - (P.vars + P.eqs), by
      have hi : i.val < P.vars + P.eqs + P.coneRows := i.isLt
      omega⟩
  map_add' w w' := by
    funext i
    simp only [Pi.add_apply, Prod.fst_add, Prod.snd_add]
    split
    · rfl
    · split
      · rfl
      · rfl
  map_smul' c w := by
    funext i
    simp only [Pi.smul_apply, Prod.smul_fst, Prod.smul_snd, RingHom.id_apply]
    split
    · rfl
    · split
      · rfl
      · rfl

variable (w : (Fin P.vars → ℝ) × (Fin P.eqs → ℝ) × (Fin P.coneRows → ℝ))

@[simp] theorem stack_column : P.stack w ∘ P.column = w.1 :=
  funext fun k => dif_pos k.isLt

@[simp] theorem stack_equalityRow : P.stack w ∘ P.equalityRow = w.2.1 := by
  funext e
  have he : P.vars + e.val < P.vars + P.eqs := Nat.add_lt_add_left e.isLt _
  refine (dif_neg (Nat.not_lt.mpr (Nat.le_add_right P.vars e))).trans ((dif_pos he).trans ?_)
  exact congrArg w.2.1 (Fin.ext (Nat.add_sub_cancel_left P.vars e))

@[simp] theorem stack_coneRow : P.stack w ∘ P.coneRow = w.2.2 := by
  funext t
  have ht : ¬P.vars + P.eqs + t.val < P.vars := by omega
  have ht' : ¬P.vars + P.eqs + t.val < P.vars + P.eqs := by omega
  refine (dif_neg ht).trans ((dif_neg ht').trans ?_)
  exact congrArg w.2.2 (Fin.ext (Nat.add_sub_cancel_left (P.vars + P.eqs) t))

end Problem

namespace Solver

variable {P : Problem ℝ} {H Df : Option (Matrix ℝ)} {blocks : List (ScalingBlock ℝ)}
  {K : Grid P.order P.order ℝ}

/-! ### The blocks of the assembled matrix -/

/-- The Hessian, symmetric by its lower triangle, zero if there is none. -/
noncomputable def hessianMatrix (P : Problem ℝ) (H : Option (Matrix ℝ)) : RealMatrix P.vars :=
  fun i j => hessianSymm H i j

/-- The matrix of the equality constraints. -/
noncomputable def equalityMatrix (P : Problem ℝ) : RealRectangle P.eqs P.vars :=
  fun e j => P.A.grid.at e j

/-- The rows of the cones. -/
def coneMatrix (K : Grid P.order P.order ℝ) : RealRectangle P.coneRows P.vars :=
  fun t j => K.get (P.coneRow t) (P.column j)

namespace Assembled

variable (h : Assembled P blocks H Df K)
include h

theorem symm_column (k j : Fin P.vars) :
    K.symm (P.column k) (P.column j) = hessianMatrix P H k j := by
  rw [← symmAt_val]
  exact h.at_hessian k.isLt j.isLt

theorem symm_equalityRow (e : Fin P.eqs) (j : Fin P.vars) :
    K.symm (P.equalityRow e) (P.column j) = equalityMatrix P e j := by
  rw [← symmAt_val, symmAt_of_le (by show j.val ≤ P.vars + e.val; omega)]
  exact h.at_equality e.isLt j.isLt

omit h in
theorem symm_coneRow (K : Grid P.order P.order ℝ) (t : Fin P.coneRows) (j : Fin P.vars) :
    K.symm (P.coneRow t) (P.column j) = coneMatrix K t j :=
  Grid.symm_of_le K (by show j.val ≤ P.vars + P.eqs + t.val; omega)

theorem symm_equalityRow_equalityRow (e f : Fin P.eqs) :
    K.symm (P.equalityRow e) (P.equalityRow f) = 0 := by
  rw [← symmAt_val]
  exact h.at_middle (Nat.le_add_right _ _) (P.equalityRow e).isLt (Nat.le_add_right _ _)
    (P.equalityRow f).isLt (.inl (Nat.add_lt_add_left e.isLt _))

theorem symm_coneRow_equalityRow (t : Fin P.coneRows) (e : Fin P.eqs) :
    K.symm (P.coneRow t) (P.equalityRow e) = 0 := by
  rw [← symmAt_val]
  exact h.at_middle (by show P.vars ≤ P.vars + P.eqs + t.val; omega) (P.coneRow t).isLt
    (Nat.le_add_right _ _) (P.equalityRow e).isLt (.inr (Nat.add_lt_add_left e.isLt _))

theorem symm_coneRow_coneRow (t s : Fin P.coneRows) :
    K.symm (P.coneRow t) (P.coneRow s) = if t = s then -1 else 0 := by
  rw [← symmAt_val]
  exact (h.at_corner t.isLt s.isLt).trans (by simp only [Fin.ext_iff])

/-! ### The assembled matrix as a linear map -/

/-- The rows of the variables. -/
theorem mulVec_column (u : Fin P.order → ℝ) (k : Fin P.vars) :
    K.symmMatrix.mulVec u (P.column k) =
      (hessianMatrix P H).mulVec (u ∘ P.column) k +
        (equalityMatrix P).transpose.mulVec (u ∘ P.equalityRow) k +
        (coneMatrix K).transpose.mulVec (u ∘ P.coneRow) k := by
  have hequality : ∀ e, K.symm (P.column k) (P.equalityRow e) = equalityMatrix P e k := fun e =>
    (K.symm_comm _ _).trans (h.symm_equalityRow e k)
  have hcone : ∀ t, K.symm (P.column k) (P.coneRow t) = coneMatrix K t k := fun t =>
    (K.symm_comm _ _).trans (symm_coneRow K t k)
  simp only [Matrix.mulVec, dotProduct, P.sum_order, Grid.symmMatrix_apply, h.symm_column,
    hequality, hcone, Matrix.transpose_apply, Function.comp_apply]

/-- The rows of the equality constraints. -/
theorem mulVec_equalityRow (u : Fin P.order → ℝ) (e : Fin P.eqs) :
    K.symmMatrix.mulVec u (P.equalityRow e) = (equalityMatrix P).mulVec (u ∘ P.column) e := by
  simp only [Matrix.mulVec, dotProduct, P.sum_order, Grid.symmMatrix_apply, h.symm_equalityRow,
    h.symm_equalityRow_equalityRow, Grid.symm_comm K (P.equalityRow e) (P.coneRow _),
    h.symm_coneRow_equalityRow, zero_mul, Finset.sum_const_zero, add_zero, Function.comp_apply]

/-- The rows of the cones. -/
theorem mulVec_coneRow (u : Fin P.order → ℝ) (t : Fin P.coneRows) :
    K.symmMatrix.mulVec u (P.coneRow t) =
      (coneMatrix K).mulVec (u ∘ P.column) t - u (P.coneRow t) := by
  simp [Matrix.mulVec, dotProduct, P.sum_order, Grid.symmMatrix_apply, symm_coneRow,
    h.symm_coneRow_equalityRow, h.symm_coneRow_coneRow, sub_eq_add_neg]

/-- The quadratic form of the assembled matrix. -/
theorem form_eq (u : Fin P.order → ℝ) :
    dotProduct u (K.symmMatrix.mulVec u) =
      dotProduct (u ∘ P.column) ((hessianMatrix P H).mulVec (u ∘ P.column)) +
        2 * dotProduct (u ∘ P.equalityRow) ((equalityMatrix P).mulVec (u ∘ P.column)) +
        2 * dotProduct (u ∘ P.coneRow) ((coneMatrix K).mulVec (u ∘ P.column)) -
        dotProduct (u ∘ P.coneRow) (u ∘ P.coneRow) := by
  have hequality : dotProduct (u ∘ P.column)
      ((equalityMatrix P).transpose.mulVec (u ∘ P.equalityRow)) =
      dotProduct (u ∘ P.equalityRow) ((equalityMatrix P).mulVec (u ∘ P.column)) := by
    rw [Matrix.dotProduct_mulVec, Matrix.vecMul_transpose, dotProduct_comm]
  have hcone : dotProduct (u ∘ P.column) ((coneMatrix K).transpose.mulVec (u ∘ P.coneRow)) =
      dotProduct (u ∘ P.coneRow) ((coneMatrix K).mulVec (u ∘ P.column)) := by
    rw [Matrix.dotProduct_mulVec, Matrix.vecMul_transpose, dotProduct_comm]
  rw [dotProduct, P.sum_order]
  simp only [h.mulVec_column, h.mulVec_equalityRow, h.mulVec_coneRow, mul_add, mul_sub,
    Finset.sum_add_distrib, Finset.sum_sub_distrib]
  simp only [dotProduct, Function.comp_apply] at hequality hcone ⊢
  rw [hequality, hcone]
  ring

end Assembled

/-! ### What well posed means -/

theorem square_nonneg {m : ℕ} (v : Fin m → ℝ) : 0 ≤ dotProduct v v :=
  Finset.sum_nonneg fun i _ => mul_self_nonneg (v i)

/-- The Hessian is positive semidefinite, the rows of the equality constraints are linearly
independent, and no direction but zero is in the kernels of the Hessian, of the equality constraints
and of the rows `G` of the cones. -/
structure WellPosed (P : Problem ℝ) (H : Option (Matrix ℝ)) (G : RealRectangle P.coneRows P.vars) :
    Prop where
  semidefinite : (hessianMatrix P H).PosSemidef
  independent : LinearIndependent ℝ (equalityMatrix P).row
  determined : ∀ x, (hessianMatrix P H).mulVec x = 0 → (equalityMatrix P).mulVec x = 0 →
    G.mulVec x = 0 → x = 0

namespace WellPosed

variable (posed : WellPosed P H (coneMatrix K))
include posed

/-- The kernel of a semidefinite Hessian, from its quadratic form. -/
theorem eq_zero_of_form {x : Fin P.vars → ℝ}
    (hform : dotProduct x ((hessianMatrix P H).mulVec x) = 0)
    (hequality : (equalityMatrix P).mulVec x = 0) (hcone : (coneMatrix K).mulVec x = 0) : x = 0 :=
  posed.determined x ((posed.semidefinite.dotProduct_mulVec_zero_iff x).mp hform) hequality hcone

variable (h : Assembled P blocks H Df K)
include h

/-- The assembled matrix is nonsingular. -/
theorem det_ne_zero : K.symmMatrix.det ≠ 0 := by
  intro hzero
  obtain ⟨u, hu, hkernel⟩ := Matrix.exists_mulVec_eq_zero_iff.mpr hzero
  have hequality : (equalityMatrix P).mulVec (u ∘ P.column) = 0 := by
    funext e
    rw [← h.mulVec_equalityRow, hkernel]
    rfl
  have hcone : u ∘ P.coneRow = (coneMatrix K).mulVec (u ∘ P.column) := by
    funext t
    have hrow := h.mulVec_coneRow u t
    rw [hkernel] at hrow
    exact (sub_eq_zero.mp hrow.symm).symm
  -- the quadratic form leaves the Hessian and the rows of the cones, and neither is negative
  have hform := h.form_eq u
  rw [hkernel, dotProduct_zero, hequality, dotProduct_zero, ← hcone] at hform
  have hhessian : 0 ≤ dotProduct (u ∘ P.column) ((hessianMatrix P H).mulVec (u ∘ P.column)) :=
    posed.semidefinite.dotProduct_mulVec_nonneg (u ∘ P.column)
  have hsquare : 0 ≤ dotProduct (u ∘ P.coneRow) (u ∘ P.coneRow) := square_nonneg _
  have hcones : u ∘ P.coneRow = 0 := dotProduct_self_eq_zero.mp (by linarith)
  have hvars : u ∘ P.column = 0 :=
    posed.eq_zero_of_form (by linarith) hequality (hcone.symm.trans hcones)
  have heqs : u ∘ P.equalityRow = 0 := by
    have htranspose : (equalityMatrix P).transpose.mulVec (u ∘ P.equalityRow) = 0 := by
      funext k
      have hrow := h.mulVec_column u k
      rw [hkernel, hvars, hcones, Matrix.mulVec_zero, Matrix.mulVec_zero] at hrow
      simpa using hrow.symm
    rw [Matrix.mulVec_transpose] at htranspose
    exact (Matrix.vecMul_injective_iff.mpr posed.independent)
      (htranspose.trans (Matrix.zero_vecMul _).symm)
  apply hu
  rw [← dotProduct_self_eq_zero, dotProduct, P.sum_order]
  have hentries : (∀ k, u (P.column k) = 0) ∧ (∀ e, u (P.equalityRow e) = 0) ∧
      ∀ t, u (P.coneRow t) = 0 := ⟨congrFun hvars, congrFun heqs, congrFun hcones⟩
  simp only [hentries.1, hentries.2.1, hentries.2.2, mul_zero, Finset.sum_const_zero, add_zero]

omit posed in
/-- The quadratic form where the equality constraints and the rows of the cones are met. -/
theorem form_met (x : Fin P.vars → ℝ) :
    let u := P.stack (x, (equalityMatrix P).mulVec x, (coneMatrix K).mulVec x)
    dotProduct u (K.symmMatrix.mulVec u) =
      dotProduct x ((hessianMatrix P H).mulVec x) +
        2 * dotProduct ((equalityMatrix P).mulVec x) ((equalityMatrix P).mulVec x) +
        dotProduct ((coneMatrix K).mulVec x) ((coneMatrix K).mulVec x) := by
  intro u
  rw [h.form_eq]
  simp only [u, Problem.stack_column, Problem.stack_equalityRow, Problem.stack_coneRow]
  ring

/-- There it is positive. -/
theorem form_pos {x : Fin P.vars → ℝ} (hx : x ≠ 0) :
    let u := P.stack (x, (equalityMatrix P).mulVec x, (coneMatrix K).mulVec x)
    0 < dotProduct u (K.symmMatrix.mulVec u) := by
  intro u
  rw [form_met h]
  have hhessian : 0 ≤ dotProduct x ((hessianMatrix P H).mulVec x) :=
    posed.semidefinite.dotProduct_mulVec_nonneg x
  have hequality := square_nonneg ((equalityMatrix P).mulVec x)
  have hcone := square_nonneg ((coneMatrix K).mulVec x)
  by_contra hle
  refine hx (posed.eq_zero_of_form ?_ ?_ ?_)
  · linarith
  · exact dotProduct_self_eq_zero.mp (by linarith)
  · exact dotProduct_self_eq_zero.mp (by linarith)

omit posed in
/-- Without variables the quadratic form is nowhere positive. -/
theorem form_nonpos (w : (Fin P.eqs → ℝ) × (Fin P.coneRows → ℝ)) :
    dotProduct (P.stack (0, w)) (K.symmMatrix.mulVec (P.stack (0, w))) ≤ 0 := by
  rw [h.form_eq]
  simp only [Problem.stack_column, Problem.stack_coneRow, Matrix.mulVec_zero, dotProduct_zero,
    mul_zero, add_zero, zero_sub, neg_nonpos]
  exact square_nonneg _

/-- The signs of a diagonal matrix that the assembled matrix is congruent to. -/
theorem count_eq {e : Fin P.order → ℝ} (he : Congruent K.symmMatrix (Matrix.diagonal e)) :
    Inertia.count Finset.univ e = ⟨P.vars, P.eqs + P.coneRows, 0⟩ := by
  let met : (Fin P.vars → ℝ) →ₗ[ℝ] (Fin P.order → ℝ) :=
    P.stack ∘ₗ LinearMap.prod LinearMap.id
      (LinearMap.prod (equalityMatrix P).mulVecLin (coneMatrix K).mulVecLin)
  let behind : (Fin P.eqs → ℝ) × (Fin P.coneRows → ℝ) →ₗ[ℝ] (Fin P.order → ℝ) :=
    P.stack ∘ₗ LinearMap.inr ℝ _ _
  have hinjective : Function.Injective behind := by
    intro w w' heq
    have heqs := P.stack_equalityRow (0, w)
    have hcones := P.stack_coneRow (0, w)
    rw [show P.stack (0, w) = P.stack (0, w') from heq] at heqs hcones
    rw [P.stack_equalityRow] at heqs
    rw [P.stack_coneRow] at hcones
    exact (Prod.ext heqs hcones).symm
  have hvars : Module.finrank ℝ (Fin P.vars → ℝ) = P.vars := Module.finrank_fin_fun ℝ
  have hbehind : Module.finrank ℝ ((Fin P.eqs → ℝ) × (Fin P.coneRows → ℝ)) =
      P.eqs + P.coneRows := by
    rw [Module.finrank_prod, Module.finrank_fin_fun, Module.finrank_fin_fun]
  have hcount := he.count_eq_of_subspaces (posed.det_ne_zero h) met
    (fun x hx => posed.form_pos h hx) hinjective (form_nonpos h) (by
      rw [hvars, hbehind, ← Nat.add_assoc]
      rfl)
  rwa [hvars, hbehind] at hcount

end WellPosed

/-! ### The columns of the constraints -/

/-- The columns of `G` are the columns of the constraints, scaled by `W⁻ᵀ` and packed. -/
def PackedColumns (P : Problem ℝ) (W : Scaling ℝ) (Df : Option (Matrix ℝ)) (work : Workspace ℝ)
    (G : RealRectangle P.coneRows P.vars) : Prop :=
  ∀ k : Fin P.vars, ∃ scaled work' column,
    W.scale (Vector.ofFn fun i : Fin P.rows => P.constraint Df k i) P.dims P.mnl ⟨true, true⟩ work =
      .ok ⟨.ok (), (scaled, work')⟩ ∧
    pack scaled.toArray (Vector.replicate P.coneRows 0) P.dims P.mnl 0 = .ok ⟨.ok (), column⟩ ∧
    ∀ t, G t k = column.get t

variable {W : Scaling ℝ} {work : Workspace ℝ} {G : RealRectangle P.coneRows P.vars}

/-- For a scaling whose sizes fit there is such a matrix. -/
theorem exists_packedColumns (hW : W.checkDims P.dims P.mnl = .ok ())
    (hwork : P.dims.maxOrder ≤ work.order) (Df : Option (Matrix ℝ)) :
    ∃ G, PackedColumns P W Df work G := by
  obtain ⟨blocks, hblocks⟩ := exists_blocks hW
  choose column hcolumn _ using exists_coneColumn hW hblocks hwork Df
  refine ⟨fun t k => (column k).get t, fun k => ?_⟩
  obtain ⟨scaled, work', hscale, hpack⟩ := hcolumn k
  exact ⟨scaled, work', column k, hscale, hpack, fun _ => rfl⟩

/-- The rows of the cones in the assembled matrix are those columns. -/
theorem PackedColumns.eq_coneMatrix (hG : PackedColumns P W Df work G)
    (hW : W.checkDims P.dims P.mnl = .ok ()) (hblocks : W.blocks = .ok blocks)
    (hwork : P.dims.maxOrder ≤ work.order) (h : Assembled P blocks H Df K) : G = coneMatrix K := by
  funext t k
  obtain ⟨scaled, work', column, hscale, hpack, hcolumn⟩ := hG k
  have hmade : ConeColumn P W Df work k column := ⟨scaled, work', hscale, hpack⟩
  have hsame := (hmade.reduces hW hblocks hwork).unique (Scaling.fits_of_checkDims hW) hblocks
    (h.constraint k k.isLt) t t.isLt
  rw [hcolumn, ← Vec.entries_get, hsame]
  exact K.at_val (P.coneRow t) (P.column k)

/-! ### The factorization of a well posed system -/

/-- A well posed system is factored, with the inertia that is known beforehand. -/
theorem exists_factor_wellPosed {S : Solver P} (hS : P.dims.maxOrder ≤ S.workspace.order)
    (hchecked : P.checkInputs W H Df = .ok ()) (hwork : P.dims.maxOrder ≤ work.order)
    (hG : PackedColumns P W Df work G) (posed : WellPosed P H G) :
    ∃ handle T events, S.factor W H Df = .ok ⟨.ok handle, T, events⟩ ∧
      T.inertia = .ok (some ⟨P.vars, P.eqs + P.coneRows, 0⟩) := by
  have hW := (Problem.accepts_of_checkInputs hchecked).scaling
  obtain ⟨blocks, hblocks⟩ := exists_blocks hW
  obtain ⟨⟨answer, T, events⟩, K, record, t, hfactor, hassembled, hsweep, hK, hrecord, -, -,
    hanswer⟩ := exists_factor hchecked hblocks S hS
  obtain rfl := hG.eq_coneMatrix hW hblocks hwork hassembled
  have hinfo : t.info = 0 := hsweep.info_eq_zero (posed.det_ne_zero hassembled)
  rw [if_pos hinfo] at hanswer
  obtain rfl : answer = _ := hanswer
  have hstatus : T.status = .factored := by
    obtain ⟨-, -, ⟨⟨e, he⟩, -⟩ | ⟨-, hstatus⟩⟩ := factor_of_checked hchecked hfactor
    · cases he
    · exact hstatus
  refine ⟨_, T, events, hfactor, ?_⟩
  obtain ⟨e, hcongruent, hread⟩ := hsweep.exists_inertia_eq
  have hfactored : T.isFactored = true := by
    rw [isFactored, hstatus]
    rfl
  rw [inertia, if_pos hfactored]
  rw [show T.K = t.grid from hK, show T.record = t.record from hrecord, hread,
    posed.count_eq hassembled hcongruent]
  rfl

end Solver

/-! ### In a run -/

/-- **Well posed systems are factored.**  In any state of a session over the reals and for operands
whose sizes fit, let `G` have as columns those of the constraints, scaled by `W⁻ᵀ` and packed.  If
the Hessian, symmetric by its lower triangle, is positive semidefinite, the rows of the equality
constraints are linearly independent, and only zero is in the kernels of the Hessian, of the
equality constraints and of `G`, then a factorization answers with a handle, and the inertia that
the solver gives has one positive eigenvalue for each variable, one negative eigenvalue for each
equality constraint and each row of the cones, and no zero. -/
theorem well_posed_factors {s : Session ℝ} {history : List (Session.Moment ℝ)}
    (run : Session.Run history s) {id : ℕ} (hid : id < s.solvers.size) :
    let P := s.solvers[id].problem
    ∀ (W : Scaling ℝ) (H Df : Option (Matrix ℝ)) (work : Workspace ℝ),
      P.checkInputs W H Df = .ok () → P.dims.maxOrder ≤ work.order →
      (∃ G, Solver.PackedColumns P W Df work G) ∧
      ∀ G, Solver.PackedColumns P W Df work G → Solver.WellPosed P H G →
        ∃ handle t events, s.factor ⟨id, hid⟩ W H Df = .ok ⟨.ok handle, t, events⟩ ∧
          ∃ T : Solver P, t.solvers[id]? = some ⟨P, T⟩ ∧
            T.inertia = .ok (some ⟨P.vars, P.eqs + (P.mnl + P.packed), 0⟩) := by
  have hX : s.solvers[id]? = some s.solvers[id] := Array.getElem?_eq_getElem hid
  generalize s.solvers[id] = X at hX
  obtain ⟨P, S⟩ := X
  intro P' W H Df work hchecked hwork
  refine ⟨Solver.exists_packedColumns (Problem.accepts_of_checkInputs hchecked).scaling hwork Df,
    fun G hG posed => ?_⟩
  obtain ⟨handle, T, events, hfactor, hinertia⟩ :=
    Solver.exists_factor_wellPosed (run.workspace hX) hchecked hwork hG posed
  refine ⟨handle, _, events, Session.factor_of_solver (j := ⟨id, hid⟩) hX hfactor, T, ?_, hinertia⟩
  rw [Array.getElem?_set, if_pos rfl]

/-- The problem with one row is well posed with the Hessian of order one. -/
theorem wellPosed_oneRow (G : RealRectangle oneRow.coneRows oneRow.vars) :
    Solver.WellPosed oneRow unitHessian G := by
  have hone : Solver.hessianMatrix oneRow unitHessian = 1 := by
    ext i j
    have hi : i = ⟨0, Nat.one_pos⟩ := Fin.ext (Nat.lt_one_iff.mp i.isLt)
    have hj : j = ⟨0, Nat.one_pos⟩ := Fin.ext (Nat.lt_one_iff.mp j.isLt)
    rw [hi, hj, Matrix.one_apply_eq]
    rfl
  have : IsEmpty (Fin oneRow.eqs) := Fin.isEmpty
  exact {
    semidefinite := hone ▸ Matrix.PosSemidef.one
    independent := linearIndependent_empty_type
    determined := fun x hx _ _ => by rwa [hone, Matrix.one_mulVec] at hx }

/-- A session with the problem of one row factors it with one eigenvalue of each sign. -/
theorem well_posed_factors_oneRow :
    ∃ (s : Session ℝ) (history : List (Session.Moment ℝ)) (hid : 0 < s.solvers.size),
      Session.Run history s ∧ s.solvers[0].problem = oneRow ∧
      oneRow.checkInputs doubling unitHessian none = .ok () ∧
      ∃ handle t events, s.factor ⟨0, hid⟩ doubling unitHessian none =
          .ok ⟨.ok handle, t, events⟩ ∧
        ∃ T : Solver oneRow, t.solvers[0]? = some ⟨oneRow, T⟩ ∧
          T.inertia = .ok (some ⟨1, 1, 0⟩) := by
  obtain ⟨S, hcreate⟩ : ∃ S : Solver oneRow,
      Session.empty.create oneRow.G oneRow.dims oneRow.A 0 oneRow.settings =
        .ok ⟨.ok 0, ⟨#[⟨oneRow, S⟩]⟩, [Solver.created oneRow]⟩ := ⟨_, rfl⟩
  have run := Session.Run.start.next (.create hcreate)
  have hchecked : oneRow.checkInputs doubling unitHessian none = .ok () := rfl
  have hS : (#[⟨oneRow, S⟩] : Array (AnySolver ℝ))[0]? = some ⟨oneRow, S⟩ := rfl
  have hwork := run.workspace hS
  obtain ⟨⟨G, hG⟩, hfactor⟩ := well_posed_factors run Nat.one_pos doubling unitHessian none
    S.workspace hchecked hwork
  exact ⟨⟨#[⟨oneRow, S⟩]⟩, _, Nat.one_pos, run, rfl, hchecked, hfactor G hG (wellPosed_oneRow G)⟩

end ConicSaddle
