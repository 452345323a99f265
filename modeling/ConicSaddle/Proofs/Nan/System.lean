import ConicSaddle.Proofs.Kkt.Calls
import ConicSaddle.Proofs.Nan.Ldl
import ConicSaddle.Proofs.Nan.Scaling

/-!
# A NaN in the system

A NaN in the data of a factorization is found in the lower triangle that is assembled, and a NaN in
the scaling or in the right hand side is found in the packed right hand side.

* `Problem.DataNaN`, `Scaling.InverseNaN`, `Problem.RhsNaN`: a NaN in what a call is given;
* `Solver.Reduces.exists_nan`: a scaled and packed vector;
* `Solver.Assembled.trailingNaN`: the matrix, `Solver.exists_load_nan`: the right hand side.
-/

namespace ConicSaddle

open ConeDims (total)
open Scalar (isNaN)
open Vec (entries HasNaN)

variable {α : Type} [Scalar α]

/-! ### Where a NaN may be -/

/-- A NaN in the equality constraints, in the lower triangle of the Hessian, in the Jacobian, or in
the conic constraints outside the strict upper triangles of the semidefinite blocks. -/
inductive Problem.DataNaN (P : Problem α) (H Df : Option (Matrix α)) : Prop
  | equality (i : Fin P.A.rows) (j : Fin P.A.cols) (h : isNaN (P.A.grid.get i j) = true)
  | hessian {M : Matrix α} (given : H = some M) (i : Fin M.rows) (j : Fin M.cols)
      (lower : j.val ≤ i.val) (h : isNaN (M.grid.get i j) = true)
  | jacobian {M : Matrix α} (given : Df = some M) (i : Fin M.rows) (j : Fin M.cols)
      (h : isNaN (M.grid.get i j) = true)
  | conic (i : Fin P.G.rows) (j : Fin P.G.cols) (visible : VisibleIn P.dims.blocks i)
      (h : isNaN (P.G.grid.get i j) = true)

/-- A NaN in the part of a scaling that its inverse is computed with. -/
inductive Scaling.InverseNaN (W : Scaling α) : Prop
  | nonlinear {x : α} (mem : x ∈ W.dnli) (h : isNaN x = true)
  | orthant {x : α} (mem : x ∈ W.di) (h : isNaN x = true)
  | secondOrder {v : Array α} (block : v ∈ W.v) {x : α} (mem : x ∈ v) (h : isNaN x = true)
  | beta {x : α} (mem : x ∈ W.beta) (h : isNaN x = true)
  | semidefinite {M : Matrix α} (block : M ∈ W.rti) (i : Fin M.rows) (j : Fin M.cols)
      (h : isNaN (M.grid.get i j) = true)

/-- A NaN in a right hand side, outside the strict upper triangles of the semidefinite blocks. -/
inductive Problem.RhsNaN (P : Problem α) (rhs : Rhs α) : Prop
  | x {v : α} (mem : v ∈ rhs.x) (h : isNaN v = true)
  | y {v : α} (mem : v ∈ rhs.y) (h : isNaN v = true)
  | z (i : ℕ) (hi : i < rhs.z.size) (visible : VisibleIn (P.dims.layout P.mnl) i)
      (h : isNaN rhs.z[i] = true)

/-! ### Blocks of a scaling -/

/-- A list of the right length gives every member of another one a partner. -/
theorem exists_mem_zip {β γ : Type} {xs : List β} {ys : List γ} (h : xs.length = ys.length) :
    (∀ x ∈ xs, ∃ y, (x, y) ∈ xs.zip ys) ∧ ∀ y ∈ ys, ∃ x, (x, y) ∈ xs.zip ys := by
  constructor
  · intro x hx
    rw [← List.map_fst_zip (Nat.le_of_eq h)] at hx
    obtain ⟨⟨x', y⟩, hmem, rfl⟩ := List.mem_map.mp hx
    exact ⟨y, hmem⟩
  · intro y hy
    rw [← List.map_snd_zip (Nat.le_of_eq h.symm)] at hy
    obtain ⟨⟨x, y'⟩, hmem, rfl⟩ := List.mem_map.mp hy
    exact ⟨x, hmem⟩

theorem ScalingBlock.spoilt_of_isOf {p : Matrix α × Matrix α} {block : ScalingBlock α}
    (hblock : IsOf p block) (i : Fin p.2.rows) (j : Fin p.2.cols)
    (h : isNaN (p.2.grid.get i j) = true) : block.Spoilt := by
  obtain ⟨r, ⟨rows, cols, rti⟩⟩ := p
  obtain ⟨k, hr, hrti, rfl⟩ := hblock
  obtain rfl : rows = k := congrArg Prod.fst hrti
  obtain rfl : cols = rows := congrArg Prod.snd hrti
  exact ⟨i, j, h⟩

/-- A NaN in a scaling is in one of its blocks. -/
theorem Scaling.InverseNaN.exists_spoilt {W : Scaling α} {dims : ConeDims} {mnl : ℕ}
    {blocks : List (ScalingBlock α)} (h : W.InverseNaN) (hfits : W.Fits dims mnl)
    (hblocks : W.blocks = .ok blocks) : ∃ block ∈ blocks, block.Spoilt := by
  obtain ⟨semidefinite, hW, -, hforall⟩ := Scaling.exists_blocks hfits
  cases hW.symm.trans hblocks
  have hcones : W.v.length = W.beta.length := by
    rw [hfits.beta, ← hfits.v, List.length_map]
  have hsecond : ∀ v beta, (v, beta) ∈ W.v.zip W.beta →
      ScalingBlock.secondOrder v beta ∈ W.v.zipWith ScalingBlock.secondOrder W.beta := by
    intro v beta hmem
    rw [← List.map_uncurry_zip_eq_zipWith]
    exact List.mem_map.mpr ⟨(v, beta), hmem, rfl⟩
  cases h with
  | nonlinear mem h =>
    obtain ⟨i, hi, rfl⟩ := Array.mem_iff_getElem.mp mem
    refine ⟨_, List.mem_cons_self, ⟨i, ?_⟩, h⟩
    rwa [← hfits.dnli.trans hfits.dnl.symm]
  | orthant mem h =>
    obtain ⟨i, hi, rfl⟩ := Array.mem_iff_getElem.mp mem
    refine ⟨_, List.mem_cons_of_mem _ List.mem_cons_self, ⟨i, ?_⟩, h⟩
    rwa [← hfits.di.trans hfits.d.symm]
  | secondOrder block mem h =>
    obtain ⟨beta, hpair⟩ := (exists_mem_zip hcones).1 _ block
    refine ⟨.secondOrder _ beta, ?_, Or.inl ⟨_, mem, h⟩⟩
    exact List.mem_cons_of_mem _ (List.mem_cons_of_mem _
      (List.mem_append_left _ (hsecond _ beta hpair)))
  | beta mem h =>
    obtain ⟨v, hpair⟩ := (exists_mem_zip hcones).2 _ mem
    refine ⟨.secondOrder v _, ?_, Or.inr h⟩
    exact List.mem_cons_of_mem _ (List.mem_cons_of_mem _
      (List.mem_append_left _ (hsecond v _ hpair)))
  | semidefinite block i j h =>
    have hlength : W.r.length = W.rti.length := by
      have hr := congrArg List.length hfits.r
      have hrti := congrArg List.length hfits.rti
      simp only [List.length_map] at hr hrti
      exact hr.trans hrti.symm
    obtain ⟨r, hpair⟩ := (exists_mem_zip hlength).2 _ block
    obtain ⟨b, hb, hof⟩ := exists_of_forall₂ hforall.flip hpair
    refine ⟨b, ?_, ScalingBlock.spoilt_of_isOf hof i j h⟩
    exact List.mem_cons_of_mem _ (List.mem_cons_of_mem _ (List.mem_append_right _ hb))

/-! ### What is assembled and loaded -/

namespace Solver

variable [NaNRules α] {P : Problem α} {W : Scaling α} {H Df : Option (Matrix α)}
  {blocks : List (ScalingBlock α)}

/-- A scaled and packed vector has a NaN if the scaling or the vector has one. -/
theorem Reduces.exists_nan {x v : ℕ → α} (h : Reduces P blocks x v) (hfits : W.Fits P.dims P.mnl)
    (hblocks : W.blocks = .ok blocks)
    (hnan : W.InverseNaN ∨ ∃ i, VisibleIn (P.dims.layout P.mnl) i ∧ isNaN (x i) = true) :
    ∃ t < P.coneRows, isNaN (v t) = true := by
  obtain ⟨y, hacts, hv⟩ := h
  rw [hfits.packedVector_eq_blockwise hblocks, ← total_packedSize hfits hblocks] at hv
  have hspoilt : (∃ block ∈ blocks, block.Spoilt) ∨
      ∃ i, VisibleIn (blocks.map ScalingBlock.cone) i ∧ isNaN (x i) = true := by
    rw [hfits.map_cone hblocks]
    exact hnan.imp_left fun hW => hW.exists_spoilt hfits hblocks
  obtain ⟨t, ht, hpacked⟩ := hacts.exists_packed hspoilt
  refine ⟨t, ?_, ?_⟩
  · rwa [← total_packedSize hfits hblocks]
  · rw [hv t ht]
    exact hpacked

/-- A NaN in a column of the constraints. -/
theorem Assembled.trailingNaN_of_constraint {K : Grid P.order P.order α}
    (h : Assembled P blocks H Df K) (hfits : W.Fits P.dims P.mnl) (hblocks : W.blocks = .ok blocks)
    {i k : ℕ} (hk : k < P.vars) (visible : VisibleIn (P.dims.layout P.mnl) i)
    (hnan : isNaN (P.constraint Df k i) = true) : Ldl.TrailingNaN K 0 := by
  have horder : P.order = P.vars + P.eqs + P.coneRows := rfl
  obtain ⟨t, ht, hentry⟩ :=
    (h.constraint k hk).exists_nan hfits hblocks (.inr ⟨i, visible, hnan⟩)
  have hrow : P.vars + P.eqs + t < P.order := by omega
  have hcol : k < P.order := by omega
  refine ⟨⟨_, hrow⟩, ⟨k, hcol⟩, Nat.zero_le _, ?_, ?_⟩
  · show k ≤ P.vars + P.eqs + t
    omega
  · rw [← Grid.at_val]
    exact hentry

/-- The lower triangle that is assembled has a NaN if the data have one. -/
theorem Assembled.trailingNaN {K : Grid P.order P.order α} (h : Assembled P blocks H Df K)
    (haccepts : P.Accepts W H Df) (hblocks : W.blocks = .ok blocks) (hnan : P.DataNaN H Df) :
    Ldl.TrailingNaN K 0 := by
  have horder : P.order = P.vars + P.eqs + P.coneRows := rfl
  have hfits := Scaling.fits_of_checkDims haccepts.scaling
  cases hnan with
  | equality i j hnan =>
    have hi : i.val < P.eqs := i.isLt
    have hj : j.val < P.vars := Nat.lt_of_lt_of_eq j.isLt P.A_cols
    refine ⟨⟨P.vars + i, by omega⟩, ⟨j, by omega⟩, Nat.zero_le _, ?_, ?_⟩
    · show j.val ≤ P.vars + i.val
      omega
    · rw [h.equality _ _ (Nat.le_add_right _ _) (Nat.add_lt_add_left hi _) hj]
      show isNaN (P.A.grid.at (P.vars + i.val - P.vars) j) = true
      rw [Nat.add_sub_cancel_left, Grid.at_val]
      exact hnan
  | @hessian M given i j lower hnan =>
    have hsize := haccepts.hessian M given
    have hi : i.val < P.vars := by
      have hrows : M.rows = P.vars := congrArg Prod.fst hsize
      omega
    have hj : j.val < P.vars := by omega
    refine ⟨⟨i, by omega⟩, ⟨j, by omega⟩, Nat.zero_le _, lower, ?_⟩
    rw [h.hessian _ _ hi hj, given]
    show isNaN (M.grid.at i j) = true
    rw [Grid.at_val]
    exact hnan
  | @jacobian M given i j hnan =>
    have hsize := haccepts.jacobian M given
    have hi : i.val < P.mnl := by
      have hrows : M.rows = P.mnl := congrArg Prod.fst hsize
      omega
    have hj : j.val < P.vars := by
      have hcols : M.cols = P.vars := congrArg Prod.snd hsize
      omega
    refine h.trailingNaN_of_constraint hfits hblocks hj (i := i.val) ?_ ?_
    · have hvisible : if i.val < P.mnl then True else VisibleIn P.dims.blocks (i.val - P.mnl) := by
        rw [if_pos hi]
        exact trivial
      exact hvisible
    · unfold Problem.constraint
      rw [if_pos hi, given]
      show isNaN (M.grid.at i j) = true
      rw [Grid.at_val]
      exact hnan
  | conic i j visible hnan =>
    refine h.trailingNaN_of_constraint hfits hblocks j.isLt (i := P.mnl + i.val) ?_ ?_
    · exact visibleIn_cons_add.mpr visible
    · unfold Problem.constraint
      rw [if_neg (by omega), Nat.add_sub_cancel_left, Grid.at_val]
      exact hnan

/-- The packed right hand side has a NaN if the scaling or the right hand side has one. -/
theorem exists_load_nan (hW : W.checkDims P.dims P.mnl = .ok ()) (hblocks : W.blocks = .ok blocks)
    {rhs : Rhs α} (hrhs : P.checkRhs rhs = .ok ()) (S : Solver P)
    (hwork : P.dims.maxOrder ≤ S.workspace.order) :
    ∃ T, S.load W rhs = .ok ⟨.ok (), T⟩ ∧ (W.InverseNaN ∨ P.RhsNaN rhs → HasNaN T.u) := by
  have horder : P.order = P.vars + P.eqs + P.coneRows := rfl
  obtain ⟨hx, hy, hz⟩ := lengths_of_checkRhs hrhs
  obtain ⟨T, hT, hbx, hby, hbz⟩ := exists_load hW hblocks hrhs S hwork
  refine ⟨T, hT, fun hnan => ?_⟩
  have hplace : ∀ i < P.order, isNaN (entries T.u.toArray i) = true → HasNaN T.u := by
    intro i hi h
    refine ⟨⟨i, hi⟩, ?_⟩
    rw [Vec.get_eq_entries _ hi]
    exact h
  have hcone : (W.InverseNaN ∨ ∃ i, VisibleIn (P.dims.layout P.mnl) i ∧
      isNaN (entries rhs.z i) = true) → HasNaN T.u := by
    intro hnan
    obtain ⟨t, ht, hentry⟩ := hbz.exists_nan (Scaling.fits_of_checkDims hW) hblocks hnan
    exact hplace (P.vars + P.eqs + t) (by omega) hentry
  rcases hnan with hnan | hnan
  · exact hcone (.inl hnan)
  · cases hnan with
    | x mem h =>
      obtain ⟨i, hi, rfl⟩ := Array.mem_iff_getElem.mp mem
      rw [← Vec.entries_of_lt hi, ← hbx i (by omega)] at h
      exact hplace i (by omega) h
    | y mem h =>
      obtain ⟨i, hi, rfl⟩ := Array.mem_iff_getElem.mp mem
      rw [← Vec.entries_of_lt hi, ← hby i (by omega)] at h
      exact hplace (P.vars + i) (by omega) h
    | z i hi visible h =>
      rw [← Vec.entries_of_lt hi] at h
      exact hcone (.inr ⟨i, visible, h⟩)

end Solver

end ConicSaddle
