import Mathlib.Data.Option.Basic
import ConicSaddle.Proofs.Kkt.Alike
import ConicSaddle.Proofs.Kkt.Total
import ConicSaddle.Proofs.Ldl.LowerOnly
import ConicSaddle.Proofs.Scaling.Visible

/-!
# Calls that look at lower triangles

A solver, and one for a problem whose constraints differ above the diagonals of the semidefinite
blocks only.  While both hold factors with the same lower triangle, they answer alike to operands
that differ above diagonals only.  What stands above a diagonal need not be the same in the factors
and in the copy kept for refinement.

* `Matrix.AgreeAt`, `SameHessian`, `Problem.SameConic`: data that agree where they are looked at;
* `Problem.withConic`: a problem with other conic constraints;
* `Solver.Assembled.sameLower`: the matrices that are assembled;
* `Solver.SameLower`: the two solvers, `SameLower.exists_factor`, `SameLower.inertia_eq` and
  `SameLower.exists_solve` for their calls;
* `Refinement.SameLower.run_eq`: refinement takes the same steps;
* `Solver.symmetric_of_solve`: the semidefinite blocks of a solution.
-/

namespace ConicSaddle

open ConeDims (total)
open Vec (entries)

variable {α : Type} [Scalar α]

/-! ### Data that agree where it is looked at -/

/-- The matrices are of one size and agree at the places that count. -/
structure Matrix.AgreeAt (counts : ℕ → ℕ → Prop) (A B : Matrix α) : Prop where
  size_eq : B.size = A.size
  at_eq : ∀ i j, counts i j → A.grid.at i j = B.grid.at i j

/-- Both Hessians are missing, or they have the same lower triangle. -/
def SameHessian (H H' : Option (Matrix α)) : Prop :=
  Option.Rel (Matrix.AgreeAt fun i j => j ≤ i) H H'

theorem SameHessian.at_eq {H H' : Option (Matrix α)} (h : SameHessian H H') {i j : ℕ}
    (hji : j ≤ i) : Solver.hessianAt H i j = Solver.hessianAt H' i j := by
  cases h with
  | none => rfl
  | some h => exact h.at_eq i j hji

omit [Scalar α] in
/-- The problem with other conic constraints of the same size. -/
def Problem.withConic (P : Problem α) (g : Grid P.G.rows P.G.cols α) : Problem α where
  dims := P.dims
  mnl := P.mnl
  G := ⟨P.G.rows, P.G.cols, g⟩
  A := P.A
  settings := P.settings
  backend := P.backend
  unpacked := P.unpacked
  packed := P.packed
  numelUnpacked_eq := P.numelUnpacked_eq
  numelPacked_eq := P.numelPacked_eq
  G_rows := P.G_rows
  A_cols := P.A_cols
  rows_fit := P.rows_fit
  order_fits := P.order_fits

/-- The constraints agree but for strict upper triangles of semidefinite blocks. -/
def Problem.SameConic (P : Problem α) (g : Grid P.G.rows P.G.cols α) : Prop :=
  ∀ i j, VisibleIn P.dims.blocks i → P.G.grid.at i j = g.at i j

variable {P : Problem α} {g : Grid P.G.rows P.G.cols α} {W : Scaling α}
  {H H' Df : Option (Matrix α)} {blocks : List (ScalingBlock α)}

/-- The sizes that are asked for do not depend on the constraints. -/
theorem Problem.checkInputs_withConic (h : SameHessian H H') :
    (P.withConic g).checkInputs W H' Df = P.checkInputs W H Df := by
  cases h with
  | none => cases Df <;> rfl
  | some h =>
    unfold checkInputs
    simp only [h.size_eq]
    cases Df <;> rfl

/-- A column of the constraints. -/
theorem Problem.constraint_withConic
    (hG : P.SameConic g) (k : ℕ) :
    SameVisible (P.dims.layout P.mnl) (P.constraint Df k) ((P.withConic g).constraint Df k) := by
  intro i hi
  have hvisible : if i < P.mnl then _ else VisibleIn P.dims.blocks (i - P.mnl) := hi
  show (if i < P.mnl then _ else _) = if i < P.mnl then _ else _
  by_cases hlt : i < P.mnl
  · rw [if_pos hlt, if_pos hlt]
  · rw [if_neg hlt] at hvisible
    rw [if_neg hlt, if_neg hlt]
    exact hG _ _ hvisible

namespace Solver

/-- What is scaled and packed does not depend on strict upper triangles. -/
theorem Reduces.of_visible (hfits : W.Fits P.dims P.mnl) (hblocks : W.blocks = .ok blocks)
    {x x' v : ℕ → α} (h : Reduces P blocks x v) (hx : SameVisible (P.dims.layout P.mnl) x x') :
    Reduces P blocks x' v := by
  obtain ⟨y, hy, hv⟩ := h
  rw [← hfits.map_cone hblocks] at hx
  exact ⟨y, hy.of_visible hx, hv⟩

/-- The matrices that are assembled have the same lower triangle. -/
theorem Assembled.sameLower [ZeroRule α] (hfits : W.Fits P.dims P.mnl)
    (hblocks : W.blocks = .ok blocks)
    (hG : P.SameConic g)
    (hH : SameHessian H H') {K : Grid P.order P.order α}
    {K' : Grid (P.withConic g).order (P.withConic g).order α} (h : Assembled P blocks H Df K)
    (h' : Assembled (P.withConic g) blocks H' Df K') : K.SameLower K' := by
  intro i j hji
  have hle : j.val ≤ i.val := hji
  have horder : P.order = P.vars + P.eqs + P.coneRows := rfl
  rcases Nat.lt_or_ge j.val P.vars with hj | hj
  · rcases Nat.lt_or_ge i.val P.vars with hi | hi
    · rw [h.hessian i j hi hj, hH.at_eq hle]
      exact (h'.hessian i j hi hj).symm
    rcases Nat.lt_or_ge i.val (P.vars + P.eqs) with hi' | hi'
    · rw [h.equality i j hi hi' hj]
      exact (h'.equality i j hi hi' hj).symm
    · -- the columns of the constraints are scaled and packed alike
      have hcolumn : Reduces P blocks (P.constraint Df j)
          fun t => K'.at (P.vars + P.eqs + t) j := by
        have hreduces : Reduces P blocks ((P.withConic g).constraint Df j)
          fun t => K'.at (P.vars + P.eqs + t) j := h'.constraint j hj
        refine hreduces.of_visible hfits hblocks fun i hi => ?_
        exact (Problem.constraint_withConic hG j.val i hi).symm
      have heq := (h.constraint j hj).unique hfits hblocks hcolumn (i.val - (P.vars + P.eqs)) (by
        have := i.isLt
        omega)
      simp only [Nat.add_sub_cancel' hi', Grid.at_val] at heq
      exact heq.trans (K'.at_val i j)
  · have hi : P.vars ≤ i.val := hj.trans hle
    by_cases hmiddle : i.val < P.vars + P.eqs ∨ j.val < P.vars + P.eqs
    · rw [h.middle i j hi hj hmiddle]
      exact (h'.middle i j hi hj hmiddle).symm
    · rw [not_or, Nat.not_lt, Nat.not_lt] at hmiddle
      rw [h.corner i j hmiddle.1 hmiddle.2]
      exact (h'.corner i j hmiddle.1 hmiddle.2).symm

/-- A solver and one for other constraints have the same standing, factors and a copy with the same
lower triangles, and the same pivots.  Both have room for their blocks. -/
structure SameLower (S : Solver P) (T : Solver (P.withConic g)) : Prop where
  id_eq : T.id = S.id
  generation_eq : T.generation = S.generation
  status_eq : T.status = S.status
  grid : S.K.SameLower T.K
  record_eq : T.record = S.record
  copy : P.settings.refine = true → S.copy.SameLower T.copy
  splits : S.status = .factored → S.record.Splits 0
  room : P.dims.maxOrder ≤ S.workspace.order
  room' : P.dims.maxOrder ≤ T.workspace.order

/-! ### Factoring -/

/-- A factorization answers alike, and leaves factors with the same lower triangle. -/
theorem SameLower.exists_factor [ZeroRule α] [Ldl.PivotRules α] {S : Solver P}
    {T : Solver (P.withConic g)} (h : SameLower S T)
    (hG : P.SameConic g) (hH : SameHessian H H') (W : Scaling α) (Df : Option (Matrix α)) :
    ∃ out out', S.factor W H Df = .ok out ∧ T.factor W H' Df = .ok out' ∧
      out'.answer = out.answer ∧ SameLower out.state out'.state := by
  have hchecks : (P.withConic g).checkInputs W H' Df = P.checkInputs W H Df :=
    Problem.checkInputs_withConic hH
  cases hchecked : P.checkInputs W H Df with
  | error e =>
    exact ⟨_, _, factor_of_refused S hchecked, factor_of_refused T (hchecks.trans hchecked), rfl, h⟩
  | ok u =>
  have hchecked' := hchecks.trans hchecked
  have haccepts := Problem.accepts_of_checkInputs hchecked
  have hfits := Scaling.fits_of_checkDims haccepts.scaling
  obtain ⟨blocks, hblocks⟩ := exists_blocks haccepts.scaling
  obtain ⟨U, hU, horderU, hassembledU, -, hcopyU⟩ := exists_assemble haccepts hblocks
    S.restarted h.room
  obtain ⟨V, hV, horderV, hassembledV, -, hcopyV⟩ :=
    exists_assemble (Problem.accepts_of_checkInputs hchecked') hblocks
      T.restarted h.room'
  have hU' := assemble_standing hU
  have hV' := assemble_standing hV
  have hid : V.id = U.id := hV'.id_eq.trans (h.id_eq.trans hU'.id_eq.symm)
  have hgeneration : V.generation = U.generation :=
    hV'.generation_eq.trans ((congrArg (· + 1) h.generation_eq).trans hU'.generation_eq.symm)
  have hK : U.K.SameLower V.K := hassembledU.sameLower hfits hblocks hG hH hassembledV
  have hcopy : P.settings.refine = true → U.copy.SameLower V.copy := by
    intro hrefine
    rw [hcopyU hrefine, hcopyV hrefine]
    exact hK
  obtain ⟨reply, reply', hreply, hreply', hanswers, hlower, hrecord, hsplits⟩ :=
    Ldl.exists_factorGrid_sameLower hK U.record
  have hfactored : Ldl.factorGrid V.K V.record = .ok reply' :=
    (Ldl.factorGrid_eq V.K V.record U.record).trans hreply'
  -- the two ends of a factorization differ in the status
  have hsame : ∀ {status status' : Status}, status' = status →
      SameLower (g := g) { U with K := reply.state.1, record := reply.state.2, status := status }
        { V with K := reply'.state.1, record := reply'.state.2, status := status' } := by
    intro status status' hstatus
    exact {
      id_eq := hid
      generation_eq := hgeneration
      status_eq := hstatus
      grid := hlower
      record_eq := hrecord
      copy := hcopy
      splits := fun _ => hsplits
      room := horderU ▸ h.room
      room' := horderV ▸ h.room' }
  cases hanswer : reply.answer with
  | error e =>
    exact ⟨_, _, factor_of_zeroPivot hchecked hU hreply hanswer,
      factor_of_zeroPivot hchecked' hV hfactored (hanswers.trans hanswer), rfl,
      hsame (hV'.status_eq.trans hU'.status_eq.symm)⟩
  | ok u =>
    obtain ⟨found, hfound⟩ := Ldl.exists_inertia reply.state.1 hsplits
    have hfound' : Ldl.inertia (.ofGrid reply'.state.1) reply'.state.2 = .ok found := by
      rw [hrecord, ← Ldl.inertia_eq_of_sameLower hlower hsplits, hfound]
    refine ⟨_, _, factor_of_factored hchecked hU hreply hanswer hfound,
      factor_of_factored hchecked' hV hfactored (hanswers.trans hanswer) hfound', ?_, hsame rfl⟩
    rw [hid, hgeneration]

/-! ### The inertia -/

/-- The inertia is the same. -/
theorem SameLower.inertia_eq {S : Solver P} {T : Solver (P.withConic g)} (h : SameLower S T) :
    T.inertia = S.inertia := by
  unfold inertia isFactored
  rw [h.status_eq, h.record_eq]
  cases hstatus : S.status with
  | unfactored => rfl
  | failed => rfl
  | factored =>
    have hinertia := Ldl.inertia_eq_of_sameLower h.grid (h.splits hstatus)
    exact congrArg (some <$> ·) hinertia.symm

end Solver

/-! ### Refinement -/

/-- The same system, given by the same lower triangles. -/
structure Refinement.SameLower {n : ℕ} (R R' : Refinement n α) : Prop where
  factors : R.factors.SameLower R'.factors
  record_eq : R'.record = R.record
  matrix : R.matrix.SameLower R'.matrix
  rhs_eq : R'.rhs = R.rhs
  reltol_eq : R'.reltol = R.reltol
  abstol_eq : R'.abstol = R.abstol
  stopRatio_eq : R'.stopRatio = R.stopRatio

namespace Refinement.SameLower

variable {n : ℕ} {R R' : Refinement n α} (h : R.SameLower R')
include h

theorem residualOf_eq (x : Vector α n) : R'.residualOf x = R.residualOf x := by
  unfold residualOf
  rw [Matrix.symv_eq_ok, Matrix.symv_eq_ok, h.rhs_eq]
  simp only [h.matrix.symm_eq]

theorem tolerance_eq : R'.tolerance = R.tolerance := by
  unfold tolerance
  rw [h.abstol_eq, h.reltol_eq, h.rhs_eq]

/-- Refinement takes the same steps.  The induction is on the steps that are left. -/
theorem steps_eq (hsplits : R.record.Splits 0) (left done : ℕ) (t : Trial n α) :
    R'.steps left done t = R.steps left done t := by
  induction left generalizing done t with
  | zero => rfl
  | succ left ih =>
    simp only [steps, h.tolerance_eq, h.residualOf_eq, h.record_eq, h.stopRatio_eq,
      ← Ldl.solveGrid_eq_of_sameLower h.factors hsplits, ih]

theorem run_eq (hsplits : R.record.Splits 0) (maxSteps : ℕ) (x candidate : Vector α n) :
    R'.run maxSteps x candidate = R.run maxSteps x candidate := by
  simp only [run, h.residualOf_eq, h.steps_eq hsplits]

end Refinement.SameLower

/-! ### Solving -/

/-- The right hand sides agree but for strict upper triangles. -/
structure Rhs.SameVisible (blocks : List ConeBlock) (rhs rhs' : Rhs α) : Prop where
  x_eq : rhs'.x = rhs.x
  y_eq : rhs'.y = rhs.y
  size_eq : rhs'.z.size = rhs.z.size
  visible : ConicSaddle.SameVisible blocks (entries rhs.z) (entries rhs'.z)

/-- The lengths are the same. -/
theorem Problem.checkRhs_withConic {blocks : List ConeBlock} {rhs rhs' : Rhs α}
    (h : rhs.SameVisible blocks rhs') : (P.withConic g).checkRhs rhs' = P.checkRhs rhs := by
  show P.checkRhs rhs' = P.checkRhs rhs
  unfold checkRhs
  rw [h.x_eq, h.y_eq, h.size_eq]

namespace Solver

variable {S : Solver P} {T : Solver (P.withConic g)} {rhs rhs' : Rhs α}

omit [Scalar α] in
/-- A handle is judged alike. -/
theorem SameLower.checkHandle_eq (h : SameLower S T) (handle : Handle α) :
    T.checkHandle handle = S.checkHandle handle := by
  unfold checkHandle
  rw [h.id_eq, h.generation_eq, h.status_eq]

/-- Right hand sides that agree but for strict upper triangles are loaded alike. -/
theorem exists_load_sameLower [ZeroRule α] (hW : W.checkDims P.dims P.mnl = .ok ())
    (hrhs : P.checkRhs rhs = .ok ()) (same : rhs.SameVisible (P.dims.layout P.mnl) rhs')
    (hS : P.dims.maxOrder ≤ S.workspace.order) (hT : P.dims.maxOrder ≤ T.workspace.order) :
    ∃ U V, S.load W rhs = .ok ⟨.ok (), U⟩ ∧ T.load W rhs' = .ok ⟨.ok (), V⟩ ∧ V.u = U.u := by
  obtain ⟨blocks, hblocks⟩ := exists_blocks hW
  have hfits := Scaling.fits_of_checkDims hW
  have hrhs' : (P.withConic g).checkRhs rhs' = .ok () :=
    (Problem.checkRhs_withConic same).trans hrhs
  obtain ⟨U, hU, hxU, hyU, hzU⟩ := exists_load hW hblocks hrhs S hS
  obtain ⟨V, hV, hxV, hyV, hzV⟩ := exists_load (P := P.withConic g) hW hblocks hrhs' T hT
  refine ⟨U, V, hU, hV, Eq.symm (ext_parts ?_ ?_ ?_)⟩
  · intro i hi
    rw [hxU i hi, ← same.x_eq]
    exact (hxV i hi).symm
  · intro i hi
    rw [hyU i hi, ← same.y_eq]
    exact (hyV i hi).symm
  · exact (hzU.of_visible hfits hblocks same.visible).unique hfits hblocks hzV

/-- The packed system has the same solution. -/
theorem SameLower.packedSolution_eq (h : SameLower S T) (hsplits : S.record.Splits 0)
    (hu : T.u = S.u) : T.packedSolution = S.packedSolution := by
  obtain ⟨u, hu'⟩ := Ldl.exists_solves (A := S.K) hsplits S.u
  have hsolved := Ldl.solveGrid_of_solves hu'
  have hsolved' : Ldl.solveGrid T.K T.record T.u = .ok u := by
    rw [h.record_eq, hu]
    exact (Ldl.solveGrid_eq_of_sameLower h.grid hsplits S.u).symm.trans hsolved
  by_cases hrefine : P.settings.refine = true
  · have hR : ({ S with u := u, b := S.u } : Solver P).refinement.SameLower
        ({ T with u := u, b := T.u } : Solver (P.withConic g)).refinement := {
      factors := h.grid
      record_eq := h.record_eq
      matrix := h.copy hrefine
      rhs_eq := hu
      reltol_eq := rfl
      abstol_eq := rfl
      stopRatio_eq := rfl }
    have hrefined := packedSolution_refined (P := P.withConic g) hrefine hsolved'
    refine hrefined.trans (Eq.trans ?_ (packedSolution_refined hrefine hsolved).symm)
    -- the candidates that the runs start from do not matter
    exact (congrArg (Refinement.Result.verdict <$> ·) (hR.run_eq hsplits _ u T.candidate)).trans
      (Refinement.run_eq _ _ u T.candidate S.candidate)
  · rw [packedSolution_unrefined hrefine hsolved]
    exact packedSolution_unrefined (P := P.withConic g) hrefine hsolved'

/-- A solution is unpacked alike. -/
theorem exists_unload_sameLower {U : Solver P} {V : Solver (P.withConic g)} (hu : V.u = U.u)
    (hrhs : P.checkRhs rhs = .ok ()) (hrhs' : P.checkRhs rhs' = .ok ()) :
    ∃ found, U.unload rhs = .ok ⟨.ok (), found⟩ ∧ V.unload rhs' = .ok ⟨.ok (), found⟩ := by
  obtain ⟨⟨x, y, z⟩, hU, ⟨hxsize, hx⟩, ⟨hysize, hy⟩, hzsize, hz⟩ := exists_unload U hrhs
  obtain ⟨⟨x', y', z'⟩, hV, ⟨hxsize', hx'⟩, ⟨hysize', hy'⟩, hzsize', hz'⟩ :=
    exists_unload (P := P.withConic g) V hrhs'
  rw [hu] at hx' hy' hz'
  have hxeq : x' = x := Vec.ext_array (hxsize'.trans hxsize.symm) fun i hi => by
    have hlt : i < P.vars := hxsize' ▸ hi
    exact (hx' i hlt).trans (hx i hlt).symm
  have hyeq : y' = y := Vec.ext_array (hysize'.trans hysize.symm) fun i hi => by
    have hlt : i < P.eqs := hysize' ▸ hi
    exact (hy' i hlt).trans (hy i hlt).symm
  have hzeq : z' = z := Vec.ext_array (hzsize'.trans hzsize.symm) fun i hi => by
    have hlt : i < P.rows := hzsize' ▸ hi
    exact (hz' i hlt).trans (hz i hlt).symm
  subst hxeq hyeq hzeq
  exact ⟨_, hU, hV⟩

omit [Scalar α] in
/-- Solvers stay the same in the lower triangles while their factors stay. -/
theorem SameLower.of_same {S' : Solver P} {T' : Solver (P.withConic g)} (h : SameLower S T)
    (same : SameFactors S S') (same' : SameFactors T T') (id_eq : T'.id = S'.id)
    (generation_eq : T'.generation = S'.generation) (status_eq : T'.status = S'.status)
    (factored : S'.status = .factored → S.status = .factored)
    (room : P.dims.maxOrder ≤ S'.workspace.order)
    (room' : P.dims.maxOrder ≤ T'.workspace.order) : SameLower S' T' where
  id_eq := id_eq
  generation_eq := generation_eq
  status_eq := status_eq
  grid := by
    rw [same.K_eq, same'.K_eq]
    exact h.grid
  record_eq := same'.record_eq.trans (h.record_eq.trans same.record_eq.symm)
  copy hrefine := by
    rw [same.copy_eq, same'.copy_eq]
    exact h.copy hrefine
  splits hstatus := by
    rw [same.record_eq]
    exact h.splits (factored hstatus)
  room := room
  room' := room'

/-- Two solves that answer alike leave factors with the same lower triangle. -/
theorem SameLower.of_solve (h : SameLower S T) {handle : Handle α}
    {out : Outcome Unit (Solver P × Rhs α)} {out' : Outcome Unit (Solver (P.withConic g) × Rhs α)}
    (done : S.solve handle rhs = .ok out) (done' : T.solve handle rhs' = .ok out')
    (answers : out'.answer = out.answer) : SameLower out.state.1 out'.state.1 := by
  obtain ⟨hid, hgeneration, hsame, hstatus⟩ := solve_keeps done
  obtain ⟨hid', hgeneration', hsame', hstatus'⟩ := solve_keeps done'
  have hstatuses : out'.state.1.status = out.state.1.status ∧
      (out.state.1.status = .factored → S.status = .factored) := by
    rw [answers] at hstatus'
    rcases hstatus with ⟨hanswer, hfailed⟩ | ⟨hanswer, hkept⟩
    · rcases hstatus' with ⟨-, hfailed'⟩ | ⟨hne, -⟩
      · rw [hfailed, hfailed']
        exact ⟨rfl, nofun⟩
      · exact absurd hanswer hne
    · rcases hstatus' with ⟨heq, -⟩ | ⟨-, hkept'⟩
      · exact absurd heq hanswer
      · rw [hkept, hkept', h.status_eq]
        exact ⟨rfl, fun h => h⟩
  exact h.of_same hsame hsame' (hid'.trans (h.id_eq.trans hid.symm))
    (hgeneration'.trans (h.generation_eq.trans hgeneration.symm)) hstatuses.1 hstatuses.2
    ((solve_order h.room done).symm ▸ h.room)
    ((solve_order (P := P.withConic g) h.room' done').symm ▸ h.room')

/-- A solve answers alike and has the same solution. -/
theorem SameLower.exists_solve [ZeroRule α] (h : SameLower S T) (handle : Handle α)
    (same : rhs.SameVisible (P.dims.layout P.mnl) rhs') :
    ∃ out out', S.solve handle rhs = .ok out ∧ T.solve handle rhs' = .ok out' ∧
      out'.answer = out.answer ∧ (out.answer = .ok () → out'.state.2 = out.state.2) := by
  have hchecks := h.checkHandle_eq handle
  have hlengths : (P.withConic g).checkRhs rhs' = P.checkRhs rhs :=
    Problem.checkRhs_withConic same
  cases hcheck : S.checkHandle handle with
  | error rejection =>
    obtain ⟨e, events⟩ := rejection
    exact ⟨_, _, solve_of_rejected hcheck rhs, solve_of_rejected (hchecks.trans hcheck) rhs', rfl,
      nofun⟩
  | ok u =>
  have hcheck' := hchecks.trans hcheck
  cases hrhs : P.checkRhs rhs with
  | error e =>
    exact ⟨_, _, solve_of_wrongLength hcheck hrhs,
      solve_of_wrongLength hcheck' (hlengths.trans hrhs), rfl, nofun⟩
  | ok u =>
  have hrhs' := hlengths.trans hrhs
  cases hW : handle.scaling.checkDims P.dims P.mnl with
  | error e =>
    obtain ⟨U, hU⟩ := load_of_refused (S := S) hrhs hW
    obtain ⟨V, hV⟩ := load_of_refused (S := T) hrhs' hW
    exact ⟨_, _, solve_of_unscaled hcheck hrhs hU, solve_of_unscaled hcheck' hrhs' hV, rfl, nofun⟩
  | ok u =>
  obtain ⟨U, V, hU, hV, hu⟩ := exists_load_sameLower hW hrhs same h.room h.room'
  obtain ⟨hstandingU, hsameU⟩ := load_keeps hU
  obtain ⟨hstandingV, hsameV⟩ := load_keeps hV
  have hloaded : SameLower U V := h.of_same hsameU hsameV
    (hstandingV.id_eq.trans (h.id_eq.trans hstandingU.id_eq.symm))
    (hstandingV.generation_eq.trans (h.generation_eq.trans hstandingU.generation_eq.symm))
    (hstandingV.status_eq.trans (h.status_eq.trans hstandingU.status_eq.symm))
    (fun hstatus => hstandingU.status_eq.symm.trans hstatus)
    ((load_order h.room hU).symm ▸ h.room)
    ((load_order (P := P.withConic g) h.room' hV).symm ▸ h.room')
  have hsplits : U.record.Splits 0 :=
    hloaded.splits (hstandingU.status_eq.trans (status_of_accepted hcheck))
  obtain ⟨⟨accepted, U', events⟩, hU'⟩ := exists_solvePacked hsplits
  have hpacked : V.packedSolution = .ok (accepted, U'.u) := by
    refine (hloaded.packedSolution_eq hsplits hu).trans ?_
    unfold packedSolution
    rw [hU']
    rfl
  obtain ⟨⟨accepted', V', events'⟩, hV', hfound⟩ := Checked.map_eq_ok.mp hpacked
  obtain ⟨rfl, hu'⟩ : accepted' = accepted ∧ V'.u = U'.u := Prod.mk.inj hfound
  cases accepted' with
  | false =>
    exact ⟨_, _, solve_of_nonFinite hcheck hrhs hU hU', solve_of_nonFinite hcheck' hrhs' hV hV',
      rfl, nofun⟩
  | true =>
    obtain ⟨found, hunloadU, hunloadV⟩ := exists_unload_sameLower hu' hrhs hrhs'
    exact ⟨_, _, solve_of_solved hcheck hrhs hU hU' hunloadU,
      solve_of_solved hcheck' hrhs' hV hV' hunloadV, rfl, fun _ => rfl⟩

/-- The semidefinite blocks of a solution are symmetric. -/
theorem symmetric_of_solve {handle : Handle α}
    {out : Outcome Unit (Solver P × Rhs α)} (done : S.solve handle rhs = .ok out)
    (solved : out.answer = .ok ()) :
    out.state.2.z.size = P.rows ∧
      SymmetricBlocks P.dims.s (shift (P.mnl + P.dims.linearSize) (entries out.state.2.z)) := by
  cases solveEnd_of_solve done with
  | rejected => cases solved
  | wrongLength => cases solved
  | unscaled => cases solved
  | nonFinite => cases solved
  | @unloaded T U events reply _ hrhs _ _ hunload =>
    obtain ⟨found, hunload', -, -, hsize, hz⟩ := exists_unload U hrhs
    cases hunload'.symm.trans hunload
    refine ⟨hsize, SymmetricBlocks.congr (symmetricBlocks_unpackedVector P.dims P.mnl
      (shift (P.vars + P.eqs) (entries U.u.toArray))) fun i hi => (hz _ ?_).symm⟩
    have hrows : P.rows = P.mnl + P.dims.unpackedSize :=
      congrArg (P.mnl + ·) (ConeDims.numelUnpacked_eq_ok P.numelUnpacked_eq)
    have htotal : i < total P.dims.s fun k => k * k := by rwa [ConeDims.total_map] at hi
    rw [hrows, P.dims.unpackedSize_eq]
    omega

end Solver

end ConicSaddle
