import ConicSaddle.Proofs.Kkt.Calls
import ConicSaddle.Proofs.Scaling.Workspace

/-!
# Solvers that cannot be told apart

Two solvers of one problem that hold the same factors answer alike, whatever else earlier calls left
in them, and a factorization leaves the same factors in every solver of the problem.  Only numbers
and generations differ.

* `Refinement.run_eq`: refinement does not look at the old candidate;
* `Solver.Alike`: the fields that a later call looks at are the same;
* `Solver.exists_assemble_alike`, `Solver.exists_factor_alike`, `Solver.exists_load_alike`:
  assembling, factoring and reading a right hand side with any two solvers of a problem;
* `Solver.packedSolution_alike`, `Solver.solve_alike`: solving with two that are alike.
-/

namespace ConicSaddle

open ConeDims (total)
open Vec (entries)

variable {α : Type} [Scalar α]

/-! ### The old candidate -/

namespace Refinement

variable {n : ℕ} (R : Refinement n α)

/-- What is asked of a result: whether it is accepted, and the solution. -/
def Result.verdict (result : Result n α) : Bool × Vector α n :=
  (result.accepted, result.trial.solution)

/-- The steps replace the candidate before they look at it. -/
theorem steps_eq (left done : ℕ) (x r c c' : Vector α n) (norm : α) :
    Result.verdict <$> R.steps left done ⟨x, r, c, norm⟩ =
      Result.verdict <$> R.steps left done ⟨x, r, c', norm⟩ := by
  cases left with
  | zero => rfl
  | succ left =>
    simp only [steps]
    split
    · rfl
    · split
      · rfl
      · rfl

theorem run_eq (maxSteps : ℕ) (x c c' : Vector α n) :
    Result.verdict <$> R.run maxSteps x c = Result.verdict <$> R.run maxSteps x c' := by
  simp only [run, map_bind, steps_eq R maxSteps 0 x _ c c']

end Refinement

namespace Solver

variable {P : Problem α} {W : Scaling α} {H Df : Option (Matrix α)}

/-! ### Assembling -/

/-- The packed image of a sequence under `W⁻ᵀ` is determined by the sequence. -/
theorem Reduces.unique [ZeroRule α] {blocks : List (ScalingBlock α)}
    (hfits : W.Fits P.dims P.mnl) (hblocks : W.blocks = .ok blocks) {x v v' : ℕ → α}
    (h : Reduces P blocks x v) (h' : Reduces P blocks x v') : AgreeTo P.coneRows v v' := by
  obtain ⟨y, hy, hv⟩ := h
  obtain ⟨y', hy', hv'⟩ := h'
  have heq := hy.unique (fun _ _ _ _ _ h h' => h.unique h') hy'
  have hpacked : AgreeTo P.coneRows (packedVector P.dims P.mnl y)
      (packedVector P.dims P.mnl y') := by
    rw [hfits.packedVector_eq_blockwise hblocks, hfits.packedVector_eq_blockwise hblocks,
      ← total_packedSize hfits hblocks]
    refine blockwise_congr (fun block _ x x' hx => ?_) heq
    rw [← ScalingBlock.unpackedSize_cone] at hx
    exact ConeBlock.isLocal_packed block.cone x x' hx
  intro t ht
  rw [hv t ht, hv' t ht, hpacked t ht]

/-- A column of the constraints becomes the same with any workspace. -/
theorem ConeColumn.unique [ZeroRule α] {work work' : Workspace α} {k : ℕ}
    {column column' : Vector α P.coneRows} (hW : W.checkDims P.dims P.mnl = .ok ())
    (hwork : P.dims.maxOrder ≤ work.order) (hwork' : P.dims.maxOrder ≤ work'.order)
    (h : ConeColumn P W Df work k column) (h' : ConeColumn P W Df work' k column') :
    column = column' := by
  obtain ⟨blocks, hblocks⟩ := exists_blocks hW
  exact Vec.ext_entries ((h.reduces hW hblocks hwork).unique (Scaling.fits_of_checkDims hW) hblocks
    (h'.reduces hW hblocks hwork'))

/-- The matrix that a factorization assembles. -/
def assembled (S : Solver P) (W : Scaling α) (H Df : Option (Matrix α)) :
    Checked (Grid P.order P.order α) :=
  (fun reply => reply.state.K) <$> S.assemble W H Df

/-- Any two solvers assemble the same matrix. -/
theorem exists_assemble_alike [ZeroRule α] (h : P.Accepts W H Df) {S T : Solver P}
    (hS : P.dims.maxOrder ≤ S.workspace.order) (hT : P.dims.maxOrder ≤ T.workspace.order) :
    ∃ U V, S.assemble W H Df = .ok ⟨.ok (), U⟩ ∧ T.assemble W H Df = .ok ⟨.ok (), V⟩ ∧
      U.K = V.K ∧ (P.settings.refine = true → U.copy = V.copy) := by
  obtain ⟨blocks, hblocks⟩ := exists_blocks h.scaling
  obtain ⟨K, hK, -⟩ := exists_openGrid h
  obtain ⟨U, hU, -, hcolumnsU, hsameU⟩ := exists_assembleColumns h hblocks
    (List.finRange P.vars) (List.nodup_finRange _) { S with K := K } hS
  obtain ⟨V, hV, -, hcolumnsV, hsameV⟩ := exists_assembleColumns h hblocks
    (List.finRange P.vars) (List.nodup_finRange _) { T with K := K } hT
  -- what the columns of the variables write is determined, and the rest comes from the opening
  have heq : U.K = V.K := by
    refine Grid.ext_get fun i j => ?_
    by_cases hwritten : P.vars + P.eqs ≤ i.val ∧ j.val < P.vars
    · let k : Fin P.vars := ⟨j.val, hwritten.2⟩
      have hrow : i.val - (P.vars + P.eqs) < P.coneRows := by
        have hi := i.isLt
        have horder : P.order = P.vars + P.eqs + P.coneRows := rfl
        omega
      obtain ⟨work, column, hwork, hcolumn, hheld⟩ := hcolumnsU k (List.mem_finRange k)
      obtain ⟨work', column', hwork', hcolumn', hheld'⟩ := hcolumnsV k (List.mem_finRange k)
      obtain rfl := hcolumn.unique h.scaling hwork hwork' hcolumn'
      have hk := (hheld _ hrow).trans (hheld' _ hrow).symm
      rw [← Grid.at_val, ← Grid.at_val]
      simpa only [Nat.add_sub_cancel' hwritten.1] using hk
    · have hkept : i.val < P.vars + P.eqs ∨ ∀ c ∈ List.finRange P.vars, j.val ≠ c.val := by
        rcases Nat.lt_or_ge i.val (P.vars + P.eqs) with hi | hi
        · exact .inl hi
        · refine .inr fun c _ heq => hwritten ⟨hi, ?_⟩
          rw [heq]
          exact c.isLt
      rw [hsameU i j hkept, hsameV i j hkept]
  obtain ⟨K', hK', -⟩ := exists_closeGrid U.K
  refine ⟨{ U with K := K', copy := if P.settings.refine then K' else U.copy },
    { V with K := K', copy := if P.settings.refine then K' else V.copy }, ?_, ?_, rfl, ?_⟩
  · simp only [assemble_eq, hK, hU, hK', Checked.ok_bind, Checked.pure_eq_ok]
  · rw [heq] at hK'
    simp only [assemble_eq, hK, hV, hK', Checked.ok_bind, Checked.pure_eq_ok]
  · intro hrefine
    simp only [if_pos hrefine]

/-! ### Factoring -/

/-- What a later call looks at is the same in both solvers. -/
structure Alike (S T : Solver P) : Prop where
  K_eq : S.K = T.K
  record_eq : S.record = T.record
  status_eq : S.status = T.status
  copy_eq : P.settings.refine = true → S.copy = T.copy

omit [Scalar α] in
/-- Solvers stay alike while their factors and their status stay. -/
theorem Alike.of_same {S T S' T' : Solver P} (h : Alike S T) (same : SameFactors S S')
    (same' : SameFactors T T') (status : S'.status = S.status) (status' : T'.status = T.status) :
    Alike S' T' where
  K_eq := same.K_eq.trans (h.K_eq.trans same'.K_eq.symm)
  record_eq := same.record_eq.trans (h.record_eq.trans same'.record_eq.symm)
  status_eq := status.trans (h.status_eq.trans status'.symm)
  copy_eq hrefine := same.copy_eq.trans ((h.copy_eq hrefine).trans same'.copy_eq.symm)

/-- Solvers that are alike have the same inertia. -/
theorem Alike.inertia_eq {S T : Solver P} (h : Alike S T) : S.inertia = T.inertia := by
  rw [inertia, inertia, isFactored, isFactored, h.K_eq, h.record_eq, h.status_eq]

/-- A factorization makes any two solvers alike and answers them alike, each with a handle of its
own. -/
theorem exists_factor_alike [ZeroRule α] (h : P.checkInputs W H Df = .ok ()) {S T : Solver P}
    (hS : P.dims.maxOrder ≤ S.workspace.order) (hT : P.dims.maxOrder ≤ T.workspace.order)
    {out : Outcome (Handle α) (Solver P)} (done : S.factor W H Df = .ok out) :
    ∃ out', T.factor W H Df = .ok out' ∧ Alike out.state out'.state ∧
      out'.answer = out.answer.map fun handle => ⟨T.id, T.generation + 1, handle.scaling⟩ := by
  obtain ⟨U, V, hU, hV, hK, hcopy⟩ :=
    exists_assemble_alike (Problem.accepts_of_checkInputs h)
      (S := S.restarted) (T := T.restarted) hS hT
  have hstandingU := assemble_standing hU
  have hstandingV := assemble_standing hV
  have hfactors : Ldl.factorGrid U.K U.record = Ldl.factorGrid V.K V.record := by
    rw [hK]
    exact Ldl.factorGrid_eq V.K U.record V.record
  cases factorEnd_of_factor done with
  | refused refused => cases h.symm.trans refused
  | unassembled _ assembled => cases hU.symm.trans assembled
  | zeroPivot _ assembled factored answer =>
    cases hU.symm.trans assembled
    rw [hfactors] at factored
    exact ⟨_, factor_of_zeroPivot h hV factored answer,
      ⟨rfl, rfl, hstandingU.status_eq.trans hstandingV.status_eq.symm, hcopy⟩, rfl⟩
  | factored _ assembled factored answer inertia =>
    cases hU.symm.trans assembled
    rw [hfactors] at factored
    refine ⟨_, factor_of_factored h hV factored answer inertia, ⟨rfl, rfl, rfl, hcopy⟩, ?_⟩
    show Except.ok (Handle.mk V.id V.generation W) = _
    rw [hstandingV.id_eq, hstandingV.generation_eq]
    rfl

/-! ### Solving -/

/-- A vector of the packed system is known by its three parts. -/
theorem ext_parts {u v : Vector α P.order}
    (hx : ∀ i < P.vars, entries u.toArray i = entries v.toArray i)
    (hy : ∀ i < P.eqs, entries u.toArray (P.vars + i) = entries v.toArray (P.vars + i))
    (hz : AgreeTo P.coneRows (shift (P.vars + P.eqs) (entries u.toArray))
      (shift (P.vars + P.eqs) (entries v.toArray))) : u = v := by
  have horder : P.order = P.vars + P.eqs + P.coneRows := rfl
  refine Vec.ext_entries fun i hi => ?_
  rcases Nat.lt_or_ge i P.vars with hlt | hle
  · exact hx i hlt
  obtain ⟨j, rfl⟩ := Nat.exists_eq_add_of_le hle
  rcases Nat.lt_or_ge j P.eqs with hlt | hle'
  · exact hy j hlt
  obtain ⟨l, rfl⟩ := Nat.exists_eq_add_of_le hle'
  rw [← Nat.add_assoc]
  exact hz l (by omega)

/-- A right hand side reads the same in any two solvers once it is scaled and packed. -/
theorem exists_load_alike [ZeroRule α] (hW : W.checkDims P.dims P.mnl = .ok ()) {rhs : Rhs α}
    (hrhs : P.checkRhs rhs = .ok ()) {S T : Solver P} (hS : P.dims.maxOrder ≤ S.workspace.order)
    (hT : P.dims.maxOrder ≤ T.workspace.order) :
    ∃ U V, S.load W rhs = .ok ⟨.ok (), U⟩ ∧ T.load W rhs = .ok ⟨.ok (), V⟩ ∧ U.u = V.u := by
  obtain ⟨blocks, hblocks⟩ := exists_blocks hW
  obtain ⟨U, hU, hxU, hyU, hzU⟩ := exists_load hW hblocks hrhs S hS
  obtain ⟨V, hV, hxV, hyV, hzV⟩ := exists_load hW hblocks hrhs T hT
  refine ⟨U, V, hU, hV, ext_parts ?_ ?_ ?_⟩
  · intro i hi
    rw [hxU i hi, hxV i hi]
  · intro i hi
    rw [hyU i hi, hyV i hi]
  · exact hzU.unique (Scaling.fits_of_checkDims hW) hblocks hzV

/-- Whether the solution of the packed system is accepted, and the solution. -/
def packedSolution (S : Solver P) : Checked (Bool × Vector α P.order) :=
  (fun found => (found.1, found.2.1.u)) <$> S.solvePacked

/-- With refinement it is the verdict of the refinement. -/
theorem packedSolution_refined {S : Solver P} (refined : P.settings.refine = true)
    {u : Vector α P.order} (solved : Ldl.solveGrid S.K S.record S.u = .ok u) :
    S.packedSolution = Refinement.Result.verdict <$>
      ({ S with u := u, b := S.u } : Solver P).refinement.run P.settings.maxSteps u
        S.candidate := by
  unfold packedSolution solvePacked
  simp only [solved, if_pos refined, Checked.ok_bind, map_bind]
  rfl

/-- Without refinement it is the solution for the factors, judged if it is to be judged. -/
theorem packedSolution_unrefined {S : Solver P} (unrefined : ¬P.settings.refine = true)
    {u : Vector α P.order} (solved : Ldl.solveGrid S.K S.record S.u = .ok u) :
    S.packedSolution = .ok (!P.settings.checkFinite || Vec.isFinite u.toArray, u) := by
  unfold packedSolution solvePacked
  simp only [solved, if_neg unrefined, Checked.ok_bind]
  rfl

/-- The packed system has the same solution in solvers that are alike, whatever is left of earlier
refinements. -/
theorem packedSolution_alike {S T : Solver P} (h : Alike S T) (hu : S.u = T.u) :
    S.packedSolution = T.packedSolution := by
  have hsolves : Ldl.solveGrid S.K S.record S.u = Ldl.solveGrid T.K T.record T.u := by
    rw [h.K_eq, h.record_eq, hu]
  cases hsolved : Ldl.solveGrid T.K T.record T.u with
  | error fault =>
    unfold packedSolution solvePacked
    rw [hsolves, hsolved]
    rfl
  | ok u =>
    rw [hsolved] at hsolves
    by_cases hrefine : P.settings.refine = true
    · have hR : ({ S with u := u, b := S.u } : Solver P).refinement =
          ({ T with u := u, b := T.u } : Solver P).refinement := by
        simp only [refinement, h.K_eq, h.record_eq, h.copy_eq hrefine, hu]
      rw [packedSolution_refined hrefine hsolves, packedSolution_refined hrefine hsolved, hR,
        Refinement.run_eq]
    · rw [packedSolution_unrefined hrefine hsolves, packedSolution_unrefined hrefine hsolved]

end Solver

/-- What a solve shows its user: the answer, and the right hand side or what replaced it. -/
def Outcome.shown {ρ σ τ : Type} (out : Outcome ρ (σ × τ)) : Except KktError ρ × τ :=
  (out.answer, out.state.2)

namespace Solver

variable {P : Problem α}

/-- Solvers that are alike answer alike. -/
theorem solve_alike [ZeroRule α] {S T : Solver P} (h : Alike S T)
    (hS : P.dims.maxOrder ≤ S.workspace.order) (hT : P.dims.maxOrder ≤ T.workspace.order)
    {handle handle' : Handle α} (hscaling : handle'.scaling = handle.scaling)
    (hW : handle.scaling.checkDims P.dims P.mnl = .ok ())
    (accepted : S.checkHandle handle = .ok ()) (accepted' : T.checkHandle handle' = .ok ())
    {rhs : Rhs α} (hrhs : P.checkRhs rhs = .ok ()) :
    Outcome.shown <$> S.solve handle rhs = Outcome.shown <$> T.solve handle' rhs := by
  obtain ⟨U, V, hU, hV, hu⟩ := exists_load_alike hW hrhs hS hT
  obtain ⟨hstandingU, hsameU⟩ := load_keeps hU
  obtain ⟨hstandingV, hsameV⟩ := load_keeps hV
  have hpacked := packedSolution_alike
    (h.of_same hsameU hsameV hstandingU.status_eq hstandingV.status_eq) hu
  simp only [solve, accepted, accepted', hrhs, hscaling, hU, hV, Checked.ok_bind]
  obtain ⟨fault, hS, hT⟩ | ⟨⟨verdict, S', events⟩, ⟨verdict', T', events'⟩, hS, hT, hfound⟩ :=
    Checked.alike_of_map_eq hpacked
  · rw [hS, hT]
    rfl
  · obtain ⟨rfl, hu'⟩ : verdict = verdict' ∧ S'.u = T'.u := Prod.mk.inj hfound
    rw [hS, hT, Checked.ok_bind, Checked.ok_bind]
    cases verdict with
    | false => rfl
    | true =>
      have hunload : S'.unload rhs = T'.unload rhs := by rw [unload, unload, hu']
      simp only [if_true, hunload, map_bind]
      rfl

end Solver

end ConicSaddle
