import ConicSaddle.Proofs.Kkt.Assembly
import ConicSaddle.Proofs.Kkt.Protocol
import ConicSaddle.Proofs.Ldl.Inertia
import ConicSaddle.Proofs.Ldl.Substitution

/-!
# Calls that end

What the calls of a solver do once the sizes have been checked, in any arithmetic that keeps a
pivot of order two out of the last column.

* `Run.workspace`: the workspace of a solver in a run is large enough;
* `exists_factor`: a factorization assembles the matrix and sweeps over its columns;
* `exists_load`, `exists_unload`: the right hand side on its way in, and the solution on its way
  out.
-/

namespace ConicSaddle

open ConeDims (total)
open Vec (entries)

variable {α : Type} [Scalar α] {P : Problem α} {W : Scaling α} {H Df : Option (Matrix α)}
  {blocks : List (ScalingBlock α)}

namespace Solver

/-! ### The workspace -/

omit [Scalar α] in
theorem exists_blocks (hW : W.checkDims P.dims P.mnl = .ok ()) :
    ∃ blocks, W.blocks = .ok blocks :=
  (Scaling.fits_of_checkDims hW).exists_blocks_eq_ok

/-- Scaling gives a workspace back with the order that it was made for. -/
theorem scale_order {mode : ScalingMode} {x : Vector α P.rows} {work : Workspace α}
    (hwork : P.dims.maxOrder ≤ work.order)
    {reply : Reply DimensionError Unit (Vector α P.rows × Workspace α)}
    (done : W.scale x P.dims P.mnl mode work = .ok reply) : reply.state.2.order = work.order := by
  cases hW : W.checkDims P.dims P.mnl with
  | error e =>
    unfold Scaling.scale at done
    rw [hW] at done
    cases done
    rfl
  | ok u =>
    obtain ⟨blocks, hblocks⟩ := exists_blocks hW
    obtain ⟨y, work', hscale, horder, -⟩ := W.exists_scale hW hblocks P.numelUnpacked_eq rfl
      P.rows_fit mode x work hwork
    cases hscale.symm.trans done
    exact horder

theorem assemble_order {S : Solver P} {reply : Reply DimensionError Unit (Solver P)}
    (hwork : P.dims.maxOrder ≤ S.workspace.order) (done : S.assemble W H Df = .ok reply) :
    reply.state.workspace.order = S.workspace.order := by
  refine assemble_invariant (I := fun T => T.workspace.order = S.workspace.order) ?_ ?_ rfl done
  · intro T g scaled h hscaled
    exact (scale_order (h ▸ hwork) hscaled).trans h
  · intro T K copy h
    exact h

/-- A factorization keeps the order of the workspace. -/
theorem factor_order {S : Solver P} {out : Outcome (Handle α) (Solver P)}
    (hwork : P.dims.maxOrder ≤ S.workspace.order) (done : S.factor W H Df = .ok out) :
    out.state.workspace.order = S.workspace.order := by
  cases factorEnd_of_factor done with
  | refused => rfl
  | unassembled _ assembled => exact assemble_order (S := S.restarted) hwork assembled
  | zeroPivot _ assembled _ _ => exact assemble_order (S := S.restarted) hwork assembled
  | factored _ assembled _ _ _ => exact assemble_order (S := S.restarted) hwork assembled

theorem load_order {S : Solver P} {rhs : Rhs α} {reply : Reply DimensionError Unit (Solver P)}
    (hwork : P.dims.maxOrder ≤ S.workspace.order) (done : S.load W rhs = .ok reply) :
    reply.state.workspace.order = S.workspace.order := by
  simp only [load, Checked.bind_eq_ok] at done
  obtain ⟨u₁, -, u₂, -, g, -, scaled, hscaled, done⟩ := done
  have horder := scale_order hwork hscaled
  cases hanswer : scaled.answer with
  | error e =>
    rw [hanswer] at done
    cases done
    exact horder
  | ok u =>
    simp only [hanswer, Checked.bind_eq_ok] at done
    obtain ⟨packed, -, done⟩ := done
    cases done
    exact horder

theorem solvePacked_workspace {S T : Solver P} {accepted : Bool} {events : List Event}
    (done : S.solvePacked = .ok (accepted, T, events)) : T.workspace = S.workspace := by
  simp only [solvePacked, Checked.bind_eq_ok] at done
  obtain ⟨u, -, done⟩ := done
  by_cases hrefine : P.settings.refine
  · simp only [if_pos hrefine, Checked.bind_eq_ok] at done
    obtain ⟨refined, -, done⟩ := done
    cases done
    rfl
  · simp only [if_neg hrefine] at done
    cases done
    rfl

/-- A solve keeps the order of the workspace. -/
theorem solve_order {S : Solver P} {handle : Handle α} {rhs : Rhs α}
    {out : Outcome Unit (Solver P × Rhs α)} (hwork : P.dims.maxOrder ≤ S.workspace.order)
    (done : S.solve handle rhs = .ok out) :
    out.state.1.workspace.order = S.workspace.order := by
  cases solveEnd_of_solve done with
  | rejected => rfl
  | wrongLength => rfl
  | unscaled _ _ loaded => exact load_order hwork loaded
  | nonFinite _ _ loaded solved =>
    exact (congrArg _ (solvePacked_workspace solved)).trans (load_order hwork loaded)
  | unloaded _ _ loaded solved =>
    exact (congrArg _ (solvePacked_workspace solved)).trans (load_order hwork loaded)

/-! ### Factoring -/

/-- A factorization behind the dimension checks. -/
theorem exists_factor [Ldl.PivotRules α] (h : P.checkInputs W H Df = .ok ())
    (hblocks : W.blocks = .ok blocks) (S : Solver P)
    (hwork : P.dims.maxOrder ≤ S.workspace.order) :
    ∃ out K record t, S.factor W H Df = .ok out ∧ Assembled P blocks H Df K ∧
      Ldl.Sweeps 0 ⟨K, record, 0⟩ t ∧ out.state.K = t.grid ∧ out.state.record = t.record ∧
      (P.settings.refine = true → out.state.copy = K) ∧
      out.state.workspace.order = S.workspace.order ∧
      (if t.info = 0 then out.answer = .ok ⟨S.id, S.generation + 1, W⟩
        else out.answer = .error (.factorization t.info)) := by
  obtain ⟨T, hT, horder, hassembled, -, hcopy⟩ := exists_assemble (Problem.accepts_of_checkInputs h)
    hblocks S.restarted hwork
  have hstanding := assemble_standing hT
  obtain ⟨t, hsweep, hfactor⟩ := Ldl.exists_factorGrid T.K T.record
  obtain ⟨found, hfound⟩ := Ldl.exists_inertia t.grid hsweep.splits
  by_cases hinfo : t.info = 0
  · rw [if_pos hinfo] at hfactor
    refine ⟨_, T.K, T.record, t, factor_of_factored h hT hfactor rfl hfound, hassembled, hsweep,
      rfl, rfl, hcopy, horder, ?_⟩
    rw [if_pos hinfo, hstanding.id_eq, hstanding.generation_eq]
    rfl
  · rw [if_neg hinfo] at hfactor
    refine ⟨_, T.K, T.record, t, factor_of_zeroPivot h hT hfactor rfl, hassembled, hsweep, rfl, rfl,
      hcopy, horder, ?_⟩
    rw [if_neg hinfo]
    rfl

/-! ### Solving -/

omit [Scalar α] in
/-- The lengths of the parts of a right hand side. -/
theorem lengths_of_checkRhs {rhs : Rhs α} (h : P.checkRhs rhs = .ok ()) :
    rhs.x.size = P.vars ∧ rhs.y.size = P.eqs ∧ rhs.z.size = P.rows := by
  obtain ⟨hx, h⟩ := check_then_eq_ok.mp h
  obtain ⟨hy, hz⟩ := check_then_eq_ok.mp h
  exact ⟨checkLength_eq_ok.mp hx, checkLength_eq_ok.mp hy, checkLength_eq_ok.mp hz⟩

/-- The right hand side on its way in. -/
theorem exists_load (hW : W.checkDims P.dims P.mnl = .ok ()) (hblocks : W.blocks = .ok blocks)
    {rhs : Rhs α} (hrhs : P.checkRhs rhs = .ok ()) (S : Solver P)
    (hwork : P.dims.maxOrder ≤ S.workspace.order) :
    ∃ T, S.load W rhs = .ok ⟨.ok (), T⟩ ∧
      (∀ i < P.vars, entries T.u.toArray i = entries rhs.x i) ∧
      (∀ i < P.eqs, entries T.u.toArray (P.vars + i) = entries rhs.y i) ∧
      Reduces P blocks (entries rhs.z) (shift (P.vars + P.eqs) (entries T.u.toArray)) := by
  obtain ⟨hx, hy, hz⟩ := lengths_of_checkRhs hrhs
  have horder : P.order = P.vars + P.eqs + P.coneRows := rfl
  obtain ⟨u₁, hu₁, hentries₁⟩ := Vec.exists_splice S.u 0 rhs.x (by omega)
  obtain ⟨u₂, hu₂, hentries₂⟩ := Vec.exists_splice u₁ P.vars rhs.y (by omega)
  obtain ⟨g, work, packed, u₃, hscale, -, -, hreduces, hpack, hpacked, hfront⟩ :=
    exists_scale_pack hW hblocks ⟨rhs.z, hz⟩ S.workspace hwork u₂
  refine ⟨{ S with u := u₃, g := g, workspace := work }, ?_, ?_, ?_,
    hreduces.congr (total_numel (Scaling.fits_of_checkDims hW) hblocks) (fun _ _ => rfl)
      fun t ht => (hpacked t ht).symm⟩
  · simp only [load, hu₁, hu₂, sized_eq_ok hz, hscale, hpack, Checked.ok_bind, Checked.pure_eq_ok]
  · intro i hi
    show entries u₃.toArray i = _
    rw [hfront i (by omega), hentries₂ i (by omega), if_neg (by omega), hentries₁ i (by omega),
      if_pos (by omega), Nat.sub_zero]
  · intro i hi
    show entries u₃.toArray (P.vars + i) = _
    rw [hfront _ (by omega), hentries₂ _ (by omega), if_pos (by omega), Nat.add_sub_cancel_left]

/-- The solution on its way out. -/
theorem exists_unload (S : Solver P) {rhs : Rhs α} (hrhs : P.checkRhs rhs = .ok ()) :
    ∃ found, S.unload rhs = .ok ⟨.ok (), found⟩ ∧
      (found.x.size = P.vars ∧ ∀ i < P.vars, entries found.x i = entries S.u.toArray i) ∧
      (found.y.size = P.eqs ∧ ∀ i < P.eqs, entries found.y i = entries S.u.toArray (P.vars + i)) ∧
      (found.z.size = P.rows ∧ ∀ i < P.rows, entries found.z i =
        unpackedVector P.dims P.mnl (shift (P.vars + P.eqs) (entries S.u.toArray)) i) := by
  obtain ⟨-, -, hz⟩ := lengths_of_checkRhs hrhs
  have hrows := P.rows_fit
  have hlt := P.order_lt
  have horder : P.order = P.vars + P.eqs + (P.mnl + P.packed) := rfl
  have hzrows : rhs.z.size = P.mnl + P.unpacked := hz
  have hsize : S.u.toArray.size = P.order := S.u.size_toArray
  obtain ⟨x, hx, hxentries⟩ := Vec.exists_slice S.u.toArray 0 P.vars (by omega)
  obtain ⟨y, hy, hyentries⟩ := Vec.exists_slice S.u.toArray P.vars P.eqs (by omega)
  obtain ⟨z, hunpack, hzentries⟩ := exists_unpack S.u.toArray
    (⟨rhs.z, rfl⟩ : Vector α rhs.z.size) P.numelUnpacked_eq P.numelPacked_eq hzrows (by omega)
    (show P.vars + P.eqs + (P.mnl + P.packed) ≤ S.u.toArray.size by omega) (by omega)
  refine ⟨⟨x.toArray, y.toArray, z.toArray⟩, ?_, ⟨x.size_toArray, ?_⟩, ⟨y.size_toArray, hyentries⟩,
    ⟨z.size_toArray.trans hz, fun i hi => hzentries i (by omega)⟩⟩
  · simp only [unload, hx, hy, hunpack, Checked.ok_bind, Checked.pure_eq_ok]
  · intro i hi
    rw [hxentries i hi, Nat.zero_add]

end Solver

/-! ### In a run -/

namespace Session

variable {s t : Session α} {S : Solver P} {id : ℕ}

/-- The workspace of a new solver is made for the largest block. -/
theorem new_order (done : Solver.new P id = .ok S) : S.workspace.order = P.dims.maxOrder := by
  obtain ⟨-, -, hworkspace⟩ := Solver.new_eq_ok done
  simp only [Workspace.new, Checked.bind_eq_ok] at hworkspace
  obtain ⟨zeros, -, hworkspace⟩ := hworkspace
  rw [← Except.ok.inj hworkspace]

/-- The workspace of a solver in a run is large enough for its blocks. -/
theorem Run.workspace {history : List (Moment α)} (run : Run history s)
    (hS : s.solvers[id]? = some ⟨P, S⟩) : P.dims.maxOrder ≤ S.workspace.order := by
  refine run.invariant (fun P S => P.dims.maxOrder ≤ S.workspace.order) ?_ ?_ ?_ hS
  · intro P S _ done
    exact Nat.le_of_eq (new_order done).symm
  · intro P S W H Df out hwork done
    rwa [Solver.factor_order hwork done]
  · intro P S handle rhs out hwork done
    rwa [Solver.solve_order hwork done]

end Session

end ConicSaddle
