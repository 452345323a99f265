import ConicSaddle.Proofs.Cone.Counts
import ConicSaddle.Proofs.Kkt.Alike
import ConicSaddle.Proofs.Nan.Rules

/-!
# The contents of the assembled matrix

The lower triangle that a factorization starts from, entry by entry, in any arithmetic and whatever
the solver held before.

* `Problem.order_eq`: the order of the matrix, from the sizes of the problem;
* `Contents`: the entries, those of the cones being what scaling and packing make of the columns of
  the constraints;
* `HoldsColumn.exists_made`: where zero counts as zero, any workspace makes the same of them;
* `exists_assemble_contents`, `kept_of_factor`: the assembly, and what is kept of it;
* `Session.assembled_contents`: the statement for every reachable state.
-/

namespace ConicSaddle

open ConeDims (total)
open Vec (entries)

variable {α : Type} [Scalar α]

/-! ### The order -/

omit [Scalar α] in
/-- The order of the matrix, block by block. -/
theorem Problem.order_eq (P : Problem α) :
    P.order = P.vars + P.eqs + P.mnl + P.dims.l + P.dims.q.sum +
      (P.dims.s.map fun k => k * (k + 1) / 2).sum := by
  have hpacked : P.coneRows = P.mnl + P.dims.packedSize := congrArg (P.mnl + ·) P.packed_eq
  have hlinear : P.dims.linearSize = P.dims.l + (P.dims.q.map id).sum :=
    congrArg (P.dims.l + ·) (ConeDims.total_eq_sum P.dims.q id)
  have hsquares : total P.dims.s triangle = (P.dims.s.map fun k => k * (k + 1) / 2).sum :=
    ConeDims.total_eq_sum P.dims.s triangle
  rw [Problem.order, hpacked, ConeDims.packedSize_eq, hlinear, hsquares, List.map_id]
  omega

namespace Solver

variable {P : Problem α} {W : Scaling α} {H Df : Option (Matrix α)} {K : Grid P.order P.order α}

/-! ### The entries -/

/-- The lower triangle of the assembled matrix.  The columns of the variables hold the Hessian, the
equality constraints and the constraints of the cones after scaling and packing; behind them only
the rows of the cones have entries that are not zero, each one on the diagonal. -/
structure Contents (P : Problem α) (W : Scaling α) (H Df : Option (Matrix α))
    (K : Grid P.order P.order α) : Prop where
  hessian {i j : Fin P.order} (lower : j ≤ i) (row : i.val < P.vars) :
    K.get i j = hessianAt H i j
  equality {i j : Fin P.order} (row : P.vars ≤ i.val) (above : i.val < P.vars + P.eqs)
    (column : j.val < P.vars) : K.get i j = P.A.grid.at (i.val - P.vars) j
  cone {k : ℕ} (column : k < P.vars) : HoldsColumn P W Df K k
  behind {i j : Fin P.order} (lower : j ≤ i) (column : P.vars ≤ j.val) :
    K.get i j = if i = j ∧ P.vars + P.eqs ≤ i.val then -1 else 0

theorem contents_of_assembled {blocks : List (ScalingBlock α)} (h : Assembled P blocks H Df K)
    (columns : ∀ k < P.vars, HoldsColumn P W Df K k) : Contents P W H Df K where
  hessian lower row := h.hessian _ _ row (Nat.lt_of_le_of_lt lower row)
  equality row above column := h.equality _ _ row above column
  cone column := columns _ column
  behind {i j} lower column := by
    have hrow : P.vars ≤ i.val := Nat.le_trans column lower
    rcases Nat.lt_or_ge j.val (P.vars + P.eqs) with hj | hj
    · have hne : ¬(i = j ∧ P.vars + P.eqs ≤ i.val) := by
        rintro ⟨rfl, hi⟩
        exact absurd hj (Nat.not_lt.mpr hi)
      rw [h.middle i j hrow column (.inr hj), if_neg hne]
    · have hi : P.vars + P.eqs ≤ i.val := Nat.le_trans hj lower
      rw [h.corner i j hi hj]
      simp only [hi, and_true]

/-- Where zero counts as zero, every workspace makes of a column what the matrix holds. -/
theorem HoldsColumn.exists_made [ZeroRule α] {k : ℕ} (h : HoldsColumn P W Df K k)
    (hW : W.checkDims P.dims P.mnl = .ok ()) {work : Workspace α}
    (hwork : P.dims.maxOrder ≤ work.order) :
    ∃ column, ConeColumn P W Df work k column ∧
      AgreeTo P.coneRows (fun t => K.at (P.vars + P.eqs + t) k) (entries column.toArray) := by
  obtain ⟨blocks, hblocks⟩ := exists_blocks hW
  obtain ⟨work', column', hwork', hcolumn', hheld⟩ := h
  obtain ⟨column, hcolumn, -⟩ := exists_coneColumn hW hblocks hwork Df k
  obtain rfl := hcolumn.unique hW hwork hwork' hcolumn'
  exact ⟨column, hcolumn, hheld⟩

/-! ### Assembling and factoring -/

/-- The assembly succeeds, with these contents. -/
theorem exists_assemble_contents (h : P.Accepts W H Df) (S : Solver P)
    (hwork : P.dims.maxOrder ≤ S.workspace.order) :
    ∃ T, S.assemble W H Df = .ok ⟨.ok (), T⟩ ∧ Contents P W H Df T.K ∧
      (P.settings.refine = true → T.copy = T.K) := by
  obtain ⟨blocks, hblocks⟩ := exists_blocks h.scaling
  obtain ⟨T, hT, -, hassembled, hcolumns, hcopy⟩ := exists_assemble h hblocks S hwork
  exact ⟨T, hT, contents_of_assembled hassembled hcolumns, hcopy⟩

/-- However a factorization ends, it leaves the factors of what was assembled, and the copy. -/
theorem kept_of_factor {S T : Solver P} (checked : P.checkInputs W H Df = .ok ())
    (assembled : S.restarted.assemble W H Df = .ok ⟨.ok (), T⟩)
    {out : Outcome (Handle α) (Solver P)} (done : S.factor W H Df = .ok out) :
    out.state.copy = T.copy ∧ ∃ reply, Ldl.factorGrid T.K S.record = .ok reply ∧
      out.state.K = reply.state.1 := by
  cases factorEnd_of_factor done with
  | refused refused => cases checked.symm.trans refused
  | unassembled _ assembled' => cases assembled.symm.trans assembled'
  | @zeroPivot _ _ reply _ assembled' factored _ =>
    cases assembled.symm.trans assembled'
    rw [Ldl.factorGrid_eq T.K T.record S.record] at factored
    exact ⟨rfl, reply, factored, rfl⟩
  | @factored _ _ reply _ assembled' factored _ _ =>
    cases assembled.symm.trans assembled'
    rw [Ldl.factorGrid_eq T.K T.record S.record] at factored
    exact ⟨rfl, reply, factored, rfl⟩

end Solver

/-! ### In a run -/

namespace Session

/-- **What is assembled.**  In any state of a session, in any arithmetic and for operands whose
sizes fit, the matrix that is assembled has the order and the contents that the sizes and the
operands give, whatever it held before.

* Where zero counts as zero, the rows of the cones are what scaling and packing make of the columns
  of the constraints with any workspace that has room; in any other arithmetic, with one of them.
* A factorization that comes to an answer factored this matrix.  If solutions are to be refined, the
  copy is this matrix.
* Where pivots of order two are kept out of the last column, it does come to an answer. -/
theorem assembled_contents {s : Session α} {history : List (Moment α)} (run : Run history s)
    {id : ℕ} (hid : id < s.solvers.size) :
    let P := s.solvers[id].problem
    let S := s.solvers[id].solver
    P.order = P.vars + P.eqs + P.mnl + P.dims.l + P.dims.q.sum +
      (P.dims.s.map fun k => k * (k + 1) / 2).sum ∧
    ∀ W H Df, P.checkInputs W H Df = .ok () → ∃ U : Solver P,
      S.restarted.assemble W H Df = .ok ⟨.ok (), U⟩ ∧ Solver.Contents P W H Df U.K ∧
      (ZeroRule α → ∀ k < P.vars, ∀ work : Workspace α, P.dims.maxOrder ≤ work.order →
        ∃ column, Solver.ConeColumn P W Df work k column ∧
          AgreeTo P.coneRows (fun t => U.K.at (P.vars + P.eqs + t) k) (entries column.toArray)) ∧
      (∀ out, s.factor ⟨id, hid⟩ W H Df = .ok out →
        ∃ T : Solver P, out.state.solvers[id]? = some ⟨P, T⟩ ∧
          (P.settings.refine = true → T.copy = U.K) ∧
          ∃ reply, Ldl.factorGrid U.K S.record = .ok reply ∧ T.K = reply.state.1) ∧
      (Ldl.PivotRules α → ∃ out, s.factor ⟨id, hid⟩ W H Df = .ok out) := by
  have hX : s.solvers[id]? = some s.solvers[id] := Array.getElem?_eq_getElem hid
  generalize s.solvers[id] = X at hX
  obtain ⟨P, S⟩ := X
  refine ⟨P.order_eq, fun W H Df checked => ?_⟩
  have haccepts := Problem.accepts_of_checkInputs checked
  have hwork := run.workspace hX
  obtain ⟨U, hU, hcontents, hcopy⟩ :=
    Solver.exists_assemble_contents haccepts S.restarted hwork
  refine ⟨U, hU, hcontents, ?_, ?_, ?_⟩
  · intro _ k hk work hroom
    exact (hcontents.cone hk).exists_made haccepts.scaling hroom
  · intro out done
    obtain ⟨inner, hinner, rfl⟩ := factor_eq_ok (j := ⟨id, hid⟩) hX done
    obtain ⟨hkept, reply, hreply, hK⟩ := Solver.kept_of_factor checked hU hinner
    refine ⟨inner.state, ?_, fun hrefine => hkept.trans (hcopy hrefine), reply, hreply, hK⟩
    rw [Array.getElem?_set, if_pos rfl]
  · intro _
    obtain ⟨blocks, hblocks⟩ := Solver.exists_blocks haccepts.scaling
    obtain ⟨out, -, -, -, hfactor, -⟩ := Solver.exists_factor checked hblocks S hwork
    exact ⟨_, factor_of_solver (j := ⟨id, hid⟩) hX hfactor⟩

/-- A problem with one variable, one equality constraint and a semidefinite cone of order two, whose
solutions are refined. -/
def refinedSquare : Problem Float where
  dims := { ConeDims.empty with s := [2] }
  mnl := 0
  G := ⟨4, 1, .replicate 4 1 1⟩
  A := ⟨1, 1, .replicate 1 1 1⟩
  settings := ⟨"auto", true, 0, 0, 10, 5, true⟩
  backend := .native
  unpacked := 4
  packed := 3
  numelUnpacked_eq := rfl
  numelPacked_eq := rfl
  G_rows := rfl
  A_cols := rfl
  rows_fit := by decide
  order_fits := by decide

/-- The scaling that leaves a matrix of order two as it is. -/
def unitSquare : Scaling Float :=
  let unit : Matrix Float := ⟨2, 2, .ofFn fun i j => if i = j then 1 else 0⟩
  ⟨#[], #[], #[], #[], [], [], [unit], [unit]⟩

/-- A session with that problem factors it, and the copy that it keeps has the contents. -/
theorem assembled_contents_refinedSquare :
    ∃ (s : Session Float) (history : List (Moment Float)) (hid : 0 < s.solvers.size),
      Run history s ∧ refinedSquare.checkInputs unitSquare none none = .ok () ∧
      refinedSquare.order = 5 ∧
      ∃ out, s.factor ⟨0, hid⟩ unitSquare none none = .ok out ∧
        ∃ T : Solver refinedSquare, out.state.solvers[0]? = some ⟨refinedSquare, T⟩ ∧
          Solver.Contents refinedSquare unitSquare none none T.copy := by
  obtain ⟨S, hcreate⟩ : ∃ S : Solver refinedSquare,
      Session.empty.create refinedSquare.G refinedSquare.dims refinedSquare.A 0
        refinedSquare.settings =
          .ok ⟨.ok 0, ⟨#[⟨refinedSquare, S⟩]⟩, [Solver.created refinedSquare]⟩ := ⟨_, rfl⟩
  have run := Run.start.next (.create hcreate)
  have checked : refinedSquare.checkInputs unitSquare none none = .ok () := rfl
  obtain ⟨horder, hfactor⟩ := assembled_contents run Nat.one_pos
  obtain ⟨U, -, hcontents, -, hkept, hanswered⟩ := hfactor unitSquare none none checked
  obtain ⟨out, hout⟩ := hanswered inferInstance
  obtain ⟨T, hT, hcopy, -⟩ := hkept out hout
  refine ⟨⟨#[⟨refinedSquare, S⟩]⟩, _, Nat.one_pos, run, checked, horder, out, hout, T, hT, ?_⟩
  rw [hcopy rfl]
  exact hcontents

end Session

end ConicSaddle
