import ConicSaddle.Cone.Packing
import ConicSaddle.Kkt.Solver
import ConicSaddle.Scaling.Apply

/-!
# Assembling and factoring

The symmetric matrix

```text
[ H         Aᵀ   Gᵀ W⁻¹ ]
[ A         0    0      ]
[ W⁻ᵀ G     0    -I     ]
```

where `G` stands for the Jacobian of the nonlinear constraints on top of the conic constraints and
the last block of rows is in packed layout.  Its lower triangle is assembled and factored.

* `Solver.assembleColumns`: the columns `W⁻ᵀ G e` in packed layout;
* `Solver.assemble`: the whole lower triangle;
* `Solver.factor`: the checks, the assembly and the factorization.
-/

namespace ConicSaddle.Solver

variable {α : Type} [Scalar α] {P : Problem α}

/-- A column of the constraints in unpacked layout, written over `g`. -/
def loadColumn (Df : Option (Matrix α)) (k : Fin P.vars) (g : Vector α P.rows) :
    Checked (Vector α P.rows) := do
  let g ← match Df with
    | some Df => do
      let nonlinear ← Df.col k.val
      splice g 0 nonlinear.toArray
    | none => pure g
  splice g P.mnl (P.G.grid.col k).toArray

/-- The columns of some variables, scaled and packed below the rows of `H` and `A`. -/
def assembleColumns (W : Scaling α) (Df : Option (Matrix α)) :
    List (Fin P.vars) → Solver P → Checked (Reply DimensionError Unit (Solver P))
  | [], S => pure ⟨.ok (), S⟩
  | k :: ks, S => do
    let g ← loadColumn Df k S.g
    let scaled ← W.scale g P.dims P.mnl ⟨true, true⟩ S.workspace
    let S := { S with g := scaled.state.1, workspace := scaled.state.2 }
    match scaled.answer with
    | .error e => pure ⟨.error e, S⟩
    | .ok () =>
      let packed ← pack S.g.toArray (S.K.col (P.column k)) P.dims P.mnl (P.vars + P.eqs)
      let S := { S with K := S.K.setCol (P.column k) packed.state }
      match packed.answer with
      | .error e => pure ⟨.error e, S⟩
      | .ok () => assembleColumns W Df ks S

/-- The lower triangle of the matrix, and a copy of it if solutions are to be refined. -/
def assemble (S : Solver P) (W : Scaling α) (H Df : Option (Matrix α)) :
    Checked (Reply DimensionError Unit (Solver P)) := do
  let K := Grid.replicate P.order P.order 0
  let K ← match H with
    | some H => K.setBlock 0 0 H.grid
    | none => pure K
  let K ← K.setBlock P.vars 0 P.A.grid
  let columns ← assembleColumns W Df (List.finRange P.vars) { S with K := K }
  match columns.answer with
  | .error e => pure ⟨.error e, columns.state⟩
  | .ok () =>
    let S := columns.state
    let start := P.vars + P.eqs
    let K ← S.K.fillBlock start start P.coneRows P.coneRows 0
    let K ← K.setBlockDiagonal start P.coneRows (-1)
    let copy := if P.settings.refine then K else S.copy
    pure ⟨.ok (), { S with K := K, copy := copy }⟩

/-- The matrix for a scaling, a Hessian (zero if there is none) and the Jacobian of the nonlinear
constraints, assembled and factored.  Sizes that do not fit leave the solver as it is; from then on
every earlier handle is stale, also when the factorization fails. -/
def factor (S : Solver P) (W : Scaling α) (H Df : Option (Matrix α)) :
    Checked (Outcome (Handle α) (Solver P)) :=
  match P.checkInputs W H Df with
  | .error e => pure ⟨.error (.dimension e), S, []⟩
  | .ok () => do
    let S := { S with generation := S.generation + 1, status := .failed }
    let started := Event.factoring S.generation P.order
    let assembled ← S.assemble W H Df
    let S := assembled.state
    match assembled.answer with
    | .error e => pure ⟨.error (.dimension e), S, [started]⟩
    | .ok () =>
      let factored ← Ldl.factorGrid S.K S.record
      let S := { S with K := factored.state.1, record := factored.state.2 }
      match factored.answer with
      | .error e =>
        pure ⟨.error (.ofFactorization e), S, [started, .factorizationFailed e]⟩
      | .ok () =>
        let inertia ← Ldl.inertia (.ofGrid S.K) S.record
        pure ⟨.ok ⟨S.id, S.generation, W⟩, { S with status := .factored },
          [started, .factored inertia]⟩

end ConicSaddle.Solver
