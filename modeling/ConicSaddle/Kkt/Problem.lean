import ConicSaddle.Cone.Packing
import ConicSaddle.Kkt.Error
import ConicSaddle.Scaling.Basic

/-!
# Problems

The data of a conic problem that stay the same from one factorization to the next, with the facts
about their sizes that were checked when the problem was made.

* `Problem`: cone, constraint matrices, settings;
* `Problem.vars`, `eqs`, `coneRows`, `order`: the sizes of the blocks of the matrix to be factored;
* `Problem.new`: the checks;
* `Problem.checkInputs`, `Problem.checkRhs`: the sizes of what comes with a factorization or a solve.
-/

namespace ConicSaddle

/-- The fixed data of a conic problem: the rows of `G` are the conic constraints, the rows of `A`
the equality constraints, and `mnl` nonlinear constraints come with each factorization. -/
structure Problem (α : Type) where
  dims : ConeDims
  mnl : Nat
  G : Matrix α
  A : Matrix α
  settings : Settings α
  backend : Backend
  unpacked : Nat
  packed : Nat
  numelUnpacked_eq : dims.numelUnpacked = .ok unpacked
  numelPacked_eq : dims.numelPacked = .ok packed
  G_rows : G.rows = unpacked
  A_cols : A.cols = G.cols
  rows_fit : mnl + unpacked < Word.limit
  order_fits : G.cols + A.rows + mnl + packed < Word.limit

namespace Problem

variable {α : Type}

/-- The number of variables. -/
def vars (P : Problem α) : Nat := P.G.cols

/-- The number of equality constraints. -/
def eqs (P : Problem α) : Nat := P.A.rows

/-- The number of nonlinear and conic constraints in unpacked layout. -/
def rows (P : Problem α) : Nat := P.mnl + P.unpacked

/-- The number of nonlinear and conic constraints in packed layout. -/
def coneRows (P : Problem α) : Nat := P.mnl + P.packed

/-- The order of the matrix that is factored. -/
def order (P : Problem α) : Nat := P.vars + P.eqs + P.coneRows

theorem vars_le_order (P : Problem α) : P.vars ≤ P.order := by
  simp only [order]; omega

/-- The column of the factored matrix that belongs to a variable. -/
def column (P : Problem α) (k : Fin P.vars) : Fin P.order :=
  ⟨k.val, Nat.lt_of_lt_of_le k.isLt P.vars_le_order⟩

/-- The problem with the given data, if the settings are valid and the sizes agree. -/
def new (G : Matrix α) (dims : ConeDims) (A : Matrix α) (mnl : Nat) (settings : Settings α) :
    Checked (Except KktError (Problem α)) :=
  match settings.backend with
  | .error e => pure (.error (.settings e))
  | .ok backend =>
    match hu : dims.numelUnpacked with
    | .error fault => throw fault
    | .ok unpacked =>
      if hG : G.rows = unpacked then
        if hA : A.cols = G.cols then
          match hp : dims.numelPacked with
          | .error fault => throw fault
          | .ok packed =>
            if ho : G.cols + A.rows + mnl + packed < Word.limit then
              if hr : mnl + unpacked < Word.limit then
                pure (.ok {
                  dims := dims, mnl := mnl, G := G, A := A
                  settings := settings, backend := backend
                  unpacked := unpacked, packed := packed
                  numelUnpacked_eq := hu, numelPacked_eq := hp
                  G_rows := hG, A_cols := hA
                  rows_fit := hr, order_fits := ho })
              else
                throw .overflow
            else
              throw .overflow
        else
          pure (.error (.dimension (.matrixSize "A" (A.rows, G.cols) A.size)))
      else
        pure (.error (.dimension (.matrixSize "G" (unpacked, G.cols) G.size)))

/-- The sizes of a scaling, of a Hessian and of the Jacobian of the nonlinear constraints. -/
def checkInputs (P : Problem α) (W : Scaling α) (H Df : Option (Matrix α)) :
    Except DimensionError Unit := do
  match H with
  | some H => checkSize "H" H.size (P.vars, P.vars)
  | none => .ok ()
  match Df with
  | some Df => checkSize "Df" Df.size (P.mnl, P.vars)
  | none => checkNoJacobian
  W.checkDims P.dims P.mnl
where
  /-- A Jacobian may be missing only if there are no nonlinear constraints. -/
  checkNoJacobian : Except DimensionError Unit :=
    if 0 < P.mnl then .error (.matrixSize "Df" (P.mnl, P.vars) (0, 0)) else .ok ()

end Problem

/-- The three parts of a right hand side or of a solution, the last one in unpacked layout. -/
structure Rhs (α : Type) where
  x : Array α
  y : Array α
  z : Array α

/-- The parts have the lengths that the problem asks for. -/
def Problem.checkRhs {α : Type} (P : Problem α) (rhs : Rhs α) : Except DimensionError Unit := do
  checkLength "bx" rhs.x.size P.vars
  checkLength "by" rhs.y.size P.eqs
  checkLength "bz" rhs.z.size P.rows

end ConicSaddle
