import ConicSaddle.Cone.Dims
import ConicSaddle.Dense.Matrix

/-!
# Packing

Between the two layouts of an element of a product cone.  Packing takes the lower triangle of each
semidefinite block, column after column, with the entries off the diagonal multiplied by the square
root of two, so that inner products are kept.  Unpacking divides them again and writes both
triangles.  Entries in front of the semidefinite blocks, those of nonlinear constraints included,
stand alike in both layouts.

* `packTriangle`, `unpackTriangle`: one block;
* `pack`, `unpack`: a whole vector, at an offset of the packed side;
* `Matrix.toPacked`, `Matrix.setPacked`: one symmetric matrix by itself.
-/

namespace ConicSaddle

variable {α : Type} [Scalar α] {k : Nat}

/-- The lower triangle of a square grid in packed layout. -/
def packTriangle (A : Grid k k α) : List α :=
  (lowerTriangle k).map fun p =>
    if p.1 = p.2 then A.get p.1 p.2 else A.get p.1 p.2 * Scalar.rootTwo

/-- A grid overwritten with the symmetric grid that the entries are the packed layout of. -/
def unpackTriangle (A : Grid k k α) (entries : List α) : Grid k k α :=
  A.writeSymm <| (lowerTriangle k).zipWith (fun p v =>
    (p, if p.1 = p.2 then v else v * Scalar.invRootTwo)) entries

/-- The semidefinite blocks of the given orders, from `start` on, in packed layout. -/
def packBlocks (src : Array α) : (orders : List Nat) → (start : Nat) → Checked (List α)
  | [], _ => pure []
  | k :: orders, start => do
    let block ← slice src start (k * k)
    let rest ← packBlocks src orders (start + k * k)
    pure (packTriangle (⟨block⟩ : Grid k k α) ++ rest)

/-- The entries of a vector in packed layout. -/
def packEntries (src : Array α) (dims : ConeDims) (mnl : Nat) : Checked (Array α) := do
  let linear ← Word.add mnl (← dims.numelLinear)
  let head ← slice src 0 linear
  let blocks ← packBlocks src dims.s linear
  pure (head.toArray ++ blocks.toArray)

/-- The packed layout of `src` written into `dst` from `offset` on. -/
def pack {d : Nat} (src : Array α) (dst : Vector α d) (dims : ConeDims) (mnl offset : Nat) :
    Checked (Reply DimensionError Unit (Vector α d)) := do
  let needed ← Word.add mnl (← dims.numelPacked)
  let expected ← Word.add mnl (← dims.numelUnpacked)
  match checkLength "src" src.size expected with
  | .error e => pure ⟨.error e, dst⟩
  | .ok () =>
    let stop ← Word.add offset needed
    if stop ≤ d then
      let entries ← packEntries src dims mnl
      let dst ← splice dst offset entries
      pure ⟨.ok (), dst⟩
    else
      pure ⟨.error (.offset "dst" d offset needed), dst⟩

/-- The semidefinite blocks of the given orders written over `dst` from `start` on, from their
packed layout in `src` from `packed` on. -/
def unpackBlocks {d : Nat} (src : Array α) :
    (orders : List Nat) → (packed start : Nat) → Vector α d → Checked (Vector α d)
  | [], _, _, dst => pure dst
  | k :: orders, packed, start, dst => do
    let entries ← slice src packed (triangle k)
    let old ← slice dst.toArray start (k * k)
    let block := unpackTriangle (⟨old⟩ : Grid k k α) entries.toList
    let dst ← splice dst start block.entries.toArray
    unpackBlocks src orders (packed + triangle k) (start + k * k) dst

/-- `dst` overwritten with the vector whose packed layout stands in `src` from `offset` on. -/
def unpack {d : Nat} (src : Array α) (dst : Vector α d) (dims : ConeDims) (mnl offset : Nat) :
    Checked (Reply DimensionError Unit (Vector α d)) := do
  let needed ← Word.add mnl (← dims.numelPacked)
  let stop ← Word.add offset needed
  if stop ≤ src.size then
    let expected ← Word.add mnl (← dims.numelUnpacked)
    match checkLength "dst" d expected with
    | .error e => pure ⟨.error e, dst⟩
    | .ok () =>
      let linear ← Word.add mnl (← dims.numelLinear)
      let packed ← slice src offset needed
      let head ← slice packed.toArray 0 linear
      let dst ← splice dst 0 head.toArray
      let dst ← unpackBlocks packed.toArray dims.s linear linear dst
      pure ⟨.ok (), dst⟩
  else
    pure ⟨.error (.offset "src" src.size offset needed), dst⟩

namespace Matrix

/-- The lower triangle of a square matrix in packed layout, as `len` entries. -/
def toPacked (A : Matrix α) (len : Nat) : Checked (List α) :=
  if h : A.rows = A.cols then do
    require (len = triangle A.cols) .shape
    pure (packTriangle (A.toGrid (size_of_rows_eq h)))
  else
    throw .shape

/-- A square matrix overwritten with the symmetric matrix that the entries are the packed layout
of. -/
def setPacked (A : Matrix α) (entries : Array α) : Checked (Matrix α) :=
  if h : A.rows = A.cols then do
    require (entries.size = triangle A.cols) .shape
    let g := A.toGrid (size_of_rows_eq h)
    pure (.ofGrid (unpackTriangle g entries.toList))
  else
    throw .shape

end Matrix

end ConicSaddle
