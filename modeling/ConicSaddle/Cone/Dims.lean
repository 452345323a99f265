import ConicSaddle.Dense.LowerTriangle
import ConicSaddle.Dimension

/-!
# Cone descriptors

The product of a nonnegative orthant, second order cones and cones of positive semidefinite
matrices, described by their dimensions.  Its elements are laid out in two ways: unpacked, where a
semidefinite block is a whole square matrix, and packed, where it is a lower triangle.

* `ConeBlock`: one factor of the product;
* `ConeDims`: the product; a second order cone has at least one dimension;
* `numelUnpacked`, `numelPacked`, `degree`, `numelLinear`, `rangesUnpacked`, `rangesPacked`: counts
  in machine words, each a fault where a partial result does not fit;
* `unpackedSize`, `packedSize`, `linearSize`: the same counts as plain numbers.
-/

namespace ConicSaddle

/-- One factor of a product cone. -/
inductive ConeBlock
  /-- The nonnegative orthant. -/
  | nonnegative (l : Nat)
  /-- The second order cone. -/
  | secondOrder (q : Nat)
  /-- The positive semidefinite matrices of an order. -/
  | semidefinite (k : Nat)
  deriving DecidableEq, Repr

namespace ConeBlock

/-- The number of entries in unpacked layout. -/
def unpackedSize : ConeBlock → Nat
  | nonnegative l => l
  | secondOrder q => q
  | semidefinite k => k * k

/-- The number of entries in packed layout. -/
def packedSize : ConeBlock → Nat
  | nonnegative l => l
  | secondOrder q => q
  | semidefinite k => triangle k

/-- `unpackedSize` in machine words. -/
def numelUnpacked : ConeBlock → Checked Nat
  | nonnegative l => pure l
  | secondOrder q => pure q
  | semidefinite k => Word.mul k k

/-- `packedSize` in machine words. -/
def numelPacked : ConeBlock → Checked Nat
  | nonnegative l => pure l
  | secondOrder q => pure q
  | semidefinite k => triangularNumber k

/-- The degree of the cone's barrier. -/
def degree : ConeBlock → Nat
  | nonnegative l => l
  | secondOrder _ => 1
  | semidefinite k => k

end ConeBlock

/-- A product of an orthant of dimension `l`, second order cones of dimensions `q` and semidefinite
cones of orders `s`. -/
structure ConeDims where
  l : Nat
  q : List Nat
  s : List Nat
  q_pos : ∀ k ∈ q, 0 < k
  deriving DecidableEq

namespace ConeDims

/-- The product of no cones. -/
def empty : ConeDims := ⟨0, [], [], by simp⟩

/-- The product with the given dimensions. -/
def new (l : Nat) (q s : List Nat) : Except DimensionError ConeDims :=
  if h : ∀ k ∈ q, 0 < k then .ok ⟨l, q, s, h⟩ else .error .badCone

/-- The factors in their order.  The orthant comes first, also when it has no dimension. -/
def blocks (dims : ConeDims) : List ConeBlock :=
  .nonnegative dims.l :: (dims.q.map .secondOrder ++ dims.s.map .semidefinite)

/-- The sum of a count over a list. -/
def total {β : Type} (xs : List β) (count : β → Nat) : Nat := xs.foldr (fun x n => count x + n) 0

/-- The number of entries in unpacked layout. -/
def unpackedSize (dims : ConeDims) : Nat := total dims.blocks ConeBlock.unpackedSize

/-- The number of entries in packed layout. -/
def packedSize (dims : ConeDims) : Nat := total dims.blocks ConeBlock.packedSize

/-- The number of entries that stand alike in both layouts. -/
def linearSize (dims : ConeDims) : Nat := dims.l + total dims.q id

/-- The sum of a count over the factors, from the left. -/
def sumOver (dims : ConeDims) (count : ConeBlock → Checked Nat) : Checked Nat :=
  dims.blocks.foldlM (fun sum block => do
    let n ← count block
    Word.add sum n) 0

/-- `unpackedSize` in machine words. -/
def numelUnpacked (dims : ConeDims) : Checked Nat := dims.sumOver ConeBlock.numelUnpacked

/-- `packedSize` in machine words. -/
def numelPacked (dims : ConeDims) : Checked Nat := dims.sumOver ConeBlock.numelPacked

/-- The degree of the product's barrier. -/
def degree (dims : ConeDims) : Checked Nat := dims.sumOver fun block => pure block.degree

/-- `linearSize` in machine words. -/
def numelLinear (dims : ConeDims) : Checked Nat := do
  let q ← Word.sum dims.q
  Word.add dims.l q

/-- The largest order of a semidefinite factor, zero if there is none. -/
def maxOrder (dims : ConeDims) : Nat := dims.s.foldl max 0

/-- Consecutive ranges from `start` on, of the counted sizes. -/
def rangesFrom (count : ConeBlock → Checked Nat) :
    List ConeBlock → Nat → Checked (List (Nat × Nat))
  | [], _ => pure []
  | block :: rest, start => do
    let n ← count block
    let stop ← Word.add start n
    let ranges ← rangesFrom count rest stop
    pure ((start, stop) :: ranges)

/-- Where each factor stands in unpacked layout. -/
def rangesUnpacked (dims : ConeDims) : Checked (List (Nat × Nat)) :=
  rangesFrom ConeBlock.numelUnpacked dims.blocks 0

/-- Where each factor stands in packed layout. -/
def rangesPacked (dims : ConeDims) : Checked (List (Nat × Nat)) :=
  rangesFrom ConeBlock.numelPacked dims.blocks 0

end ConeDims

end ConicSaddle
