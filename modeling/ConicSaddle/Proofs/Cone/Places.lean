import ConicSaddle.Proofs.Cone.Packing

/-!
# The places of the packed layout

Where packing puts an entry, as a formula of its row, its column and the ranges that the descriptor
gives.  The formula is that of the lower triangle, column after column.

* `ConeDims.SquareAt`: a semidefinite block with its two ranges;
* `packed_triangleIndex`, `unpacked_triangleIndex`: one block, entry by entry;
* `packedVector_square`, `unpackedVector_square`: the block in a whole vector;
* `PacksAt`, `UnpacksAt`: what stands where after a call;
* `packed_places`: so it is after every call that succeeds, and for a matrix by itself.
-/

namespace ConicSaddle

open ConeDims (total)
open Vec (entries)

/-! ### Where a block stands -/

namespace ConeDims

/-- Block `m` of the descriptor is a semidefinite one of order `k`.  Among the blocks it stands at
`u` in unpacked layout and at `w` in packed layout. -/
structure SquareAt (dims : ConeDims) (m k u w : ℕ) : Prop where
  block : dims.blocks[m]? = some (.semidefinite k)
  unpacked : ∃ ranges, dims.rangesUnpacked = .ok ranges ∧ ranges[m]? = some (u, u + k * k)
  packed : ∃ ranges, dims.rangesPacked = .ok ranges ∧ ranges[m]? = some (w, w + triangle k)

variable {dims : ConeDims} {m k : ℕ}

/-- A semidefinite block stands behind the blocks in front of it. -/
theorem squareAt_of_block (fits : dims.unpackedSize < Word.limit)
    (block : dims.blocks[m]? = some (.semidefinite k)) :
    dims.SquareAt m k (total (dims.blocks.take m) ConeBlock.unpackedSize)
      (total (dims.blocks.take m) ConeBlock.packedSize) := by
  refine ⟨block, ⟨_, rangesUnpacked_of_lt fits, ?_⟩, ⟨_, rangesPacked_of_lt fits, ?_⟩⟩
  · rw [getElem?_spans, block, Option.map_some, Nat.zero_add]
    rfl
  · rw [getElem?_spans, block, Option.map_some, Nat.zero_add]
    rfl

/-- A block has one place in each layout. -/
theorem SquareAt.eq {u w : ℕ} (h : dims.SquareAt m k u w) (fits : dims.unpackedSize < Word.limit) :
    u = total (dims.blocks.take m) ConeBlock.unpackedSize ∧
      w = total (dims.blocks.take m) ConeBlock.packedSize := by
  obtain ⟨block, ⟨ranges, hranges, hu⟩, ⟨ranges', hranges', hw⟩⟩ := h
  cases (rangesUnpacked_of_lt fits).symm.trans hranges
  cases (rangesPacked_of_lt fits).symm.trans hranges'
  rw [getElem?_spans, block, Option.map_some, Nat.zero_add] at hu hw
  cases hu
  cases hw
  exact ⟨rfl, rfl⟩

/-- The product of one semidefinite cone. -/
def square (k : ℕ) : ConeDims := { empty with s := [k] }

theorem unpackedSize_square (k : ℕ) : (square k).unpackedSize = k * k := Nat.zero_add _

theorem packedSize_square (k : ℕ) : (square k).packedSize = triangle k := Nat.zero_add _

end ConeDims

theorem square_place_lt {k i j : ℕ} (hi : i < k) (hj : j < k) : i + j * k < k * k := by
  rw [Nat.mul_comm j k]
  exact Grid.place_lt (⟨i, hi⟩ : Fin k) (⟨j, hj⟩ : Fin k)

theorem triangleIndex_lt {k i j : ℕ} (hji : j ≤ i) (hik : i < k) :
    triangleIndex k i j < triangle k := by
  have hj : j < k := Nat.lt_of_le_of_lt hji hik
  have hplace : ((⟨i, hik⟩, ⟨j, hj⟩) : Fin k × Fin k) ∈ lowerTriangle k :=
    mem_lowerTriangle.mpr hji
  have hlt := List.idxOf_lt_length_of_mem hplace
  rwa [idxOf_lowerTriangle hji, length_lowerTriangle] at hlt

/-! ### The entries of a block -/

section

variable {α : Type} [Scalar α] {dims : ConeDims} {m k : ℕ}

namespace ConeBlock

variable {i j : ℕ}

/-- The packed layout of a block, by row and column. -/
theorem packed_triangleIndex (x : ℕ → α) (hji : j ≤ i) (hik : i < k) :
    (semidefinite k).packed x (triangleIndex k i j) =
      if i = j then x (i + j * k) else x (i + j * k) * Scalar.rootTwo := by
  let p : Fin k × Fin k := (⟨i, hik⟩, ⟨j, Nat.lt_of_le_of_lt hji hik⟩)
  have hp := packed_idxOf x (mem_lowerTriangle.mpr hji : p ∈ lowerTriangle k)
  have hindex : (lowerTriangle k).idxOf p = triangleIndex k i j := idxOf_lowerTriangle hji
  have hval : p.1 = p.2 ↔ i = j := Fin.ext_iff
  rw [hindex] at hp
  simp only [hp, hval, Nat.mul_comm j k]
  rfl

/-- A block that was unpacked, by row and column.  Both halves hold the entry of the lower one. -/
theorem unpacked_triangleIndex (y : ℕ → α) (hji : j ≤ i) (hik : i < k) :
    (semidefinite k).unpacked y (i + j * k) =
        (if i = j then y (triangleIndex k i j)
          else y (triangleIndex k i j) * Scalar.invRootTwo) ∧
      (semidefinite k).unpacked y (j + i * k) = (semidefinite k).unpacked y (i + j * k) := by
  let r : Fin k := ⟨i, hik⟩
  let c : Fin k := ⟨j, Nat.lt_of_le_of_lt hji hik⟩
  have hrc : (semidefinite k).unpacked y (i + j * k) = unpackedAt y (lowerPlace r c) := by
    rw [Nat.mul_comm j k]
    exact unpacked_place y r c
  have hcr : (semidefinite k).unpacked y (j + i * k) = unpackedAt y (lowerPlace c r) := by
    rw [Nat.mul_comm i k]
    exact unpacked_place y c r
  have hlower : lowerPlace r c = (r, c) := if_pos hji
  have hval : r = c ↔ i = j := Fin.ext_iff
  have hindex : (lowerTriangle k).idxOf (r, c) = triangleIndex k i j := idxOf_lowerTriangle hji
  constructor
  · simp only [hrc, hlower, unpackedAt, hval, hindex]
  · rw [hrc, hcr, lowerPlace_comm]

end ConeBlock

/-- A semidefinite block in a packed vector. -/
theorem packedVector_square (block : dims.blocks[m]? = some (.semidefinite k)) (mnl : ℕ)
    (x : ℕ → α) :
    AgreeTo (triangle k)
      (shift (mnl + total (dims.blocks.take m) ConeBlock.packedSize) (packedVector dims mnl x))
      ((ConeBlock.semidefinite k).packed
        (shift (mnl + total (dims.blocks.take m) ConeBlock.unpackedSize) x)) :=
  (eachBlock_blockwise ConeBlock.unpackedSize ConeBlock.packedSize ConeBlock.packed
    (dims.layout mnl) x).getElem? (i := m + 1) block

/-- A semidefinite block in a vector that was unpacked. -/
theorem unpackedVector_square (block : dims.blocks[m]? = some (.semidefinite k)) (mnl : ℕ)
    (y : ℕ → α) :
    AgreeTo (k * k)
      (shift (mnl + total (dims.blocks.take m) ConeBlock.unpackedSize) (unpackedVector dims mnl y))
      ((ConeBlock.semidefinite k).unpacked
        (shift (mnl + total (dims.blocks.take m) ConeBlock.packedSize) y)) :=
  (eachBlock_blockwise ConeBlock.packedSize ConeBlock.unpackedSize ConeBlock.unpacked
    (dims.layout mnl) y).getElem? (i := m + 1) block

/-! ### Calls -/

/-- What stands where after packing: entries in front of the semidefinite blocks as they are, and
in each block the entry in row `i` of column `j`, multiplied by the constant `Scalar.rootTwo` off the
diagonal. -/
structure PacksAt (dims : ConeDims) (mnl offset : ℕ) (src dst : Array α) : Prop where
  linear : ∃ n, dims.numelLinear = .ok n ∧ ∀ t < mnl + n, ∃ v,
    src[t]? = some v ∧ dst[offset + t]? = some v
  square {m k : ℕ} (block : dims.blocks[m]? = some (.semidefinite k)) :
    ∃ u w, dims.SquareAt m k u w ∧ ∀ j i, j ≤ i → i < k → ∃ v,
      src[mnl + u + (i + j * k)]? = some v ∧
      dst[offset + (mnl + w + triangleIndex k i j)]? =
        some (if i = j then v else v * Scalar.rootTwo)

/-- What stands where after unpacking.  An entry of a packed layout is read once and written to
both halves of its block, multiplied by the constant `Scalar.invRootTwo` off the diagonal. -/
structure UnpacksAt (dims : ConeDims) (mnl offset : ℕ) (src dst : Array α) : Prop where
  linear : ∃ n, dims.numelLinear = .ok n ∧ ∀ t < mnl + n, ∃ v,
    src[offset + t]? = some v ∧ dst[t]? = some v
  square {m k : ℕ} (block : dims.blocks[m]? = some (.semidefinite k)) :
    ∃ u w, dims.SquareAt m k u w ∧ ∀ j i, j ≤ i → i < k → ∃ v,
      src[offset + (mnl + w + triangleIndex k i j)]? = some v ∧
      dst[mnl + u + (i + j * k)]? = some (if i = j then v else v * Scalar.invRootTwo) ∧
      dst[mnl + u + (j + i * k)]? = some (if i = j then v else v * Scalar.invRootTwo)

/-- The places of a block lie inside the two vectors. -/
theorem PackingFits.places_lt {mnl offset n d i j : ℕ} (h : PackingFits dims mnl offset n d)
    (block : dims.blocks[m]? = some (.semidefinite k)) (hji : j ≤ i) (hik : i < k) :
    mnl + total (dims.blocks.take m) ConeBlock.unpackedSize + (i + j * k) < n ∧
    mnl + total (dims.blocks.take m) ConeBlock.unpackedSize + (j + i * k) < n ∧
    mnl + total (dims.blocks.take m) ConeBlock.packedSize + triangleIndex k i j <
      mnl + dims.packedSize := by
  have hunpacked := ConeDims.total_take_add_le block ConeBlock.unpackedSize
  have hpacked := ConeDims.total_take_add_le block ConeBlock.packedSize
  have hsize := h.size_eq
  have hlower := square_place_lt hik (Nat.lt_of_le_of_lt hji hik)
  have hupper := square_place_lt (Nat.lt_of_le_of_lt hji hik) hik
  have hindex := triangleIndex_lt hji hik
  have hk : (ConeBlock.semidefinite k).unpackedSize = k * k := rfl
  have hk' : (ConeBlock.semidefinite k).packedSize = triangle k := rfl
  unfold ConeDims.packedSize
  unfold ConeDims.unpackedSize at hsize
  refine ⟨by omega, by omega, by omega⟩

variable {mnl offset d : ℕ}

theorem packsAt_of_pack {src : Array α} {dst dst' : Vector α d}
    (h : pack src dst dims mnl offset = .ok ⟨.ok (), dst'⟩) :
    PacksAt dims mnl offset src dst'.toArray := by
  have hfits := fits_of_pack h
  have hroom := hfits.room
  have hsize := hfits.size_eq
  have hfront := dims.unpackedSize_eq
  have hfront' := dims.packedSize_eq
  obtain ⟨z, hz, hentries⟩ := hfits.packed dst
  cases hz.symm.trans h
  -- a place of the packed layout
  have hpacked : ∀ t < mnl + dims.packedSize,
      dst'.toArray[offset + t]? = some (packedVector dims mnl (entries src) t) := by
    intro t ht
    rw [Vec.getElem?_eq_entries (by rw [dst'.size_toArray]; omega), hentries _ (by omega),
      if_pos (by omega), Nat.add_sub_cancel_left]
  refine ⟨⟨_, ConeDims.numelLinear_eq_ok hfits.unpackedSize_lt, fun t ht => ?_⟩, fun {m k} block =>
    ⟨_, _, ConeDims.squareAt_of_block hfits.unpackedSize_lt block, fun j i hji hik => ?_⟩⟩
  · refine ⟨entries src t, Vec.getElem?_eq_entries (by omega), ?_⟩
    rw [hpacked t (by omega), packedVector_eq, if_pos ht]
  · obtain ⟨hplace, -, hindex⟩ := hfits.places_lt block hji hik
    have hvalue := packedVector_square block mnl (entries src) _ (triangleIndex_lt hji hik)
    rw [shift_apply, ConeBlock.packed_triangleIndex _ hji hik, shift_apply] at hvalue
    refine ⟨_, Vec.getElem?_eq_entries hplace, ?_⟩
    rw [hpacked _ hindex, hvalue]

theorem unpacksAt_of_unpack {src : Array α} {dst dst' : Vector α d}
    (h : unpack src dst dims mnl offset = .ok ⟨.ok (), dst'⟩) :
    UnpacksAt dims mnl offset src dst'.toArray := by
  have hfits := fits_of_unpack h
  have hroom := hfits.room
  have hsize := hfits.size_eq
  have hfront := dims.unpackedSize_eq
  have hfront' := dims.packedSize_eq
  obtain ⟨z, hz, hentries⟩ := hfits.unpacked dst
  cases hz.symm.trans h
  have hunpacked : ∀ t < d, dst'.toArray[t]? =
      some (unpackedVector dims mnl (shift offset (entries src)) t) := by
    intro t ht
    rw [Vec.getElem?_eq_entries (by rwa [dst'.size_toArray]), hentries t ht]
  refine ⟨⟨_, ConeDims.numelLinear_eq_ok hfits.unpackedSize_lt, fun t ht => ?_⟩, fun {m k} block =>
    ⟨_, _, ConeDims.squareAt_of_block hfits.unpackedSize_lt block, fun j i hji hik => ?_⟩⟩
  · refine ⟨_, Vec.getElem?_eq_entries (show offset + t < src.size by omega), ?_⟩
    rw [hunpacked t (by omega), unpackedVector_eq, if_pos ht, shift_apply]
  · obtain ⟨hlower, hupper, hindex⟩ := hfits.places_lt block hji hik
    have hsquare := unpackedVector_square block mnl (shift offset (entries src))
    have hjk := Nat.lt_of_le_of_lt hji hik
    have hvalue := hsquare _ (square_place_lt hik hjk)
    have hmirrored := hsquare _ (square_place_lt hjk hik)
    obtain ⟨hentry, hsame⟩ := ConeBlock.unpacked_triangleIndex
      (shift (mnl + total (dims.blocks.take m) ConeBlock.packedSize) (shift offset (entries src)))
      hji hik
    rw [shift_apply, hentry] at hvalue
    rw [shift_apply, hsame, hentry] at hmirrored
    refine ⟨_, Vec.getElem?_eq_entries (by omega), ?_, ?_⟩
    · rw [hunpacked _ hlower, hvalue, shift_apply, shift_apply]
    · rw [hunpacked _ hupper, hmirrored, shift_apply, shift_apply]

/-! ### One matrix by itself -/

theorem fits_square (hk : k * k < Word.limit) :
    PackingFits (.square k) 0 0 (k * k) (triangle k) := by
  have hle : triangle k ≤ k * k := (ConeBlock.semidefinite k).packedSize_le
  refine ⟨?_, hk, ?_, ?_⟩
  · rw [ConeDims.unpackedSize_square, Nat.zero_add]
  · rw [ConeDims.packedSize_square, Nat.zero_add, Nat.zero_add]
  · rw [ConeDims.packedSize_square, Nat.zero_add, Nat.zero_add]
    exact Nat.lt_of_le_of_lt hle hk

/-- The packed layout of a matrix is that of the vector of its entries. -/
theorem toPacked_eq_pack (hk : k * k < Word.limit) (A : Grid k k α)
    (dst : Vector α (triangle k)) :
    ∃ dst' : Vector α (triangle k),
      pack A.entries.toArray dst (.square k) 0 0 = .ok ⟨.ok (), dst'⟩ ∧
      (Matrix.ofGrid A).toPacked (triangle k) = .ok dst'.toList := by
  have hfits : PackingFits (.square k) 0 0 A.entries.toArray.size (triangle k) := by
    rw [A.entries.size_toArray]
    exact fits_square hk
  obtain ⟨dst', hdst', hentries⟩ := hfits.packed dst
  have hsquare : AgreeTo (triangle k)
      (shift 0 (packedVector (.square k) 0 (entries A.entries.toArray)))
      ((ConeBlock.semidefinite k).packed (shift 0 (entries A.entries.toArray))) :=
    packedVector_square (m := 1) rfl 0 _
  rw [shift_zero, shift_zero] at hsquare
  have hlist : packTriangle A = dst'.toList := by
    apply List.ext_getElem
    · rw [length_packTriangle, dst'.length_toList]
    · intro t ht ht'
      have htk : t < triangle k := by rwa [length_packTriangle] at ht
      have hpacked := hentries t htk
      rw [ConeDims.packedSize_square, if_pos ⟨Nat.zero_le t, by omega⟩, Nat.sub_zero,
        hsquare t htk, ← getD_packTriangle (x := A.entries) (fun _ _ => rfl),
        List.getD_eq_getElem _ _ ht, Vec.entries_of_lt (by rwa [dst'.size_toArray])] at hpacked
      exact hpacked.symm
  refine ⟨dst', hdst', ?_⟩
  have hrows : (Matrix.ofGrid A).rows = (Matrix.ofGrid A).cols := rfl
  have hlength : triangle k = triangle (Matrix.ofGrid A).cols := rfl
  rw [Matrix.toPacked, dif_pos hrows, require_of_pos hlength, ← hlist]
  exact congrArg (fun B => Except.ok (packTriangle B)) (Matrix.toGrid_ofGrid A rfl)

/-- The matrix that a packed layout is written over becomes that of the unpacked vector. -/
theorem setPacked_eq_unpack (hk : k * k < Word.limit) (A : Grid k k α)
    (y : Vector α (triangle k)) :
    ∃ B : Grid k k α, unpack y.toArray A.entries (.square k) 0 0 = .ok ⟨.ok (), B.entries⟩ ∧
      (Matrix.ofGrid A).setPacked y.toArray = .ok (.ofGrid B) := by
  have hfits : PackingFits (.square k) 0 0 (k * k) y.toArray.size := by
    rw [y.size_toArray]
    exact fits_square hk
  obtain ⟨z, hz, hentries⟩ := hfits.unpacked A.entries
  have hsquare : AgreeTo (k * k)
      (shift 0 (unpackedVector (.square k) 0 (shift 0 (entries y.toArray))))
      ((ConeBlock.semidefinite k).unpacked (shift 0 (shift 0 (entries y.toArray)))) :=
    unpackedVector_square (m := 1) rfl 0 _
  simp only [shift_zero] at hsquare hentries
  have hvector : z = (unpackTriangle A y.toArray.toList).entries := by
    refine Vec.ext_entries fun i hi => ?_
    rw [hentries i hi, hsquare i hi, entries_unpackTriangle A (fun _ _ => rfl) hi]
  refine ⟨unpackTriangle A y.toArray.toList, hvector ▸ hz, ?_⟩
  have hrows : (Matrix.ofGrid A).rows = (Matrix.ofGrid A).cols := rfl
  have hsize : y.toArray.size = triangle (Matrix.ofGrid A).cols := y.size_toArray
  rw [Matrix.setPacked, dif_pos hrows, require_of_pos hsize]
  exact congrArg (fun B => Except.ok (Matrix.ofGrid (unpackTriangle B y.toArray.toList)))
    (Matrix.toGrid_ofGrid A rfl)

end

/-- **The packed layout is the lower triangle, column by column, at the ranges of the descriptor.**
Whatever the arithmetic is:

* a call of packing that succeeds copies the entries in front of the semidefinite blocks, and puts
  the entry in row `i` of column `j` of a block that has its ranges from `u` and from `w` on behind
  the `j * k - j * (j - 1) / 2 + (i - j)` entries of the columns and rows in front of it, multiplied
  by the constant `Scalar.rootTwo` off the diagonal;
* a call of unpacking that succeeds reads the same places, and writes what it reads to both halves
  of the block, multiplied by the constant `Scalar.invRootTwo` off the diagonal;
* a matrix by itself has the packed layout of the product of one semidefinite cone. -/
theorem packed_places {α : Type} [Scalar α] :
    (∀ (dims : ConeDims) (mnl offset d : ℕ) (src : Array α) (dst dst' : Vector α d),
      pack src dst dims mnl offset = .ok ⟨.ok (), dst'⟩ →
      PacksAt dims mnl offset src dst'.toArray) ∧
    (∀ (dims : ConeDims) (mnl offset d : ℕ) (src : Array α) (dst dst' : Vector α d),
      unpack src dst dims mnl offset = .ok ⟨.ok (), dst'⟩ →
      UnpacksAt dims mnl offset src dst'.toArray) ∧
    ∀ k, k * k < Word.limit → ∀ A : Grid k k α,
      (∀ dst : Vector α (triangle k), ∃ dst' : Vector α (triangle k),
        pack A.entries.toArray dst (.square k) 0 0 = .ok ⟨.ok (), dst'⟩ ∧
        (Matrix.ofGrid A).toPacked (triangle k) = .ok dst'.toList) ∧
      ∀ y : Vector α (triangle k), ∃ B : Grid k k α,
        unpack y.toArray A.entries (.square k) 0 0 = .ok ⟨.ok (), B.entries⟩ ∧
        (Matrix.ofGrid A).setPacked y.toArray = .ok (.ofGrid B) :=
  ⟨fun _ _ _ _ _ _ _ h => packsAt_of_pack h, fun _ _ _ _ _ _ _ h => unpacksAt_of_unpack h,
    fun _ hk A => ⟨toPacked_eq_pack hk A, setPacked_eq_unpack hk A⟩⟩

/-- An orthant of dimension one, a second order cone of dimension three and semidefinite cones of
orders one and two. -/
def twoSquares : ConeDims := ⟨1, [3], [1, 2], by simp⟩

/-- A vector of that product with one nonlinear constraint. -/
def oneToTen : Array Float := #[1, 2, 3, 4, 5, 6, 7, 8, 9, 10]

/-- The vector packed at the third place of a buffer and unpacked again, and a matrix of order two
by itself. -/
theorem packed_places_twoSquares :
    ∃ (dst : Vector Float 11) (z : Vector Float 10),
      pack oneToTen (Vector.replicate 11 0) twoSquares 1 2 = .ok ⟨.ok (), dst⟩ ∧
      PacksAt twoSquares 1 2 oneToTen dst.toArray ∧
      unpack dst.toArray (Vector.replicate 10 0) twoSquares 1 2 = .ok ⟨.ok (), z⟩ ∧
      UnpacksAt twoSquares 1 2 dst.toArray z.toArray ∧
      2 * 2 < Word.limit ∧ ∀ A : Grid 2 2 Float, ∃ packed : Vector Float (triangle 2),
        (Matrix.ofGrid A).toPacked (triangle 2) = .ok packed.toList := by
  obtain ⟨hpack, hunpack, hmatrix⟩ := packed_places (α := Float)
  have hfits : PackingFits twoSquares 1 2 oneToTen.size 11 :=
    ⟨rfl, by decide, by decide, by decide⟩
  obtain ⟨dst, hdst, -⟩ := hfits.packed (Vector.replicate 11 0)
  have hfits' : PackingFits twoSquares 1 2 10 dst.toArray.size := by
    rw [dst.size_toArray]
    exact hfits
  obtain ⟨z, hz, -⟩ := hfits'.unpacked (Vector.replicate 10 0)
  have hk : 2 * 2 < Word.limit := by decide
  refine ⟨dst, z, hdst, hpack _ _ _ _ _ _ _ hdst, hz, hunpack _ _ _ _ _ _ _ hz, hk, fun A => ?_⟩
  obtain ⟨packed, -, hpacked⟩ := (hmatrix 2 hk A).1 (Vector.replicate (triangle 2) 0)
  exact ⟨packed, hpacked⟩

end ConicSaddle
