import ConicSaddle.Proofs.Dense.Product
import ConicSaddle.Proofs.Scaling.Blocks

/-!
# The action of a scaling block by block

Applying a scaling whose sizes fit succeeds, and every block acts on its own slice.  What remains of
earlier uses of the workspace enters the products of a semidefinite block only behind a factor of
zero, so that the action is a relation.

* `ScalingBlock.Acts`: what a block makes of its slice;
* `exists_apply`, `exists_scaleBlocks`, `exists_scale`: one block, several blocks, the scaling.
-/

namespace ConicSaddle

open ConeDims (total)
open Vec (entries)

variable {α : Type} [Scalar α]

/-- The first entries as a vector. -/
def firstEntries (n : ℕ) (x : ℕ → α) : Vector α n := .ofFn fun i => x i.val

omit [Scalar α] in
theorem firstEntries_congr {n : ℕ} {x y : ℕ → α} (h : AgreeTo n x y) :
    firstEntries n x = firstEntries n y := by
  unfold firstEntries
  exact congrArg Vector.ofFn (funext fun i => h i i.isLt)

theorem firstEntries_entries {n : ℕ} (x : Vector α n) : firstEntries n (entries x.toArray) = x := by
  unfold firstEntries
  apply Vec.ext_get
  intro i
  rw [Vec.get_ofFn, Vec.entries_get]

/-- The symmetric grid whose lower triangle stands in the entries, column after column. -/
def mirroredGrid (k : ℕ) (x : ℕ → α) : Grid k k α :=
  .ofFn fun i j => x ((lowerPlace i j).1 + k * (lowerPlace i j).2)

omit [Scalar α] in
theorem mirroredGrid_congr {k : ℕ} {x y : ℕ → α} (h : AgreeTo (k * k) x y) :
    mirroredGrid k x = mirroredGrid k y := by
  unfold mirroredGrid
  exact congrArg Grid.ofFn (funext fun i => funext fun j => h _ (Grid.place_lt _ _))

namespace ScalingBlock

/-! ### What a block does -/

/-- The product of two square grids, as it is written over the old entries. -/
def storedProduct {k : ℕ} (a b : ℕ → ℕ → α) (old : Grid k k α) : Grid k k α :=
  .ofFn fun i j => blend 1 (rowSum k fun l => a i l * b l j) 0 (old.get i j)

theorem mul_eq_storedProduct {k : ℕ} (C : Grid k k α) {A B : Operand α} {a b : ℕ → ℕ → α}
    (hA : A.Shows k k a) (hB : B.Shows k k b) : C.mul A B 1 0 = .ok (storedProduct a b C) :=
  C.mul_eq_ok hA hB 1 0

/-- The second grid is `Rᵀ X R`, or `R X Rᵀ`, computed by two products. -/
def Congruent {k : ℕ} (R : Grid k k α) (transposeFirst : Bool) (X N : Grid k k α) : Prop :=
  ∃ old : Grid k k α, N =
    if transposeFirst then storedProduct (storedProduct (fun i l => R.at l i) X.at old).at R.at X
    else storedProduct R.at (storedProduct X.at (fun l j => R.at j l) old).at X

/-- What a block makes of its slice. -/
def Acts (mode : ScalingMode) : ScalingBlock α → (ℕ → α) → (ℕ → α) → Prop
  | diagonal w winv, x, y => ∀ i, y i.val = x i.val * (if mode.inverse then winv else w).get i
  | secondOrder v beta, x, y => ∃ z,
    (if mode.inverse then reflectBack v beta (firstEntries v.size x)
      else reflect v beta (firstEntries v.size x)) = .ok z ∧ AgreeTo v.size y (entries z.toArray)
  | semidefinite (k := k) r rti, x, y => ∃ N : Grid k k α,
    Congruent (if mode.inverse then rti else r) (mode.transposed == mode.inverse)
      (mirroredGrid k x) N ∧ ∀ i j : Fin k, y (i + k * j) = N.symm i j

/-- The action concerns the slice only. -/
theorem Acts.congr {mode : ScalingMode} {block : ScalingBlock α} {x x' y y' : ℕ → α}
    (hx : AgreeTo block.numel x x') (hy : AgreeTo block.numel y y') (h : block.Acts mode x y) :
    block.Acts mode x' y' := by
  cases block with
  | diagonal w winv =>
    intro i
    rw [← hx i i.isLt, ← hy i i.isLt]
    exact h i
  | secondOrder v beta =>
    obtain ⟨z, hz, hyz⟩ := h
    have hfirst : firstEntries v.size x = firstEntries v.size x' := firstEntries_congr hx
    rw [hfirst] at hz
    exact ⟨z, hz, fun i hi => (hy i hi).symm.trans (hyz i hi)⟩
  | semidefinite r rti =>
    obtain ⟨N, hN, hyN⟩ := h
    have hgrid : mirroredGrid _ x = mirroredGrid _ x' := mirroredGrid_congr hx
    rw [hgrid] at hN
    exact ⟨N, hN, fun i j => (hy _ (Grid.place_lt i j)).symm.trans (hyN i j)⟩

/-! ### One block -/

/-- The congruence of a semidefinite block. -/
theorem exists_congruence {k : ℕ} (R : Grid k k α) (transposeFirst : Bool)
    (x : Vector α (k * k)) (work : Workspace α) :
    ∃ y work', congruence R transposeFirst x work = .ok (y, work') ∧ work'.order = work.order ∧
      ∃ N, Congruent R transposeFirst (mirroredGrid k (entries x.toArray)) N ∧
        ∀ i j : Fin k, entries y.toArray (i + k * j) = N.symm i j := by
  by_cases hk : k = 0
  · subst hk
    refine ⟨x, work, rfl, rfl, _, ⟨.ofFn fun i _ => i.elim0, rfl⟩, ?_⟩
    intro i
    exact i.elim0
  let X : Grid k k α := mirroredGrid k (entries x.toArray)
  -- the block that is read is the whole vector
  obtain ⟨block, hblock, hentries⟩ := Vec.exists_slice x.toArray 0 (k * k) (by simp)
  have hread : (work.first.grid.resize k k 0).writeSymm
      ((lowerTriangle k).map fun p => (p, (⟨block⟩ : Grid k k α).get p.1 p.2)) = X := by
    apply Grid.ext_get
    intro i j
    show _ = (mirroredGrid k (entries x.toArray)).get i j
    unfold mirroredGrid
    rw [Grid.get_writeSymm_get, Grid.symm_eq_get, Grid.get_ofFn, ← Vec.entries_grid,
      hentries _ (Grid.place_lt _ _), Nat.zero_add]
  -- and what is written back covers it
  have hwrite : ∀ N : Grid k k α, ∃ y, splice x 0 ((⟨block⟩ : Grid k k α).writeSymm
      ((lowerTriangle k).map fun p => (p, N.get p.1 p.2))).entries.toArray = .ok y ∧
        ∀ i j : Fin k, entries y.toArray (i + k * j) = N.symm i j := by
    intro N
    obtain ⟨y, hy, hyentries⟩ := Vec.exists_splice x 0 ((⟨block⟩ : Grid k k α).writeSymm
      ((lowerTriangle k).map fun p => (p, N.get p.1 p.2))).entries.toArray (by simp)
    refine ⟨y, hy, ?_⟩
    intro i j
    have hplace := Grid.place_lt i j
    rw [hyentries _ hplace, if_pos (by rw [Vector.size_toArray]; omega), Nat.sub_zero,
      Vec.entries_grid, Grid.get_writeSymm_get]
  cases transposeFirst with
  | true =>
    let T := storedProduct (fun i l => R.at l i) X.at (work.second.grid.resize k k 0)
    have hT : (work.second.grid.resize k k 0).mul (Matrix.ofGrid R).adjoint
        (Matrix.ofGrid X).plain 1 0 = .ok T :=
      mul_eq_storedProduct _ (Matrix.shows_adjoint R) (Matrix.shows_plain X)
    have hN := mul_eq_storedProduct X (Matrix.shows_plain T) (Matrix.shows_plain R)
    obtain ⟨y, hy, hyN⟩ := hwrite (storedProduct T.at R.at X)
    refine ⟨y, { work with first := .ofGrid (storedProduct T.at R.at X), second := .ofGrid T }, ?_,
      rfl, storedProduct T.at R.at X, ⟨_, rfl⟩, hyN⟩
    simp only [congruence, if_neg hk, hblock, Checked.ok_bind, hread, if_true, hT, hN, hy,
      Checked.pure_eq_ok]
  | false =>
    let T := storedProduct X.at (fun l j => R.at j l) (work.second.grid.resize k k 0)
    have hT : (work.second.grid.resize k k 0).mul (Matrix.ofGrid X).plain
        (Matrix.ofGrid R).adjoint 1 0 = .ok T :=
      mul_eq_storedProduct _ (Matrix.shows_plain X) (Matrix.shows_adjoint R)
    have hN := mul_eq_storedProduct X (Matrix.shows_plain R) (Matrix.shows_plain T)
    obtain ⟨y, hy, hyN⟩ := hwrite (storedProduct R.at T.at X)
    refine ⟨y, { work with first := .ofGrid (storedProduct R.at T.at X), second := .ofGrid T }, ?_,
      rfl, storedProduct R.at T.at X, ⟨_, rfl⟩, hyN⟩
    simp only [congruence, if_neg hk, hblock, Checked.ok_bind, hread, Bool.false_eq_true, if_false,
      hT, hN, hy, Checked.pure_eq_ok]

/-- The action of a diagonal block. -/
theorem exists_apply_diagonal {n : ℕ} (mode : ScalingMode) (w winv x : Vector α n)
    (work : Workspace α) :
    ∃ y, (diagonal w winv).apply mode x work = .ok (y, work) ∧
      (diagonal w winv).Acts mode (entries x.toArray) (entries y.toArray) := by
  refine ⟨_, rfl, ?_⟩
  intro i
  have hsize : i.val < (if mode.inverse then winv else w).toArray.size := by
    rw [Vector.size_toArray]
    exact i.isLt
  rw [Vec.entries_get, Vec.entries_get]
  unfold Vec.hadamard
  rw [Vec.get_ofFn, dif_pos hsize]
  rfl

/-- The action of a second order block. -/
theorem exists_apply_secondOrder (mode : ScalingMode) (v : Array α) (beta : α) (hv : 0 < v.size)
    (x : Vector α v.size) (work : Workspace α) :
    ∃ y, (secondOrder v beta).apply mode x work = .ok (y, work) ∧
      (secondOrder v beta).Acts mode (entries x.toArray) (entries y.toArray) := by
  have hx := firstEntries_entries x
  cases hinverse : mode.inverse with
  | true =>
    obtain ⟨y, hy⟩ : ∃ y, reflectBack v beta x = .ok y := by
      unfold reflectBack
      rw [dif_pos ⟨hv, hv⟩]
      exact ⟨_, rfl⟩
    refine ⟨y, ?_, y, ?_, fun _ _ => rfl⟩
    · simp only [apply, hinverse, if_true, hy, Checked.ok_bind, Checked.pure_eq_ok]
    · rw [hinverse, hx, if_pos rfl, hy]
  | false =>
    obtain ⟨y, hy⟩ : ∃ y, reflect v beta x = .ok y := by
      unfold reflect
      rw [dif_pos ⟨hv, hv⟩]
      exact ⟨_, rfl⟩
    refine ⟨y, ?_, y, ?_, fun _ _ => rfl⟩
    · simp only [apply, hinverse, Bool.false_eq_true, if_false, hy, Checked.ok_bind,
        Checked.pure_eq_ok]
    · rw [hinverse, hx, if_neg Bool.false_ne_true, hy]

/-- The action of a block on a vector of its size. -/
theorem exists_apply (mode : ScalingMode) {block : ScalingBlock α} (hproper : block.Proper)
    (x : Vector α block.numel) (work : Workspace α) :
    ∃ y work', block.apply mode x work = .ok (y, work') ∧ work'.order = work.order ∧
      block.Acts mode (entries x.toArray) (entries y.toArray) := by
  cases block with
  | diagonal w winv =>
    obtain ⟨y, hy, hacts⟩ := exists_apply_diagonal mode w winv x work
    exact ⟨y, work, hy, rfl, hacts⟩
  | secondOrder v beta =>
    obtain ⟨y, hy, hacts⟩ := exists_apply_secondOrder mode v beta hproper x work
    exact ⟨y, work, hy, rfl, hacts⟩
  | semidefinite r rti =>
    exact exists_congruence (if mode.inverse then rti else r) (mode.transposed == mode.inverse) x
      work

end ScalingBlock

/-! ### Several blocks -/

/-- The actions on consecutive slices from a place on. -/
theorem exists_scaleBlocks {d : ℕ} (mode : ScalingMode) (blocks : List (ScalingBlock α))
    (hproper : ∀ block ∈ blocks, block.Proper) (start : ℕ) (x : Vector α d) (work : Workspace α)
    (hd : start + total blocks ScalingBlock.numel ≤ d) :
    ∃ y work', scaleBlocks mode blocks start x work = .ok (y, work') ∧ work'.order = work.order ∧
      EachBlock ScalingBlock.numel ScalingBlock.numel (ScalingBlock.Acts mode) blocks
        (shift start (entries x.toArray)) (shift start (entries y.toArray)) ∧
      ∀ i < start, entries y.toArray i = entries x.toArray i := by
  induction blocks generalizing start x work with
  | nil => exact ⟨x, work, rfl, rfl, trivial, fun _ _ => rfl⟩
  | cons block blocks ih =>
    rw [ConeDims.total_cons] at hd
    obtain ⟨part, hpart, hpart'⟩ := Vec.exists_slice x.toArray start block.numel
      (by rw [Vector.size_toArray]; omega)
    obtain ⟨image, work₁, himage, horder₁, hacts⟩ :=
      block.exists_apply mode (hproper block List.mem_cons_self) part work
    obtain ⟨mid, hmid, hmid'⟩ := Vec.exists_splice x start image.toArray
      (by rw [Vector.size_toArray]; omega)
    rw [Vector.size_toArray] at hmid'
    obtain ⟨y, work', hy, horder, heach, hfront⟩ :=
      ih (fun b hb => hproper b (List.mem_cons_of_mem block hb)) (start + block.numel) mid work₁
        (by omega)
    refine ⟨y, work', ?_, horder.trans horder₁, ⟨?_, ?_⟩, ?_⟩
    · unfold scaleBlocks
      rw [hpart, Checked.ok_bind, himage, Checked.ok_bind]
      exact (congrArg (· >>= _) hmid).trans hy
    · -- the slice is written once and not touched again
      refine hacts.congr hpart' ?_
      intro i hi
      rw [shift_apply, hfront _ (by omega), hmid' _ (by omega), if_pos (by omega),
        Nat.add_sub_cancel_left]
    · -- the other blocks find their slices as they were
      have hrest : shift (start + block.numel) (entries mid.toArray) =
          shift (start + block.numel) (entries x.toArray) := by
        funext i
        rw [shift_apply, shift_apply]
        by_cases hi : start + block.numel + i < d
        · rw [hmid' _ hi, if_neg (by omega)]
        · unfold entries
          rw [Array.getD_eq_getD_getElem?, Array.getD_eq_getD_getElem?,
            Array.getElem?_eq_none (by rw [Vector.size_toArray]; omega),
            Array.getElem?_eq_none (by rw [Vector.size_toArray]; omega)]
      rw [shift_shift, shift_shift, ← hrest]
      exact heach
    · intro i hi
      rw [hfront i (by omega), hmid' i (by omega), if_neg (by omega)]

/-! ### The whole scaling -/

/-- The action of a scaling whose sizes fit. -/
theorem Scaling.exists_scale {W : Scaling α} {dims : ConeDims} {mnl u d : ℕ}
    {blocks : List (ScalingBlock α)} (hW : W.checkDims dims mnl = .ok ())
    (hblocks : W.blocks = .ok blocks) (hu : dims.numelUnpacked = .ok u) (hd : d = mnl + u)
    (hfits : d < Word.limit) (mode : ScalingMode) (x : Vector α d) (work : Workspace α)
    (hwork : dims.maxOrder ≤ work.order) :
    ∃ y work', W.scale x dims mnl mode work = .ok ⟨.ok (), (y, work')⟩ ∧
      work'.order = work.order ∧
      EachBlock ScalingBlock.numel ScalingBlock.numel (ScalingBlock.Acts mode) blocks
        (entries x.toArray) (entries y.toArray) := by
  have hfit := fits_of_checkDims hW
  have htotal : total blocks ScalingBlock.numel = d := by
    rw [hfit.total_numel hblocks, hd, ConeDims.numelUnpacked_eq_ok hu]
  obtain ⟨y, work', hy, horder, heach, -⟩ := exists_scaleBlocks mode blocks
    (fun block hb => hfit.proper_of_mem hblocks hb) 0 x work (by omega)
  rw [shift_zero, shift_zero] at heach
  refine ⟨y, work', ?_, horder, heach⟩
  unfold scale
  rw [hW]
  simp only [hu, Checked.ok_bind, Word.add_of_lt (show mnl + u < Word.limit by omega),
    checkLength, if_pos hd, if_neg (Nat.not_lt.mpr hwork), hblocks, hy, Checked.pure_eq_ok]

end ConicSaddle
