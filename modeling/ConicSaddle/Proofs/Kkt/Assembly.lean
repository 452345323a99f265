import ConicSaddle.Proofs.Cone.Packing
import ConicSaddle.Proofs.Dense.Block
import ConicSaddle.Proofs.Kkt.Lifecycle
import ConicSaddle.Proofs.Scaling.Action

/-!
# What is assembled

The matrix that is factored, entry by entry, in any arithmetic, and the scaled and packed vectors
that its last rows are made of.  No call faults once the sizes have been checked.

* `Problem.constraint`: a column of the constraints in unpacked layout;
* `Reduces`: a sequence is the packed image of another one under `W⁻ᵀ`;
* `ConeColumn`, `HoldsColumn`: a column of the constraints after scaling and packing, by itself and
  in a matrix;
* `Assembled`, `exists_assemble`: the matrix.
-/

namespace ConicSaddle

open ConeDims (total)
open Vec (entries)

variable {α : Type} [Scalar α] {P : Problem α} {W : Scaling α} {H Df : Option (Matrix α)}

/-! ### Sizes -/

omit [Scalar α] in
theorem Problem.order_lt (P : Problem α) : P.order < Word.limit := by
  have h := P.order_fits
  unfold order vars eqs coneRows
  omega

omit [Scalar α] in
theorem Problem.unpacked_eq (P : Problem α) : P.unpacked = P.dims.unpackedSize :=
  ConeDims.numelUnpacked_eq_ok P.numelUnpacked_eq

omit [Scalar α] in
theorem Problem.packed_eq (P : Problem α) : P.packed = P.dims.packedSize :=
  ConeDims.numelPacked_eq_ok P.numelPacked_eq

/-- The sizes of a Hessian, of a Jacobian and of a scaling. -/
structure Problem.Accepts (P : Problem α) (W : Scaling α) (H Df : Option (Matrix α)) : Prop where
  hessian : ∀ M, H = some M → M.size = (P.vars, P.vars)
  jacobian : ∀ M, Df = some M → M.size = (P.mnl, P.vars)
  no_jacobian : Df = none → P.mnl = 0
  scaling : W.checkDims P.dims P.mnl = .ok ()

omit [Scalar α] in
/-- The check of the Jacobian, and the checks after it. -/
theorem Problem.check_jacobian {x : Except DimensionError Unit}
    (h : (match Df with
      | some M => (do checkSize "Df" M.size (P.mnl, P.vars); x)
      | none => (do checkInputs.checkNoJacobian P; x)) = .ok ()) :
    (∀ M, Df = some M → M.size = (P.mnl, P.vars)) ∧ (Df = none → P.mnl = 0) ∧ x = .ok () := by
  cases Df with
  | some M =>
    obtain ⟨hM, hx⟩ := check_then_eq_ok.mp h
    refine ⟨?_, nofun, hx⟩
    rintro N ⟨⟩
    exact checkSize_eq_ok.mp hM
  | none =>
    obtain ⟨hnone, hx⟩ := check_then_eq_ok.mp h
    refine ⟨nofun, fun _ => ?_, hx⟩
    unfold checkInputs.checkNoJacobian at hnone
    by_cases hmnl : 0 < P.mnl
    · rw [if_pos hmnl] at hnone
      cases hnone
    · omega

omit [Scalar α] in
theorem Problem.accepts_of_checkInputs (h : P.checkInputs W H Df = .ok ()) :
    P.Accepts W H Df := by
  cases H with
  | some M =>
    obtain ⟨hM, h⟩ := check_then_eq_ok.mp h
    obtain ⟨hDf, hmnl, hW⟩ := check_jacobian h
    refine ⟨?_, hDf, hmnl, hW⟩
    rintro N ⟨⟩
    exact checkSize_eq_ok.mp hM
  | none =>
    obtain ⟨-, h⟩ := check_then_eq_ok.mp h
    obtain ⟨hDf, hmnl, hW⟩ := check_jacobian h
    exact ⟨nofun, hDf, hmnl, hW⟩

/-! ### Columns of the constraints -/

/-- A column of the constraints in unpacked layout, that of the Jacobian on top. -/
def Problem.constraint (P : Problem α) (Df : Option (Matrix α)) (k i : ℕ) : α :=
  if i < P.mnl then
    match Df with
    | some Df => Df.grid.at i k
    | none => 0
  else P.G.grid.at (i - P.mnl) k

namespace Solver

/-- A column of the constraints written over a vector. -/
theorem exists_loadColumn (h : P.Accepts W H Df) (k : Fin P.vars) (g : Vector α P.rows) :
    ∃ g', loadColumn Df k g = .ok g' ∧
      AgreeTo P.rows (entries g'.toArray) (P.constraint Df k) := by
  have hG : (P.G.grid.col k).toArray.size = P.unpacked := by
    rw [Vector.size_toArray, P.G_rows]
  have hrows : P.rows = P.mnl + P.unpacked := rfl
  -- the conic constraints, below whatever stands on top
  have hconic : ∀ top : Vector α P.rows, ∃ g',
      splice top P.mnl (P.G.grid.col k).toArray = .ok g' ∧ ∀ i < P.rows, entries g'.toArray i =
        if P.mnl ≤ i then P.G.grid.at (i - P.mnl) k else entries top.toArray i := by
    intro top
    obtain ⟨g', hg', hentries⟩ := Vec.exists_splice top P.mnl (P.G.grid.col k).toArray (by omega)
    refine ⟨g', hg', fun i hi => ?_⟩
    rw [hentries i hi, hG]
    by_cases hle : P.mnl ≤ i
    · have hlt : i - P.mnl < P.G.rows := by
        rw [P.G_rows]
        omega
      rw [if_pos ⟨hle, by omega⟩, if_pos hle]
      exact Grid.entries_col P.G.grid k hlt
    · rw [if_neg fun h => hle h.1, if_neg hle]
  cases Df with
  | none =>
    obtain ⟨g', hg', hentries⟩ := hconic g
    refine ⟨g', hg', fun i hi => ?_⟩
    have hmnl := h.no_jacobian rfl
    unfold Problem.constraint
    rw [hentries i hi, if_pos (by omega), if_neg (by omega)]
  | some M =>
    obtain ⟨rows, cols, M⟩ := M
    have hsize := h.jacobian _ rfl
    obtain rfl : rows = P.mnl := congrArg Prod.fst hsize
    obtain rfl : cols = P.vars := congrArg Prod.snd hsize
    obtain ⟨top, htop, htop'⟩ := Vec.exists_splice g 0 (M.col k).toArray
      (by rw [Vector.size_toArray]; omega)
    rw [Vector.size_toArray] at htop'
    obtain ⟨g', hg', hentries⟩ := hconic top
    refine ⟨g', ?_, fun i hi => ?_⟩
    · unfold loadColumn
      have hcol : (⟨P.mnl, P.vars, M⟩ : Matrix α).col k.val = .ok (M.col k) := dif_pos k.isLt
      simp only [hcol, Checked.ok_bind, htop, hg']
    · unfold Problem.constraint
      rw [hentries i hi]
      by_cases hlt : i < P.mnl
      · rw [if_neg (by omega), if_pos hlt, htop' i hi, if_pos (by omega), Nat.sub_zero]
        exact Grid.entries_col M k hlt
      · rw [if_pos (by omega), if_neg hlt]

/-! ### The blocks of a scaling and of the layout -/

section

variable {blocks : List (ScalingBlock α)} (hfits : W.Fits P.dims P.mnl)
  (hblocks : W.blocks = .ok blocks)
include hfits hblocks

omit [Scalar α] in
theorem total_numel : total blocks ScalingBlock.numel = P.rows := by
  rw [hfits.total_numel hblocks, ← P.unpacked_eq]
  rfl

omit [Scalar α] in
theorem total_packedSize : total blocks ScalingBlock.packedSize = P.coneRows := by
  have htotal : total (blocks.map ScalingBlock.cone) ConeBlock.packedSize =
      total blocks ScalingBlock.packedSize := ConeDims.total_map _ _ _
  rw [← htotal, hfits.map_cone hblocks, ConeDims.total_layout_packed, ← P.packed_eq]
  rfl

end

/-! ### Assembling -/

/-- A sequence is the packed image of another one under `W⁻ᵀ`, where the blocks are those of `W`. -/
def Reduces (P : Problem α) (blocks : List (ScalingBlock α)) (x v : ℕ → α) : Prop :=
  ∃ y, EachBlock ScalingBlock.numel ScalingBlock.numel (ScalingBlock.Acts ⟨true, true⟩) blocks x y ∧
    AgreeTo P.coneRows v (packedVector P.dims P.mnl y)

theorem Reduces.congr {blocks : List (ScalingBlock α)} {x x' v v' : ℕ → α}
    (h : Reduces P blocks x v) (hblocks : total blocks ScalingBlock.numel = P.rows)
    (hx : AgreeTo P.rows x x') (hv : AgreeTo P.coneRows v v') : Reduces P blocks x' v' := by
  obtain ⟨y, hy, hvy⟩ := h
  refine ⟨y, ?_, fun t ht => (hv t ht).symm.trans (hvy t ht)⟩
  rw [← hblocks] at hx
  exact hy.congr (fun block _ _ _ _ _ hx hy h => h.congr hx hy) hx fun _ _ => rfl

variable {blocks : List (ScalingBlock α)}

/-- A vector scaled by `W⁻ᵀ` and packed behind the variables and the equality constraints, where it
becomes what it becomes by itself. -/
theorem exists_scale_pack (hW : W.checkDims P.dims P.mnl = .ok ()) (hblocks : W.blocks = .ok blocks)
    (g : Vector α P.rows) (work : Workspace α) (hwork : P.dims.maxOrder ≤ work.order)
    (dst : Vector α P.order) :
    ∃ g' work' column dst', W.scale g P.dims P.mnl ⟨true, true⟩ work = .ok ⟨.ok (), (g', work')⟩ ∧
      work'.order = work.order ∧
      pack g'.toArray (Vector.replicate P.coneRows 0) P.dims P.mnl 0 = .ok ⟨.ok (), column⟩ ∧
      Reduces P blocks (entries g.toArray) (entries column.toArray) ∧
      pack g'.toArray dst P.dims P.mnl (P.vars + P.eqs) = .ok ⟨.ok (), dst'⟩ ∧
      AgreeTo P.coneRows (shift (P.vars + P.eqs) (entries dst'.toArray)) (entries column.toArray) ∧
      ∀ i < P.vars + P.eqs, entries dst'.toArray i = entries dst.toArray i := by
  have hrows := P.rows_fit
  obtain ⟨g', work', hscale, horder, hacts⟩ := W.exists_scale hW hblocks P.numelUnpacked_eq rfl
    hrows ⟨true, true⟩ g work hwork
  have hcone : P.coneRows = P.mnl + P.packed := rfl
  have horderEq : P.order = P.vars + P.eqs + P.coneRows := rfl
  have horderLt := P.order_lt
  -- the vector fits in a column of the matrix and in a buffer of its own
  have hpack : ∀ {d offset : ℕ} (dst : Vector α d), offset + P.coneRows ≤ d →
      offset + P.coneRows < Word.limit →
      ∃ dst', pack g'.toArray dst P.dims P.mnl offset = .ok ⟨.ok (), dst'⟩ ∧ ∀ i < d, _ :=
    fun dst hroom hstop => exists_pack P.numelUnpacked_eq P.numelPacked_eq g'.size_toArray
      (by rw [g'.size_toArray]; exact hrows) hroom hstop
  obtain ⟨column, hcolumn, hentries⟩ := hpack (Vector.replicate P.coneRows 0)
    (Nat.le_of_eq (Nat.zero_add _)) (by omega)
  obtain ⟨dst', hdst', hentries'⟩ := hpack dst (Nat.le_of_eq horderEq.symm) (by omega)
  have hpacked : AgreeTo P.coneRows (entries column.toArray)
      (packedVector P.dims P.mnl (entries g'.toArray)) := by
    intro t ht
    rw [hentries t ht, if_pos (by omega), Nat.sub_zero]
  refine ⟨g', work', column, dst', hscale, horder, hcolumn, ⟨_, hacts, hpacked⟩, hdst', ?_, ?_⟩
  · intro t ht
    rw [hpacked t ht, shift_apply, hentries' _ (by omega), if_pos (by omega),
      Nat.add_sub_cancel_left]
  · intro i hi
    rw [hentries' _ (by omega), if_neg (by omega)]

/-- What scaling by `W⁻ᵀ`, with a workspace for its products, and packing make of a column of the
constraints. -/
def ConeColumn (P : Problem α) (W : Scaling α) (Df : Option (Matrix α)) (work : Workspace α)
    (k : ℕ) (column : Vector α P.coneRows) : Prop :=
  ∃ scaled work',
    W.scale (Vector.ofFn fun i : Fin P.rows => P.constraint Df k i) P.dims P.mnl ⟨true, true⟩ work =
      .ok ⟨.ok (), (scaled, work')⟩ ∧
    pack scaled.toArray (Vector.replicate P.coneRows 0) P.dims P.mnl 0 = .ok ⟨.ok (), column⟩

section

variable {work : Workspace α} {k : ℕ} {column : Vector α P.coneRows}

/-- For a scaling whose sizes fit there is such a column. -/
theorem exists_coneColumn (hW : W.checkDims P.dims P.mnl = .ok ()) (hblocks : W.blocks = .ok blocks)
    (hwork : P.dims.maxOrder ≤ work.order) (Df : Option (Matrix α)) (k : ℕ) :
    ∃ column, ConeColumn P W Df work k column ∧
      Reduces P blocks (P.constraint Df k) (entries column.toArray) := by
  obtain ⟨scaled, work', column, -, hscale, -, hpack, hreduces, -⟩ :=
    exists_scale_pack hW hblocks (Vector.ofFn fun i : Fin P.rows => P.constraint Df k i) work hwork
      (Vector.replicate P.order 0)
  refine ⟨column, ⟨scaled, work', hscale, hpack⟩, hreduces.congr
    (total_numel (Scaling.fits_of_checkDims hW) hblocks) (fun i hi => ?_) fun _ _ => rfl⟩
  rw [Vec.entries_ofFn _ hi]

theorem ConeColumn.reduces (h : ConeColumn P W Df work k column)
    (hW : W.checkDims P.dims P.mnl = .ok ()) (hblocks : W.blocks = .ok blocks)
    (hwork : P.dims.maxOrder ≤ work.order) :
    Reduces P blocks (P.constraint Df k) (entries column.toArray) := by
  obtain ⟨scaled, work', hscale, hpack⟩ := h
  obtain ⟨column', ⟨scaled', work'', hscale', hpack'⟩, hreduces⟩ :=
    exists_coneColumn hW hblocks hwork Df k
  cases hscale.symm.trans hscale'
  cases hpack.symm.trans hpack'
  exact hreduces

end

/-- The rows of the cones hold, in column `k` of a matrix, what some workspace made of column `k` of
the constraints. -/
def HoldsColumn (P : Problem α) (W : Scaling α) (Df : Option (Matrix α))
    (K : Grid P.order P.order α) (k : ℕ) : Prop :=
  ∃ work column, P.dims.maxOrder ≤ work.order ∧ ConeColumn P W Df work k column ∧
    AgreeTo P.coneRows (fun t => K.at (P.vars + P.eqs + t) k) (entries column.toArray)

theorem HoldsColumn.reduces {K : Grid P.order P.order α} {k : ℕ} (h : HoldsColumn P W Df K k)
    (hW : W.checkDims P.dims P.mnl = .ok ()) (hblocks : W.blocks = .ok blocks) :
    Reduces P blocks (P.constraint Df k) fun t => K.at (P.vars + P.eqs + t) k := by
  obtain ⟨work, column, hwork, hcolumn, hK⟩ := h
  exact (hcolumn.reduces hW hblocks hwork).congr
    (total_numel (Scaling.fits_of_checkDims hW) hblocks) (fun _ _ => rfl)
    fun t ht => (hK t ht).symm

/-- The column is not looked at above those rows. -/
theorem HoldsColumn.congr {K K' : Grid P.order P.order α} {k : ℕ} (h : HoldsColumn P W Df K k)
    (hK : ∀ t < P.coneRows, K'.at (P.vars + P.eqs + t) k = K.at (P.vars + P.eqs + t) k) :
    HoldsColumn P W Df K' k := by
  obtain ⟨work, column, hwork, hcolumn, hentries⟩ := h
  exact ⟨work, column, hwork, hcolumn, fun t ht => (hK t ht).trans (hentries t ht)⟩

/-- The columns of some variables. -/
theorem exists_assembleColumns (h : P.Accepts W H Df) (hblocks : W.blocks = .ok blocks)
    (ks : List (Fin P.vars)) (hks : ks.Nodup) (S : Solver P)
    (hwork : P.dims.maxOrder ≤ S.workspace.order) :
    ∃ T, assembleColumns W Df ks S = .ok ⟨.ok (), T⟩ ∧ T.workspace.order = S.workspace.order ∧
      (∀ k ∈ ks, HoldsColumn P W Df T.K k) ∧
      ∀ i j : Fin P.order, (i.val < P.vars + P.eqs ∨ ∀ k ∈ ks, j.val ≠ k.val) →
        T.K.get i j = S.K.get i j := by
  induction ks generalizing S with
  | nil => exact ⟨S, rfl, rfl, nofun, fun _ _ _ => rfl⟩
  | cons k ks ih =>
    obtain ⟨hk, hnodup⟩ := List.nodup_cons.mp hks
    obtain ⟨g, hg, hconstraint⟩ := exists_loadColumn h k S.g
    have hgk : g = Vector.ofFn fun i : Fin P.rows => P.constraint Df k i := by
      refine Vec.ext_entries fun i hi => ?_
      rw [hconstraint i hi, Vec.entries_ofFn _ hi]
    obtain ⟨g', work', made, column, hscale, horder, hmade, -, hpack, hentries, hfront⟩ :=
      exists_scale_pack h.scaling hblocks g S.workspace hwork (S.K.col (P.column k))
    obtain ⟨T, hT, hworkT, hcolumns, hsame⟩ := ih hnodup
      { S with g := g', workspace := work', K := S.K.setCol (P.column k) column }
      (by rw [horder]; exact hwork)
    refine ⟨T, ?_, hworkT.trans horder, ?_, ?_⟩
    · simp only [assembleColumns, hg, Checked.ok_bind, hscale, hpack]
      exact hT
    · intro k' hk'
      rcases List.mem_cons.mp hk' with rfl | hk'
      · -- the column is not written again
        rw [hgk] at hscale
        refine ⟨S.workspace, made, hwork, ⟨g', work', hscale, hmade⟩, fun t ht => ?_⟩
        have ht' : P.vars + P.eqs + t < P.order := Nat.add_lt_add_left ht _
        have hother : ∀ c ∈ ks, (P.column k').val ≠ c.val := by
          intro c hc heq
          have hkc : k' = c := Fin.ext heq
          exact hk (hkc ▸ hc)
        have hkept := hsame ⟨_, ht'⟩ (P.column k') (.inr hother)
        rw [Grid.get_setCol, if_pos rfl, Vec.get_eq_entries _ ht'] at hkept
        rw [← hentries t ht, shift_apply, ← hkept]
        exact T.K.at_val ⟨_, ht'⟩ (P.column k')
      · exact hcolumns k' hk'
    · intro i j hij
      rw [hsame i j (hij.imp_right fun hj c hc => hj c (List.mem_cons_of_mem k hc)),
        Grid.get_setCol]
      by_cases hj : j = P.column k
      · rcases hij with hi | hall
        · rw [if_pos hj, hj, ← Vec.entries_get, hfront _ hi, Vec.entries_get, Grid.get_col]
        · exact absurd (congrArg Fin.val hj) (hall k List.mem_cons_self)
      · rw [if_neg hj]

/-- An entry of the Hessian, zero if there is none. -/
def hessianAt (H : Option (Matrix α)) (i j : ℕ) : α :=
  match H with
  | some M => M.grid.at i j
  | none => 0

/-- The entries of an assembled matrix. -/
structure Assembled (P : Problem α) (blocks : List (ScalingBlock α)) (H Df : Option (Matrix α))
    (K : Grid P.order P.order α) : Prop where
  hessian : ∀ i j : Fin P.order, i.val < P.vars → j.val < P.vars →
    K.get i j = hessianAt H i j
  equality : ∀ i j : Fin P.order, P.vars ≤ i.val → i.val < P.vars + P.eqs → j.val < P.vars →
    K.get i j = P.A.grid.at (i.val - P.vars) j
  constraint : ∀ k < P.vars,
    Reduces P blocks (P.constraint Df k) fun t => K.at (P.vars + P.eqs + t) k
  middle : ∀ i j : Fin P.order, P.vars ≤ i.val → P.vars ≤ j.val →
    (i.val < P.vars + P.eqs ∨ j.val < P.vars + P.eqs) → K.get i j = 0
  corner : ∀ i j : Fin P.order, P.vars + P.eqs ≤ i.val → P.vars + P.eqs ≤ j.val →
    K.get i j = if i = j then -1 else 0

theorem exists_openGrid (h : P.Accepts W H Df) :
    ∃ K, openGrid P H = .ok K ∧ ∀ i j : Fin P.order, K.get i j =
      if j.val < P.vars then
        if i.val < P.vars then hessianAt H i j
        else if i.val < P.vars + P.eqs then P.A.grid.at (i.val - P.vars) j
        else 0
      else 0 := by
  have horder : P.order = P.vars + P.eqs + P.coneRows := rfl
  -- the Hessian, or zeros
  obtain ⟨K₁, hK₁, hget₁⟩ : ∃ K₁, (match H with
      | some H => (Grid.replicate P.order P.order (0 : α)).setBlock 0 0 H.grid
      | none => pure (Grid.replicate P.order P.order 0)) = .ok K₁ ∧
      ∀ i j : Fin P.order, K₁.get i j =
        if i.val < P.vars ∧ j.val < P.vars then hessianAt H i j else 0 := by
    cases H with
    | none =>
      refine ⟨_, rfl, fun i j => ?_⟩
      rw [Grid.get_replicate]
      split
      · rfl
      · rfl
    | some M =>
      have hsize := h.hessian M rfl
      have hrows : M.rows = P.vars := congrArg Prod.fst hsize
      have hcols : M.cols = P.vars := congrArg Prod.snd hsize
      obtain ⟨K₁, hK₁, hget₁⟩ := (Grid.replicate P.order P.order (0 : α)).exists_setBlock 0 0 M.grid
        ⟨by omega, by omega⟩
      refine ⟨K₁, hK₁, fun i j => ?_⟩
      rw [hget₁, Grid.get_replicate, Nat.sub_zero, Nat.sub_zero]
      by_cases hin : i.val < P.vars ∧ j.val < P.vars
      · rw [if_pos hin, if_pos (by omega)]
        rfl
      · rw [if_neg hin, if_neg (by omega)]
  have hA : P.A.cols = P.vars := P.A_cols
  have hrows : P.A.rows = P.eqs := rfl
  obtain ⟨K₂, hK₂, hget₂⟩ := K₁.exists_setBlock P.vars 0 P.A.grid ⟨by omega, by omega⟩
  refine ⟨K₂, ?_, fun i j => ?_⟩
  · cases H with
    | none => exact Checked.bind_eq_ok.mpr ⟨K₁, hK₁, hK₂⟩
    | some M => exact Checked.bind_eq_ok.mpr ⟨K₁, hK₁, hK₂⟩
  · rw [hget₂, hget₁, Nat.sub_zero]
    by_cases hj : j.val < P.vars
    · rw [if_pos hj]
      by_cases hi : i.val < P.vars
      · rw [if_neg (by omega), if_pos ⟨hi, hj⟩, if_pos hi]
      · rw [if_neg hi]
        by_cases hi' : i.val < P.vars + P.eqs
        · rw [if_pos (by omega), if_pos hi']
        · rw [if_neg (by omega), if_neg fun h => hi h.1, if_neg hi']
    · rw [if_neg hj, if_neg (by omega), if_neg fun h => hj h.2]

theorem exists_closeGrid (K : Grid P.order P.order α) :
    ∃ K', closeGrid K = .ok K' ∧ ∀ i j : Fin P.order, K'.get i j =
      if P.vars + P.eqs ≤ i.val ∧ P.vars + P.eqs ≤ j.val then if i = j then -1 else 0
      else K.get i j := by
  have horder : P.order = P.vars + P.eqs + P.coneRows := rfl
  obtain ⟨K₁, hK₁, hget₁⟩ := K.exists_fillBlock (P.vars + P.eqs) (P.vars + P.eqs) P.coneRows
    P.coneRows 0 ⟨Nat.le_of_eq horder.symm, Nat.le_of_eq horder.symm⟩
  obtain ⟨K₂, hK₂, hget₂⟩ := K₁.exists_setBlockDiagonal (P.vars + P.eqs) P.coneRows (-1)
    ⟨Nat.le_of_eq horder.symm, Nat.le_of_eq horder.symm⟩
  refine ⟨K₂, ?_, fun i j => ?_⟩
  · unfold closeGrid
    rw [hK₁, Checked.ok_bind, hK₂]
  · have hi := i.isLt
    have hj := j.isLt
    rw [hget₂, hget₁]
    by_cases hin : P.vars + P.eqs ≤ i.val ∧ P.vars + P.eqs ≤ j.val
    · rw [if_pos hin]
      by_cases hij : i = j
      · rw [if_pos hij, if_pos ⟨congrArg Fin.val hij, hin.2, by omega⟩]
      · rw [if_neg hij, if_neg fun h => hij (Fin.ext h.1), if_pos (by omega)]
    · have hdiagonal : ¬(i.val = j.val ∧ P.vars + P.eqs ≤ j.val ∧
          j.val < P.vars + P.eqs + P.coneRows) := by
        rintro ⟨heq, hle, -⟩
        exact hin ⟨heq ▸ hle, hle⟩
      rw [if_neg hin, if_neg hdiagonal, if_neg fun h => hin ⟨h.1, h.2.2.1⟩]

/-- The assembly succeeds, and keeps a copy for refinement. -/
theorem exists_assemble (h : P.Accepts W H Df) (hblocks : W.blocks = .ok blocks) (S : Solver P)
    (hwork : P.dims.maxOrder ≤ S.workspace.order) :
    ∃ T, S.assemble W H Df = .ok ⟨.ok (), T⟩ ∧ T.workspace.order = S.workspace.order ∧
      Assembled P blocks H Df T.K ∧ (∀ k < P.vars, HoldsColumn P W Df T.K k) ∧
      (P.settings.refine = true → T.copy = T.K) := by
  have hvars := P.vars_le_order
  obtain ⟨K₁, hK₁, hget₁⟩ := exists_openGrid h
  obtain ⟨T, hT, horder, hcolumns, hsame⟩ := exists_assembleColumns h hblocks
    (List.finRange P.vars) (List.nodup_finRange _) { S with K := K₁ } hwork
  obtain ⟨K₂, hK₂, hget₂⟩ := exists_closeGrid T.K
  have hheld : ∀ k < P.vars, HoldsColumn P W Df K₂ k := by
    intro k hk
    refine (hcolumns ⟨k, hk⟩ (List.mem_finRange _)).congr fun t ht => ?_
    have ht' : P.vars + P.eqs + t < P.order := Nat.add_lt_add_left ht _
    have hk' : k < P.order := Nat.lt_of_lt_of_le hk hvars
    have hget := hget₂ ⟨_, ht'⟩ ⟨k, hk'⟩
    have hcol : ¬P.vars + P.eqs ≤ k := by omega
    rw [if_neg fun h => hcol h.2, ← Grid.at_val, ← Grid.at_val] at hget
    exact hget
  refine ⟨{ T with K := K₂, copy := if P.settings.refine then K₂ else T.copy }, ?_, horder, ?_,
    hheld, fun hrefine => if_pos hrefine⟩
  · simp only [assemble_eq, hK₁, Checked.ok_bind, hT, hK₂, Checked.pure_eq_ok]
  -- the columns of the variables are written above the last block, the others not at all
  have hfront : ∀ i j : Fin P.order, i.val < P.vars + P.eqs → K₂.get i j = K₁.get i j := by
    intro i j hi
    rw [hget₂, if_neg (by omega), hsame i j (.inl hi)]
  have hbehind : ∀ i j : Fin P.order, P.vars ≤ j.val → j.val < P.vars + P.eqs →
      K₂.get i j = K₁.get i j := by
    intro i j hj hj'
    rw [hget₂, if_neg (by omega), hsame i j (.inr fun c _ => by have := c.isLt; omega)]
  constructor
  · intro i j hi hj
    rw [hfront i j (by omega), hget₁, if_pos hj, if_pos hi]
  · intro i j hi hi' hj
    rw [hfront i j hi', hget₁, if_pos hj, if_neg (by omega), if_pos hi']
  · intro k hk
    exact (hheld k hk).reduces h.scaling hblocks
  · intro i j hi hj hij
    rcases hij with hi' | hj'
    · rw [hfront i j hi', hget₁, if_neg (by omega)]
    · rw [hbehind i j hj hj', hget₁, if_neg (by omega)]
  · intro i j hi hj
    rw [hget₂, if_pos ⟨hi, hj⟩]

end Solver

end ConicSaddle
