import Mathlib.Data.List.Forall2
import ConicSaddle.Proofs.Cone.Layout
import ConicSaddle.Scaling.Apply

/-!
# The blocks of a scaling

A scaling whose sizes were checked has one block for every block of the layout.

* `Scaling.Fits`, `checkDims_eq_ok`: what the check of the sizes says;
* `ScalingBlock.cone`: the block of a cone that a scaling block acts on;
* `Scaling.exists_blocks`: the blocks, each with the data of the scaling that it comes from;
* `Scaling.Fits.packedVector_eq_blockwise` and its companions: layouts over these blocks.
-/

namespace ConicSaddle

variable {α : Type}

/-! ### Sizes -/

/-- The sizes of a scaling are those that a descriptor asks for. -/
structure Scaling.Fits (W : Scaling α) (dims : ConeDims) (mnl : ℕ) : Prop where
  dnl : W.dnl.size = mnl
  dnli : W.dnli.size = mnl
  d : W.d.size = dims.l
  di : W.di.size = dims.l
  v : W.v.map Array.size = dims.q
  beta : W.beta.length = dims.q.length
  r : W.r.map Matrix.size = dims.s.map fun k => (k, k)
  rti : W.rti.map Matrix.size = dims.s.map fun k => (k, k)

theorem checkLength_eq_ok {name : String} {found expected : ℕ} :
    checkLength name found expected = .ok () ↔ found = expected := by
  unfold checkLength
  split
  · next h => exact ⟨fun _ => h, fun _ => rfl⟩
  · next h => exact ⟨nofun, fun h' => absurd h' h⟩

theorem checkSize_eq_ok {name : String} {found expected : ℕ × ℕ} :
    checkSize name found expected = .ok () ↔ found = expected := by
  unfold checkSize
  split
  · next h => exact ⟨fun _ => h, fun _ => rfl⟩
  · next h => exact ⟨nofun, fun h' => absurd h' h⟩

theorem checkBlocks_eq_ok {name : String} {found expected : ℕ} :
    checkBlocks name found expected = .ok () ↔ found = expected := by
  unfold checkBlocks
  split
  · next h => exact ⟨fun _ => h, fun _ => rfl⟩
  · next h => exact ⟨nofun, fun h' => absurd h' h⟩

/-- A check that was passed, and the checks after it. -/
theorem check_then_eq_ok {ε : Type} {x y : Except ε Unit} :
    (do x; y) = .ok () ↔ x = .ok () ∧ y = .ok () := by
  cases x with
  | error e => exact ⟨nofun, fun h => nomatch h.1⟩
  | ok u => exact ⟨fun h => ⟨rfl, h⟩, fun h => h.2⟩

theorem checkLengths_eq_ok {name : String} {vs : List (Array α)} {ns : List ℕ}
    (hlength : vs.length = ns.length) :
    Scaling.checkLengths name vs ns = .ok () ↔ vs.map Array.size = ns := by
  induction vs generalizing ns with
  | nil =>
    rw [List.length_eq_zero_iff.mp hlength.symm]
    exact ⟨fun _ => rfl, fun _ => rfl⟩
  | cons v vs ih =>
    cases ns with
    | nil => cases hlength
    | cons n ns =>
      show (do checkLength name v.size n; Scaling.checkLengths name vs ns) = .ok () ↔ _
      rw [check_then_eq_ok, checkLength_eq_ok, ih (Nat.succ.inj hlength), List.map_cons,
        List.cons.injEq]

theorem checkOrders_eq_ok {rs rtis : List (Matrix α)} {ks : List ℕ}
    (hr : rs.length = ks.length) (hrti : rtis.length = ks.length) :
    Scaling.checkOrders rs rtis ks = .ok () ↔
      rs.map Matrix.size = ks.map (fun k => (k, k)) ∧
        rtis.map Matrix.size = ks.map (fun k => (k, k)) := by
  induction ks generalizing rs rtis with
  | nil =>
    rw [List.length_eq_zero_iff.mp hr, List.length_eq_zero_iff.mp hrti]
    exact ⟨fun _ => ⟨rfl, rfl⟩, fun _ => rfl⟩
  | cons k ks ih =>
    cases rs with
    | nil => cases hr
    | cons r rs =>
    cases rtis with
    | nil => cases hrti
    | cons rti rtis =>
      show (do checkSize "r" r.size (k, k); checkSize "rti" rti.size (k, k)
               Scaling.checkOrders rs rtis ks) = .ok () ↔ _
      rw [check_then_eq_ok, check_then_eq_ok, checkSize_eq_ok, checkSize_eq_ok,
        ih (Nat.succ.inj hr) (Nat.succ.inj hrti)]
      simp only [List.map_cons, List.cons.injEq]
      exact ⟨fun ⟨h₁, h₂, hrs, hrtis⟩ => ⟨⟨h₁, hrs⟩, h₂, hrtis⟩,
        fun ⟨⟨h₁, hrs⟩, h₂, hrtis⟩ => ⟨h₁, h₂, hrs, hrtis⟩⟩

/-- The check of the sizes passes exactly if every block has the size that is asked for. -/
theorem Scaling.checkDims_eq_ok {W : Scaling α} {dims : ConeDims} {mnl : ℕ} :
    W.checkDims dims mnl = .ok () ↔ W.Fits dims mnl := by
  unfold checkDims
  simp only [check_then_eq_ok, checkLength_eq_ok, checkBlocks_eq_ok]
  constructor
  · rintro ⟨hdnl, hdnli, hd, hdi, hv, hbeta, hvs, hr, hrti, horders⟩
    obtain ⟨hrs, hrtis⟩ := (checkOrders_eq_ok hr hrti).mp horders
    exact ⟨hdnl, hdnli, hd, hdi, (checkLengths_eq_ok hv).mp hvs, hbeta, hrs, hrtis⟩
  · intro h
    have hv : W.v.length = dims.q.length := by
      rw [← h.v, List.length_map]
    have hr : W.r.length = dims.s.length := by
      simpa only [List.length_map] using congrArg List.length h.r
    have hrti : W.rti.length = dims.s.length := by
      simpa only [List.length_map] using congrArg List.length h.rti
    exact ⟨h.dnl, h.dnli, h.d, h.di, hv, h.beta, (checkLengths_eq_ok hv).mpr h.v, hr, hrti,
      (checkOrders_eq_ok hr hrti).mpr ⟨h.r, h.rti⟩⟩

theorem Scaling.fits_of_checkDims {W : Scaling α} {dims : ConeDims} {mnl : ℕ}
    (h : W.checkDims dims mnl = .ok ()) : W.Fits dims mnl :=
  checkDims_eq_ok.mp h

/-! ### Blocks -/

namespace ScalingBlock

/-- The block of a cone that the scaling block acts on. -/
def cone : ScalingBlock α → ConeBlock
  | diagonal (n := n) _ _ => .nonnegative n
  | secondOrder v _ => .secondOrder v.size
  | semidefinite (k := k) _ _ => .semidefinite k

theorem unpackedSize_cone (block : ScalingBlock α) : block.cone.unpackedSize = block.numel := by
  cases block with
  | diagonal w winv => rfl
  | secondOrder v beta => rfl
  | semidefinite r rti => rfl

/-- The number of entries in packed layout. -/
def packedSize (block : ScalingBlock α) : ℕ := block.cone.packedSize

theorem ofDiagonal_eq_ok {w winv : Array α} (h : winv.size = w.size) :
    ofDiagonal w winv = .ok (.diagonal ⟨w, rfl⟩ ⟨winv, h⟩) := by
  unfold ofDiagonal
  rw [sized_eq_ok h]
  rfl

/-- A second order block has a first entry. -/
def Proper : ScalingBlock α → Prop
  | secondOrder v _ => 0 < v.size
  | _ => True

/-- The semidefinite block of two matrices of order `k`. -/
def ofMatrices {k : ℕ} (r rti : Matrix α) (hr : r.size = (k, k)) (hrti : rti.size = (k, k)) :
    ScalingBlock α :=
  .semidefinite (r.toGrid hr) (rti.toGrid hrti)

/-- The block is the semidefinite one of the two matrices. -/
def IsOf (p : Matrix α × Matrix α) (block : ScalingBlock α) : Prop :=
  ∃ (k : ℕ) (h₁ : p.1.size = (k, k)) (h₂ : p.2.size = (k, k)), block = ofMatrices p.1 p.2 h₁ h₂

theorem ofFactors_eq_ok {k : ℕ} {r rti : Matrix α} (hr : r.size = (k, k))
    (hrti : rti.size = (k, k)) : ofFactors r rti = .ok (ofMatrices r rti hr hrti) := by
  have hrows : r.rows = k := congrArg Prod.fst hr
  have hcols : r.cols = k := congrArg Prod.snd hr
  subst hcols
  unfold ofFactors
  rw [dif_pos ⟨hrows, hr.trans hrti.symm⟩]
  rfl

end ScalingBlock

/-- What is related to a list, place by place, is related to one of its members. -/
theorem exists_of_forall₂ {β γ : Type} {R : β → γ → Prop} {xs : List β} {ys : List γ}
    (h : List.Forall₂ R xs ys) {y : γ} (hmem : y ∈ ys) : ∃ x ∈ xs, R x y := by
  induction h with
  | nil => cases hmem
  | cons hhead _ ih =>
    rcases List.mem_cons.mp hmem with rfl | hmem
    · exact ⟨_, List.mem_cons_self, hhead⟩
    · obtain ⟨x, hx, hxy⟩ := ih hmem
      exact ⟨x, List.mem_cons_of_mem _ hx, hxy⟩

/-- What stands at a place of a list is related to what stands there in the other one. -/
theorem exists_getElem?_of_forall₂ {β γ : Type} {R : β → γ → Prop} {xs : List β} {ys : List γ}
    (h : List.Forall₂ R xs ys) {i : ℕ} {x : β} (hx : xs[i]? = some x) :
    ∃ y, ys[i]? = some y ∧ R x y := by
  obtain ⟨hi, rfl⟩ := List.getElem?_eq_some_iff.mp hx
  have hi' : i < ys.length := h.length_eq ▸ hi
  exact ⟨ys[i], List.getElem?_eq_getElem hi', h.get hi hi'⟩

/-- The semidefinite blocks of matrices whose orders are known. -/
theorem exists_semidefinite {rs rtis : List (Matrix α)} {ks : List ℕ}
    (hr : rs.map Matrix.size = ks.map fun k => (k, k))
    (hrti : rtis.map Matrix.size = ks.map fun k => (k, k)) :
    ∃ blocks, (rs.zip rtis).mapM (fun (r, rti) => ScalingBlock.ofFactors r rti) = .ok blocks ∧
      blocks.map ScalingBlock.cone = ks.map .semidefinite ∧
      List.Forall₂ ScalingBlock.IsOf (rs.zip rtis) blocks := by
  induction ks generalizing rs rtis with
  | nil =>
    rw [List.map_eq_nil_iff.mp hr]
    exact ⟨[], rfl, rfl, .nil⟩
  | cons k ks ih =>
    cases rs with
    | nil => cases hr
    | cons r rs =>
    cases rtis with
    | nil => cases hrti
    | cons rti rtis =>
      rw [List.map_cons, List.map_cons, List.cons.injEq] at hr hrti
      obtain ⟨blocks, hblocks, hcones, hforall⟩ := ih hr.2 hrti.2
      refine ⟨.ofMatrices r rti hr.1 hrti.1 :: blocks, ?_, ?_, .cons ⟨k, hr.1, hrti.1, rfl⟩ hforall⟩
      · simp only [List.zip_cons_cons, List.mapM_cons, ScalingBlock.ofFactors_eq_ok hr.1 hrti.1,
          Checked.ok_bind, hblocks, Checked.pure_eq_ok]
      · rw [List.map_cons, hcones]
        rfl

/-- A scaling whose sizes fit has one block for every block of the layout. -/
theorem Scaling.exists_blocks {W : Scaling α} {dims : ConeDims} {mnl : ℕ}
    (h : W.Fits dims mnl) :
    ∃ semidefinite,
      W.blocks = .ok (.diagonal ⟨W.dnl, rfl⟩ ⟨W.dnli, h.dnli.trans h.dnl.symm⟩ ::
        .diagonal ⟨W.d, rfl⟩ ⟨W.di, h.di.trans h.d.symm⟩ ::
        (W.v.zipWith .secondOrder W.beta ++ semidefinite)) ∧
      semidefinite.map ScalingBlock.cone = dims.s.map .semidefinite ∧
      List.Forall₂ ScalingBlock.IsOf (W.r.zip W.rti) semidefinite := by
  obtain ⟨semidefinite, hblocks, hcones, hforall⟩ := exists_semidefinite h.r h.rti
  refine ⟨semidefinite, ?_, hcones, hforall⟩
  unfold blocks
  rw [ScalingBlock.ofDiagonal_eq_ok (h.dnli.trans h.dnl.symm), Checked.ok_bind,
    ScalingBlock.ofDiagonal_eq_ok (h.di.trans h.d.symm), Checked.ok_bind, hblocks]
  rfl

theorem map_zipWith_left {β γ δ ε : Type} (f : β → γ → δ) (g : δ → ε) (h : β → ε)
    (hfg : ∀ b c, g (f b c) = h b) {bs : List β} {cs : List γ} (hlength : cs.length = bs.length) :
    (bs.zipWith f cs).map g = bs.map h := by
  induction bs generalizing cs with
  | nil => rfl
  | cons b bs ih =>
    cases cs with
    | nil => cases hlength
    | cons c cs =>
      rw [List.zipWith_cons_cons, List.map_cons, List.map_cons, hfg, ih (Nat.succ.inj hlength)]

namespace Scaling.Fits

variable {W : Scaling α} {dims : ConeDims} {mnl : ℕ} {blocks : List (ScalingBlock α)}

theorem exists_blocks_eq_ok (h : W.Fits dims mnl) : ∃ blocks, W.blocks = .ok blocks := by
  obtain ⟨semidefinite, hblocks, -⟩ := exists_blocks h
  exact ⟨_, hblocks⟩

/-- The blocks act on the blocks of the layout. -/
theorem map_cone (h : W.Fits dims mnl) (hblocks : W.blocks = .ok blocks) :
    blocks.map ScalingBlock.cone = dims.layout mnl := by
  obtain ⟨semidefinite, hW, hcones, -⟩ := exists_blocks h
  cases hW.symm.trans hblocks
  have hlength : W.beta.length = W.v.length := by
    rw [h.beta, ← h.v, List.length_map]
  have hsecond : (W.v.zipWith .secondOrder W.beta).map ScalingBlock.cone =
      dims.q.map .secondOrder := by
    rw [map_zipWith_left ScalingBlock.secondOrder _ (fun v => .secondOrder v.size)
      (fun _ _ => rfl) hlength, ← h.v, List.map_map]
    rfl
  rw [List.map_cons, List.map_cons, List.map_append, hsecond, hcones]
  show ConeBlock.nonnegative W.dnl.size :: .nonnegative W.d.size :: _ = _
  rw [h.dnl, h.d]
  rfl

/-- The blocks have as many entries as the layout. -/
theorem total_numel (h : W.Fits dims mnl) (hblocks : W.blocks = .ok blocks) :
    ConeDims.total blocks ScalingBlock.numel = mnl + dims.unpackedSize := by
  rw [← dims.total_layout, ← h.map_cone hblocks, ConeDims.total_map]
  simp only [ScalingBlock.unpackedSize_cone]

/-! ### Blocks by their place -/

section

variable (h : W.Fits dims mnl) (hblocks : W.blocks = .ok blocks)
include h hblocks

theorem getElem?_blocks_nonlinear :
    blocks[0]? = some (.diagonal ⟨W.dnl, rfl⟩ ⟨W.dnli, h.dnli.trans h.dnl.symm⟩) := by
  obtain ⟨semidefinite, hW, -, -⟩ := exists_blocks h
  cases hW.symm.trans hblocks
  rfl

theorem getElem?_blocks_orthant :
    blocks[1]? = some (.diagonal ⟨W.d, rfl⟩ ⟨W.di, h.di.trans h.d.symm⟩) := by
  obtain ⟨semidefinite, hW, -, -⟩ := exists_blocks h
  cases hW.symm.trans hblocks
  rfl

/-- The block of a second order cone holds the vector and the factor of its place. -/
theorem getElem?_blocks_secondOrder {j q : ℕ} (hq : dims.q[j]? = some q) :
    ∃ v beta, W.v[j]? = some v ∧ W.beta[j]? = some beta ∧ v.size = q ∧
      blocks[2 + j]? = some (.secondOrder v beta) := by
  obtain ⟨semidefinite, hW, -, -⟩ := exists_blocks h
  cases hW.symm.trans hblocks
  rw [← h.v, List.getElem?_map] at hq
  obtain ⟨v, hv, hsize⟩ := Option.map_eq_some_iff.mp hq
  have hlength : W.beta.length = W.v.length := by
    rw [h.beta, ← h.v, List.length_map]
  obtain ⟨hj, -⟩ := List.getElem?_eq_some_iff.mp hv
  have hbeta : W.beta[j]? = some W.beta[j] := List.getElem?_eq_getElem (hlength ▸ hj)
  refine ⟨v, _, hv, hbeta, hsize, ?_⟩
  rw [Nat.add_comm, List.getElem?_cons_succ, List.getElem?_cons_succ,
    List.getElem?_append_left (by rw [List.length_zipWith, hlength]; omega),
    List.getElem?_zipWith, hv, hbeta]

/-- The block of a semidefinite cone holds the two matrices of its place. -/
theorem getElem?_blocks_semidefinite {j k : ℕ} (hk : dims.s[j]? = some k) :
    ∃ r rti, ∃ (hr : r.size = (k, k)) (hrti : rti.size = (k, k)),
      W.r[j]? = some r ∧ W.rti[j]? = some rti ∧
      blocks[2 + dims.q.length + j]? = some (.ofMatrices r rti hr hrti) := by
  obtain ⟨semidefinite, hW, -, hforall⟩ := exists_blocks h
  cases hW.symm.trans hblocks
  have hsizes : ∀ {ms : List (Matrix α)}, ms.map Matrix.size = dims.s.map (fun k => (k, k)) →
      ∃ m, ms[j]? = some m ∧ m.size = (k, k) := by
    intro ms hms
    have hplace := congrArg (·[j]?) hms
    simpa [hk] using hplace
  obtain ⟨r, hr, hrsize⟩ := hsizes h.r
  obtain ⟨rti, hrti, hrtisize⟩ := hsizes h.rti
  have hpair : (W.r.zip W.rti)[j]? = some (r, rti) :=
    List.getElem?_zip_eq_some.mpr ⟨hr, hrti⟩
  obtain ⟨block, hblock, k', h₁, h₂, rfl⟩ := exists_getElem?_of_forall₂ hforall hpair
  obtain rfl : k' = k := congrArg Prod.fst (h₁.symm.trans hrsize)
  refine ⟨r, rti, hrsize, hrtisize, hr, hrti, ?_⟩
  have hlength : (W.v.zipWith ScalingBlock.secondOrder W.beta).length = dims.q.length := by
    rw [List.length_zipWith, h.beta, ← h.v, List.length_map, Nat.min_self]
  rw [show 2 + dims.q.length + j = dims.q.length + j + 1 + 1 by omega, List.getElem?_cons_succ,
    List.getElem?_cons_succ, List.getElem?_append_right (by omega), hlength,
    Nat.add_sub_cancel_left]
  exact hblock

end

/-! ### Layouts over the blocks -/

section

variable [Scalar α] (h : W.Fits dims mnl) (hblocks : W.blocks = .ok blocks)
include h hblocks

theorem packedVector_eq_blockwise (x : ℕ → α) :
    packedVector dims mnl x = blockwise ScalingBlock.numel ScalingBlock.packedSize
      (fun block => block.cone.packed) blocks x := by
  unfold packedVector
  rw [← h.map_cone hblocks, blockwise_map]
  simp only [ScalingBlock.unpackedSize_cone]
  rfl

theorem unpackedVector_eq_blockwise (v : ℕ → α) :
    unpackedVector dims mnl v = blockwise ScalingBlock.packedSize ScalingBlock.numel
      (fun block => block.cone.unpacked) blocks v := by
  unfold unpackedVector
  rw [← h.map_cone hblocks, blockwise_map]
  simp only [ScalingBlock.unpackedSize_cone]
  rfl

theorem mirroredVector_eq_blockwise (x : ℕ → α) :
    mirroredVector dims mnl x = blockwise ScalingBlock.numel ScalingBlock.numel
      (fun block => block.cone.mirror) blocks x := by
  unfold mirroredVector
  rw [← h.map_cone hblocks, blockwise_map]
  simp only [ScalingBlock.unpackedSize_cone]

end

/-- No second order block is empty. -/
theorem proper_of_mem (h : W.Fits dims mnl) (hblocks : W.blocks = .ok blocks)
    {block : ScalingBlock α} (hmem : block ∈ blocks) : block.Proper := by
  cases block with
  | diagonal w winv => exact trivial
  | semidefinite r rti => exact trivial
  | secondOrder v beta =>
    have hcone : ConeBlock.secondOrder v.size ∈ dims.layout mnl := by
      rw [← h.map_cone hblocks]
      exact List.mem_map_of_mem hmem
    rw [ConeDims.layout_eq] at hcone
    simp only [ConeDims.front, List.mem_append, List.mem_cons, List.mem_map, reduceCtorEq,
      false_or, ConeBlock.secondOrder.injEq, exists_eq_right, and_false, exists_false,
      or_false] at hcone
    exact dims.q_pos _ hcone

end Scaling.Fits

end ConicSaddle
