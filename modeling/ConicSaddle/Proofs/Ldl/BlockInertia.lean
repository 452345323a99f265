import ConicSaddle.Proofs.Exact.Congruence
import ConicSaddle.Proofs.Ldl.Factors
import ConicSaddle.Proofs.Ldl.Visits

/-!
# Block diagonal matrices and their inertia

In exact arithmetic the inertia that is read from a matrix and a record counts the signs of the
eigenvalues of the block diagonal matrix that the record cuts out of the lower triangle, whether a
factorization left the two or not.

* `ofPair_eq`: a block of order two is judged by the product and the sum of two numbers;
* `exists_diagonal_pair`: it is congruent to a diagonal with two numbers of these signs;
* `stacked_congruent`: a block replaced by a diagonal in front of what is left;
* `Diagonalizes`: a diagonal that blocks are congruent to, with the signs that they are judged by;
* `Reads.exists_diagonalizes`: there is one for the blocks that are read from any record;
* `inertia_of_blocks`: the statement for any matrix that is as large as the record.
-/

namespace ConicSaddle

namespace Matrix

variable {α : Type} {n : ℕ}

/-- The first `n` rows and columns. -/
def leading (A : Matrix α) (hrows : n ≤ A.rows) (hcols : n ≤ A.cols) : Grid n n α :=
  .ofFn fun i j => A.grid.get (i.castLE hrows) (j.castLE hcols)

theorem entry_leading (A : Matrix α) (hrows : n ≤ A.rows) (hcols : n ≤ A.cols) (i j : Fin n) :
    A.entry i j = .ok ((A.leading hrows hcols).get i j) := by
  rw [leading, Grid.get_ofFn]
  exact entry_ofGrid A.grid (i.castLE hrows) (j.castLE hcols)

end Matrix

namespace Ldl

variable {n : ℕ}

/-! ### A block of order two -/

/-- The signs of two numbers are told by their product and their sum. -/
theorem ofPair_eq {a b c x y : ℝ} (hdet : a * c - b * b = x * y) (htrace : a + c = x + y) :
    Inertia.ofPair a b c = .ofNumber x + .ofNumber y := by
  simp only [Inertia.ofPair, Inertia.ofNumber, Scalar.isNegative, Scalar.isPositive, Exact.lt_eq,
    decide_eq_true_eq, hdet, htrace]
  rcases lt_trichotomy x 0 with hx | rfl | hx
  · rcases lt_trichotomy y 0 with hy | rfl | hy
    · have hprod := mul_pos_of_neg_of_neg hx hy
      have hsum := add_neg hx hy
      simp [hprod, hprod.not_gt, hsum, hsum.not_gt, hx, hx.not_gt, hy, hy.not_gt]
    · simp [hx, hx.not_gt]
    · simp [mul_neg_of_neg_of_pos hx hy, hx, hx.not_gt, hy]
  · simp
  · rcases lt_trichotomy y 0 with hy | rfl | hy
    · simp [mul_neg_of_pos_of_neg hx hy, hx, hy, hy.not_gt]
    · simp [hx]
    · have hprod := mul_pos hx hy
      simp [hprod, hprod.not_gt, add_pos hx hy, hx, hy]

/-- Every symmetric matrix of order two is a sum of two squares, with the signs that it is judged
by.  They are those of its eigenvalues. -/
theorem exists_diagonal_pair (a b c : ℝ) :
    ∃ p q r s x y : ℝ, p * s - q * r ≠ 0 ∧ a = p * x * p + q * y * q ∧
      b = p * x * r + q * y * s ∧ c = r * x * r + s * y * s ∧
      Inertia.ofPair a b c = .ofNumber x + .ofNumber y := by
  let S : RealMatrix 2 := !![a, b; b, c]
  have hS : S.IsHermitian := by
    ext i j
    fin_cases i <;> fin_cases j <;> rfl
  obtain ⟨M, hM, hproduct⟩ := congruent_eigenvalues hS
  have hentry (i j : Fin 2) : S i j =
      M i 0 * hS.eigenvalues 0 * M j 0 + M i 1 * hS.eigenvalues 1 * M j 1 := by
    have := congrFun (congrFun hproduct i) j
    simpa [Matrix.mul_apply, Matrix.diagonal_apply, Fin.sum_univ_two] using this
  have hdet := hS.det_eq_prod_eigenvalues
  have htrace := hS.trace_eq_sum_eigenvalues
  simp only [S, Matrix.det_fin_two_of, Matrix.trace_fin_two_of, Fin.prod_univ_two,
    Fin.sum_univ_two, RCLike.ofReal_real_eq_id, id] at hdet htrace
  refine ⟨M 0 0, M 0 1, M 1 0, M 1 1, _, _, ?_, hentry 0 0, hentry 0 1, hentry 1 1,
    ofPair_eq hdet htrace⟩
  rw [← Matrix.det_fin_two]
  exact ((Matrix.isUnit_iff_isUnit_det M).mp hM).ne_zero

/-! ### A block in front of what is left -/

/-- The entries of a block between what lies in front of it and what lies behind it. -/
theorem stacked_between (k l : Fin n) (hkl : k ≤ l) (C S T : RealMatrix n) (i j : Fin n) :
    stacked (l.val + 1) (stacked k.val C S) T i j =
      if i ∈ Finset.Icc k l then if j ∈ Finset.Icc k l then S i j else 0
      else if j ∈ Finset.Icc k l then 0
      else stacked (l.val + 1) (stacked k.val C 0) T i j := by
  have hle : k.val ≤ l.val := hkl
  simp only [stacked, Finset.mem_Icc, Fin.le_def, Matrix.zero_apply]
  grind

/-- A block is replaced by a diagonal, in front of what is left. -/
theorem stacked_congruent {k l : Fin n} {S N : RealMatrix n} {e : Fin n → ℝ} (hkl : k ≤ l)
    (hN : (stacked (l.val + 1) (stacked k.val 1 N) 1).det ≠ 0)
    (hS : ∀ i ∈ Finset.Icc k l, ∀ j ∈ Finset.Icc k l,
      S i j = ∑ c ∈ Finset.Icc k l, N i c * e c * N j c) (C T : RealMatrix n) :
    Congruent (stacked (l.val + 1) (stacked k.val C S) T)
      (stacked (l.val + 1) (stacked k.val C (Matrix.diagonal e)) T) := by
  refine ⟨stacked (l.val + 1) (stacked k.val 1 N) 1,
    (Matrix.isUnit_iff_isUnit_det _).mpr hN.isUnit, ?_⟩
  have hcolumn : ∀ c ∈ Finset.Icc k l, ∀ j, ∑ d ∈ Finset.Icc k l, N j d *
      (if d ∈ Finset.Icc k l then Matrix.diagonal e c d else 0) = e c * N j c := by
    intro c hc j
    rw [Finset.sum_eq_single_of_mem c hc fun d hd hne => by
      rw [if_pos hd, Matrix.diagonal_apply_ne e hne.symm, mul_zero]]
    rw [if_pos hc, Matrix.diagonal_apply_eq, mul_comm]
  have houtside : ∀ f g : Fin n → ℝ, ∑ c ∈ Finset.Icc k l,
      f c * (if c ∈ Finset.Icc k l then 0 else g c) = 0 := fun f g =>
    Finset.sum_eq_zero fun c hc => by rw [if_pos hc, mul_zero]
  ext i j
  rw [mul_mul_transpose_apply, block_mulVec, stacked_between k l hkl C S T i j]
  simp only [block_mulVec, stacked_between k l hkl C (Matrix.diagonal e) T]
  by_cases hi : i ∈ Finset.Icc k l
  · by_cases hj : j ∈ Finset.Icc k l
    · simp only [hi, hj, if_true]
      rw [hS i hi j hj]
      refine Finset.sum_congr rfl fun c hc => ?_
      simp only [hc, if_true, hcolumn c hc, mul_assoc]
    · simp only [hi, hj, if_true, if_false, houtside]
  · by_cases hj : j ∈ Finset.Icc k l
    · simp only [hi, hj, if_true, if_false, houtside]
    · simp only [hi, hj, if_false]

/-- A diagonal that is cut in two is the diagonal. -/
theorem stacked_diagonal {k l : ℕ} (hkl : k ≤ l) (C : RealMatrix n) (e : Fin n → ℝ) :
    stacked l (stacked k C (Matrix.diagonal e)) (Matrix.diagonal e) =
      stacked k C (Matrix.diagonal e) := by
  ext i j
  simp only [stacked, Matrix.diagonal_apply]
  grind

/-! ### Counting the signs -/

/-- The columns from `k` on. -/
def columnsFrom (k : ℕ) : Finset (Fin n) := Finset.univ.filter fun i => k ≤ i.val

@[simp] theorem mem_columnsFrom {k : ℕ} {i : Fin n} : i ∈ columnsFrom k ↔ k ≤ i.val := by
  simp [columnsFrom]

@[simp] theorem columnsFrom_zero : columnsFrom (n := n) 0 = Finset.univ := by
  ext i
  simp

@[simp] theorem columnsFrom_all : columnsFrom (n := n) n = ∅ := by
  ext i
  simp

/-- The columns of a block and those behind it. -/
theorem columnsFrom_eq_union {k l : Fin n} (hkl : k ≤ l) :
    columnsFrom k.val = Finset.Icc k l ∪ columnsFrom (n := n) (l.val + 1) := by
  have hle : k.val ≤ l.val := hkl
  ext i
  simp only [Finset.mem_union, Finset.mem_Icc, mem_columnsFrom, Fin.le_def]
  omega

theorem disjoint_columnsFrom (k l : Fin n) :
    Disjoint (Finset.Icc k l) (columnsFrom (n := n) (l.val + 1)) := by
  rw [Finset.disjoint_left]
  intro i hi
  simp only [Finset.mem_Icc, mem_columnsFrom, Fin.le_def] at hi ⊢
  omega

/-! ### Blocks and their diagonal -/

/-- A diagonal matrix that the blocks from column `k` on are congruent to, with the signs that the
blocks are judged by. -/
structure Diagonalizes (F : Grid n n ℝ) (k : ℕ) (blocks : List (Block n)) (e : Fin n → ℝ) :
    Prop where
  congruent (C : RealMatrix n) :
    Congruent (stacked k C (blockDiagonal F blocks)) (stacked k C (Matrix.diagonal e))
  signs (seen : Inertia) : blocks.foldl (fun seen block => seen + block.inertia F) seen =
    seen + Inertia.count (columnsFrom k) e

namespace Diagonalizes

variable {F : Grid n n ℝ} {tail : List (Block n)} {e e' : Fin n → ℝ} {N : RealMatrix n}

/-- A block in front, for a diagonal of its own. -/
theorem cons {b : Block n} (hle : b.first ≤ b.last)
    (behind : ∀ b' ∈ tail, b.last.val + 1 ≤ b'.first.val)
    (hN : (stacked (b.last.val + 1) (stacked b.first.val 1 N) 1).det ≠ 0)
    (hblock : ∀ i ∈ Finset.Icc b.first b.last, ∀ j ∈ Finset.Icc b.first b.last,
      F.symm i j = ∑ c ∈ Finset.Icc b.first b.last, N i c * e c * N j c)
    (hsigns : b.inertia F = Inertia.count (Finset.Icc b.first b.last) e)
    (h : Diagonalizes F (b.last.val + 1) tail e') :
    ∃ f, Diagonalizes F b.first.val (b :: tail) f := by
  let f : Fin n → ℝ := fun i => if i ≤ b.last then e i else e' i
  have hfront : ∀ i ∈ Finset.Icc b.first b.last, f i = e i :=
    fun i hi => if_pos (Finset.mem_Icc.mp hi).2
  have hrest : ∀ i : Fin n, b.last.val + 1 ≤ i.val → f i = e' i :=
    fun i hi => if_neg (Nat.not_le.mpr hi)
  refine ⟨f, fun C => ?_, fun seen => ?_⟩
  · have hdiagonal : stacked (b.last.val + 1) (stacked b.first.val C F.symmMatrix)
        (Matrix.diagonal e') =
        stacked (b.last.val + 1) (stacked b.first.val C F.symmMatrix) (Matrix.diagonal f) :=
      stacked_congr (fun _ _ _ _ => rfl) fun i j hi _ => by
        simp only [Matrix.diagonal_apply, hrest i hi]
    have hreplaced := stacked_congruent (S := F.symmMatrix) (e := f) hle hN (fun i hi j hj => by
      rw [Grid.symmMatrix_apply, hblock i hi j hj]
      exact Finset.sum_congr rfl fun c hc => by rw [hfront c hc]) C (Matrix.diagonal f)
    rw [stacked_diagonal (Nat.le_succ_of_le hle)] at hreplaced
    rw [← stacked_cons hle behind]
    exact (h.congruent _).trans (hdiagonal ▸ hreplaced)
  · rw [List.foldl_cons, h.signs, Inertia.add_assoc, hsigns, columnsFrom_eq_union hle,
      Inertia.count_union (disjoint_columnsFrom _ _), Inertia.count_congr hfront,
      Inertia.count_congr fun i hi => hrest i (mem_columnsFrom.mp hi)]

/-- A block of order one in front. -/
theorem single {k : Fin n} (p : Fin n) (behind : ∀ b ∈ tail, k.val + 1 ≤ b.first.val)
    (h : Diagonalizes F (k.val + 1) tail e) :
    ∃ f, Diagonalizes F k.val (.single k p :: tail) f := by
  refine cons (b := .single k p) (N := 1) (e := fun _ => F.get k k) le_rfl behind ?_ ?_ ?_ h
  · rw [Block.first, Block.last, det_block_single]
    simp
  · intro i hi j hj
    simp only [Block.first, Block.last, Finset.Icc_self, Finset.mem_singleton] at hi hj ⊢
    rw [hi, hj]
    simp [Grid.symm_of_le]
  · simp [Block.first, Block.last, Block.inertia, Inertia.count_singleton]

/-- A block of order two in front. -/
theorem pair {k l : Fin n} (p : Fin n) (next : l.val = k.val + 1)
    (behind : ∀ b ∈ tail, l.val + 1 ≤ b.first.val) (h : Diagonalizes F (l.val + 1) tail e) :
    ∃ f, Diagonalizes F k.val (.pair k l p :: tail) f := by
  have hkl : k < l := by
    rw [Fin.lt_def]
    omega
  obtain ⟨a, b, c, d, x, y, hdet, hkk, hlk, hll, hsigns⟩ :=
    exists_diagonal_pair (F.get k k) (F.get l k) (F.get l l)
  let N : RealMatrix n := fun i j => if i = k then if j = k then a else b
    else if j = k then c else d
  let signs : Fin n → ℝ := fun i => if i = k then x else y
  refine cons (b := .pair k l p) (N := N) (e := signs) hkl.le behind ?_ ?_ ?_ h
  · refine det_block_pair_ne_zero (k := k) (l := l) next ?_
    simpa [N, hkl.ne'] using hdet
  · intro i hi j hj
    simp only [Block.first, Block.last, mem_Icc_succ next, sum_Icc_succ next] at hi hj ⊢
    rcases hi with rfl | rfl <;> rcases hj with rfl | rfl
    · simpa [N, signs, Grid.symm_of_le, hkl.ne'] using hkk
    · rw [Grid.symm_comm, Grid.symm_of_le _ hkl.le, hlk]
      simp [N, signs, hkl.ne']
    · rw [Grid.symm_of_le _ hkl.le, hlk]
      simp only [N, signs, if_true, hkl.ne', if_false]
      ring
    · simpa [N, signs, Grid.symm_of_le, hkl.ne'] using hll
  · have hset : Finset.Icc k l = {k} ∪ {l} := by
      ext i
      rw [mem_Icc_succ next, Finset.mem_union, Finset.mem_singleton, Finset.mem_singleton]
    simp only [Block.first, Block.last, Block.inertia, hset, hsigns]
    rw [Inertia.count_union (by simpa using hkl.ne), Inertia.count_singleton,
      Inertia.count_singleton]
    simp [signs, hkl.ne']

end Diagonalizes

/-- The blocks that are read from any record are congruent to a diagonal with the signs that they
are judged by.  The induction is on the blocks, and every step puts the diagonal of a block in front
of the diagonal of those after it. -/
theorem Record.Reads.exists_diagonalizes {record : Record n} {k : ℕ} {blocks : List (Block n)}
    (h : record.Reads k blocks) (F : Grid n n ℝ) : ∃ e, Diagonalizes F k blocks e := by
  induction h with
  | done =>
    refine ⟨0, fun C => ?_, fun seen => ?_⟩
    · rw [stacked_all, stacked_all]
      exact .refl C
    · rw [List.foldl_nil, columnsFrom_all, Inertia.add_count_empty]
  | single k p _ later ih =>
    obtain ⟨e, he⟩ := ih
    exact he.single p later.le_first
  | pair k l p next _ later ih =>
    obtain ⟨e, he⟩ := ih
    have hnext : k.val + 2 = l.val + 1 := by omega
    rw [hnext] at he later
    exact he.pair p next later.le_first

/-! ### The whole record -/

namespace Diagonalizes

variable {F : Grid n n ℝ} {blocks : List (Block n)} {e : Fin n → ℝ}

theorem congruent_all (h : Diagonalizes F 0 blocks e) :
    Congruent (blockDiagonal F blocks) (Matrix.diagonal e) := by
  simpa only [stacked_zero] using h.congruent 1

/-- The inertia that is read counts the signs of the diagonal. -/
theorem inertia_eq (h : Diagonalizes F 0 blocks e) {record : Record n}
    (reads : record.Reads 0 blocks) {A : Matrix ℝ}
    (hA : ∀ i j : Fin n, j ≤ i → A.entry i j = .ok (F.get i j)) :
    inertia A record = .ok (Inertia.count Finset.univ e) := by
  rw [inertia, reads.inertiaFrom_eq hA, h.signs, columnsFrom_zero, Inertia.none_add]

end Diagonalizes

theorem isHermitian_blockDiagonal (F : Grid n n ℝ) (blocks : List (Block n)) :
    (blockDiagonal F blocks).IsHermitian := by
  induction blocks with
  | nil => exact Matrix.isHermitian_zero
  | cons b blocks ih =>
    rw [blockDiagonal_cons]
    refine Matrix.IsHermitian.add ?_ ih
    ext i j
    simp only [Matrix.conjTranspose_apply, star_trivial, Block.diagonal, F.symm_comm j i,
      and_comm]

/-- **The inertia is that of the block diagonal matrix.**  Let a matrix be at least as large as a
record that can be read as blocks, from a factorization or not.  The blocks take every column once,
and the inertia that is read from the two counts the positive, negative and zero eigenvalues, with
their multiplicities, of the block diagonal matrix whose blocks stand in the lower triangle,
whatever the signs of its blocks of order two. -/
theorem inertia_of_blocks (A : Matrix ℝ) (hrows : n ≤ A.rows) (hcols : n ≤ A.cols)
    {record : Record n} {blocks : List (Block n)} (hblocks : record.blocks = .ok blocks) :
    blocks.flatMap Block.columns = List.finRange n ∧
      ∃ hD : (blockDiagonal (A.leading hrows hcols) blocks).IsHermitian,
        inertia A record = .ok (Inertia.count Finset.univ hD.eigenvalues) := by
  have reads : record.Reads 0 blocks := Record.reads_of_blocksFrom (Nat.zero_le n) hblocks
  obtain ⟨e, he⟩ := reads.exists_diagonalizes (A.leading hrows hcols)
  have hD := isHermitian_blockDiagonal (A.leading hrows hcols) blocks
  have hsigns := (he.congruent_all.symm.trans (congruent_eigenvalues hD)).count_eq
  refine ⟨?_, hD, ?_⟩
  · rw [reads.columns_eq, List.drop_zero]
  · rw [he.inertia_eq reads fun i j _ => A.entry_leading hrows hcols i j, hsigns]

/-- Four rows of three columns.  The first two columns begin with a semidefinite block of order two,
and the last row is none of the record's. -/
def semidefiniteFirst : Matrix ℝ :=
  ⟨4, 3, .ofFn fun i j => if j.val = 2 then -1 else (i.val + 1) * (j.val + 1)⟩

/-- A semidefinite block of order two and a negative number. -/
theorem inertia_of_blocks_semidefinite :
    ∃ (hrows : 3 ≤ semidefiniteFirst.rows) (hcols : 3 ≤ semidefiniteFirst.cols),
      Record.blocks (#v[-2, -2, 3] : Record 3) = .ok [.pair 0 1 1, .single 2 2] ∧
      ∃ hD : (blockDiagonal (semidefiniteFirst.leading hrows hcols)
          [.pair 0 1 1, .single 2 2]).IsHermitian,
        Inertia.count Finset.univ hD.eigenvalues = ⟨1, 1, 1⟩ := by
  have hrows : 3 ≤ semidefiniteFirst.rows := by decide
  have hcols : 3 ≤ semidefiniteFirst.cols := by decide
  have hblocks : Record.blocks (#v[-2, -2, 3] : Record 3) = .ok [.pair 0 1 1, .single 2 2] := by
    decide +kernel
  have reads := Record.reads_of_blocksFrom (Nat.zero_le 3) hblocks
  have hread : inertia semidefiniteFirst #v[-2, -2, 3] = .ok ⟨1, 1, 1⟩ := by
    rw [inertia, reads.inertiaFrom_eq fun i j _ => semidefiniteFirst.entry_leading hrows hcols i j]
    simp [Block.inertia, Matrix.leading, semidefiniteFirst, Grid.get_ofFn, Inertia.ofPair,
      Inertia.ofNumber, Scalar.isPositive, Scalar.isNegative, Inertia.none]
    norm_num
  obtain ⟨-, hD, hinertia⟩ := inertia_of_blocks semidefiniteFirst hrows hcols hblocks
  exact ⟨hrows, hcols, hblocks, hD, Except.ok.inj (hinertia.symm.trans hread)⟩

end Ldl

end ConicSaddle
