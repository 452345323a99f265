import ConicSaddle.Proofs.Ldl.ExactStep
import ConicSaddle.Proofs.Ldl.Substitution
import ConicSaddle.Proofs.Vec.PairwiseSum

/-!
# Solutions in exact arithmetic

Without rounding, the two sweeps of a solution undo a factorization that ended without an error.

* `stacked_mulVec_eq`: a step of the factorization, undone by a forward and a backward step around
  the solution of what the step leaves;
* `Sweeps.solves`: the blocks from a column on solve the system that the sweep started from there;
* `exists_solveGrid`: a factored grid answers every right hand side with the solution;
* `solve_of_factor`: the same for matrices.
-/

namespace ConicSaddle.Ldl

variable {n : ℕ}

/-! ### A step undone -/

/-- The block of a step by itself. -/
theorem block_apply (S : RealMatrix n) (k l i j : Fin n) :
    stacked (l.val + 1) (stacked k.val 1 S) 1 i j =
      if i ∈ Finset.Icc k l then if j ∈ Finset.Icc k l then S i j else 0
      else if i = j then 1 else 0 := by
  simp only [Finset.mem_Icc]
  rcases lt_or_ge l i with hi | hi
  · rw [if_neg fun h => absurd h.2 (not_le.mpr hi)]
    rcases lt_or_ge l j with hj | hj
    · rw [stacked_rest hi hj, Matrix.one_apply]
    · rw [stacked_beside hi (Nat.lt_succ_of_le hj), if_neg (hj.trans_lt hi).ne']
  · have hi' : i.val < l.val + 1 := Nat.lt_succ_of_le hi
    rcases lt_or_ge i k with hik | hik
    · rw [if_neg fun h => absurd h.1 (not_le.mpr hik)]
      rcases lt_or_ge l j with hj | hj
      · rw [stacked_above hi' hj, if_neg (hi.trans_lt hj).ne]
      · rw [stacked_front hi' (Nat.lt_succ_of_le hj)]
        rcases lt_or_ge j k with hjk | hjk
        · rw [stacked_front hik hjk, Matrix.one_apply]
        · rw [stacked_above hik hjk, if_neg (hik.trans_le hjk).ne]
    · rw [if_pos ⟨hik, hi⟩]
      rcases lt_or_ge l j with hj | hj
      · rw [stacked_above hi' hj, if_neg fun h => absurd h.2 (not_le.mpr hj)]
      · rw [stacked_front hi' (Nat.lt_succ_of_le hj)]
        rcases lt_or_ge j k with hjk | hjk
        · rw [stacked_beside hik hjk, if_neg fun h => absurd h.1 (not_le.mpr hjk)]
        · rw [stacked_rest hik hjk, if_pos ⟨hjk, hj⟩]

/-- The block of a step acts on its own entries only. -/
theorem block_mulVec (S : RealMatrix n) (k l : Fin n) (v : Fin n → ℝ) (i : Fin n) :
    (stacked (l.val + 1) (stacked k.val 1 S) 1).mulVec v i =
      if i ∈ Finset.Icc k l then ∑ e ∈ Finset.Icc k l, S i e * v e else v i := by
  simp only [Matrix.mulVec, dotProduct, block_apply S k l]
  split
  · simp only [ite_mul, zero_mul, Finset.sum_ite_mem, Finset.univ_inter]
  · simp only [ite_mul, one_mul, zero_mul, Finset.sum_ite_eq, Finset.mem_univ, if_true]

/-- A step of the factorization, undone: the forward step solves with the multipliers and the block,
what is left is solved, and the backward step solves with the transposed multipliers. -/
theorem stacked_mulVec_eq {S M T : RealMatrix n} {k l a p : Fin n} {L : RealMatrix n}
    {b b' y u : Fin n → ℝ}
    (hstep : S = (L * stacked (l.val + 1) (stacked k.val 1 M) T * L.transpose).submatrix
      (exchange a p) (exchange a p))
    (hforward : L.mulVec ((stacked (l.val + 1) (stacked k.val 1 M) 1).mulVec b') =
      fun i => b (exchange a p i))
    (hrest : (stacked (l.val + 1) 1 T).mulVec y = b') (hback : L.transpose.mulVec u = y) :
    S.mulVec (fun i => u (exchange a p i)) = b := by
  have hswap : exchange a p = ⇑(Equiv.swap a p) := funext (exchange_eq_swap a p)
  have hu : (fun i => u (exchange a p i)) ∘ (Equiv.swap a p).symm = u := by
    funext i
    rw [Function.comp_apply, Equiv.symm_swap, ← exchange_eq_swap, exchange_exchange]
  calc S.mulVec (fun i => u (exchange a p i))
      = (L * stacked (l.val + 1) (stacked k.val 1 M) T * L.transpose).mulVec u ∘ exchange a p := by
        rw [hstep, hswap, Matrix.submatrix_mulVec_equiv, ← hswap, hu]
    _ = L.mulVec ((stacked (l.val + 1) (stacked k.val 1 M) 1).mulVec b') ∘ exchange a p := by
        rw [stacked_eq_mul, ← Matrix.mulVec_mulVec, hback, ← Matrix.mulVec_mulVec,
          ← Matrix.mulVec_mulVec, hrest]
    _ = b := by
        rw [hforward]
        funext i
        rw [Function.comp_apply, exchange_exchange]

/-! ### The forward and the backward step -/

theorem swapEntries_get {α : Type} (b : Vector α n) (i j : Fin n) :
    (swapEntries b i j).get = fun k => b.get (exchange i j k) := funext (get_swapEntries b i j)

theorem get_reduceBy {A : Grid n n ℝ} (b : Vector ℝ n) (c k i : Fin n) :
    (reduceBy A b c k).get i =
      if i = c then b.get c - ∑ j ∈ Finset.Ioi k, A.get j c * b.get j else b.get i := by
  have hfilter : (Finset.univ.filter fun j : Fin n => k.val + 1 ≤ j.val) = Finset.Ioi k := by
    ext j
    simp
  simp only [reduceBy, Vec.get_set, Vec.dot_tail_eq_sum, hfilter, Grid.get_col]

/-- The forward step of a block of order one solves with its multipliers and its entry. -/
theorem undoSingle_spec {F : Grid n n ℝ} {k : Fin n} (c : Vector ℝ n) (hd : F.get k k ≠ 0) :
    (unitLower F k k).mulVec ((stacked (k.val + 1) (stacked k.val 1 F.symmMatrix) 1).mulVec
      (undoSingle F c k).get) = c.get := by
  have hentry : (undoSingle F c k).get k = c.get k / F.get k k := by
    rw [undoSingle, Vec.get_ofFn, if_neg (lt_irrefl k), if_pos rfl]
  have hblock : ∀ i, (stacked (k.val + 1) (stacked k.val 1 F.symmMatrix) 1).mulVec
      (undoSingle F c k).get i = if i = k then c.get k else (undoSingle F c k).get i := by
    intro i
    rw [block_mulVec, Finset.Icc_self, Finset.sum_singleton]
    simp only [Finset.mem_singleton]
    split
    · next h =>
      rw [h, Grid.symmMatrix_apply, Grid.symm_of_le _ le_rfl, hentry, mul_div_cancel₀ _ hd]
    · rfl
  funext i
  rw [unitLower_mulVec, Finset.Icc_self, Finset.sum_singleton, hblock, hblock, if_pos rfl]
  rcases lt_trichotomy k i with h | h | h
  · rw [if_neg h.ne', if_pos h, undoSingle, Vec.get_ofFn, if_pos h, sub_add_cancel]
  · rw [if_pos h.symm, if_neg h.not_lt, h, add_zero]
  · rw [if_neg h.ne, if_neg h.not_gt, undoSingle, Vec.get_ofFn, if_neg h.not_gt, if_neg h.ne,
      add_zero]

/-- The backward step of a block of order one solves with its transposed multipliers. -/
theorem reduceBy_single_spec (F : Grid n n ℝ) (k : Fin n) (y : Vector ℝ n) :
    (unitLower F k k).transpose.mulVec (reduceBy F y k k).get = y.get := by
  funext j
  have hsum : ∑ i ∈ Finset.Ioi k, F.get i k * (reduceBy F y k k).get i =
      ∑ i ∈ Finset.Ioi k, F.get i k * y.get i :=
    Finset.sum_congr rfl fun i hi => by
      rw [get_reduceBy, if_neg (Finset.mem_Ioi.mp hi).ne']
  rw [unitLower_transpose_mulVec, Finset.Icc_self]
  simp only [Finset.mem_singleton]
  split
  · next h => rw [h, hsum, get_reduceBy, if_pos rfl, sub_add_cancel]
  · next h => rw [get_reduceBy, if_neg h, add_zero]

/-- Two equations solved in the scaled form that keeps the entry off the diagonal out of
products. -/
theorem pair_system {a b c x y : ℝ} (hb : b ≠ 0) (hdet : a * c < b * b) :
    a * ((c / b * (x / b) - y / b) / (a / b * (c / b) - 1)) +
      b * ((a / b * (y / b) - x / b) / (a / b * (c / b) - 1)) = x ∧
    b * ((c / b * (x / b) - y / b) / (a / b * (c / b) - 1)) +
      c * ((a / b * (y / b) - x / b) / (a / b * (c / b) - 1)) = y := by
  obtain ⟨D, hD⟩ : ∃ D, D = a * c - b * b := ⟨_, rfl⟩
  have hD0 : D ≠ 0 := hD ▸ (sub_neg.mpr hdet).ne
  have hden : a / b * (c / b) - 1 = D / (b * b) := by
    rw [hD]
    field_simp
  rw [hden]
  constructor
  · field_simp
    rw [hD]
    ring
  · field_simp
    rw [hD]
    ring

/-- The forward step of a block of order two solves with its multipliers and its entries. -/
theorem undoPair_spec {F : Grid n n ℝ} {k l : Fin n} (next : l.val = k.val + 1) (c : Vector ℝ n)
    (hb : F.get l k ≠ 0) (hdet : F.get k k * F.get l l < F.get l k * F.get l k) :
    (unitLower F k l).mulVec ((stacked (l.val + 1) (stacked k.val 1 F.symmMatrix) 1).mulVec
      (undoPair F c k l).get) = c.get := by
  have hkl : k < l := by
    rw [Fin.lt_def]
    omega
  have hkmem : k ∈ Finset.Icc k l := (mem_Icc_succ next).mpr (.inl rfl)
  have hlmem : l ∈ Finset.Icc k l := (mem_Icc_succ next).mpr (.inr rfl)
  have hsystem := pair_system (x := c.get k) (y := c.get l) hb hdet
  have hfst : (undoPair F c k l).get k =
      (F.get l l / F.get l k * (c.get k / F.get l k) - c.get l / F.get l k) /
        (F.get k k / F.get l k * (F.get l l / F.get l k) - 1) := by
    rw [undoPair, Vec.get_ofFn, if_neg hkl.not_gt, if_pos rfl]
  have hsnd : (undoPair F c k l).get l =
      (F.get k k / F.get l k * (c.get l / F.get l k) - c.get k / F.get l k) /
        (F.get k k / F.get l k * (F.get l l / F.get l k) - 1) := by
    rw [undoPair, Vec.get_ofFn, if_neg (lt_irrefl l), if_neg hkl.ne', if_pos rfl]
  have hblock : ∀ i, (stacked (l.val + 1) (stacked k.val 1 F.symmMatrix) 1).mulVec
      (undoPair F c k l).get i =
        if i = k then c.get k else if i = l then c.get l else (undoPair F c k l).get i := by
    intro i
    rw [block_mulVec, sum_Icc_succ next]
    by_cases hik : i = k
    · rw [if_pos (hik ▸ hkmem), if_pos hik, hik, Grid.symmMatrix_apply, Grid.symmMatrix_apply,
        Grid.symm_of_le _ le_rfl, Grid.symm_comm, Grid.symm_of_le _ hkl.le, hfst, hsnd]
      exact hsystem.1
    · by_cases hil : i = l
      · rw [if_pos (hil ▸ hlmem), if_neg hik, if_pos hil, hil, Grid.symmMatrix_apply,
          Grid.symmMatrix_apply, Grid.symm_of_le _ le_rfl, Grid.symm_of_le _ hkl.le, hfst, hsnd]
        exact hsystem.2
      · rw [if_neg fun h => ((mem_Icc_succ next).mp h).elim hik hil, if_neg hik, if_neg hil]
  funext i
  rw [unitLower_mulVec, sum_Icc_succ next, hblock, hblock, hblock, if_pos rfl, if_neg hkl.ne',
    if_pos rfl]
  by_cases hli : l < i
  · rw [if_neg (hkl.trans hli).ne', if_neg hli.ne', if_pos hli, undoPair, Vec.get_ofFn,
      if_pos hli, sub_add_cancel]
  · rw [if_neg hli, add_zero]
    split
    · next h => rw [h]
    · split
      · next h => rw [h]
      · next hik hil => rw [undoPair, Vec.get_ofFn, if_neg hli, if_neg hik, if_neg hil]

/-- The backward step of a block of order two solves with its transposed multipliers. -/
theorem reduceBy_pair_spec (F : Grid n n ℝ) {k l : Fin n} (next : l.val = k.val + 1)
    (y : Vector ℝ n) :
    (unitLower F k l).transpose.mulVec (reduceBy F (reduceBy F y l l) k l).get = y.get := by
  have hkl : k < l := by
    rw [Fin.lt_def]
    omega
  have htail : ∀ i, l < i → (reduceBy F (reduceBy F y l l) k l).get i = y.get i := by
    intro i hi
    rw [get_reduceBy, if_neg (hkl.trans hi).ne', get_reduceBy, if_neg hi.ne']
  funext j
  have hsum : ∑ i ∈ Finset.Ioi l, F.get i j * (reduceBy F (reduceBy F y l l) k l).get i =
      ∑ i ∈ Finset.Ioi l, F.get i j * y.get i :=
    Finset.sum_congr rfl fun i hi => by rw [htail i (Finset.mem_Ioi.mp hi)]
  have hinner : ∑ i ∈ Finset.Ioi l, F.get i k * (reduceBy F y l l).get i =
      ∑ i ∈ Finset.Ioi l, F.get i k * y.get i :=
    Finset.sum_congr rfl fun i hi => by rw [get_reduceBy, if_neg (Finset.mem_Ioi.mp hi).ne']
  rw [unitLower_transpose_mulVec, hsum, get_reduceBy]
  simp only [mem_Icc_succ next]
  by_cases hjk : j = k
  · rw [if_pos hjk, if_pos (.inl hjk), hinner, get_reduceBy, if_neg hkl.ne, hjk, sub_add_cancel]
  · rw [if_neg hjk, get_reduceBy]
    by_cases hjl : j = l
    · rw [if_pos hjl, if_pos (.inr hjl), hjl, sub_add_cancel]
    · rw [if_neg hjl, if_neg fun h => h.elim hjk hjl, add_zero]

/-! ### All steps -/

/-- What lies in front of a sweep is the same in the grid that the sweep ends with. -/
theorem Sweeps.symm_eq {k : ℕ} {s t : Progress n ℝ} (h : Sweeps k s t) {i j : Fin n}
    (hi : i.val < k) (hj : j.val < k) : t.grid.symm i j = s.grid.symm i j := by
  simp only [Grid.symm, h.grid_eq _ hi, h.grid_eq _ hj]

/-- The multipliers and blocks of a step can be read from the grid that the sweep ends with. -/
theorem Sweeps.step_eq {k l a p : Fin n} {s t : Progress n ℝ} {S C : RealMatrix n}
    (h : Sweeps (l.val + 1) s t)
    (hS : S = (unitLower s.grid k l * middle s.grid C k l *
      (unitLower s.grid k l).transpose).submatrix (exchange a p) (exchange a p)) :
    S = (unitLower t.grid k l * stacked (l.val + 1) (stacked k.val C t.grid.symmMatrix)
      s.grid.symmMatrix * (unitLower t.grid k l).transpose).submatrix
        (exchange a p) (exchange a p) := by
  have hlower : unitLower t.grid k l = unitLower s.grid k l := by
    ext i j
    simp only [unitLower]
    split
    · rfl
    · split
      · next hj => exact h.grid_eq i (Nat.lt_succ_of_le hj.2.2)
      · rfl
  have hmiddle : stacked (l.val + 1) (stacked k.val C t.grid.symmMatrix) s.grid.symmMatrix =
      middle s.grid C k l := by
    refine stacked_congr (fun i j hi hj => ?_) fun _ _ _ _ => rfl
    simp only [stacked, Grid.symmMatrix_apply, h.symm_eq hi hj]
  rw [hlower, hmiddle, hS]

/-- A step with a pivot of order one. -/
theorem Sweeps.step_single {s t : Progress n ℝ} {k p : Fin n}
    (choice : choosePivot s.grid k = .single p) (rest : Sweeps (k.val + 1) (s.single k p) t)
    (C : RealMatrix n) :
    t.grid.get k k ≠ 0 ∧ stacked k.val C s.grid.symmMatrix =
      (unitLower t.grid k k * stacked (k.val + 1) (stacked k.val C t.grid.symmMatrix)
        (s.single k p).grid.symmMatrix * (unitLower t.grid k k).transpose).submatrix
          (exchange k p) (exchange k p) := by
  have hle := le_of_choosePivot_single choice
  have hpivot : (interchange s.grid k k p).get k k ≠ 0 := by
    rw [← Grid.symm_of_le _ le_rfl, symm_interchange _ le_rfl le_rfl, exchange, if_pos rfl,
      Grid.symm_of_le _ le_rfl]
    exact pivot_ne_zero choice
  constructor
  · rw [rest.grid_eq k (Nat.lt_succ_self k.val)]
    simpa [Progress.single, eliminateSingle, Grid.get_ofFn] using hpivot
  · apply rest.step_eq
    rw [stacked_interchange s.grid (le_refl k) hle, stacked_single hpivot]
    rfl

/-- A step with a pivot of order two. -/
theorem Sweeps.step_pair {s t : Progress n ℝ} {k l p : Fin n} (next : l.val = k.val + 1)
    (choice : choosePivot s.grid k = .pair p) (rest : Sweeps (l.val + 1) (s.pair k l p) t)
    (C : RealMatrix n) :
    (t.grid.get l k ≠ 0 ∧ t.grid.get k k * t.grid.get l l < t.grid.get l k * t.grid.get l k) ∧
    stacked k.val C s.grid.symmMatrix =
      (unitLower t.grid k l * stacked (l.val + 1) (stacked k.val C t.grid.symmMatrix)
        (s.pair k l p).grid.symmMatrix * (unitLower t.grid k l).transpose).submatrix
          (exchange l p) (exchange l p) := by
  have hkl : k < l := by
    rw [Fin.lt_def]
    omega
  have hlp : l ≤ p := by
    rw [Fin.le_def, next]
    exact lt_of_choosePivot_pair choice
  have hkp : k < p := hkl.trans_le hlp
  have hexk : exchange l p k = k := by rw [exchange, if_neg hkl.ne, if_neg hkp.ne]
  have hexl : exchange l p l = p := by rw [exchange, if_pos rfl]
  -- the block after the exchange holds the entries that the choice was made for
  have hkk : (interchange s.grid k l p).get k k = s.grid.get k k := by
    rw [← Grid.symm_of_le _ le_rfl, symm_interchange _ le_rfl le_rfl, hexk,
      Grid.symm_of_le _ le_rfl]
  have hlk : (interchange s.grid k l p).get l k = s.grid.get p k := by
    rw [← Grid.symm_of_le _ hkl.le, symm_interchange _ hkl.le le_rfl, hexk, hexl,
      Grid.symm_of_le _ hkp.le]
  have hll : (interchange s.grid k l p).get l l = s.grid.get p p := by
    rw [← Grid.symm_of_le _ le_rfl, symm_interchange _ hkl.le hkl.le, hexl,
      Grid.symm_of_le _ le_rfl]
  obtain ⟨hb, hdet⟩ := pivot_pair choice
  rw [← hlk] at hb
  rw [← hkk, ← hlk, ← hll] at hdet
  have hfixed : ∀ i, i ≤ l → ∀ j, j ≤ l →
      t.grid.get i j = (interchange s.grid k l p).get i j := by
    intro i hi j hj
    have hil : ¬l < i := not_lt.mpr hi
    rw [rest.grid_eq i (Nat.lt_succ_of_le hj)]
    simp only [Progress.pair, eliminatePair, Grid.get_ofFn]
    rw [if_neg fun h => hil (h.1.trans_le h.2), if_neg fun h => hil h.1, if_neg fun h => hil h.1]
  constructor
  · rw [hfixed l le_rfl k hkl.le, hfixed k hkl.le k hkl.le, hfixed l le_rfl l le_rfl]
    exact ⟨hb, hdet⟩
  · apply rest.step_eq
    rw [stacked_interchange s.grid hkl.le hkp.le, stacked_pair next hb hdet]
    rfl

/-- The blocks from a column on solve the system of the symmetric matrix that the sweep started from
there.  The induction is on the steps of the sweep, and every step surrounds the solution of what it
leaves. -/
theorem Sweeps.solves {k : ℕ} {s t : Progress n ℝ} (h : Sweeps k s t) (hinfo : t.info = 0)
    {b z : Vector ℝ n} (hz : Solves t.grid t.record k b z) :
    (stacked k 1 s.grid.symmMatrix).mulVec z.get = b.get := by
  induction h generalizing b z with
  | done => rw [stacked_all, Matrix.one_mulVec, hz.of_le le_rfl]
  | skip k choice rest => exact absurd hinfo (rest.info_ne_zero (Progress.skip_info_ne_zero _ k))
  | @single s t k p choice rest ih =>
    obtain ⟨y, hy, rfl⟩ := hz.of_single rest.record_single
    obtain ⟨hd, hstep⟩ := rest.step_single choice 1
    have hforward := undoSingle_spec (swapEntries b k p) hd
    rw [swapEntries_get] at hforward
    rw [swapEntries_get]
    exact stacked_mulVec_eq hstep hforward (ih hinfo hy) (reduceBy_single_spec t.grid k y)
  | @pair s t k l p next choice rest ih =>
    obtain ⟨y, hy, rfl⟩ := hz.of_pair next (rest.record_pair next).1
    have hnext : k.val + 2 = l.val + 1 := by omega
    rw [hnext] at rest ih hy
    obtain ⟨⟨hb, hdet⟩, hstep⟩ := rest.step_pair next choice 1
    have hforward := undoPair_spec next (swapEntries b l p) hb hdet
    rw [swapEntries_get] at hforward
    rw [swapEntries_get]
    exact stacked_mulVec_eq hstep hforward (ih hinfo hy) (reduceBy_pair_spec t.grid next y)

/-! ### Solutions -/

/-- What the factors answer solves the system. -/
theorem Sweeps.mulVec_eq {A : Grid n n ℝ} {record : Record n} {t : Progress n ℝ}
    (h : Sweeps 0 ⟨A, record, 0⟩ t) (hinfo : t.info = 0) {b x : Vector ℝ n}
    (hx : solveGrid t.grid t.record b = .ok x) : A.symmMatrix.mulVec x.get = b.get := by
  obtain ⟨z, hz⟩ := exists_solves (A := t.grid) h.splits b
  obtain rfl : z = x := Except.ok.inj ((solveGrid_of_solves hz).symm.trans hx)
  have hsolves := h.solves hinfo hz
  rwa [stacked_zero] at hsolves

/-- A grid that was factored without an error answers every right hand side with the solution. -/
theorem exists_solveGrid {A F : Grid n n ℝ} {record record' : Record n}
    (h : factorGrid A record = .ok ⟨.ok (), (F, record')⟩) (b : Vector ℝ n) :
    ∃ x, solveGrid F record' b = .ok x ∧ ∀ i, ∑ j, A.symm i j * x.get j = b.get i := by
  have hsweep := sweeps_of_factorGrid h rfl
  obtain ⟨x, hx⟩ := exists_solves (A := F) hsweep.splits b
  have hsolved := solveGrid_of_solves hx
  exact ⟨x, hsolved, fun i => congrFun (hsweep.mulVec_eq rfl hsolved) i⟩

/-- **Solutions are exact.**  If the factorization of a matrix ends without an error, then the
factors and the pivot record turn every right hand side into the solution of the system whose
symmetric matrix is given by the lower triangle. -/
theorem solve_of_factor {A : Grid n n ℝ} {record record' : Record n} {F : Matrix ℝ}
    (h : factor (.ofGrid A) record = .ok ⟨.ok (), (F, record')⟩) (b : Vector ℝ n) :
    ∃ x, solve F record' b.toArray = .ok x ∧ ∀ i, ∑ j, A.symm i j * x.get j = b.get i := by
  rw [factor_ofGrid] at h
  cases hA : factorGrid A record with
  | error fault =>
    rw [hA] at h
    cases h
  | ok reply =>
    obtain ⟨answer, G, record₁⟩ := reply
    rw [hA] at h
    cases h
    obtain ⟨x, hx, hsolved⟩ := exists_solveGrid hA b
    exact ⟨x, by rw [solve_ofGrid, hx], hsolved⟩

/-- The exchange of two entries has zeros on its diagonal and needs a pivot of order two. -/
theorem choosePivot_exchange : choosePivot (Grid.diagonal 2 (0 : ℝ) 1) 0 = .pair 1 := by
  have hrows : below (0 : Fin 2) = [1] := by decide
  have hcols : (List.finRange 2).filter (fun j => decide ((0 : Fin 2) ≤ j) && decide (j ≠ 1)) =
      [0] := by decide
  have hlargest : largestBelow (Grid.diagonal 2 (0 : ℝ) 1) 0 = some (1, 1) := by
    simp [largestBelow, hrows, Grid.get_diagonal]
  have hmax : rowMax (Grid.diagonal 2 (0 : ℝ) 1) 0 1 = 1 := by
    rw [rowMax, hcols]
    simp [Grid.symm, Grid.get_diagonal]
  have hthreshold : ¬(threshold : ℝ) ≤ 0 := not_le.mpr threshold_pos
  simp [choosePivot, hlargest, hmax, Grid.get_diagonal, hthreshold]

/-- So it is factored without an error. -/
theorem factor_exchange : ∃ F record,
    factor (.ofGrid (Grid.diagonal 2 (0 : ℝ) 1)) (.replicate 2 0) =
      .ok ⟨.ok (), (F, record)⟩ := by
  obtain ⟨t, hsweep, ht⟩ := exists_factorGrid (Grid.diagonal 2 (0 : ℝ) 1) (.replicate 2 0)
  have hinfo : t.info = 0 := by
    generalize hk : (0 : ℕ) = k at hsweep
    cases hsweep with
    | done => omega
    | skip k choice =>
      obtain rfl : k = 0 := Fin.ext hk.symm
      cases choosePivot_exchange.symm.trans choice
    | single k p choice =>
      obtain rfl : k = 0 := Fin.ext hk.symm
      cases choosePivot_exchange.symm.trans choice
    | pair k l p next choice rest =>
      rw [rest.eq_of_le (by omega)]
      rfl
  refine ⟨.ofGrid t.grid, t.record, ?_⟩
  rw [factor_ofGrid, ht, if_pos hinfo]
  rfl

/-- Two equations that are solved through one pivot of order two. -/
theorem solve_of_factor_exchange : ∃ F record x,
    factor (.ofGrid (Grid.diagonal 2 (0 : ℝ) 1)) (.replicate 2 0) = .ok ⟨.ok (), (F, record)⟩ ∧
      solve F record #[3, 5] = .ok x ∧
      ∀ i, ∑ j, (Grid.diagonal 2 (0 : ℝ) 1).symm i j * x.get j = (#v[3, 5] : Vector ℝ 2).get i := by
  obtain ⟨F, record, h⟩ := factor_exchange
  obtain ⟨x, hx, hsolved⟩ := solve_of_factor h #v[3, 5]
  exact ⟨F, record, x, h, hx, hsolved⟩

end ConicSaddle.Ldl
