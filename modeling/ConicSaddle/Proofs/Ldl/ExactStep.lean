import Mathlib.Data.Matrix.PEquiv
import ConicSaddle.Proofs.Ldl.Elimination

/-!
# Steps of the factorization in exact arithmetic

The pivots that are chosen over the reals are never zero, and each step is the identity of
`stacked_eq_of_multipliers` with rows and columns exchanged.

* `le_colMax`, `le_rowMax`: the magnitudes that are compared are the largest ones;
* `pivot_ne_zero`, `pivot_pair`, `column_eq_zero`: what a choice says about the entries;
* `stacked_interchange`: the exchange of two rows and columns;
* `stacked_skip`, `stacked_single`, `stacked_pair`: one step for each kind of pivot.
-/

namespace ConicSaddle.Ldl

variable {n : ℕ}

/-! ### The magnitudes that are compared -/

theorem foldl_betterBelow_le {A : Grid n n ℝ} {k p : Fin n} {v : ℝ} (rows : List (Fin n))
    (best : Option (Fin n × ℝ)) (h : rows.foldl (betterBelow A k) best = some (p, v)) :
    (∀ q w, best = some (q, w) → w ≤ v) ∧ ∀ i ∈ rows, |A.get i k| ≤ v := by
  induction rows generalizing best with
  | nil =>
    refine ⟨fun q w hw => ?_, fun i hi => by cases hi⟩
    cases h.symm.trans hw
    exact le_rfl
  | cons i rows ih =>
    obtain ⟨hbest, hrows⟩ := ih (betterBelow A k best i) h
    rcases betterBelow_cases A k best i with hi | ⟨q, w, rfl, hlt, hi⟩
    · have hsize : |A.get i k| ≤ v := hbest i _ hi
      refine ⟨fun q w hw => ?_, fun j hj => ?_⟩
      · subst hw
        by_cases hlt : w < |A.get i k|
        · exact hlt.le.trans hsize
        · exact hbest q w (by simp [betterBelow, hlt])
      · rcases List.mem_cons.mp hj with rfl | hj
        · exact hsize
        · exact hrows j hj
    · have hw : w ≤ v := hbest q w hi
      refine ⟨fun q' w' hq => ?_, fun j hj => ?_⟩
      · cases hq
        exact hw
      · rcases List.mem_cons.mp hj with rfl | hj
        · exact (not_lt.mp (of_decide_eq_false hlt)).trans hw
        · exact hrows j hj

/-- No entry below the diagonal is larger than the one that was found. -/
theorem le_colMax (A : Grid n n ℝ) {k i : Fin n} (hi : k < i) : |A.get i k| ≤ colMax A k := by
  rcases h : largestBelow A k with _ | ⟨p, v⟩
  · exact absurd hi (not_lt.mpr (largestBelow_eq_none h i))
  · rw [colMax, h, Option.getD_some]
    exact (foldl_betterBelow_le (below k) none h).2 i (mem_below.mpr hi)

theorem colMax_nonneg (A : Grid n n ℝ) (k : Fin n) : 0 ≤ colMax A k := by
  rcases h : largestBelow A k with _ | ⟨p, v⟩
  · rw [colMax, h]
    exact le_rfl
  · rw [colMax, h, Option.getD_some, (largestBelow_eq_some h).2]
    exact abs_nonneg _

theorem le_foldl_larger {β : Type} (f : β → ℝ) (xs : List β) (best : ℝ) :
    best ≤ xs.foldl (fun best x => Scalar.larger best (f x)) best ∧
      ∀ x ∈ xs, f x ≤ xs.foldl (fun best x => Scalar.larger best (f x)) best := by
  induction xs generalizing best with
  | nil => exact ⟨le_rfl, fun x hx => by cases hx⟩
  | cons y xs ih =>
    rw [List.foldl_cons, Exact.larger_eq]
    obtain ⟨hbest, hxs⟩ := ih (max best (f y))
    refine ⟨(le_max_left best (f y)).trans hbest, fun x hx => ?_⟩
    rcases List.mem_cons.mp hx with rfl | hx
    · exact (le_max_right best (f x)).trans hbest
    · exact hxs x hx

/-- No entry of the row in the trailing matrix, off the diagonal, is larger than its maximum. -/
theorem le_rowMax (A : Grid n n ℝ) {k p j : Fin n} (hj : k ≤ j) (hne : j ≠ p) :
    |A.symm p j| ≤ rowMax A k p := by
  refine (le_foldl_larger (fun j => |A.symm p j|) _ 0).2 j ?_
  simp [hj, hne]

theorem colMax_le_rowMax (A : Grid n n ℝ) {k p : Fin n} {v : ℝ}
    (h : largestBelow A k = some (p, v)) : v ≤ rowMax A k p := by
  obtain ⟨hkp, rfl⟩ := largestBelow_eq_some h
  have := le_rowMax A (le_refl k) (ne_of_lt hkp)
  rwa [Grid.symm_of_le A hkp.le] at this

/-- The row of the largest entry below the diagonal is not zero if the column is not. -/
theorem rowMax_pos {A : Grid n n ℝ} {k : Fin n} (hcol : 0 < colMax A k) :
    0 < rowMax A k (foundRow A k) := by
  rcases hfound : largestBelow A k with _ | ⟨q, v⟩
  · rw [colMax, hfound] at hcol
    exact absurd hcol (lt_irrefl 0)
  · rw [colMax, hfound] at hcol
    rw [foundRow, hfound]
    exact hcol.trans_le (colMax_le_rowMax A hfound)

theorem threshold_pos : (0 : ℝ) < threshold := by
  have h : (threshold : ℝ) = (1 + Real.sqrt 17) / 8 := by simp [threshold]
  rw [h]
  positivity

theorem threshold_lt_one : (threshold : ℝ) < 1 := by
  have h : (threshold : ℝ) = (1 + Real.sqrt 17) / 8 := by simp [threshold]
  have hsqrt : Real.sqrt 17 < 5 := by
    rw [Real.sqrt_lt' (by norm_num)]
    norm_num
  rw [h]
  linarith

instance : PivotRules ℝ where
  threshold_zero_le x _ := by simp

/-! ### What a choice says about the entries -/

/-- A column that counts as zero is zero. -/
theorem column_eq_zero {A : Grid n n ℝ} {k : Fin n} (h : choosePivot A k = .zeroColumn) {i : Fin n}
    (hi : k ≤ i) : A.get i k = 0 := by
  have hc := chosen_choosePivot A k
  rw [h] at hc
  cases hc with
  | zeroColumn h =>
    have hmax : max |A.get k k| (colMax A k) = 0 := by simpa using h
    rcases eq_or_lt_of_le hi with rfl | hlt
    · exact abs_nonpos_iff.mp (hmax ▸ le_max_left _ _)
    · exact abs_nonpos_iff.mp ((le_colMax A hlt).trans (hmax ▸ le_max_right _ _))

/-- A column whose diagonal entry is below the threshold has a larger entry below it. -/
theorem colMax_pos {A : Grid n n ℝ} {k : Fin n}
    (small : Scalar.le (threshold * colMax A k) (Scalar.abs (A.get k k)) = false) :
    0 < colMax A k := by
  have hlt : |A.get k k| < threshold * colMax A k := by simpa using small
  exact pos_of_mul_pos_right ((abs_nonneg _).trans_lt hlt) threshold_pos.le

/-- A pivot of order one is not zero. -/
theorem pivot_ne_zero {A : Grid n n ℝ} {k p : Fin n} (h : choosePivot A k = .single p) :
    A.get p p ≠ 0 := by
  have hc := chosen_choosePivot A k
  rw [h] at hc
  cases hc with
  | diagonal nonzero _ large =>
    intro hzero
    have hmax : ¬max |A.get k k| (colMax A k) = 0 := by simpa using nonzero
    have hpos : 0 < colMax A k := by
      refine lt_of_le_of_ne (colMax_nonneg A k) fun hcol => hmax ?_
      rw [hzero, abs_zero, ← hcol, max_self]
    rcases large with large | large
    · have hle : threshold * colMax A k ≤ |A.get k k| := by simpa using large
      rw [hzero, abs_zero] at hle
      exact absurd hle (not_le.mpr (mul_pos threshold_pos hpos))
    · have hle : threshold * colMax A k * (colMax A k / rowMax A k (foundRow A k)) ≤
          |A.get k k| := by simpa using large
      rw [hzero, abs_zero] at hle
      have hrow := rowMax_pos hpos
      exact absurd hle (not_le.mpr (mul_pos (mul_pos threshold_pos hpos) (div_pos hpos hrow)))
  | brought _ number small large =>
    have hpos := colMax_pos small
    have hrow := hpos.trans_le (colMax_le_rowMax A (largestBelow_isSome number small))
    have hle : threshold * rowMax A k (foundRow A k) ≤
        |A.get (foundRow A k) (foundRow A k)| := by simpa using large
    exact abs_pos.mp ((mul_pos threshold_pos hrow).trans_le hle)

/-- A pivot of order two has a nonzero entry off the diagonal and a negative determinant. -/
theorem pivot_pair {A : Grid n n ℝ} {k p : Fin n} (h : choosePivot A k = .pair p) :
    A.get p k ≠ 0 ∧ A.get k k * A.get p p < A.get p k * A.get p k := by
  have hc := chosen_choosePivot A k
  rw [h] at hc
  cases hc with
  | pair _ number small small_row small_diagonal =>
    have hfound := largestBelow_isSome number small
    have hcol := colMax_pos small
    have hrow := hcol.trans_le (colMax_le_rowMax A hfound)
    have hsize : colMax A k = |A.get (foundRow A k) k| := (largestBelow_eq_some hfound).2
    have hdiag : |A.get k k| <
        threshold * colMax A k * (colMax A k / rowMax A k (foundRow A k)) := by
      simpa using small_row
    have hother : |A.get (foundRow A k) (foundRow A k)| <
        threshold * rowMax A k (foundRow A k) := by simpa using small_diagonal
    refine ⟨abs_pos.mp (hsize ▸ hcol), ?_⟩
    calc A.get k k * A.get (foundRow A k) (foundRow A k)
        ≤ |A.get k k| * |A.get (foundRow A k) (foundRow A k)| := by
          rw [← abs_mul]
          exact le_abs_self _
      _ ≤ (threshold * colMax A k * (colMax A k / rowMax A k (foundRow A k))) *
            (threshold * rowMax A k (foundRow A k)) :=
          mul_le_mul hdiag.le hother.le (abs_nonneg _) ((abs_nonneg _).trans hdiag.le)
      _ = threshold * threshold * (colMax A k * colMax A k) := by
          field_simp
      _ < 1 * (colMax A k * colMax A k) := by
          apply mul_lt_mul_of_pos_right _ (mul_pos hcol hcol)
          exact mul_lt_one_of_nonneg_of_lt_one_left threshold_pos.le threshold_lt_one
            threshold_lt_one.le
      _ = A.get (foundRow A k) k * A.get (foundRow A k) k := by
          rw [one_mul, hsize, abs_mul_abs_self]

/-! ### The exchange of rows and columns -/

theorem exchange_eq_swap (a b i : Fin n) : exchange a b i = Equiv.swap a b i := by
  rw [exchange, Equiv.swap_apply_def]

/-- The exchange of two rows and columns, undone from outside. -/
theorem stacked_interchange (A : Grid n n ℝ) {k a b : Fin n} (ha : k ≤ a) (hb : k ≤ b)
    (C : RealMatrix n) :
    stacked k.val C A.symmMatrix =
      (stacked k.val C (interchange A k a b).symmMatrix).submatrix (exchange a b)
        (exchange a b) := by
  ext i j
  rw [Matrix.submatrix_apply]
  rcases lt_or_ge i k with hi | hi
  · rw [exchange_of_lt ha hb hi]
    rcases lt_or_ge j k with hj | hj
    · rw [exchange_of_lt ha hb hj, stacked_front hi hj, stacked_front hi hj]
    · rw [stacked_above hi hj, stacked_above hi (le_exchange ha hb hj)]
  · have hi' := le_exchange ha hb hi
    rcases lt_or_ge j k with hj | hj
    · rw [exchange_of_lt ha hb hj, stacked_beside hi hj, stacked_beside hi' hj]
    · have hj' := le_exchange ha hb hj
      rw [stacked_rest hi hj, stacked_rest hi' hj', Grid.symmMatrix_apply, Grid.symmMatrix_apply,
        symm_interchange A hi' hj', exchange_exchange, exchange_exchange]

/-! ### One step -/

/-- A column of zeros is eliminated by multipliers that are zero. -/
theorem stacked_skip {A : Grid n n ℝ} {k : Fin n} (h : choosePivot A k = .zeroColumn)
    (C : RealMatrix n) :
    stacked k.val C A.symmMatrix =
      unitLower A k k * middle A C k k * (unitLower A k k).transpose := by
  have hzero : ∀ i, k ≤ i → A.get i k = 0 := fun i hi => column_eq_zero h hi
  refine stacked_eq_of_multipliers A C le_rfl (fun c _ e _ => rfl) (fun i hi e he => ?_)
    fun i j hj hji => ?_
  · rw [Finset.Icc_self, Finset.mem_singleton] at he
    rw [he, hzero i hi.le, Finset.Icc_self, Finset.sum_singleton, hzero i hi.le, zero_mul]
  · rw [Finset.Icc_self, Finset.sum_singleton, hzero j hj.le, mul_zero, sub_zero]

/-- The elimination of a column with its diagonal entry. -/
theorem stacked_single {A : Grid n n ℝ} {k : Fin n} (h : A.get k k ≠ 0) (C : RealMatrix n) :
    stacked k.val C A.symmMatrix =
      unitLower (eliminateSingle A k) k k * middle (eliminateSingle A k) C k k *
        (unitLower (eliminateSingle A k) k k).transpose := by
  have hdiag : (eliminateSingle A k).get k k = A.get k k := by
    simp [eliminateSingle, Grid.get_ofFn]
  have hcol : ∀ i, k < i → (eliminateSingle A k).get i k = A.get i k / A.get k k := by
    intro i hi
    simp [eliminateSingle, Grid.get_ofFn, hi, div_eq_mul_inv]
  refine stacked_eq_of_multipliers _ C le_rfl (fun c hc e he => ?_) (fun i hi e he => ?_)
    fun i j hj hji => ?_
  · rw [Finset.Icc_self, Finset.mem_singleton] at hc he
    rw [hc, he, Grid.symm_of_le _ le_rfl, Grid.symm_of_le _ le_rfl, hdiag]
  · rw [Finset.Icc_self, Finset.mem_singleton] at he
    rw [he, Finset.Icc_self, Finset.sum_singleton, Grid.symm_of_le _ le_rfl, hdiag, hcol i hi,
      div_mul_cancel₀ _ h]
  · rw [Finset.Icc_self, Finset.sum_singleton, hcol j hj]
    simp only [eliminateSingle, Grid.get_ofFn, hj, hji, and_self, if_true, Exact.isZero_eq,
      decide_eq_true_eq, Exact.recip_eq]
    split
    · next hzero => rw [hzero, zero_div, mul_zero, sub_zero]
    · ring

theorem mem_Icc_succ {k l c : Fin n} (next : l.val = k.val + 1) :
    c ∈ Finset.Icc k l ↔ c = k ∨ c = l := by
  rw [Finset.mem_Icc, Fin.le_def, Fin.le_def, Fin.ext_iff, Fin.ext_iff]
  omega

theorem sum_Icc_succ {k l : Fin n} (next : l.val = k.val + 1) (f : Fin n → ℝ) :
    ∑ c ∈ Finset.Icc k l, f c = f k + f l := by
  have hne : k ≠ l := fun e => by
    rw [e] at next
    omega
  have hset : Finset.Icc k l = {k, l} := by
    ext c
    rw [mem_Icc_succ next, Finset.mem_insert, Finset.mem_singleton]
  rw [hset, Finset.sum_pair hne]

/-- The multipliers of a row solve the system of the block. -/
theorem pairMultipliers_spec {A : Grid n n ℝ} {k l : Fin n} (hb : A.get l k ≠ 0)
    (hdet : A.get k k * A.get l l < A.get l k * A.get l k) (i : Fin n) :
    A.get i k = (pairMultipliers A k l i).1 * A.get k k + (pairMultipliers A k l i).2 * A.get l k ∧
    A.get i l =
      (pairMultipliers A k l i).1 * A.get l k + (pairMultipliers A k l i).2 * A.get l l := by
  obtain ⟨D, hD⟩ : ∃ D, D = A.get l l * A.get k k - A.get l k * A.get l k := ⟨_, rfl⟩
  have hden : D ≠ 0 := by
    rw [hD, mul_comm]
    exact (sub_neg.mpr hdet).ne
  have hfrac : A.get l l / A.get l k * (A.get k k / A.get l k) - 1 =
      D / (A.get l k * A.get l k) := by
    rw [hD]
    field_simp
  simp only [pairMultipliers, Exact.recip_eq, hfrac]
  constructor
  · field_simp
    rw [hD]
    ring
  · field_simp
    rw [hD]
    ring

/-- The elimination of two columns with their block. -/
theorem stacked_pair {A : Grid n n ℝ} {k l : Fin n} (next : l.val = k.val + 1)
    (hb : A.get l k ≠ 0) (hdet : A.get k k * A.get l l < A.get l k * A.get l k)
    (C : RealMatrix n) :
    stacked k.val C A.symmMatrix =
      unitLower (eliminatePair A k l) k l * middle (eliminatePair A k l) C k l *
        (unitLower (eliminatePair A k l) k l).transpose := by
  have hkl : k < l := by
    rw [Fin.lt_def]
    omega
  have hblock : ∀ c ∈ Finset.Icc k l, ∀ e, (eliminatePair A k l).get c e = A.get c e := by
    intro c hc e
    have hcl : ¬l < c := not_lt.mpr (Finset.mem_Icc.mp hc).2
    rw [eliminatePair, Grid.get_ofFn, if_neg fun h => hcl (h.1.trans_le h.2),
      if_neg fun h => hcl h.1, if_neg fun h => hcl h.1]
  have hfst : ∀ i, l < i → (eliminatePair A k l).get i k = (pairMultipliers A k l i).1 := by
    intro i hi
    rw [eliminatePair, Grid.get_ofFn, if_neg fun h => absurd h.1 hkl.not_gt, if_pos ⟨hi, rfl⟩]
  have hsnd : ∀ i, l < i → (eliminatePair A k l).get i l = (pairMultipliers A k l i).2 := by
    intro i hi
    rw [eliminatePair, Grid.get_ofFn, if_neg fun h => absurd h.1 (lt_irrefl l),
      if_neg fun h => hkl.ne' h.2, if_pos ⟨hi, rfl⟩]
  have hsymm : ∀ c ∈ Finset.Icc k l, ∀ e ∈ Finset.Icc k l,
      (eliminatePair A k l).symm c e = A.symm c e := by
    intro c hc e he
    simp only [Grid.symm, hblock c hc, hblock e he]
  have hkmem : k ∈ Finset.Icc k l := (mem_Icc_succ next).mpr (.inl rfl)
  have hlmem : l ∈ Finset.Icc k l := (mem_Icc_succ next).mpr (.inr rfl)
  refine stacked_eq_of_multipliers _ C hkl.le (fun c hc e he => (hsymm c hc e he).symm)
    (fun i hi e he => ?_) fun i j hj hji => ?_
  · obtain ⟨h1, h2⟩ := pairMultipliers_spec hb hdet i
    rw [sum_Icc_succ next, hfst i hi, hsnd i hi, hsymm k hkmem e he, hsymm l hlmem e he]
    rcases (mem_Icc_succ next).mp he with rfl | rfl
    · rw [Grid.symm_of_le A le_rfl, Grid.symm_of_le A hkl.le]
      exact h1
    · rw [Grid.symm_of_le A le_rfl, Grid.symm_comm A k e, Grid.symm_of_le A hkl.le]
      exact h2
  · rw [sum_Icc_succ next, hfst j hj, hsnd j hj, eliminatePair, Grid.get_ofFn, if_pos ⟨hj, hji⟩]

end ConicSaddle.Ldl
