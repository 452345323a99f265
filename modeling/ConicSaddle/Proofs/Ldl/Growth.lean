import Mathlib.Order.ConditionallyCompleteLattice.Finset
import ConicSaddle.Proofs.Ldl.Factors

/-!
# Growth of entries

How large the entries of the trailing matrix can become in exact arithmetic.  The threshold between
the two orders of pivots is the root of `4 x² = x + 1`, so that a pivot of order two lets entries
grow as much as two pivots of order one.

* `growth`, `growth_sq`: the factor for one column, and for two;
* `BoundedFrom A k μ`: a bound on the trailing matrix;
* `BoundedFrom.single`, `BoundedFrom.pair`: what the elimination with a pivot does to the bound;
* `BoundedFrom.step`: one step of the factorization, whatever its pivot is;
* `Reached`: the states that the factorization of a matrix comes to, with `Reached.bounded`;
* `growth_bounded`: the statement for a whole factorization.
-/

namespace ConicSaddle.Ldl

variable {n : ℕ}

/-! ### The threshold -/

theorem threshold_eq : (threshold : ℝ) = (1 + √17) / 8 := by simp [threshold]

/-- The equation of the threshold. -/
theorem threshold_root : 4 * (threshold : ℝ) ^ 2 = threshold + 1 := by
  have hroot : √17 * √17 = (17 : ℝ) := Real.mul_self_sqrt (by norm_num)
  rw [threshold_eq]
  linear_combination hroot / 16

/-- The factor by which entries can grow with each column. -/
noncomputable def growth : ℝ := 1 + 1 / threshold

theorem one_le_growth : 1 ≤ growth := by
  have h : (0 : ℝ) < 1 / threshold := one_div_pos.mpr threshold_pos
  unfold growth
  linarith

/-- Two columns at once let entries grow as much as one after the other. -/
theorem growth_sq : growth ^ 2 = 1 + 2 / (1 - threshold) := by
  have hpos : (threshold : ℝ) ≠ 0 := threshold_pos.ne'
  have hlt : 1 - (threshold : ℝ) ≠ 0 := (sub_pos.mpr threshold_lt_one).ne'
  unfold growth
  field_simp
  linear_combination (-1) * threshold_root

/-! ### Bounds on the trailing matrix -/

/-- No entry of the symmetric matrix from row and column `k` on is larger than `μ`. -/
def BoundedFrom (A : Grid n n ℝ) (k : ℕ) (μ : ℝ) : Prop :=
  ∀ i j : Fin n, k ≤ j.val → j ≤ i → |A.get i j| ≤ μ

namespace BoundedFrom

variable {A : Grid n n ℝ} {k : Fin n} {μ : ℝ}

theorem symm_le {k : ℕ} (h : BoundedFrom A k μ) {i j : Fin n} (hi : k ≤ i.val) (hj : k ≤ j.val) :
    |A.symm i j| ≤ μ := by
  rcases le_total j i with hji | hij
  · rw [Grid.symm_of_le A hji]
    exact h i j hj hji
  · rw [Grid.symm_comm, Grid.symm_of_le A hij]
    exact h j i hi hij

theorem nonneg (h : BoundedFrom A k.val μ) : 0 ≤ μ :=
  (abs_nonneg _).trans (h k k le_rfl le_rfl)

theorem colMax_le (h : BoundedFrom A k.val μ) : colMax A k ≤ μ := by
  rcases hfound : largestBelow A k with _ | ⟨p, v⟩
  · rw [colMax, hfound]
    exact h.nonneg
  · obtain ⟨hkp, hv⟩ := largestBelow_eq_some hfound
    rw [colMax, hfound, Option.getD_some, hv]
    exact h p k le_rfl hkp.le

theorem rowMax_le (h : BoundedFrom A k.val μ) {p : Fin n} (hp : k ≤ p) : rowMax A k p ≤ μ := by
  unfold rowMax
  -- every entry that the maximum is taken over is bounded, and so is the start value
  suffices hfold : ∀ (js : List (Fin n)) (best : ℝ), best ≤ μ → (∀ j ∈ js, k ≤ j) →
      js.foldl (fun best j => Scalar.larger best (Scalar.abs (A.symm p j))) best ≤ μ by
    refine hfold _ 0 h.nonneg fun j hj => ?_
    simp only [List.mem_filter, Bool.and_eq_true, decide_eq_true_eq] at hj
    exact hj.2.1
  intro js
  induction js with
  | nil => exact fun best hbest _ => hbest
  | cons j js ih =>
    intro best hbest hjs
    rw [List.foldl_cons, Exact.larger_eq]
    refine ih _ (max_le hbest ?_) fun j' hj' => hjs j' (List.mem_cons_of_mem j hj')
    exact h.symm_le hp (hjs j List.mem_cons_self)

theorem interchange (h : BoundedFrom A k.val μ) {a b : Fin n} (ha : k ≤ a) (hb : k ≤ b) :
    BoundedFrom (interchange A k a b) k.val μ := by
  intro i j hj hji
  rw [← Grid.symm_of_le _ hji, symm_interchange A (le_trans hj hji) hj]
  exact h.symm_le (le_exchange ha hb (le_trans hj hji)) (le_exchange ha hb hj)

end BoundedFrom

/-! ### Rows that are exchanged -/

theorem exchange_left (a b : Fin n) : exchange a b a = b := if_pos rfl

/-- Only one row is brought to the place of the other. -/
theorem exchange_ne {a b i : Fin n} (h : i ≠ a) : exchange a b i ≠ b := by
  intro heq
  refine h ?_
  calc i = exchange a b (exchange a b i) := (exchange_exchange a b i).symm
    _ = exchange a b (exchange a b a) := by rw [heq, exchange_left]
    _ = a := exchange_exchange a b a

/-! ### A pivot of order one -/

/-- A pivot of order one is large enough for the entries beside it. -/
theorem exists_beside_le {A : Grid n n ℝ} {k p : Fin n} {μ : ℝ}
    (choice : choosePivot A k = .single p) (h : BoundedFrom A k.val μ) :
    ∃ c, (∀ i, k ≤ i → i ≠ p → |A.symm i p| ≤ c) ∧ c * c ≤ μ / threshold * |A.get p p| := by
  have hα := threshold_pos
  have hquotient : 0 ≤ μ / threshold := div_nonneg h.nonneg hα.le
  have hc := chosen_choosePivot A k
  rw [choice] at hc
  cases hc with
  | diagonal _ _ large =>
    have hcol := colMax_nonneg A k
    refine ⟨colMax A k, fun i hi hne => ?_, ?_⟩
    · rw [Grid.symm_of_le A hi]
      exact le_colMax A (lt_of_le_of_ne hi hne.symm)
    · rcases hcol.eq_or_lt with hzero | hpos
      · rw [← hzero, zero_mul]
        exact mul_nonneg hquotient (abs_nonneg _)
      rcases large with large | large
      · have hle : threshold * colMax A k ≤ |A.get k k| := by simpa using large
        calc colMax A k * colMax A k
            ≤ μ * colMax A k := mul_le_mul_of_nonneg_right h.colMax_le hcol
          _ = μ / threshold * (threshold * colMax A k) := by field_simp
          _ ≤ μ / threshold * |A.get k k| := mul_le_mul_of_nonneg_left hle hquotient
      · have hle : threshold * colMax A k * (colMax A k / rowMax A k (foundRow A k)) ≤
            |A.get k k| := by simpa using large
        have hrow := rowMax_pos hpos
        calc colMax A k * colMax A k
            = rowMax A k (foundRow A k) / threshold *
                (threshold * colMax A k * (colMax A k / rowMax A k (foundRow A k))) := by
              field_simp
          _ ≤ μ / threshold * |A.get k k| :=
              mul_le_mul ((div_le_div_iff_of_pos_right hα).mpr (h.rowMax_le (le_foundRow A k))) hle
                (by positivity) hquotient
  | brought _ _ small large =>
    have hrow := rowMax_pos (colMax_pos small)
    have hle : threshold * rowMax A k (foundRow A k) ≤
        |A.get (foundRow A k) (foundRow A k)| := by simpa using large
    refine ⟨rowMax A k (foundRow A k), fun i hi hne => ?_, ?_⟩
    · rw [Grid.symm_comm]
      exact le_rowMax A hi hne
    · calc rowMax A k (foundRow A k) * rowMax A k (foundRow A k)
          = rowMax A k (foundRow A k) / threshold * (threshold * rowMax A k (foundRow A k)) := by
            field_simp
        _ ≤ μ / threshold * |A.get (foundRow A k) (foundRow A k)| :=
            mul_le_mul ((div_le_div_iff_of_pos_right hα).mpr (h.rowMax_le (le_foundRow A k))) hle
              (by positivity) hquotient

/-- What the elimination of a column takes from an entry. -/
theorem abs_update_le {c d x y ν : ℝ} (hd : d ≠ 0) (hx : |x| ≤ c) (hy : |y| ≤ c)
    (h : c * c ≤ ν * |d|) : |1 / d * y * x| ≤ ν := by
  have hpos : 0 < |d| := abs_pos.mpr hd
  have hproduct : |y * x| ≤ c * c := by
    rw [abs_mul]
    exact mul_le_mul hy hx (abs_nonneg _) ((abs_nonneg _).trans hy)
  have heq : 1 / d * y * x = y * x / d := by field_simp
  rw [heq, abs_div, div_le_iff₀ hpos]
  exact hproduct.trans h

/-- After a pivot of order one the entries have grown by the factor for one column. -/
theorem BoundedFrom.single {s : Progress n ℝ} {k p : Fin n} {μ : ℝ}
    (h : BoundedFrom s.grid k.val μ) (choice : choosePivot s.grid k = .single p) :
    BoundedFrom (s.single k p).grid (k.val + 1) (growth * μ) := by
  have hkp := le_of_choosePivot_single choice
  obtain ⟨c, hbeside, hc⟩ := exists_beside_le choice h
  have hB := h.interchange (le_refl k) hkp
  have hpivot : (Ldl.interchange s.grid k k p).get k k = s.grid.get p p := by
    rw [← Grid.symm_of_le _ le_rfl, symm_interchange _ le_rfl le_rfl, exchange_left,
      Grid.symm_of_le _ le_rfl]
  have hcolumn : ∀ i, k < i → |(Ldl.interchange s.grid k k p).get i k| ≤ c := by
    intro i hi
    rw [← Grid.symm_of_le _ hi.le, symm_interchange _ hi.le le_rfl, exchange_left]
    exact hbeside _ (le_exchange le_rfl hkp hi.le) (exchange_ne hi.ne')
  intro i j hj hji
  have hkj : k < j := hj
  have hki : k < i := hkj.trans_le hji
  have hentry := hB i j hkj.le hji
  have hgrow : μ ≤ growth * μ := le_mul_of_one_le_left h.nonneg one_le_growth
  simp only [Progress.single, eliminateSingle, Grid.get_ofFn, hkj, hji, and_self, if_true,
    Exact.isZero_eq, decide_eq_true_eq, Exact.recip_eq]
  split
  · exact hentry.trans hgrow
  · have hupdate := abs_update_le (ν := μ / threshold) (pivot_ne_zero choice) (hcolumn i hki)
      (hcolumn j hkj) hc
    rw [hpivot]
    calc |(Ldl.interchange s.grid k k p).get i j - 1 / s.grid.get p p *
            (Ldl.interchange s.grid k k p).get j k * (Ldl.interchange s.grid k k p).get i k|
        ≤ |(Ldl.interchange s.grid k k p).get i j| + |1 / s.grid.get p p *
            (Ldl.interchange s.grid k k p).get j k * (Ldl.interchange s.grid k k p).get i k| :=
          abs_sub _ _
      _ ≤ μ + μ / threshold := add_le_add hentry hupdate
      _ = growth * μ := by
          unfold growth
          ring

/-! ### A pivot of order two -/

/-- The multipliers of a row, over the determinant of the block. -/
theorem pairMultipliers_eq {A : Grid n n ℝ} {k l : Fin n} (hb : A.get l k ≠ 0)
    (hdet : A.get k k * A.get l l - A.get l k * A.get l k ≠ 0) (i : Fin n) :
    pairMultipliers A k l i =
      ((A.get l l * A.get i k - A.get l k * A.get i l) /
        (A.get k k * A.get l l - A.get l k * A.get l k),
       (A.get k k * A.get i l - A.get l k * A.get i k) /
        (A.get k k * A.get l l - A.get l k * A.get l k)) := by
  have hfrac : A.get l l / A.get l k * (A.get k k / A.get l k) - 1 =
      (A.get k k * A.get l l - A.get l k * A.get l k) / (A.get l k * A.get l k) := by
    field_simp
  simp only [pairMultipliers, Exact.recip_eq, hfrac]
  generalize A.get k k * A.get l l - A.get l k * A.get l k = D at hdet
  rw [Prod.mk.injEq]
  constructor
  · field_simp
  · field_simp

/-- The entries of a matrix whose pivot of order two is in place, against the largest entry `u` of
the first column and the largest entry `v` of the second. -/
structure PairInPlace (A : Grid n n ℝ) (k l : Fin n) (u v : ℝ) : Prop where
  pos : 0 < u
  le : u ≤ v
  off : |A.get l k| = u
  first : |A.get k k| ≤ threshold * u * (u / v)
  second : |A.get l l| ≤ threshold * v
  beside : ∀ i, l < i → |A.get i k| ≤ u ∧ |A.get i l| ≤ v

namespace PairInPlace

variable {A : Grid n n ℝ} {k l : Fin n} {u v : ℝ}

/-- The determinant of the block is not small. -/
theorem le_det (h : PairInPlace A k l u v) :
    (1 - threshold ^ 2) * u ^ 2 ≤ |A.get k k * A.get l l - A.get l k * A.get l k| := by
  have hv : 0 < v := h.pos.trans_le h.le
  have hα := threshold_pos
  have hu := h.pos
  have hproduct : |A.get k k * A.get l l| ≤ threshold ^ 2 * u ^ 2 := by
    rw [abs_mul]
    calc |A.get k k| * |A.get l l|
        ≤ (threshold * u * (u / v)) * (threshold * v) :=
          mul_le_mul h.first h.second (abs_nonneg _) (by positivity)
      _ = threshold ^ 2 * u ^ 2 := by field_simp
  have hoff : |A.get l k * A.get l k| = u ^ 2 := by
    rw [abs_mul, h.off, sq]
  calc (1 - threshold ^ 2) * u ^ 2 = u ^ 2 - threshold ^ 2 * u ^ 2 := by ring
    _ ≤ |A.get l k * A.get l k| - |A.get k k * A.get l l| := by
        rw [hoff]
        exact sub_le_sub_left hproduct _
    _ ≤ |A.get l k * A.get l k - A.get k k * A.get l l| := abs_sub_abs_le_abs_sub _ _
    _ = |A.get k k * A.get l l - A.get l k * A.get l k| := abs_sub_comm _ _

theorem det_pos (h : PairInPlace A k l u v) :
    0 < |A.get k k * A.get l l - A.get l k * A.get l k| := by
  refine lt_of_lt_of_le (mul_pos (sub_pos.mpr ?_) (pow_pos h.pos 2)) h.le_det
  exact pow_lt_one₀ threshold_pos.le threshold_lt_one two_ne_zero

/-- The multipliers of a row below the block. -/
theorem multipliers_le (h : PairInPlace A k l u v) {j : Fin n} (hj : l < j) :
    |(pairMultipliers A k l j).1| ≤ v / u / (1 - threshold) ∧
      |(pairMultipliers A k l j).2| ≤ 1 / (1 - threshold) := by
  have hα := threshold_pos
  have hlt : 0 < 1 - (threshold : ℝ) := sub_pos.mpr threshold_lt_one
  have hu := h.pos
  have hv : 0 < v := hu.trans_le h.le
  have hdet := h.det_pos
  have hb : A.get l k ≠ 0 := abs_pos.mp (h.off ▸ hu)
  obtain ⟨hx, hy⟩ := h.beside j hj
  rw [pairMultipliers_eq hb (abs_pos.mp hdet)]
  constructor
  · rw [abs_div, div_le_iff₀ hdet]
    calc |A.get l l * A.get j k - A.get l k * A.get j l|
        ≤ |A.get l l| * |A.get j k| + |A.get l k| * |A.get j l| := by
          rw [← abs_mul, ← abs_mul]
          exact abs_sub _ _
      _ ≤ (threshold * v) * u + u * v := by
          rw [h.off]
          exact add_le_add (mul_le_mul h.second hx (abs_nonneg _) (by positivity))
            (mul_le_mul_of_nonneg_left hy hu.le)
      _ = v / u / (1 - threshold) * ((1 - threshold ^ 2) * u ^ 2) := by
          field_simp
          ring
      _ ≤ v / u / (1 - threshold) * |A.get k k * A.get l l - A.get l k * A.get l k| :=
          mul_le_mul_of_nonneg_left h.le_det (by positivity)
  · rw [abs_div, div_le_iff₀ hdet]
    calc |A.get k k * A.get j l - A.get l k * A.get j k|
        ≤ |A.get k k| * |A.get j l| + |A.get l k| * |A.get j k| := by
          rw [← abs_mul, ← abs_mul]
          exact abs_sub _ _
      _ ≤ (threshold * u * (u / v)) * v + u * u := by
          rw [h.off]
          exact add_le_add (mul_le_mul h.first hy (abs_nonneg _) (by positivity))
            (mul_le_mul_of_nonneg_left hx hu.le)
      _ = 1 / (1 - threshold) * ((1 - threshold ^ 2) * u ^ 2) := by
          field_simp
          ring
      _ ≤ 1 / (1 - threshold) * |A.get k k * A.get l l - A.get l k * A.get l k| :=
          mul_le_mul_of_nonneg_left h.le_det (by positivity)

/-- What the elimination of two columns takes from an entry. -/
theorem update_le (h : PairInPlace A k l u v) {i j : Fin n} (hi : l < i) (hj : l < j) :
    |A.get i k * (pairMultipliers A k l j).1 + A.get i l * (pairMultipliers A k l j).2| ≤
      2 * v / (1 - threshold) := by
  have hu := h.pos
  have hlt : 0 < 1 - (threshold : ℝ) := sub_pos.mpr threshold_lt_one
  obtain ⟨hx, hy⟩ := h.beside i hi
  obtain ⟨hfirst, hsecond⟩ := h.multipliers_le hj
  calc |A.get i k * (pairMultipliers A k l j).1 + A.get i l * (pairMultipliers A k l j).2|
      ≤ |A.get i k| * |(pairMultipliers A k l j).1| +
          |A.get i l| * |(pairMultipliers A k l j).2| := by
        rw [← abs_mul, ← abs_mul]
        exact abs_add_le _ _
    _ ≤ u * (v / u / (1 - threshold)) + v * (1 / (1 - threshold)) :=
        add_le_add (mul_le_mul hx hfirst (abs_nonneg _) hu.le)
          (mul_le_mul hy hsecond (abs_nonneg _) (hu.le.trans h.le))
    _ = 2 * v / (1 - threshold) := by
        field_simp
        ring

end PairInPlace

/-- A pivot of order two, brought into place. -/
theorem pairInPlace {A : Grid n n ℝ} {k l p : Fin n} (next : l.val = k.val + 1)
    (choice : choosePivot A k = .pair p) :
    PairInPlace (interchange A k l p) k l (colMax A k) (rowMax A k p) := by
  have hkl : k < l := by
    rw [Fin.lt_def]
    omega
  have hkp : k < p := lt_of_choosePivot_pair choice
  have hk : exchange l p k = k := by rw [exchange, if_neg hkl.ne, if_neg hkp.ne]
  have hkk : (interchange A k l p).get k k = A.get k k := by
    rw [← Grid.symm_of_le _ le_rfl, symm_interchange _ le_rfl le_rfl, hk, Grid.symm_of_le _ le_rfl]
  have hlk : (interchange A k l p).get l k = A.get p k := by
    rw [← Grid.symm_of_le _ hkl.le, symm_interchange _ hkl.le le_rfl, hk, exchange_left,
      Grid.symm_of_le _ hkp.le]
  have hll : (interchange A k l p).get l l = A.get p p := by
    rw [← Grid.symm_of_le _ le_rfl, symm_interchange _ hkl.le hkl.le, exchange_left,
      Grid.symm_of_le _ le_rfl]
  have hc := chosen_choosePivot A k
  rw [choice] at hc
  cases hc with
  | pair _ number small small_row small_diagonal =>
    have hfound := largestBelow_isSome number small
    have hdiag : |A.get k k| <
        threshold * colMax A k * (colMax A k / rowMax A k (foundRow A k)) := by
      simpa using small_row
    have hother : |A.get (foundRow A k) (foundRow A k)| <
        threshold * rowMax A k (foundRow A k) := by simpa using small_diagonal
    constructor
    · exact colMax_pos small
    · exact colMax_le_rowMax A hfound
    · rw [hlk]
      exact (largestBelow_eq_some hfound).2.symm
    · rw [hkk]
      exact hdiag.le
    · rw [hll]
      exact hother.le
    · intro i hi
      have hki : k < i := hkl.trans hi
      have hle : k ≤ exchange l (foundRow A k) i := le_exchange hkl.le hkp.le hki.le
      have hne : k ≠ exchange l (foundRow A k) i := by
        intro heq
        refine hki.ne ?_
        rw [← exchange_exchange l (foundRow A k) i, ← heq, hk]
      constructor
      · rw [← Grid.symm_of_le _ hki.le, symm_interchange _ hki.le le_rfl, hk,
          Grid.symm_of_le _ hle]
        exact le_colMax A (lt_of_le_of_ne hle hne)
      · rw [← Grid.symm_of_le _ hi.le, symm_interchange _ hki.le hkl.le, exchange_left,
          Grid.symm_comm]
        exact le_rowMax A hle (exchange_ne hi.ne')

/-- After a pivot of order two the entries have grown by the factor for two columns. -/
theorem BoundedFrom.pair {s : Progress n ℝ} {k l p : Fin n} {μ : ℝ}
    (h : BoundedFrom s.grid k.val μ) (next : l.val = k.val + 1)
    (choice : choosePivot s.grid k = .pair p) :
    BoundedFrom (s.pair k l p).grid (k.val + 2) (growth ^ 2 * μ) := by
  have hkl : k < l := by
    rw [Fin.lt_def]
    omega
  have hkp : k < p := lt_of_choosePivot_pair choice
  have hlt : 0 < 1 - (threshold : ℝ) := sub_pos.mpr threshold_lt_one
  have hB := h.interchange hkl.le hkp.le
  have hplace := pairInPlace next choice
  intro i j hj hji
  have hlj : l < j := by
    rw [Fin.lt_def]
    omega
  have hentry := hB i j (hkl.trans hlj).le hji
  have hupdate := hplace.update_le (hlj.trans_le hji) hlj
  rw [Progress.pair, eliminatePair, Grid.get_ofFn, if_pos ⟨hlj, hji⟩]
  refine (abs_sub _ _).trans ((add_le_add hentry hupdate).trans ?_)
  calc μ + 2 * rowMax s.grid k p / (1 - threshold)
      ≤ μ + 2 * μ / (1 - threshold) := by
        gcongr
        exact h.rowMax_le hkp.le
    _ = growth ^ 2 * μ := by
        rw [growth_sq]
        ring

/-! ### One step -/

/-- After a column that counts as zero no entry has changed. -/
theorem BoundedFrom.skip {s : Progress n ℝ} {k : Fin n} {μ : ℝ} (h : BoundedFrom s.grid k.val μ) :
    BoundedFrom (s.skip k).grid (k.val + 1) (growth * μ) := fun i j hj hji =>
  (h i j (Nat.le_of_succ_le hj) hji).trans (le_mul_of_one_le_left h.nonneg one_le_growth)

/-- A step lets the entries grow by the factor for the columns that it deals with. -/
theorem BoundedFrom.step {s : Progress n ℝ} {k : Fin n} {μ : ℝ} (h : BoundedFrom s.grid k.val μ) :
    ∃ t, s.eliminate k (choosePivot s.grid k) = .ok t ∧
      BoundedFrom t.grid (k.val + (choosePivot s.grid k).width)
        (growth ^ (choosePivot s.grid k).width * μ) := by
  rcases hp : choosePivot s.grid k with _ | p | p
  · refine ⟨s.skip k, rfl, ?_⟩
    rw [show Pivot.zeroColumn.width = 1 from rfl, pow_one]
    exact h.skip
  · refine ⟨s.single k p, rfl, ?_⟩
    rw [show (Pivot.single p).width = 1 from rfl, pow_one]
    exact h.single hp
  · have hkp : k.val < p.val := lt_of_choosePivot_pair hp
    have hlt : k.val + 1 < n := Nat.lt_of_le_of_lt hkp p.isLt
    exact ⟨s.pair k ⟨k.val + 1, hlt⟩ p, eliminate_pair_eq_ok rfl, h.pair rfl hp⟩

/-! ### Whole factorizations -/

/-- The states that the factorization of a matrix comes to, each with the column that is next. -/
inductive Reached (A : Grid n n ℝ) (record : Record n) : ℕ → Progress n ℝ → Prop
  | start : Reached A record 0 ⟨A, record, 0⟩
  | next {s t : Progress n ℝ} (k : Fin n) (earlier : Reached A record k.val s)
      (step : s.eliminate k (choosePivot s.grid k) = .ok t) :
      Reached A record (k.val + (choosePivot s.grid k).width) t

namespace Reached

variable {A : Grid n n ℝ} {record : Record n} {k : ℕ} {s t : Progress n ℝ}

/-- What the sweep from a state on leaves is what the whole sweep leaves. -/
theorem sweep_eq (h : Reached A record k s) : sweep s k = sweep ⟨A, record, 0⟩ 0 := by
  induction h with
  | start => rfl
  | next k _ step ih =>
    rw [← ih, sweep_of_lt, step]
    rfl

/-- The end of the sweep from a state on is reached too. -/
theorem of_sweeps (h : Reached A record k s) (sweeps : Sweeps k s t) : Reached A record n t := by
  induction sweeps with
  | done => exact h
  | @skip s t k choice _ ih =>
    have hnext := h.next k (t := s.skip k) (by rw [choice]; rfl)
    rw [choice] at hnext
    exact ih hnext
  | @single s t k p choice _ ih =>
    have hnext := h.next k (t := s.single k p) (by rw [choice]; rfl)
    rw [choice] at hnext
    exact ih hnext
  | @pair s t k l p next choice _ ih =>
    have hnext := h.next k (t := s.pair k l p) (by rw [choice]; exact eliminate_pair_eq_ok next)
    rw [choice] at hnext
    exact ih hnext

/-- A bound on the matrix becomes a bound on every trailing matrix.  The induction is on the steps,
and each step multiplies the bound by the factor for its columns. -/
theorem bounded (h : Reached A record k s) {μ : ℝ} (hA : BoundedFrom A 0 μ) :
    BoundedFrom s.grid k (growth ^ k * μ) := by
  induction h with
  | start =>
    rw [pow_zero, one_mul]
    exact hA
  | next k _ step ih =>
    obtain ⟨t, ht, hbound⟩ := ih.step
    cases ht.symm.trans step
    rwa [← mul_assoc, ← pow_add, Nat.add_comm (Pivot.width _) k.val] at hbound

end Reached

/-- The largest magnitude of an entry. -/
noncomputable def magnitude (S : RealMatrix n) : ℝ := ⨆ p : Fin n × Fin n, |S p.1 p.2|

theorem le_magnitude (S : RealMatrix n) (i j : Fin n) : |S i j| ≤ magnitude S :=
  le_ciSup (Set.finite_range fun p : Fin n × Fin n => |S p.1 p.2|).bddAbove (i, j)

theorem magnitude_nonneg (S : RealMatrix n) : 0 ≤ magnitude S :=
  Real.iSup_nonneg fun _ => abs_nonneg _

/-- The growth in front of a column is at most that of all columns but one. -/
theorem growth_pow_le {μ : ℝ} (hμ : 0 ≤ μ) {k : ℕ} (hk : k < n) :
    growth ^ k * μ ≤ growth ^ (n - 1) * μ :=
  mul_le_mul_of_nonneg_right (pow_le_pow_right₀ one_le_growth (Nat.le_sub_one_of_lt hk)) hμ

/-! ### The blocks on the diagonal -/

theorem abs_blockDiagonal_cons_le {F : Grid n n ℝ} {b : Block n} {tail : List (Block n)} {c : ℝ}
    (behind : ∀ b' ∈ tail, b.last.val + 1 ≤ b'.first.val)
    (hblock : ∀ i ∈ Finset.Icc b.first b.last, ∀ j ∈ Finset.Icc b.first b.last, j ≤ i →
      |F.get i j| ≤ c)
    {i j : Fin n} (htail : |blockDiagonal F tail i j| ≤ c) :
    |blockDiagonal F (b :: tail) i j| ≤ c := by
  rw [blockDiagonal_cons, Matrix.add_apply, Block.diagonal]
  split
  · next hmem =>
    have hi : i.val < b.last.val + 1 := Nat.lt_succ_of_le (Finset.mem_Icc.mp hmem.1).2
    rw [blockDiagonal_eq_zero behind (.inl hi), add_zero]
    rcases le_total j i with hji | hij
    · rw [Grid.symm_of_le F hji]
      exact hblock i hmem.1 j hmem.2 hji
    · rw [Grid.symm_comm, Grid.symm_of_le F hij]
      exact hblock j hmem.2 i hmem.1 hij
  · rw [zero_add]
    exact htail

/-- Rows of a block of order one stay as they are. -/
theorem get_eliminateSingle_of_le (A : Grid n n ℝ) {k i : Fin n} (hi : i ≤ k) (j : Fin n) :
    (eliminateSingle A k).get i j = A.get i j := by
  rw [eliminateSingle, Grid.get_ofFn, if_neg fun h => hi.not_gt (h.1.trans_le h.2),
    if_neg fun h => hi.not_gt h.1]

/-- Rows of a block of order two stay as they are. -/
theorem get_eliminatePair_of_le (A : Grid n n ℝ) (k : Fin n) {l i : Fin n} (hi : i ≤ l)
    (j : Fin n) :
    (eliminatePair A k l).get i j = A.get i j := by
  rw [eliminatePair, Grid.get_ofFn, if_neg fun h => hi.not_gt (h.1.trans_le h.2),
    if_neg fun h => hi.not_gt h.1, if_neg fun h => hi.not_gt h.1]

/-- The blocks are bounded by the growth in front of their columns.  The induction is on the steps:
a block is taken from the trailing matrix of its step. -/
theorem BlockSweeps.abs_blockDiagonal_le {k : ℕ} {s t : Progress n ℝ} {blocks : List (Block n)}
    (h : BlockSweeps t k s blocks) {μ : ℝ} (hμ : 0 ≤ μ)
    (bounded : BoundedFrom s.grid k (growth ^ k * μ)) (i j : Fin n) :
    |blockDiagonal t.grid blocks i j| ≤ growth ^ (n - 1) * μ := by
  induction h with
  | done =>
    rw [blockDiagonal_nil, Matrix.zero_apply, abs_zero]
    exact mul_nonneg (pow_nonneg (zero_le_one.trans one_le_growth) _) hμ
  | skip k choice rest behind _ ih =>
    have hnext := bounded.skip
    rw [← mul_assoc, ← pow_succ'] at hnext
    refine abs_blockDiagonal_cons_le behind (fun c hc e he hec => ?_) (ih hnext)
    rw [rest.grid_eq c (Nat.lt_succ_of_le (Finset.mem_Icc.mp he).2)]
    exact (bounded c e (Finset.mem_Icc.mp he).1 hec).trans (growth_pow_le hμ k.isLt)
  | @single s k p _ choice rest behind _ ih =>
    have hnext := bounded.single choice
    rw [← mul_assoc, ← pow_succ'] at hnext
    refine abs_blockDiagonal_cons_le behind (fun c hc e he hec => ?_) (ih hnext)
    have hplace := bounded.interchange le_rfl (le_of_choosePivot_single choice)
    have hrow := get_eliminateSingle_of_le (interchange s.grid k k p) (Finset.mem_Icc.mp hc).2 e
    rw [rest.grid_eq c (Nat.lt_succ_of_le (Finset.mem_Icc.mp he).2)]
    exact (congrArg abs hrow).trans_le
      ((hplace c e (Finset.mem_Icc.mp he).1 hec).trans (growth_pow_le hμ k.isLt))
  | @pair s k l p _ next choice rest behind _ ih =>
    have hkl : k ≤ l := by
      rw [Fin.le_def]
      omega
    have hkp : k < p := lt_of_choosePivot_pair choice
    have hnext := bounded.pair next choice
    rw [← mul_assoc, ← pow_add, Nat.add_comm 2, show k.val + 2 = l.val + 1 by omega] at hnext
    refine abs_blockDiagonal_cons_le behind (fun c hc e he hec => ?_) (ih hnext)
    have hplace := bounded.interchange hkl hkp.le
    have hrow := get_eliminatePair_of_le (interchange s.grid k l p) k (Finset.mem_Icc.mp hc).2 e
    rw [rest.grid_eq c (Nat.lt_succ_of_le (Finset.mem_Icc.mp he).2)]
    exact (congrArg abs hrow).trans_le
      ((hplace c e (Finset.mem_Icc.mp he).1 hec).trans (growth_pow_le hμ k.isLt))

/-- **Entries grow within bounds.**  In exact arithmetic, with the threshold `α = (1 + √17) / 8`, a
step of the factorization of a symmetric matrix always succeeds.  A bound on the entries of the
trailing matrix becomes, multiplied by `1 + 1 / α` for each column that the step deals with, a bound
on the entries that remain.  All entries of every trailing matrix that the factorization comes to,
and all entries of the blocks that it ends with, are therefore at most `(1 + 1 / α) ^ (n - 1)` times
the largest entry of the matrix that was factored. -/
theorem growth_bounded :
    (threshold : ℝ) = (1 + √17) / 8 ∧ growth = 1 + 1 / threshold ∧
    (∀ (s : Progress n ℝ) (k : Fin n) (μ : ℝ),
      (∀ i j : Fin n, k ≤ j → j ≤ i → |s.grid.get i j| ≤ μ) →
      ∃ t, s.eliminate k (choosePivot s.grid k) = .ok t ∧
        ∀ i j : Fin n, k.val + (choosePivot s.grid k).width ≤ j.val → j ≤ i →
          |t.grid.get i j| ≤ growth ^ (choosePivot s.grid k).width * μ) ∧
    ∀ (A : Grid n n ℝ) (record : Record n),
      (∀ k s, Reached A record k s → sweep s k = sweep ⟨A, record, 0⟩ 0 ∧
        ∀ i j : Fin n, k ≤ j.val → j ≤ i →
          |s.grid.get i j| ≤ growth ^ (n - 1) * magnitude A.symmMatrix) ∧
      ∃ answer t blocks, factor (.ofGrid A) record = .ok ⟨answer, (.ofGrid t.grid, t.record)⟩ ∧
        Reached A record n t ∧ t.record.blocks = .ok blocks ∧
        ∀ i j, |blockDiagonal t.grid blocks i j| ≤ growth ^ (n - 1) * magnitude A.symmMatrix := by
  refine ⟨threshold_eq, rfl, fun s k μ h => BoundedFrom.step h, fun A record => ?_⟩
  have hnonneg := magnitude_nonneg A.symmMatrix
  have hA : BoundedFrom A 0 (magnitude A.symmMatrix) := by
    intro i j _ hji
    rw [← Grid.symm_of_le A hji]
    exact le_magnitude A.symmMatrix i j
  constructor
  · intro k s h
    refine ⟨h.sweep_eq, fun i j hj hji => ?_⟩
    exact (h.bounded hA i j hj hji).trans (growth_pow_le hnonneg (hj.trans_lt j.isLt))
  · obtain ⟨t, hsweep, ht⟩ := exists_factorGrid A record
    obtain ⟨blocks, hb⟩ := hsweep.splits.exists_blocksFrom
    refine ⟨_, t, blocks, by rw [factor_ofGrid, ht]; rfl, Reached.start.of_sweeps hsweep, hb, ?_⟩
    refine (hsweep.blockSweeps hb).abs_blockDiagonal_le hnonneg ?_
    rw [pow_zero, one_mul]
    exact hA

end ConicSaddle.Ldl
