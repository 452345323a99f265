import ConicSaddle.Proofs.Ldl.Substitution
import ConicSaddle.Proofs.Nan.Sums

/-!
# A NaN in a factorization

A NaN in the matrix or in the right hand side is found in the solution, unless a column counts as
zero and the factorization says so.  Which pivots are chosen does not matter.

* `Solves.hasNaN`: a NaN in the right hand side, by what each block does on both sweeps;
* `Sweeps.hasNaN`: a NaN in the trailing matrix, by what each step leaves;
* `hasNaN_of_solveGrid`: the solution for a matrix that was factored without an error;
* `nan_poisons`: both for a matrix, whatever its factorization answers.

A step hands a NaN on to the trailing matrix, or keeps it in its block.  One in the columns of the
block, below its diagonal, spoils a multiplier, and with it the diagonal entry of its row.
-/

namespace ConicSaddle.Ldl

open Scalar (isNaN)
open Vec (HasNaN)

variable {α : Type} [Scalar α] [NaNRules α] {n : ℕ}

/-! ### The two sweeps of a solution -/

omit [NaNRules α] in
theorem hasNaN_swapEntries {b : Vector α n} (h : HasNaN b) (i j : Fin n) :
    HasNaN (swapEntries b i j) := by
  obtain ⟨k, hk⟩ := h
  refine ⟨exchange i j k, ?_⟩
  rw [get_swapEntries, exchange_exchange]
  exact hk

theorem hasNaN_reduceBy (A : Grid n n α) {b : Vector α n} (h : HasNaN b) (c k : Fin n) :
    HasNaN (reduceBy A b c k) := by
  obtain ⟨i, hi⟩ := h
  refine ⟨i, ?_⟩
  unfold reduceBy
  rw [Vec.get_set]
  by_cases hic : i = c
  · rw [if_pos hic, ← hic]
    exact NaNRules.sub_left hi _
  · rw [if_neg hic]
    exact hi

/-- The backward step of a block of order one. -/
theorem hasNaN_backSingle (A : Grid n n α) {z : Vector α n} (h : HasNaN z) (k p : Fin n) :
    HasNaN (swapEntries (reduceBy A z k k) k p) :=
  hasNaN_swapEntries (hasNaN_reduceBy A h k k) k p

/-- The backward step of a block of order two. -/
theorem hasNaN_backPair (A : Grid n n α) {z : Vector α n} (h : HasNaN z) (k l p : Fin n) :
    HasNaN (swapEntries (reduceBy A (reduceBy A z l l) k l) l p) :=
  hasNaN_swapEntries (hasNaN_reduceBy A (hasNaN_reduceBy A h l l) k l) l p

theorem hasNaN_undoSingle (A : Grid n n α) {b : Vector α n} (h : HasNaN b) (k : Fin n) :
    HasNaN (undoSingle A b k) := by
  obtain ⟨i, hi⟩ := h
  refine ⟨i, ?_⟩
  unfold undoSingle
  rw [Vec.get_ofFn]
  split
  · exact NaNRules.sub_left hi _
  · split
    · next hik =>
      rw [← hik]
      exact NaNRules.div_left hi _
    · exact hi

omit [NaNRules α] in
/-- Entry `k` after the block of order two in columns `k` and `l` was undone. -/
theorem get_undoPair (A : Grid n n α) (b : Vector α n) {k l : Fin n} (hkl : k < l) :
    (undoPair A b k l).get k =
      (A.get l l / A.get l k * (b.get k / A.get l k) - b.get l / A.get l k) /
        (A.get k k / A.get l k * (A.get l l / A.get l k) - 1) := by
  have hlk : ¬l < k := Nat.not_lt.mpr (Nat.le_of_lt hkl)
  unfold undoPair
  rw [Vec.get_ofFn, if_neg hlk, if_pos rfl]

theorem hasNaN_undoPair (A : Grid n n α) {b : Vector α n} (h : HasNaN b) {k l : Fin n}
    (hkl : k < l) : HasNaN (undoPair A b k l) := by
  obtain ⟨i, hi⟩ := h
  by_cases hik : i = k
  · refine ⟨k, ?_⟩
    rw [get_undoPair A b hkl, ← hik]
    have hy := NaNRules.div_left hi (A.get l i)
    exact NaNRules.div_left (NaNRules.sub_left (NaNRules.mul_right _ hy) _) _
  by_cases hil : i = l
  · refine ⟨k, ?_⟩
    rw [get_undoPair A b hkl, ← hil]
    have hy := NaNRules.div_left hi (A.get i k)
    exact NaNRules.div_left (NaNRules.sub_right _ hy) _
  refine ⟨i, ?_⟩
  unfold undoPair
  rw [Vec.get_ofFn, if_neg hik, if_neg hil]
  split
  · exact NaNRules.sub_left hi _
  · exact hi

/-- A NaN in the right hand side is found in the solution. -/
theorem Solves.hasNaN {A : Grid n n α} {record : Record n} {k : ℕ} {b z : Vector α n}
    (h : Solves A record k b z) (hb : HasNaN b) : HasNaN z := by
  induction h with
  | done => exact hb
  | single k p _ _ ih =>
    exact hasNaN_backSingle A (ih (hasNaN_undoSingle A (hasNaN_swapEntries hb k p) k)) k p
  | pair k l p next _ _ _ ih =>
    have hkl : k < l := by rw [Fin.lt_def, next]; exact Nat.lt_succ_self k.val
    exact hasNaN_backPair A (ih (hasNaN_undoPair A (hasNaN_swapEntries hb l p) hkl)) k l p

/-! ### The steps of the factorization -/

/-- The symmetric matrix has a NaN from row and column `k` on. -/
def TrailingNaN (A : Grid n n α) (k : ℕ) : Prop :=
  ∃ i j : Fin n, k ≤ j.val ∧ j ≤ i ∧ isNaN (A.get i j) = true

omit [NaNRules α] in
/-- An exchange of rows and columns moves a NaN. -/
theorem TrailingNaN.interchange {A : Grid n n α} {k a b : Fin n} (h : TrailingNaN A k.val)
    (ha : k ≤ a) (hb : k ≤ b) : TrailingNaN (interchange A k a b) k.val := by
  obtain ⟨i, j, hj, hji, hnan⟩ := h
  have hi' : k ≤ exchange a b i := le_exchange ha hb (Nat.le_trans hj hji)
  have hj' : k ≤ exchange a b j := le_exchange ha hb hj
  have hsymm : (Ldl.interchange A k a b).symm (exchange a b i) (exchange a b j) = A.get i j := by
    rw [symm_interchange A hi' hj', exchange_exchange, exchange_exchange, Grid.symm_of_le A hji]
  rw [← hsymm] at hnan
  -- the two places may stand above the diagonal now
  rcases Nat.le_total (exchange a b j).val (exchange a b i).val with hle | hle
  · rw [Grid.symm_of_le _ hle] at hnan
    exact ⟨_, _, hj', hle, hnan⟩
  · rw [Grid.symm_comm, Grid.symm_of_le _ hle] at hnan
    exact ⟨_, _, hi', hle, hnan⟩

/-- The elimination of a column keeps a NaN on its diagonal or leaves one behind it. -/
theorem TrailingNaN.eliminateSingle {A : Grid n n α} {k : Fin n} (h : TrailingNaN A k.val) :
    isNaN ((eliminateSingle A k).get k k) = true ∨
      TrailingNaN (eliminateSingle A k) (k.val + 1) := by
  obtain ⟨i, j, hj, hji, hnan⟩ := h
  by_cases hjk : j = k
  · by_cases hik : i = k
    · left
      rw [hik, hjk] at hnan
      unfold Ldl.eliminateSingle
      rw [Grid.get_ofFn, if_neg fun h => Nat.lt_irrefl _ h.1, if_neg fun h => Nat.lt_irrefl _ h.1]
      exact hnan
    · -- the multiplier is not zero, so the diagonal entry of the row is reduced by a NaN
      right
      have hki : k < i := by omega
      rw [hjk] at hnan
      refine ⟨i, i, hki, Nat.le_refl _, ?_⟩
      unfold Ldl.eliminateSingle
      rw [Grid.get_ofFn, if_pos ⟨hki, Nat.le_refl _⟩, NaNRules.isZero hnan,
        if_neg Bool.false_ne_true]
      exact NaNRules.sub_right _ (NaNRules.mul_right _ hnan)
  · right
    have hkj : k < j := by omega
    refine ⟨i, j, hkj, hji, ?_⟩
    unfold Ldl.eliminateSingle
    rw [Grid.get_ofFn, if_pos ⟨hkj, hji⟩]
    split
    · exact hnan
    · exact NaNRules.sub_left hnan _

/-- A NaN in one of the two columns spoils both multipliers of its row. -/
theorem isNaN_pairMultipliers {A : Grid n n α} {k l i : Fin n}
    (h : isNaN (A.get i k) = true ∨ isNaN (A.get i l) = true) :
    isNaN (pairMultipliers A k l i).1 = true := by
  unfold pairMultipliers
  apply NaNRules.mul_right
  rcases h with h | h
  · exact NaNRules.sub_left (NaNRules.mul_right _ h) _
  · exact NaNRules.sub_right _ h

/-- The elimination of two columns keeps a NaN in their block or leaves one behind it. -/
theorem TrailingNaN.eliminatePair {A : Grid n n α} {k l : Fin n} (h : TrailingNaN A k.val)
    (next : l.val = k.val + 1) :
    (∃ i j, k ≤ j ∧ j ≤ i ∧ i ≤ l ∧ isNaN ((eliminatePair A k l).get i j) = true) ∨
      TrailingNaN (eliminatePair A k l) (k.val + 2) := by
  obtain ⟨i, j, hj, hji, hnan⟩ := h
  rcases Nat.lt_or_ge l.val i.val with hli | hil
  · right
    have hnext : k.val + 2 ≤ i.val := by omega
    rcases Nat.lt_or_ge l.val j.val with hlj | hjl
    · refine ⟨i, j, by omega, hji, ?_⟩
      unfold Ldl.eliminatePair
      rw [Grid.get_ofFn, if_pos ⟨hlj, hji⟩]
      exact NaNRules.sub_left hnan _
    · -- the diagonal entry of the row is reduced by a product with a spoilt multiplier
      have hcolumn : isNaN (A.get i k) = true ∨ isNaN (A.get i l) = true := by
        have hcases : j = k ∨ j = l := by omega
        rcases hcases with rfl | rfl
        · exact .inl hnan
        · exact .inr hnan
      refine ⟨i, i, hnext, Nat.le_refl _, ?_⟩
      unfold Ldl.eliminatePair
      rw [Grid.get_ofFn, if_pos ⟨hli, Nat.le_refl _⟩]
      have hproduct := NaNRules.mul_right (A.get i k) (isNaN_pairMultipliers hcolumn)
      exact NaNRules.sub_right _ (NaNRules.add_left hproduct _)
  · left
    refine ⟨i, j, hj, hji, hil, ?_⟩
    have hil' : ¬l < i := Nat.not_lt.mpr hil
    unfold Ldl.eliminatePair
    rw [Grid.get_ofFn, if_neg fun h => hil' (Nat.lt_of_lt_of_le h.1 h.2), if_neg fun h => hil' h.1,
      if_neg fun h => hil' h.1]
    exact hnan

/-! ### The solution for the factors -/

/-- A NaN in a block of order one is divided by. -/
theorem hasNaN_undoSingle_of_pivot {A : Grid n n α} {k : Fin n} (h : isNaN (A.get k k) = true)
    (b : Vector α n) : HasNaN (undoSingle A b k) := by
  have hkk : ¬k < k := Nat.lt_irrefl k.val
  refine ⟨k, ?_⟩
  unfold undoSingle
  rw [Vec.get_ofFn, if_neg hkk, if_pos rfl]
  exact NaNRules.div_right _ h

/-- A NaN in a block of order two is in what is divided by. -/
theorem hasNaN_undoPair_of_pivot {A : Grid n n α} {k l i j : Fin n} (next : l.val = k.val + 1)
    (hj : k ≤ j) (hji : j ≤ i) (hil : i ≤ l) (h : isNaN (A.get i j) = true) (b : Vector α n) :
    HasNaN (undoPair A b k l) := by
  have hkl : k < l := by rw [Fin.lt_def, next]; exact Nat.lt_succ_self k.val
  refine ⟨k, ?_⟩
  rw [get_undoPair A b hkl]
  apply NaNRules.div_right
  apply NaNRules.sub_left
  have hcases : (i = k ∧ j = k) ∨ (i = l ∧ j = k) ∨ (i = l ∧ j = l) := by omega
  rcases hcases with ⟨rfl, rfl⟩ | ⟨rfl, rfl⟩ | ⟨rfl, rfl⟩
  · exact NaNRules.mul_left (NaNRules.div_left h _) _
  · exact NaNRules.mul_left (NaNRules.div_right _ h) _
  · exact NaNRules.mul_right _ (NaNRules.div_left h _)

/-- A NaN in the trailing matrix is found in every solution, unless a column counts as zero. -/
theorem Sweeps.hasNaN {k : ℕ} {s t : Progress n α} (h : Sweeps k s t)
    (hnan : TrailingNaN s.grid k) :
    t.info ≠ 0 ∨ ∀ b z, Solves t.grid t.record k b z → HasNaN z := by
  induction h with
  | done s =>
    obtain ⟨i, j, hj, -⟩ := hnan
    exact absurd j.isLt (Nat.not_lt.mpr hj)
  | skip k _ rest =>
    exact .inl (rest.info_ne_zero (Progress.skip_info_ne_zero _ k))
  | single k p choice rest ih =>
    have hkp := le_of_choosePivot_single choice
    rcases (hnan.interchange (Nat.le_refl _) hkp).eliminateSingle with hpivot | htrailing
    · right
      intro b z hz
      obtain ⟨y, hy, rfl⟩ := hz.of_single rest.record_single
      have hkept := rest.grid_eq k (Nat.lt_succ_self k.val)
      apply hasNaN_backSingle
      exact hy.hasNaN (hasNaN_undoSingle_of_pivot (by rw [hkept]; exact hpivot) _)
    · refine (ih htrailing).imp_right fun hrest b z hz => ?_
      obtain ⟨y, hy, rfl⟩ := hz.of_single rest.record_single
      exact hasNaN_backSingle _ (hrest _ y hy) k p
  | pair k l p next choice rest ih =>
    have hkl : k ≤ l := by rw [Fin.le_def, next]; exact Nat.le_succ k.val
    have hkp := Nat.le_of_lt (lt_of_choosePivot_pair choice)
    obtain ⟨hrecord, -⟩ := rest.record_pair next
    rcases (hnan.interchange hkl hkp).eliminatePair next with
      ⟨i, j, hj, hji, hil, hpivot⟩ | htrailing
    · right
      intro b z hz
      obtain ⟨y, hy, rfl⟩ := hz.of_pair next hrecord
      have hkept := rest.grid_eq i (show j.val < k.val + 2 by omega)
      apply hasNaN_backPair
      exact hy.hasNaN (hasNaN_undoPair_of_pivot next hj hji hil (by rw [hkept]; exact hpivot) _)
    · refine (ih htrailing).imp_right fun hrest b z hz => ?_
      obtain ⟨y, hy, rfl⟩ := hz.of_pair next hrecord
      exact hasNaN_backPair _ (hrest _ y hy) k l p

/-- The solution for a matrix that was factored without an error has a NaN if the lower triangle or
the right hand side has one. -/
theorem hasNaN_of_solveGrid {K : Grid n n α} {record : Record n} {t : Progress n α}
    (h : Sweeps 0 ⟨K, record, 0⟩ t) (hinfo : t.info = 0) {b u : Vector α n}
    (hu : solveGrid t.grid t.record b = .ok u) (hnan : TrailingNaN K 0 ∨ HasNaN b) : HasNaN u := by
  obtain ⟨z, hz⟩ := exists_solves (A := t.grid) h.splits b
  obtain rfl : z = u := Except.ok.inj ((solveGrid_of_solves hz).symm.trans hu)
  rcases hnan with hK | hb
  · exact (h.hasNaN hK).resolve_left (not_not.mpr hinfo) b z hz
  · exact hz.hasNaN hb

/-- **A NaN poisons every solution.**  After the factorization of any matrix every right hand side
has a solution.  It has a NaN if the right hand side has one, whatever the factorization answered,
and if the lower triangle has one and the factorization succeeded. -/
theorem nan_poisons (A : Grid n n α) (old : Record n) :
    ∃ (answer : Except FactorizationError Unit) (F : Grid n n α) (record : Record n),
      factor (.ofGrid A) old = .ok ⟨answer, (.ofGrid F, record)⟩ ∧
      ∀ b : Vector α n, ∃ x, solve (.ofGrid F) record b.toArray = .ok x ∧
        ((answer = .ok () ∧ ∃ i j, j ≤ i ∧ isNaN (A.get i j) = true) ∨ HasNaN b → HasNaN x) := by
  obtain ⟨t, hsweep, hfactor⟩ := exists_factorGrid A old
  refine ⟨if t.info = 0 then .ok () else .error (.zeroPivot t.info), t.grid, t.record, ?_,
    fun b => ?_⟩
  · rw [factor_ofGrid, hfactor]
    rfl
  obtain ⟨x, hx⟩ := exists_solves (A := t.grid) hsweep.splits b
  refine ⟨x, (solve_ofGrid _ _ b).trans (solveGrid_of_solves hx), ?_⟩
  rintro (⟨hanswer, i, j, hji, hnan⟩ | hb)
  · have hinfo : t.info = 0 := by
      by_contra hne
      rw [if_neg hne] at hanswer
      cases hanswer
    exact hasNaN_of_solveGrid hsweep hinfo (solveGrid_of_solves hx)
      (.inl ⟨i, j, Nat.zero_le _, hji, hnan⟩)
  · exact hx.hasNaN hb

/-- A matrix whose NaN no pivot notices, because it is on the diagonal of a block of order two. -/
def unnoticedNaN : Grid 2 2 Float :=
  .ofFn fun i j => if i = j then if i = 0 then 0 else 0 / 0 else 1

/-- The factorization succeeds, and the solution for a right hand side without a NaN has one. -/
theorem nan_poisons_unnoticed :
    ∃ (F : Grid 2 2 Float) (record : Record 2) (x : Vector Float 2),
      factor (.ofGrid unnoticedNaN) (.replicate 2 0) = .ok ⟨.ok (), (.ofGrid F, record)⟩ ∧
      solve (.ofGrid F) record #v[1, 1].toArray = .ok x ∧ HasNaN x := by
  have hdone : (fun reply => reply.answer) <$>
      factor (.ofGrid unnoticedNaN) (.replicate 2 0) = .ok (.ok ()) := by
    decide +kernel
  have hnan : isNaN (unnoticedNaN.get 1 1) = true := by decide +kernel
  obtain ⟨answer, F, record, hfactor, hsolve⟩ := nan_poisons unnoticedNaN (.replicate 2 0)
  rw [hfactor] at hdone
  cases hdone
  obtain ⟨x, hx, hpoisoned⟩ := hsolve #v[1, 1]
  exact ⟨F, record, x, hfactor, hx, hpoisoned (.inl ⟨rfl, 1, 1, Nat.le_refl 1, hnan⟩)⟩

end ConicSaddle.Ldl
