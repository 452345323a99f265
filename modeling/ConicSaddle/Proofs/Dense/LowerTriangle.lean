import Mathlib.Algebra.BigOperators.Fin
import Mathlib.Algebra.BigOperators.Intervals
import Mathlib.Order.Interval.Finset.Fin
import Mathlib.Tactic.Ring
import ConicSaddle.Dense.LowerTriangle

/-!
# The places of a lower triangle

Every place of a lower triangle is listed once, and writing a symmetric grid through them fills the
whole grid.

* `nodup_lowerTriangle`, `length_lowerTriangle`: the list of places;
* `triangleIndex`, `idxOf_lowerTriangle`: the number of a place, from its row and column;
* `forall_place`, `place_mod`, `place_div`: the places of a square, row by row and column by column;
* `lowerPlace`: the place of the lower triangle that an entry is mirrored from;
* `get_writeSymm`: a grid after values were written to all places.
-/

namespace ConicSaddle

/-! ### The list of places -/

theorem triangle_succ (k : ℕ) : triangle (k + 1) = triangle k + (k + 1) := by
  unfold triangle
  have hproduct : (k + 1) * (k + 1 + 1) = k * (k + 1) + (k + 1) * 2 := by ring
  rw [hproduct, Nat.add_mul_div_right _ _ Nat.zero_lt_two]

theorem length_fromDiagonal {k : ℕ} (j : Fin k) : (fromDiagonal j).length = k - j := by
  have hnodup : (fromDiagonal j).Nodup := (List.nodup_finRange k).filter _
  have hset : (fromDiagonal j).toFinset = Finset.Ici j := by
    ext i
    simp [fromDiagonal]
  rw [← List.toFinset_card_of_nodup hnodup, hset, Fin.card_Ici]

theorem sum_rows (k : ℕ) : ∑ j ∈ Finset.range k, (k - j) = triangle k := by
  induction k with
  | zero => rfl
  | succ k ih =>
    rw [Finset.sum_range_succ', triangle_succ, ← ih]
    simp only [Nat.add_sub_add_right, Nat.sub_zero]

theorem length_lowerTriangle (k : ℕ) : (lowerTriangle k).length = triangle k := by
  unfold lowerTriangle
  rw [List.length_flatMap]
  simp only [List.length_map, length_fromDiagonal]
  rw [← Fin.sum_univ_def, Fin.sum_univ_eq_sum_range (fun j => k - j), sum_rows]

theorem nodup_lowerTriangle (k : ℕ) : (lowerTriangle k).Nodup := by
  unfold lowerTriangle
  rw [List.nodup_flatMap]
  constructor
  · intro j _
    refine ((List.nodup_finRange k).filter _).map ?_
    intro i i' h
    exact congrArg Prod.fst h
  · refine (List.nodup_finRange k).imp ?_
    intro j j' hne p hp hp'
    obtain ⟨i, -, rfl⟩ := List.mem_map.mp hp
    obtain ⟨i', -, h⟩ := List.mem_map.mp hp'
    exact hne (congrArg Prod.snd h).symm

/-! ### The number of a place -/

/-- How many places stand in front of row `i` of column `j`: those of the columns in front, which
get shorter by one each, and those of the column above the row. -/
def triangleIndex (k i j : ℕ) : ℕ := j * k - j * (j - 1) / 2 + (i - j)

theorem triangleIndex_zero (k i : ℕ) : triangleIndex k i 0 = i := by
  unfold triangleIndex
  omega

/-- The first column taken away. -/
theorem triangleIndex_succ {k i j : ℕ} (h : j ≤ k) :
    triangleIndex (k + 1) (i + 1) (j + 1) = k + 1 + triangleIndex k i j := by
  have hleft : (j + 1) * (k + 1) = j * k + j + (k + 1) := by ring
  have hgap : (j + 1) * (j + 1 - 1) / 2 = j * (j - 1) / 2 + j := by
    rcases j with _ | j
    · rfl
    · have hdouble : (j + 1 + 1) * (j + 1 + 1 - 1) = (j + 1) * (j + 1 - 1) + (j + 1) * 2 := by
        simp only [Nat.add_sub_cancel]
        ring
      rw [hdouble, Nat.add_mul_div_right _ _ Nat.zero_lt_two]
  have hbound : j * (j - 1) / 2 ≤ j * k :=
    Nat.le_trans (Nat.div_le_self _ _) (Nat.mul_le_mul_left j (by omega))
  unfold triangleIndex
  rw [hleft, hgap]
  omega

theorem fromDiagonal_zero (k : ℕ) : fromDiagonal (0 : Fin (k + 1)) = List.finRange (k + 1) := by
  unfold fromDiagonal
  rw [List.filter_eq_self]
  exact fun i _ => decide_eq_true (Fin.zero_le i)

theorem fromDiagonal_succ {k : ℕ} (j : Fin k) :
    fromDiagonal j.succ = (fromDiagonal j).map Fin.succ := by
  unfold fromDiagonal
  have hzero : ¬decide (j.succ ≤ 0) = true := by
    rw [decide_eq_true_eq, not_le]
    exact Fin.succ_pos j
  rw [List.finRange_succ, List.filter_cons, if_neg hzero, List.filter_map]
  congr 1
  refine List.filter_congr fun i _ => ?_
  exact decide_eq_decide.mpr Fin.succ_le_succ_iff

/-- The first column, and then the places of a lower triangle that is smaller by one. -/
theorem lowerTriangle_succ (k : ℕ) :
    lowerTriangle (k + 1) = (List.finRange (k + 1)).map (fun i => (i, 0)) ++
      (lowerTriangle k).map (Prod.map Fin.succ Fin.succ) := by
  have hcolumns : (List.finRange (k + 1)).flatMap (fun j => (fromDiagonal j).map fun i => (i, j)) =
      (fromDiagonal 0).map (fun i => (i, 0)) ++
        (List.finRange k).flatMap fun j => (fromDiagonal j.succ).map fun i => (i, j.succ) := by
    rw [List.finRange_succ, List.flatMap_cons, List.flatMap_map]
  rw [lowerTriangle, hcolumns, fromDiagonal_zero, lowerTriangle, List.map_flatMap]
  congr 1
  refine List.flatMap_congr fun j _ => ?_
  rw [fromDiagonal_succ, List.map_map, List.map_map]
  rfl

theorem getElem?_lowerTriangle {k : ℕ} {i j : Fin k} (h : j ≤ i) :
    (lowerTriangle k)[triangleIndex k i j]? = some (i, j) := by
  induction k with
  | zero => exact i.elim0
  | succ k ih =>
    have hlength : ((List.finRange (k + 1)).map fun i => (i, (0 : Fin (k + 1)))).length = k + 1 := by
      rw [List.length_map, List.length_finRange]
    rw [lowerTriangle_succ]
    cases j using Fin.cases with
    | zero =>
      have hi : i.val < (List.finRange (k + 1)).length := by
        rw [List.length_finRange]
        exact i.isLt
      rw [Fin.val_zero, triangleIndex_zero, List.getElem?_append_left (by rw [hlength]; exact i.isLt),
        List.getElem?_map, List.getElem?_eq_getElem hi, List.getElem_finRange]
      rfl
    | succ j =>
      cases i using Fin.cases with
      | zero => exact absurd h (not_le.mpr (Fin.succ_pos j))
      | succ i =>
        rw [Fin.val_succ, Fin.val_succ, triangleIndex_succ (Nat.le_of_lt j.isLt),
          List.getElem?_append_right (by rw [hlength]; omega), hlength, Nat.add_sub_cancel_left,
          List.getElem?_map, ih (Fin.succ_le_succ_iff.mp h)]
        rfl

/-- The number of a place of the lower triangle. -/
theorem idxOf_lowerTriangle {k : ℕ} {i j : Fin k} (h : j ≤ i) :
    (lowerTriangle k).idxOf (i, j) = triangleIndex k i j := by
  obtain ⟨hlt, hget⟩ := List.getElem?_eq_some_iff.mp (getElem?_lowerTriangle h)
  rw [← hget, (nodup_lowerTriangle k).idxOf_getElem]

/-! ### Places of a square -/

/-- A statement about all places of a square block, row by row and column by column. -/
theorem forall_place {k : ℕ} {p : ℕ → Prop} (h : ∀ i j : Fin k, p (i + k * j)) :
    ∀ t < k * k, p t := by
  intro t ht
  have hk := Grid.rows_pos ⟨t, ht⟩
  have hplace := h ⟨t % k, Nat.mod_lt _ hk⟩ ⟨t / k, Nat.div_lt_of_lt_mul ht⟩
  rwa [Nat.mod_add_div] at hplace

theorem place_mod {k : ℕ} (i j : Fin k) : (i.val + k * j.val) % k = i := by
  rw [Nat.add_mul_mod_self_left, Nat.mod_eq_of_lt i.isLt]

theorem mod_lt_of_place {k t : ℕ} (h : t < k * k) : t % k < k :=
  Nat.mod_lt t (Grid.rows_pos ⟨t, h⟩)

theorem place_div {k : ℕ} (i j : Fin k) : (i.val + k * j.val) / k = j := by
  rw [Nat.add_mul_div_left _ _ (Nat.zero_lt_of_lt i.isLt), Nat.div_eq_of_lt i.isLt, Nat.zero_add]

/-! ### Writing through the places -/

/-- The place of the lower triangle that row `i` of column `j` is mirrored from. -/
def lowerPlace {k : ℕ} (i j : Fin k) : Fin k × Fin k := if j ≤ i then (i, j) else (j, i)

theorem lowerPlace_mem {k : ℕ} (i j : Fin k) : lowerPlace i j ∈ lowerTriangle k := by
  rw [mem_lowerTriangle]
  unfold lowerPlace
  split
  · next h => exact h
  · next h => exact le_of_not_ge h

theorem lowerPlace_comm {k : ℕ} (i j : Fin k) : lowerPlace i j = lowerPlace j i := by
  unfold lowerPlace
  by_cases hij : j ≤ i
  · by_cases hji : i ≤ j
    · have heq : i = j := le_antisymm hji hij
      rw [if_pos hij, if_pos hji, heq]
    · rw [if_pos hij, if_neg hji]
  · rw [if_neg hij, if_pos (le_of_not_ge hij)]

/-- A place of the lower triangle is written to an entry exactly if the entry is mirrored from
it. -/
theorem eq_lowerPlace_iff {k : ℕ} {p : Fin k × Fin k} (hp : p ∈ lowerTriangle k) (i j : Fin k) :
    ((i, j) = p ∨ (j, i) = p) ↔ p = lowerPlace i j := by
  rw [mem_lowerTriangle] at hp
  unfold lowerPlace
  constructor
  · rintro (rfl | rfl)
    · rw [if_pos hp]
    · by_cases h : j ≤ i
      · have heq : i = j := le_antisymm hp h
        rw [if_pos h, heq]
      · rw [if_neg h]
  · intro h
    by_cases hij : j ≤ i
    · rw [if_pos hij] at h
      exact .inl h.symm
    · rw [if_neg hij] at h
      exact .inr h.symm

namespace Grid

variable {α : Type} {k : ℕ}

theorem symm_eq_get (A : Grid k k α) (i j : Fin k) :
    A.symm i j = A.get (lowerPlace i j).1 (lowerPlace i j).2 := by
  unfold symm lowerPlace
  split
  · rfl
  · rfl

/-- Some places written: an entry is replaced if the place that it is mirrored from is among
them. -/
theorem get_writeSymm_map (A : Grid k k α) (f : Fin k × Fin k → α) (places : List (Fin k × Fin k))
    (hlower : ∀ p ∈ places, p ∈ lowerTriangle k) (i j : Fin k) :
    (A.writeSymm (places.map fun p => (p, f p))).get i j =
      if lowerPlace i j ∈ places then f (lowerPlace i j) else A.get i j := by
  induction places generalizing A with
  | nil => rfl
  | cons p places ih =>
    have hp := eq_lowerPlace_iff (hlower p List.mem_cons_self) i j
    have hrest := ih (A.setSymm p (f p)) fun q hq => hlower q (List.mem_cons_of_mem p hq)
    show ((A.setSymm p (f p)).writeSymm (places.map fun p => (p, f p))).get i j = _
    rw [hrest, get_setSymm]
    by_cases hmem : lowerPlace i j ∈ places
    · rw [if_pos hmem, if_pos (List.mem_cons_of_mem p hmem)]
    · rw [if_neg hmem]
      by_cases heq : p = lowerPlace i j
      · rw [if_pos (hp.mpr heq), if_pos (List.mem_cons.mpr (.inl heq.symm)), heq]
      · rw [if_neg fun h => heq (hp.mp h), if_neg]
        intro h
        rcases List.mem_cons.mp h with h | h
        · exact heq h.symm
        · exact hmem h

/-- All places written: the grid is the symmetric one of the values. -/
theorem get_writeSymm (A : Grid k k α) (f : Fin k × Fin k → α) (i j : Fin k) :
    (A.writeSymm ((lowerTriangle k).map fun p => (p, f p))).get i j = f (lowerPlace i j) := by
  rw [get_writeSymm_map A f _ (fun _ h => h), if_pos (lowerPlace_mem i j)]

/-- The lower triangle of another grid written to all places. -/
theorem get_writeSymm_get (A B : Grid k k α) (i j : Fin k) :
    (A.writeSymm ((lowerTriangle k).map fun p => (p, B.get p.1 p.2))).get i j = B.symm i j := by
  rw [get_writeSymm A fun p => B.get p.1 p.2, symm_eq_get]

end Grid

end ConicSaddle
