import ConicSaddle.Ldl.Solve
import ConicSaddle.Proofs.Ldl.Record

/-!
# The two sweeps of a solution

The backward sweep undoes the blocks of the forward sweep in the opposite order, so that the two
nest: what is done for a block surrounds what is done for the blocks after it.

* `Solves A record k b z`: the blocks from column `k` on turn `b` into `z`;
* `exists_solves`: there is such a `z` for every record that splits the columns;
* `solveGrid_of_solves`: it is the answer of the solution.
-/

namespace ConicSaddle.Ldl

variable {α : Type} {n : Nat}

theorem get_swapEntries (b : Vector α n) (i j k : Fin n) :
    (swapEntries b i j).get k = b.get (exchange i j k) := by
  rw [swapEntries, Vec.get_ofFn, Vec.get_eq_getElem]
  rfl

variable [Scalar α]

/-- The blocks from column `k` on turn one vector into another: the forward step of a block, then
the blocks after it, then the backward step. -/
inductive Solves (A : Grid n n α) (record : Record n) : Nat → Vector α n → Vector α n → Prop
  | done (b : Vector α n) : Solves A record n b b
  | single {b z : Vector α n} (k p : Fin n) (entry : record.get k = p.val + 1)
      (rest : Solves A record (k.val + 1) (undoSingle A (swapEntries b k p) k) z) :
      Solves A record k.val b (swapEntries (reduceBy A z k k) k p)
  | pair {b z : Vector α n} (k l p : Fin n) (next : l.val = k.val + 1)
      (entry : record.get k = -(p.val + 1)) (entry' : record.get l = -(p.val + 1))
      (rest : Solves A record (k.val + 2) (undoPair A (swapEntries b l p) k l) z) :
      Solves A record k.val b (swapEntries (reduceBy A (reduceBy A z l l) k l) l p)

/-- A record that splits the columns lets every vector through. -/
theorem exists_solves {A : Grid n n α} {record : Record n} {k : Nat} (h : record.Splits k)
    (b : Vector α n) : ∃ z, Solves A record k b z := by
  induction h generalizing b with
  | done => exact ⟨b, .done b⟩
  | single k p _ entry _ ih =>
    obtain ⟨z, hz⟩ := ih (undoSingle A (swapEntries b k p) k)
    exact ⟨_, .single k p entry hz⟩
  | pair k l p next _ entry entry' _ ih =>
    obtain ⟨z, hz⟩ := ih (undoPair A (swapEntries b l p) k l)
    exact ⟨_, .pair k l p next entry entry' hz⟩

/-- Behind the last column nothing is done. -/
theorem Solves.of_le {A : Grid n n α} {record : Record n} {k : Nat} {b z : Vector α n}
    (h : Solves A record k b z) (hk : n ≤ k) : z = b := by
  cases h with
  | done => rfl
  | single k => exact absurd k.isLt (Nat.not_lt.mpr hk)
  | pair k => exact absurd k.isLt (Nat.not_lt.mpr hk)

/-- A block of order one at the front. -/
theorem Solves.of_single {A : Grid n n α} {record : Record n} {k p : Fin n} {b z : Vector α n}
    (h : Solves A record k.val b z) (entry : record.get k = p.val + 1) :
    ∃ y, Solves A record (k.val + 1) (undoSingle A (swapEntries b k p) k) y ∧
      z = swapEntries (reduceBy A y k k) k p := by
  generalize hj : k.val = j at h
  cases h with
  | done => exact absurd hj (Nat.ne_of_lt k.isLt)
  | single k' p' entry' rest =>
    obtain rfl : k = k' := Fin.ext hj
    obtain rfl : p = p' := Fin.ext (by omega)
    exact ⟨_, rest, rfl⟩
  | pair k' l' p' next entry' =>
    obtain rfl : k = k' := Fin.ext hj
    omega

/-- A block of order two at the front. -/
theorem Solves.of_pair {A : Grid n n α} {record : Record n} {k l p : Fin n} {b z : Vector α n}
    (h : Solves A record k.val b z) (next : l.val = k.val + 1)
    (entry : record.get k = -(p.val + 1)) :
    ∃ y, Solves A record (k.val + 2) (undoPair A (swapEntries b l p) k l) y ∧
      z = swapEntries (reduceBy A (reduceBy A y l l) k l) l p := by
  generalize hj : k.val = j at h
  cases h with
  | done => exact absurd hj (Nat.ne_of_lt k.isLt)
  | single k' p' entry' =>
    obtain rfl : k = k' := Fin.ext hj
    omega
  | pair k' l' p' next' entry' _ rest =>
    obtain rfl : k = k' := Fin.ext hj
    obtain rfl : l = l' := Fin.ext (next.trans next'.symm)
    obtain rfl : p = p' := Fin.ext (by omega)
    exact ⟨_, rest, rfl⟩

/-! ### The sweeps step by step -/

theorem rowOf_eq_ok_iff {e : Int} {p : Fin n} : rowOf e = .ok p ↔ e = p.val + 1 := by
  have hp := p.isLt
  unfold rowOf
  constructor
  · intro h
    split at h
    · cases h
      simp
      omega
    · cases h
  · rintro rfl
    rw [dif_pos (by omega)]
    exact congrArg Except.ok (Fin.ext (by simp))

theorem rowOf_eq_ok (p : Fin n) : rowOf (p.val + 1 : Int) = .ok p := rowOf_eq_ok_iff.mpr rfl

theorem forward_single {A : Grid n n α} {record : Record n} (b : Vector α n) {k p : Fin n}
    (entry : record.get k = p.val + 1) :
    forward A record b k.val =
      forward A record (undoSingle A (swapEntries b k p) k) (k.val + 1) := by
  have hk : record[k.val] = (p.val : Int) + 1 := entry
  rw [forward, dif_pos k.isLt, if_pos (by omega), hk, rowOf_eq_ok]
  rfl

theorem forward_pair {A : Grid n n α} {record : Record n} (b : Vector α n) {k l p : Fin n}
    (next : l.val = k.val + 1) (entry : record.get k = -(p.val + 1)) :
    forward A record b k.val =
      forward A record (undoPair A (swapEntries b l p) k l) (k.val + 2) := by
  have hk : record[k.val] = -((p.val : Int) + 1) := entry
  have hlt : k.val + 1 < n := next ▸ l.isLt
  obtain rfl : l = ⟨k.val + 1, hlt⟩ := Fin.ext next
  rw [forward, dif_pos k.isLt, if_neg (by omega), dif_pos hlt, hk, Int.neg_neg, rowOf_eq_ok]
  rfl

theorem forward_of_le {A : Grid n n α} {record : Record n} (b : Vector α n) :
    forward A record b n = .ok b := by
  rw [forward, dif_neg (Nat.lt_irrefl n)]
  rfl

theorem backward_single {A : Grid n n α} {record : Record n} (z : Vector α n) {k p : Fin n}
    (entry : record.get k = p.val + 1) :
    backward A record (k.val + 1) k.isLt z =
      backward A record k.val (Nat.le_of_lt k.isLt) (swapEntries (reduceBy A z k k) k p) := by
  have hk : record[k.val] = (p.val : Int) + 1 := entry
  have hpos : 0 < (p.val : Int) + 1 := by omega
  rw [backward.eq_def]
  simp only [hk, if_pos hpos, rowOf_eq_ok]
  rfl

theorem backward_pair {A : Grid n n α} {record : Record n} (z : Vector α n) {k l p : Fin n}
    (next : l.val = k.val + 1) (entry : record.get l = -(p.val + 1)) (h : k.val + 2 ≤ n) :
    backward A record (k.val + 2) h z =
      backward A record k.val (Nat.le_of_lt k.isLt)
        (swapEntries (reduceBy A (reduceBy A z l l) k l) l p) := by
  obtain rfl : l = ⟨k.val + 1, h⟩ := Fin.ext next
  have hl : record[k.val + 1] = -((p.val : Int) + 1) := entry
  have hneg : ¬0 < -((p.val : Int) + 1) := by omega
  rw [backward.eq_def]
  simp only [hl, if_neg hneg, Int.neg_neg, rowOf_eq_ok]
  rfl

/-- The forward sweep from a column on, followed by the backward sweep down to it. -/
theorem Solves.sweeps {A : Grid n n α} {record : Record n} {k : Nat} {b z : Vector α n}
    (h : Solves A record k b z) (hk : k ≤ n) :
    ∃ y, forward A record b k = .ok y ∧
      backward A record n (Nat.le_refl n) y = backward A record k hk z := by
  induction h with
  | done b => exact ⟨b, forward_of_le b, rfl⟩
  | single k p entry _ ih =>
    obtain ⟨y, hy, hback⟩ := ih k.isLt
    exact ⟨y, (forward_single _ entry).trans hy, hback.trans (backward_single _ entry)⟩
  | pair k l p next entry entry' _ ih =>
    have hk2 : k.val + 2 ≤ n := by
      have := l.isLt
      omega
    obtain ⟨y, hy, hback⟩ := ih hk2
    exact ⟨y, (forward_pair _ next entry).trans hy,
      hback.trans (backward_pair _ next entry' hk2)⟩

/-- All blocks together are the solution. -/
theorem solveGrid_of_solves {A : Grid n n α} {record : Record n} {b z : Vector α n}
    (h : Solves A record 0 b z) : solveGrid A record b = .ok z := by
  obtain ⟨y, hy, hback⟩ := h.sweeps (Nat.zero_le n)
  have hend : backward A record 0 (Nat.zero_le n) z = .ok z := rfl
  rw [solveGrid, hy]
  exact hback.trans hend

/-- The solution for a grid is the solution for the matrix that it is. -/
theorem solve_ofGrid (A : Grid n n α) (record : Record n) (b : Vector α n) :
    solve (.ofGrid A) record b.toArray = solveGrid A record b := by
  have hlead : leading (.ofGrid A) n = .ok A := by
    rw [leading, dif_pos ⟨rfl, Nat.le_refl n⟩]
    refine congrArg Except.ok (Grid.ext_get fun i j => ?_)
    rw [Grid.get_ofFn]
    rfl
  have hrows : (Matrix.ofGrid A).rows = n := rfl
  simp only [solve, require_of_pos hrows, sized_toArray, hlead]
  rfl

end ConicSaddle.Ldl
