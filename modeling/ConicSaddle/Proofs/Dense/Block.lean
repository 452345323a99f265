import ConicSaddle.Dense.Block
import ConicSaddle.Proofs.Dense.Product
import ConicSaddle.Proofs.Vec.Entries

/-!
# Block writes entry by entry

A block that lies inside a grid is written, and nothing else changes.

* `exists_writeSlice`, `exists_writeSlices`: one slice of a column, and several;
* `exists_setBlock`, `exists_fillBlock`, `exists_setBlockDiagonal`: the blocks that are made of
  them.
-/

namespace ConicSaddle.Grid

open Vec (entries)

variable {α β : Type} [Scalar α] {m n : ℕ}

theorem entries_col (A : Grid m n α) (j : Fin n) {i : ℕ} (hi : i < m) :
    Vec.entries (A.col j).toArray i = A.at i j := by
  rw [← Vec.get_eq_entries _ hi, get_col]
  exact (A.at_val ⟨i, hi⟩ j).symm

/-- The slice of a column. -/
theorem exists_writeSlice (A : Grid m n α) (row col : ℕ) (ys : Array α) (hrow : row + ys.size ≤ m)
    (hcol : col < n) :
    ∃ B, A.writeSlice row col ys = .ok B ∧ ∀ (i : Fin m) (j : Fin n), B.get i j =
      if j.val = col ∧ row ≤ i.val ∧ i.val < row + ys.size then Vec.entries ys (i.val - row)
      else A.get i j := by
  have hplace : m * (col + 1) ≤ m * n := Nat.mul_le_mul_left m hcol
  rw [Nat.mul_succ] at hplace
  obtain ⟨z, hz, hentries⟩ := Vec.exists_splice A.entries (row + m * col) ys (by omega)
  refine ⟨⟨z⟩, ?_, ?_⟩
  · unfold writeSlice
    rw [hz, Checked.map_ok]
  · intro i j
    have hi := i.isLt
    have hij := place_lt i j
    rw [← Vec.entries_grid, hentries _ hij, Vec.entries_grid]
    by_cases hj : j.val = col
    · subst hj
      by_cases hin : row ≤ i.val ∧ i.val < row + ys.size
      · rw [if_pos (by omega), if_pos ⟨rfl, hin⟩]
        congr 1
        omega
      · rw [if_neg (by omega), if_neg fun h => hin h.2]
    · -- a place in another column lies outside the slice
      have hout : ¬(row + m * col ≤ i.val + m * j.val ∧
          i.val + m * j.val < row + m * col + ys.size) := by
        rintro ⟨hle, hlt⟩
        rcases Nat.lt_or_gt_of_ne hj with hlt' | hgt
        · have hbefore : m * (j.val + 1) ≤ m * col := Nat.mul_le_mul_left m hlt'
          rw [Nat.mul_succ] at hbefore
          omega
        · have hbehind : m * (col + 1) ≤ m * j.val := Nat.mul_le_mul_left m hgt
          rw [Nat.mul_succ] at hbehind
          omega
      rw [if_neg hout, if_neg fun h => hj h.1]

/-- Several slices.  An entry that is covered has a value which does not depend on the slice that
was the last to cover it. -/
theorem exists_writeSlices (value : Fin m → Fin n → α) (row col : β → ℕ) (ys : β → Array α)
    (slices : List β) (hfits : ∀ c ∈ slices, row c + (ys c).size ≤ m ∧ col c < n)
    (hvalue : ∀ c ∈ slices, ∀ (i : Fin m) (j : Fin n), j.val = col c → row c ≤ i.val →
      i.val < row c + (ys c).size → Vec.entries (ys c) (i.val - row c) = value i j)
    (A : Grid m n α) :
    ∃ B, slices.foldlM (fun A c => A.writeSlice (row c) (col c) (ys c)) A = .ok B ∧
      ∀ (i : Fin m) (j : Fin n),
        ((∃ c ∈ slices, j.val = col c ∧ row c ≤ i.val ∧ i.val < row c + (ys c).size) →
          B.get i j = value i j) ∧
        ((∀ c ∈ slices, ¬(j.val = col c ∧ row c ≤ i.val ∧ i.val < row c + (ys c).size)) →
          B.get i j = A.get i j) := by
  induction slices generalizing A with
  | nil =>
    refine ⟨A, rfl, fun i j => ⟨?_, fun _ => rfl⟩⟩
    rintro ⟨c, hc, -⟩
    cases hc
  | cons c slices ih =>
    obtain ⟨hrow, hcol⟩ := hfits c List.mem_cons_self
    obtain ⟨B, hB, hget⟩ := exists_writeSlice A (row c) (col c) (ys c) hrow hcol
    obtain ⟨C, hC, hCget⟩ := ih (fun c' hc' => hfits c' (List.mem_cons_of_mem c hc'))
      (fun c' hc' => hvalue c' (List.mem_cons_of_mem c hc')) B
    refine ⟨C, ?_, fun i j => ⟨?_, ?_⟩⟩
    · rw [List.foldlM_cons, hB, Checked.ok_bind, hC]
    · rintro ⟨c', hc', hcover⟩
      by_cases hlater : ∃ c ∈ slices, j.val = col c ∧ row c ≤ i.val ∧ i.val < row c + (ys c).size
      · exact (hCget i j).1 hlater
      · have huncovered : ∀ c ∈ slices,
            ¬(j.val = col c ∧ row c ≤ i.val ∧ i.val < row c + (ys c).size) :=
          fun c hc h => hlater ⟨c, hc, h⟩
        rcases List.mem_cons.mp hc' with rfl | hc'
        · rw [(hCget i j).2 huncovered, hget, if_pos hcover]
          exact hvalue c' List.mem_cons_self i j hcover.1 hcover.2.1 hcover.2.2
        · exact absurd hcover (huncovered c' hc')
    · intro huncovered
      rw [(hCget i j).2 fun c' hc' => huncovered c' (List.mem_cons_of_mem c hc'), hget,
        if_neg (huncovered c List.mem_cons_self)]

/-! ### Blocks -/

/-- A block copied from another grid. -/
theorem exists_setBlock {p q : ℕ} (A : Grid m n α) (row col : ℕ) (B : Grid p q α)
    (h : row + p ≤ m ∧ col + q ≤ n) :
    ∃ C, A.setBlock row col B = .ok C ∧ ∀ (i : Fin m) (j : Fin n), C.get i j =
      if row ≤ i.val ∧ i.val < row + p ∧ col ≤ j.val ∧ j.val < col + q then
        B.at (i.val - row) (j.val - col)
      else A.get i j := by
  obtain ⟨C, hC, hget⟩ := exists_writeSlices (fun i j => B.at (i.val - row) (j.val - col))
    (fun _ => row) (fun c : Fin q => col + c.val) (fun c => (B.col c).toArray) (List.finRange q)
    (fun c _ => by rw [Vector.size_toArray]; omega)
    (fun c _ i j hj hi hi' => by
      rw [Vector.size_toArray] at hi'
      have hlt : i.val - row < p := by omega
      have hc : j.val - col = c.val := by omega
      rw [entries_col B c hlt, hc]) A
  refine ⟨C, ?_, fun i j => ?_⟩
  · unfold setBlock
    rw [require_of_pos h, Checked.ok_bind, hC]
  · by_cases hin : row ≤ i.val ∧ i.val < row + p ∧ col ≤ j.val ∧ j.val < col + q
    · rw [if_pos hin]
      refine (hget i j).1 ⟨⟨j.val - col, by omega⟩, List.mem_finRange _, ?_⟩
      rw [Vector.size_toArray]
      exact ⟨(Nat.add_sub_cancel' hin.2.2.1).symm, hin.1, hin.2.1⟩
    · rw [if_neg hin]
      refine (hget i j).2 fun c _ hcover => hin ?_
      rw [Vector.size_toArray] at hcover
      omega

/-- A block filled with one value. -/
theorem exists_fillBlock (A : Grid m n α) (row col p q : ℕ) (v : α)
    (h : row + p ≤ m ∧ col + q ≤ n) :
    ∃ C, A.fillBlock row col p q v = .ok C ∧ ∀ (i : Fin m) (j : Fin n), C.get i j =
      if row ≤ i.val ∧ i.val < row + p ∧ col ≤ j.val ∧ j.val < col + q then v else A.get i j := by
  have hsize : (Array.replicate p v).size = p := Array.size_replicate
  obtain ⟨C, hC, hget⟩ := exists_writeSlices (fun _ _ => v) (fun _ => row) (fun c : ℕ => c)
    (fun _ => .replicate p v) (List.range' col q)
    (fun c hc => by rw [List.mem_range'_1] at hc; omega)
    (fun c _ i j _ _ hi => by
      rw [Vec.entries_of_lt (by omega), Array.getElem_replicate]) A
  refine ⟨C, ?_, fun i j => ?_⟩
  · unfold fillBlock
    rw [require_of_pos h, Checked.ok_bind, hC]
  · by_cases hin : row ≤ i.val ∧ i.val < row + p ∧ col ≤ j.val ∧ j.val < col + q
    · rw [if_pos hin]
      refine (hget i j).1 ⟨j.val, List.mem_range'_1.mpr (by omega), rfl, by omega⟩
    · rw [if_neg hin]
      refine (hget i j).2 fun c hc hcover => hin ?_
      rw [List.mem_range'_1] at hc
      omega

/-- The diagonal of a square block. -/
theorem exists_setBlockDiagonal (A : Grid m n α) (start len : ℕ) (v : α)
    (h : start + len ≤ m ∧ start + len ≤ n) :
    ∃ C, A.setBlockDiagonal start len v = .ok C ∧ ∀ (i : Fin m) (j : Fin n), C.get i j =
      if i.val = j.val ∧ start ≤ j.val ∧ j.val < start + len then v else A.get i j := by
  obtain ⟨C, hC, hget⟩ := exists_writeSlices (fun _ _ => v) (fun c : ℕ => c) (fun c : ℕ => c)
    (fun _ => #[v]) (List.range' start len)
    (fun c hc => by
      rw [List.mem_range'_1] at hc
      show c + 1 ≤ m ∧ c < n
      omega)
    (fun c _ i j _ hi hi' => by
      have hc : i.val - c = 0 := Nat.sub_eq_zero_of_le (Nat.le_of_lt_succ hi')
      rw [hc]
      rfl) A
  refine ⟨C, ?_, fun i j => ?_⟩
  · unfold setBlockDiagonal
    rw [require_of_pos h, Checked.ok_bind, hC]
  · by_cases hin : i.val = j.val ∧ start ≤ j.val ∧ j.val < start + len
    · rw [if_pos hin]
      refine (hget i j).1 ⟨j.val, List.mem_range'_1.mpr hin.2, rfl, ?_⟩
      exact ⟨Nat.le_of_eq hin.1.symm, Nat.lt_succ_of_le (Nat.le_of_eq hin.1)⟩
    · rw [if_neg hin]
      refine (hget i j).2 fun c hc hcover => hin ?_
      rw [List.mem_range'_1] at hc
      obtain ⟨hj, hle, hlt⟩ := hcover
      have hle' : i.val ≤ c := Nat.le_of_lt_succ hlt
      omega

end ConicSaddle.Grid
