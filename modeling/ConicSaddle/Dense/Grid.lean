import ConicSaddle.Vec.Entry

/-!
# Grids

Rectangular arrays of entries, stored column after column in one vector.

* `Grid m n α`: `m` rows and `n` columns;
* `get`, `set`, `ofFn`, `col`, `setCol`: entries and columns;
* `resize`: another size over the same storage;
* `symm`: an entry of the symmetric grid that a lower triangle stands for.

A grid is determined by its entries (`Grid.ext_get`), and each operation comes with its equation
for `get`.
-/

namespace ConicSaddle

/-- A rectangular array of entries, column after column. -/
structure Grid (m n : Nat) (α : Type) where
  entries : Vector α (m * n)

namespace Grid

variable {α : Type} {m n : Nat}

/-- The place of row `i` of column `j` lies inside the storage. -/
theorem place_lt (i : Fin m) (j : Fin n) : i.val + m * j.val < m * n := by
  have h : m * (j.val + 1) ≤ m * n := Nat.mul_le_mul_left m j.isLt
  have := i.isLt
  rw [Nat.mul_succ] at h
  omega

theorem rows_pos (k : Fin (m * n)) : 0 < m := by
  rcases Nat.eq_zero_or_pos m with rfl | h
  · exact absurd k.isLt (by simp)
  · exact h

/-- The entry in row `i` of column `j`. -/
def get (A : Grid m n α) (i : Fin m) (j : Fin n) : α :=
  getElem A.entries (i.val + m * j.val) (place_lt i j)

/-- The grid with the given entries. -/
def ofFn (f : Fin m → Fin n → α) : Grid m n α where
  entries := .ofFn fun k =>
    f ⟨k.val % m, Nat.mod_lt _ (rows_pos k)⟩ ⟨k.val / m, Nat.div_lt_of_lt_mul k.isLt⟩

/-- The grid with one entry replaced. -/
def set (A : Grid m n α) (i : Fin m) (j : Fin n) (v : α) : Grid m n α where
  entries := A.entries.set (i.val + m * j.val) v (place_lt i j)

/-- The grid with the same entry everywhere. -/
def replicate (m n : Nat) (v : α) : Grid m n α where
  entries := .replicate (m * n) v

/-- A column. -/
def col (A : Grid m n α) (j : Fin n) : Vector α m := .ofFn fun i => A.get i j

/-- The grid with one column replaced. -/
def setCol (A : Grid m n α) (j : Fin n) (v : Vector α m) : Grid m n α :=
  ofFn fun i c => if c = j then v.get i else A.get i c

/-- A grid of another size over the same storage, cut off or filled up with `v` at the end. -/
def resize (A : Grid m n α) (p q : Nat) (v : α) : Grid p q α where
  entries := .ofFn fun k => if h : k.val < m * n then A.entries[k.val] else v

/-- The grid with `v` on the diagonal and `w` elsewhere. -/
def diagonal (n : Nat) (v w : α) : Grid n n α := ofFn fun i j => if i = j then v else w

/-- The entry of the symmetric grid whose lower triangle is that of `A`. -/
def symm (A : Grid n n α) (i j : Fin n) : α :=
  if j ≤ i then A.get i j else A.get j i

/-! ### Entries -/

theorem get_ofFn (f : Fin m → Fin n → α) (i : Fin m) (j : Fin n) : (ofFn f).get i j = f i j := by
  have hm : 0 < m := Nat.lt_of_le_of_lt (Nat.zero_le _) i.isLt
  simp only [get, ofFn, Vector.getElem_ofFn]
  congr 1
  · exact Fin.ext (by simp [Nat.add_mul_mod_self_left, Nat.mod_eq_of_lt i.isLt])
  · exact Fin.ext (by simp [Nat.add_mul_div_left _ _ hm, Nat.div_eq_of_lt i.isLt])

/-- Two grids with the same entries are equal. -/
theorem ext_get {A B : Grid m n α} (h : ∀ i j, A.get i j = B.get i j) : A = B := by
  obtain ⟨a⟩ := A
  obtain ⟨b⟩ := B
  congr 1
  apply Vector.ext
  intro k hk
  have hm : 0 < m := rows_pos ⟨k, hk⟩
  have := h ⟨k % m, Nat.mod_lt _ hm⟩ ⟨k / m, Nat.div_lt_of_lt_mul hk⟩
  simpa only [get, Nat.mod_add_div] using this

theorem place_inj {i p : Fin m} {j q : Fin n} (h : i.val + m * j.val = p.val + m * q.val) :
    i = p ∧ j = q := by
  have hm : 0 < m := Nat.lt_of_le_of_lt (Nat.zero_le _) i.isLt
  have hi := congrArg (· % m) h
  have hj := congrArg (· / m) h
  simp only [Nat.add_mul_mod_self_left, Nat.mod_eq_of_lt i.isLt, Nat.mod_eq_of_lt p.isLt] at hi
  simp only [Nat.add_mul_div_left _ _ hm, Nat.div_eq_of_lt i.isLt, Nat.div_eq_of_lt p.isLt,
    Nat.zero_add] at hj
  exact ⟨Fin.ext hi, Fin.ext hj⟩

theorem get_set (A : Grid m n α) (i p : Fin m) (j q : Fin n) (v : α) :
    (A.set i j v).get p q = if p = i ∧ q = j then v else A.get p q := by
  simp only [get, set, Vector.getElem_set]
  by_cases h : p = i ∧ q = j
  · rw [if_pos h, if_pos (by rw [h.1, h.2])]
  · rw [if_neg h, if_neg fun e => h (by have := place_inj e; exact ⟨this.1.symm, this.2.symm⟩)]

theorem get_replicate (v : α) (i : Fin m) (j : Fin n) : (replicate m n v).get i j = v := by
  simp [get, replicate]

theorem get_col (A : Grid m n α) (i : Fin m) (j : Fin n) : (A.col j).get i = A.get i j := by
  rw [col, Vec.get_ofFn]

theorem get_setCol (A : Grid m n α) (j c : Fin n) (v : Vector α m) (i : Fin m) :
    (A.setCol j v).get i c = if c = j then v.get i else A.get i c := by
  rw [setCol, get_ofFn]

theorem get_diagonal (v w : α) (i j : Fin n) :
    (diagonal n v w).get i j = if i = j then v else w := get_ofFn _ i j

theorem symm_comm (A : Grid n n α) (i j : Fin n) : A.symm i j = A.symm j i := by
  simp only [symm]
  by_cases h : i = j
  · rw [h]
  · rcases Nat.lt_or_gt_of_ne (fun e => h (Fin.ext e)) with h | h
    · rw [if_neg (by rw [Fin.le_def]; omega), if_pos (by rw [Fin.le_def]; omega)]
    · rw [if_pos (by rw [Fin.le_def]; omega), if_neg (by rw [Fin.le_def]; omega)]

end Grid

end ConicSaddle
