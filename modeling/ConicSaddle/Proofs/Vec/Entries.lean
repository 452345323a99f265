import Mathlib.Tactic.Common
import ConicSaddle.Dense.Grid
import ConicSaddle.Vec.Slice

/-!
# Arrays as functions of the place

The entries of an array as a function on all places, zero behind the last one, so that slices at
computed positions are compared without carrying bounds.

* `entries`: the function, and `ext_entries`: it determines a vector;
* `exists_slice`, `exists_splice`: reading and writing a slice;
* `entries_append`, `entries_ofFn`, `entries_grid`: arrays made from others, and stored grids.
-/

namespace ConicSaddle.Vec

variable {α : Type} [Zero α] {n : ℕ}

/-- The entry of an array at a place, zero behind the last one. -/
def entries (xs : Array α) (i : ℕ) : α := xs.getD i 0

theorem entries_of_lt {xs : Array α} {i : ℕ} (h : i < xs.size) : entries xs i = xs[i] := by
  unfold entries
  rw [Array.getD_eq_getD_getElem?, Array.getElem?_eq_getElem h]
  rfl

theorem getElem?_eq_entries {xs : Array α} {i : ℕ} (h : i < xs.size) :
    xs[i]? = some (entries xs i) := by
  rw [entries_of_lt h, Array.getElem?_eq_getElem h]

theorem entries_get (x : Vector α n) (i : Fin n) : entries x.toArray i.val = x.get i := by
  rw [entries_of_lt (by simp)]
  rfl

theorem get_eq_entries (x : Vector α n) {i : ℕ} (h : i < n) :
    x.get ⟨i, h⟩ = entries x.toArray i := (entries_get x ⟨i, h⟩).symm

/-- A vector is determined by its entries. -/
theorem ext_entries {x y : Vector α n} (h : ∀ i < n, entries x.toArray i = entries y.toArray i) :
    x = y := by
  apply ext_get
  intro i
  rw [← entries_get x, ← entries_get y]
  exact h i.val i.isLt

/-- So is an array with its size. -/
theorem ext_array {xs ys : Array α} (hsize : xs.size = ys.size)
    (h : ∀ i < xs.size, entries xs i = entries ys i) : xs = ys := by
  apply Array.ext hsize
  intro i hi hi'
  rw [← entries_of_lt hi, ← entries_of_lt hi']
  exact h i hi

theorem entries_toArray (xs : List α) (i : ℕ) : entries xs.toArray i = xs.getD i 0 := by
  unfold entries
  rw [Array.getD_eq_getD_getElem?, List.getElem?_toArray, List.getD_eq_getElem?_getD]

theorem entries_ofFn (f : Fin n → α) {i : ℕ} (h : i < n) :
    entries (Vector.ofFn f).toArray i = f ⟨i, h⟩ := by
  rw [← get_eq_entries _ h, get_ofFn]

theorem entries_append (xs ys : Array α) {i : ℕ} (h : i < xs.size + ys.size) :
    entries (xs ++ ys) i = if i < xs.size then entries xs i else entries ys (i - xs.size) := by
  rw [entries_of_lt (by simpa using h), Array.getElem_append]
  by_cases hi : i < xs.size
  · rw [dif_pos hi, if_pos hi, entries_of_lt hi]
  · rw [dif_neg hi, if_neg hi, entries_of_lt (by omega)]

/-- The entries of a grid in its storage. -/
theorem entries_grid {m : ℕ} (A : Grid m n α) (i : Fin m) (j : Fin n) :
    entries A.entries.toArray (i + m * j) = A.get i j :=
  entries_of_lt (by simpa using Grid.place_lt i j)

theorem entries_extract (xs : Array α) {start stop i : ℕ}
    (h : i < (xs.extract start stop).size) :
    entries (xs.extract start stop) i = entries xs (start + i) := by
  have hsize := h
  rw [Array.size_extract] at hsize
  rw [entries_of_lt h, Array.getElem_extract, entries_of_lt (by omega)]

/-- A slice that lies inside the array. -/
theorem exists_slice (xs : Array α) (start len : ℕ) (h : start + len ≤ xs.size) :
    ∃ part, slice xs start len = .ok part ∧
      ∀ i < len, entries part.toArray i = entries xs (start + i) := by
  refine ⟨_, slice_eq_ok h, ?_⟩
  intro i hi
  apply entries_extract
  rw [Array.size_extract]
  omega

/-- Entries written inside a vector. -/
theorem exists_splice (x : Vector α n) (start : ℕ) (ys : Array α) (h : start + ys.size ≤ n) :
    ∃ z, splice x start ys = .ok z ∧ ∀ i < n, entries z.toArray i =
      if start ≤ i ∧ i < start + ys.size then entries ys (i - start) else entries x.toArray i := by
  refine ⟨_, splice_eq_ok h, ?_⟩
  intro i hi
  rw [entries_ofFn _ hi]
  by_cases hin : start ≤ i ∧ i < start + ys.size
  · rw [dif_pos hin, if_pos hin, entries_of_lt (by omega)]
  · rw [dif_neg hin, if_neg hin, get_eq_entries]

end ConicSaddle.Vec
