import ConicSaddle.Proofs.Dense.Product
import ConicSaddle.Proofs.Nan.Rules
import ConicSaddle.Proofs.Vec.PairwiseSum
import ConicSaddle.Vec.Basic

/-!
# Sums with a NaN

A sum with a NaN among its terms is a NaN, whatever the tree of additions, and so are an inner
product and a norm of a vector with a NaN.

* `Vec.HasNaN`: an entry of a vector is a NaN;
* `isNaN_foldl_add`, `AddTree.isNaN_value`: sums from the left, and trees of them;
* `isNaN_dot`, `isNaN_rowSum`, `isNaN_blend`: inner products and sums that are written;
* `isNaN_normInf`, `isFinite_eq_false`: what the tests of a solution say.
-/

namespace ConicSaddle

open Scalar (isNaN)
open Vec (entries)

variable {α : Type} [Scalar α] [NaNRules α] {n : ℕ}

/-- A sum from the left. -/
theorem isNaN_foldl_add {β : Type} (f : β → α) (xs : List β) (start : α)
    (h : isNaN start = true ∨ ∃ x ∈ xs, isNaN (f x) = true) :
    isNaN (xs.foldl (fun s x => s + f x) start) = true := by
  induction xs generalizing start with
  | nil =>
    rcases h with h | ⟨x, hx, -⟩
    · exact h
    · cases hx
  | cons y xs ih =>
    rw [List.foldl_cons]
    apply ih
    rcases h with h | ⟨x, hx, hnan⟩
    · exact .inl (NaNRules.add_left h _)
    · rcases List.mem_cons.mp hx with rfl | hx
      · exact .inl (NaNRules.add_right _ hnan)
      · exact .inr ⟨x, hx, hnan⟩

theorem isNaN_rowSum {count i : ℕ} {f : ℕ → α} (hi : i < count) (h : isNaN (f i) = true) :
    isNaN (rowSum count f) = true :=
  isNaN_foldl_add f _ 0 (.inr ⟨i, List.mem_range.mpr hi, h⟩)

/-- A NaN is written over the old contents, and stays one if these are added to it. -/
theorem isNaN_blend (alpha : α) {s : α} (beta old : α) (h : isNaN s = true) :
    isNaN (blend alpha s beta old) = true := by
  have hscaled := NaNRules.mul_right alpha h
  unfold blend
  split
  · exact hscaled
  · exact NaNRules.add_left hscaled _

namespace Vec

/-- An entry is a NaN. -/
def HasNaN (x : Vector α n) : Prop := ∃ i, isNaN (x.get i) = true

/-- A NaN at a place of a tree of additions goes all the way up, as it does along a run. -/
theorem AddTree.isNaN_value {term : ℕ → α} {i : ℕ} (h : isNaN (term i) = true) {tree : AddTree}
    (hi : i ∈ tree.places) : isNaN (tree.value term) = true := by
  induction tree with
  | run start count => exact isNaN_foldl_add term _ 0 (.inr ⟨i, hi, h⟩)
  | join left right ihleft ihright =>
    rcases List.mem_append.mp hi with hi | hi
    · exact NaNRules.add_left (ihleft hi) _
    · exact NaNRules.add_right _ (ihright hi)

/-- An inner product with a NaN at a place that both vectors have. -/
theorem isNaN_dot {x y : Array α} {i : ℕ} (hx : i < x.size) (hy : i < y.size)
    (h : isNaN (entries x i) = true ∨ isNaN (entries y i) = true) : isNaN (dot x y) = true := by
  obtain ⟨tree, htree⟩ := AddTree.exists_halves 0 (min x.size y.size)
  rw [dot_eq_value htree]
  refine AddTree.isNaN_value (i := i) ?_ ?_
  · rcases h with h | h
    · exact NaNRules.mul_left h _
    · exact NaNRules.mul_right _ h
  · rw [htree.places_eq, List.mem_range'_1]
    omega

theorem isNaN_largestMagnitude {xs : List α} {v : α} (hmem : v ∈ xs) (h : isNaN v = true)
    (best : α) : isNaN (largestMagnitude xs best) = true := by
  induction xs generalizing best with
  | nil => cases hmem
  | cons w xs ih =>
    show isNaN (if isNaN (Scalar.abs w) then _ else _) = true
    split
    · assumption
    · next hnumber =>
      rcases List.mem_cons.mp hmem with rfl | hmem
      · exact absurd (NaNRules.abs h) hnumber
      · exact ih hmem _

/-- The norm of a vector with a NaN. -/
theorem isNaN_normInf {x : Vector α n} (h : HasNaN x) : isNaN (normInf x.toArray) = true := by
  obtain ⟨i, hi⟩ := h
  have hsize : i.val < x.toArray.size := by
    rw [x.size_toArray]
    exact i.isLt
  exact isNaN_largestMagnitude (Array.mem_toList_iff.mpr (Array.getElem_mem hsize)) hi 0

/-- A vector with a NaN does not pass for finite. -/
theorem isFinite_eq_false {x : Vector α n} (h : HasNaN x) : isFinite x.toArray = false := by
  obtain ⟨i, hi⟩ := h
  have hsize : i.val < x.toArray.size := by
    rw [x.size_toArray]
    exact i.isLt
  have hentry : Scalar.isFinite x.toArray[i.val] = false := NaNRules.isFinite hi
  unfold isFinite
  rw [Array.all_eq_false]
  exact ⟨i.val, hsize, by rw [hentry]; exact Bool.false_ne_true⟩

end Vec

end ConicSaddle
