import Mathlib.Algebra.BigOperators.Fin
import Mathlib.Algebra.BigOperators.Group.List.Basic
import Mathlib.Algebra.BigOperators.Intervals
import ConicSaddle.Proofs.Vec.Entries
import ConicSaddle.Vec.PairwiseSum

/-!
# The tree of a pairwise sum

Which terms a pairwise sum adds, and in which order.  The order depends on the number of terms
alone.  Where addition is associative it does not matter, and the sum is that of the terms.

* `AddTree`: a tree of additions, with the places that it adds and its value;
* `AddTree.Halves`: the tree of a range that is halved until it is short;
* `Halves.places_eq`, `Halves.sumRange_eq`: the tree has every place of the range once, and a
  pairwise sum is its value;
* `dot_eq_value`: so is an inner product, over the products of the entries;
* `dot_eq_sum_min`, `dot_tail_eq_sum`: inner products in exact arithmetic;
* `dot_adds_every_place`: the statement for vectors of any two lengths.
-/

namespace ConicSaddle.Vec

/-! ### Trees of additions -/

/-- A tree of additions of terms that stand at some places. -/
inductive AddTree
  /-- Consecutive places, added up from the left, starting from zero. -/
  | run (start count : ℕ)
  /-- The sum of two trees. -/
  | join (left right : AddTree)

namespace AddTree

/-- The places that a tree adds, from the left to the right. -/
def places : AddTree → List ℕ
  | run start count => List.range' start count
  | join left right => left.places ++ right.places

/-- The sum of the terms at the places of a tree, in its order. -/
def value {α : Type} [Zero α] [Add α] (term : ℕ → α) : AddTree → α
  | run start count => (List.range' start count).foldl (fun sum i => sum + term i) 0
  | join left right => left.value term + right.value term

/-- The tree of a range.  Fewer than 16 places are one run, and more are split in the middle. -/
inductive Halves : ℕ → ℕ → AddTree → Prop
  | short {start count : ℕ} (h : count < 16) : Halves start count (run start count)
  | long {start count : ℕ} {left right : AddTree} (h : 16 ≤ count)
      (first : Halves start (count / 2) left)
      (second : Halves (start + count / 2) (count - count / 2) right) :
      Halves start count (join left right)

variable {start count : ℕ} {tree other : AddTree}

/-- The halving of a range comes to an end. -/
theorem exists_halves (start count : ℕ) : ∃ tree, Halves start count tree := by
  induction count using Nat.strongRecOn generalizing start with
  | ind count ih =>
    by_cases h : count < 16
    · exact ⟨_, .short h⟩
    · have hlong : 16 ≤ count := Nat.not_lt.mp h
      obtain ⟨left, hleft⟩ := ih (count / 2) (by omega) start
      obtain ⟨right, hright⟩ := ih (count - count / 2) (by omega) (start + count / 2)
      exact ⟨_, .long hlong hleft hright⟩

theorem Halves.unique (h : Halves start count tree) (h' : Halves start count other) :
    other = tree := by
  induction h generalizing other with
  | short hshort =>
    cases h' with
    | short => rfl
    | long hlong => omega
  | long hlong _ _ ihfirst ihsecond =>
    cases h' with
    | short hshort => omega
    | long _ first second => rw [ihfirst first, ihsecond second]

/-- Every place of the range stands in the tree once, in order. -/
theorem Halves.places_eq (h : Halves start count tree) : tree.places = List.range' start count := by
  induction h with
  | short => rfl
  | @long start count _ _ _ _ _ ihfirst ihsecond =>
    have hcount : count / 2 + (count - count / 2) = count := by omega
    rw [places, ihfirst, ihsecond, List.range'_append_1, hcount]

/-- Only the terms at the places of a tree matter. -/
theorem value_congr {α : Type} [Zero α] [Add α] {f g : ℕ → α}
    (h : ∀ i ∈ tree.places, f i = g i) : tree.value f = tree.value g := by
  induction tree with
  | run start count => exact List.foldl_ext _ _ _ fun sum i hi => by rw [h i hi]
  | join left right ihleft ihright =>
    simp only [places, List.mem_append] at h
    rw [value, value, ihleft fun i hi => h i (.inl hi), ihright fun i hi => h i (.inr hi)]

/-- Where addition is associative, the tree does not matter. -/
theorem value_eq_sum {R : Type} [AddCommMonoid R] (term : ℕ → R) (tree : AddTree) :
    tree.value term = (tree.places.map term).sum := by
  induction tree with
  | run start count => rw [value, places, List.sum_eq_foldl, List.foldl_map]
  | join left right ihleft ihright => simp [value, places, ihleft, ihright]

end AddTree

open AddTree (Halves)

/-! ### The tree that is computed -/

section

variable {α : Type} [Zero α] [Add α] {start count : ℕ} {tree : AddTree}

/-- A pairwise sum is the value of the tree of its range. -/
theorem AddTree.Halves.sumRange_eq (h : Halves start count tree) {terms : Array α}
    (hfits : start + count ≤ terms.size) :
    sumRange terms start count = tree.value (entries terms) := by
  induction h with
  | @short start count hshort =>
    have hrange : (terms.extract start (start + count)).toList =
        (List.range' start count).map (entries terms) := by
      apply List.ext_getElem
      · simp
        omega
      · intro i h₁ h₂
        have hi : start + i < terms.size := by
          simp at h₂
          omega
        simp [entries_of_lt hi]
    rw [sumRange, splitLength, if_pos hshort, ← Array.foldl_toList, hrange, List.foldl_map]
    rfl
  | @long start count _ _ hlong _ _ ihfirst ihsecond =>
    rw [sumRange, splitLength, if_neg (Nat.not_lt.mpr hlong), ihfirst (by omega),
      ihsecond (by omega)]
    rfl

/-- An inner product is the value of the tree over the products of the entries. -/
theorem dot_eq_value [Mul α] {x y : Array α} (h : Halves 0 (min x.size y.size) tree) :
    dot x y = tree.value fun i => entries x i * entries y i := by
  have hsize : (Array.zipWith (· * ·) x y).size = min x.size y.size := Array.size_zipWith
  have hterms : ∀ i ∈ tree.places,
      entries (Array.zipWith (· * ·) x y) i = entries x i * entries y i := by
    intro i hi
    rw [h.places_eq, List.mem_range'_1] at hi
    rw [entries_of_lt (by omega), entries_of_lt (by omega : i < x.size),
      entries_of_lt (by omega : i < y.size), Array.getElem_zipWith]
  rw [dot, hsize, h.sumRange_eq (by omega), AddTree.value_congr hterms]

end

/-! ### Exact arithmetic -/

/-- An inner product is the sum of the products below the shorter length. -/
theorem dot_eq_sum_min {R : Type} [CommRing R] (x y : Array R) :
    dot x y = ∑ i ∈ Finset.range (min x.size y.size), entries x i * entries y i := by
  obtain ⟨tree, htree⟩ := AddTree.exists_halves 0 (min x.size y.size)
  rw [dot_eq_value htree, AddTree.value_eq_sum, htree.places_eq, ← List.range_eq_range']
  exact Multiset.sum_coe _

/-- The inner product of two vectors over the places from `m` on. -/
theorem dot_tail_eq_sum {R : Type} [CommRing R] {n : ℕ} (x y : Vector R n) (m : ℕ) :
    dot (x.toArray.extract m n) (y.toArray.extract m n) =
      ∑ i : Fin n with m ≤ i.val, x.get i * y.get i := by
  let f := fun i => entries x.toArray i * entries y.toArray i
  have hsize (z : Vector R n) : (z.toArray.extract m n).size = n - m := by simp
  have htail (z : Vector R n) (i : ℕ) (hi : i ∈ Finset.range (n - m)) :
      entries (z.toArray.extract m n) i = entries z.toArray (m + i) := by
    rw [Finset.mem_range, ← hsize z] at hi
    exact entries_extract _ hi
  have hfrom : Finset.Ico m n = (Finset.range n).filter (m ≤ ·) := by
    ext i
    simp
    omega
  calc dot (x.toArray.extract m n) (y.toArray.extract m n)
      = ∑ i ∈ Finset.range (n - m), f (m + i) := by
        rw [dot_eq_sum_min, hsize, hsize, Nat.min_self]
        exact Finset.sum_congr rfl fun i hi => by rw [htail x i hi, htail y i hi]
    _ = ∑ i ∈ Finset.Ico m n, f i := (Finset.sum_Ico_eq_sum_range f m n).symm
    _ = ∑ i : Fin n with m ≤ i.val, x.get i * y.get i := by
        rw [hfrom, Finset.sum_filter, Finset.sum_range, ← Finset.sum_filter]
        simp only [f, entries_get]

/-! ### Vectors of any two lengths -/

/-- **A pairwise sum adds every place once.**  For vectors of any two lengths the halving of the
places below the shorter length comes to an end, in one tree of additions, which has each of these
places once and in order.  In any arithmetic the inner product is the value of that tree over the
products of the entries, and over a commutative ring it is the sum of the products. -/
theorem dot_adds_every_place (m n : ℕ) :
    ∃ tree : AddTree, (∀ other, Halves 0 (min m n) other ↔ other = tree) ∧
      tree.places = List.range (min m n) ∧
      (∀ {α : Type} [Zero α] [Add α] [Mul α] (x : Vector α m) (y : Vector α n),
        dot x.toArray y.toArray =
          tree.value fun i => entries x.toArray i * entries y.toArray i) ∧
      ∀ {R : Type} [CommRing R] (x : Vector R m) (y : Vector R n),
        dot x.toArray y.toArray =
          ∑ i : Fin (min m n), x.get (i.castLE (Nat.min_le_left m n)) *
            y.get (i.castLE (Nat.min_le_right m n)) := by
  obtain ⟨tree, htree⟩ := AddTree.exists_halves 0 (min m n)
  refine ⟨tree, fun other => ⟨htree.unique, ?_⟩, ?_, fun x y => ?_, fun x y => ?_⟩
  · rintro rfl
    exact htree
  · rw [htree.places_eq, List.range_eq_range']
  · apply dot_eq_value
    rwa [x.size_toArray, y.size_toArray]
  · rw [dot_eq_sum_min, x.size_toArray, y.size_toArray, Finset.sum_range]
    simp only [← entries_get, Fin.val_castLE]

end ConicSaddle.Vec
