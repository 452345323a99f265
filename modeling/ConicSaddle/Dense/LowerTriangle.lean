import ConicSaddle.Dense.Grid
import ConicSaddle.Fault

/-!
# Lower triangles

The places of a lower triangle in their fixed order, column after column and each column downwards
from the diagonal, and writing a symmetric grid through them.

* `lowerTriangle k`: the places `(i, j)` with `j ≤ i`;
* `triangle k`: their number, and `triangularNumber`, the same in machine words;
* `Grid.writeSymm`: values written to places and to their transposed places.
-/

namespace ConicSaddle

/-- The number of places of a lower triangle of order `k`. -/
def triangle (k : Nat) : Nat := k * (k + 1) / 2

/-- The number of places, if a machine word can hold it and the numbers it is computed from. -/
def triangularNumber (k : Nat) : Checked Nat := do
  let next ← Word.add k 1
  let double ← Word.mul k next
  pure (double / 2)

/-- The rows from `j` on. -/
def fromDiagonal {k : Nat} (j : Fin k) : List (Fin k) :=
  (List.finRange k).filter fun i => decide (j ≤ i)

/-- The places of the lower triangle, column after column. -/
def lowerTriangle (k : Nat) : List (Fin k × Fin k) :=
  (List.finRange k).flatMap fun j => (fromDiagonal j).map fun i => (i, j)

theorem mem_lowerTriangle {k : Nat} {p : Fin k × Fin k} : p ∈ lowerTriangle k ↔ p.2 ≤ p.1 := by
  obtain ⟨i, j⟩ := p
  simp only [lowerTriangle, fromDiagonal, List.mem_flatMap, List.mem_finRange, true_and,
    List.mem_map, List.mem_filter, decide_eq_true_eq, Prod.mk.injEq]
  exact ⟨fun ⟨_, _, h, hi, hj⟩ => hi ▸ hj ▸ h, fun h => ⟨j, i, h, rfl, rfl⟩⟩

namespace Grid

variable {α : Type} {k : Nat}

/-- One value written to a place and to the transposed place. -/
def setSymm (A : Grid k k α) (p : Fin k × Fin k) (v : α) : Grid k k α :=
  (A.set p.1 p.2 v).set p.2 p.1 v

/-- Values written one after the other to their places and to the transposed places. -/
def writeSymm (A : Grid k k α) (values : List ((Fin k × Fin k) × α)) : Grid k k α :=
  values.foldl (fun A v => A.setSymm v.1 v.2) A

theorem get_setSymm (A : Grid k k α) (p : Fin k × Fin k) (v : α) (i j : Fin k) :
    (A.setSymm p v).get i j = if (i, j) = p ∨ (j, i) = p then v else A.get i j := by
  obtain ⟨a, b⟩ := p
  simp only [setSymm, get_set, Prod.mk.injEq]
  by_cases h₁ : i = b ∧ j = a
  · rw [if_pos h₁, if_pos (Or.inr ⟨h₁.2, h₁.1⟩)]
  · rw [if_neg h₁]
    by_cases h₂ : i = a ∧ j = b
    · rw [if_pos h₂, if_pos (Or.inl h₂)]
    · rw [if_neg h₂, if_neg fun h => h.elim h₂ fun e => h₁ ⟨e.2, e.1⟩]

end Grid

end ConicSaddle
