/-!
# Entries of vectors

The entry of a vector at a position below its length, and the entries of vectors that are made from
a function or from another vector.  A vector is determined by its entries.
-/

namespace ConicSaddle.Vec

variable {α : Type} {n : Nat}

theorem get_eq_getElem (xs : Vector α n) (i : Fin n) : xs.get i = xs[i.val] := rfl

theorem get_ofFn (f : Fin n → α) (i : Fin n) : (Vector.ofFn f).get i = f i := by
  rw [get_eq_getElem, Vector.getElem_ofFn]

theorem get_set (xs : Vector α n) (i j : Fin n) (v : α) :
    (xs.set i.val v i.isLt).get j = if j = i then v else xs.get j := by
  rw [get_eq_getElem, Vector.getElem_set, get_eq_getElem]
  by_cases h : j = i
  · rw [if_pos h, if_pos (congrArg Fin.val h.symm)]
  · rw [if_neg h, if_neg fun e => h (Fin.ext e.symm)]

/-- Two vectors with the same entries are equal. -/
theorem ext_get {xs ys : Vector α n} (h : ∀ i, xs.get i = ys.get i) : xs = ys :=
  Vector.ext fun i hi => h ⟨i, hi⟩

end ConicSaddle.Vec
