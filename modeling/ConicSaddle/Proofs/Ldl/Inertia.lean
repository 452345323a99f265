import ConicSaddle.Ldl.Inertia
import ConicSaddle.Proofs.Ldl.Blocks

/-!
# Reading the inertia

The inertia is read block by block, from the diagonal and from below it.

* `inertiaFrom_of_single`, `inertiaFrom_of_pair`: one block;
* `Record.Reads.inertiaFrom_eq`: all blocks, of any matrix that has the entries;
* `exists_inertia`: for a record that splits the columns there is an inertia.
-/

namespace ConicSaddle.Ldl

variable {α : Type} {n : Nat} [Scalar α]

theorem inertiaFrom_of_le {A : Matrix α} {record : Record n} {k : ℕ} (h : n ≤ k)
    (seen : Inertia) : inertiaFrom A record k seen = .ok seen := by
  rw [inertiaFrom, dif_neg (Nat.not_lt.mpr h)]
  rfl

/-- A block of order one. -/
theorem inertiaFrom_of_single {A : Matrix α} {record : Record n} {k p : Fin n} {a : α}
    (ha : A.entry k k = .ok a) (entry : record.get k = p.val + 1) (seen : Inertia) :
    inertiaFrom A record k seen = inertiaFrom A record (k + 1) (seen + .ofNumber a) := by
  have hpos : 0 < record[k.val] := by
    rw [show record[k.val] = _ from entry]
    omega
  rw [inertiaFrom, dif_pos k.isLt, if_pos hpos, ha]
  rfl

/-- A block of order two. -/
theorem inertiaFrom_of_pair {A : Matrix α} {record : Record n} {k l p : Fin n} {a b c : α}
    (next : l.val = k.val + 1) (ha : A.entry k k = .ok a) (hb : A.entry l k = .ok b)
    (hc : A.entry l l = .ok c) (entry : record.get k = -(p.val + 1)) (seen : Inertia) :
    inertiaFrom A record k seen = inertiaFrom A record (k + 2) (seen + .ofPair a b c) := by
  have hneg : ¬0 < record[k.val] := by
    rw [show record[k.val] = _ from entry]
    omega
  rw [inertiaFrom, dif_pos k.isLt, if_neg hneg, ← next, ha, hb, hc]
  rfl

/-- The inertia of a block, read from a matrix. -/
def Block.inertia (A : Grid n n α) : Block n → Inertia
  | single k _ => .ofNumber (A.get k k)
  | pair k l _ => .ofPair (A.get k k) (A.get l k) (A.get l l)

/-- The inertia is that of the blocks from the first to the last.  The matrix may be larger than the
record, and what it holds above the diagonal is not read. -/
theorem Record.Reads.inertiaFrom_eq {record : Record n} {k : ℕ} {blocks : List (Block n)}
    (h : record.Reads k blocks) {A : Matrix α} {F : Grid n n α}
    (hA : ∀ i j : Fin n, j ≤ i → A.entry i j = .ok (F.get i j)) (seen : Inertia) :
    inertiaFrom A record k seen =
      .ok (blocks.foldl (fun seen block => seen + block.inertia F) seen) := by
  induction h generalizing seen with
  | done => exact inertiaFrom_of_le (Nat.le_refl n) seen
  | single k p entry _ ih =>
    rw [inertiaFrom_of_single (hA k k (Nat.le_refl k.val)) entry, ih, List.foldl_cons,
      Block.inertia]
  | pair k l p next entry _ ih =>
    have hkl : k.val ≤ l.val := next ▸ Nat.le_succ k.val
    rw [inertiaFrom_of_pair next (hA k k (Nat.le_refl k.val)) (hA l k hkl)
      (hA l l (Nat.le_refl l.val)) entry, ih, List.foldl_cons, Block.inertia]

/-- A record that splits the columns has an inertia. -/
theorem exists_inertia (A : Grid n n α) {record : Record n} (h : record.Splits 0) :
    ∃ found, inertia (.ofGrid A) record = .ok found := by
  obtain ⟨blocks, names⟩ := h.exists_names
  exact ⟨_, names.reads.inertiaFrom_eq (fun i j _ => Matrix.entry_ofGrid A i j) .none⟩

end ConicSaddle.Ldl
