import ConicSaddle.Proofs.Ldl.Blocks
import ConicSaddle.Proofs.Ldl.Inertia
import ConicSaddle.Proofs.Nan.Rules

/-!
# What the passes over a record visit

Three passes read the pivot record on their own: the forward sweep and the reading of the inertia
from the first column on, and the backward sweep from the last column down.  Only the sign of an
entry tells them where a block of order two stands.

* `Block.Recorded`: the entries of the record that stand for a block;
* `Record.Reads.columns_eq`: the blocks that are read are consecutive and leave out no column;
* `Block.undo`, `Block.undoTransposed`: what the two sweeps do at a block;
* `Visits`: the three passes visit the same blocks, come to an end and stay in range;
* `factor_record`: so they do with the record that a factorization leaves, of any matrix.
-/

namespace ConicSaddle

/-! ### Counting eigenvalues -/

namespace Inertia

variable {α : Type} [Scalar α]

/-- How many eigenvalues were counted. -/
def size (a : Inertia) : ℕ := a.positive + a.negative + a.zero

omit [Scalar α] in
theorem size_add (a b : Inertia) : (a + b).size = a.size + b.size := by
  have h : (a + b).size =
    a.positive + b.positive + (a.negative + b.negative) + (a.zero + b.zero) := rfl
  rw [h, size, size]
  omega

theorem size_ofNumber (x : α) : (ofNumber x).size = 1 := by
  rw [ofNumber]
  split
  · rfl
  · split <;> rfl

/-- Every branch counts two, also where the determinant is not a number. -/
theorem size_ofPair (a b c : α) : (ofPair a b c).size = 2 := by
  simp only [ofPair]
  split
  · rfl
  · split
    · rw [size_add, size_ofNumber]
    · rw [size_add, size_ofNumber]
      rfl

end Inertia

namespace Ldl

variable {α : Type} {n : ℕ}

/-! ### Blocks and their entries -/

namespace Block

/-- The columns of a block. -/
def columns : Block n → List (Fin n)
  | single k _ => [k]
  | pair k l _ => [k, l]

/-- The entries of the record that stand for a block.  Counted from one, the row that was brought
into place is that of the block's last column or one below it. -/
def Recorded (record : Record n) : Block n → Prop
  | single k p => k ≤ p ∧ record.get k = p.val + 1
  | pair k l p => l.val = k.val + 1 ∧ l ≤ p ∧ record.get k = -(p.val + 1) ∧
      record.get l = -(p.val + 1)

end Block

namespace Record.Names

variable {record : Record n} {k : ℕ} {blocks : List (Block n)}

theorem splits (h : record.Names k blocks) : record.Splits k := by
  induction h with
  | done => exact .done
  | single k p le entry _ ih => exact .single k p le entry ih
  | pair k l p next le entry entry' _ ih => exact .pair k l p next le entry entry' ih

theorem recorded (h : record.Names k blocks) : ∀ block ∈ blocks, block.Recorded record := by
  induction h with
  | done => nofun
  | single k p le entry _ ih => exact List.forall_mem_cons.mpr ⟨⟨le, entry⟩, ih⟩
  | pair k l p next le entry entry' _ ih =>
    exact List.forall_mem_cons.mpr ⟨⟨next, le, entry, entry'⟩, ih⟩

end Record.Names

/-- The blocks are consecutive and leave out no column. -/
theorem Record.Reads.columns_eq {record : Record n} {k : ℕ} {blocks : List (Block n)}
    (h : record.Reads k blocks) : blocks.flatMap Block.columns = (List.finRange n).drop k := by
  have hdrop (j : Fin n) :
      (List.finRange n).drop j.val = j :: (List.finRange n).drop (j.val + 1) := by
    have hj : j.val < (List.finRange n).length := by
      rw [List.length_finRange]
      exact j.isLt
    rw [List.drop_eq_getElem_cons hj, List.getElem_finRange]
    rfl
  induction h with
  | done => rw [List.drop_eq_nil_of_le (Nat.le_of_eq (List.length_finRange)), List.flatMap_nil]
  | single k p _ _ ih =>
    rw [List.flatMap_cons, ih, hdrop k]
    rfl
  | pair k l p next _ _ ih =>
    rw [List.flatMap_cons, ih, hdrop k, ← next, hdrop l, next]
    rfl

/-! ### The three passes -/

namespace Block

variable [Scalar α]

/-- What the forward sweep does at a block. -/
def undo (A : Grid n n α) (b : Vector α n) : Block n → Vector α n
  | single k p => undoSingle A (swapEntries b k p) k
  | pair k l p => undoPair A (swapEntries b l p) k l

/-- What the backward sweep does at a block. -/
def undoTransposed (A : Grid n n α) (z : Vector α n) : Block n → Vector α n
  | single k p => swapEntries (reduceBy A z k k) k p
  | pair k l p => swapEntries (reduceBy A (reduceBy A z l l) k l) l p

theorem size_inertia (A : Grid n n α) (block : Block n) :
    (block.inertia A).size = block.columns.length := by
  cases block with
  | single k p => exact Inertia.size_ofNumber _
  | pair k l p => exact Inertia.size_ofPair _ _ _

end Block

namespace Record.Names

variable [Scalar α] {record : Record n} {k : ℕ} {blocks : List (Block n)}

/-- The forward sweep takes the blocks from the first to the last. -/
theorem forward_eq (h : record.Names k blocks) (A : Grid n n α) (b : Vector α n) :
    forward A record b k = .ok (blocks.foldl (Block.undo A) b) := by
  induction h generalizing b with
  | done => exact forward_of_le b
  | single k p _ entry _ ih => rw [forward_single b entry, ih, List.foldl_cons, Block.undo]
  | pair k l p next _ entry _ _ ih =>
    rw [forward_pair b next entry, ih, List.foldl_cons, Block.undo]

/-- The backward sweep from the last column down to column `k` takes the same blocks from the last
to the first. -/
theorem backward_eq (h : record.Names k blocks) (hk : k ≤ n) (A : Grid n n α) (z : Vector α n) :
    backward A record n (Nat.le_refl n) z =
      backward A record k hk (blocks.foldr (fun block z => block.undoTransposed A z) z) := by
  induction h with
  | done => rfl
  | single k p _ entry _ ih => rw [ih k.isLt, backward_single _ entry]; rfl
  | pair k l p next _ _ entry' _ ih =>
    have hk2 : k.val + 2 ≤ n := by
      have := l.isLt
      omega
    rw [ih hk2, backward_pair _ next entry' hk2]
    rfl

end Record.Names

/-- As many eigenvalues are counted as the blocks have columns. -/
theorem size_foldl_inertia [Scalar α] (A : Grid n n α) (blocks : List (Block n)) (seen : Inertia) :
    (blocks.foldl (fun seen block => seen + block.inertia A) seen).size =
      seen.size + (blocks.flatMap Block.columns).length := by
  induction blocks generalizing seen with
  | nil => rfl
  | cons block blocks ih =>
    rw [List.foldl_cons, ih, Inertia.size_add, Block.size_inertia, List.flatMap_cons,
      List.length_append, Nat.add_assoc]

/-- The passes over a record visit these blocks, whatever the matrix holds. -/
structure Visits [Scalar α] (B : Grid n n α) (record : Record n) (blocks : List (Block n)) :
    Prop where
  /-- The forward sweep, from the first block to the last. -/
  forward (b : Vector α n) : forward B record b 0 = .ok (blocks.foldl (Block.undo B) b)
  /-- The backward sweep, from the last block to the first. -/
  backward (z : Vector α n) : backward B record n (Nat.le_refl n) z =
    .ok (blocks.foldr (fun block z => block.undoTransposed B z) z)
  /-- A solution comes to an end. -/
  solve (b : Vector α n) : ∃ x, solve (.ofGrid B) record b.toArray = .ok x
  /-- The reading of the inertia, from the first block to the last. -/
  inertia : inertia (.ofGrid B) record =
    .ok (blocks.foldl (fun seen block => seen + block.inertia B) .none)
  /-- Every column is counted once. -/
  counts {counts : Inertia} (h : Ldl.inertia (.ofGrid B) record = .ok counts) :
    counts.positive + counts.negative + counts.zero = n

theorem Record.Names.visits [Scalar α] {record : Record n} {blocks : List (Block n)}
    (h : record.Names 0 blocks) (B : Grid n n α) : Visits B record blocks := by
  have hinertia := h.reads.inertiaFrom_eq (fun i j _ => Matrix.entry_ofGrid B i j) .none
  refine ⟨fun b => h.forward_eq B b, fun z => h.backward_eq (Nat.zero_le n) B z, fun b => ?_,
    hinertia, fun {counts} hcounts => ?_⟩
  · obtain ⟨z, hz⟩ := exists_solves (A := B) h.splits b
    exact ⟨z, (solve_ofGrid B record b).trans (solveGrid_of_solves hz)⟩
  · cases hinertia.symm.trans hcounts
    have hsize := size_foldl_inertia B blocks .none
    rw [h.reads.columns_eq, List.drop_zero, List.length_finRange] at hsize
    exact hsize.trans (Nat.zero_add n)

/-! ### The record of a factorization -/

/-- **The record of a factorization is well formed.**  Whatever a square matrix holds and whatever
the record held before, a factorization ends, without an error or with the number of a column that
counted as zero.  The record that it leaves splits the columns into consecutive blocks of order one
and two, each of which names a row of the trailing matrix, and all passes over the record visit
these blocks. -/
theorem factor_record [Scalar α] [PivotRules α] (A : Grid n n α) (old : Record n) :
    ∃ (answer : Except FactorizationError Unit) (F : Grid n n α) (record : Record n)
      (blocks : List (Block n)),
      factor (.ofGrid A) old = .ok ⟨answer, (.ofGrid F, record)⟩ ∧
      (answer = .ok () ∨ ∃ k : ℕ, 1 ≤ k ∧ k ≤ n ∧ answer = .error (.zeroPivot k)) ∧
      record.blocks = .ok blocks ∧
      (∀ block ∈ blocks, block.Recorded record) ∧
      blocks.flatMap Block.columns = List.finRange n ∧
      ∀ B : Grid n n α, Visits B record blocks := by
  obtain ⟨t, hsweeps, hfactor⟩ := exists_factorGrid A old
  obtain ⟨blocks, names⟩ := hsweeps.splits.exists_names
  refine ⟨if t.info = 0 then .ok () else .error (.zeroPivot t.info), t.grid, t.record, blocks,
    ?_, ?_, names.reads.blocksFrom_eq, names.recorded, names.reads.columns_eq, names.visits⟩
  · rw [factor_ofGrid, hfactor]
    rfl
  · by_cases hinfo : t.info = 0
    · exact .inl (if_pos hinfo)
    · exact .inr ⟨t.info, Nat.pos_of_ne_zero hinfo, hsweeps.info_le (Nat.zero_le n), if_neg hinfo⟩

/-- A matrix of order three.  No entry of its first column reaches the threshold, because those below
the diagonal are no numbers. -/
def nanBelowOne : Grid 3 3 Float :=
  .ofFn fun i j => if i = 0 ∧ j = 0 then 1 else if i = 2 ∧ j = 1 then 5 else 0 / 0

/-- The first two columns form a block and the third one counts as zero. -/
theorem factor_record_nanBelowOne :
    ∃ (F : Grid 3 3 Float) (record : Record 3),
      factor (.ofGrid nanBelowOne) (Vector.replicate 3 0) =
        .ok ⟨.error (.zeroPivot 3), (.ofGrid F, record)⟩ ∧
      record = #v[-2, -2, 3] ∧
      ∀ B : Grid 3 3 Float, Visits B record [.pair 0 1 1, .single 2 2] := by
  have hdone : (fun reply => (reply.answer, reply.state.2)) <$>
      factor (.ofGrid nanBelowOne) (Vector.replicate 3 0) =
        .ok (.error (.zeroPivot 3), #v[-2, -2, 3]) := by
    decide +kernel
  obtain ⟨answer, F, record, blocks, hfactor, -, hblocks, -, -, hvisits⟩ :=
    factor_record nanBelowOne (Vector.replicate 3 0)
  rw [hfactor] at hdone
  cases hdone
  have hread : Record.blocks #v[-2, -2, 3] = .ok [.pair 0 1 1, .single 2 2] := by
    decide +kernel
  cases hread.symm.trans hblocks
  exact ⟨F, _, hfactor, rfl, hvisits⟩

end Ldl

end ConicSaddle
