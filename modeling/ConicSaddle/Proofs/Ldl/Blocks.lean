import ConicSaddle.Ldl.Solve
import ConicSaddle.Proofs.Checked
import ConicSaddle.Proofs.Ldl.Substitution

/-!
# Blocks of a factorization

The pivot record read as the list of the blocks of the factors, from the first column to the last.

* `Block n`: the columns of a block, with the row that was brought into place;
* `Record.blocks`: the blocks that a record names, read as the sweeps of a solution read them;
* `Record.Reads`: the record, read from a column on, gives a list of blocks one after the other;
* `Record.Names`: all its entries name them, as those of every record that splits the columns do;
* `BlockSweeps`, `Sweeps.blockSweeps`: a sweep with the blocks of its steps.
-/

namespace ConicSaddle.Ldl

variable {α : Type} {n : ℕ}

/-- A block of the factors. -/
inductive Block (n : ℕ)
  /-- Column `k`, to whose diagonal row `p` was brought. -/
  | single (k p : Fin n)
  /-- Columns `k` and `l`, to the second of which row `p` was brought. -/
  | pair (k l p : Fin n)
  deriving DecidableEq, Repr

namespace Block

/-- The first column of a block. -/
def first : Block n → Fin n
  | single k _ => k
  | pair k _ _ => k

/-- The last column of a block. -/
def last : Block n → Fin n
  | single k _ => k
  | pair _ l _ => l

/-- The row that was exchanged with the last column of a block. -/
def row : Block n → Fin n
  | single _ p => p
  | pair _ _ p => p

end Block

/-! ### Reading the record -/

/-- The blocks from column `k` on. -/
def Record.blocksFrom (record : Record n) (k : ℕ) : Checked (List (Block n)) :=
  if h : k < n then
    if 0 < record[k] then do
      let p ← rowOf record[k]
      let rest ← record.blocksFrom (k + 1)
      pure (.single ⟨k, h⟩ p :: rest)
    else if h2 : k + 1 < n then do
      let p ← rowOf (-record[k])
      let rest ← record.blocksFrom (k + 2)
      pure (.pair ⟨k, h⟩ ⟨k + 1, h2⟩ p :: rest)
    else
      throw .position
  else
    pure []
termination_by n - k

/-- All blocks. -/
def Record.blocks (record : Record n) : Checked (List (Block n)) := record.blocksFrom 0

theorem blocksFrom_of_le {record : Record n} {k : ℕ} (h : n ≤ k) :
    record.blocksFrom k = .ok [] := by
  rw [Record.blocksFrom, dif_neg (Nat.not_lt.mpr h)]
  rfl

theorem blocksFrom_single {record : Record n} {k p : Fin n}
    (entry : record.get k = p.val + 1) :
    record.blocksFrom k = (Block.single k p :: ·) <$> record.blocksFrom (k + 1) := by
  have hk : record[k.val] = (p.val : Int) + 1 := entry
  rw [Record.blocksFrom, dif_pos k.isLt, if_pos (by omega), hk, rowOf_eq_ok]
  rfl

theorem blocksFrom_pair {record : Record n} {k l p : Fin n} (next : l.val = k.val + 1)
    (entry : record.get k = -(p.val + 1)) :
    record.blocksFrom k = (Block.pair k l p :: ·) <$> record.blocksFrom (k + 2) := by
  have hk : record[k.val] = -((p.val : Int) + 1) := entry
  have hlt : k.val + 1 < n := next ▸ l.isLt
  obtain rfl : l = ⟨k.val + 1, hlt⟩ := Fin.ext next
  rw [Record.blocksFrom, dif_pos k.isLt, if_neg (by omega), dif_pos hlt, hk, Int.neg_neg,
    rowOf_eq_ok]
  rfl

/-- These blocks are read from column `k` on.  The sign of the first entry of a block tells its
order, and the second entry of a block of order two is not read. -/
inductive Record.Reads (record : Record n) : ℕ → List (Block n) → Prop
  | done : record.Reads n []
  | single {rest : List (Block n)} (k p : Fin n) (entry : record.get k = p.val + 1)
      (later : record.Reads (k.val + 1) rest) : record.Reads k.val (.single k p :: rest)
  | pair {rest : List (Block n)} (k l p : Fin n) (next : l.val = k.val + 1)
      (entry : record.get k = -(p.val + 1)) (later : record.Reads (k.val + 2) rest) :
      record.Reads k.val (.pair k l p :: rest)

/-- The record, read from column `k` on, names these blocks. -/
inductive Record.Names (record : Record n) : ℕ → List (Block n) → Prop
  | done : record.Names n []
  | single {rest : List (Block n)} (k p : Fin n) (le : k ≤ p) (entry : record.get k = p.val + 1)
      (names : record.Names (k.val + 1) rest) : record.Names k.val (.single k p :: rest)
  | pair {rest : List (Block n)} (k l p : Fin n) (next : l.val = k.val + 1) (le : l ≤ p)
      (entry : record.get k = -(p.val + 1)) (entry' : record.get l = -(p.val + 1))
      (names : record.Names (k.val + 2) rest) : record.Names k.val (.pair k l p :: rest)

namespace Record

variable {record : Record n} {k : ℕ} {blocks : List (Block n)}

theorem Reads.blocksFrom_eq (h : record.Reads k blocks) : record.blocksFrom k = .ok blocks := by
  induction h with
  | done => exact blocksFrom_of_le (Nat.le_refl n)
  | single k p entry _ ih => rw [blocksFrom_single entry, ih, Checked.map_ok]
  | pair k l p next entry _ ih => rw [blocksFrom_pair next entry, ih, Checked.map_ok]

/-- A list of blocks that is read goes through the record block by block. -/
theorem reads_of_blocksFrom (hk : k ≤ n) (h : record.blocksFrom k = .ok blocks) :
    record.Reads k blocks := by
  induction hm : n - k using Nat.strongRecOn generalizing k blocks with
  | ind m ih =>
    rw [blocksFrom] at h
    by_cases hlt : k < n
    · rw [dif_pos hlt] at h
      by_cases hpos : 0 < record[k]
      · rw [if_pos hpos] at h
        obtain ⟨p, hp, h⟩ := Checked.bind_eq_ok.mp h
        obtain ⟨rest, hrest, h⟩ := Checked.bind_eq_ok.mp h
        cases h
        have later : record.Reads (k + 1) rest := ih (n - (k + 1)) (by omega) hlt hrest rfl
        exact .single ⟨k, hlt⟩ p (rowOf_eq_ok_iff.mp hp) later
      · rw [if_neg hpos] at h
        by_cases hnext : k + 1 < n
        · rw [dif_pos hnext] at h
          obtain ⟨p, hp, h⟩ := Checked.bind_eq_ok.mp h
          obtain ⟨rest, hrest, h⟩ := Checked.bind_eq_ok.mp h
          cases h
          have hentry : record[k] = -((p.val : Int) + 1) := by
            rw [← rowOf_eq_ok_iff.mp hp, Int.neg_neg]
          have later : record.Reads (k + 2) rest := ih (n - (k + 2)) (by omega) hnext hrest rfl
          exact .pair ⟨k, hlt⟩ ⟨k + 1, hnext⟩ p rfl hentry later
        · rw [dif_neg hnext] at h
          cases h
    · rw [dif_neg hlt] at h
      cases h
      obtain rfl : k = n := by omega
      exact .done

/-- Blocks from a column on lie behind it. -/
theorem Reads.le_first (h : record.Reads k blocks) : ∀ b ∈ blocks, k ≤ b.first.val := by
  induction h with
  | done => nofun
  | single k p _ _ ih =>
    refine List.forall_mem_cons.mpr ⟨Nat.le_refl _, fun b hb => ?_⟩
    exact Nat.le_trans (Nat.le_succ k.val) (ih b hb)
  | pair k l p _ _ _ ih =>
    refine List.forall_mem_cons.mpr ⟨Nat.le_refl _, fun b hb => ?_⟩
    exact Nat.le_trans (Nat.le_add_right k.val 2) (ih b hb)

theorem Splits.exists_names (h : record.Splits k) : ∃ blocks, record.Names k blocks := by
  induction h with
  | done => exact ⟨[], .done⟩
  | single k p le entry _ ih =>
    obtain ⟨rest, names⟩ := ih
    exact ⟨_, .single k p le entry names⟩
  | pair k l p next le entry entry' _ ih =>
    obtain ⟨rest, names⟩ := ih
    exact ⟨_, .pair k l p next le entry entry' names⟩

/-- The blocks that are named are read. -/
theorem Names.reads (h : record.Names k blocks) : record.Reads k blocks := by
  induction h with
  | done => exact .done
  | single k p _ entry _ ih => exact .single k p entry ih
  | pair k l p next _ entry _ _ ih => exact .pair k l p next entry ih

/-- A record that splits the columns can be read. -/
theorem Splits.exists_blocksFrom (h : record.Splits k) :
    ∃ blocks, record.blocksFrom k = .ok blocks := by
  obtain ⟨blocks, names⟩ := h.exists_names
  exact ⟨blocks, names.reads.blocksFrom_eq⟩

theorem Splits.le_first (h : record.Splits k) (hb : record.blocksFrom k = .ok blocks) :
    ∀ b ∈ blocks, k ≤ b.first.val := by
  obtain ⟨blocks', names⟩ := h.exists_names
  cases names.reads.blocksFrom_eq.symm.trans hb
  exact names.reads.le_first

end Record

variable [Scalar α]

/-! ### The blocks of a sweep -/

/-- The steps from column `k` on, each with its block in front of the blocks of the later ones.  A
column that counts as zero is a block of order one. -/
inductive BlockSweeps (t : Progress n α) : ℕ → Progress n α → List (Block n) → Prop
  | done : BlockSweeps t n t []
  | skip {s : Progress n α} (k : Fin n) {tail : List (Block n)}
      (choice : choosePivot s.grid k = .zeroColumn) (rest : Sweeps (k.val + 1) (s.skip k) t)
      (behind : ∀ b ∈ tail, k.val + 1 ≤ b.first.val)
      (later : BlockSweeps t (k.val + 1) (s.skip k) tail) :
      BlockSweeps t k s (.single k k :: tail)
  | single {s : Progress n α} (k p : Fin n) {tail : List (Block n)}
      (choice : choosePivot s.grid k = .single p) (rest : Sweeps (k.val + 1) (s.single k p) t)
      (behind : ∀ b ∈ tail, k.val + 1 ≤ b.first.val)
      (later : BlockSweeps t (k.val + 1) (s.single k p) tail) :
      BlockSweeps t k s (.single k p :: tail)
  | pair {s : Progress n α} (k l p : Fin n) {tail : List (Block n)} (next : l.val = k.val + 1)
      (choice : choosePivot s.grid k = .pair p) (rest : Sweeps (l.val + 1) (s.pair k l p) t)
      (behind : ∀ b ∈ tail, l.val + 1 ≤ b.first.val)
      (later : BlockSweeps t (l.val + 1) (s.pair k l p) tail) :
      BlockSweeps t k s (.pair k l p :: tail)

/-- The blocks that the record of a sweep names are those of its steps. -/
theorem Sweeps.blockSweeps {k : ℕ} {s t : Progress n α} (h : Sweeps k s t)
    {blocks : List (Block n)} (hb : t.record.blocksFrom k = .ok blocks) :
    BlockSweeps t k s blocks := by
  induction h generalizing blocks with
  | done s =>
    cases (blocksFrom_of_le (Nat.le_refl n)).symm.trans hb
    exact .done
  | skip k choice rest ih =>
    rw [blocksFrom_single rest.record_skip, Checked.map_eq_ok] at hb
    obtain ⟨tail, htail, rfl⟩ := hb
    exact .skip k choice rest (rest.splits.le_first htail) (ih htail)
  | single k p choice rest ih =>
    rw [blocksFrom_single rest.record_single, Checked.map_eq_ok] at hb
    obtain ⟨tail, htail, rfl⟩ := hb
    exact .single k p choice rest (rest.splits.le_first htail) (ih htail)
  | pair k l p next choice rest ih =>
    rw [blocksFrom_pair next (rest.record_pair next).1, Checked.map_eq_ok] at hb
    obtain ⟨tail, htail, rfl⟩ := hb
    have hnext : k.val + 2 = l.val + 1 := by omega
    rw [hnext] at rest ih htail
    exact .pair k l p next choice rest (rest.splits.le_first htail) (ih htail)

end ConicSaddle.Ldl
