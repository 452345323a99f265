import ConicSaddle.Proofs.Dense.Block

/-!
# Block writes in place

A block write checks its place and its size before it touches the matrix, and then writes one strip
of a column after the other.  In the storage every strip is a slice at a place that is counted in
machine words, and what was written stays when a later strip faults.  No strip of a block that
passed the check does.

* `Strip`, `BlockWrite`: what is written, with the three kinds of blocks;
* `Matrix.writeStrips`, `BlockWrite.run`: the writes in the storage, in their order;
* `Grid.setBlock_eq`, `Grid.fillBlock_eq`, `Grid.setBlockDiagonal_eq`: the calls as block writes;
* `writeStrips_eq`: strips that lie in their columns are written without a fault;
* `BlockWrite.Exact`: a call that writes its block and nothing else;
* `block_writes_exact`: the three calls do.
-/

namespace ConicSaddle

variable {α : Type} {m n : ℕ}

/-! ### What is written -/

/-- Entries for consecutive rows of a column. -/
structure Strip (α : Type) where
  row : ℕ
  col : ℕ
  entries : Array α

/-- A block write: the place and the size that are checked, and the strips that are written then. -/
structure BlockWrite (α : Type) where
  row : ℕ
  col : ℕ
  height : ℕ
  width : ℕ
  strips : List (Strip α)

namespace BlockWrite

/-- A block copied from another matrix. -/
def copy (row col : ℕ) (B : Matrix α) : BlockWrite α where
  row := row
  col := col
  height := B.rows
  width := B.cols
  strips := (List.finRange B.cols).map fun j => ⟨row, col + j.val, (B.grid.col j).toArray⟩

/-- A block of one value. -/
def fill (row col height width : ℕ) (c : α) : BlockWrite α where
  row := row
  col := col
  height := height
  width := width
  strips := (List.range' col width).map fun j => ⟨row, j, .replicate height c⟩

/-- The diagonal of a square block. -/
def diagonal (start len : ℕ) (c : α) : BlockWrite α where
  row := start
  col := start
  height := len
  width := len
  strips := (List.range' start len).map fun i => ⟨i, i, #[c]⟩

/-- The block lies inside the matrix. -/
def Inside (w : BlockWrite α) (A : Matrix α) : Prop :=
  w.row + w.height ≤ A.rows ∧ w.col + w.width ≤ A.cols

instance (w : BlockWrite α) (A : Matrix α) : Decidable (w.Inside A) :=
  inferInstanceAs (Decidable (_ ∧ _))

end BlockWrite

/-! ### The writes in the storage -/

/-- A strip written into the storage at a place that is counted in machine words. -/
def Matrix.writeStrip (A : Matrix α) (s : Strip α) : Checked (Matrix α) := do
  let offset ← Word.mul A.rows s.col
  let start ← Word.add s.row offset
  let _ ← Word.add start s.entries.size
  A.modify fun g => Grid.mk <$> splice g.entries start s.entries

/-- Strips one after the other.  The first that faults ends the call, and what was written before it
stays. -/
def Matrix.writeStrips (A : Matrix α) : List (Strip α) → Reply Fault Unit (Matrix α)
  | [] => ⟨.ok (), A⟩
  | s :: strips =>
    match A.writeStrip s with
    | .error fault => ⟨.error fault, A⟩
    | .ok B => B.writeStrips strips

namespace BlockWrite

/-- The check of the place and the size, with both sums counted in machine words. -/
def check (w : BlockWrite α) (A : Matrix α) : Checked Unit := do
  let rowStop ← Word.add w.row w.height
  require (rowStop ≤ A.rows) .shape
  let colStop ← Word.add w.col w.width
  require (colStop ≤ A.cols) .shape

/-- The answer of a block write, with the matrix that it leaves. -/
def run (w : BlockWrite α) (A : Matrix α) : Reply Fault Unit (Matrix α) :=
  match w.check A with
  | .error fault => ⟨.error fault, A⟩
  | .ok () => A.writeStrips w.strips

end BlockWrite

/-! ### The calls as block writes -/

namespace Grid

/-- A block write, for its result alone. -/
def writeBlock (A : Grid m n α) (w : BlockWrite α) : Checked (Grid m n α) := do
  require (w.row + w.height ≤ m ∧ w.col + w.width ≤ n) .shape
  w.strips.foldlM (fun A s => A.writeSlice s.row s.col s.entries) A

theorem setBlock_eq (A : Grid m n α) (row col : ℕ) (B : Matrix α) :
    A.setBlock row col B.grid = A.writeBlock (.copy row col B) := by
  unfold setBlock writeBlock BlockWrite.copy
  rw [List.foldlM_map]

theorem fillBlock_eq (A : Grid m n α) (row col p q : ℕ) (c : α) :
    A.fillBlock row col p q c = A.writeBlock (.fill row col p q c) := by
  unfold fillBlock writeBlock BlockWrite.fill
  rw [List.foldlM_map]

theorem setBlockDiagonal_eq (A : Grid m n α) (start len : ℕ) (c : α) :
    A.setBlockDiagonal start len c = A.writeBlock (.diagonal start len c) := by
  unfold setBlockDiagonal writeBlock BlockWrite.diagonal
  rw [List.foldlM_map]

end Grid

/-! ### Strips in their columns -/

/-- The size of the matrix and the number of its entries are machine words. -/
def Matrix.Addressable (A : Matrix α) : Prop :=
  A.rows < Word.limit ∧ A.cols < Word.limit ∧ A.rows * A.cols < Word.limit

instance (A : Matrix α) : Decidable A.Addressable :=
  inferInstanceAs (Decidable (_ ∧ _ ∧ _))

/-- The strip lies in a column of a matrix of the size. -/
def Strip.Fits (s : Strip α) (m n : ℕ) : Prop := s.row + s.entries.size ≤ m ∧ s.col < n

namespace Matrix

open Word (fit_of_lt)

/-- A strip that lies in a column is a slice, and its place does not overflow. -/
theorem writeStrip_eq (g : Grid m n α) (hg : (ofGrid g).Addressable) {s : Strip α}
    (hs : s.Fits m n) :
    (ofGrid g).writeStrip s = (ofGrid g).modify (·.writeSlice s.row s.col s.entries) := by
  obtain ⟨-, -, hentries⟩ := hg
  obtain ⟨hrow, hcol⟩ := hs
  have hplace : m * (s.col + 1) ≤ m * n := Nat.mul_le_mul_left m hcol
  rw [Nat.mul_succ] at hplace
  have hlimit : m * n < Word.limit := hentries
  have hoffset : Word.mul m s.col = .ok (m * s.col) := fit_of_lt (by omega)
  have hstart : Word.add s.row (m * s.col) = .ok (s.row + m * s.col) := fit_of_lt (by omega)
  have hstop : Word.add (s.row + m * s.col) s.entries.size =
      .ok (s.row + m * s.col + s.entries.size) := fit_of_lt (by omega)
  have hoffset' : Word.mul (ofGrid g).rows s.col = .ok (m * s.col) := hoffset
  rw [writeStrip, hoffset', Checked.ok_bind, hstart, Checked.ok_bind, hstop, Checked.ok_bind]
  rfl

/-- Strips that lie in their columns are written without a fault.  The induction is on the strips,
and every strip leaves a matrix of the same size. -/
theorem writeStrips_eq {g h : Grid m n α} (hg : (ofGrid g).Addressable) {strips : List (Strip α)}
    (hfits : ∀ s ∈ strips, s.Fits m n)
    (hresult : strips.foldlM (fun g s => g.writeSlice s.row s.col s.entries) g = .ok h) :
    (ofGrid g).writeStrips strips = ⟨.ok (), ofGrid h⟩ := by
  induction strips generalizing g with
  | nil =>
    cases hresult
    rfl
  | cons s strips ih =>
    rw [List.foldlM_cons] at hresult
    obtain ⟨g', hg', hrest⟩ := Checked.bind_eq_ok.mp hresult
    have hstrip : (ofGrid g).writeStrip s = .ok (ofGrid g') := by
      rw [writeStrip_eq g hg (hfits s List.mem_cons_self)]
      exact congrArg (Functor.map ofGrid) hg'
    rw [writeStrips, hstrip]
    exact ih hg (fun s' hs' => hfits s' (List.mem_cons_of_mem s hs')) hrest

end Matrix

namespace BlockWrite

variable {w : BlockWrite α}

/-- A block passes the check exactly if it lies inside. -/
theorem check_eq_ok_iff {A : Matrix α} (hA : A.Addressable) : w.check A = .ok () ↔ w.Inside A := by
  obtain ⟨hrows, hcols, -⟩ := hA
  unfold check Inside Word.add
  constructor
  · intro h
    obtain ⟨rowStop, hrow, h⟩ := Checked.bind_eq_ok.mp h
    obtain ⟨u, hrowInside, h⟩ := Checked.bind_eq_ok.mp h
    obtain ⟨colStop, hcol, h⟩ := Checked.bind_eq_ok.mp h
    obtain ⟨-, rfl⟩ := Word.fit_eq_ok_iff.mp hrow
    obtain ⟨-, rfl⟩ := Word.fit_eq_ok_iff.mp hcol
    constructor
    · by_contra hout
      rw [require_of_neg hout] at hrowInside
      cases hrowInside
    · by_contra hout
      rw [require_of_neg hout] at h
      cases h
  · rintro ⟨hrow, hcol⟩
    rw [Word.fit_of_lt (by omega), Checked.ok_bind, require_of_pos hrow, Checked.ok_bind,
      Word.fit_of_lt (by omega), Checked.ok_bind, require_of_pos hcol]

/-- A block that does not lie inside is refused before anything is written. -/
theorem run_of_not_inside {A : Matrix α} (hA : A.Addressable) (h : ¬w.Inside A) :
    ∃ fault, w.run A = ⟨.error fault, A⟩ := by
  cases hcheck : w.check A with
  | ok u => exact absurd ((check_eq_ok_iff hA).mp hcheck) h
  | error fault =>
    rw [run, hcheck]
    exact ⟨fault, rfl⟩

/-! ### Calls that write their block -/

/-- The call is answered exactly if its block lies inside the matrix.  It then leaves a matrix of the
same size, which has the given values in the covered places and its old entries elsewhere, and the
writes in the storage leave that matrix.  If it is not answered, they leave the matrix as it was. -/
structure Exact (w : BlockWrite α) (A : Matrix α) (call : Checked (Matrix α))
    (covers : ℕ → ℕ → Prop) (value : ℕ → ℕ → Checked α) : Prop where
  answered_iff : (∃ C, call = .ok C) ↔ w.Inside A
  size_eq : ∀ C, call = .ok C → C.size = A.size ∧ C.toArray.size = A.rows * A.cols
  written : ∀ C, call = .ok C → ∀ i < A.rows, ∀ j < A.cols, covers i j → C.entry i j = value i j
  kept : ∀ C, call = .ok C → ∀ i < A.rows, ∀ j < A.cols, ¬covers i j → C.entry i j = A.entry i j
  stored : ∀ C, call = .ok C → w.run A = ⟨.ok (), C⟩
  untouched : (¬∃ C, call = .ok C) → ∃ fault, w.run A = ⟨.error fault, A⟩

/-- A call is exact if the strips of a block inside the matrix lie in their columns, and its result
has the values of the block where it covers and the old entries elsewhere. -/
theorem exact_of_result {g : Grid m n α} (hg : (Matrix.ofGrid g).Addressable)
    {call : Grid m n α → Checked (Grid m n α)} {covers : ℕ → ℕ → Prop}
    [∀ i j, Decidable (covers i j)] {value : ℕ → ℕ → Checked α} (entry : ℕ → ℕ → α)
    (hcall : call g = g.writeBlock w)
    (hfits : w.Inside (.ofGrid g) → ∀ s ∈ w.strips, s.Fits m n)
    (hresult : w.Inside (.ofGrid g) → ∃ h, call g = .ok h ∧ ∀ (i : Fin m) (j : Fin n),
      h.get i j = if covers i j then entry i j else g.get i j)
    (hvalue : ∀ i j, covers i j → .ok (entry i j) = value i j) :
    w.Exact (.ofGrid g) ((Matrix.ofGrid g).modify call) covers value := by
  have hmodify : (Matrix.ofGrid g).modify call = Matrix.ofGrid <$> call g := rfl
  rw [hmodify]
  by_cases hin : w.Inside (.ofGrid g)
  · have hinside : w.row + w.height ≤ m ∧ w.col + w.width ≤ n := hin
    obtain ⟨h, hh, hget⟩ := hresult hin
    have hstored : w.run (.ofGrid g) = ⟨.ok (), .ofGrid h⟩ := by
      rw [run, (check_eq_ok_iff hg).mpr hin]
      refine Matrix.writeStrips_eq hg (hfits hin) ?_
      rw [hcall, Grid.writeBlock, require_of_pos hinside, Checked.ok_bind] at hh
      exact hh
    rw [hh, Checked.map_ok]
    constructor
    case answered_iff => exact ⟨fun _ => hin, fun _ => ⟨_, rfl⟩⟩
    case size_eq =>
      rintro C ⟨⟩
      exact ⟨rfl, Vector.size_toArray _⟩
    case written =>
      rintro C ⟨⟩ i hi j hj hcover
      refine (Matrix.entry_ofGrid h ⟨i, hi⟩ ⟨j, hj⟩).trans ?_
      rw [hget, if_pos hcover, hvalue i j hcover]
    case kept =>
      rintro C ⟨⟩ i hi j hj hcover
      refine (Matrix.entry_ofGrid h ⟨i, hi⟩ ⟨j, hj⟩).trans ?_
      rw [hget, if_neg hcover]
      exact (Matrix.entry_ofGrid g ⟨i, hi⟩ ⟨j, hj⟩).symm
    case stored =>
      rintro C ⟨⟩
      exact hstored
    case untouched =>
      intro hnone
      exact absurd ⟨_, rfl⟩ hnone
  · have houtside : ¬(w.row + w.height ≤ m ∧ w.col + w.width ≤ n) := hin
    have hrefused : Matrix.ofGrid <$> call g = .error .shape := by
      rw [hcall, Grid.writeBlock, require_of_neg houtside]
      rfl
    rw [hrefused]
    constructor
    case answered_iff => exact ⟨nofun, fun h => absurd h hin⟩
    case untouched => exact fun _ => run_of_not_inside hg hin
    all_goals nofun

end BlockWrite

section Calls

variable [Scalar α]

/-- A block copied from another matrix is written exactly. -/
theorem Matrix.setBlock_exact {g : Grid m n α} (hg : (ofGrid g).Addressable) (row col : ℕ)
    (B : Matrix α) :
    (BlockWrite.copy row col B).Exact (ofGrid g) ((ofGrid g).modify (·.setBlock row col B.grid))
      (fun i j => row ≤ i ∧ i < row + B.rows ∧ col ≤ j ∧ j < col + B.cols)
      fun i j => B.entry (i - row) (j - col) := by
  refine BlockWrite.exact_of_result hg (fun i j => B.grid.at (i - row) (j - col))
    (g.setBlock_eq row col B) ?_ (Grid.exists_setBlock g row col B.grid) ?_
  · rintro ⟨hrow, hcol⟩ s hs
    obtain ⟨c, -, rfl⟩ := List.mem_map.mp hs
    constructor
    · rw [Vector.size_toArray]
      exact hrow
    · exact Nat.lt_of_lt_of_le (Nat.add_lt_add_left c.isLt col) hcol
  · rintro i j ⟨hi, hi', hj, hj'⟩
    exact (entry_of_lt B.grid (Nat.sub_lt_left_of_lt_add hi hi')
      (Nat.sub_lt_left_of_lt_add hj hj')).symm

/-- A block of one value is written exactly. -/
theorem Matrix.fillBlock_exact {g : Grid m n α} (hg : (ofGrid g).Addressable)
    (row col height width : ℕ) (c : α) :
    (BlockWrite.fill row col height width c).Exact (ofGrid g)
      ((ofGrid g).modify (·.fillBlock row col height width c))
      (fun i j => row ≤ i ∧ i < row + height ∧ col ≤ j ∧ j < col + width) fun _ _ => .ok c := by
  refine BlockWrite.exact_of_result hg (fun _ _ => c) (g.fillBlock_eq row col height width c) ?_
    (Grid.exists_fillBlock g row col height width c) fun _ _ _ => rfl
  rintro ⟨hrow, hcol⟩ s hs
  obtain ⟨j, hj, rfl⟩ := List.mem_map.mp hs
  constructor
  · rw [Array.size_replicate]
    exact hrow
  · exact Nat.lt_of_lt_of_le (List.mem_range'_1.mp hj).2 hcol

/-- The diagonal of a square block is written exactly. -/
theorem Matrix.setBlockDiagonal_exact {g : Grid m n α} (hg : (ofGrid g).Addressable)
    (start len : ℕ) (c : α) :
    (BlockWrite.diagonal start len c).Exact (ofGrid g)
      ((ofGrid g).modify (·.setBlockDiagonal start len c))
      (fun i j => i = j ∧ start ≤ j ∧ j < start + len) fun _ _ => .ok c := by
  refine BlockWrite.exact_of_result hg (fun _ _ => c) (g.setBlockDiagonal_eq start len c) ?_
    (Grid.exists_setBlockDiagonal g start len c) fun _ _ _ => rfl
  rintro ⟨hrow, hcol⟩ s hs
  obtain ⟨i, hi, rfl⟩ := List.mem_map.mp hs
  have hlt : i < start + len := (List.mem_range'_1.mp hi).2
  exact ⟨Nat.le_trans (Nat.succ_le_of_lt hlt) hrow, Nat.lt_of_lt_of_le hlt hcol⟩

/-- **A block write hits its block.**  At any place, for a block of any size, empty ones included, and
for any value, the three calls are answered exactly if the block lies inside the matrix.  They write
it and nothing else, and a block that does not lie inside leaves the storage as it was. -/
theorem block_writes_exact {A : Matrix α} (hA : A.Addressable) :
    (∀ (row col : ℕ) (B : Matrix α),
      (BlockWrite.copy row col B).Exact A (A.modify (·.setBlock row col B.grid))
        (fun i j => row ≤ i ∧ i < row + B.rows ∧ col ≤ j ∧ j < col + B.cols)
        fun i j => B.entry (i - row) (j - col)) ∧
    (∀ (row col height width : ℕ) (c : α),
      (BlockWrite.fill row col height width c).Exact A
        (A.modify (·.fillBlock row col height width c))
        (fun i j => row ≤ i ∧ i < row + height ∧ col ≤ j ∧ j < col + width) fun _ _ => .ok c) ∧
    ∀ (start len : ℕ) (c : α),
      (BlockWrite.diagonal start len c).Exact A (A.modify (·.setBlockDiagonal start len c))
        (fun i j => i = j ∧ start ≤ j ∧ j < start + len) fun _ _ => .ok c :=
  ⟨Matrix.setBlock_exact hA, Matrix.fillBlock_exact hA, Matrix.setBlockDiagonal_exact hA⟩

/-- A matrix of two rows and two columns. -/
def twoByTwo : Matrix Float := .ofGrid (.replicate 2 2 0)

/-- An empty block behind the last row of the last column writes nothing, a block that hangs over
the last row is refused, and on the diagonal of the matrix both places are written. -/
theorem block_writes_exact_twoByTwo :
    twoByTwo.Addressable ∧
    (∃ C, (BlockWrite.fill 2 1 0 1 1).run twoByTwo = ⟨.ok (), C⟩ ∧
      ∀ i < 2, ∀ j < 2, C.entry i j = twoByTwo.entry i j) ∧
    (∃ fault, (BlockWrite.copy 1 0 twoByTwo).run twoByTwo = ⟨.error fault, twoByTwo⟩) ∧
    ∃ C, (BlockWrite.diagonal 0 2 1).run twoByTwo = ⟨.ok (), C⟩ ∧
      C.entry 0 0 = .ok 1 ∧ C.entry 1 1 = .ok 1 ∧ C.entry 1 0 = twoByTwo.entry 1 0 := by
  have haddressable : twoByTwo.Addressable := by decide
  obtain ⟨hcopy, hfill, hdiagonal⟩ := block_writes_exact haddressable
  refine ⟨haddressable, ?_, ?_, ?_⟩
  · have hexact := hfill 2 1 0 1 1
    obtain ⟨C, hC⟩ := hexact.answered_iff.mpr (by decide)
    refine ⟨C, hexact.stored C hC, fun i hi j hj => ?_⟩
    exact hexact.kept C hC i hi j hj (by omega)
  · have hexact := hcopy 1 0 twoByTwo
    refine hexact.untouched fun hanswered => ?_
    have hin := hexact.answered_iff.mp hanswered
    exact absurd hin (by decide)
  · have hexact := hdiagonal 0 2 1
    obtain ⟨C, hC⟩ := hexact.answered_iff.mpr (by decide)
    refine ⟨C, hexact.stored C hC, ?_, ?_, ?_⟩
    · exact hexact.written C hC 0 (by decide) 0 (by decide) (by decide)
    · exact hexact.written C hC 1 (by decide) 1 (by decide) (by decide)
    · exact hexact.kept C hC 1 (by decide) 0 (by decide) (by decide)

end Calls

end ConicSaddle
