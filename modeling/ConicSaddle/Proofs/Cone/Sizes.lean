import Mathlib.Tactic.Common
import ConicSaddle.Cone.Dims
import ConicSaddle.Proofs.Checked

/-!
# Sizes of product cones

Counts in machine words against the same counts as plain numbers.

* `numelUnpacked_eq_ok`, `numelPacked_eq_ok`: a count that fits is the plain one;
* `unpackedSize_eq`, `packedSize_eq`: the entries that stand alike in both layouts, and then the
  semidefinite blocks;
* `numelLinear_eq_ok`, `numelUnpacked_of_lt`, `numelPacked_of_lt`: every count can be taken whenever
  the unpacked size fits in a word;
* `existsUnique_slice`: consecutive slices cover what they count;
* `spans`, `rangesUnpacked_of_lt`, `rangesPacked_of_lt`: where the blocks stand, one behind the
  other.
-/

namespace ConicSaddle

namespace Word

theorem add_eq_ok {m n r : ℕ} (h : add m n = .ok r) : r = m + n ∧ m + n < limit := by
  obtain ⟨hlt, rfl⟩ := fit_eq_ok_iff.mp h
  exact ⟨rfl, hlt⟩

theorem add_of_lt {m n : ℕ} (h : m + n < limit) : add m n = .ok (m + n) := fit_of_lt h

theorem mul_eq_ok {m n r : ℕ} (h : mul m n = .ok r) : r = m * n :=
  (fit_eq_ok_iff.mp h).2

end Word

namespace ConeBlock

theorem numelUnpacked_eq_ok {block : ConeBlock} {n : ℕ} (h : block.numelUnpacked = .ok n) :
    n = block.unpackedSize := by
  cases block with
  | nonnegative l => cases h; rfl
  | secondOrder q => cases h; rfl
  | semidefinite k => exact Word.mul_eq_ok h

theorem numelPacked_eq_ok {block : ConeBlock} {n : ℕ} (h : block.numelPacked = .ok n) :
    n = block.packedSize := by
  cases block with
  | nonnegative l => cases h; rfl
  | secondOrder q => cases h; rfl
  | semidefinite k =>
    simp only [numelPacked, triangularNumber, Checked.bind_eq_ok] at h
    obtain ⟨next, hnext, double, hdouble, h⟩ := h
    cases h
    obtain ⟨rfl, -⟩ := Word.add_eq_ok hnext
    rw [Word.mul_eq_ok hdouble]
    rfl

theorem packedSize_le (block : ConeBlock) : block.packedSize ≤ block.unpackedSize := by
  cases block with
  | nonnegative l => exact Nat.le_refl _
  | secondOrder q => exact Nat.le_refl _
  | semidefinite k =>
    show k * (k + 1) / 2 ≤ k * k
    have hself : k ≤ k * k := Nat.le_mul_self k
    rw [Nat.mul_succ]
    omega

theorem numelUnpacked_of_lt {block : ConeBlock} (h : block.unpackedSize < Word.limit) :
    block.numelUnpacked = .ok block.unpackedSize := by
  cases block with
  | nonnegative l => rfl
  | secondOrder q => rfl
  | semidefinite k => exact Word.fit_of_lt h

/-- If the square of an order fits in a word, then the order is less than half a word long, and the
product with its successor fits as well. -/
theorem numelPacked_of_lt {block : ConeBlock} (h : block.unpackedSize < Word.limit) :
    block.numelPacked = .ok block.packedSize := by
  cases block with
  | nonnegative l => rfl
  | secondOrder q => rfl
  | semidefinite k =>
    have hsquare : k * k < 0x10000000000000000 := h
    have hk : k ≤ 0xFFFFFFFF := by
      by_contra hlt
      have hmul := Nat.mul_le_mul (Nat.lt_of_not_le hlt) (Nat.lt_of_not_le hlt)
      omega
    have hproduct : k * (k + 1) ≤ 0xFFFFFFFF * 0x100000000 :=
      Nat.mul_le_mul hk (Nat.succ_le_succ hk)
    have hnext : Word.add k 1 = .ok (k + 1) := Word.add_of_lt (by simp only [Word.limit]; omega)
    have hdouble : Word.mul k (k + 1) = .ok (k * (k + 1)) :=
      Word.fit_of_lt (by simp only [Word.limit]; omega)
    simp only [numelPacked, triangularNumber, hnext, hdouble, Checked.ok_bind]
    rfl

end ConeBlock

namespace ConeDims

/-! ### Totals -/

theorem total_cons {β : Type} (x : β) (xs : List β) (count : β → ℕ) :
    total (x :: xs) count = count x + total xs count := rfl

theorem total_append {β : Type} (xs ys : List β) (count : β → ℕ) :
    total (xs ++ ys) count = total xs count + total ys count := by
  induction xs with
  | nil => exact (Nat.zero_add _).symm
  | cons x xs ih => rw [List.cons_append, total_cons, total_cons, ih, Nat.add_assoc]

theorem total_map {β γ : Type} (f : β → γ) (xs : List β) (count : γ → ℕ) :
    total (xs.map f) count = total xs fun x => count (f x) := by
  induction xs with
  | nil => rfl
  | cons x xs ih => rw [List.map_cons, total_cons, total_cons, ih]

theorem total_le {β : Type} {xs : List β} {count size : β → ℕ}
    (h : ∀ x ∈ xs, count x ≤ size x) : total xs count ≤ total xs size := by
  induction xs with
  | nil => exact Nat.le_refl _
  | cons x xs ih =>
    rw [total_cons, total_cons]
    exact Nat.add_le_add (h x List.mem_cons_self) (ih fun y hy => h y (List.mem_cons_of_mem x hy))

theorem le_total {β : Type} {xs : List β} {x : β} (h : x ∈ xs) (count : β → ℕ) :
    count x ≤ total xs count := by
  induction xs with
  | nil => cases h
  | cons y xs ih =>
    rw [total_cons]
    rcases List.mem_cons.mp h with rfl | h
    · exact Nat.le_add_right _ _
    · exact Nat.le_add_left_of_le (ih h)

/-- A part of a list and the element behind it count no more than the list. -/
theorem total_take_add_le {β : Type} {xs : List β} {x : β} {i : ℕ} (h : xs[i]? = some x)
    (count : β → ℕ) : total (xs.take i) count + count x ≤ total xs count := by
  have htake : xs.take (i + 1) = xs.take i ++ [x] := by
    rw [List.take_add_one, h]
    rfl
  have hsum : total (xs.take (i + 1)) count = total (xs.take i) count + count x := by
    rw [htake, total_append]
    rfl
  calc total (xs.take i) count + count x
      ≤ total (xs.take (i + 1)) count + total (xs.drop (i + 1)) count := by omega
    _ = total xs count := by rw [← total_append, List.take_append_drop]

/-- Consecutive slices cover what they count, each place once. -/
theorem existsUnique_slice {β : Type} {xs : List β} {count : β → ℕ} {p : ℕ}
    (h : p < total xs count) :
    ∃! i, ∃ x, xs[i]? = some x ∧ total (xs.take i) count ≤ p ∧
      p < total (xs.take i) count + count x := by
  induction xs generalizing p with
  | nil => exact absurd h (Nat.not_lt_zero p)
  | cons x xs ih =>
    rw [total_cons] at h
    by_cases hp : p < count x
    · -- the first slice; every other one begins behind it
      refine ⟨0, ⟨x, rfl, Nat.zero_le p, Nat.lt_add_left _ hp⟩, ?_⟩
      rintro i ⟨y, -, hle, -⟩
      cases i with
      | zero => rfl
      | succ i =>
        rw [List.take_succ_cons, total_cons] at hle
        omega
    · obtain ⟨i, ⟨y, hy, hle, hlt⟩, hunique⟩ := ih (p := p - count x) (by omega)
      refine ⟨i + 1, ⟨y, hy, ?_, ?_⟩, ?_⟩
      · rw [List.take_succ_cons, total_cons]
        omega
      · rw [List.take_succ_cons, total_cons]
        omega
      · rintro j ⟨z, hz, hle', hlt'⟩
        cases j with
        | zero =>
          obtain rfl : x = z := by simpa using hz
          rw [List.take_zero] at hlt'
          exact absurd hlt' (by show ¬p < 0 + count x; omega)
        | succ j =>
          rw [List.take_succ_cons, total_cons] at hle' hlt'
          exact congrArg (· + 1) (hunique j ⟨z, by simpa using hz, by omega, by omega⟩)

theorem packedSize_le (dims : ConeDims) : dims.packedSize ≤ dims.unpackedSize :=
  total_le fun block _ => block.packedSize_le

/-! ### Counts in machine words -/

/-- A sum over blocks that fits in a word is the plain sum. -/
theorem sum_eq_ok {count : ConeBlock → Checked ℕ} {size : ConeBlock → ℕ}
    (hcount : ∀ block n, count block = .ok n → n = size block) (blocks : List ConeBlock)
    {start n : ℕ} (h : blocks.foldlM (fun sum block => do
      let n ← count block
      Word.add sum n) start = .ok n) : n = start + total blocks size := by
  induction blocks generalizing start with
  | nil =>
    cases h
    rfl
  | cons block blocks ih =>
    simp only [List.foldlM_cons, Checked.bind_eq_ok] at h
    obtain ⟨sum, ⟨c, hc, hsum⟩, h⟩ := h
    rw [ih h, (Word.add_eq_ok hsum).1, hcount block c hc, total_cons, Nat.add_assoc]

theorem numelUnpacked_eq_ok {dims : ConeDims} {n : ℕ} (h : dims.numelUnpacked = .ok n) :
    n = dims.unpackedSize := by
  unfold numelUnpacked sumOver at h
  rw [sum_eq_ok (fun block n hn => ConeBlock.numelUnpacked_eq_ok hn) dims.blocks h]
  exact Nat.zero_add _

theorem numelPacked_eq_ok {dims : ConeDims} {n : ℕ} (h : dims.numelPacked = .ok n) :
    n = dims.packedSize := by
  unfold numelPacked sumOver at h
  rw [sum_eq_ok (fun block n hn => ConeBlock.numelPacked_eq_ok hn) dims.blocks h]
  exact Nat.zero_add _

/-- A sum over blocks is taken in words exactly if every count can be taken and the plain sum
fits. -/
theorem sum_eq_ok_iff {count : ConeBlock → Checked ℕ} {size : ConeBlock → ℕ}
    {fits : ConeBlock → Prop}
    (hcount : ∀ block n, count block = .ok n ↔ fits block ∧ n = size block)
    (blocks : List ConeBlock) {start n : ℕ} (hstart : start < Word.limit) :
    (blocks.foldlM (fun sum block => do
      let n ← count block
      Word.add sum n) start) = .ok n ↔
      (∀ block ∈ blocks, fits block) ∧ start + total blocks size < Word.limit ∧
        n = start + total blocks size := by
  induction blocks generalizing start with
  | nil =>
    refine ⟨fun h => ⟨by simp, hstart, (Except.ok.inj h).symm⟩, ?_⟩
    rintro ⟨-, -, rfl⟩
    rfl
  | cons block blocks ih =>
    simp only [List.foldlM_cons, Checked.bind_eq_ok, total_cons, List.forall_mem_cons]
    constructor
    · rintro ⟨sum, ⟨c, hc, hsum⟩, h⟩
      obtain ⟨hblock, rfl⟩ := (hcount block c).mp hc
      obtain ⟨rfl, hlt⟩ := Word.add_eq_ok hsum
      rw [ih hlt, Nat.add_assoc] at h
      exact ⟨⟨hblock, h.1⟩, h.2⟩
    · rintro ⟨⟨hblock, hblocks⟩, hlt, rfl⟩
      have hsum : start + size block < Word.limit := by omega
      refine ⟨_, ⟨_, (hcount block _).mpr ⟨hblock, rfl⟩, Word.add_of_lt hsum⟩, ?_⟩
      rw [ih hsum, Nat.add_assoc]
      exact ⟨hblocks, hlt, rfl⟩

/-- A plain sum that fits in a word can be taken in words. -/
theorem sumOver_of_lt {count : ConeBlock → Checked ℕ} {size : ConeBlock → ℕ}
    {blocks : List ConeBlock} (hcount : ∀ block ∈ blocks, count block = .ok (size block))
    (start : ℕ) (h : start + total blocks size < Word.limit) :
    (blocks.foldlM (fun sum block => do
      let n ← count block
      Word.add sum n) start) = .ok (start + total blocks size) := by
  induction blocks generalizing start with
  | nil => rfl
  | cons block blocks ih =>
    rw [total_cons] at h ⊢
    have hrest := ih (fun b hb => hcount b (List.mem_cons_of_mem block hb)) (start + size block)
      (by omega)
    rw [List.foldlM_cons, hcount block List.mem_cons_self, Checked.ok_bind,
      Word.add_of_lt (by omega), Checked.ok_bind, hrest, Nat.add_assoc]

variable {dims : ConeDims}

/-- The size of each block fits in a word if their sum does. -/
theorem block_lt (h : dims.unpackedSize < Word.limit) {block : ConeBlock}
    (hmem : block ∈ dims.blocks) : block.unpackedSize < Word.limit :=
  Nat.lt_of_le_of_lt (le_total hmem ConeBlock.unpackedSize) h

theorem numelUnpacked_of_lt (h : dims.unpackedSize < Word.limit) :
    dims.numelUnpacked = .ok dims.unpackedSize := by
  have hsum : dims.numelUnpacked = .ok (0 + dims.unpackedSize) :=
    sumOver_of_lt (fun _ hmem => ConeBlock.numelUnpacked_of_lt (block_lt h hmem)) 0
      (by rw [Nat.zero_add]; exact h)
  rwa [Nat.zero_add] at hsum

theorem numelPacked_of_lt (h : dims.unpackedSize < Word.limit) :
    dims.numelPacked = .ok dims.packedSize := by
  have hsum : dims.numelPacked = .ok (0 + dims.packedSize) :=
    sumOver_of_lt (fun _ hmem => ConeBlock.numelPacked_of_lt (block_lt h hmem)) 0
      (by rw [Nat.zero_add]; exact Nat.lt_of_le_of_lt dims.packedSize_le h)
  rwa [Nat.zero_add] at hsum

theorem sum_of_lt (ns : List ℕ) (start : ℕ) (h : start + total ns id < Word.limit) :
    ns.foldlM Word.add start = .ok (start + total ns id) := by
  induction ns generalizing start with
  | nil => rfl
  | cons n ns ih =>
    rw [total_cons] at h ⊢
    have hassoc : start + (id n + total ns id) = start + n + total ns id :=
      (Nat.add_assoc start n _).symm
    rw [hassoc] at h ⊢
    rw [List.foldlM_cons, Word.add_of_lt (by omega), Checked.ok_bind, ih _ h]

/-! ### Where the semidefinite blocks begin -/

theorem unpackedSize_eq (dims : ConeDims) :
    dims.unpackedSize = dims.linearSize + total dims.s fun k => k * k := by
  unfold unpackedSize linearSize blocks
  rw [total_cons, total_append, total_map, total_map, Nat.add_assoc]
  rfl

theorem packedSize_eq (dims : ConeDims) :
    dims.packedSize = dims.linearSize + total dims.s triangle := by
  unfold packedSize linearSize blocks
  rw [total_cons, total_append, total_map, total_map, Nat.add_assoc]
  rfl

/-- What stands in front of the semidefinite blocks can be counted if everything can. -/
theorem numelLinear_eq_ok {dims : ConeDims} (h : dims.unpackedSize < Word.limit) :
    dims.numelLinear = .ok dims.linearSize := by
  have hlinear : dims.l + total dims.q id < Word.limit := by
    rw [unpackedSize_eq] at h
    exact Nat.lt_of_le_of_lt (Nat.le_add_right _ _) h
  have hq : Word.sum dims.q = .ok (total dims.q id) := by
    have hsum := sum_of_lt dims.q 0 (by omega)
    rwa [Nat.zero_add] at hsum
  unfold numelLinear
  rw [hq, Checked.ok_bind, Word.add_of_lt hlinear]
  rfl

/-! ### Where the blocks stand -/

/-- Consecutive ranges of the given sizes, from `start` on. -/
def spans (size : ConeBlock → ℕ) : List ConeBlock → ℕ → List (ℕ × ℕ)
  | [], _ => []
  | block :: blocks, start =>
    (start, start + size block) :: spans size blocks (start + size block)

theorem length_spans (size : ConeBlock → ℕ) (blocks : List ConeBlock) (start : ℕ) :
    (spans size blocks start).length = blocks.length := by
  induction blocks generalizing start with
  | nil => rfl
  | cons block blocks ih => rw [spans, List.length_cons, List.length_cons, ih]

/-- A block stands behind all blocks in front of it. -/
theorem getElem?_spans (size : ConeBlock → ℕ) (blocks : List ConeBlock) (start i : ℕ) :
    (spans size blocks start)[i]? = blocks[i]?.map fun block =>
      (start + total (blocks.take i) size, start + total (blocks.take i) size + size block) := by
  induction blocks generalizing start i with
  | nil => simp [spans]
  | cons block blocks ih =>
    cases i with
    | zero => simp [spans, total]
    | succ i => simp [spans, ih, total_cons, Nat.add_assoc]

theorem rangesFrom_of_lt {count : ConeBlock → Checked ℕ} {size : ConeBlock → ℕ}
    {blocks : List ConeBlock} (hcount : ∀ block ∈ blocks, count block = .ok (size block))
    (start : ℕ) (h : start + total blocks size < Word.limit) :
    rangesFrom count blocks start = .ok (spans size blocks start) := by
  induction blocks generalizing start with
  | nil => rfl
  | cons block blocks ih =>
    rw [total_cons] at h
    have hrest := ih (fun b hb => hcount b (List.mem_cons_of_mem block hb)) (start + size block)
      (by omega)
    simp only [rangesFrom, hcount block List.mem_cons_self, Word.add_of_lt
      (show start + size block < Word.limit by omega), hrest, Checked.ok_bind, Checked.pure_eq_ok,
      spans]

theorem rangesUnpacked_of_lt (h : dims.unpackedSize < Word.limit) :
    dims.rangesUnpacked = .ok (spans ConeBlock.unpackedSize dims.blocks 0) :=
  rangesFrom_of_lt (fun _ hmem => ConeBlock.numelUnpacked_of_lt (block_lt h hmem)) 0
    (by rw [Nat.zero_add]; exact h)

theorem rangesPacked_of_lt (h : dims.unpackedSize < Word.limit) :
    dims.rangesPacked = .ok (spans ConeBlock.packedSize dims.blocks 0) :=
  rangesFrom_of_lt (fun _ hmem => ConeBlock.numelPacked_of_lt (block_lt h hmem)) 0
    (by rw [Nat.zero_add]; exact Nat.lt_of_le_of_lt dims.packedSize_le h)

end ConeDims

end ConicSaddle
