import Mathlib.Algebra.BigOperators.Group.List.Lemmas
import Mathlib.Algebra.BigOperators.Ring.List
import Mathlib.Algebra.Order.BigOperators.Group.List
import ConicSaddle.Proofs.Cone.Layout

/-!
# One count bounds them all

The unpacked size is the largest count of a descriptor, also where another count goes through twice
its value on the way.  If it fits in a machine word, then all counts and ranges can be taken.

* `numelUnpacked_eq_ok_iff`: when the unpacked size can be counted;
* `degreeSum`: the degree as a plain number;
* `Consecutive`: ranges one behind the other, one for each block;
* `linearStop`: where the last block ends that is not semidefinite;
* `counts_fit`: the counts and ranges of a descriptor whose unpacked size was counted.
-/

namespace ConicSaddle

/-! ### Blocks -/

namespace ConeBlock

theorem unpackedSize_le (block : ConeBlock) : block.unpackedSize ≤ 2 * block.packedSize := by
  cases block with
  | nonnegative l => exact Nat.le_mul_of_pos_left l Nat.zero_lt_two
  | secondOrder q => exact Nat.le_mul_of_pos_left q Nat.zero_lt_two
  | semidefinite k =>
    have heven : 2 * (k * (k + 1) / 2) = k * (k + 1) :=
      Nat.mul_div_cancel' (Nat.even_mul_succ_self k).two_dvd
    show k * k ≤ 2 * (k * (k + 1) / 2)
    rw [heven]
    exact Nat.mul_le_mul_left k (Nat.le_succ k)

/-- The degree is at most the packed size, since a second order cone has a dimension. -/
theorem degree_le {block : ConeBlock} (h : ∀ q, block = secondOrder q → 0 < q) :
    block.degree ≤ block.packedSize := by
  cases block with
  | nonnegative l => exact Nat.le_refl l
  | secondOrder q => exact h q rfl
  | semidefinite k =>
    show k ≤ triangle k
    cases k with
    | zero => exact Nat.zero_le _
    | succ k =>
      rw [triangle_succ]
      exact Nat.le_add_left _ _

instance : DecidablePred IsFlat
  | nonnegative _ => isTrue trivial
  | secondOrder _ => isTrue trivial
  | semidefinite _ => isFalse id

end ConeBlock

namespace ConeDims

/-! ### Sums -/

theorem total_eq_sum {β : Type} (xs : List β) (count : β → ℕ) :
    total xs count = (xs.map count).sum := by
  induction xs with
  | nil => rfl
  | cons x xs ih => rw [total_cons, ih, List.map_cons, List.sum_cons]

variable (dims : ConeDims)

/-- The degree of the product's barrier as a plain number. -/
def degreeSum : ℕ := total dims.blocks ConeBlock.degree

theorem linearSize_eq_sum : dims.linearSize = dims.l + dims.q.sum := by
  rw [linearSize, total_eq_sum, List.map_id]

theorem unpackedSize_eq_sum :
    dims.unpackedSize = dims.l + dims.q.sum + (dims.s.map fun k => k * k).sum := by
  rw [unpackedSize_eq, linearSize_eq_sum, total_eq_sum]

theorem packedSize_eq_sum :
    dims.packedSize = dims.l + dims.q.sum + (dims.s.map fun k => k * (k + 1) / 2).sum := by
  rw [packedSize_eq, linearSize_eq_sum, total_eq_sum]
  rfl

theorem degreeSum_eq_sum : dims.degreeSum = dims.l + dims.q.length + dims.s.sum := by
  unfold degreeSum blocks
  simp [total_eq_sum, List.map_map, Function.comp_def, ConeBlock.degree, Nat.add_assoc]

theorem unpackedSize_le : dims.unpackedSize ≤ 2 * dims.packedSize := by
  have hle : dims.unpackedSize ≤ total dims.blocks fun block => 2 * block.packedSize :=
    total_le fun block _ => block.unpackedSize_le
  rwa [total_eq_sum, List.sum_map_mul_left, ← total_eq_sum] at hle

theorem degreeSum_le : dims.degreeSum ≤ dims.packedSize := by
  refine total_le fun block hmem => ConeBlock.degree_le ?_
  rintro q rfl
  exact dims.q_pos q (by simpa [blocks] using hmem)

theorem linearSize_le : dims.linearSize ≤ dims.packedSize := by
  rw [packedSize_eq]
  exact Nat.le_add_right _ _

/-! ### Counts -/

variable {dims}

/-- The unpacked size is counted exactly if it fits: the square of an order is part of the sum. -/
theorem numelUnpacked_eq_ok_iff {n : ℕ} :
    dims.numelUnpacked = .ok n ↔ dims.unpackedSize < Word.limit ∧ n = dims.unpackedSize := by
  constructor
  · intro h
    have hblock : ∀ block n, ConeBlock.numelUnpacked block = .ok n ↔
        (∃ m, block.numelUnpacked = .ok m) ∧ n = block.unpackedSize := by
      refine fun block n => ⟨fun h => ⟨⟨n, h⟩, ConeBlock.numelUnpacked_eq_ok h⟩, ?_⟩
      rintro ⟨⟨m, hm⟩, rfl⟩
      rw [← ConeBlock.numelUnpacked_eq_ok hm, hm]
    have hsum := ((sum_eq_ok_iff hblock dims.blocks (show 0 < Word.limit by decide)).mp h).2
    rwa [Nat.zero_add] at hsum
  · rintro ⟨h, rfl⟩
    exact numelUnpacked_of_lt h

theorem degree_of_lt (h : dims.unpackedSize < Word.limit) : dims.degree = .ok dims.degreeSum := by
  have hfits : dims.degreeSum < Word.limit :=
    Nat.lt_of_le_of_lt (dims.degreeSum_le.trans dims.packedSize_le) h
  have hsum : dims.degree = .ok (0 + dims.degreeSum) :=
    sumOver_of_lt (fun _ _ => rfl) 0 (by rwa [Nat.zero_add])
  rwa [Nat.zero_add] at hsum

/-! ### Ranges -/

/-- The ranges stand one behind the other from `start` to `stop`, one for each block and of the size
that was counted. -/
inductive Consecutive (count : ConeBlock → Checked ℕ) :
    ℕ → List ConeBlock → List (ℕ × ℕ) → ℕ → Prop
  | nil (start : ℕ) : Consecutive count start [] [] start
  | cons {start stop n : ℕ} {block : ConeBlock} {blocks : List ConeBlock}
      {ranges : List (ℕ × ℕ)} (counted : count block = .ok n)
      (rest : Consecutive count (start + n) blocks ranges stop) :
      Consecutive count start (block :: blocks) ((start, start + n) :: ranges) stop

theorem consecutive_spans {count : ConeBlock → Checked ℕ} {size : ConeBlock → ℕ}
    {blocks : List ConeBlock} (hcount : ∀ block ∈ blocks, count block = .ok (size block))
    (start : ℕ) :
    Consecutive count start blocks (spans size blocks start) (start + total blocks size) := by
  induction blocks generalizing start with
  | nil => exact .nil start
  | cons block blocks ih =>
    rw [total_cons, ← Nat.add_assoc]
    exact .cons (hcount block List.mem_cons_self)
      (ih (fun b hb => hcount b (List.mem_cons_of_mem block hb)) _)

/-- The end of the last range that is not one of a semidefinite block. -/
def linearStop (blocks : List ConeBlock) (ranges : List (ℕ × ℕ)) : Option ℕ :=
  ((blocks.zip ranges).filter fun p => decide p.1.IsFlat).getLast?.map fun p => p.2.2

theorem linearStop_semidefinite (ks : List ℕ) (ranges : List (ℕ × ℕ)) :
    linearStop (ks.map .semidefinite) ranges = none := by
  have hnone : ((ks.map ConeBlock.semidefinite).zip ranges).filter
      (fun p => decide p.1.IsFlat) = [] := by
    rw [List.filter_eq_nil_iff]
    rintro ⟨block, range⟩ hmem
    obtain ⟨k, -, rfl⟩ := List.mem_map.mp (List.of_mem_zip hmem).1
    exact Bool.false_ne_true
  simp [linearStop, hnone]

theorem linearStop_cons {block : ConeBlock} (h : block.IsFlat) (blocks : List ConeBlock)
    (range : ℕ × ℕ) (ranges : List (ℕ × ℕ)) :
    linearStop (block :: blocks) (range :: ranges) =
      some ((linearStop blocks ranges).getD range.2) := by
  simp only [linearStop, List.zip_cons_cons, List.filter_cons, h, decide_true, if_true,
    List.getLast?_cons, Option.map_some]
  cases ((blocks.zip ranges).filter fun p => decide p.1.IsFlat).getLast? with
  | none => rfl
  | some last => rfl

/-- The last range of the blocks in front of the semidefinite ones ends where their sizes say. -/
theorem linearStop_spans {size : ConeBlock → ℕ} {front : List ConeBlock}
    (hfront : ∀ block ∈ front, block.IsFlat) (ks : List ℕ) (start : ℕ) :
    (linearStop (front ++ ks.map .semidefinite)
      (spans size (front ++ ks.map .semidefinite) start)).getD start =
        start + total front size := by
  induction front generalizing start with
  | nil =>
    rw [List.nil_append, linearStop_semidefinite]
    rfl
  | cons block front ih =>
    have hrest := ih (fun b hb => hfront b (List.mem_cons_of_mem block hb)) (start + size block)
    rw [List.cons_append, spans, linearStop_cons (hfront block List.mem_cons_self),
      Option.getD_some, hrest, total_cons, Nat.add_assoc]

/-- The linear part ends where the last block ends that is not semidefinite. -/
theorem linearStop_eq {size : ConeBlock → ℕ} (hl : ∀ l, size (.nonnegative l) = l)
    (hq : ∀ q, size (.secondOrder q) = q) (dims : ConeDims) :
    linearStop dims.blocks (spans size dims.blocks 0) = some dims.linearSize := by
  have hflat : ∀ block ∈ dims.q.map ConeBlock.secondOrder, block.IsFlat := by
    intro block hmem
    obtain ⟨q, -, rfl⟩ := List.mem_map.mp hmem
    trivial
  have horthant : (ConeBlock.nonnegative dims.l).IsFlat := trivial
  unfold blocks
  rw [spans, linearStop_cons horthant, linearStop_spans hflat, total_map]
  simp only [hl, hq, Nat.zero_add]
  rfl

/-- **All counts fit if the unpacked size does.**  Then the packed size, the degree, the linear size
and both lists of ranges are taken without an overflow.  The sizes are the sums that the descriptor
stands for, and lie between one another.  In both layouts the ranges stand one behind the other from
zero to the size, one for each block in its order, and the linear size is where the last one ends
that is not semidefinite. -/
theorem counts_fit {dims : ConeDims} {u : ℕ} (counted : dims.numelUnpacked = .ok u) :
    ∃ p n l unpacked packed,
      dims.numelPacked = .ok p ∧ dims.degree = .ok n ∧ dims.numelLinear = .ok l ∧
      dims.rangesUnpacked = .ok unpacked ∧ dims.rangesPacked = .ok packed ∧
      u = dims.l + dims.q.sum + (dims.s.map fun k => k * k).sum ∧
      p = dims.l + dims.q.sum + (dims.s.map fun k => k * (k + 1) / 2).sum ∧
      n = dims.l + dims.q.length + dims.s.sum ∧ l = dims.l + dims.q.sum ∧
      l ≤ p ∧ p ≤ u ∧ u ≤ 2 * p ∧ n ≤ p ∧
      Consecutive ConeBlock.numelUnpacked 0 dims.blocks unpacked u ∧
      Consecutive ConeBlock.numelPacked 0 dims.blocks packed p ∧
      linearStop dims.blocks unpacked = some l ∧ linearStop dims.blocks packed = some l := by
  obtain ⟨h, rfl⟩ := numelUnpacked_eq_ok_iff.mp counted
  have hunpacked := consecutive_spans
    (fun _ hmem => ConeBlock.numelUnpacked_of_lt (block_lt h hmem)) 0
  have hpacked := consecutive_spans
    (fun _ hmem => ConeBlock.numelPacked_of_lt (block_lt h hmem)) 0
  rw [Nat.zero_add] at hunpacked hpacked
  exact ⟨_, _, _, _, _, numelPacked_of_lt h, degree_of_lt h, numelLinear_eq_ok h,
    rangesUnpacked_of_lt h, rangesPacked_of_lt h, dims.unpackedSize_eq_sum, dims.packedSize_eq_sum,
    dims.degreeSum_eq_sum, dims.linearSize_eq_sum, dims.linearSize_le, dims.packedSize_le,
    dims.unpackedSize_le, dims.degreeSum_le, hunpacked, hpacked,
    linearStop_eq (fun _ => rfl) (fun _ => rfl) dims,
    linearStop_eq (fun _ => rfl) (fun _ => rfl) dims⟩

/-- The largest order whose square fits in a word, filled up to the last count that fits. -/
def fullCone : ConeDims := ⟨2 ^ 33 - 3, [1], [2 ^ 32 - 1], by simp⟩

/-- At the last size that fits, the degree and the packed size can be counted, although twice a
packed size does not fit any more. -/
theorem counts_fit_full :
    fullCone.numelUnpacked = .ok (Word.limit - 1) ∧
    ∃ p n, fullCone.numelPacked = .ok p ∧ fullCone.degree = .ok n ∧ Word.limit ≤ 2 * p ∧ n ≤ p := by
  have counted : fullCone.numelUnpacked = .ok (Word.limit - 1) := by decide
  obtain ⟨p, n, l, unpacked, packed, hp, hn, -, -, -, -, hsum, -, -, -, -, -, hle, -⟩ :=
    counts_fit counted
  refine ⟨counted, p, n, hp, hn, ?_, hle⟩
  rw [hsum]
  decide

end ConeDims

end ConicSaddle
