import ConicSaddle.Proofs.Exact.Scalar
import ConicSaddle.Proofs.Scaling.Action

/-!
# What earlier calls left in the workspace

The contents of a workspace do not matter, in any arithmetic in which zero counts as zero: a product
that is written with a factor of zero for the old entries does not look at them.

* `ZeroRule`: the rule, with instances for the reals and for the binary floating point types;
* `ScalingBlock.Acts.unique`: the action of a block is determined by its slice;
* `EachBlock.unique`: so is the action of all blocks.
-/

namespace ConicSaddle

open ConeDims (total)
open Vec (entries)

/-- Zero counts as zero. -/
class ZeroRule (α : Type) [Scalar α] : Prop where
  isZero_zero : Scalar.isZero (0 : α) = true

instance : ZeroRule ℝ where
  isZero_zero := by simp

instance : ZeroRule Float where
  isZero_zero := by decide +kernel

instance : ZeroRule Float32 where
  isZero_zero := by decide +kernel

/-- Where a relation determines each block on the right, it determines the sequence. -/
theorem EachBlock.unique {β γ δ : Type} {s t : β → ℕ} {R : β → (ℕ → γ) → (ℕ → δ) → Prop}
    {blocks : List β} (hR : ∀ b ∈ blocks, ∀ x y y', R b x y → R b x y' → AgreeTo (t b) y y')
    {x : ℕ → γ} {y y' : ℕ → δ} (h : EachBlock s t R blocks x y)
    (h' : EachBlock s t R blocks x y') : AgreeTo (total blocks t) y y' := by
  induction blocks generalizing x y y' with
  | nil =>
    intro i hi
    exact absurd hi (Nat.not_lt_zero i)
  | cons b blocks ih =>
    intro i hi
    rw [ConeDims.total_cons] at hi
    have hrest := ih (fun b' hb' => hR b' (List.mem_cons_of_mem b hb')) h.2 h'.2
    by_cases hib : i < t b
    · exact hR b List.mem_cons_self x y y' h.1 h'.1 i hib
    · have hi' := hrest (i - t b) (by omega)
      rwa [shift_apply, shift_apply, Nat.add_sub_cancel' (Nat.not_lt.mp hib)] at hi'

variable {α : Type} [Scalar α] [ZeroRule α]

/-- With a factor of zero the old entry does not enter. -/
theorem blend_zero (alpha s old : α) : blend alpha s 0 old = alpha * s :=
  if_pos ZeroRule.isZero_zero

namespace ScalingBlock

theorem storedProduct_eq {k : ℕ} (a b : ℕ → ℕ → α) (old old' : Grid k k α) :
    storedProduct a b old = storedProduct a b old' := by
  simp only [storedProduct, blend_zero]

theorem Congruent.unique {k : ℕ} {R X N N' : Grid k k α} {transposeFirst : Bool}
    (h : Congruent R transposeFirst X N) (h' : Congruent R transposeFirst X N') : N = N' := by
  obtain ⟨old, rfl⟩ := h
  obtain ⟨old', rfl⟩ := h'
  rw [storedProduct_eq _ _ old old', storedProduct_eq _ _ old old']

/-- A block determines what it makes of its slice. -/
theorem Acts.unique {mode : ScalingMode} {block : ScalingBlock α} {x y y' : ℕ → α}
    (h : block.Acts mode x y) (h' : block.Acts mode x y') : AgreeTo block.numel y y' := by
  cases block with
  | diagonal w winv =>
    intro i hi
    exact (h ⟨i, hi⟩).trans (h' ⟨i, hi⟩).symm
  | secondOrder v beta =>
    obtain ⟨z, hz, hy⟩ := h
    obtain ⟨z', hz', hy'⟩ := h'
    cases hz.symm.trans hz'
    intro i hi
    exact (hy i hi).trans (hy' i hi).symm
  | @semidefinite k r rti =>
    obtain ⟨N, hN, hy⟩ := h
    obtain ⟨N', hN', hy'⟩ := h'
    cases hN.unique hN'
    intro i hi
    have hk : 0 < k := Nat.pos_of_mul_pos_left (Nat.lt_of_le_of_lt (Nat.zero_le i) hi)
    have := (hy ⟨i % k, Nat.mod_lt i hk⟩ ⟨i / k, Nat.div_lt_of_lt_mul hi⟩).trans
      (hy' ⟨i % k, Nat.mod_lt i hk⟩ ⟨i / k, Nat.div_lt_of_lt_mul hi⟩).symm
    rwa [Nat.mod_add_div] at this

end ScalingBlock

end ConicSaddle
