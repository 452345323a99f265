import Mathlib.Algebra.BigOperators.Intervals
import Mathlib.Algebra.Module.LinearMap.Basic
import Mathlib.Tactic.Ring
import ConicSaddle.Proofs.Cone.Sizes

/-!
# Blockwise maps

A sequence that is laid out in consecutive blocks, and maps that deal with each block by itself.
Sequences are functions on all places, of which only those inside the blocks mean something.

* `shift n x`: the sequence from place `n` on;
* `blockwise s t f blocks`: block `b`, of `s b` entries, goes to `f b` of it, of `t b` entries;
* `EachBlock s t R blocks`: block after block of two sequences stands in a relation;
* `blockwise_comp`, `blockwise_congr`, `blockwise_forall`, `sum_blockwise`, `isLinearMap_blockwise`:
  compositions, locality, properties of entries, inner products and linearity, each from the same
  fact about one block.
-/

namespace ConicSaddle

open ConeDims (total)

variable {β γ δ ε : Type}

/-- The sequence from place `n` on. -/
def shift (n : ℕ) (x : ℕ → γ) : ℕ → γ := fun i => x (n + i)

@[simp] theorem shift_apply (n : ℕ) (x : ℕ → γ) (i : ℕ) : shift n x i = x (n + i) := rfl

@[simp] theorem shift_zero (x : ℕ → γ) : shift 0 x = x := by
  funext i
  rw [shift_apply, Nat.zero_add]

theorem shift_shift (m n : ℕ) (x : ℕ → γ) : shift m (shift n x) = shift (n + m) x := by
  funext i
  simp only [shift_apply, Nat.add_assoc]

/-- Two sequences agree in front of place `n`. -/
def AgreeTo (n : ℕ) (x y : ℕ → γ) : Prop := ∀ i < n, x i = y i

theorem AgreeTo.mono {m n : ℕ} {x y : ℕ → γ} (h : AgreeTo n x y) (hmn : m ≤ n) : AgreeTo m x y :=
  fun i hi => h i (Nat.lt_of_lt_of_le hi hmn)

theorem AgreeTo.shift {m n : ℕ} {x y : ℕ → γ} (h : AgreeTo (m + n) x y) :
    AgreeTo n (shift m x) (ConicSaddle.shift m y) :=
  fun i hi => h (m + i) (Nat.add_lt_add_left hi m)

/-! ### Maps -/

/-- Each block mapped by itself, zero behind the last block. -/
def blockwise [Zero δ] (s t : β → ℕ) (f : β → (ℕ → γ) → ℕ → δ) : List β → (ℕ → γ) → ℕ → δ
  | [], _ => fun _ => 0
  | b :: blocks, x => fun i =>
    if i < t b then f b x i else blockwise s t f blocks (shift (s b) x) (i - t b)

section

variable [Zero δ] {s t : β → ℕ} {f : β → (ℕ → γ) → ℕ → δ} {b : β} {blocks : List β} {x : ℕ → γ}

theorem blockwise_of_lt {i : ℕ} (h : i < t b) :
    blockwise s t f (b :: blocks) x i = f b x i := if_pos h

theorem blockwise_cons_add (i : ℕ) :
    blockwise s t f (b :: blocks) x (t b + i) = blockwise s t f blocks (shift (s b) x) i := by
  show (if t b + i < t b then _ else _) = _
  rw [if_neg (by omega), Nat.add_sub_cancel_left]

theorem shift_blockwise_cons :
    shift (t b) (blockwise s t f (b :: blocks) x) = blockwise s t f blocks (shift (s b) x) := by
  funext i
  exact blockwise_cons_add i

theorem agreeTo_blockwise_cons : AgreeTo (t b) (blockwise s t f (b :: blocks) x) (f b x) :=
  fun _ hi => blockwise_of_lt hi

end

/-- Blocks that keep their entries stand for one block of the same kind. -/
theorem blockwise_append_of_eq [Zero γ] {s t : β → ℕ} {f : β → (ℕ → γ) → ℕ → γ} {front : List β}
    (hsize : ∀ b ∈ front, t b = s b) (hf : ∀ b ∈ front, ∀ x, f b x = x) (blocks : List β)
    (x : ℕ → γ) (i : ℕ) :
    blockwise s t f (front ++ blocks) x i =
      if i < total front s then x i
      else blockwise s t f blocks (shift (total front s) x) (i - total front s) := by
  induction front generalizing x i with
  | nil =>
    show _ = if i < 0 then _ else blockwise s t f blocks (shift 0 x) (i - 0)
    rw [if_neg (Nat.not_lt_zero i), shift_zero]
    rfl
  | cons b front ih =>
    have hb := hsize b List.mem_cons_self
    have hrest := ih (fun b' hb' => hsize b' (List.mem_cons_of_mem b hb'))
      (fun b' hb' => hf b' (List.mem_cons_of_mem b hb')) (shift (s b) x) (i - s b)
    rw [ConeDims.total_cons]
    show (if i < t b then f b x i
      else blockwise s t f (front ++ blocks) (shift (s b) x) (i - t b)) = _
    rw [hb, hf b List.mem_cons_self, hrest, shift_shift]
    by_cases hi : i < s b
    · rw [if_pos hi, if_pos (by omega)]
    · rw [if_neg hi]
      by_cases hi' : i - s b < total front s
      · rw [if_pos hi', if_pos (by omega), shift_apply, Nat.add_sub_cancel' (Nat.not_lt.mp hi)]
      · rw [if_neg hi', if_neg (by omega), Nat.sub_sub]

/-- The map of a block looks at the entries of the block only. -/
def IsLocal (s t : β → ℕ) (f : β → (ℕ → γ) → ℕ → δ) : Prop :=
  ∀ b x y, AgreeTo (s b) x y → AgreeTo (t b) (f b x) (f b y)

/-- Sequences that agree on the blocks have the same image. -/
theorem blockwise_congr [Zero δ] {s t : β → ℕ} {f g : β → (ℕ → γ) → ℕ → δ} {blocks : List β}
    (hfg : ∀ b ∈ blocks, ∀ x y, AgreeTo (s b) x y → AgreeTo (t b) (f b x) (g b y)) {x y : ℕ → γ}
    (hxy : AgreeTo (total blocks s) x y) :
    AgreeTo (total blocks t) (blockwise s t f blocks x) (blockwise s t g blocks y) := by
  induction blocks generalizing x y with
  | nil =>
    intro i _
    rfl
  | cons b blocks ih =>
    intro i hi
    rw [ConeDims.total_cons] at hi hxy
    have hrest := ih (fun b' hb' => hfg b' (List.mem_cons_of_mem b hb')) hxy.shift
    show (if i < t b then _ else _) = if i < t b then _ else _
    by_cases hib : i < t b
    · rw [if_pos hib, if_pos hib]
      exact hfg b List.mem_cons_self x y (hxy.mono (Nat.le_add_right _ _)) i hib
    · rw [if_neg hib, if_neg hib]
      exact hrest (i - t b) (by omega)

/-- What the map of each block makes of entries with a property, a blockwise map makes of them. -/
theorem blockwise_forall [Zero δ] {s t : β → ℕ} {f : β → (ℕ → γ) → ℕ → δ} {p : γ → Prop}
    {q : δ → Prop} {blocks : List β}
    (hf : ∀ b ∈ blocks, ∀ x, (∀ i < s b, p (x i)) → ∀ i < t b, q (f b x i)) {x : ℕ → γ}
    (hx : ∀ i < total blocks s, p (x i)) :
    ∀ i < total blocks t, q (blockwise s t f blocks x i) := by
  induction blocks generalizing x with
  | nil =>
    intro i hi
    exact absurd hi (Nat.not_lt_zero i)
  | cons b blocks ih =>
    intro i hi
    rw [ConeDims.total_cons] at hi hx
    show q (if i < t b then _ else _)
    by_cases hib : i < t b
    · rw [if_pos hib]
      exact hf b List.mem_cons_self x (fun j hj => hx j (by omega)) i hib
    · rw [if_neg hib]
      exact ih (fun b' hb' => hf b' (List.mem_cons_of_mem b hb'))
        (x := ConicSaddle.shift (s b) x) (fun j hj => hx (s b + j) (by omega)) (i - t b)
        (by omega)

/-- The composition of two blockwise maps. -/
theorem blockwise_comp [Zero δ] [Zero ε] {s t u : β → ℕ} {f : β → (ℕ → γ) → ℕ → δ}
    {g : β → (ℕ → δ) → ℕ → ε} {h : β → (ℕ → γ) → ℕ → ε} {blocks : List β}
    (hg : IsLocal t u g) (hgf : ∀ b ∈ blocks, ∀ x, AgreeTo (u b) (g b (f b x)) (h b x))
    (x : ℕ → γ) :
    AgreeTo (total blocks u) (blockwise t u g blocks (blockwise s t f blocks x))
      (blockwise s u h blocks x) := by
  induction blocks generalizing x with
  | nil =>
    intro i _
    rfl
  | cons b blocks ih =>
    intro i hi
    rw [ConeDims.total_cons] at hi
    have hrest := ih (fun b' hb' => hgf b' (List.mem_cons_of_mem b hb')) (shift (s b) x)
    show (if i < u b then _ else _) = if i < u b then _ else _
    by_cases hib : i < u b
    · rw [if_pos hib, if_pos hib, hg b _ _ agreeTo_blockwise_cons i hib]
      exact hgf b List.mem_cons_self x i hib
    · rw [if_neg hib, if_neg hib, shift_blockwise_cons]
      exact hrest (i - u b) (by omega)

/-- A blockwise map over blocks that stand for others. -/
theorem blockwise_map [Zero δ] {s t : β → ℕ} {f : β → (ℕ → γ) → ℕ → δ} (g : ε → β)
    (blocks : List ε) (x : ℕ → γ) :
    blockwise s t f (blocks.map g) x =
      blockwise (fun b => s (g b)) (fun b => t (g b)) (fun b => f (g b)) blocks x := by
  induction blocks generalizing x with
  | nil => rfl
  | cons b blocks ih =>
    funext i
    show (if i < t (g b) then _ else _) = if i < t (g b) then _ else _
    rw [ih]

/-- Blocks that are left alone. -/
theorem blockwise_self [Zero γ] (s : β → ℕ) (blocks : List β) (x : ℕ → γ) :
    AgreeTo (total blocks s) (blockwise s s (fun _ y => y) blocks x) x := by
  intro i hi
  have happend : blockwise s s (fun _ y => y) (blocks ++ []) x i =
      if i < total blocks s then x i else _ :=
    blockwise_append_of_eq (fun _ _ => rfl) (fun _ _ _ => rfl) [] x i
  rwa [List.append_nil, if_pos hi] at happend

/-! ### Relations -/

/-- Block after block of two sequences stands in the relation of the block. -/
def EachBlock (s t : β → ℕ) (R : β → (ℕ → γ) → (ℕ → δ) → Prop) :
    List β → (ℕ → γ) → (ℕ → δ) → Prop
  | [], _, _ => True
  | b :: blocks, x, y => R b x y ∧ EachBlock s t R blocks (shift (s b) x) (shift (t b) y)

/-- A relation between blocks that concerns their entries only. -/
theorem EachBlock.congr {s t : β → ℕ} {R : β → (ℕ → γ) → (ℕ → δ) → Prop} {blocks : List β}
    (hR : ∀ b ∈ blocks, ∀ x x' y y', AgreeTo (s b) x x' → AgreeTo (t b) y y' → R b x y → R b x' y')
    {x x' : ℕ → γ} {y y' : ℕ → δ} (hx : AgreeTo (total blocks s) x x')
    (hy : AgreeTo (total blocks t) y y') (h : EachBlock s t R blocks x y) :
    EachBlock s t R blocks x' y' := by
  induction blocks generalizing x x' y y' with
  | nil => exact trivial
  | cons b blocks ih =>
    rw [ConeDims.total_cons] at hx hy
    constructor
    · exact hR b List.mem_cons_self x x' y y' (hx.mono (Nat.le_add_right _ _))
        (hy.mono (Nat.le_add_right _ _)) h.1
    · exact ih (fun b' hb' => hR b' (List.mem_cons_of_mem b hb')) hx.shift hy.shift h.2

/-- One block stands behind all blocks in front of it, in both sequences. -/
theorem EachBlock.getElem? {s t : β → ℕ} {R : β → (ℕ → γ) → (ℕ → δ) → Prop} {blocks : List β}
    {x : ℕ → γ} {y : ℕ → δ} (h : EachBlock s t R blocks x y) {i : ℕ} {b : β}
    (hb : blocks[i]? = some b) :
    R b (shift (total (blocks.take i) s) x) (shift (total (blocks.take i) t) y) := by
  induction blocks generalizing x y i with
  | nil => simp at hb
  | cons b' blocks ih =>
    cases i with
    | zero =>
      obtain rfl : b' = b := by simpa using hb
      show R b' (shift 0 x) (shift 0 y)
      rw [shift_zero, shift_zero]
      exact h.1
    | succ i =>
      have hrest := ih h.2 (by simpa using hb)
      rw [shift_shift, shift_shift] at hrest
      rwa [List.take_succ_cons, ConeDims.total_cons, ConeDims.total_cons]

/-- Block after block of a blockwise image is the image of the block. -/
theorem eachBlock_blockwise [Zero δ] (s t : β → ℕ) (f : β → (ℕ → γ) → ℕ → δ) (blocks : List β)
    (x : ℕ → γ) :
    EachBlock s t (fun b x y => AgreeTo (t b) y (f b x)) blocks x (blockwise s t f blocks x) := by
  induction blocks generalizing x with
  | nil => exact trivial
  | cons b blocks ih =>
    refine ⟨agreeTo_blockwise_cons, ?_⟩
    rw [shift_blockwise_cons]
    exact ih (shift (s b) x)

/-- Where the relation determines the block on the right, the sequence is a blockwise image. -/
theorem EachBlock.agreeTo [Zero δ] {s t : β → ℕ} {R : β → (ℕ → γ) → (ℕ → δ) → Prop}
    {f : β → (ℕ → γ) → ℕ → δ} {blocks : List β}
    (hR : ∀ b ∈ blocks, ∀ x y, R b x y → AgreeTo (t b) y (f b x)) {x : ℕ → γ} {y : ℕ → δ}
    (h : EachBlock s t R blocks x y) : AgreeTo (total blocks t) y (blockwise s t f blocks x) := by
  induction blocks generalizing x y with
  | nil =>
    intro i hi
    exact absurd hi (Nat.not_lt_zero i)
  | cons b blocks ih =>
    intro i hi
    rw [ConeDims.total_cons] at hi
    have hrest := ih (fun b' hb' => hR b' (List.mem_cons_of_mem b hb')) h.2
    show _ = if i < t b then _ else _
    by_cases hib : i < t b
    · rw [if_pos hib]
      exact hR b List.mem_cons_self x y h.1 i hib
    · rw [if_neg hib, ← hrest (i - t b) (by omega), shift_apply,
        Nat.add_sub_cancel' (Nat.not_lt.mp hib)]

/-! ### Inner products -/

/-- Two inner products of blockwise images agree if they agree block by block. -/
theorem sum_blockwise {R : Type} [CommRing R] {s s' t t' : β → ℕ} {f f' : β → (ℕ → γ) → ℕ → R}
    {g g' : β → (ℕ → δ) → ℕ → R} {blocks : List β}
    (hblock : ∀ b ∈ blocks, ∀ x y, ∑ i ∈ Finset.range (t b), f b x i * g b y i =
      ∑ i ∈ Finset.range (t' b), f' b x i * g' b y i) (x : ℕ → γ) (y : ℕ → δ) :
    ∑ i ∈ Finset.range (total blocks t), blockwise s t f blocks x i * blockwise s' t g blocks y i =
      ∑ i ∈ Finset.range (total blocks t'),
        blockwise s t' f' blocks x i * blockwise s' t' g' blocks y i := by
  induction blocks generalizing x y with
  | nil => rfl
  | cons b blocks ih =>
    have hrest := ih (fun b' hb' => hblock b' (List.mem_cons_of_mem b hb')) (shift (s b) x)
      (shift (s' b) y)
    -- the sums over the first block and over the other blocks
    have hsplit : ∀ (u : β → ℕ) (p : β → (ℕ → γ) → ℕ → R) (q : β → (ℕ → δ) → ℕ → R),
        ∑ i ∈ Finset.range (total (b :: blocks) u),
          blockwise s u p (b :: blocks) x i * blockwise s' u q (b :: blocks) y i =
        ∑ i ∈ Finset.range (u b), p b x i * q b y i +
          ∑ i ∈ Finset.range (total blocks u),
            blockwise s u p blocks (shift (s b) x) i *
              blockwise s' u q blocks (shift (s' b) y) i := by
      intro u p q
      rw [ConeDims.total_cons, Finset.sum_range_add]
      congr 1
      · refine Finset.sum_congr rfl fun i hi => ?_
        rw [blockwise_of_lt (Finset.mem_range.mp hi), blockwise_of_lt (Finset.mem_range.mp hi)]
      · refine Finset.sum_congr rfl fun i _ => ?_
        rw [blockwise_cons_add, blockwise_cons_add]
    rw [hsplit t f g, hsplit t' f' g', hblock b List.mem_cons_self x y, hrest]

/-! ### Linear maps -/

/-- A blockwise map is linear if the map of each block is. -/
theorem isLinearMap_blockwise {R : Type} [CommRing R] {s t : β → ℕ} {f : β → (ℕ → R) → ℕ → R}
    (hf : ∀ b, IsLinearMap R (f b)) (blocks : List β) :
    IsLinearMap R (blockwise s t f blocks) := by
  induction blocks with
  | nil =>
    constructor
    · intro x y
      exact (add_zero (0 : ℕ → R)).symm
    · intro c x
      exact (smul_zero c).symm
  | cons b blocks ih =>
    constructor
    · intro x y
      funext i
      show (if i < t b then f b (x + y) i
        else blockwise s t f blocks (shift (s b) x + shift (s b) y) (i - t b)) =
          (if i < t b then _ else _) + if i < t b then _ else _
      rw [(hf b).map_add, ih.map_add]
      split
      · rfl
      · rfl
    · intro c x
      funext i
      show (if i < t b then f b (c • x) i
        else blockwise s t f blocks (c • shift (s b) x) (i - t b)) =
          c • if i < t b then _ else _
      rw [(hf b).map_smul, ih.map_smul]
      split
      · rfl
      · rfl

end ConicSaddle
