import Mathlib.Tactic.Common
import ConicSaddle.Ldl.Factor
import ConicSaddle.Proofs.Checked

/-!
# Sweeps and their pivot records

What a factorization does from a column on, one step after the other, and what it leaves in the
pivot record.  Nothing here depends on the arithmetic but `PivotRules`, which keeps a pivot of order
two out of the last column.

* `symm_interchange`: the symmetric matrix after the exchange of two rows and columns;
* `Sweeps k s t`: the steps from column `k` on lead from `s` to `t`, with one constructor for each
  kind of pivot;
* `exists_sweep`: a sweep never ends in a fault, and `sweeps_of_sweep`: what one that ended went
  through;
* `Sweeps.record_eq`, `Sweeps.grid_eq`: what lies in front of a column is left alone;
* `Record.Splits`: the record splits the columns from `k` on into blocks (`Sweeps.splits`);
* `factorGrid_eq`: the old record does not matter.
-/

namespace ConicSaddle

theorem Grid.symm_of_le {α : Type} {n : Nat} (A : Grid n n α) {i j : Fin n} (h : j ≤ i) :
    A.symm i j = A.get i j := if_pos h

namespace Ldl

variable {α : Type} {n : Nat}

/-! ### The exchange of rows and columns -/

theorem le_exchange {k a b i : Fin n} (ha : k ≤ a) (hb : k ≤ b) (hi : k ≤ i) :
    k ≤ exchange a b i := by
  simp only [exchange]
  split
  · exact hb
  · split
    · exact ha
    · exact hi

theorem exchange_of_lt {k a b i : Fin n} (ha : k ≤ a) (hb : k ≤ b) (hi : i < k) :
    exchange a b i = i := by
  have hia : i ≠ a := Fin.ne_of_lt (Fin.lt_of_lt_of_le hi ha)
  have hib : i ≠ b := Fin.ne_of_lt (Fin.lt_of_lt_of_le hi hb)
  rw [exchange, if_neg hia, if_neg hib]

theorem exchange_exchange (a b i : Fin n) : exchange a b (exchange a b i) = i := by
  unfold exchange
  by_cases hia : i = a
  · by_cases hba : b = a
    · rw [if_pos hia, if_pos hba, hia, hba]
    · rw [if_pos hia, if_neg hba, if_pos rfl, hia]
  · by_cases hib : i = b
    · rw [if_neg hia, if_pos hib, if_pos rfl, hib]
    · rw [if_neg hia, if_neg hib, if_neg hia, if_neg hib]

/-- The trailing symmetric matrix after the exchange of two rows and columns. -/
theorem symm_interchange (A : Grid n n α) {k a b i j : Fin n} (hi : k ≤ i) (hj : k ≤ j) :
    (interchange A k a b).symm i j = A.symm (exchange a b i) (exchange a b j) := by
  rcases Nat.le_total j i with hji | hij
  · rw [Grid.symm_of_le _ hji, interchange, Grid.get_ofFn, if_pos ⟨hj, hji⟩]
  · rw [Grid.symm_comm, Grid.symm_of_le _ hij, interchange, Grid.get_ofFn, if_pos ⟨hi, hij⟩,
      Grid.symm_comm]

/-! ### Pivots of order two -/

/-- A magnitude that is a number reaches the threshold of a column of zeros. -/
class PivotRules (α : Type) [Scalar α] : Prop where
  threshold_zero_le (x : α) (h : Scalar.isNaN (Scalar.abs x) = false) :
    Scalar.le (threshold * 0) (Scalar.abs x) = true

variable [Scalar α]

/-! ### The three kinds of steps -/

/-- The state after a column that counts as zero. -/
def Progress.skip (s : Progress n α) (k : Fin n) : Progress n α where
  grid := s.grid
  record := s.record.set k.val (k.val + 1) k.isLt
  info := if s.info = 0 then k.val + 1 else s.info

/-- The state after a pivot of order one from row `p`. -/
def Progress.single (s : Progress n α) (k p : Fin n) : Progress n α where
  grid := eliminateSingle (interchange s.grid k k p) k
  record := s.record.set k.val (p.val + 1) k.isLt
  info := s.info

/-- The state after a pivot of order two in columns `k` and `l` from row `p`. -/
def Progress.pair (s : Progress n α) (k l p : Fin n) : Progress n α where
  grid := eliminatePair (interchange s.grid k l p) k l
  record := (s.record.set k.val (-(p.val + 1)) k.isLt).set l.val (-(p.val + 1)) l.isLt
  info := s.info

/-- The steps from column `k` on lead from one state to another. -/
inductive Sweeps : Nat → Progress n α → Progress n α → Prop
  | done (s : Progress n α) : Sweeps n s s
  | skip {s t : Progress n α} (k : Fin n) (choice : choosePivot s.grid k = .zeroColumn)
      (rest : Sweeps (k.val + 1) (s.skip k) t) : Sweeps k.val s t
  | single {s t : Progress n α} (k p : Fin n) (choice : choosePivot s.grid k = .single p)
      (rest : Sweeps (k.val + 1) (s.single k p) t) : Sweeps k.val s t
  | pair {s t : Progress n α} (k l p : Fin n) (next : l.val = k.val + 1)
      (choice : choosePivot s.grid k = .pair p)
      (rest : Sweeps (k.val + 2) (s.pair k l p) t) : Sweeps k.val s t

/-- No steps are left behind the last column. -/
theorem Sweeps.eq_of_le {k : Nat} {s t : Progress n α} (h : Sweeps k s t) (hk : n ≤ k) : t = s := by
  cases h with
  | done => rfl
  | skip k => exact absurd k.isLt (Nat.not_lt.mpr hk)
  | single k => exact absurd k.isLt (Nat.not_lt.mpr hk)
  | pair k => exact absurd k.isLt (Nat.not_lt.mpr hk)

/-! ### Rows that are found -/

theorem mem_below {k i : Fin n} : i ∈ below k ↔ k < i := by
  simp only [below, List.mem_filter, List.mem_finRange, true_and, decide_eq_true_eq]

/-- The entry found so far or the entry in row `i`, whichever is larger. -/
def betterBelow (A : Grid n n α) (k : Fin n) (best : Option (Fin n × α)) (i : Fin n) :
    Option (Fin n × α) :=
  let size := Scalar.abs (A.get i k)
  match best with
  | some (_, top) => if Scalar.lt top size then some (i, size) else best
  | none => some (i, size)

theorem largestBelow_eq (A : Grid n n α) (k : Fin n) :
    largestBelow A k = (below k).foldl (betterBelow A k) none := rfl

theorem betterBelow_cases (A : Grid n n α) (k : Fin n) (best : Option (Fin n × α)) (i : Fin n) :
    betterBelow A k best i = some (i, Scalar.abs (A.get i k)) ∨
      ∃ p v, best = some (p, v) ∧ Scalar.lt v (Scalar.abs (A.get i k)) = false ∧
        betterBelow A k best i = some (p, v) := by
  rcases best with _ | ⟨p, v⟩
  · exact .inl rfl
  · cases h : Scalar.lt v (Scalar.abs (A.get i k)) with
    | true => exact .inl (by simp only [betterBelow, h, if_true])
    | false => exact .inr ⟨p, v, rfl, h, by simp [betterBelow, h]⟩

/-- The search over some rows finds one of them, or keeps what was found before. -/
theorem foldl_betterBelow (A : Grid n n α) (k : Fin n) (rows : List (Fin n))
    (best : Option (Fin n × α)) :
    rows.foldl (betterBelow A k) best = best ∨
      ∃ p ∈ rows, rows.foldl (betterBelow A k) best = some (p, Scalar.abs (A.get p k)) := by
  induction rows generalizing best with
  | nil => exact .inl rfl
  | cons i rows ih =>
    rw [List.foldl_cons]
    rcases ih (betterBelow A k best i) with h | ⟨p, hp, h⟩
    · rw [h]
      rcases betterBelow_cases A k best i with hi | ⟨p, v, rfl, -, hi⟩
      · exact .inr ⟨i, List.mem_cons_self, hi⟩
      · exact .inl hi
    · exact .inr ⟨p, List.mem_cons_of_mem i hp, h⟩

/-- The search finds an entry below the diagonal. -/
theorem largestBelow_eq_some {A : Grid n n α} {k p : Fin n} {v : α}
    (h : largestBelow A k = some (p, v)) : k < p ∧ v = Scalar.abs (A.get p k) := by
  rw [largestBelow_eq] at h
  rcases foldl_betterBelow A k (below k) none with hnone | ⟨q, hq, hsome⟩
  · cases hnone.symm.trans h
  · cases hsome.symm.trans h
    exact ⟨mem_below.mp hq, rfl⟩

theorem foldl_betterBelow_isSome (A : Grid n n α) (k : Fin n) (rows : List (Fin n))
    (best : Fin n × α) : (rows.foldl (betterBelow A k) (some best)).isSome := by
  rcases foldl_betterBelow A k rows (some best) with h | ⟨p, -, h⟩ <;> rw [h] <;> rfl

/-- The search finds nothing only in the last column. -/
theorem largestBelow_eq_none {A : Grid n n α} {k : Fin n} (h : largestBelow A k = none)
    (i : Fin n) : i ≤ k := by
  rcases hrows : below k with _ | ⟨j, rows⟩
  · by_contra hi
    have hmem : i ∈ below k := mem_below.mpr (Nat.lt_of_not_le hi)
    rw [hrows] at hmem
    cases hmem
  · have hsome := foldl_betterBelow_isSome A k rows (j, Scalar.abs (A.get j k))
    rw [largestBelow_eq, hrows] at h
    exact absurd h (Option.isSome_iff_ne_none.mp hsome)

/-! ### The pivot that is chosen -/

/-- The row of the first largest entry below the diagonal, `k` itself in the last column. -/
def foundRow (A : Grid n n α) (k : Fin n) : Fin n := ((largestBelow A k).getD (k, 0)).1

/-- The largest magnitude below the diagonal, zero in the last column. -/
def colMax (A : Grid n n α) (k : Fin n) : α := ((largestBelow A k).getD (k, 0)).2

/-- When a pivot is chosen: one constructor for each way through the comparisons. -/
inductive Chosen (A : Grid n n α) (k : Fin n) : Pivot n → Prop
  | zeroColumn (h : Scalar.isZero (Scalar.larger (Scalar.abs (A.get k k)) (colMax A k)) = true ∨
      Scalar.isNaN (Scalar.abs (A.get k k)) = true) : Chosen A k .zeroColumn
  | diagonal (nonzero : Scalar.isZero (Scalar.larger (Scalar.abs (A.get k k)) (colMax A k)) = false)
      (number : Scalar.isNaN (Scalar.abs (A.get k k)) = false)
      (h : Scalar.le (threshold * colMax A k) (Scalar.abs (A.get k k)) = true ∨
        Scalar.le (threshold * colMax A k * (colMax A k / rowMax A k (foundRow A k)))
          (Scalar.abs (A.get k k)) = true) : Chosen A k (.single k)
  | brought (nonzero : Scalar.isZero (Scalar.larger (Scalar.abs (A.get k k)) (colMax A k)) = false)
      (number : Scalar.isNaN (Scalar.abs (A.get k k)) = false)
      (small : Scalar.le (threshold * colMax A k) (Scalar.abs (A.get k k)) = false)
      (h : Scalar.le (threshold * rowMax A k (foundRow A k))
        (Scalar.abs (A.get (foundRow A k) (foundRow A k))) = true) :
      Chosen A k (.single (foundRow A k))
  | pair (nonzero : Scalar.isZero (Scalar.larger (Scalar.abs (A.get k k)) (colMax A k)) = false)
      (number : Scalar.isNaN (Scalar.abs (A.get k k)) = false)
      (small : Scalar.le (threshold * colMax A k) (Scalar.abs (A.get k k)) = false)
      (small_row : Scalar.le
        (threshold * colMax A k * (colMax A k / rowMax A k (foundRow A k)))
        (Scalar.abs (A.get k k)) = false)
      (small_diagonal : Scalar.le (threshold * rowMax A k (foundRow A k))
        (Scalar.abs (A.get (foundRow A k) (foundRow A k))) = false) :
      Chosen A k (.pair (foundRow A k))

theorem chosen_choosePivot (A : Grid n n α) (k : Fin n) : Chosen A k (choosePivot A k) := by
  simp only [choosePivot, Bool.or_eq_true]
  split
  · next h => exact .zeroColumn h
  next hzero =>
  rw [not_or, Bool.not_eq_true, Bool.not_eq_true] at hzero
  split
  · next h => exact .diagonal hzero.1 hzero.2 (.inl h)
  next hsmall =>
  rw [Bool.not_eq_true] at hsmall
  split
  · next h => exact .diagonal hzero.1 hzero.2 (.inr h)
  next hrow =>
  rw [Bool.not_eq_true] at hrow
  split
  · next h => exact .brought hzero.1 hzero.2 hsmall h
  · next h =>
    rw [Bool.not_eq_true] at h
    exact .pair hzero.1 hzero.2 hsmall hrow h

theorem le_foundRow (A : Grid n n α) (k : Fin n) : k ≤ foundRow A k := by
  rw [foundRow]
  rcases h : largestBelow A k with _ | ⟨p, v⟩
  · exact Nat.le_refl k.val
  · exact Nat.le_of_lt (largestBelow_eq_some h).1

/-- A diagonal entry that is too small for the column has an entry below it. -/
theorem largestBelow_isSome [PivotRules α] {A : Grid n n α} {k : Fin n}
    (number : Scalar.isNaN (Scalar.abs (A.get k k)) = false)
    (small : Scalar.le (threshold * colMax A k) (Scalar.abs (A.get k k)) = false) :
    largestBelow A k = some (foundRow A k, colMax A k) := by
  rcases h : largestBelow A k with _ | ⟨p, v⟩
  · rw [colMax, h] at small
    cases (PivotRules.threshold_zero_le (A.get k k) number).symm.trans small
  · simp only [foundRow, colMax, h, Option.getD_some]

/-- A pivot of order one comes from the trailing rows. -/
theorem le_of_choosePivot_single {A : Grid n n α} {k p : Fin n}
    (h : choosePivot A k = .single p) : k ≤ p := by
  have hc := chosen_choosePivot A k
  rw [h] at hc
  cases hc with
  | diagonal => exact Nat.le_refl k.val
  | brought => exact le_foundRow A k

/-- A pivot of order two comes from below the diagonal. -/
theorem lt_of_choosePivot_pair [PivotRules α] {A : Grid n n α} {k p : Fin n}
    (h : choosePivot A k = .pair p) : k < p := by
  have hc := chosen_choosePivot A k
  rw [h] at hc
  cases hc with
  | pair _ number small => exact (largestBelow_eq_some (largestBelow_isSome number small)).1

/-- So does one that has a next column, in any arithmetic. -/
theorem lt_of_choosePivot_pair_of_next {A : Grid n n α} {k l p : Fin n}
    (next : l.val = k.val + 1) (h : choosePivot A k = .pair p) : k < p := by
  have hc := chosen_choosePivot A k
  rw [h] at hc
  cases hc with
  | pair =>
    rcases hfound : largestBelow A k with _ | ⟨p, v⟩
    · have hl := Fin.le_def.mp (largestBelow_eq_none hfound l)
      omega
    · simp only [foundRow, hfound, Option.getD_some]
      exact (largestBelow_eq_some hfound).1

/-! ### Sweeps that end -/

theorem eliminate_pair_eq_ok {s : Progress n α} {k l p : Fin n} (h : l.val = k.val + 1) :
    s.eliminate k (.pair p) = .ok (s.pair k l p) := by
  have hlt : k.val + 1 < n := h ▸ l.isLt
  obtain rfl : l = ⟨k.val + 1, hlt⟩ := Fin.ext h
  simp only [Progress.eliminate, dif_pos hlt]
  rfl

theorem sweep_of_lt (s : Progress n α) (k : Fin n) :
    sweep s k.val =
      (s.eliminate k (choosePivot s.grid k)).bind fun t =>
        sweep t (k.val + (choosePivot s.grid k).width) := by
  rw [sweep, dif_pos k.isLt]
  rfl

theorem sweep_of_le {s : Progress n α} {k : Nat} (h : n ≤ k) : sweep s k = .ok s := by
  rw [sweep, dif_neg (Nat.not_lt.mpr h)]
  rfl

/-- A sweep never ends in a fault. -/
theorem exists_sweep [PivotRules α] (k : Nat) (s : Progress n α) (hk : k ≤ n) :
    ∃ t, sweep s k = .ok t ∧ Sweeps k s t := by
  induction hm : n - k using Nat.strongRecOn generalizing k s with
  | ind m ih =>
    rcases Nat.eq_or_lt_of_le hk with rfl | hlt
    · exact ⟨s, sweep_of_le (Nat.le_refl k), .done s⟩
    let c : Fin n := ⟨k, hlt⟩
    have hsweep := sweep_of_lt s c
    rcases hp : choosePivot s.grid c with _ | p | p
    · obtain ⟨t, ht, hst⟩ := ih (n - (k + 1)) (by omega) (k + 1) (s.skip c) hlt rfl
      rw [hp] at hsweep
      exact ⟨t, hsweep.trans ht, .skip c hp hst⟩
    · obtain ⟨t, ht, hst⟩ := ih (n - (k + 1)) (by omega) (k + 1) (s.single c p) hlt rfl
      rw [hp] at hsweep
      exact ⟨t, hsweep.trans ht, .single c p hp hst⟩
    · have hkp : k < p.val := lt_of_choosePivot_pair hp
      have hnext : k + 1 < n := Nat.lt_of_le_of_lt hkp p.isLt
      obtain ⟨t, ht, hst⟩ :=
        ih (n - (k + 2)) (by omega) (k + 2) (s.pair c ⟨k + 1, hnext⟩ p) hnext rfl
      rw [hp, eliminate_pair_eq_ok (l := ⟨k + 1, hnext⟩) rfl] at hsweep
      exact ⟨t, hsweep.trans ht, .pair c ⟨k + 1, hnext⟩ p rfl hp hst⟩

/-- What a sweep that ended went through, in any arithmetic. -/
theorem sweeps_of_sweep {k : Nat} {s t : Progress n α} (hk : k ≤ n) (h : sweep s k = .ok t) :
    Sweeps k s t := by
  induction hm : n - k using Nat.strongRecOn generalizing k s with
  | ind m ih =>
    rcases Nat.eq_or_lt_of_le hk with rfl | hlt
    · cases (sweep_of_le (Nat.le_refl k)).symm.trans h
      exact .done _
    let c : Fin n := ⟨k, hlt⟩
    rw [show k = c.val from rfl, sweep_of_lt] at h
    rcases hp : choosePivot s.grid c with _ | p | p
    · rw [hp] at h
      exact .skip c hp (ih (n - (k + 1)) (by omega) hlt h rfl)
    · rw [hp] at h
      exact .single c p hp (ih (n - (k + 1)) (by omega) hlt h rfl)
    · rw [hp] at h
      -- the step would have ended in a fault without a next column
      by_cases hnext : k + 1 < n
      · rw [eliminate_pair_eq_ok (l := ⟨k + 1, hnext⟩) rfl] at h
        exact .pair c ⟨k + 1, hnext⟩ p rfl hp (ih (n - (k + 2)) (by omega) hnext h rfl)
      · simp only [Progress.eliminate, c, dif_neg hnext] at h
        cases h

/-- A factorization of a grid is a sweep over all columns, and its answer is the status. -/
theorem exists_factorGrid [PivotRules α] (A : Grid n n α) (record : Record n) :
    ∃ t, Sweeps 0 ⟨A, record, 0⟩ t ∧ factorGrid A record = .ok {
      answer := if t.info = 0 then .ok () else .error (.zeroPivot t.info)
      state := (t.grid, t.record) } := by
  obtain ⟨t, ht, hst⟩ := exists_sweep 0 ⟨A, record, 0⟩ (Nat.zero_le n)
  refine ⟨t, hst, ?_⟩
  rw [factorGrid, ht]
  rfl

/-- A factorization that ends without an error is a sweep without a column of zeros. -/
theorem sweeps_of_factorGrid {A : Grid n n α} {record : Record n}
    {reply : Reply FactorizationError Unit (Grid n n α × Record n)}
    (h : factorGrid A record = .ok reply) (answer : reply.answer = .ok ()) :
    Sweeps 0 ⟨A, record, 0⟩ ⟨reply.state.1, reply.state.2, 0⟩ := by
  obtain ⟨t, ht, h⟩ := Checked.bind_eq_ok.mp h
  have hsweeps := sweeps_of_sweep (Nat.zero_le n) ht
  cases h
  obtain ⟨grid, record', info⟩ := t
  cases info with
  | zero => exact hsweeps
  | succ i => cases answer

/-- The factorization of a matrix of the right size is that of its grid. -/
theorem factor_ofGrid (A : Grid n n α) (record : Record n) :
    factor (.ofGrid A) record = (fun reply =>
      ⟨reply.answer, (.ofGrid reply.state.1, reply.state.2)⟩) <$> factorGrid A record := by
  have hsize : (Matrix.ofGrid A).size = (n, n) := rfl
  rw [factor, dif_pos hsize, Matrix.toGrid_ofGrid]
  rfl

/-! ### What a sweep leaves alone -/

omit [Scalar α] in
theorem get_interchange_of_lt (A : Grid n n α) {k : Fin n} (a b i : Fin n) {j : Fin n}
    (h : j < k) : (interchange A k a b).get i j = A.get i j := by
  rw [interchange, Grid.get_ofFn, if_neg fun hc => absurd hc.1 (Nat.not_le.mpr h)]

theorem get_eliminateSingle_of_lt (A : Grid n n α) {k : Fin n} (i : Fin n) {j : Fin n}
    (h : j < k) : (eliminateSingle A k).get i j = A.get i j := by
  have hk : ¬k.val < j.val := Nat.not_lt.mpr (Nat.le_of_lt h)
  rw [eliminateSingle, Grid.get_ofFn, if_neg fun hc => hk hc.1,
    if_neg fun hc => absurd (congrArg Fin.val hc.2) (Nat.ne_of_lt h)]

theorem get_eliminatePair_of_lt (A : Grid n n α) {k l : Fin n} (hkl : k < l) (i : Fin n)
    {j : Fin n} (h : j < k) : (eliminatePair A k l).get i j = A.get i j := by
  have hl : j < l := Nat.lt_trans h hkl
  rw [eliminatePair, Grid.get_ofFn, if_neg fun hc => absurd hc.1 (Nat.not_lt.mpr (Nat.le_of_lt hl)),
    if_neg fun hc => absurd (congrArg Fin.val hc.2) (Nat.ne_of_lt h),
    if_neg fun hc => absurd (congrArg Fin.val hc.2) (Nat.ne_of_lt hl)]

/-- Columns in front of the sweep stay as they are. -/
theorem Sweeps.grid_eq {k : Nat} {s t : Progress n α} (h : Sweeps k s t) (i : Fin n) {j : Fin n}
    (hj : j.val < k) : t.grid.get i j = s.grid.get i j := by
  induction h with
  | done => rfl
  | skip k _ _ ih => exact ih (Nat.lt_succ_of_lt hj)
  | single k p _ _ ih =>
    rw [ih (Nat.lt_succ_of_lt hj)]
    exact (get_eliminateSingle_of_lt _ i hj).trans (get_interchange_of_lt _ k p i hj)
  | pair k l p next _ _ ih =>
    have hkl : k < l := by rw [Fin.lt_def, next]; exact Nat.lt_succ_self k.val
    rw [ih (Nat.lt_of_lt_of_le hj (Nat.le_add_right k.val 2))]
    exact (get_eliminatePair_of_lt _ hkl i hj).trans (get_interchange_of_lt _ l p i hj)

/-- Entries of the record in front of the sweep stay as they are. -/
theorem Sweeps.record_eq {k : Nat} {s t : Progress n α} (h : Sweeps k s t) {j : Fin n}
    (hj : j.val < k) : t.record.get j = s.record.get j := by
  induction h with
  | done => rfl
  | skip k _ _ ih =>
    rw [ih (Nat.lt_succ_of_lt hj), Progress.skip, Vec.get_set, if_neg (Fin.ne_of_lt hj)]
  | single k p _ _ ih =>
    rw [ih (Nat.lt_succ_of_lt hj), Progress.single, Vec.get_set, if_neg (Fin.ne_of_lt hj)]
  | pair k l p next _ _ ih =>
    have hjl : j < l := by rw [Fin.lt_def, next]; exact Nat.lt_succ_of_lt hj
    rw [ih (Nat.lt_of_lt_of_le hj (Nat.le_add_right k.val 2)), Progress.pair, Vec.get_set,
      if_neg (Fin.ne_of_lt hjl), Vec.get_set, if_neg (Fin.ne_of_lt hj)]

/-- A status that names a column is kept. -/
theorem Sweeps.info_ne_zero {k : Nat} {s t : Progress n α} (h : Sweeps k s t) (hs : s.info ≠ 0) :
    t.info ≠ 0 := by
  induction h with
  | done => exact hs
  | skip k _ _ ih =>
    apply ih
    simp only [Progress.skip, if_neg hs]
    exact hs
  | single k p _ _ ih => exact ih hs
  | pair k l p _ _ _ ih => exact ih hs

/-- A sweep reports a column that exists, if it set out with such a report or with none. -/
theorem Sweeps.info_le {k : Nat} {s t : Progress n α} (h : Sweeps k s t) (hs : s.info ≤ n) :
    t.info ≤ n := by
  induction h with
  | done => exact hs
  | skip k _ _ ih =>
    apply ih
    rw [Progress.skip]
    split
    · exact k.isLt
    · exact hs
  | single k p _ _ ih => exact ih hs
  | pair k l p _ _ _ ih => exact ih hs

omit [Scalar α] in
theorem Progress.skip_info_ne_zero (s : Progress n α) (k : Fin n) : (s.skip k).info ≠ 0 := by
  simp only [Progress.skip]
  split
  · exact Nat.succ_ne_zero k.val
  · assumption

/-! ### The record of a sweep -/

theorem Sweeps.record_skip {s t : Progress n α} {k : Fin n}
    (h : Sweeps (k.val + 1) (s.skip k) t) : t.record.get k = k.val + 1 := by
  rw [h.record_eq (Nat.lt_succ_self k.val), Progress.skip, Vec.get_set, if_pos rfl]

theorem Sweeps.record_single {s t : Progress n α} {k p : Fin n}
    (h : Sweeps (k.val + 1) (s.single k p) t) : t.record.get k = p.val + 1 := by
  rw [h.record_eq (Nat.lt_succ_self k.val), Progress.single, Vec.get_set, if_pos rfl]

theorem Sweeps.record_pair {s t : Progress n α} {k l p : Fin n} (next : l.val = k.val + 1)
    (h : Sweeps (k.val + 2) (s.pair k l p) t) :
    t.record.get k = -(p.val + 1) ∧ t.record.get l = -(p.val + 1) := by
  have hkl : k < l := by rw [Fin.lt_def, next]; exact Nat.lt_succ_self k.val
  have hl : l.val < k.val + 2 := by rw [next]; exact Nat.lt_succ_self (k.val + 1)
  constructor
  · rw [h.record_eq (Nat.lt_trans hkl hl), Progress.pair, Vec.get_set, if_neg (Fin.ne_of_lt hkl),
      Vec.get_set, if_pos rfl]
  · rw [h.record_eq hl, Progress.pair, Vec.get_set, if_pos rfl]

/-- The record splits the columns from `k` on into blocks of order one and two, each with the row
that was brought into place. -/
inductive Record.Splits (record : Record n) : Nat → Prop
  | done : record.Splits n
  | single (k p : Fin n) (le : k ≤ p) (entry : record.get k = p.val + 1)
      (rest : record.Splits (k.val + 1)) : record.Splits k.val
  | pair (k l p : Fin n) (next : l.val = k.val + 1) (le : l ≤ p)
      (entry : record.get k = -(p.val + 1)) (entry' : record.get l = -(p.val + 1))
      (rest : record.Splits (k.val + 2)) : record.Splits k.val

/-- The record that a sweep leaves splits the columns that it went over. -/
theorem Sweeps.splits {k : Nat} {s t : Progress n α} (h : Sweeps k s t) :
    t.record.Splits k := by
  induction h with
  | done => exact .done
  | skip k _ rest ih => exact .single k k (Nat.le_refl k.val) rest.record_skip ih
  | single k p choice rest ih =>
    exact .single k p (le_of_choosePivot_single choice) rest.record_single ih
  | pair k l p next choice rest ih =>
    obtain ⟨hk, hl⟩ := rest.record_pair next
    have hkp : k.val < p.val := lt_of_choosePivot_pair_of_next next choice
    refine .pair k l p next ?_ hk hl ih
    rw [Fin.le_def, next]
    exact hkp

/-! ### The old record -/

omit [Scalar α] in
theorem record_set_eq {record record' : Record n} {k : Fin n} (v : Int)
    (h : ∀ j, j < k → record.get j = record'.get j) {j : Fin n} (hj : j.val < k.val + 1) :
    (record.set k.val v k.isLt).get j = (record'.set k.val v k.isLt).get j := by
  rw [Vec.get_set, Vec.get_set]
  split
  · rfl
  · next hne => exact h j (Nat.lt_of_le_of_ne (Nat.le_of_lt_succ hj) fun heq => hne (Fin.ext heq))

/-- The steps from a column on write every entry of the record from there on. -/
theorem sweep_eq (k : Nat) (A : Grid n n α) (info : Nat) {record record' : Record n}
    (h : ∀ j : Fin n, j.val < k → record.get j = record'.get j) :
    sweep ⟨A, record, info⟩ k = sweep ⟨A, record', info⟩ k := by
  induction hm : n - k using Nat.strongRecOn generalizing k A info record record' with
  | ind m ih =>
    rcases Nat.lt_or_ge k n with hlt | hge
    · let c : Fin n := ⟨k, hlt⟩
      rw [show k = c.val from rfl, sweep_of_lt, sweep_of_lt]
      have hset : ∀ v : Int, ∀ j : Fin n, j.val < k + 1 →
          (record.set k v hlt).get j = (record'.set k v hlt).get j :=
        fun v j hj => record_set_eq (k := c) v h hj
      cases choosePivot A c with
      | zeroColumn => exact ih (n - (k + 1)) (by omega) (k + 1) _ _ (hset _) rfl
      | single p => exact ih (n - (k + 1)) (by omega) (k + 1) _ _ (hset _) rfl
      | pair p =>
        by_cases hnext : k + 1 < n
        · rw [eliminate_pair_eq_ok (l := ⟨k + 1, hnext⟩) rfl,
            eliminate_pair_eq_ok (l := ⟨k + 1, hnext⟩) rfl]
          exact ih (n - (k + 2)) (by omega) (k + 2) _ _
            (fun j hj => record_set_eq (k := ⟨k + 1, hnext⟩) _ (hset _) hj) rfl
        · simp only [Progress.eliminate, c, dif_neg hnext]
    · have heq : record = record' := Vec.ext_get fun j => h j (Nat.lt_of_lt_of_le j.isLt hge)
      rw [heq]

/-- A factorization does not look at the old record. -/
theorem factorGrid_eq (A : Grid n n α) (record record' : Record n) :
    factorGrid A record = factorGrid A record' := by
  rw [factorGrid, factorGrid, sweep_eq 0 A 0 fun j hj => absurd hj (Nat.not_lt_zero j.val)]

end Ldl

end ConicSaddle
