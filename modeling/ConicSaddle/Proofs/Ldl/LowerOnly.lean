import Mathlib.Data.List.Basic
import Mathlib.Order.Fin.Basic
import ConicSaddle.Proofs.Ldl.Inertia
import ConicSaddle.Proofs.Ldl.Substitution
import ConicSaddle.Proofs.Nan.Rules

/-!
# The triangle that is looked at

Factoring, solving and reading the inertia never look above the diagonal, in any arithmetic and with
any values there, and nothing is written there.  Each step is carried over from one grid to another
one with the same lower triangle.

* `Grid.SameLower`: two grids have the same lower triangle;
* `Grid.SameLower.choosePivot_eq`: the same pivot is chosen;
* `Sweeps.exists_sameLower`, `Sweeps.sameLower`: a sweep takes the same steps and leaves the same
  lower triangle;
* `exists_factorGrid_sameLower`: the factorization;
* `solveGrid_eq_of_sameLower`, `inertia_eq_of_sameLower`: what is made of the factors;
* `Sweeps.above_eq`: what stands above the diagonal stays as it was;
* `upper_triangle_ignored`: the statement for two matrices that differ above the diagonal.
-/

namespace ConicSaddle

variable {α : Type} {n : ℕ}

/-- Two square grids have the same entries on and below the diagonal. -/
def Grid.SameLower (A B : Grid n n α) : Prop := ∀ i j, j ≤ i → A.get i j = B.get i j

namespace Grid.SameLower

open Ldl

variable {A B : Grid n n α} (h : A.SameLower B)
include h

/-- The grids stand for the same symmetric matrix. -/
theorem symm_eq (i j : Fin n) : A.symm i j = B.symm i j := by
  unfold symm
  split
  · next hji => exact h i j hji
  · next hji => exact h j i (le_of_not_ge hji)

theorem diagonal_eq (i : Fin n) : A.get i i = B.get i i := h i i (Nat.le_refl i.val)

theorem below_eq {i j : Fin n} (hij : j < i) : A.get i j = B.get i j := h i j (Nat.le_of_lt hij)

theorem interchange (k a b : Fin n) :
    (interchange A k a b).SameLower (Ldl.interchange B k a b) := by
  intro i j hji
  simp only [Ldl.interchange, get_ofFn, h.symm_eq, h i j hji]

variable [Scalar α]

/-! ### The choice of pivots -/

theorem largestBelow_eq (k : Fin n) : largestBelow A k = largestBelow B k := by
  unfold largestBelow
  refine List.foldl_ext _ _ _ fun best i hi => ?_
  rw [h.below_eq (mem_below.mp hi)]

theorem rowMax_eq (k p : Fin n) : rowMax A k p = rowMax B k p := by
  simp only [rowMax, h.symm_eq]

/-- The choice is made by entries on and below the diagonal. -/
theorem choosePivot_eq (k : Fin n) : choosePivot A k = choosePivot B k := by
  simp only [choosePivot, h.largestBelow_eq, h.rowMax_eq, h.diagonal_eq]

/-! ### Elimination -/

theorem eliminateSingle (k : Fin n) :
    (eliminateSingle A k).SameLower (Ldl.eliminateSingle B k) := by
  intro i j hji
  simp only [Ldl.eliminateSingle, get_ofFn, h.diagonal_eq, h i j hji]
  split
  · next hj => rw [h.below_eq hj.1, h.below_eq (lt_of_lt_of_le hj.1 hji)]
  · split
    · next hi => rw [h.below_eq hi.1]
    · rfl

theorem pairMultipliers_eq {k l j : Fin n} (hkl : k < l) (hlj : l < j) :
    pairMultipliers A k l j = pairMultipliers B k l j := by
  simp only [pairMultipliers, h.diagonal_eq, h.below_eq hkl, h.below_eq hlj,
    h.below_eq (lt_trans hkl hlj)]

theorem eliminatePair {k l : Fin n} (hkl : k < l) :
    (eliminatePair A k l).SameLower (Ldl.eliminatePair B k l) := by
  intro i j hji
  simp only [Ldl.eliminatePair, get_ofFn, h i j hji]
  split
  · next hj =>
    have hli : l < i := lt_of_lt_of_le hj.1 hji
    rw [h.pairMultipliers_eq hkl hj.1, h.below_eq hli, h.below_eq (lt_trans hkl hli)]
  · split
    · next hi => rw [h.pairMultipliers_eq hkl hi.1]
    · split
      · next hi => rw [h.pairMultipliers_eq hkl hi.1]
      · rfl

/-! ### Substitution -/

theorem undoSingle_eq (b : Vector α n) (k : Fin n) : undoSingle A b k = undoSingle B b k := by
  refine Vec.ext_get fun i => ?_
  simp only [undoSingle, Vec.get_ofFn, h.diagonal_eq]
  split
  · next hi => rw [h.below_eq hi]
  · rfl

theorem undoPair_eq (b : Vector α n) {k l : Fin n} (hkl : k < l) :
    undoPair A b k l = undoPair B b k l := by
  refine Vec.ext_get fun i => ?_
  simp only [undoPair, Vec.get_ofFn, h.diagonal_eq, h.below_eq hkl]
  split
  · next hi => rw [h.below_eq hi, h.below_eq (lt_trans hkl hi)]
  · rfl

omit [Scalar α] in
/-- The part of a column below a row that is not above the diagonal. -/
theorem col_extract_eq {c k : Fin n} (hck : c ≤ k) :
    (A.col c).toArray.extract (k.val + 1) n = (B.col c).toArray.extract (k.val + 1) n := by
  apply Array.ext
  · simp only [Array.size_extract, Vector.size_toArray]
  · intro i hi _
    rw [Array.size_extract, Vector.size_toArray] at hi
    have hlt : k.val + 1 + i < n := by omega
    have hA := A.get_col ⟨k.val + 1 + i, hlt⟩ c
    have hB := B.get_col ⟨k.val + 1 + i, hlt⟩ c
    have hbelow : c < ⟨k.val + 1 + i, hlt⟩ := by
      rw [Fin.lt_def]
      have : c.val ≤ k.val := hck
      show c.val < k.val + 1 + i
      omega
    rw [Array.getElem_extract, Array.getElem_extract]
    exact hA.trans ((h.below_eq hbelow).trans hB.symm)

theorem reduceBy_eq (b : Vector α n) {c k : Fin n} (hck : c ≤ k) :
    reduceBy A b c k = reduceBy B b c k := by
  unfold reduceBy
  rw [h.col_extract_eq hck]

end Grid.SameLower

namespace Ldl

/-! ### The factorization -/

variable [Scalar α]

/-- A state of the factorization with the same lower triangle. -/
structure Progress.SameLower (s s' : Progress n α) : Prop where
  grid : s.grid.SameLower s'.grid
  record_eq : s'.record = s.record
  info_eq : s'.info = s.info

omit [Scalar α] in
/-- A column that counts as zero. -/
theorem Progress.SameLower.skip {s s' : Progress n α} (h : s.SameLower s') (k : Fin n) :
    (s.skip k).SameLower (s'.skip k) where
  grid := h.grid
  record_eq := by rw [Progress.skip, Progress.skip, h.record_eq]
  info_eq := by rw [Progress.skip, Progress.skip, h.info_eq]

/-- A pivot of order one. -/
theorem Progress.SameLower.single {s s' : Progress n α} (h : s.SameLower s') (k p : Fin n) :
    (s.single k p).SameLower (s'.single k p) where
  grid := (h.grid.interchange k k p).eliminateSingle k
  record_eq := by rw [Progress.single, Progress.single, h.record_eq]
  info_eq := h.info_eq

/-- A pivot of order two. -/
theorem Progress.SameLower.pair {s s' : Progress n α} (h : s.SameLower s') {k l : Fin n}
    (hkl : k < l) (p : Fin n) : (s.pair k l p).SameLower (s'.pair k l p) where
  grid := (h.grid.interchange k l p).eliminatePair hkl
  record_eq := by rw [Progress.pair, Progress.pair, h.record_eq]
  info_eq := h.info_eq

/-- A sweep takes the same steps with the same lower triangle, and leaves the same one. -/
theorem Sweeps.exists_sameLower {k : ℕ} {s s' t : Progress n α} (h : Sweeps k s t)
    (same : s.SameLower s') : ∃ t', Sweeps k s' t' ∧ t.SameLower t' := by
  induction h generalizing s' with
  | done => exact ⟨s', .done s', same⟩
  | skip k choice _ ih =>
    obtain ⟨t', hst, htt⟩ := ih (same.skip k)
    exact ⟨t', .skip k ((same.grid.choosePivot_eq k).symm.trans choice) hst, htt⟩
  | single k p choice _ ih =>
    obtain ⟨t', hst, htt⟩ := ih (same.single k p)
    exact ⟨t', .single k p ((same.grid.choosePivot_eq k).symm.trans choice) hst, htt⟩
  | pair k l p next choice _ ih =>
    have hkl : k < l := by
      rw [Fin.lt_def, next]
      exact Nat.lt_succ_self k.val
    obtain ⟨t', hst, htt⟩ := ih (same.pair hkl p)
    exact ⟨t', .pair k l p next ((same.grid.choosePivot_eq k).symm.trans choice) hst, htt⟩

/-- The steps are those of the algorithm. -/
theorem Sweeps.sweep_eq {k : ℕ} {s t : Progress n α} (h : Sweeps k s t) : sweep s k = .ok t := by
  induction h with
  | done => exact sweep_of_le (Nat.le_refl n)
  | skip k choice _ ih =>
    rw [sweep_of_lt, choice]
    exact ih
  | single k p choice _ ih =>
    rw [sweep_of_lt, choice]
    exact ih
  | pair k l p next choice _ ih =>
    rw [sweep_of_lt, choice, eliminate_pair_eq_ok next]
    exact ih

/-- Whatever the old records are, sweeps over grids with the same lower triangle end alike. -/
theorem Sweeps.sameLower {A B : Grid n n α} (h : A.SameLower B) {record record' : Record n}
    {t t' : Progress n α} (hA : Sweeps 0 ⟨A, record, 0⟩ t) (hB : Sweeps 0 ⟨B, record', 0⟩ t') :
    t.SameLower t' := by
  have hstart : Progress.SameLower ⟨A, record, 0⟩ ⟨B, record, 0⟩ := ⟨h, rfl, rfl⟩
  obtain ⟨u, hu, same⟩ := hA.exists_sameLower hstart
  have hold : sweep ⟨B, record, 0⟩ 0 = sweep ⟨B, record', 0⟩ 0 :=
    Ldl.sweep_eq 0 B 0 fun j hj => absurd hj (Nat.not_lt_zero j.val)
  rw [hu.sweep_eq, hB.sweep_eq] at hold
  rwa [← Except.ok.inj hold]

/-- Factorizations of grids with the same lower triangle answer alike, and leave the same lower
triangle and the same pivots. -/
theorem exists_factorGrid_sameLower [PivotRules α] {A B : Grid n n α} (h : A.SameLower B)
    (record : Record n) :
    ∃ reply reply', factorGrid A record = .ok reply ∧ factorGrid B record = .ok reply' ∧
      reply'.answer = reply.answer ∧ reply.state.1.SameLower reply'.state.1 ∧
      reply'.state.2 = reply.state.2 ∧ reply.state.2.Splits 0 := by
  obtain ⟨t, hsweep, hA⟩ := exists_factorGrid A record
  have hstart : Progress.SameLower ⟨A, record, 0⟩ ⟨B, record, 0⟩ := ⟨h, rfl, rfl⟩
  obtain ⟨t', hsweep', same⟩ := hsweep.exists_sameLower hstart
  refine ⟨_, ⟨if t'.info = 0 then .ok () else .error (.zeroPivot t'.info), (t'.grid, t'.record)⟩,
    hA, ?_, ?_, same.grid, same.record_eq, hsweep.splits⟩
  · rw [factorGrid, hsweep'.sweep_eq]
    rfl
  · rw [same.info_eq]

/-! ### What is made of the factors -/

variable {A B : Grid n n α} {record : Record n}

theorem Solves.of_sameLower {k : ℕ} {b z : Vector α n} (hz : Solves A record k b z)
    (h : A.SameLower B) : Solves B record k b z := by
  induction hz with
  | done b => exact .done b
  | single k p entry _ ih =>
    rw [h.undoSingle_eq] at ih
    rw [h.reduceBy_eq _ (Nat.le_refl k.val)]
    exact .single k p entry ih
  | pair k l p next entry entry' _ ih =>
    have hkl : k < l := by
      rw [Fin.lt_def, next]
      exact Nat.lt_succ_self k.val
    rw [h.undoPair_eq _ hkl] at ih
    rw [h.reduceBy_eq _ (Nat.le_refl l.val), h.reduceBy_eq _ (le_of_lt hkl)]
    exact .pair k l p next entry entry' ih

/-- Factors with the same lower triangle have the same solutions. -/
theorem solveGrid_eq_of_sameLower (h : A.SameLower B) (hsplits : record.Splits 0)
    (b : Vector α n) : solveGrid A record b = solveGrid B record b := by
  obtain ⟨z, hz⟩ := exists_solves (A := A) hsplits b
  rw [solveGrid_of_solves hz, solveGrid_of_solves (hz.of_sameLower h)]

/-- The inertia is read from the diagonal and from below it. -/
theorem inertia_eq_of_sameLower (h : A.SameLower B) (hsplits : record.Splits 0) :
    inertia (.ofGrid A) record = inertia (.ofGrid B) record := by
  obtain ⟨blocks, names⟩ := hsplits.exists_names
  have hB := names.reads.inertiaFrom_eq (fun i j _ => Matrix.entry_ofGrid B i j) .none
  have hA := names.reads.inertiaFrom_eq (A := .ofGrid A) (F := B) (fun i j hij => by
    rw [Matrix.entry_ofGrid, h i j hij]) .none
  exact hA.trans hB.symm

/-! ### What stands above the diagonal -/

omit [Scalar α] in
theorem get_interchange_above (A : Grid n n α) (k a b : Fin n) {i j : Fin n} (h : i < j) :
    (interchange A k a b).get i j = A.get i j := by
  have htriangle : ¬(k ≤ j ∧ j ≤ i) := fun hc => not_lt_of_ge hc.2 h
  rw [interchange, Grid.get_ofFn, if_neg htriangle]

theorem get_eliminateSingle_above (A : Grid n n α) (k : Fin n) {i j : Fin n} (h : i < j) :
    (eliminateSingle A k).get i j = A.get i j := by
  have htriangle : ¬(k < j ∧ j ≤ i) := fun hc => not_lt_of_ge hc.2 h
  have hcolumn : ¬(k < i ∧ j = k) := fun hc => lt_asymm h (hc.2 ▸ hc.1)
  rw [eliminateSingle, Grid.get_ofFn, if_neg htriangle, if_neg hcolumn]

theorem get_eliminatePair_above (A : Grid n n α) {k l : Fin n} (hkl : k < l) {i j : Fin n}
    (h : i < j) : (eliminatePair A k l).get i j = A.get i j := by
  have htriangle : ¬(l < j ∧ j ≤ i) := fun hc => not_lt_of_ge hc.2 h
  have hfirst : ¬(l < i ∧ j = k) := fun hc => lt_asymm h (hc.2 ▸ lt_trans hkl hc.1)
  have hsecond : ¬(l < i ∧ j = l) := fun hc => lt_asymm h (hc.2 ▸ hc.1)
  rw [eliminatePair, Grid.get_ofFn, if_neg htriangle, if_neg hfirst, if_neg hsecond]

/-- No step writes above the diagonal. -/
theorem Sweeps.above_eq {k : ℕ} {s t : Progress n α} (h : Sweeps k s t) {i j : Fin n}
    (hij : i < j) : t.grid.get i j = s.grid.get i j := by
  induction h with
  | done => rfl
  | skip k _ _ ih => exact ih
  | single k p _ _ ih =>
    exact ih.trans ((get_eliminateSingle_above _ k hij).trans (get_interchange_above _ k k p hij))
  | pair k l p next _ _ ih =>
    have hkl : k < l := by
      rw [Fin.lt_def, next]
      exact Nat.lt_succ_self k.val
    exact ih.trans ((get_eliminatePair_above _ hkl hij).trans (get_interchange_above _ k l p hij))

/-- **What stands above the diagonal counts for nothing.**  A factorization leaves every entry above
the diagonal as it was.  For two matrices with the same lower triangle, whatever their records held
before, the factorizations answer alike and leave the same record and the same lower triangle, and
from then on every right hand side has the same solution and the inertia is the same. -/
theorem upper_triangle_ignored [PivotRules α] (A : Grid n n α) (old : Record n) :
    ∃ (answer : Except FactorizationError Unit) (F : Grid n n α) (record : Record n),
      factor (.ofGrid A) old = .ok ⟨answer, (.ofGrid F, record)⟩ ∧
      (∀ i j, i < j → F.get i j = A.get i j) ∧
      ∀ (B : Grid n n α) (old' : Record n), A.SameLower B →
        ∃ F' : Grid n n α, factor (.ofGrid B) old' = .ok ⟨answer, (.ofGrid F', record)⟩ ∧
          (∀ i j, i < j → F'.get i j = B.get i j) ∧
          F.SameLower F' ∧
          (∀ b : Vector α n, ∃ x, solve (.ofGrid F) record b.toArray = .ok x ∧
            solve (.ofGrid F') record b.toArray = .ok x) ∧
          ∃ found, inertia (.ofGrid F) record = .ok found ∧
            inertia (.ofGrid F') record = .ok found := by
  obtain ⟨t, hsweep, hA⟩ := exists_factorGrid A old
  have hsplits := hsweep.splits
  refine ⟨if t.info = 0 then .ok () else .error (.zeroPivot t.info), t.grid, t.record, ?_,
    fun i j hij => hsweep.above_eq hij, fun B old' h => ?_⟩
  · rw [factor_ofGrid, hA]
    rfl
  -- the same steps lead from the other matrix to factors with the same lower triangle
  have hstart : Progress.SameLower ⟨A, old, 0⟩ ⟨B, old, 0⟩ := ⟨h, rfl, rfl⟩
  obtain ⟨t', hsweep', same⟩ := hsweep.exists_sameLower hstart
  refine ⟨t'.grid, ?_, fun i j hij => hsweep'.above_eq hij, same.grid, fun b => ?_, ?_⟩
  · rw [factor_ofGrid, factorGrid_eq B old' old, factorGrid, hsweep'.sweep_eq, Checked.ok_bind,
      ← same.record_eq, ← same.info_eq]
    rfl
  · obtain ⟨x, hx⟩ := exists_solves (A := t.grid) hsplits b
    have hsolved := solveGrid_of_solves hx
    refine ⟨x, (solve_ofGrid _ _ b).trans hsolved, ?_⟩
    rw [solve_ofGrid, ← solveGrid_eq_of_sameLower same.grid hsplits]
    exact hsolved
  · obtain ⟨found, hfound⟩ := exists_inertia t.grid hsplits
    exact ⟨found, hfound, (inertia_eq_of_sameLower same.grid hsplits).symm.trans hfound⟩

/-- A matrix of order three with one value above the diagonal.  The last two rows and columns are
exchanged for a pivot of order two. -/
def exchanged (above : Float) : Grid 3 3 Float :=
  .ofFn fun i j =>
    if i < j then above
    else if i.val = 2 ∧ j.val = 0 then 1
    else if i.val = 1 ∧ j.val = 1 then 2
    else 0

/-- NaNs above the diagonal stay where they are, and the factors below them are those that there are
with zeros in their place. -/
theorem upper_triangle_ignored_exchanged :
    ∃ (F F' : Grid 3 3 Float) (record : Record 3),
      factor (.ofGrid (exchanged 0)) (.replicate 3 0) = .ok ⟨.ok (), (.ofGrid F, record)⟩ ∧
      factor (.ofGrid (exchanged (0 / 0))) (.replicate 3 7) =
        .ok ⟨.ok (), (.ofGrid F', record)⟩ ∧
      record = #v[-3, -3, 3] ∧ F.SameLower F' ∧ Scalar.isNaN (F'.get 0 2) = true := by
  have hdone : (fun reply => (reply.answer, reply.state.2)) <$>
      factor (.ofGrid (exchanged 0)) (.replicate 3 0) = .ok (.ok (), #v[-3, -3, 3]) := by
    decide +kernel
  have hlower : (exchanged 0).SameLower (exchanged (0 / 0)) := by
    intro i j hji
    rw [exchanged, exchanged, Grid.get_ofFn, Grid.get_ofFn, if_neg (not_lt_of_ge hji),
      if_neg (not_lt_of_ge hji)]
  obtain ⟨answer, F, record, hfactor, -, hother⟩ :=
    upper_triangle_ignored (exchanged 0) (.replicate 3 0)
  rw [hfactor] at hdone
  cases hdone
  obtain ⟨F', hfactor', habove, hsame, -, -⟩ := hother _ (.replicate 3 7) hlower
  refine ⟨F, F', _, hfactor, hfactor', rfl, hsame, ?_⟩
  rw [habove 0 2 (by decide)]
  decide +kernel

end Ldl

end ConicSaddle
