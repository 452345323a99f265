/-!
# Faults

A request that breaks a precondition has no answer: it ends in a fault.  Errors that a caller is
meant to handle are answers and have types of their own.

* `Fault`: why a request was refused;
* `Checked`: a computation that may end in a fault;
* `require`: go on only under a condition;
* `Reply`: an answer together with the state it leaves, also after an error.

Counts are natural numbers, and a count that a machine word cannot hold is a fault.  `Word.add`,
`Word.mul` and `Word.sum` say where.
-/

namespace ConicSaddle

/-- Why a request has no answer. -/
inductive Fault
  /-- The operands do not have the shapes that the operation needs. -/
  | shape
  /-- A position lies outside the stored entries. -/
  | position
  /-- A count does not fit in a machine word. -/
  | overflow
  /-- More storage was asked for than a machine can address. -/
  | capacity
  deriving DecidableEq, Repr

/-- A computation that may end in a fault. -/
abbrev Checked := Except Fault

/-- Goes on under the condition and ends in the fault without it. -/
def require (p : Prop) [Decidable p] (fault : Fault) : Checked Unit :=
  if p then pure () else throw fault

@[simp] theorem require_of_pos {p : Prop} [Decidable p] (h : p) (fault : Fault) :
    require p fault = .ok () := by
  simp only [require, if_pos h]; rfl

@[simp] theorem require_of_neg {p : Prop} [Decidable p] (h : ¬p) (fault : Fault) :
    require p fault = .error fault := by
  simp only [require, if_neg h]; rfl

/-- The answer of a call and the state that the call leaves, whatever the answer is. -/
structure Reply (ε ρ σ : Type) where
  answer : Except ε ρ
  state : σ

/-! ### Counts in a machine word -/

namespace Word

/-- The number of values of a machine word. -/
def limit : Nat := 0x10000000000000000

/-- A count, if a machine word can hold it. -/
def fit (n : Nat) : Checked Nat :=
  if n < limit then pure n else throw .overflow

/-- A sum of two counts. -/
def add (m n : Nat) : Checked Nat := fit (m + n)

/-- A product of two counts. -/
def mul (m n : Nat) : Checked Nat := fit (m * n)

/-- The sum of a list of counts, each partial sum from the left fitting in a word. -/
def sum (ns : List Nat) : Checked Nat := ns.foldlM add 0

/-- The number of entries that are too many for one array. -/
def storageLimit : Nat := 0x1000000000000000

/-- The number of entries of one array, if a machine can address that many. -/
def storage (n : Nat) : Checked Nat :=
  if n < storageLimit then pure n else throw .capacity

theorem fit_of_lt {n : Nat} (h : n < limit) : fit n = .ok n := by
  simp only [fit, if_pos h]; rfl

theorem fit_of_le {n : Nat} (h : limit ≤ n) : fit n = .error .overflow := by
  simp only [fit, if_neg (Nat.not_lt.mpr h)]; rfl

theorem fit_eq_ok_iff {m n : Nat} : fit n = .ok m ↔ n < limit ∧ m = n := by
  constructor
  · intro h
    by_cases hn : n < limit
    · rw [fit_of_lt hn] at h
      exact ⟨hn, (Except.ok.inj h).symm⟩
    · rw [fit_of_le (Nat.not_lt.mp hn)] at h
      cases h
  · rintro ⟨hn, rfl⟩
    exact fit_of_lt hn

end Word

end ConicSaddle
