import ConicSaddle.Proofs.Kkt.LowerOnly

/-!
# Two runs that differ above diagonals

The same requests are made twice, with other entries above the diagonals of the Hessians and of the
semidefinite blocks in constraints and right hand sides.  Nothing that is answered tells the runs
apart.  The arithmetic may be any in which zero counts as zero and a pivot of order two stays out of
the last column, so that every entry may be an infinity or a NaN.

* `Session.Request`, `Session.Response`: a call with all that it is given, and what it shows;
* `Session.perform`, `Session.responses`: one request, and a whole run;
* `SameRequest`, `SameRequests`: requests that differ above diagonals only;
* `Session.SameLower`: sessions with the same factors below the diagonals, `SameLower.perform` for
  one request and `SameLower.responses_eq` for a run;
* `Session.only_lower_triangles`: the statement for runs that begin without solvers.
-/

namespace ConicSaddle

open Vec (entries)

variable {α : Type}

/-! ### Requests -/

namespace Session

/-- A call with all that it is given.  A solver is known by its number. -/
inductive Request (α : Type)
  | create (G : Matrix α) (dims : ConeDims) (A : Matrix α) (mnl : ℕ) (settings : Settings α)
  | factor (id : ℕ) (W : Scaling α) (H Df : Option (Matrix α))
  | inertia (id : ℕ)
  | solve (id : ℕ) (handle : Handle α) (rhs : Rhs α)

/-- What a call shows: its answer, and the solution where a solve succeeded.  There may be no solver
of the number. -/
inductive Response (α : Type)
  | created (answer : Except KktError ℕ)
  | factored (answer : Except KktError (Handle α))
  | inertia (found : Option Inertia)
  | solved (answer : Except KktError (Rhs α))
  | absent

variable [Scalar α]

/-- A request to one of the solvers. -/
def ask (s : Session α) (id : ℕ) (call : Fin s.solvers.size → Checked (Response α × Session α)) :
    Checked (Response α × Session α) :=
  if h : id < s.solvers.size then call ⟨id, h⟩ else pure (.absent, s)

/-- What a request shows, and the session that it leaves. -/
def perform (s : Session α) : Request α → Checked (Response α × Session α)
  | .create G dims A mnl settings => do
    let out ← s.create G dims A mnl settings
    pure (.created out.answer, out.state)
  | .factor id W H Df => s.ask id fun id => do
    let out ← s.factor id W H Df
    pure (.factored out.answer, out.state)
  | .inertia id => s.ask id fun id => do
    let found ← Session.inertia s id
    pure (.inertia found, s)
  | .solve id handle rhs => s.ask id fun id => do
    let out ← s.solve id handle rhs
    pure (.solved (out.answer.map fun _ => out.state.2), out.state.1)

/-- The session after a request.  A fault leaves it as it is. -/
def after (s : Session α) (r : Request α) : Session α :=
  match s.perform r with
  | .error _ => s
  | .ok (_, t) => t

/-- What the requests of a run show, one after the other. -/
def responses : Session α → List (Request α) → List (Checked (Response α))
  | _, [] => []
  | s, r :: rs => (Prod.fst <$> s.perform r) :: (s.after r).responses rs

end Session

open Session (Request Response)

variable [Scalar α]

/-- The same request but for entries above diagonals: of semidefinite blocks in the columns of the
conic constraints, of the Hessian, and of semidefinite blocks in a right hand side.  The session
knows the blocks of its solvers. -/
inductive SameRequest (s : Session α) : Request α → Request α → Prop
  | create {G G' : Matrix α} {dims : ConeDims} {A : Matrix α} {mnl : ℕ} {settings : Settings α}
      (constraints : Matrix.AgreeAt (fun i _ => VisibleIn dims.blocks i) G G') :
      SameRequest s (.create G dims A mnl settings) (.create G' dims A mnl settings)
  | factor {id : ℕ} {W : Scaling α} {H H' Df : Option (Matrix α)} (hessian : SameHessian H H') :
      SameRequest s (.factor id W H Df) (.factor id W H' Df)
  | inertia (id : ℕ) : SameRequest s (.inertia id) (.inertia id)
  | solve {id : ℕ} {handle : Handle α} {rhs rhs' : Rhs α}
      (visible : ∀ X, s.solvers[id]? = some X →
        rhs.SameVisible (X.problem.dims.layout X.problem.mnl) rhs') :
      SameRequest s (.solve id handle rhs) (.solve id handle rhs')

/-- The same requests but for entries above diagonals, in a run from the session. -/
inductive SameRequests : Session α → List (Request α) → List (Request α) → Prop
  | nil (s : Session α) : SameRequests s [] []
  | cons {s : Session α} {r r' : Request α} {rs rs' : List (Request α)}
      (head : SameRequest s r r') (tail : SameRequests (s.after r) rs rs') :
      SameRequests s (r :: rs) (r' :: rs')

/-! ### Making a solver -/

/-- Two problems are asked for alike: with the same fault, with the same error, or with constraints
that look the same. -/
inductive Problem.NewAlike : Checked (Except KktError (Problem α)) →
    Checked (Except KktError (Problem α)) → Prop
  | fault (fault : Fault) : NewAlike (.error fault) (.error fault)
  | refused (e : KktError) : NewAlike (.ok (.error e)) (.ok (.error e))
  | made {P : Problem α} {g : Grid P.G.rows P.G.cols α} (constraints : P.SameConic g) :
      NewAlike (.ok (.ok P)) (.ok (.ok (P.withConic g)))

theorem Problem.new_alike {G G' : Matrix α} {dims : ConeDims} (A : Matrix α) (mnl : ℕ)
    (settings : Settings α) (h : Matrix.AgreeAt (fun i _ => VisibleIn dims.blocks i) G G') :
    NewAlike (Problem.new G dims A mnl settings) (Problem.new G' dims A mnl settings) := by
  obtain ⟨rows, cols, g⟩ := G
  obtain ⟨rows', cols', g'⟩ := G'
  obtain ⟨hsize, hat⟩ := h
  obtain ⟨rfl, rfl⟩ : rows' = rows ∧ cols' = cols := Prod.mk.inj hsize
  unfold Problem.new
  split
  · exact .refused _
  split
  · exact .fault _
  · split
    · split
      · split
        · exact .fault _
        · split
          · split
            · exact .made hat
            · exact .fault _
          · exact .fault _
      · exact .refused _
    · exact .refused _

/-- The solver of a problem as one for other constraints. -/
def Solver.withConic {P : Problem α} (S : Solver P) (g : Grid P.G.rows P.G.cols α) :
    Solver (P.withConic g) where
  id := S.id
  generation := S.generation
  status := S.status
  K := S.K
  copy := S.copy
  record := S.record
  u := S.u
  g := S.g
  b := S.b
  residual := S.residual
  candidate := S.candidate
  workspace := S.workspace

/-- A solver is made without a look at the constraints. -/
theorem Solver.new_withConic (P : Problem α) (g : Grid P.G.rows P.G.cols α) (id : ℕ) :
    Solver.new (P.withConic g) id = (fun S => S.withConic g) <$> Solver.new P id := by
  simp only [Solver.new, map_bind]
  rfl

/-- A new solver and one for other constraints. -/
theorem Solver.new_sameLower {P : Problem α} {S : Solver P} {id : ℕ}
    (done : Solver.new P id = .ok S) (g : Grid P.G.rows P.G.cols α) :
    S.SameLower (S.withConic g) := by
  have hroom : P.dims.maxOrder ≤ S.workspace.order := Nat.le_of_eq (Session.new_order done).symm
  exact {
    id_eq := rfl
    generation_eq := rfl
    status_eq := rfl
    grid := fun _ _ _ => rfl
    record_eq := rfl
    copy := fun _ _ _ _ => rfl
    splits := fun hstatus => nomatch (new_status done).symm.trans hstatus
    room := hroom
    room' := hroom }

/-! ### One request -/

/-- Two solvers, the second one for constraints that look the same. -/
inductive AnySolver.SameLower : AnySolver α → AnySolver α → Prop
  | mk {P : Problem α} {g : Grid P.G.rows P.G.cols α} {S : Solver P}
      {T : Solver (P.withConic g)} (constraints : P.SameConic g) (solvers : S.SameLower T) :
      SameLower ⟨P, S⟩ ⟨P.withConic g, T⟩

namespace Session

/-- As many solvers, each with the same lower triangles. -/
structure SameLower (s s' : Session α) : Prop where
  size_eq : s'.solvers.size = s.solvers.size
  solver : ∀ (id : ℕ) (h : id < s.solvers.size) (h' : id < s'.solvers.size),
    s.solvers[id].SameLower s'.solvers[id]

variable {s s' : Session α}

theorem SameLower.push (h : s.SameLower s') {X X' : AnySolver α} (hX : X.SameLower X') :
    SameLower ⟨s.solvers.push X⟩ ⟨s'.solvers.push X'⟩ := by
  constructor
  · simp [h.size_eq]
  · intro id hid hid'
    simp only [Array.getElem_push, h.size_eq]
    split
    · exact h.solver id _ _
    · exact hX

theorem SameLower.set (h : s.SameLower s') {id : ℕ} (hid : id < s.solvers.size)
    (hid' : id < s'.solvers.size) {X X' : AnySolver α} (hX : X.SameLower X') :
    SameLower ⟨s.solvers.set id X⟩ ⟨s'.solvers.set id X'⟩ := by
  constructor
  · simp [h.size_eq]
  · intro j hj hj'
    simp only [Array.getElem_set]
    split
    · exact hX
    · exact h.solver j _ _

/-- Two calls answer alike: with the same fault, or with the same response and lower triangles. -/
inductive AnswersAlike : Checked (Response α × Session α) → Checked (Response α × Session α) → Prop
  | fault (fault : Fault) : AnswersAlike (.error fault) (.error fault)
  | ok (response : Response α) {t t' : Session α} (same : t.SameLower t') :
      AnswersAlike (.ok (response, t)) (.ok (response, t'))

/-- A request to one of the solvers. -/
theorem SameLower.ask (h : s.SameLower s') {id : ℕ}
    {call : Fin s.solvers.size → Checked (Response α × Session α)}
    {call' : Fin s'.solvers.size → Checked (Response α × Session α)}
    (calls : ∀ (hid : id < s.solvers.size) (hid' : id < s'.solvers.size) {P : Problem α}
      {g : Grid P.G.rows P.G.cols α} {S : Solver P} {T : Solver (P.withConic g)},
      s.solvers[id]? = some ⟨P, S⟩ → s'.solvers[id]? = some ⟨P.withConic g, T⟩ →
      P.SameConic g → S.SameLower T → AnswersAlike (call ⟨id, hid⟩) (call' ⟨id, hid'⟩)) :
    AnswersAlike (s.ask id call) (s'.ask id call') := by
  unfold Session.ask
  by_cases hid : id < s.solvers.size
  · have hid' : id < s'.solvers.size := h.size_eq.symm ▸ hid
    rw [dif_pos hid, dif_pos hid']
    have hX : s.solvers[id]? = some s.solvers[id] := Array.getElem?_eq_getElem hid
    have hX' : s'.solvers[id]? = some s'.solvers[id] := Array.getElem?_eq_getElem hid'
    have hsame := h.solver id hid hid'
    generalize s.solvers[id] = X at hX hsame
    generalize s'.solvers[id] = X' at hX' hsame
    cases hsame with
    | mk constraints solvers => exact calls hid hid' hX hX' constraints solvers
  · have hid' : ¬id < s'.solvers.size := h.size_eq.symm ▸ hid
    rw [dif_neg hid, dif_neg hid']
    exact .ok .absent h

/-- Requests that differ above diagonals only are answered alike. -/
theorem SameLower.perform [ZeroRule α] [Ldl.PivotRules α] (h : s.SameLower s') {r r' : Request α}
    (same : SameRequest s r r') : AnswersAlike (s.perform r) (s'.perform r') := by
  cases same with
  | @create G G' dims A mnl settings constraints =>
    have hnew := Problem.new_alike A mnl settings constraints
    simp only [Session.perform, create]
    generalize Problem.new G dims A mnl settings = made at hnew
    generalize Problem.new G' dims A mnl settings = made' at hnew
    cases hnew with
    | fault fault => exact .fault fault
    | refused e => exact .ok _ h
    | @made P g hconic =>
      simp only [Checked.ok_bind, h.size_eq, Solver.new_withConic]
      cases hS : Solver.new P s.solvers.size with
      | error fault => exact .fault fault
      | ok S => exact .ok _ (h.push (.mk hconic (Solver.new_sameLower hS g)))
  | @factor id W H H' Df hessian =>
    simp only [Session.perform]
    refine h.ask fun hid hid' {P g S T} hS hT hconic hsame => ?_
    obtain ⟨out, out', hout, hout', hanswer, hstate⟩ :=
      hsame.exists_factor hconic hessian W Df
    rw [factor_of_solver hS hout, factor_of_solver hT hout', hanswer]
    exact .ok _ (h.set hid hid' (.mk hconic hstate))
  | inertia id =>
    simp only [Session.perform]
    refine h.ask fun hid hid' {P g S T} hS hT hconic hsame => ?_
    rw [inertia_of_solver hS, inertia_of_solver hT, hsame.inertia_eq]
    cases S.inertia with
    | error fault => exact .fault fault
    | ok found => exact .ok _ h
  | @solve id handle rhs rhs' visible =>
    simp only [Session.perform]
    refine h.ask fun hid hid' {P g S T} hS hT hconic hsame => ?_
    obtain ⟨out, out', hout, hout', hanswer, hfound⟩ := hsame.exists_solve handle (visible _ hS)
    have hstate := hsame.of_solve hout hout' hanswer
    have hshown : out'.answer.map (fun _ => out'.state.2) =
        out.answer.map fun _ => out.state.2 := by
      rw [hanswer]
      cases hsolved : out.answer with
      | error e => rfl
      | ok u => exact congrArg Except.ok (hfound hsolved)
    rw [solve_of_solver hS hout, solve_of_solver hT hout', Checked.ok_bind, Checked.ok_bind, hshown]
    exact .ok _ (h.set hid hid' (.mk hconic hstate))

/-! ### A run -/

/-- Requests that differ above diagonals only show the same, one after the other.  The induction is
on the requests. -/
theorem SameLower.responses_eq [ZeroRule α] [Ldl.PivotRules α] (h : s.SameLower s')
    {rs rs' : List (Request α)} (same : SameRequests s rs rs') :
    s'.responses rs' = s.responses rs := by
  induction same generalizing s' with
  | nil => rfl
  | @cons s r r' rs rs' head tail ih =>
    have hanswers := h.perform head
    have hstep : Prod.fst <$> s'.perform r' = Prod.fst <$> s.perform r ∧
        (s.after r).SameLower (s'.after r') := by
      unfold after
      generalize s.perform r = call at hanswers
      generalize s'.perform r' = call' at hanswers
      cases hanswers with
      | fault fault => exact ⟨rfl, h⟩
      | ok response same => exact ⟨rfl, same⟩
    simp only [responses, hstep.1, ih hstep.2]

theorem SameLower.empty : (Session.empty : Session α).SameLower .empty := ⟨rfl, nofun⟩

/-- **Only lower triangles matter.**  Let the same requests be made in two runs, in any order and to
any number of solvers, with other entries above the diagonals of the Hessians, of the semidefinite
blocks in the columns of the conic constraints, and of the semidefinite blocks in right hand sides.
Then the runs cannot be told apart: making a solver and factoring end alike, with equal handles and
equal errors, the inertia is the same, and a solve gives the same error or the same solution, entry
for entry, refined or not.  Every semidefinite block of a solution is a symmetric matrix. -/
theorem only_lower_triangles [ZeroRule α] [Ldl.PivotRules α] {rs rs' : List (Request α)}
    (same : SameRequests .empty rs rs') :
    Session.empty.responses rs' = Session.empty.responses rs ∧
    ∀ (s : Session α) (id : ℕ) (hid : id < s.solvers.size) (handle : Handle α) (rhs : Rhs α) out,
      s.solve ⟨id, hid⟩ handle rhs = .ok out → out.answer = .ok () →
      let P := s.solvers[id].problem
      out.state.2.z.size = P.rows ∧
        SymmetricBlocks P.dims.s (shift (P.mnl + P.dims.linearSize) (entries out.state.2.z)) := by
  refine ⟨SameLower.empty.responses_eq same, ?_⟩
  intro s id hid handle rhs out done solved
  have hX : s.solvers[id]? = some s.solvers[id] := Array.getElem?_eq_getElem hid
  generalize s.solvers[id] = X at hX
  obtain ⟨P, S⟩ := X
  obtain ⟨inner, hinner, rfl⟩ := solve_eq_ok hX done
  exact Solver.symmetric_of_solve hinner solved

/-- One semidefinite block of order two. -/
def oneBlock : ConeDims := { ConeDims.empty with s := [2] }

/-- The identity, as the scaling of the block. -/
def blockScaling : Scaling Float :=
  ⟨#[], #[], #[], #[], [], [], [⟨2, 2, ⟨#v[1, 0, 0, 1]⟩⟩], [⟨2, 2, ⟨#v[1, 0, 0, 1]⟩⟩]⟩

/-- A solver for two variables and the block, a factorization, its inertia and a solve.  The number
stands above the diagonals. -/
def hiddenRun (u : Float) : List (Request Float) :=
  [.create ⟨4, 2, .ofFn fun i _ => if i.val = 2 then u else 1⟩ oneBlock ⟨0, 2, .replicate 0 2 0⟩ 0
      ⟨"auto", true, 0, 0, 1, 1, true⟩,
    .factor 0 blockScaling
      (some ⟨2, 2, .ofFn fun i j => if i.val < j.val then u else if i = j then 2 else 1⟩) none,
    .inertia 0,
    .solve 0 ⟨0, 1, blockScaling⟩ ⟨#[1, 1], #[], #[1, 1, u, 1]⟩]

/-- A NaN that is hidden above the diagonals makes no difference to a solve that succeeds. -/
theorem only_lower_triangles_hidden :
    SameRequests .empty (hiddenRun 1) (hiddenRun (0 / 0)) ∧
      Session.empty.responses (hiddenRun (0 / 0)) = Session.empty.responses (hiddenRun 1) ∧
      ∃ found, .ok (.solved (.ok found)) ∈ Session.empty.responses (hiddenRun 1) := by
  have hblock : ∀ i, VisibleIn oneBlock.blocks i → i ≠ 2 := by
    rintro _ hvisible rfl
    exact absurd (show (1 : ℕ) ≤ 0 from hvisible) (by decide)
  have hlayout : ∀ i, VisibleIn (oneBlock.layout 0) i → i ≠ 2 := by
    rintro _ hvisible rfl
    exact absurd (show (1 : ℕ) ≤ 0 from hvisible) (by decide)
  -- the sizes stand apart, so that no hidden number is looked at to compare them
  have hG : ((4, 2) : ℕ × ℕ) = (4, 2) := rfl
  have hH : ((2, 2) : ℕ × ℕ) = (2, 2) := rfl
  have same : SameRequests .empty (hiddenRun 1) (hiddenRun (0 / 0)) := by
    refine .cons (.create ⟨hG, fun i j hvisible => ?_⟩) (.cons (.factor (.some ⟨hH, ?_⟩))
      (.cons (.inertia 0) (.cons (.solve fun X hX => ⟨rfl, rfl, rfl, ?_⟩) (.nil _))))
    · have hi := hblock i hvisible
      unfold Grid.at
      split
      · rw [Grid.get_ofFn, Grid.get_ofFn, if_neg hi, if_neg hi]
      · rfl
    · intro i j hji
      unfold Grid.at
      split
      · rw [Grid.get_ofFn, Grid.get_ofFn, if_neg (Nat.not_lt.mpr hji), if_neg (Nat.not_lt.mpr hji)]
      · rfl
    · have hproblem : Option.map (fun X : AnySolver Float => (X.problem.dims, X.problem.mnl))
          (some X) = some (oneBlock, 0) := by
        rw [← hX]
        decide +kernel
      obtain ⟨hdims, hmnl⟩ : X.problem.dims = oneBlock ∧ X.problem.mnl = 0 :=
        Prod.mk.inj (Option.some.inj hproblem)
      intro i hvisible
      rw [hdims, hmnl] at hvisible
      match i, hlayout i hvisible with
      | 0, _ => rfl
      | 1, _ => rfl
      | 2, hi => exact absurd rfl hi
      | 3, _ => rfl
      | i + 4, _ => rfl
  refine ⟨same, (only_lower_triangles same).1, ?_⟩
  have hdone : (Session.empty.responses (hiddenRun 1)).any (fun
      | .ok (.solved (.ok _)) => true
      | _ => false) = true := by decide +kernel
  obtain ⟨response, hmem, hsolved⟩ := List.any_eq_true.mp hdone
  split at hsolved
  · exact ⟨_, hmem⟩
  · cases hsolved

end Session

end ConicSaddle
