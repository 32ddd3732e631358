import AFAnalyzer.Sat.ClauseStream
import AFAnalyzer.Logic.VectorBitSet

/-!
# `SatSolver_cadical` and `Decoding`

The wrapper hands literals to CaDiCaL one at a time and ends each clause with a 0.
Its literals are `int64_t`, CaDiCaL's are `int`; `toInt` is the conversion at the
call.  CaDiCaL itself is the state of its interface: the clauses received
(`Sat.ClauseStream`) and, after a call of `solve` that found one, a model.  Which
model is found is not modelled: `solve` takes the answer as an argument, and
`SolverAnswers` says which answers a sound and complete solver may give.

`addClause_eq` and `addClauseShort_eq` reduce the two wrappers to "one clause more"
for literals in range, which is all that the encoding uses.
-/

namespace AFAnalyzer

/-- `SatSolver_cadical`, with the observable state of its CaDiCaL object.  A model
can be read until the next literal is added. -/
structure SatSolverCadical where
  numVariables : ℕ
  cadical : Sat.ClauseStream
  model : Option (ℕ → Bool)

namespace SatSolverCadical

/-- The constructor. -/
def new (numberVariables : ℕ) : SatSolverCadical := ⟨numberVariables, .empty, none⟩

/-- The implicit conversion of an `int64_t` literal to the `int` of CaDiCaL. -/
def toInt (lit : ℤ) : ℤ := Int.bmod lit (2 ^ 32)

/-- `cadical_solver.add(lit)`. -/
def addLit (s : SatSolverCadical) (lit : ℤ) : SatSolverCadical :=
  { s with cadical := s.cadical.add (toInt lit), model := none }

/-- `SatSolver_cadical::add_clause`. -/
def addClause (s : SatSolverCadical) (clause : List ℤ) : SatSolverCadical :=
  (clause.foldl addLit s).addLit 0

/-- `SatSolver_cadical::add_clause_short`. -/
def addClauseShort (s : SatSolverCadical) (lit1 lit2 : ℤ) : SatSolverCadical :=
  let s := s.addLit lit1
  let s := if lit2 ≠ 0 then s.addLit lit2 else s
  s.addLit 0

/-- `SatSolver_cadical::check_var_model`, which hands its variable on as an `int` too; there
is nothing to read without a model. -/
def checkVarModel (s : SatSolverCadical) (var : ℤ) : Bool :=
  match s.model with
  | some v => Sat.litValue v (toInt var)
  | none => false

/-- `SatSolver_cadical::solve`, for the answer that CaDiCaL gives. -/
def solve (s : SatSolverCadical) (answer : Option (ℕ → Bool)) : SatSolverCadical × Bool :=
  ({ s with model := answer }, answer.isSome)

/-- The answers of a sound and complete solver that never gives up. -/
def SolverAnswers (s : SatSolverCadical) (answer : Option (ℕ → Bool)) : Prop :=
  Sat.Answers s.cadical.clauses answer

/-- The solver after a sequence of clauses. -/
def withClauses (s : SatSolverCadical) (cs : List (List ℤ)) : SatSolverCadical :=
  { s with cadical := s.cadical.addClauses cs, model := none }

variable {s : SatSolverCadical} {clause : List ℤ} {cs ds : List (List ℤ)} {lit1 lit2 : ℤ}

@[simp] theorem withClauses_clauses :
    (s.withClauses cs).cadical.clauses = s.cadical.clauses ++ cs := rfl

@[simp] theorem withClauses_pending :
    (s.withClauses cs).cadical.pending = s.cadical.pending := rfl

@[simp] theorem withClauses_withClauses :
    (s.withClauses cs).withClauses ds = s.withClauses (cs ++ ds) := by
  simp [withClauses]

/-- A literal that CaDiCaL receives as it was meant. -/
def InRange (lit : ℤ) : Prop := lit ≠ 0 ∧ -2 ^ 31 < lit ∧ lit < 2 ^ 31

theorem toInt_eq (h : InRange lit1) : toInt lit1 = lit1 := by
  obtain ⟨-, hlo, hhi⟩ := h
  rw [toInt, Int.bmod_def]
  split <;> omega

@[simp] theorem toInt_zero : toInt 0 = 0 := rfl

theorem foldl_addLit (h : ∀ ℓ ∈ clause, InRange ℓ) (s : SatSolverCadical) :
    (clause.foldl addLit s).cadical = s.cadical.addAll clause ∧
      (clause.foldl addLit s).numVariables = s.numVariables := by
  induction clause generalizing s with
  | nil => exact ⟨rfl, rfl⟩
  | cons ℓ clause ih =>
    obtain ⟨hcadical, hvars⟩ := ih (fun x hx => h x (List.mem_cons_of_mem ℓ hx)) (s.addLit ℓ)
    rw [List.foldl_cons]
    refine ⟨hcadical.trans ?_, hvars⟩
    rw [addLit, toInt_eq (h ℓ List.mem_cons_self)]
    rfl

/-- **`add_clause` adds one clause.** -/
theorem addClause_eq (hp : s.cadical.pending = []) (h : ∀ ℓ ∈ clause, InRange ℓ) :
    s.addClause clause = s.withClauses [clause] := by
  obtain ⟨hcadical, hvars⟩ := foldl_addLit h s
  rw [addClause, addLit, hcadical, toInt_zero,
    Sat.ClauseStream.addClause_clauses hp fun ℓ hℓ => (h ℓ hℓ).1]
  simp only [withClauses, hvars]

/-- `add_clause_short` with two literals is `add_clause`. -/
theorem addClauseShort_eq (hp : s.cadical.pending = []) (h1 : InRange lit1) (h2 : InRange lit2) :
    s.addClauseShort lit1 lit2 = s.withClauses [[lit1, lit2]] := by
  have hall : ∀ ℓ ∈ [lit1, lit2], InRange ℓ := by
    intro ℓ hℓ
    rcases List.mem_cons.mp hℓ with rfl | hℓ
    · exact h1
    · rw [List.mem_singleton.mp hℓ]
      exact h2
  rw [← addClause_eq hp hall, addClauseShort, if_pos h2.1]
  rfl

/-- `add_clause_short` with a 0 in second place adds a unit clause. -/
theorem addClauseShort_zero (hp : s.cadical.pending = []) (h1 : InRange lit1) :
    s.addClauseShort lit1 0 = s.withClauses [[lit1]] := by
  have hall : ∀ ℓ ∈ [lit1], InRange ℓ := by
    intro ℓ hℓ
    rw [List.mem_singleton.mp hℓ]
    exact h1
  rw [← addClause_eq hp hall, addClauseShort, if_neg (by simp)]
  rfl

end SatSolverCadical

/-! ## Decoding -/

/-- `Decoding::get_set_from_solver`. -/
def getSetFromSolver (s : SatSolverCadical) (activeArgs : VectorBitSet) : List ℕ :=
  activeArgs.vector.foldl
    (fun (output : List ℕ) (a : ℕ) =>
      if s.checkVarModel (a : ℤ) = true then output ++ [a] else output) []

theorem foldl_append_if (p : ℕ → Bool) (l out : List ℕ) :
    l.foldl (fun out a => if p a = true then out ++ [a] else out) out = out ++ l.filter p := by
  induction l generalizing out with
  | nil => simp
  | cons a l ih =>
    rw [List.foldl_cons, ih, List.filter_cons]
    split
    · rw [List.append_assoc, List.singleton_append]
    · rfl

variable {s : SatSolverCadical} {R : VectorBitSet} {v : ℕ → Bool}

theorem getSetFromSolver_eq_filter :
    getSetFromSolver s R = R.vector.filter fun a : ℕ => s.checkVarModel (a : ℤ) := by
  rw [getSetFromSolver, foldl_append_if, List.nil_append]

theorem mem_of_mem_getSetFromSolver {a : ℕ} (h : a ∈ getSetFromSolver s R) : a ∈ R.vector := by
  rw [getSetFromSolver_eq_filter] at h
  exact (List.mem_filter.mp h).1

/-- Decoding lists the active arguments whose variable is true, in their order. -/
theorem getSetFromSolver_eq (hv : s.model = some v)
    (hrange : ∀ a ∈ R.vector, 1 ≤ a ∧ a < 2 ^ 31) :
    getSetFromSolver s R = R.vector.filter v := by
  rw [getSetFromSolver_eq_filter]
  refine List.filter_congr fun a ha => ?_
  obtain ⟨hpos, hlt⟩ := hrange a ha
  have hlit : SatSolverCadical.InRange (a : ℤ) := ⟨by omega, by omega, by omega⟩
  rw [SatSolverCadical.checkVarModel, hv, SatSolverCadical.toInt_eq hlit]
  exact Sat.litValue_natCast hpos

end AFAnalyzer
