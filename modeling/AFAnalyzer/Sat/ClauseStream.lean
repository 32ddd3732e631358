import Mathlib.Algebra.Ring.Int.Defs
import Mathlib.Data.Int.Order.Basic
import Mathlib.Data.Set.Restrict
import Mathlib.Tactic.Common

/-!
# Clauses sent as a stream of literals

A solver with the incremental interface receives literals one by one; a `0` ends
the clause under construction.  `ClauseStream` is the state of that interface: the
finished clauses, in order, and the unfinished one.  An assignment gives a truth
value to every variable, and a literal is a nonzero integer whose sign says which
value it asks for.

`addClause_clauses` is the fact an encoder relies on: literals without a `0`,
followed by a `0`, add exactly one clause.

`modelsOn X cs` are the models of the clauses as assignments of the variables in `X`
alone; for clauses over `X` it makes no difference which total assignment a model
comes from (`domRestrict_mem_modelsOn`).
-/

namespace Sat

/-- The clauses received so far, and the literals of the unfinished clause. -/
structure ClauseStream where
  clauses : List (List ℤ)
  pending : List ℤ
  deriving DecidableEq

namespace ClauseStream

/-- Nothing received. -/
def empty : ClauseStream := ⟨[], []⟩

/-- One literal; `0` finishes the clause. -/
def add (s : ClauseStream) (lit : ℤ) : ClauseStream :=
  if lit = 0 then ⟨s.clauses ++ [s.pending], []⟩ else ⟨s.clauses, s.pending ++ [lit]⟩

/-- A list of literals, one after the other. -/
def addAll (s : ClauseStream) (lits : List ℤ) : ClauseStream := lits.foldl add s

/-- A sequence of zero-terminated clauses. -/
def addClauses (s : ClauseStream) (cs : List (List ℤ)) : ClauseStream :=
  ⟨s.clauses ++ cs, s.pending⟩

variable {s : ClauseStream} {lits : List ℤ}

theorem addAll_of_forall_ne_zero (h : ∀ ℓ ∈ lits, ℓ ≠ 0) :
    s.addAll lits = ⟨s.clauses, s.pending ++ lits⟩ := by
  induction lits generalizing s with
  | nil => simp [addAll]
  | cons ℓ lits ih =>
    have hℓ : ℓ ≠ 0 := h ℓ List.mem_cons_self
    rw [addAll, List.foldl_cons, ← addAll, ih fun x hx => h x (List.mem_cons_of_mem _ hx)]
    simp [add, hℓ]

/-- **A zero-terminated list of literals is one clause.** -/
theorem addClause_clauses (hp : s.pending = []) (h : ∀ ℓ ∈ lits, ℓ ≠ 0) :
    (s.addAll lits).add 0 = s.addClauses [lits] := by
  rw [addAll_of_forall_ne_zero h, hp]
  simp [add, addClauses, hp]

@[simp] theorem addClauses_clauses (s : ClauseStream) (cs : List (List ℤ)) :
    (s.addClauses cs).clauses = s.clauses ++ cs := rfl

@[simp] theorem addClauses_pending (s : ClauseStream) (cs : List (List ℤ)) :
    (s.addClauses cs).pending = s.pending := rfl

@[simp] theorem addClauses_nil (s : ClauseStream) : s.addClauses [] = s := by
  simp [addClauses]

@[simp] theorem addClauses_addClauses (s : ClauseStream) (cs ds : List (List ℤ)) :
    (s.addClauses cs).addClauses ds = s.addClauses (cs ++ ds) := by
  simp [addClauses]

end ClauseStream

/-! ## Assignments -/

/-- The truth value of a literal. -/
def litValue (v : ℕ → Bool) (lit : ℤ) : Bool :=
  if 0 < lit then v lit.natAbs else !v lit.natAbs

/-- The assignment makes some literal of every clause true. -/
def Satisfies (v : ℕ → Bool) (cs : List (List ℤ)) : Prop :=
  ∀ c ∈ cs, ∃ ℓ ∈ c, litValue v ℓ = true

instance (v : ℕ → Bool) (cs : List (List ℤ)) : Decidable (Satisfies v cs) :=
  inferInstanceAs (Decidable (∀ c ∈ cs, ∃ ℓ ∈ c, litValue v ℓ = true))

variable {v : ℕ → Bool} {cs ds : List (List ℤ)}

@[simp] theorem satisfies_nil : Satisfies v [] := fun _ hc => absurd hc List.not_mem_nil

@[simp] theorem satisfies_append : Satisfies v (cs ++ ds) ↔ Satisfies v cs ∧ Satisfies v ds := by
  simp only [Satisfies, List.mem_append]
  constructor
  · exact fun h => ⟨fun c hc => h c (Or.inl hc), fun c hc => h c (Or.inr hc)⟩
  · rintro ⟨hcs, hds⟩ c (hc | hc)
    · exact hcs c hc
    · exact hds c hc

@[simp] theorem satisfies_cons {c : List ℤ} :
    Satisfies v (c :: cs) ↔ (∃ ℓ ∈ c, litValue v ℓ = true) ∧ Satisfies v cs := by
  simp [Satisfies]

theorem satisfies_flatMap {β : Type*} {f : β → List (List ℤ)} {l : List β} :
    Satisfies v (l.flatMap f) ↔ ∀ x ∈ l, Satisfies v (f x) := by
  simp only [Satisfies, List.mem_flatMap]
  constructor
  · exact fun h x hx c hc => h c ⟨x, hx, hc⟩
  · rintro h c ⟨x, hx, hc⟩
    exact h x hx c hc

theorem litValue_natCast {n : ℕ} (hn : 0 < n) : litValue v (n : ℤ) = v n := by
  simp [litValue, hn]

theorem litValue_neg_natCast {n : ℕ} : litValue v (-(n : ℤ)) = !v n := by
  simp [litValue]

/-- What a sound and complete solver answers: a satisfying assignment, or nothing
when there is none. -/
def Answers (cs : List (List ℤ)) : Option (ℕ → Bool) → Prop
  | some v => Satisfies v cs
  | none => ∀ v, ¬ Satisfies v cs

theorem exists_answer (cs : List (List ℤ)) : ∃ answer, Answers cs answer := by
  by_cases h : ∃ v, Satisfies v cs
  · obtain ⟨v, hv⟩ := h
    exact ⟨some v, hv⟩
  · exact ⟨none, fun v hv => h ⟨v, hv⟩⟩

/-! ## Models over a set of variables -/

/-- The variables that occur in the clauses. -/
def clauseVars (cs : List (List ℤ)) : Set ℕ := {x | ∃ c ∈ cs, ∃ ℓ ∈ c, ℓ.natAbs = x}

/-- The assignments of the variables in `X` that satisfy the clauses, whatever the other
variables are. -/
def modelsOn (X : Set ℕ) (cs : List (List ℤ)) : Set (X → Bool) :=
  {f | ∀ v : ℕ → Bool, X.domRestrict v = f → Satisfies v cs}

/-- Only the variables that occur matter. -/
theorem Satisfies.congr {w : ℕ → Bool} (h : Satisfies v cs) (hvw : ∀ x ∈ clauseVars cs, v x = w x) :
    Satisfies w cs := by
  intro c hc
  obtain ⟨ℓ, hℓ, htrue⟩ := h c hc
  refine ⟨ℓ, hℓ, ?_⟩
  unfold litValue at htrue ⊢
  rwa [← hvw ℓ.natAbs ⟨c, hc, ℓ, hℓ, rfl⟩]

/-- **A total assignment is a model exactly when its restriction is.** -/
theorem domRestrict_mem_modelsOn {X : Set ℕ} (hX : clauseVars cs ⊆ X) :
    X.domRestrict v ∈ modelsOn X cs ↔ Satisfies v cs := by
  constructor
  · exact fun h => h v rfl
  · intro h w hw
    exact h.congr fun x hx => (congrFun hw ⟨x, hX hx⟩).symm

theorem exists_domRestrict_eq {X : Set ℕ} (f : X → Bool) : ∃ v : ℕ → Bool, X.domRestrict v = f := by
  classical
  refine ⟨fun x => if h : x ∈ X then f ⟨x, h⟩ else false, ?_⟩
  funext x
  exact dif_pos x.2

end Sat
