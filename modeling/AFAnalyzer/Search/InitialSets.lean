import AFAnalyzer.Logic.EncodingModels
import AFAnalyzer.Logic.PreProcessor
import AFAnalyzer.Search.Invariant

/-!
# The sets found by one activation

The loop of an activation solves, decodes, and excludes what it has decoded.  The
complement clause negates the accepted arguments only, so it removes every superset of
the found set, and the order in which models are found decides which sets appear.

The loop is modelled on its own, for any reduct, as a transition system whose labels are
the models (`LoopStep`).  The invariant says what the solver holds at the next call: the
encoding, and one complement clause for each set found so far (`LoopInv`).  It gives the
three facts about a run that `initialSets_exact` states.

`Activation.InLoop` ties the loop to the search: in every run, the solver of an
activation inside its loop is the solver of such a run (`inLoop_run`).
-/

namespace AFAnalyzer

open SatSolverCadical

/-- The variables of the loop on which the found sets depend, and the sets found so
far. -/
structure LoopState where
  solver : SatSolverCadical
  isSolved : Bool
  initialSets : List (List ℕ)

namespace LoopState

/-- After the encoding, before the first round. -/
def encoded (F : AF) (R : VectorBitSet) : LoopState where
  solver := addClausesNonemptyAdmissibleSet (.new R.vector.length) F R
  isSolved := false
  initialSets := []

/-- The solver at the SAT call of the next round. -/
def atCall (R : VectorBitSet) (st : LoopState) : SatSolverCadical :=
  if st.isSolved = true then addComplementClause st.solver R else st.solver

/-- A round in which the solver finds the model `v`. -/
def round (R : VectorBitSet) (st : LoopState) (v : ℕ → Bool) : LoopState :=
  let solver := ((st.atCall R).solve (some v)).1
  { solver := solver
    isSolved := true
    initialSets := st.initialSets ++ [getSetFromSolver solver R] }

end LoopState

/-- One round of the loop, for any model that the solver may find. -/
inductive LoopStep (R : VectorBitSet) (st : LoopState) (v : ℕ → Bool) : LoopState → Prop
  | found (answers : (st.atCall R).SolverAnswers (some v)) : LoopStep R st v (st.round R v)

/-- The runs of the loop from the encoding of `R` on. -/
def LoopRun (F : AF) (R : VectorBitSet) (vs : List (ℕ → Bool)) (st : LoopState) : Prop :=
  Transition.Run (LoopStep R) (.encoded F R) vs st

variable {F : AF} {A R : VectorBitSet} {st st' : LoopState} {v : ℕ → Bool}
  {vs : List (ℕ → Bool)} {S : List ℕ} {T : Set ℕ}

/-! ## What the solver holds -/

/-- **The invariant of the loop.** -/
structure LoopInv (F : AF) (R : VectorBitSet) (st : LoopState) : Prop where
  pending : (st.atCall R).cadical.pending = []
  clauses : (st.atCall R).cadical.clauses =
    encodingClauses F R ++ st.initialSets.map complementClause
  nodup : ∀ S ∈ st.initialSets, S.Nodup
  found : ∀ S ∈ st.initialSets, S ≠ [] ∧ Dung.Admissible F.att R.args (listArgs S)
  apart : st.initialSets.Pairwise fun S T => ¬ listArgs S ⊆ listArgs T

theorem loopInv_encoded (hF : F.Coherent) (hrange : ∀ a ∈ R.vector, a ∈ F.args) :
    LoopInv F R (.encoded F R) := by
  have hsolver : (LoopState.encoded F R).atCall R =
      (SatSolverCadical.new R.vector.length).withClauses (encodingClauses F R) :=
    encode_eq hF hrange rfl
  refine ⟨?_, ?_, fun S hS => absurd hS List.not_mem_nil,
    fun S hS => absurd hS List.not_mem_nil, List.Pairwise.nil⟩
  · rw [hsolver]
    rfl
  · rw [hsolver]
    show encodingClauses F R = encodingClauses F R ++ []
    rw [List.append_nil]

/-- The models at the next call. -/
theorem LoopInv.satisfies_iff (h : LoopInv F R st) :
    Sat.Satisfies v (st.atCall R).cadical.clauses ↔
      Sat.Satisfies v (encodingClauses F R) ∧ ∀ S ∈ st.initialSets, ∃ a ∈ S, v a = false := by
  rw [h.clauses, Sat.satisfies_append]
  refine and_congr_right fun _ => ?_
  rw [← List.flatMap_pure_eq_map, Sat.satisfies_flatMap]
  exact forall₂_congr fun S _ => satisfies_complementClause

/-- The set found in a round. -/
theorem LoopInv.round_initialSet (hF : F.Coherent) (hR : VectorBitSet.Matches F.numArgs R)
    (hrange : ∀ a ∈ R.vector, a ∈ F.args) (h : LoopInv F R st)
    (hans : (st.atCall R).SolverAnswers (some v)) :
    let S := getSetFromSolver (st.round R v).solver R
    S.Nodup ∧ S ≠ [] ∧ Dung.Admissible F.att R.args (listArgs S) ∧
      ∀ T ∈ st.initialSets, ¬ listArgs T ⊆ listArgs S := by
  obtain ⟨hnodup, hargs⟩ := getSetFromSolver_solve (v := v) hF (st.atCall R) hR hrange
  obtain ⟨henc, hblocked⟩ := h.satisfies_iff.mp hans
  obtain ⟨hadm, a, ha⟩ := admissible_of_satisfies hF hR hrange henc
  rw [← hargs] at hadm ha
  refine ⟨hnodup, List.ne_nil_of_mem ha, hadm, fun T hT hle => ?_⟩
  obtain ⟨b, hb, hfalse⟩ := hblocked T hT
  have hmem := hle hb
  rw [show listArgs (getSetFromSolver (st.round R v).solver R) = acceptedArgs R v from hargs]
    at hmem
  rw [hmem.2] at hfalse
  exact Bool.noConfusion hfalse

/-- **One round keeps the invariant.** -/
theorem LoopInv.step (hF : F.Coherent) (hR : VectorBitSet.Matches F.numArgs R)
    (hrange : ∀ a ∈ R.vector, a ∈ F.args) (h : LoopInv F R st) (hstep : LoopStep R st v st') :
    LoopInv F R st' := by
  cases hstep with
  | found hans =>
    obtain ⟨hnodup, hne, hadm, hapart⟩ := h.round_initialSet hF hR hrange hans
    have hpending : (st.round R v).solver.cadical.pending = [] := h.pending
    have hsolver : (st.round R v).atCall R = (st.round R v).solver.withClauses
        [complementClause (getSetFromSolver (st.round R v).solver R)] :=
      addComplementClause_eq hF hrange hpending
    refine { pending := ?_, clauses := ?_, nodup := ?_, found := ?_, apart := ?_ }
    · rw [hsolver]
      exact hpending
    · rw [hsolver, withClauses_clauses]
      show (st.atCall R).cadical.clauses ++ _ = encodingClauses F R ++
        (st.initialSets ++ [_]).map complementClause
      rw [h.clauses, List.map_append, List.append_assoc]
      rfl
    · intro S hS
      rcases List.mem_append.mp hS with hS | hS
      · exact h.nodup S hS
      · rw [List.mem_singleton.mp hS]
        exact hnodup
    · intro S hS
      rcases List.mem_append.mp hS with hS | hS
      · exact h.found S hS
      · rw [List.mem_singleton.mp hS]
        exact ⟨hne, hadm⟩
    · refine List.pairwise_append.mpr ⟨h.apart, List.pairwise_singleton _ _, ?_⟩
      intro T hT S hS
      rw [List.mem_singleton.mp hS]
      exact hapart T hT

/-- The invariant of every run of the loop. -/
theorem LoopInv.run (hF : F.Coherent) (hR : VectorBitSet.Matches F.numArgs R)
    (hrange : ∀ a ∈ R.vector, a ∈ F.args) (h : LoopRun F R vs st) : LoopInv F R st :=
  Transition.Run.invariant (fun _ _ _ hinv hstep => hinv.step hF hR hrange hstep) h
    (loopInv_encoded hF hrange)

/-- **Nothing is missed.**  When no model is left, every nonempty admissible set lies
above a found one: its own model is excluded by the complement clause of some found set,
all of which it accepts. -/
theorem LoopInv.covers (hF : F.Coherent) (hR : VectorBitSet.Matches F.numArgs R)
    (hrange : ∀ a ∈ R.vector, a ∈ F.args) (h : LoopInv F R st)
    (hunsat : (st.atCall R).SolverAnswers none) (hT : Dung.Admissible F.att R.args T)
    (hne : T.Nonempty) : ∃ S ∈ st.initialSets, listArgs S ⊆ T := by
  by_contra hnone
  refine hunsat (modelOf F T)
    (h.satisfies_iff.mpr ⟨satisfies_of_admissible hF hR hrange hT hne, fun S hS => ?_⟩)
  by_contra hall
  refine hnone ⟨S, hS, fun a ha => ?_⟩
  have hmem : a ∈ R.args := (h.found S hS).2.subset ha
  rw [← modelOf_accepted (hrange a hmem)]
  by_contra hfalse
  exact hall ⟨a, ha, Bool.not_eq_true _ ▸ hfalse⟩

/-- **The sets found in the loop.**  In every run of the loop over a set `R` of active
arguments, whatever models the solver finds: each decoded set is a nonempty admissible set
of the sub-framework, so the branch for an impossible empty set is not reached; none
includes an earlier one; and when the solver has no model left, every nonempty admissible
set includes one of them. -/
theorem initialSets_exact (W : WellFormed) (R : ActiveArgs W.n) {vs : List (ℕ → Bool)}
    {st : LoopState} (h : LoopRun W.af R.toVectorBitSet vs st) :
    (∀ S ∈ st.initialSets,
        S.Nodup ∧ S ≠ [] ∧ Dung.Admissible W.af.att R.args (listArgs S)) ∧
      (st.initialSets.Pairwise fun S T => ¬ listArgs S ⊆ listArgs T) ∧
      ((st.atCall R.toVectorBitSet).SolverAnswers none →
        ∀ T, Dung.Admissible W.af.att R.args T → T.Nonempty →
          ∃ S ∈ st.initialSets, listArgs S ⊆ T) := by
  have hinv := LoopInv.run W.coherent R.matches_af R.mem_args h
  exact ⟨fun S hS => ⟨hinv.nodup S hS, hinv.found S hS⟩, hinv.apart,
    fun hunsat T hT hne => hinv.covers W.coherent R.matches_af R.mem_args hunsat hT hne⟩

/-- The two arguments of `choiceFramework` that attack each other. -/
def mutualActive : ActiveArgs choiceFramework.n where
  toVectorBitSet := VectorBitSet.ofList 4 [2, 4]
  agrees := VectorBitSet.matches_ofList (by decide) (by decide)
  pos := by decide

/-- The loop over them, when the solver first accepts 2 and then 4. -/
def mutualLoop : LoopState :=
  ((LoopState.encoded choiceFramework.af mutualActive.toVectorBitSet).round
    mutualActive.toVectorBitSet fun x => decide (x = 2 ∨ x = 8)).round
      mutualActive.toVectorBitSet fun x => decide (x = 4 ∨ x = 6)

theorem initialSets_exact_mutual :
    mutualLoop.initialSets = [[2], [4]] ∧
      (∀ S ∈ mutualLoop.initialSets, S.Nodup ∧ S ≠ [] ∧
        Dung.Admissible choiceFramework.af.att mutualActive.args (listArgs S)) ∧
      (mutualLoop.initialSets.Pairwise fun S T => ¬ listArgs S ⊆ listArgs T) ∧
      ((mutualLoop.atCall mutualActive.toVectorBitSet).SolverAnswers none →
        ∀ T, Dung.Admissible choiceFramework.af.att mutualActive.args T → T.Nonempty →
          ∃ S ∈ mutualLoop.initialSets, listArgs S ⊆ T) := by
  have hrun : LoopRun choiceFramework.af mutualActive.toVectorBitSet
      [fun x => decide (x = 2 ∨ x = 8), fun x => decide (x = 4 ∨ x = 6)] mutualLoop := by
    refine .cons (.found ?_) (.single (.found ?_))
    · show Sat.Satisfies _ _
      decide
    · show Sat.Satisfies _ _
      decide
  exact ⟨by decide, initialSets_exact choiceFramework mutualActive hrun⟩

/-! ## The loop of an activation -/

namespace Activation

variable {a b : Activation} {e : Effect} {flag : Bool} {answer : Option (ℕ → Bool)} {q : ℕ}

/-- The activation stands in a run of the loop over its reduct. -/
structure InLoop (F : AF) (a : Activation) : Prop where
  looping : a.point = .pollEncoded ∨ a.point = .loopHead ∨ a.point = .pollLoop →
    ∃ vs st, LoopRun F a.reduct vs st ∧ st.solver = a.solver ∧ st.isSolved = a.isSolved
  found : a.point = .answered → a.hasSolution = true →
    ∃ vs st, LoopRun F a.reduct vs st ∧ st.solver = a.solver ∧ st.isSolved = a.isSolved ∧
      getSetFromSolver a.solver a.reduct ∈ st.initialSets
  exhausted : a.point = .answered → a.hasSolution = false →
    ∃ vs st, LoopRun F a.reduct vs st ∧ (st.atCall a.reduct).SolverAnswers none

/-- Outside the loop there is nothing to say. -/
theorem inLoop_of_outside (h : ¬ a.point.Inside) : a.InLoop F where
  looping := fun hp => absurd (hp.elim Or.inl fun hp => hp.elim (Or.inr ∘ Or.inl)
    (Or.inr ∘ Or.inr ∘ Or.inr)) h
  found := fun hp => absurd (Or.inr (Or.inr (Or.inl hp))) h
  exhausted := fun hp => absurd (Or.inr (Or.inr (Or.inl hp))) h

theorem inLoop_of_point {p : Point} (hp : a.point = p) (h : ¬ p.Inside) : a.InLoop F :=
  inLoop_of_outside (hp ▸ h)

/-- An activation before its next SAT call. -/
theorem inLoop_of_looping (hpoint : a.point ≠ .answered)
    (h : ∃ vs st, LoopRun F a.reduct vs st ∧ st.solver = a.solver ∧ st.isSolved = a.isSolved) :
    a.InLoop F where
  looping := fun _ => h
  found := fun hp => absurd hp hpoint
  exhausted := fun hp => absurd hp hpoint

/-- The SAT call is the next round of the loop. -/
theorem InLoop.call (h : a.InLoop F) (hpoint : a.point = .loopHead)
    (hans : a.nextSolver.SolverAnswers answer) : (a.called answer).InLoop F := by
  obtain ⟨vs, st, hrun, hsolver, hsolved⟩ := h.looping (Or.inr (Or.inl hpoint))
  have hnext : st.atCall a.reduct = a.nextSolver := by
    rw [LoopState.atCall, nextSolver, hsolver, hsolved]
  rw [← hnext] at hans
  refine ⟨fun hp => ?_, fun _ hsat => ?_, fun _ hunsat => ?_⟩
  · rcases hp with hp | hp | hp
    all_goals cases hp
  · obtain ⟨v, rfl⟩ := Option.isSome_iff_exists.mp hsat
    have hround : (a.called (some v)).solver = (st.round a.reduct v).solver := by
      show (a.nextSolver.solve (some v)).1 = ((st.atCall a.reduct).solve (some v)).1
      rw [hnext]
    refine ⟨vs ++ [v], st.round a.reduct v, hrun.snoc (.found hans), hround.symm, rfl, ?_⟩
    rw [hround]
    exact List.mem_append_right _ (List.mem_singleton.mpr rfl)
  · obtain rfl := Option.isSome_eq_false_iff.mp hunsat |> Option.isNone_iff_eq_none.mp
    exact ⟨vs, st, hrun, hans⟩

/-- **Every step of an activation follows the loop.** -/
theorem InLoop.advance (h : a.InLoop F) (hok : a.Ok F A q) (hin : SearchInput F A q)
    (hans : a.point = .loopHead → a.nextSolver.SolverAnswers answer)
    (hadv : Advanced F A flag answer a b e) : b.InLoop F := by
  cases hadv with
  | cutOff _ _ _ _ point => exact inLoop_of_point point (by decide)
  | entered => exact inLoop_of_point rfl (by decide : ¬ Point.encode.Inside)
  | small => exact inLoop_of_point rfl (by decide : ¬ Point.leaving.Inside)
  | @encoded R point build size =>
    exact inLoop_of_looping nofun ⟨[], .encoded F R, .nil _, rfl, rfl⟩
  | armed point => exact inLoop_of_looping nofun (h.looping (Or.inl point))
  | call point => exact h.call point (hans point)
  | exhausted => exact inLoop_of_point rfl (by decide : ¬ Point.leaving.Inside)
  | onlyEmpty => exact inLoop_of_point rfl (by decide : ¬ Point.leaving.Inside)
  | reject => exact inLoop_of_point rfl (by decide : ¬ Point.handOver.Inside)
  | abort point sat =>
    obtain ⟨vs, st, hrun, hsolver, hsolved, -⟩ := h.found point sat
    refine inLoop_of_looping ?_ ⟨vs, st, hrun, hsolver, hsolved⟩
    simp only
    split <;> exact nofun
  | @spawn prio R point sat found passes omits priority build =>
    obtain rfl := hok.reduct_eq point build
    obtain ⟨vs, st, hrun, hsolver, hsolved, -⟩ := h.found point sat
    exact inLoop_of_looping nofun ⟨vs, st, hrun, hsolver, hsolved⟩
  | again point =>
    refine inLoop_of_looping ?_ (h.looping (Or.inr (Or.inr point)))
    simp only
    split <;> exact nofun
  | handOver => exact inLoop_of_point rfl (by decide : ¬ Point.assigning.Inside)
  | assigned => exact inLoop_of_point rfl (by decide : ¬ Point.leaving.Inside)
  | ret => exact inLoop_of_point rfl (by decide : ¬ Point.returned.Inside)
  | fault why => exact absurd why (hok.not_faulty hin)

end Activation

variable {s s' : SearchState} {ℓ : Action} {ls : List Action} {q : ℕ} {proof : List ℕ}

/-- **The search runs the loop.**  In every state of every run, an activation inside its
loop stands in a run of the loop over its reduct, with the same solver. -/
theorem inLoop_run (hin : SearchInput F A q)
    (h : Transition.Run (LawfulStep F A) (.init q proof) ls s) (i : ℕ) (a : Activation)
    (ha : s.activations[i]? = some a) : a.InLoop F := by
  have hentry : ∀ c : Activation, c.point = .entry → c.InLoop F :=
    fun c hc => Activation.inLoop_of_point hc (by decide)
  have hall : ∀ (i : ℕ) (a : Activation), s.activations[i]? = some a → a.InLoop F := by
    refine SearchInv.induction
      (P := fun s => ∀ (i : ℕ) (a : Activation), s.activations[i]? = some a → a.InLoop F) hin
      (fun s ℓ s' hinv hloop hstep i a ha => ?_) (fun i a ha => ?_) h
    · obtain ⟨hstep, -⟩ := hstep
      cases hstep with
      | @act j b c e answer running active answers advance =>
        rcases getElem?_set_of_eq active ha with ⟨-, rfl⟩ | ⟨-, hold⟩
        · exact (hloop j b active).advance (hinv.activations j b active) hin answers
            (Activation.advanced_of_advance advance)
        · exact hloop i a hold
      | start =>
        rcases SearchState.of_getElem?_startTask ha with hold | ⟨-, rfl⟩
        · exact hloop i a hold
        · exact hentry _ rfl
    · obtain ⟨-, rfl⟩ := SearchState.eq_enter_of_init ha
      exact hentry _ rfl
  exact hall i a ha

end AFAnalyzer
