import AFAnalyzer.Search.Termination

/-!
# Schedules that exist

To show that the code can do something, a run has to be constructed.  This module has the
pieces:

* `exists_firstAnswer`: from a fresh activation to the first answer of its solver, and
  from there along each of the branches that a first answer can take;
* `exists_rootAnswer`: any admissible set may be the first that the root finds, and
  `exists_spawn` and `exists_reject` go on from there;
* `exists_secondAnswer`: when a task was created for one set, any admissible set that does not
  include it may be the second;
* `exists_setFlag`: a task that continues with a preferred extension sets the flag;
* `exists_returned`: one activation runs alone until it returns.

The model of an admissible set is an answer that the solver may give
(`answers_modelOf`), and above a preferred extension it has to give up
(`answers_none`).
-/

namespace AFAnalyzer

variable {F : AF} {A R : VectorBitSet} {q : ℕ} {E L : List ℕ} {P : Set ℕ}

/-! ## Answers -/

/-- Above a preferred extension the reduct has no nonempty admissible set. -/
theorem answers_none (hin : SearchInput F A q) (hR : IsReduct F A E R)
    (hE : Dung.Preferred F.att A.args (listArgs E)) :
    Sat.Answers (encodingClauses F R) none := by
  intro v hv
  obtain ⟨hadm, x, hx⟩ := admissible_of_satisfies hin.coherent hR.agrees (hR.range hin.range) hv
  have hxR := hadm.subset hx
  rw [hR.args] at hadm hxR
  have heq := hE.eq_of_subset (hE.admissible.union_of_reduct hadm) Set.subset_union_left
  have hxE : x ∈ listArgs E := by
    rw [← heq]
    exact Or.inr hx
  exact hxR.2.1 hxE

/-- The solver may answer with any nonempty admissible set of the reduct. -/
theorem answers_modelOf (hin : SearchInput F A q) (hR : IsReduct F A E R)
    (hP : Dung.Admissible F.att R.args P) (hne : P.Nonempty) :
    Sat.Answers (encodingClauses F R) (some (modelOf F P)) ∧
      listArgs (R.vector.filter (modelOf F P)) = P := by
  refine ⟨satisfies_of_admissible hin.coherent hR.agrees (hR.range hin.range) hP hne, ?_⟩
  have hargs : listArgs (R.vector.filter (modelOf F P)) = acceptedArgs R (modelOf F P) := by
    ext a
    exact List.mem_filter
  rw [hargs, acceptedArgs_modelOf (hR.range hin.range) hP.subset]

/-! ## Moves of one activation -/

variable {s : SearchState} {i : ℕ} {a b c : Activation} {answer : Option (ℕ → Bool)}
  {e : Effect} {flag : Bool}

namespace SearchState

/-- The state in which activation `i` is `a` and everything else is unchanged. -/
def put (s : SearchState) (i : ℕ) (a : Activation) : SearchState :=
  { s with activations := s.activations.set i a }

theorem put_self (h : s.activations[i]? = some a) : s.put i a = s := by
  obtain ⟨hi, rfl⟩ := List.getElem?_eq_some_iff.mp h
  rw [put, List.set_getElem_self]

theorem apply_put : (s.put i a).apply i b e = s.apply i b e := by
  simp only [apply, put, othersAssign, List.set_set, List.eraseIdx_set_eq]

theorem getElem?_put (hi : i < s.activations.length) : (s.put i a).activations[i]? = some a :=
  List.getElem?_set_self hi

end SearchState

/-- One step of the activation at index `i`. -/
theorem lawfulStep_act (answer : Option (ℕ → Bool)) (hrunning : s.fault = false)
    (ha : s.activations[i]? = some a)
    (hans : a.point = .loopHead → a.nextSolver.SolverAnswers answer)
    (hadv : a.advance F A (s.heap a.isRejected) answer = some (b, e)) :
    LawfulStep F A s (.act i e) (s.apply i b e) :=
  ⟨.act hrunning ha hans hadv, trivial⟩

/-- The same from a state in which the activation was just put. -/
theorem lawfulStep_put (answer : Option (ℕ → Bool)) (hrunning : s.fault = false)
    (hi : i < s.activations.length)
    (hans : a.point = .loopHead → a.nextSolver.SolverAnswers answer)
    (hadv : a.advance F A (s.heap a.isRejected) answer = some (b, e)) :
    LawfulStep F A (s.put i a) (.act i e) (s.apply i b e) := by
  rw [← SearchState.apply_put (a := a)]
  exact lawfulStep_act answer hrunning (SearchState.getElem?_put hi) hans hadv

/-- The start of a task by the values of its creator. -/
theorem lawfulStep_start {k x p : ℕ} {t : Task} (hrunning : s.fault = false)
    (ht : s.tasks[k]? = some t) (ha : s.activations[t.creator]? = some a) (hx : a.argument = x)
    (hp : a.isRejected = p) : LawfulStep F A s (.start k x p) (s.startTask k t x p) := by
  subst hx hp
  exact exists_start hrunning ht ha

namespace Activation

/-- The point `encode`, for a reduct that is not small. -/
theorem advance_encode (hpoint : a.point = .encode)
    (hbuild : buildReduct F A a.extensionBuild = some R) (hsize : ¬ R.vector.length < 2) :
    a.advance F A flag answer = some ({ a with
      reduct := R
      isSolved := false
      isFirstCalculation := true
      solver := addClausesNonemptyAdmissibleSet (.new R.vector.length) F R
      point := .pollEncoded }, .silent) := by
  rw [advance, hpoint]
  simp only [hbuild]
  exact if_neg hsize

/-- The flag is not set at `entry`. -/
theorem advance_entry (hpoint : a.point = .entry) :
    a.advance F A false answer =
      some ({ a with isRejectedTmp := false, point := .encode }, .silent) := by
  rw [advance, hpoint]
  rfl

/-- The flag is not set before the loop. -/
theorem advance_pollEncoded (hpoint : a.point = .pollEncoded) :
    a.advance F A false answer =
      some ({ a with isRejectedTmp := false, hasSolution := true, point := .loopHead },
        .silent) := by
  rw [advance, hpoint]
  rfl

theorem advance_loopHead (hpoint : a.point = .loopHead) :
    a.advance F A flag answer = some (a.called answer, .callSolver) := by
  rw [advance, hpoint]

/-- The flag is set at the end of a round. -/
theorem advance_pollLoop (hpoint : a.point = .pollLoop) :
    a.advance F A true answer =
      some ({ a with isRejectedTmp := true, point := .leaving }, .silent) := by
  rw [advance, hpoint]
  simp [loopCondition]

/-- The flag is not set at the end of a round. -/
theorem advance_pollLoop_unset (hpoint : a.point = .pollLoop) (hsat : a.hasSolution = true) :
    a.advance F A false answer =
      some ({ a with isRejectedTmp := false, point := .loopHead }, .silent) := by
  rw [advance, hpoint]
  simp [loopCondition, hsat]

theorem advance_leaving (hpoint : a.point = .leaving) :
    a.advance F A flag answer = some ({ a with point := .returned }, .ret) := by
  rw [advance, hpoint]

theorem advance_handOver (hpoint : a.point = .handOver) :
    a.advance F A flag answer = some ({ a with point := .assigning },
      .handOver (extendExtension a.extensionBuild a.initialSet)) := by
  rw [advance, hpoint]

theorem advance_assigning (hpoint : a.point = .assigning) :
    a.advance F A flag answer = some ({ a with point := .leaving }, .silent) := by
  rw [advance, hpoint]

theorem advance_answered (hpoint : a.point = .answered) :
    a.advance F A flag answer = some (a.onAnswer F A) := by
  rw [advance, hpoint]

/-- A set that contains the query: back to the SAT call, past the poll. -/
theorem onAnswer_abort (hsat : a.hasSolution = true) (htmp : a.isRejectedTmp = false)
    (hne : getSetFromSolver a.solver a.reduct ≠ [])
    (hpasses : checkRejection a.argument (getSetFromSolver a.solver a.reduct) F = false)
    (hcontains :
      checkTerminateExtensionBuild a.argument (getSetFromSolver a.solver a.reduct) = true) :
    a.onAnswer F A =
      ({ a with isFirstCalculation := false, point := .loopHead }, .abort) := by
  have hsol : ¬ a.hasSolution = false := by
    rw [hsat]
    exact nofun
  rw [onAnswer, if_neg hsol]
  simp only [if_neg hne, hpasses, hcontains, Bool.false_eq_true, if_false, if_true, loopCondition,
    hsat, htmp, Bool.not_false, Bool.and_self]

end Activation

/-- An activation of the search for `q` with extension `E` has received the first answer
of its solver. -/
structure FirstAnswer (F : AF) (q : ℕ) (E : List ℕ) (R : VectorBitSet)
    (answer : Option (ℕ → Bool)) (a : Activation) : Prop where
  point : a.point = .answered
  argument : a.argument = q
  isRejected : a.isRejected = flagCell
  extension : a.extensionBuild = E
  reduct : a.reduct = R
  first : a.isFirstCalculation = true
  solution : a.hasSolution = answer.isSome
  model : a.solver.model = answer
  solved : a.isSolved = true
  clauses : a.solver.cadical.clauses = encodingClauses F R

/-- **Up to the first answer.**  While the flag is not set, an activation with at least
two arguments in its reduct reaches the first answer, and any answer of the solver to the
encoding can be that. -/
theorem exists_firstAnswer (hin : SearchInput F A q) (hR : IsReduct F A E R)
    (hsize : ¬ R.vector.length < 2) (hans : Sat.Answers (encodingClauses F R) answer)
    (hrunning : s.fault = false) (hflag : s.flag = false) {creator : Option ℕ}
    (hi : s.activations[i]? = some (.enter creator q flagCell E)) :
    ∃ b, FirstAnswer F q E R answer b ∧
      Transition.Run (LawfulStep F A) s
        [.act i .silent, .act i .silent, .act i .silent, .act i .callSolver] (s.put i b) := by
  have hlt := (List.getElem?_eq_some_iff.mp hi).1
  have hcell : s.heap flagCell = false := hflag
  -- the local variables after each of the three steps before the call
  let a₁ : Activation :=
    { Activation.enter creator q flagCell E with isRejectedTmp := false, point := .encode }
  let a₂ : Activation :=
    { a₁ with
      reduct := R
      isSolved := false
      isFirstCalculation := true
      solver := addClausesNonemptyAdmissibleSet (.new R.vector.length) F R
      point := .pollEncoded }
  let a₃ : Activation := { a₂ with isRejectedTmp := false, hasSolution := true, point := .loopHead }
  have h₁ : LawfulStep F A (s.put i (.enter creator q flagCell E)) (.act i .silent) (s.put i a₁) :=
    lawfulStep_put none hrunning hlt nofun (by
      show Activation.advance F A (s.heap flagCell) none _ = _
      rw [hcell, Activation.advance_entry rfl])
  have h₂ : LawfulStep F A (s.put i a₁) (.act i .silent) (s.put i a₂) :=
    lawfulStep_put none hrunning hlt nofun (Activation.advance_encode rfl hR.build hsize)
  have h₃ : LawfulStep F A (s.put i a₂) (.act i .silent) (s.put i a₃) :=
    lawfulStep_put none hrunning hlt nofun (by
      show Activation.advance F A (s.heap flagCell) none _ = _
      rw [hcell, Activation.advance_pollEncoded rfl])
  have hclauses := (Activation.clauses_encode hin hR R.vector.length).2
  have h₄ : LawfulStep F A (s.put i a₃) (.act i .callSolver) (s.put i (a₃.called answer)) := by
    refine lawfulStep_put answer hrunning hlt (fun _ => ?_) (Activation.advance_loopHead rfl)
    show Sat.Answers (addClausesNonemptyAdmissibleSet (.new R.vector.length) F R).cadical.clauses _
    rw [hclauses]
    exact hans
  rw [SearchState.put_self hi] at h₁
  exact ⟨a₃.called answer, ⟨rfl, rfl, rfl, rfl, rfl, rfl, rfl, rfl, rfl, hclauses⟩,
    .cons h₁ (.cons h₂ (.cons h₃ (.single h₄)))⟩

/-! ## Branches of an answer -/

variable {v : ℕ → Bool}

/-- No model: the flag is set, and the activation leaves. -/
theorem FirstAnswer.onAnswer_none (h : FirstAnswer F q E R none a) :
    a.onAnswer F A = ({ a with point := .leaving }, .setFlag) := by
  have hsol : a.hasSolution = false := h.solution
  rw [Activation.onAnswer, if_pos hsol, if_pos h.first]

/-- An activation of the search for `q` with extension `E` has just received a model. -/
structure HasModel (q : ℕ) (E : List ℕ) (R : VectorBitSet) (v : ℕ → Bool) (a : Activation) :
    Prop where
  point : a.point = .answered
  argument : a.argument = q
  isRejected : a.isRejected = flagCell
  extension : a.extensionBuild = E
  reduct : a.reduct = R
  solution : a.hasSolution = true
  model : a.solver.model = some v

theorem FirstAnswer.hasModel (h : FirstAnswer F q E R (some v) a) : HasModel q E R v a :=
  ⟨h.point, h.argument, h.isRejected, h.extension, h.reduct, h.solution, h.model⟩

theorem HasModel.decode (h : HasModel q E R v a) (hrange : ∀ x ∈ R.vector, 1 ≤ x ∧ x < 2 ^ 31) :
    getSetFromSolver a.solver a.reduct = R.vector.filter v := by
  rw [h.reduct]
  exact getSetFromSolver_eq h.model hrange

/-- A model whose set attacks the query: the flag is set, and the set is handed over
next. -/
theorem HasModel.onAnswer_reject (h : HasModel q E R v a)
    (hrange : ∀ x ∈ R.vector, 1 ≤ x ∧ x < 2 ^ 31) (hne : R.vector.filter v ≠ [])
    (hrejects : checkRejection q (R.vector.filter v) F = true) :
    a.onAnswer F A = ({ a with
      isFirstCalculation := false
      initialSet := R.vector.filter v
      point := .handOver }, .setFlag) := by
  have hsol : ¬ a.hasSolution = false := by
    rw [h.solution]
    exact nofun
  simp only [Activation.onAnswer, if_neg hsol, h.decode hrange, if_neg hne, h.argument,
    if_pos hrejects]

/-- A model whose set neither attacks nor contains the query: a task is created. -/
theorem HasModel.onAnswer_spawn (h : HasModel q E R v a) (hR : IsReduct F A E R)
    (hrange : ∀ x ∈ R.vector, 1 ≤ x ∧ x < 2 ^ 31) (hne : R.vector.filter v ≠ [])
    (hpasses : checkRejection q (R.vector.filter v) F = false)
    (homits : checkTerminateExtensionBuild q (R.vector.filter v) = false) :
    ∃ prio, a.onAnswer F A = ({ a with isFirstCalculation := false, point := .pollLoop },
      .spawn (extendExtension E (R.vector.filter v)) prio) := by
  have hsol : ¬ a.hasSolution = false := by
    rw [h.solution]
    exact nofun
  have hext : extendExtension E (R.vector.filter v) ≠ [] := extendExtension_ne_nil hne
  cases hprio : calculatePriority F (extendExtension E (R.vector.filter v)) with
  | none => exact absurd (calculatePriority_eq_none.mp hprio) hext
  | some prio =>
    refine ⟨prio, ?_⟩
    simp only [Activation.onAnswer, if_neg hsol, h.decode hrange, if_neg hne, h.argument,
      hpasses, homits, Bool.false_eq_true, if_false, h.extension, hprio, hR.build]
    rw [← h.reduct]

/-- Said of the set: it is not empty, and neither attacks nor contains the query. -/
theorem HasModel.exists_spawn (h : HasModel q E R v a) (hin : SearchInput F A q)
    (hR : IsReduct F A E R) (hne : (listArgs (R.vector.filter v)).Nonempty)
    (hatt : ¬ Dung.Attacks F.att (listArgs (R.vector.filter v)) q)
    (hq : q ∉ listArgs (R.vector.filter v)) :
    ∃ prio, a.onAnswer F A = ({ a with isFirstCalculation := false, point := .pollLoop },
      .spawn (extendExtension E (R.vector.filter v)) prio) := by
  obtain ⟨x, hx⟩ := hne
  have hpasses : checkRejection q (R.vector.filter v) F = false := by
    rw [← Bool.not_eq_true, checkRejection_iff hin.coherent]
    exact hatt
  have homits : checkTerminateExtensionBuild q (R.vector.filter v) = false := by
    rw [← Bool.not_eq_true, checkTerminateExtensionBuild_iff]
    exact hq
  exact h.onAnswer_spawn hR (fun y hy => hin.coherent.id_range (hR.range hin.range y hy))
    (List.ne_nil_of_mem hx) hpasses homits

/-- **What may be found next.**  After one call, the solver may answer the second with any
admissible set of the reduct that does not include the found set. -/
theorem answers_second (hin : SearchInput F A q) (henc : a.Encoded F A)
    (hsolved : a.isSolved = true) (hclauses : a.solver.cadical.clauses = encodingClauses F a.reduct)
    (hP : Dung.Admissible F.att a.reduct.args P) (hne : P.Nonempty)
    (hnot : ¬ listArgs (getSetFromSolver a.solver a.reduct) ⊆ P) :
    a.nextSolver.SolverAnswers (some (modelOf F P)) := by
  obtain ⟨hans, hfilter⟩ := answers_modelOf hin henc.reduct hP hne
  show Sat.Satisfies _ a.nextSolver.cadical.clauses
  rw [(henc.nextSolver_eq hin).2, if_pos hsolved, hclauses, Sat.satisfies_append,
    satisfies_complementClause]
  refine ⟨hans, ?_⟩
  obtain ⟨x, hx, hxP⟩ := Set.not_subset.mp hnot
  refine ⟨x, hx, Bool.eq_false_iff.mpr fun hmodel => hxP ?_⟩
  rw [← hfilter]
  exact List.mem_filter.mpr ⟨mem_of_mem_getSetFromSolver hx, hmodel⟩

/-! ## The root finds a set -/

/-- **Any set may be found first.**  The first answer of the root may be any nonempty
admissible set that omits the query. -/
theorem exists_rootAnswer (hin : SearchInput F A q) (hP : Dung.Admissible F.att A.args P)
    (hne : P.Nonempty) (hqP : q ∉ P) (proof : List ℕ) :
    ∃ (R : VectorBitSet) (b : Activation), IsReduct F A [] R ∧
      (∀ x ∈ R.vector, 1 ≤ x ∧ x < 2 ^ 31) ∧
      R.vector.filter (modelOf F P) ≠ [] ∧ listArgs (R.vector.filter (modelOf F P)) = P ∧
      FirstAnswer F q [] R (some (modelOf F P)) b ∧
      Transition.Run (LawfulStep F A) (.init q proof)
        [.act 0 .silent, .act 0 .silent, .act 0 .silent, .act 0 .callSolver]
        ((SearchState.init q proof).put 0 b) := by
  obtain ⟨R, hR⟩ := exists_isReduct hin.coherent hin.agrees []
  have hPR : Dung.Admissible F.att R.args P := by
    rw [hR.args, listArgs_nil, Dung.reduct_empty]
    exact hP
  obtain ⟨hans, hlist⟩ := answers_modelOf hin hR hPR hne
  obtain ⟨x, hx⟩ := hne
  have hsize : ¬ R.vector.length < 2 := by
    intro hsize
    have hxR : x ∈ R.vector := hPR.subset hx
    rw [hR.vector_of_small hin extensionOk_nil hsize, List.mem_singleton] at hxR
    rw [hxR] at hx
    exact hqP hx
  obtain ⟨b, hb, hrun⟩ := exists_firstAnswer (s := .init q proof) (i := 0) hin hR hsize hans rfl rfl
    (rfl : _ = some (Activation.enter none q flagCell []))
  have hfound : R.vector.filter (modelOf F P) ≠ [] := by
    rw [← hlist] at hx
    exact List.ne_nil_of_mem hx
  exact ⟨R, b, hR, fun x hx => hin.coherent.id_range (hR.range hin.range x hx), hfound, hlist, hb,
    hrun⟩

/-- If the set neither contains nor attacks the query, the next step creates a task for it. -/
theorem exists_spawnStep (hin : SearchInput F A q) (hP : Dung.Admissible F.att A.args P)
    (hne : P.Nonempty) (hqP : q ∉ P) (hatt : ¬ Dung.Attacks F.att P q) (proof : List ℕ) :
    ∃ (R : VectorBitSet) (b : Activation) (prio : ℕ), IsReduct F A [] R ∧
      (∀ x ∈ R.vector, 1 ≤ x ∧ x < 2 ^ 31) ∧ listArgs (R.vector.filter (modelOf F P)) = P ∧
      FirstAnswer F q [] R (some (modelOf F P)) b ∧
      Transition.Run (LawfulStep F A) (.init q proof)
        [.act 0 .silent, .act 0 .silent, .act 0 .silent, .act 0 .callSolver]
        ((SearchState.init q proof).put 0 b) ∧
      LawfulStep F A ((SearchState.init q proof).put 0 b)
        (.act 0 (.spawn (R.vector.filter (modelOf F P)) prio))
        ((SearchState.init q proof).apply 0
          { b with isFirstCalculation := false, point := .pollLoop }
          (.spawn (R.vector.filter (modelOf F P)) prio)) := by
  obtain ⟨R, b, hR, hrange, hfound, hlist, hb, hrun⟩ := exists_rootAnswer hin hP hne hqP proof
  obtain ⟨prio, hspawn⟩ := hb.hasModel.exists_spawn hin hR (by rwa [hlist]) (by rwa [hlist])
    (by rwa [hlist])
  rw [extendExtension_nil] at hspawn
  refine ⟨R, b, prio, hR, hrange, hlist, hb, hrun, ?_⟩
  exact lawfulStep_put none rfl Nat.one_pos (fun h => absurd (hb.point.symm.trans h) nofun)
    ((Activation.advance_answered hb.point).trans (congrArg some hspawn))

/-- **A task for a given set.** -/
theorem exists_spawn (hin : SearchInput F A q) (hP : Dung.Admissible F.att A.args P)
    (hne : P.Nonempty) (hqP : q ∉ P) (hatt : ¬ Dung.Attacks F.att P q) (proof : List ℕ) :
    ∃ (R : VectorBitSet) (b : Activation) (prio : ℕ), IsReduct F A [] R ∧
      listArgs (R.vector.filter (modelOf F P)) = P ∧
      FirstAnswer F q [] R (some (modelOf F P)) b ∧
      Transition.Run (LawfulStep F A) (.init q proof)
        [.act 0 .silent, .act 0 .silent, .act 0 .silent, .act 0 .callSolver,
          .act 0 (.spawn (R.vector.filter (modelOf F P)) prio)]
        ((SearchState.init q proof).apply 0
          { b with isFirstCalculation := false, point := .pollLoop }
          (.spawn (R.vector.filter (modelOf F P)) prio)) := by
  obtain ⟨R, b, prio, hR, -, hlist, hb, hrun, hstep⟩ :=
    exists_spawnStep hin hP hne hqP hatt proof
  exact ⟨R, b, prio, hR, hlist, hb, hrun.snoc hstep⟩

/-- **Any other set may be found second.**  When a task was created for `P`, the root may poll
and find any admissible set that does not include `P`, while the task waits. -/
theorem exists_secondAnswer (hin : SearchInput F A q) {T : Set ℕ}
    (hP : Dung.Admissible F.att A.args P) (hne : P.Nonempty) (hqP : q ∉ P)
    (hatt : ¬ Dung.Attacks F.att P q) (hT : Dung.Admissible F.att A.args T) (hneT : T.Nonempty)
    (hPT : ¬ P ⊆ T) (proof : List ℕ) :
    ∃ (R : VectorBitSet) (b : Activation) (t : Task) (ls : List Action) (s : SearchState),
      IsReduct F A [] R ∧ listArgs (R.vector.filter (modelOf F T)) = T ∧
      HasModel q [] R (modelOf F T) b ∧ t.creator = 0 ∧ listArgs t.newExtensionBuild = P ∧
      Transition.Run (LawfulStep F A) (.init q proof) ls s ∧ ls.count (.act 0 .callSolver) = 2 ∧
      s.activations = [b] ∧ s.tasks = [t] ∧ s.fault = false ∧ s.flag = false := by
  obtain ⟨R, b, prio, hR, hlist, hb, hrun⟩ := exists_spawn hin hP hne hqP hatt proof
  let t : Task := ⟨0, R.vector.filter (modelOf F P), prio⟩
  let b₁ : Activation := { b with isFirstCalculation := false, point := .pollLoop }
  let s₁ : SearchState := (SearchState.init q proof).apply 0 b₁ (.spawn t.newExtensionBuild prio)
  let b₂ : Activation := { b₁ with isRejectedTmp := false, point := .loopHead }
  have hpoll : LawfulStep F A s₁ (.act 0 .silent) (s₁.apply 0 b₂ .silent) :=
    lawfulStep_act none rfl (rfl : _ = some b₁) nofun
      (Activation.advance_pollLoop_unset rfl hb.solution)
  -- the clauses exclude `P` and allow `T`
  have hreduct : b₂.reduct = R := hb.reduct
  have hTR : Dung.Admissible F.att R.args T := by
    rw [hR.args, listArgs_nil, Dung.reduct_empty]
    exact hT
  have hanswer : b₂.nextSolver.SolverAnswers (some (modelOf F T)) := by
    have hok := (SearchInv.run hin (hrun.snoc hpoll)).activations 0 b₂ rfl
    have hdecode := hb.hasModel.decode fun x hx =>
      hin.coherent.id_range (hR.range hin.range x hx)
    refine answers_second hin (hok.encoded (Or.inr (Or.inl rfl))) hb.solved ?_ ?_ hneT ?_
    · rw [hreduct]
      exact hb.clauses
    · rwa [hreduct]
    · show ¬ listArgs (getSetFromSolver b.solver b.reduct) ⊆ T
      rwa [hdecode, hlist]
  have hcall : LawfulStep F A (s₁.apply 0 b₂ .silent) (.act 0 .callSolver)
      ((s₁.apply 0 b₂ .silent).apply 0 (b₂.called (some (modelOf F T))) .callSolver) :=
    lawfulStep_act _ rfl (rfl : _ = some b₂) (fun _ => hanswer) (Activation.advance_loopHead rfl)
  have hmodel : HasModel q [] R (modelOf F T) (b₂.called (some (modelOf F T))) :=
    ⟨rfl, hb.argument, hb.isRejected, hb.extension, hb.reduct, rfl, rfl⟩
  exact ⟨R, _, t, _, _, hR, (answers_modelOf hin hR hTR hneT).2, hmodel, rfl, hlist,
    (hrun.snoc hpoll).snoc hcall, rfl, rfl, rfl, rfl, rfl⟩

/-- **A set that attacks the query.**  The flag is set, and the set is handed over next. -/
theorem exists_reject (hin : SearchInput F A q) (hP : Dung.Admissible F.att A.args P)
    (hatt : Dung.Attacks F.att P q) (proof : List ℕ) :
    ∃ (R : VectorBitSet) (b : Activation) (ls : List Action), IsReduct F A [] R ∧
      listArgs (R.vector.filter (modelOf F P)) = P ∧ b.isRejected = flagCell ∧
      b.extensionBuild = [] ∧ b.initialSet = R.vector.filter (modelOf F P) ∧
      b.point = .handOver ∧
      Transition.Run (LawfulStep F A) (.init q proof) ls
        ((SearchState.init q proof).apply 0 b .setFlag) := by
  obtain ⟨x, hx, hxq⟩ := hatt
  have hqP : q ∉ P := fun hq => hP.conflictFree x hx q hq hxq
  obtain ⟨R, b, hR, hrange, hfound, hlist, hb, hrun⟩ := exists_rootAnswer hin hP ⟨x, hx⟩ hqP proof
  have hrejects : checkRejection q (R.vector.filter (modelOf F P)) F = true := by
    rw [checkRejection_iff hin.coherent, hlist]
    exact ⟨x, hx, hxq⟩
  let c : Activation :=
    { b with
      isFirstCalculation := false
      initialSet := R.vector.filter (modelOf F P)
      point := .handOver }
  have hstep : LawfulStep F A ((SearchState.init q proof).put 0 b) (.act 0 .setFlag)
      ((SearchState.init q proof).apply 0 c .setFlag) :=
    lawfulStep_put none rfl Nat.one_pos (fun h => absurd (hb.point.symm.trans h) nofun)
      ((Activation.advance_answered hb.point).trans
        (congrArg some (hb.hasModel.onAnswer_reject hrange hfound hrejects)))
  exact ⟨R, c, _, hR, hlist, hb.isRejected, hb.extension, rfl, rfl, hrun.snoc hstep⟩

/-- **Up to the first answer of a task.**  While the flag is not set, a task may start and get
any answer to its encoding. -/
theorem exists_taskAnswer (hin : SearchInput F A q) {k : ℕ} {t : Task}
    (hR : IsReduct F A t.newExtensionBuild R) (hsize : ¬ R.vector.length < 2)
    (hans : Sat.Answers (encodingClauses F R) answer) (hrunning : s.fault = false)
    (hflag : s.flag = false) (ht : s.tasks[k]? = some t)
    (ha : s.activations[t.creator]? = some a) (hargument : a.argument = q)
    (hpointer : a.isRejected = flagCell) :
    ∃ ls c, FirstAnswer F q t.newExtensionBuild R answer c ∧
      Transition.Run (LawfulStep F A) s ls
        ((s.startTask k t q flagCell).put s.activations.length c) := by
  have hstart : LawfulStep F A s (.start k q flagCell) (s.startTask k t q flagCell) :=
    lawfulStep_start hrunning ht ha hargument hpointer
  have hi : (s.startTask k t q flagCell).activations[s.activations.length]? =
      some (.enter (some t.creator) q flagCell t.newExtensionBuild) := by
    show (s.activations ++ [_])[s.activations.length]? = _
    rw [List.getElem?_append_right le_rfl, Nat.sub_self]
    rfl
  obtain ⟨c, hc, hrun⟩ := exists_firstAnswer (s := s.startTask k t q flagCell) hin hR hsize hans
    hrunning hflag hi
  exact ⟨_, c, hc, .cons hstart hrun⟩

/-- **A task above a preferred extension sets the flag.**  It finds no set in its reduct,
and it hands nothing over. -/
theorem exists_setFlag (hin : SearchInput F A q) {k : ℕ} {t : Task}
    (hE : ExtensionOk F A q t.newExtensionBuild) (hP : Dung.Preferred F.att A.args P)
    (hL : listArgs t.newExtensionBuild = P) (hrunning : s.fault = false) (hflag : s.flag = false)
    (ht : s.tasks[k]? = some t) (ha : s.activations[t.creator]? = some a)
    (hargument : a.argument = q) (hpointer : a.isRejected = flagCell) :
    ∃ ls c, c.point = .leaving ∧ c.isRejected = flagCell ∧
      Transition.Run (LawfulStep F A) s ls ((s.startTask k t q flagCell).apply
        s.activations.length c .setFlag) := by
  subst hL
  let s₁ : SearchState := s.startTask k t q flagCell
  obtain ⟨R, hR⟩ := exists_isReduct hin.coherent hin.agrees t.newExtensionBuild
  have hsize : ¬ R.vector.length < 2 := fun hsize =>
    hE.notMem (hR.query_mem_of_small hin hE hsize hP subset_rfl)
  obtain ⟨ls, c, hc, hrun⟩ := exists_taskAnswer hin hR hsize (answers_none hin hR hP) hrunning
    hflag ht ha hargument hpointer
  have hi : s.activations.length < s₁.activations.length := by
    rw [SearchState.activations_startTask, List.length_append]
    exact Nat.lt_succ_self _
  have hset : LawfulStep F A (s₁.put s.activations.length c) (.act s.activations.length .setFlag)
      (s₁.apply s.activations.length { c with point := .leaving } .setFlag) :=
    lawfulStep_put none hrunning hi (fun h => absurd (hc.point.symm.trans h) nofun)
      ((Activation.advance_answered hc.point).trans (congrArg some hc.onAnswer_none))
  exact ⟨_, { c with point := .leaving }, rfl, hc.isRejected, hrun.snoc hset⟩

/-- **One thread alone.**  Whatever the others do not do, an activation can run until it
returns, and the waiting tasks may go on waiting meanwhile. -/
theorem exists_returned (hin : SearchInput F A q) (hinv : SearchInv F A q s)
    (ha : s.activations[i]? = some a) :
    ∃ ls s' b, Transition.Run (LawfulStep F A) s ls s' ∧ s'.activations[i]? = some b ∧
      b.point = .returned ∧
      ∀ (k : ℕ) (t : Task), s.tasks[k]? = some t → s'.tasks[k]? = some t := by
  -- every step of the activation lowers the budget of the region
  induction hbudget : s.budget F A using Nat.strong_induction_on generalizing s a with
  | _ budget ih =>
    by_cases hpoint : a.point = .returned
    · exact ⟨[], s, a, .nil s, ha, hpoint, fun _ _ ht => ht⟩
    · obtain ⟨e, s₁, hstep⟩ := exists_act (F := F) (A := A) hinv.noFault ha hpoint
      have hlt := SearchState.budget_lt hin hinv hstep
      obtain ⟨b, hb, -⟩ := hstep.1.parameters ha
      obtain ⟨ls, s', c, hrun, hc, hret, hwaits⟩ :=
        ih _ (hbudget ▸ hlt) (hinv.step hin hstep) hb rfl
      exact ⟨_, s', c, .cons hstep hrun, hc, hret, fun k t ht =>
        hwaits k t (hstep.1.getElem?_tasks ht)⟩

end AFAnalyzer
