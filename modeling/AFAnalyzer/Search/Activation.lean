import AFAnalyzer.Logic.Encoding
import AFAnalyzer.Logic.ScepticalCheck

/-!
# One activation of `check_rejection_parallel_recursiv`

The activations of the recursive function run concurrently; they share the flag
behind `isRejected` and the list `output_extension`, and nothing else.  An
activation is therefore modelled as its local variables together with the point at
which it stands.  Between two points it touches shared state at most once, so one
step from point to point is one atomic step of the parallel program:

* `entry`, `pollEncoded` and `pollLoop` read the flag;
* `encode` computes the reduct, takes the early return for a small one, and
  otherwise sends the clauses to a new solver;
* `loopHead` is the beginning of the `do` body up to the SAT call, whose answer is an
  argument of the step;
* `answered` is everything from the answer to the next access to shared state:
  leaving, setting the flag, going back to the loop condition by `continue`, or
  creating a task;
* `handOver` computes the new extension after the flag was set by a rejecting set, and begins
  to assign it to the output;
* `assigning` stands inside that assignment, and ends it;
* `leaving` frees the local objects and returns.

`Activation.advance` is that step as a function, and `Advanced` lists what it can do,
one constructor per branch of the source.  The proofs about the search use
`Advanced` only.
-/

namespace AFAnalyzer

/-- Where an activation stands. -/
inductive Point
  | entry
  | encode
  | pollEncoded
  | loopHead
  | answered
  | handOver
  | assigning
  | pollLoop
  | leaving
  | returned
  deriving DecidableEq

/-- The parameters and local variables of one activation.  `isRejected` is the
address of the flag; `creator` is the activation whose task this is, which the code
does not store. -/
structure Activation where
  creator : Option ℕ
  argument : ℕ
  isRejected : ℕ
  extensionBuild : List ℕ
  isRejectedTmp : Bool
  reduct : VectorBitSet
  isSolved : Bool
  isFirstCalculation : Bool
  hasSolution : Bool
  solver : SatSolverCadical
  initialSet : List ℕ
  point : Point

/-- What a step does apart from changing the local variables. -/
inductive Effect
  | silent
  | callSolver
  | setFlag
  | handOver (newExtensionBuild : List ℕ)
  | abort
  | spawn (newExtensionBuild : List ℕ) (prio : ℕ)
  | ret
  | fault
  deriving DecidableEq

namespace Activation

/-- A call of the function. -/
def enter (creator : Option ℕ) (argument isRejected : ℕ) (extensionBuild : List ℕ) :
    Activation where
  creator := creator
  argument := argument
  isRejected := isRejected
  extensionBuild := extensionBuild
  isRejectedTmp := false
  reduct := ⟨[], []⟩
  isSolved := false
  isFirstCalculation := true
  hasSolution := true
  solver := .new 0
  initialSet := []
  point := .entry

/-- `isRejected_tmp = *isRejected`, and the return if it is true. -/
def poll (a : Activation) (flag : Bool) (next : Point) : Activation :=
  { a with isRejectedTmp := flag, point := if flag = true then .leaving else next }

/-- The loop condition `has_Solution && !isRejected_tmp`. -/
def loopCondition (a : Activation) : Activation :=
  { a with point := if (a.hasSolution && !a.isRejectedTmp) = true then .loopHead else .leaving }

/-- The solver at the SAT call: from the second round on, the last model has been
excluded. -/
def nextSolver (a : Activation) : SatSolverCadical :=
  if a.isSolved = true then addComplementClause a.solver a.reduct else a.solver

/-- The SAT call at the top of the loop. -/
def called (a : Activation) (answer : Option (ℕ → Bool)) : Activation :=
  let (solver, hasSolution) := a.nextSolver.solve answer
  { a with isSolved := true, solver := solver, hasSolution := hasSolution, point := .answered }

/-- From the answer of the solver to the next access to shared state. -/
def onAnswer (F : AF) (activeArgs : VectorBitSet) (a : Activation) : Activation × Effect :=
  if a.hasSolution = false then
    if a.isFirstCalculation = true then ({ a with point := .leaving }, .setFlag)
    else ({ a with point := .leaving }, .silent)
  else
    let initialSet := getSetFromSolver a.solver a.reduct
    if initialSet = [] then
      if a.isFirstCalculation = true then ({ a with point := .leaving }, .setFlag)
      else (a, .fault)
    else
      let a := { a with isFirstCalculation := false }
      if checkRejection a.argument initialSet F = true then
        ({ a with initialSet := initialSet, point := .handOver }, .setFlag)
      else if checkTerminateExtensionBuild a.argument initialSet = true then
        (a.loopCondition, .abort)
      else
        let newExtensionBuild := extendExtension a.extensionBuild initialSet
        match calculatePriority F newExtensionBuild, buildReduct F activeArgs a.extensionBuild with
        | some prio, some reduct =>
          ({ a with reduct := reduct, point := .pollLoop }, .spawn newExtensionBuild prio)
        | _, _ => (a, .fault)

/-- One atomic step of an activation.  `flag` is the value behind `isRejected`, and
`answer` the answer of the SAT solver if the step calls it. -/
def advance (F : AF) (activeArgs : VectorBitSet) (flag : Bool) (answer : Option (ℕ → Bool))
    (a : Activation) : Option (Activation × Effect) :=
  match a.point with
  | .entry => some (a.poll flag .encode, .silent)
  | .encode =>
    match buildReduct F activeArgs a.extensionBuild with
    | none => some (a, .fault)
    | some reduct =>
      if reduct.vector.length < 2 then
        some ({ a with reduct := reduct, point := .leaving }, .silent)
      else
        some ({ a with
          reduct := reduct
          isSolved := false
          isFirstCalculation := true
          solver := addClausesNonemptyAdmissibleSet (.new reduct.vector.length) F reduct
          point := .pollEncoded }, .silent)
  | .pollEncoded => some ({ a.poll flag .loopHead with hasSolution := true }, .silent)
  | .loopHead => some (a.called answer, .callSolver)
  | .answered => some (a.onAnswer F activeArgs)
  | .handOver =>
    some ({ a with point := .assigning },
      .handOver (extendExtension a.extensionBuild a.initialSet))
  | .assigning => some ({ a with point := .leaving }, .silent)
  | .pollLoop => some ({ a with isRejectedTmp := flag }.loopCondition, .silent)
  | .leaving => some ({ a with point := .returned }, .ret)
  | .returned => none

/-! ## What a step can do -/

/-- The points at which the flag is read. -/
def Polls (a : Activation) : Prop :=
  a.point = .entry ∨ a.point = .pollEncoded ∨ a.point = .pollLoop

/-- The reasons for which the program would stop with an error. -/
inductive Faulty (F : AF) (A : VectorBitSet) (a : Activation) : Prop
  | reduct (point : a.point = .encode ∨ a.point = .answered)
      (build : buildReduct F A a.extensionBuild = none)
  | emptyAgain (point : a.point = .answered) (answer : a.hasSolution = true)
      (empty : getSetFromSolver a.solver a.reduct = [])
  | priority (point : a.point = .answered)
      (found : getSetFromSolver a.solver a.reduct ≠ [])
      (empty : extendExtension a.extensionBuild (getSetFromSolver a.solver a.reduct) = [])

/-- **The branches of the source.** -/
inductive Advanced (F : AF) (A : VectorBitSet) (flag : Bool) (answer : Option (ℕ → Bool))
    (a : Activation) : Activation → Effect → Prop
  | cutOff {b : Activation} (polls : a.Polls) (set : flag = true) (reduct : b.reduct = a.reduct)
      (same : b.argument = a.argument ∧ b.isRejected = a.isRejected ∧
        b.extensionBuild = a.extensionBuild ∧ b.creator = a.creator)
      (point : b.point = .leaving) : Advanced F A flag answer a b .silent
  | entered (point : a.point = .entry) (unset : flag = false) :
      Advanced F A flag answer a { a with isRejectedTmp := false, point := .encode } .silent
  | small {reduct : VectorBitSet} (point : a.point = .encode)
      (build : buildReduct F A a.extensionBuild = some reduct) (size : reduct.vector.length < 2) :
      Advanced F A flag answer a { a with reduct := reduct, point := .leaving } .silent
  | encoded {reduct : VectorBitSet} (point : a.point = .encode)
      (build : buildReduct F A a.extensionBuild = some reduct)
      (size : ¬ reduct.vector.length < 2) :
      Advanced F A flag answer a
        { a with
          reduct := reduct
          isSolved := false
          isFirstCalculation := true
          solver := addClausesNonemptyAdmissibleSet (.new reduct.vector.length) F reduct
          point := .pollEncoded } .silent
  | armed (point : a.point = .pollEncoded) (unset : flag = false) :
      Advanced F A flag answer a
        { a with isRejectedTmp := false, hasSolution := true, point := .loopHead } .silent
  | call (point : a.point = .loopHead) :
      Advanced F A flag answer a (a.called answer) .callSolver
  | exhausted (point : a.point = .answered) (unsat : a.hasSolution = false)
      (first : a.isFirstCalculation = false) :
      Advanced F A flag answer a { a with point := .leaving } .silent
  | onlyEmpty (point : a.point = .answered) (first : a.isFirstCalculation = true)
      (empty : a.hasSolution = false ∨ getSetFromSolver a.solver a.reduct = []) :
      Advanced F A flag answer a { a with point := .leaving } .setFlag
  | reject (point : a.point = .answered) (sat : a.hasSolution = true)
      (found : getSetFromSolver a.solver a.reduct ≠ [])
      (rejects : checkRejection a.argument (getSetFromSolver a.solver a.reduct) F = true) :
      Advanced F A flag answer a
        { a with
          isFirstCalculation := false
          initialSet := getSetFromSolver a.solver a.reduct
          point := .handOver } .setFlag
  | abort (point : a.point = .answered) (sat : a.hasSolution = true)
      (found : getSetFromSolver a.solver a.reduct ≠ [])
      (passes : checkRejection a.argument (getSetFromSolver a.solver a.reduct) F = false)
      (contains : checkTerminateExtensionBuild a.argument (getSetFromSolver a.solver a.reduct) =
        true) :
      Advanced F A flag answer a
        { a with
          isFirstCalculation := false
          point := if a.isRejectedTmp = true then .leaving else .loopHead } .abort
  | spawn {prio : ℕ} {reduct : VectorBitSet} (point : a.point = .answered)
      (sat : a.hasSolution = true) (found : getSetFromSolver a.solver a.reduct ≠ [])
      (passes : checkRejection a.argument (getSetFromSolver a.solver a.reduct) F = false)
      (omits : checkTerminateExtensionBuild a.argument (getSetFromSolver a.solver a.reduct) = false)
      (priority : calculatePriority F
        (extendExtension a.extensionBuild (getSetFromSolver a.solver a.reduct)) = some prio)
      (build : buildReduct F A a.extensionBuild = some reduct) :
      Advanced F A flag answer a
        { a with isFirstCalculation := false, reduct := reduct, point := .pollLoop }
        (.spawn (extendExtension a.extensionBuild (getSetFromSolver a.solver a.reduct)) prio)
  | again (point : a.point = .pollLoop) (unset : flag = false) :
      Advanced F A flag answer a
        { a with
          isRejectedTmp := false
          point := if a.hasSolution = true then .loopHead else .leaving } .silent
  | handOver (point : a.point = .handOver) :
      Advanced F A flag answer a { a with point := .assigning }
        (.handOver (extendExtension a.extensionBuild a.initialSet))
  | assigned (point : a.point = .assigning) :
      Advanced F A flag answer a { a with point := .leaving } .silent
  | ret (point : a.point = .leaving) :
      Advanced F A flag answer a { a with point := .returned } .ret
  | fault {b : Activation} (why : a.Faulty F A)
      (same : b.argument = a.argument ∧ b.isRejected = a.isRejected ∧
        b.extensionBuild = a.extensionBuild ∧ b.creator = a.creator ∧ b.point = a.point) :
      Advanced F A flag answer a b .fault

variable {F : AF} {A : VectorBitSet} {flag : Bool} {answer : Option (ℕ → Bool)}
  {a b : Activation} {e : Effect}

theorem advanced_onAnswer (hpoint : a.point = .answered) (h : a.onAnswer F A = (b, e)) :
    Advanced F A flag answer a b e := by
  unfold onAnswer at h
  split at h
  · next hunsat =>
    split at h
    · next hfirst =>
      obtain ⟨rfl, rfl⟩ := Prod.mk.inj h
      exact .onlyEmpty hpoint hfirst (Or.inl hunsat)
    · next hfirst =>
      obtain ⟨rfl, rfl⟩ := Prod.mk.inj h
      exact .exhausted hpoint hunsat (by simpa using hfirst)
  · next hsat =>
    have hsat : a.hasSolution = true := by simpa using hsat
    simp only at h
    split at h
    · next hempty =>
      split at h
      · next hfirst =>
        obtain ⟨rfl, rfl⟩ := Prod.mk.inj h
        exact .onlyEmpty hpoint hfirst (Or.inr hempty)
      · obtain ⟨rfl, rfl⟩ := Prod.mk.inj h
        exact .fault (.emptyAgain hpoint hsat hempty) ⟨rfl, rfl, rfl, rfl, rfl⟩
    · next hfound =>
      split at h
      · next hrejects =>
        obtain ⟨rfl, rfl⟩ := Prod.mk.inj h
        exact .reject hpoint hsat hfound hrejects
      · next hpasses =>
        have hpasses := Bool.eq_false_iff.mpr hpasses
        split at h
        · next hcontains =>
          obtain ⟨rfl, rfl⟩ := Prod.mk.inj h
          have habort : Advanced F A flag answer a _ .abort :=
            .abort hpoint hsat hfound hpasses hcontains
          have hback : (if (a.hasSolution && !a.isRejectedTmp) = true then Point.loopHead
              else Point.leaving) = if a.isRejectedTmp = true then .leaving else .loopHead := by
            rw [hsat]
            cases a.isRejectedTmp <;> rfl
          rw [← hback] at habort
          exact habort
        · next homits =>
          have homits := Bool.eq_false_iff.mpr homits
          split at h
          · next prio reduct hprio hbuild =>
            obtain ⟨rfl, rfl⟩ := Prod.mk.inj h
            exact .spawn hpoint hsat hfound hpasses homits hprio hbuild
          · next hnone =>
            obtain ⟨rfl, rfl⟩ := Prod.mk.inj h
            refine .fault ?_ ⟨rfl, rfl, rfl, rfl, rfl⟩
            cases hbuild : buildReduct F A a.extensionBuild with
            | none => exact .reduct (Or.inr hpoint) hbuild
            | some reduct =>
              refine .priority hpoint hfound (calculatePriority_eq_none (F := F).mp ?_)
              cases hprio : calculatePriority F
                  (extendExtension a.extensionBuild (getSetFromSolver a.solver a.reduct)) with
              | none => rfl
              | some prio => exact absurd hbuild (hnone prio reduct hprio)

/-- **Inversion of a step.** -/
theorem advanced_of_advance (h : a.advance F A flag answer = some (b, e)) :
    Advanced F A flag answer a b e := by
  unfold advance at h
  split at h
  · next hpoint =>
    obtain ⟨rfl, rfl⟩ := Prod.mk.inj (Option.some.inj h)
    cases flag with
    | true => exact .cutOff (Or.inl hpoint) rfl rfl ⟨rfl, rfl, rfl, rfl⟩ rfl
    | false => exact .entered hpoint rfl
  · next hpoint =>
    split at h
    · next hbuild =>
      obtain ⟨rfl, rfl⟩ := Prod.mk.inj (Option.some.inj h)
      exact .fault (.reduct (Or.inl hpoint) hbuild) ⟨rfl, rfl, rfl, rfl, rfl⟩
    · next reduct hbuild =>
      split at h
      · next hsize =>
        obtain ⟨rfl, rfl⟩ := Prod.mk.inj (Option.some.inj h)
        exact .small hpoint hbuild hsize
      · next hsize =>
        obtain ⟨rfl, rfl⟩ := Prod.mk.inj (Option.some.inj h)
        exact .encoded hpoint hbuild hsize
  · next hpoint =>
    obtain ⟨rfl, rfl⟩ := Prod.mk.inj (Option.some.inj h)
    cases flag with
    | true => exact .cutOff (Or.inr (Or.inl hpoint)) rfl rfl ⟨rfl, rfl, rfl, rfl⟩ rfl
    | false => exact .armed hpoint rfl
  · next hpoint =>
    obtain ⟨rfl, rfl⟩ := Prod.mk.inj (Option.some.inj h)
    exact .call hpoint
  · next hpoint => exact advanced_onAnswer hpoint (Option.some.inj h)
  · next hpoint =>
    obtain ⟨rfl, rfl⟩ := Prod.mk.inj (Option.some.inj h)
    exact .handOver hpoint
  · next hpoint =>
    obtain ⟨rfl, rfl⟩ := Prod.mk.inj (Option.some.inj h)
    exact .assigned hpoint
  · next hpoint =>
    obtain ⟨rfl, rfl⟩ := Prod.mk.inj (Option.some.inj h)
    cases flag with
    | true =>
      refine .cutOff (Or.inr (Or.inr hpoint)) rfl rfl ⟨rfl, rfl, rfl, rfl⟩ ?_
      simp [loopCondition]
    | false =>
      have hagain : Advanced F A false answer a _ .silent := .again hpoint rfl
      simpa [loopCondition] using hagain
  · next hpoint =>
    obtain ⟨rfl, rfl⟩ := Prod.mk.inj (Option.some.inj h)
    exact .ret hpoint
  · exact absurd h (by simp)

/-- The error exits lie in two steps. -/
theorem Faulty.point (h : a.Faulty F A) : a.point = .encode ∨ a.point = .answered := by
  cases h with
  | reduct point => exact point
  | emptyAgain point => exact Or.inr point
  | priority point => exact Or.inr point

/-- Only a finished activation cannot advance. -/
theorem advance_eq_none : a.advance F A flag answer = none ↔ a.point = .returned := by
  unfold advance
  split
  all_goals simp_all
  split
  · simp
  · split <;> simp

/-- The parameters of an activation never change. -/
theorem Advanced.parameters (h : Advanced F A flag answer a b e) :
    b.argument = a.argument ∧ b.isRejected = a.isRejected ∧
      b.extensionBuild = a.extensionBuild ∧ b.creator = a.creator := by
  cases h with
  | cutOff _ _ _ same => exact same
  | fault _ same => exact ⟨same.1, same.2.1, same.2.2.1, same.2.2.2.1⟩
  | _ => exact ⟨rfl, rfl, rfl, rfl⟩

end Activation

end AFAnalyzer
