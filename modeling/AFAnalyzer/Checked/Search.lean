import AFAnalyzer.Checked.Construction
import AFAnalyzer.Checked.Preprocessing
import AFAnalyzer.Search.Scenario
import AFAnalyzer.Solver.Solve

/-!
# Subscripts in the search

The functions that an activation calls, and its step, with checked subscripts.  A subscript out
of bounds is a fault of the step.  The solver has no subscripts of its own here, and
`get_set_from_solver` and `add_complement_clause` subscript only the vector that they run over.

The sizes come from `Sized`, the ids from the invariant of the search: the extensions and the
found sets are subsets of the active arguments, and a reduct has a bit for every id.
`Ok.advance_eq` is the step of one activation, and `solve_inBounds` puts everything together:
from the construction of the framework to the end of the search no vector is subscripted out of
bounds.
-/

namespace AFAnalyzer.Checked

open Table

/-! ## The functions -/

/-- `VectorBitSet::copy`. -/
def copy (s : VectorBitSet) : Option VectorBitSet :=
  (List.range s.bitset.length).foldlM
    (fun c i => do
      let vector ← (if i < s.vector.length then (s.vector[i]?).map fun a => c.vector ++ [a]
        else some c.vector)
      let value ← s.bitset[i]?
      let bitset ← store c.bitset i value
      some ⟨vector, bitset⟩)
    ⟨[], List.replicate s.bitset.length false⟩

/-- The reduct of an activation. -/
def buildReduct (F : AF) (activeArgs : VectorBitSet) (extensionBuild : List ℕ) :
    Option VectorBitSet :=
  if extensionBuild.isEmpty then copy activeArgs else getReductSet activeArgs F extensionBuild

/-- The body of the loop of `add_admissible` over the attackers of the argument. -/
def addAttacker (F : AF) (activeArgs : VectorBitSet) (argument : ℕ)
    (st : SatSolverCadical × List ℤ) (attacker : ℕ) : Option (SatSolverCadical × List ℤ) := do
  if (← bit activeArgs attacker) = true then
    let (s, reason) := addRejectedClausesPerAttacker st.1 F.numArgs argument attacker st.2
    some (addDefensePerAttacker (addConflictFreePerAttacker s argument attacker) F.numArgs
      argument attacker, reason)
  else some st

/-- `add_admissible`. -/
def addAdmissible (s : SatSolverCadical) (F : AF) (activeArgs : VectorBitSet) (argument : ℕ) :
    Option SatSolverCadical := do
  let attackers ← F.attackers[argument]?
  let st ← attackers.vector.foldlM (addAttacker F activeArgs argument)
    (addRejectedClauses s F.numArgs argument)
  some (st.1.addClause st.2)

/-- `Encoding::add_clauses_nonempty_admissible_set`. -/
def addClausesNonemptyAdmissibleSet (s : SatSolverCadical) (F : AF) (activeArgs : VectorBitSet) :
    Option SatSolverCadical := do
  let st ← activeArgs.vector.foldlM
    (fun (st : SatSolverCadical × List ℤ) argument => do
      let s ← addAdmissible st.1 F activeArgs argument
      some (s, st.2 ++ [getLiteralAccepted argument false]))
    (s, [])
  some (st.1.addClause st.2)

/-- `ScepticalCheck::check_rejection`. -/
def checkRejection (argument : ℕ) (initialSet : List ℕ) (F : AF) : Option Bool :=
  match initialSet with
  | [] => some false
  | a :: rest => do
    let victims ← F.victims[a]?
    if (← bit victims argument) = true then some true else checkRejection argument rest F

/-- The priority of one argument. -/
def priorityOf (F : AF) (a : ℕ) : Option ℕ := do
  let distance ← F.distanceToQuery[a]?
  some (u32 (F.numArgs + (2 ^ 32 - distance)))

/-- `Prioritizer::calculate_priority`; `none` is also the exception thrown for an empty list. -/
def calculatePriority (F : AF) : List ℕ → Option ℕ
  | [] => none
  | a :: rest => do
    let prio ← priorityOf F a
    rest.foldlM
      (fun prio b => do
        let newPrio ← priorityOf F b
        some (if newPrio > prio then newPrio else prio))
      prio

/-- From the answer of the solver to the next access to shared state. -/
def onAnswer (F : AF) (activeArgs : VectorBitSet) (a : Activation) :
    Option (Activation × Effect) :=
  if a.hasSolution = false then
    if a.isFirstCalculation = true then some ({ a with point := .leaving }, .setFlag)
    else some ({ a with point := .leaving }, .silent)
  else
    let initialSet := getSetFromSolver a.solver a.reduct
    if initialSet = [] then
      if a.isFirstCalculation = true then some ({ a with point := .leaving }, .setFlag)
      else some (a, .fault)
    else
      let a := { a with isFirstCalculation := false }
      (checkRejection a.argument initialSet F).bind fun rejects =>
        if rejects = true then
          some ({ a with initialSet := initialSet, point := .handOver }, .setFlag)
        else if checkTerminateExtensionBuild a.argument initialSet = true then
          some (a.loopCondition, .abort)
        else
          let newExtensionBuild := extendExtension a.extensionBuild initialSet
          (calculatePriority F newExtensionBuild).bind fun prio =>
            (buildReduct F activeArgs a.extensionBuild).bind fun reduct =>
              some ({ a with reduct := reduct, point := .pollLoop }, .spawn newExtensionBuild prio)

/-- One atomic step of an activation.  A subscript out of bounds is a fault. -/
def advance (F : AF) (activeArgs : VectorBitSet) (flag : Bool) (answer : Option (ℕ → Bool))
    (a : Activation) : Option (Activation × Effect) :=
  match a.point with
  | .entry => some (a.poll flag .encode, .silent)
  | .encode =>
    match buildReduct F activeArgs a.extensionBuild with
    | none => some (a, .fault)
    | some reduct =>
      if reduct.vector.length < 2 then
        some ({ a with reduct := reduct, point := .leaving }, .silent)
      else
        match addClausesNonemptyAdmissibleSet (.new reduct.vector.length) F reduct with
        | none => some (a, .fault)
        | some solver =>
          some ({ a with
            reduct := reduct
            isSolved := false
            isFirstCalculation := true
            solver := solver
            point := .pollEncoded }, .silent)
  | .pollEncoded => some ({ a.poll flag .loopHead with hasSolution := true }, .silent)
  | .loopHead => some (a.called answer, .callSolver)
  | .answered => some ((onAnswer F activeArgs a).getD (a, .fault))
  | .handOver =>
    some ({ a with point := .assigning },
      .handOver (extendExtension a.extensionBuild a.initialSet))
  | .assigning => some ({ a with point := .leaving }, .silent)
  | .pollLoop => some ({ a with isRejectedTmp := flag }.loopCondition, .silent)
  | .leaving => some ({ a with point := .returned }, .ret)
  | .returned => none

variable {F : AF} {A R s : VectorBitSet} {q n argument : ℕ} {l : List ℕ} {a : Activation}
  {solver : SatSolverCadical}

/-! ## They agree with the unchecked ones -/

theorem copy_eq (s : VectorBitSet) : copy s = some s.copy := by
  refine (foldlM_eq_foldl (I := fun c : VectorBitSet => c.bitset.length = s.bitset.length)
    (fun c hc i hi => ⟨?_, List.length_set.trans hc⟩) List.length_replicate).1
  have hlt : i < s.bitset.length := List.mem_range.mp hi
  have hvector : (if i < s.vector.length then (s.vector[i]?).map fun a => c.vector ++ [a]
      else some c.vector) =
      some (if i < s.vector.length then c.vector ++ [s.vector.getD i 0] else c.vector) := by
    split
    · next h =>
      rw [read_of_lt (d := 0) h]
      rfl
    · rfl
  simp only [hvector, read_of_lt (d := false) hlt, store_of_lt (hc ▸ hlt), Option.bind_eq_bind,
    Option.bind_some]

theorem buildReduct_eq (hF : Sized F) (hA : Within F.numArgs A) (hl : ∀ a ∈ l, a ≤ F.numArgs) :
    buildReduct F A l = AFAnalyzer.buildReduct F A l := by
  rw [buildReduct, AFAnalyzer.buildReduct, copy_eq, getReductSet_eq hF hA hl]

theorem addAdmissible_eq (hF : Sized F) (hR : Within F.numArgs R) (h : argument ≤ F.numArgs) :
    addAdmissible solver F R argument = some (AFAnalyzer.addAdmissible solver F R argument) := by
  have hloop := (foldlM_eq_foldl (I := fun _ => True) (g := addAttacker F R argument)
    (f := AFAnalyzer.addAttacker F R argument) (l := (F.attackersAt argument).vector)
    (s := addRejectedClauses solver F.numArgs argument) (fun st _ b hb => ⟨?_, trivial⟩) trivial).1
  · rw [addAdmissible, hF.read_attackers h, Option.bind_eq_bind, Option.bind_some, hloop]
    rfl
  · rw [addAttacker, AFAnalyzer.addAttacker, hR.bit_eq (hF.attackers_le argument b hb),
      Option.bind_eq_bind, Option.bind_some]
    split <;> rfl

theorem addClausesNonemptyAdmissibleSet_eq (hF : Sized F) (hR : Within F.numArgs R) :
    addClausesNonemptyAdmissibleSet solver F R =
      some (AFAnalyzer.addClausesNonemptyAdmissibleSet solver F R) := by
  have hloop := (foldlM_eq_foldl (I := fun _ => True) (l := R.vector) (s := (solver, []))
    (f := fun (st : SatSolverCadical × List ℤ) argument =>
      (AFAnalyzer.addAdmissible st.1 F R argument, st.2 ++ [getLiteralAccepted argument false]))
    (g := fun st argument => (addAdmissible st.1 F R argument).bind fun s =>
      some (s, st.2 ++ [getLiteralAccepted argument false]))
    (fun st _ argument hmem => ⟨?_, trivial⟩) trivial).1
  · exact congrArg (Option.bind · fun st => some (st.1.addClause st.2)) hloop
  · rw [addAdmissible_eq hF hR (hR.le argument hmem), Option.bind_some]

theorem checkRejection_eq (hF : Sized F) (h : argument ≤ F.numArgs)
    (hl : ∀ a ∈ l, a ≤ F.numArgs) :
    checkRejection argument l F = some (AFAnalyzer.checkRejection argument l F) := by
  induction l with
  | nil => rfl
  | cons a l ih =>
    have ha := hl a List.mem_cons_self
    rw [checkRejection, hF.read_victims ha, Option.bind_eq_bind, Option.bind_some,
      hF.bit_victims ha h, Option.bind_eq_bind, Option.bind_some,
      ih fun b hb => hl b (List.mem_cons_of_mem a hb)]
    show _ = some ((F.victimsAt a).bit argument || AFAnalyzer.checkRejection argument l F)
    cases (F.victimsAt a).bit argument <;> rfl

theorem priorityOf_eq (hF : Sized F) {a : ℕ} (ha : a ≤ F.numArgs) :
    priorityOf F a = some (AFAnalyzer.priorityOf F a) := by
  rw [priorityOf, read_of_lt (d := 0) (hF.distance ▸ Nat.lt_succ_of_le ha)]
  rfl

theorem calculatePriority_eq (hF : Sized F) (hl : ∀ a ∈ l, a ≤ F.numArgs) :
    calculatePriority F l = AFAnalyzer.calculatePriority F l := by
  cases l with
  | nil => rfl
  | cons a l =>
    rw [calculatePriority, AFAnalyzer.calculatePriority,
      priorityOf_eq hF (hl a List.mem_cons_self), Option.bind_eq_bind, Option.bind_some]
    refine (foldlM_eq_foldl (I := fun _ => True) (fun prio _ b hb => ⟨?_, trivial⟩) trivial).1
    rw [priorityOf_eq hF (hl b (List.mem_cons_of_mem a hb))]
    rfl

/-! ## The step of an activation -/

/-- The ids and the sets that an activation subscripts by are those of the framework. -/
structure ActivationSizes (F : AF) (A : VectorBitSet) (a : Activation) : Prop where
  active : Within F.numArgs A
  argument : a.argument ≤ F.numArgs
  extension : ∀ b ∈ a.extensionBuild, b ≤ F.numArgs
  reduct : a.point = .answered → ∀ b ∈ a.reduct.vector, b ≤ F.numArgs

theorem exists_buildReduct : ∃ R, AFAnalyzer.buildReduct F A l = some R := by
  cases l with
  | nil => exact ⟨_, rfl⟩
  | cons b l =>
    rw [AFAnalyzer.buildReduct, AFAnalyzer.getReductSet]
    simp only [List.isEmpty_cons, Bool.false_eq_true, if_false]
    split <;> exact ⟨_, rfl⟩

theorem onAnswer_eq (hF : Sized F) (h : ActivationSizes F A a) (hpoint : a.point = .answered) :
    onAnswer F A a = some (a.onAnswer F A) := by
  have hfound : ∀ b ∈ getSetFromSolver a.solver a.reduct, b ≤ F.numArgs := by
    intro b hb
    rw [getSetFromSolver, foldl_append_if, List.nil_append] at hb
    exact h.reduct hpoint b (List.mem_filter.mp hb).1
  have hextend : ∀ b ∈ extendExtension a.extensionBuild (getSetFromSolver a.solver a.reduct),
      b ≤ F.numArgs := fun b hb =>
    (mem_extendExtension.mp hb).elim (h.extension b) (hfound b)
  obtain ⟨R, hR⟩ := exists_buildReduct (F := F) (A := A) (l := a.extensionBuild)
  unfold onAnswer Activation.onAnswer
  by_cases hsat : a.hasSolution = false
  · rw [if_pos hsat, if_pos hsat]
    split <;> rfl
  · rw [if_neg hsat, if_neg hsat]
    by_cases hempty : getSetFromSolver a.solver a.reduct = []
    · simp only [if_pos hempty]
      split <;> rfl
    · obtain ⟨prio, hprio⟩ : ∃ prio, AFAnalyzer.calculatePriority F
          (extendExtension a.extensionBuild (getSetFromSolver a.solver a.reduct)) = some prio :=
        Option.ne_none_iff_exists'.mp fun hnone =>
          extendExtension_ne_nil hempty (calculatePriority_eq_none.mp hnone)
      simp only [if_neg hempty, checkRejection_eq hF h.argument hfound, Option.bind_some,
        calculatePriority_eq hF hextend, buildReduct_eq hF h.active h.extension, hprio, hR]
      split
      · rfl
      · split <;> rfl

/-- **No step of an activation subscripts out of bounds.** -/
theorem advance_eq (hF : Sized F) (h : ActivationSizes F A a) (flag : Bool)
    (answer : Option (ℕ → Bool))
    (hR : ∀ R, AFAnalyzer.buildReduct F A a.extensionBuild = some R → Within F.numArgs R) :
    advance F A flag answer a = a.advance F A flag answer := by
  unfold advance Activation.advance
  cases hpoint : a.point with
  | encode =>
    simp only [buildReduct_eq hF h.active h.extension]
    cases hbuild : AFAnalyzer.buildReduct F A a.extensionBuild with
    | none => rfl
    | some R => simp only [addClausesNonemptyAdmissibleSet_eq hF (hR R hbuild)]
  | answered => exact congrArg (fun x => some (x.getD (a, .fault))) (onAnswer_eq hF h hpoint)
  | _ => rfl

/-! ## From the construction to the end of the search -/

/-- The tables of a framework that has been built as the parser builds it. -/
theorem sized_wellFormed (W : WellFormed) : Sized W.af := by
  have hn : W.af.numArgs = W.n := buildAF_numArgs
  have htables : W.af.attackers.length = W.n + 1 ∧ W.af.victims.length = W.n + 1 := by
    rw [WellFormed.af, buildAF, AF.addAttacks_initializeArgs_fresh]
    simp [AF.finishInitilization, AF.moveTables]
  refine ⟨hn ▸ htables.1, hn ▸ htables.2, W.coherent.length_distance, fun a ha => ?_,
    fun a b hb => ?_, fun a b hb => ?_⟩
  · rw [hn] at ha ⊢
    exact (buildAF_victims_matches
      (fun p hp => ⟨(W.inRange p hp).2.1, (W.inRange p hp).2.2.2⟩) W.iteration ha).length
  · exact (W.coherent.att_args ((W.coherent.mem_attackers a b).mp hb)).1.2
  · exact (W.coherent.att_args ((W.coherent.mem_victims a b).mp hb)).2.2

theorem within_of_matches (h : VectorBitSet.Matches n s) : Within n s :=
  ⟨h.length, fun _ => h.le_of_mem⟩

/-- The invariant of the search bounds what an activation subscripts by. -/
theorem activationSizes_of_ok (hin : SearchInput F A q) (hok : a.Ok F A q) :
    ActivationSizes F A a where
  active := within_of_matches hin.agrees
  argument := by
    rw [hok.argument]
    exact (hin.range q hin.query_mem).2
  extension := fun b hb => (hin.range b (hok.extension.admissible.subset hb)).2
  reduct := fun hpoint b hb =>
    ((hok.encoded (Or.inr (Or.inr (Or.inl hpoint)))).reduct.range hin.range b hb).2

/-- Whatever an activation does next, it subscripts no vector out of bounds: with checked
subscripts it makes the same step, and the step is no fault. -/
def StepsInBounds (F : AF) (A : VectorBitSet) (s : SearchState) : Prop :=
  ∀ (i : ℕ) (a : Activation), s.activations[i]? = some a → a.point ≠ .returned →
    ∀ flag answer, ∃ b e, advance F A flag answer a = some (b, e) ∧ e ≠ .fault ∧
      a.advance F A flag answer = some (b, e)

theorem stepsInBounds_of_inv {s : SearchState} (hF : Sized F) (hin : SearchInput F A q)
    (h : SearchInv F A q s) : StepsInBounds F A s := by
  intro i a ha hpoint flag answer
  have hok := h.activations i a ha
  obtain ⟨⟨b, e⟩, hstep⟩ : ∃ x, a.advance F A flag answer = some x :=
    Option.ne_none_iff_exists'.mp fun hnone => hpoint (Activation.advance_eq_none.mp hnone)
  refine ⟨b, e, ?_, hok.effect_ne_fault hin (Activation.advanced_of_advance hstep), hstep⟩
  rw [advance_eq hF (activationSizes_of_ok hin hok) flag answer fun R hR =>
    within_of_matches (isReduct_of_build hin.coherent hin.agrees hR).agrees, hstep]

/-- **No vector is subscripted out of bounds**, from the construction of the framework to the end
of the search: not in `finish_initilization`, not in the preprocessing, whatever distances earlier
queries have left, and not in any step of any run of the search in which each task sees the
argument and the flag of its creator. -/
theorem solve_inBounds (W : WellFormed) {d : List ℕ} (hd : d.length = W.n + 1) {q : ℕ}
    (h1 : 1 ≤ q) (hn : q ≤ W.n) :
    finishInitilization ((AF.fresh.initializeArgs W.n).addAttacks W.calls) W.order = some W.af ∧
    process { W.af with distanceToQuery := d } q ⟨[], []⟩ =
      AFAnalyzer.process { W.af with distanceToQuery := d } q ⟨[], []⟩ ∧
    ∀ F' out, AFAnalyzer.process { W.af with distanceToQuery := d } q ⟨[], []⟩ =
        some (F', .unknown, out) →
      ∀ proof ls s, Transition.Run (LawfulStep F' out) (.init q proof) ls s →
        StepsInBounds F' out s := by
  have hnum : W.af.numArgs = W.n := buildAF_numArgs
  have hsized : Sized { W.af with distanceToQuery := d } :=
    (sized_wellFormed W).withDistance (hnum ▸ hd)
  have hcoherent : ({ W.af with distanceToQuery := d } : AF).Coherent :=
    W.coherent.withDistance (hnum ▸ hd)
  have hq : q ∈ ({ W.af with distanceToQuery := d } : AF).args := WellFormed.mem_args h1 hn
  refine ⟨?_, process_eq hsized hq.2 _, fun F' out hprocess proof ls s hrun => ?_⟩
  · have hbound := W.bound
    have hfits : InBounds W.n W.order := by
      refine ⟨by omega, fun p hp => ?_⟩
      have hrange := W.inRange p (List.mem_toFinset.mp ((W.iteration.mem_iff p).mp hp))
      exact ⟨hrange.2.1, hrange.2.2.2⟩
    obtain ⟨hinit, hargs⟩ := initialized_addAttacks W.n W.calls
    rw [finishInitilization_eq_ite hinit, hargs, if_pos hfits]
    rfl
  · have hres := processResult_of_eq hcoherent hq hprocess
    have hin := hres.searchInput hcoherent hq
    obtain ⟨d', hd', rfl⟩ := hres.framework hcoherent
    exact stepsInBounds_of_inv (hsized.withDistance hd') hin (SearchInv.run hin hrun)

/-- In `prunedFramework`, with distances left by earlier queries under which 5 and 7 count as
visited, the root of the search for 1 may create a task for `{2}`. -/
theorem solve_inBounds_pruned :
    finishInitilization ((AF.fresh.initializeArgs 7).addAttacks prunedFramework.calls)
        prunedFramework.order = some prunedFramework.af ∧
      ∃ F', process { prunedFramework.af with distanceToQuery := [0, 0, 0, 0, 0, 9, 0, 7] } 1
          ⟨[], []⟩ = some (F', .unknown, prunedOut) ∧
        ∃ ls s, Transition.Run (LawfulStep F' prunedOut) (.init 1 []) ls s ∧ s.tasks ≠ [] ∧
          StepsInBounds F' prunedOut s := by
  obtain ⟨hbuild, hprocess, hsearch⟩ := solve_inBounds prunedFramework
    (d := [0, 0, 0, 0, 0, 9, 0, 7]) (by decide) (q := 1) (by decide) (by decide)
  let F' : AF := { prunedFramework.af with distanceToQuery := [0, 0, 3, 1, 2, 9, 0, 7] }
  have hunchecked : AFAnalyzer.process
      { prunedFramework.af with distanceToQuery := [0, 0, 0, 0, 0, 9, 0, 7] } 1 ⟨[], []⟩ =
        some (F', .unknown, prunedOut) := by decide
  have hcoherent := prunedFramework.coherent.withDistance (d := [0, 0, 0, 0, 0, 9, 0, 7])
    (by decide)
  have hin : SearchInput F' prunedOut 1 :=
    (processResult_of_eq hcoherent (by decide) hunchecked).searchInput hcoherent (by decide)
  obtain ⟨hP, hatt⟩ := pruned_preferred_omitting
  obtain ⟨R, b, prio, -, -, -, hrun⟩ :=
    exists_spawn hin hP.admissible (Set.singleton_nonempty 2) (by simp) hatt []
  exact ⟨hbuild, F', hprocess.trans hunchecked, _, _, hrun, List.cons_ne_nil _ _,
    hsearch F' prunedOut hunchecked [] _ _ hrun⟩

end AFAnalyzer.Checked
