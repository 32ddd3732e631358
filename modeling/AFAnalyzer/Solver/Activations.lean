import AFAnalyzer.Search.Scenario
import AFAnalyzer.Search.TaskTree
import AFAnalyzer.Solver.Solve

/-!
# What the search knows in the whole framework

The search runs on `out_reduct`, which preprocessing has cut out of the framework: first
the cone of the query, then the reduct by the grounded set `G` of the cone
(`WellFormed.args_eq_reduct`).  Here the invariant of an activation is carried back:
`G` together with the extension is admissible in the framework as given, and the early
return on a small reduct is taken only when every preferred extension of the cone above
it contains the query.

`solve_search_terminates` states the termination of the search with what it rests on: the
SAT calls of one activation, and the task tree.
-/

namespace AFAnalyzer

/-- The grounded extension of the framework, restricted to the cone of `q`. -/
def AF.groundedCone (F : AF) (q : ℕ) : Set ℕ := Dung.grounded F.att F.args ∩ F.cone q

variable {F' : AF} {q : ℕ} {out : VectorBitSet} {E : List ℕ} {proof : List ℕ} {ls : List Action}
  {s : SearchState}

/-- It is the grounded extension of the cone. -/
theorem WellFormed.groundedCone_eq (W : WellFormed) (hq : q ∈ W.af.args) :
    W.af.groundedCone q = Dung.grounded W.af.att (W.af.cone q) :=
  (W.attackClosed_cone hq).grounded_eq.symm

/-- **What preprocessing leaves of a fresh framework**: the cone without its grounded
extension and what that attacks. -/
theorem WellFormed.args_eq_reduct (W : WellFormed) (hq : q ∈ W.af.args)
    (h : ProcessResult W.af q F' .unknown out) :
    out.args = Dung.reduct W.af.att (W.af.cone q) (W.af.groundedCone q) := by
  rw [W.groundedCone_eq hq]
  cases h with
  | cone distances active notSelf attacked cone grounded =>
    have hactive : active.args = W.af.cone q := cone.args_eq.trans (W.coneSet_eq q)
    rw [← hactive]
    refine grounded.args_eq_of_closed fun a ha b hba => ?_
    have hmem : a ∈ W.af.cone q := by
      rw [← hactive]
      exact ha
    have hb : b ∈ active.args := by
      rw [hactive]
      exact Relation.ReflTransGen.head hba hmem
    exact hb

/-- The facts about one activation of the search, in terms of the framework as given and
with `G` the grounded extension on the cone of the query. -/
structure ActivationFacts (W : WellFormed) (q : ℕ) (F' : AF) (out : VectorBitSet)
    (a : Activation) : Prop where
  nodup : a.extensionBuild.Nodup
  admissible : Dung.Admissible W.af.att W.af.args
    (W.af.groundedCone q ∪ listArgs a.extensionBuild)
  notMem : q ∉ a.extensionBuild
  notAttacked : ¬ Dung.Attacks W.af.att (W.af.groundedCone q ∪ listArgs a.extensionBuild) q
  reduct : ∃ R, buildReduct F' out a.extensionBuild = some R ∧
    (a.point.Inside → a.reduct = R) ∧ q ∈ R.vector ∧
    (∀ b ∈ R.vector, b ∉ W.af.groundedCone q ∪ listArgs a.extensionBuild ∧
      ¬ Dung.Attacks W.af.att (W.af.groundedCone q ∪ listArgs a.extensionBuild) b) ∧
    (R.vector.length < 2 → R.vector = [q] ∧
      ∀ P, Dung.Preferred W.af.att (W.af.cone q) P →
        W.af.groundedCone q ∪ listArgs a.extensionBuild ⊆ P → q ∈ P)

/-- What is admissible in `out_reduct` is admissible in the framework, together with the
grounded extension of the cone. -/
theorem WellFormed.admissible_union (W : WellFormed) (hq : q ∈ W.af.args)
    (h : ProcessResult W.af q F' .unknown out) {S : Set ℕ}
    (hS : Dung.Admissible W.af.att out.args S) :
    Dung.Admissible W.af.att W.af.args (W.af.groundedCone q ∪ S) := by
  rw [W.args_eq_reduct hq h] at hS
  refine (W.attackClosed_cone hq).admissible (Dung.Admissible.union_of_reduct ?_ hS)
  rw [W.groundedCone_eq hq]
  exact Dung.grounded_admissible

/-- **The invariant of every activation reached during `solve`**, when each task sees the
argument and the flag of its creator. -/
theorem solve_activation (W : WellFormed) {q : ℕ} (h1 : 1 ≤ q) (hn : q ≤ W.n)
    {F' : AF} {out : VectorBitSet} (hproc : process W.af q ⟨[], []⟩ = some (F', .unknown, out))
    {proof : List ℕ} {ls : List Action} {s : SearchState}
    (hrun : Transition.Run (LawfulStep F' out) (.init q proof) ls s)
    {i : ℕ} {a : Activation} (ha : s.activations[i]? = some a) :
    ActivationFacts W q F' out a := by
  have hq : q ∈ W.af.args := WellFormed.mem_args h1 hn
  have hres := processResult_of_eq W.coherent hq hproc
  have hin := hres.searchInput W.coherent hq
  have hok := (SearchInv.run hin hrun).activations i a ha
  have hE := hok.extension
  have hargs := W.args_eq_reduct hq hres
  have hatt : F'.att = W.af.att := hres.att_eq W.coherent
  obtain ⟨R, hR⟩ := exists_isReduct hin.coherent hin.agrees a.extensionBuild
  have hEadm := hE.admissible
  rw [hatt] at hEadm
  have hRargs := hR.args
  rw [hatt] at hRargs
  -- the members of the reduct survive the grounded set and the extension
  have hsurvive : ∀ b ∈ R.vector, b ∉ W.af.groundedCone q ∪ listArgs a.extensionBuild ∧
      ¬ Dung.Attacks W.af.att (W.af.groundedCone q ∪ listArgs a.extensionBuild) b := by
    intro b hb
    have hmem : b ∈ R.args := hb
    rw [hRargs, hargs, Dung.reduct_reduct] at hmem
    exact hmem.2
  have hqR := hE.query_mem hin hR
  refine
    { nodup := hE.nodup
      admissible := W.admissible_union hq hres hEadm
      notMem := hE.notMem
      notAttacked := (hsurvive q hqR).2
      reduct := ⟨R, hR.build, fun hinside => ?_, hqR, hsurvive, fun hsize =>
        ⟨hR.vector_of_small hin hE hsize, fun P hP hle => ?_⟩⟩ }
  · exact Option.some.inj ((hok.encoded hinside).reduct.build.symm.trans hR.build)
  · -- cut the grounded set out of `P` and use the early return inside `out_reduct`
    have hGP : W.af.groundedCone q ⊆ P := Set.subset_union_left.trans hle
    have hG : Dung.Admissible W.af.att (W.af.cone q) (W.af.groundedCone q) := by
      rw [W.groundedCone_eq hq]
      exact Dung.grounded_admissible
    have hcut := Dung.preferred_diff_reduct hG hP hGP
    rw [← hargs, ← hatt] at hcut
    have hEP : listArgs a.extensionBuild ⊆ P \ W.af.groundedCone q := by
      intro b hb
      have hmem := hEadm.subset hb
      rw [hargs] at hmem
      exact ⟨hle (Or.inr hb), hmem.2.1⟩
    exact (hR.query_mem_of_small hin hE hsize hcut hEP).1

/-- The argument 6 of `prunedFramework` is grounded, and 1 depends on it. -/
theorem pruned_groundedCone : 6 ∈ prunedFramework.af.groundedCone 1 := by
  have hnone : (prunedFramework.af.attackersAt 6).vector = [] := by decide
  refine ⟨Dung.mem_grounded_of_defends (by decide) fun b _ hb => ?_, ?_⟩
  · have hmem := (prunedFramework.coherent.mem_attackers 6 b).mpr hb
    rw [hnone] at hmem
    exact absurd hmem List.not_mem_nil
  · have h31 : prunedFramework.af.att 3 1 := by decide
    have h43 : prunedFramework.af.att 4 3 := by decide
    have h54 : prunedFramework.af.att 5 4 := by decide
    have h65 : prunedFramework.af.att 6 5 := by decide
    exact (((Relation.ReflTransGen.single h31).head h43).head h54).head h65

/-- In `prunedFramework` the root may create a task for `{2}`, which starts, encodes the reduct
by `{2}` and hears from the solver that there is no set left. -/
theorem solve_activation_pruned :
    6 ∈ prunedFramework.af.groundedCone 1 ∧
      ∃ ls s a, Transition.Run (LawfulStep prunedSearched prunedOut) (.init 1 []) ls s ∧
        s.activations[1]? = some a ∧ a.point = .answered ∧ listArgs a.extensionBuild = {2} ∧
        ActivationFacts prunedFramework 1 prunedSearched prunedOut a := by
  refine ⟨pruned_groundedCone, ?_⟩
  have hin : SearchInput prunedSearched prunedOut 1 :=
    (processResult_of_eq prunedFramework.coherent (by decide) process_pruned).searchInput
      prunedFramework.coherent (by decide)
  have hP : Dung.Preferred prunedSearched.att prunedOut.args {2} := pruned_preferred_omitting.1
  -- the root creates the task
  obtain ⟨R₀, b, prio, -, hlist, hb, hrun⟩ :=
    exists_spawn hin hP.admissible (Set.singleton_nonempty 2) (by simp)
      pruned_preferred_omitting.2 []
  let b' : Activation := { b with isFirstCalculation := false, point := .pollLoop }
  let t : Task := ⟨0, R₀.vector.filter (modelOf prunedSearched {2}), prio⟩
  let s : SearchState := (SearchState.init 1 []).apply 0 b' (.spawn t.newExtensionBuild prio)
  have hE := (SearchInv.run hin hrun).tasks t (List.mem_singleton_self t)
  have hP' : Dung.Preferred prunedSearched.att prunedOut.args
      (listArgs t.newExtensionBuild) := by
    rwa [show listArgs t.newExtensionBuild = {2} from hlist]
  obtain ⟨R, hR⟩ := exists_isReduct hin.coherent hin.agrees t.newExtensionBuild
  have hsize : ¬ R.vector.length < 2 := fun hsize =>
    hE.notMem (hR.query_mem_of_small hin hE hsize hP' subset_rfl)
  -- the task runs up to its first answer
  obtain ⟨ls, a, ha, htask⟩ := exists_taskAnswer (s := s) (k := 0) (t := t) (a := b') hin hR hsize
    (answers_none hin hR hP') rfl rfl rfl rfl hb.argument hb.isRejected
  refine ⟨_, _, a, hrun.append htask, rfl, ha.point, ?_,
    solve_activation prunedFramework (by decide) (by decide) process_pruned (hrun.append htask)
      (i := 1) rfl⟩
  rw [ha.extension]
  exact hlist

/-! ## Termination -/

/-- What holds when a run `ls` of the search has led to `s`.  For every activation: its
SAT calls are bounded, a set it has just found is not empty and no model at the next call
accepts all of it, and clauses are only added.  For the tasks: each is strictly deeper
than its creator, every activation hangs in the tree, and the tree is less deep than
there are active arguments. -/
structure TerminationFacts (F : AF) (A : VectorBitSet) (ls : List Action) (s : SearchState) :
    Prop where
  calls : ∀ i, ls.count (.act i .callSolver) ≤ 2 ^ A.vector.length + 1
  excluded : ∀ (i : ℕ) (a : Activation), s.activations[i]? = some a → a.point = .answered →
    a.hasSolution = true → getSetFromSolver a.solver a.reduct ≠ [] ∧
      ∀ v, Sat.Satisfies v a.nextSolver.cadical.clauses →
        ∃ x ∈ getSetFromSolver a.solver a.reduct, v x = false
  kept : ∀ ℓ s', LawfulStep F A s ℓ s' → ∀ (i : ℕ) (a b : Activation),
    s.activations[i]? = some a → s'.activations[i]? = some b → a.point.Inside →
      b.point.Inside → a.solver.cadical.clauses <+: b.solver.cadical.clauses
  waiting : ∀ t ∈ s.tasks, ∃ c, s.activations[t.creator]? = some c ∧
    Deeper F A c.extensionBuild t.newExtensionBuild
  started : ∀ (i : ℕ) (a : Activation) (j : ℕ), s.activations[i]? = some a →
    a.creator = some j → ∃ c, s.activations[j]? = some c ∧
      Deeper F A c.extensionBuild a.extensionBuild
  depth : ∀ (i : ℕ) (a : Activation), s.activations[i]? = some a → ∃ d, Depth s i d
  depth_lt : ∀ i d, Depth s i d → d < A.vector.length

theorem terminationFacts {F : AF} {A : VectorBitSet} (hin : SearchInput F A q)
    (hrun : Transition.Run (LawfulStep F A) (.init q proof) ls s) :
    TerminationFacts F A ls s := by
  have hinv := SearchInv.run hin hrun
  have htree := TreeInv.run hin hrun
  refine
    { calls := count_callSolver_le hin hrun
      excluded := fun i a ha => (hinv.activations i a ha).excluded hin
      kept := fun ℓ s' hstep i a b ha hb hainside hbinside => ?_
      waiting := htree.tasks
      started := fun i a j ha hj => (htree.activations i a j ha hj).2
      depth := htree.exists_depth
      depth_lt := fun i d hd => htree.depth_lt hin hinv hd }
  rcases hstep.1.activation_cases hb with hold | ⟨c, e, answer, -, hc, hadv⟩ |
    ⟨k, t, x, p, -, -, rfl, -⟩
  · obtain rfl := Option.some.inj (ha.symm.trans hold)
    exact List.prefix_rfl
  · obtain rfl := Option.some.inj (ha.symm.trans hc)
    exact (hinv.activations i a ha).clauses_kept hin (Activation.advanced_of_advance hadv)
      hainside hbinside
  · exact absurd (List.getElem?_eq_some_iff.mp ha).1 (lt_irrefl _)

/-- **The search of `solve` terminates**, whatever models and schedules are chosen, in the runs
in which each task sees the argument and the flag of its creator: they are bounded and end at
the barrier, so finitely many tasks are ever created, and the facts that carry the two
measures hold all along. -/
theorem solve_search_terminates (W : WellFormed) {q : ℕ} (h1 : 1 ≤ q) (hn : q ≤ W.n)
    {F' : AF} {out : VectorBitSet} (hproc : process W.af q ⟨[], []⟩ = some (F', .unknown, out))
    (proof : List ℕ) :
    Transition.Settles (LawfulStep F' out) (.init q proof) SearchState.Finished ∧
      (∃ bound, ∀ ls s, Transition.Run (LawfulStep F' out) (.init q proof) ls s →
        s.activations.length + s.tasks.length ≤ bound) ∧
      ∀ ls s, Transition.Run (LawfulStep F' out) (.init q proof) ls s →
        TerminationFacts F' out ls s := by
  have hq : q ∈ W.af.args := WellFormed.mem_args h1 hn
  have hin := (processResult_of_eq W.coherent hq hproc).searchInput W.coherent hq
  refine ⟨(settles hin proof).mono fun _ _ _ hend => hend.1,
    ⟨1 + (SearchState.init q proof).budget F' out, fun ls s hrun => ?_⟩,
    fun ls s hrun => terminationFacts hin hrun⟩
  have hcreated := length_add_length_le_of_run hrun
  have hlen := length_le_budget hin hrun
  have hinit : (SearchState.init q proof).activations.length +
      (SearchState.init q proof).tasks.length = 1 := rfl
  omega

theorem solve_search_terminates_choice :
    Transition.Settles (LawfulStep
        { choiceFramework.af with distanceToQuery := [0, 0, 3, 1, 2] }
        ⟨[1, 3, 4, 2], [false, true, true, true, true]⟩) (.init 1 []) SearchState.Finished :=
  (solve_search_terminates choiceFramework (by decide) (by decide) (by decide) []).1

end AFAnalyzer
