import AFAnalyzer.Logic.ConeDistance
import AFAnalyzer.Search.Branches
import AFAnalyzer.Search.Scenario
import AFAnalyzer.Solver.ActiveSets

/-!
# The priorities of the tasks

`Prioritizer::calculate_priority` subtracts a distance from the number of arguments, in
`uint32_t`, and takes the greatest difference over the extension.  It throws for an empty
list, and the subtraction wraps if a distance exceeds the number of arguments.

Neither happens.  A task is created with an extension that is not empty, omits the query and
lies in `out_reduct`, hence in the cone; and on a fresh framework the distances of the cone
are the lengths of shortest attack paths, positive away from the query and below the number
of arguments.  So the priority of a task is the number of arguments minus the length of the
shortest attack path from one of its members to the query (`solve_priorities`): the runtime
is told to prefer the extensions that are closest to the query.  Down the task tree priorities
never fall (`solve_priorities_grow`).
-/

namespace AFAnalyzer

/-- The lengths of the attack paths from a member of `L` to `q`. -/
def attackLengths (F : AF) (L : List ℕ) (q : ℕ) : Set ℕ :=
  {k | ∃ a ∈ L, Transition.Walk F.att k a q}

variable {F F' : AF} {A out : VectorBitSet} {q i a prio : ℕ} {L : List ℕ} {proof : List ℕ}
  {ls : List Action} {s s' : SearchState}

/-! ## The function -/

/-- Within the number of arguments the subtraction does not wrap. -/
theorem priorityOf_eq (hF : F.Coherent) (hle : F.distanceAt a ≤ F.numArgs) :
    priorityOf F a = F.numArgs - F.distanceAt a := by
  have hbound := hF.bound
  unfold priorityOf u32
  omega

/-- The loop of `calculate_priority` keeps the greatest of the values it has seen. -/
theorem foldl_newPrio (f : ℕ → ℕ) (l : List ℕ) (p : ℕ) :
    let prio := l.foldl
      (fun prio b => let newPrio := f b; if newPrio > prio then newPrio else prio) p
    p ≤ prio ∧ (∀ b ∈ l, f b ≤ prio) ∧ (prio = p ∨ ∃ b ∈ l, prio = f b) := by
  induction l generalizing p with
  | nil => exact ⟨le_rfl, fun b hb => absurd hb List.not_mem_nil, Or.inl rfl⟩
  | cons b l ih =>
    rw [List.foldl_cons]
    obtain ⟨hstart, hall, hsome⟩ := ih (if f b > p then f b else p)
    have hp : p ≤ if f b > p then f b else p := by split <;> omega
    have hb : f b ≤ if f b > p then f b else p := by split <;> omega
    refine ⟨hp.trans hstart, fun c hc => ?_, ?_⟩
    · rcases List.mem_cons.mp hc with rfl | hc
      · exact hb.trans hstart
      · exact hall c hc
    · rcases hsome with heq | ⟨c, hc, heq⟩
      · by_cases hlt : f b > p
        · exact Or.inr ⟨b, List.mem_cons_self, heq.trans (if_pos hlt)⟩
        · exact Or.inl (heq.trans (if_neg hlt))
      · exact Or.inr ⟨c, List.mem_cons_of_mem b hc, heq⟩

/-- **The priority of a list is the greatest priority of a member.** -/
theorem isGreatest_calculatePriority (h : calculatePriority F L = some prio) :
    IsGreatest (priorityOf F '' listArgs L) prio := by
  cases L with
  | nil => exact absurd h nofun
  | cons a rest =>
    obtain ⟨hstart, hall, hsome⟩ := foldl_newPrio (priorityOf F) rest (priorityOf F a)
    obtain rfl := Option.some.inj h
    constructor
    · rcases hsome with heq | ⟨b, hb, heq⟩
      · exact ⟨a, List.mem_cons_self, heq.symm⟩
      · exact ⟨b, List.mem_cons_of_mem a hb, heq.symm⟩
    · rintro _ ⟨b, hb, rfl⟩
      rcases List.mem_cons.mp hb with rfl | hb
      · exact hstart
      · exact hall b hb

/-! ## The distances of the active arguments -/

/-- What preprocessing leaves of a fresh framework, with the distances of the cone. -/
theorem WellFormed.exists_coneDistances (W : WellFormed) (h1 : 1 ≤ q) (hn : q ≤ W.n)
    (hproc : process W.af q ⟨[], []⟩ = some (F', .unknown, out)) :
    ∃ distances active, F' = { W.af with distanceToQuery := distances } ∧
      ConeDistances W.af q distances active ∧ ∀ a ∈ out.vector, a ∈ active.vector := by
  have hq : q ∈ W.af.args := WellFormed.mem_args h1 hn
  obtain ⟨active, computed, hground⟩ := exists_coneComputed hproc
  obtain ⟨cone, hcone, hinv, hprog, hlayers⟩ := calculateConeInfluence_layers W.coherent hq
  rw [computed.cone, Option.some.injEq, Prod.mk.injEq] at hcone
  obtain ⟨rfl, rfl⟩ := hcone
  refine ⟨cone.distances, cone.active, rfl, W.coneDistances hq hinv hprog hlayers,
    fun a ha => ?_⟩
  -- the worklist only ever removes arguments from the cone
  obtain ⟨taken, st, hrun, -, rfl⟩ := exists_run_of_groundedLoop _ hground
  exact (computed.groundedInv W.coherent hq hrun).2.mem_active ha

/-! ## The tasks -/

/-- What is known of a task when it is created. -/
theorem LawfulStep.spawned (h : LawfulStep F A s (.act i (.spawn L prio)) s')
    (hin : SearchInput F A q) (hinv : SearchInv F A q s) :
    calculatePriority F L = some prio ∧ ExtensionOk F A q L := by
  obtain ⟨hstep, -⟩ := h
  cases hstep with
  | @act i a b e answer running active answers advance =>
    have hadv := Activation.advanced_of_advance advance
    refine ⟨?_, ((hinv.activations i a active).spawned hin hadv).1⟩
    cases hadv with
    | spawn point sat found passes omits priority => exact priority

/-- The list that an activation has just found is not empty, and so the call for the extension
with it returns. -/
theorem SearchInv.exists_priority (hinv : SearchInv F A q s) (hin : SearchInput F A q)
    {a : Activation} (ha : s.activations[i]? = some a) (hpoint : a.point = .answered)
    (hsat : a.hasSolution = true) : ∃ prio, calculatePriority F
      (extendExtension a.extensionBuild (getSetFromSolver a.solver a.reduct)) = some prio := by
  obtain ⟨v, -, -, -, hfound⟩ := (hinv.activations i a ha).found hin hpoint hsat
  refine Option.ne_none_iff_exists'.mp fun hnone => ?_
  exact extendExtension_ne_nil hfound.nonempty (calculatePriority_eq_none.mp hnone)

/-- What `calculate_priority` has computed for the extension `L` of a task. -/
structure SpawnPriority (F F' : AF) (q : ℕ) (L : List ℕ) (prio : ℕ) : Prop where
  returns : calculatePriority F' L = some prio
  noWrap : ∀ a ∈ L, F'.distanceAt a ≤ F'.numArgs ∧
    priorityOf F' a = F'.numArgs - F'.distanceAt a
  closest : ∃ d, IsLeast (attackLengths F L q) d ∧ d ≤ F.numArgs ∧ prio = F.numArgs - d
  range : 1 ≤ prio ∧ prio ≤ F.numArgs - 1

/-- **The priority of an extension in the cone that omits the query.** -/
theorem spawnPriority_of_cone {distances : List ℕ} {active : VectorBitSet}
    (hcone : ConeDistances F q distances active)
    (hF' : ({ F with distanceToQuery := distances } : AF).Coherent)
    (hprio : calculatePriority { F with distanceToQuery := distances } L = some prio)
    (hL : ∀ a ∈ L, a ∈ active.vector) (hq : q ∉ L) :
    SpawnPriority F { F with distanceToQuery := distances } q L prio := by
  have hle : ∀ a ∈ L, distances.getD a 0 ≤ F.numArgs - 1 := fun a ha => hcone.le a (hL a ha)
  have hpos : ∀ a ∈ L, 0 < distances.getD a 0 := by
    intro a ha
    refine Nat.pos_of_ne_zero fun hzero => hq ?_
    rw [← (hcone.zero_iff a (hL a ha)).mp hzero]
    exact ha
  have hsub : ∀ a ∈ L, priorityOf { F with distanceToQuery := distances } a =
      F.numArgs - distances.getD a 0 := by
    intro a ha
    exact priorityOf_eq hF' ((hle a ha).trans (Nat.sub_le _ _))
  obtain ⟨⟨a, ha, heq⟩, hgreatest⟩ := isGreatest_calculatePriority hprio
  rw [hsub a ha] at heq
  have hnearest : ∀ b ∈ L, distances.getD a 0 ≤ distances.getD b 0 := by
    intro b hb
    have hmax := hgreatest ⟨b, hb, hsub b hb⟩
    have h1 := hle a ha
    have h2 := hle b hb
    omega
  have h1 := hle a ha
  have h2 := hpos a ha
  exact
    { returns := hprio
      noWrap := fun b hb => ⟨(hle b hb).trans (Nat.sub_le _ _), hsub b hb⟩
      closest := ⟨distances.getD a 0,
        Transition.isLeast_walk_of_nearest (S := listArgs L) (d := fun b => distances.getD b 0)
          (fun b hb => hcone.shortest b (hL b hb)) ha hnearest,
        h1.trans (Nat.sub_le _ _), heq.symm⟩
      range := by omega }

/-- **The priorities of the tasks.**  In every run of `solve` on a fresh framework in which each
task sees the argument and the flag of its creator, every call of `calculate_priority` returns.  For
a task that is created it has computed, without a wrapped subtraction, the number of arguments minus
the length of a shortest attack path from a member of the new extension to the query, which lies
between 1 and `num_args - 1`.  Of two tasks the one that is strictly closer to the query has the
strictly higher priority. -/
theorem solve_priorities (W : WellFormed) {q : ℕ} (h1 : 1 ≤ q) (hn : q ≤ W.n)
    {F' : AF} {out : VectorBitSet} (hproc : process W.af q ⟨[], []⟩ = some (F', .unknown, out))
    {proof : List ℕ} {ls : List Action} {s : SearchState}
    (hrun : Transition.Run (LawfulStep F' out) (.init q proof) ls s) :
    (s.fault = false ∧ ∀ (i : ℕ) (a : Activation), s.activations[i]? = some a →
      a.point = .answered → a.hasSolution = true → ∃ prio, calculatePriority F'
        (extendExtension a.extensionBuild (getSetFromSolver a.solver a.reduct)) = some prio) ∧
    (∀ i L prio, .act i (.spawn L prio) ∈ ls → SpawnPriority W.af F' q L prio) ∧
      ∀ i L prio d j L' prio' d', .act i (.spawn L prio) ∈ ls →
        .act j (.spawn L' prio') ∈ ls → IsLeast (attackLengths W.af L q) d →
          IsLeast (attackLengths W.af L' q) d' → d < d' → prio' < prio := by
  have hq : q ∈ W.af.args := WellFormed.mem_args h1 hn
  have hres := processResult_of_eq W.coherent hq hproc
  have hin := hres.searchInput W.coherent hq
  have hinv := SearchInv.run hin hrun
  obtain ⟨distances, active, rfl, hcone, hsub⟩ := W.exists_coneDistances h1 hn hproc
  have hall : ∀ i L prio, .act i (.spawn L prio) ∈ ls →
      SpawnPriority W.af { W.af with distanceToQuery := distances } q L prio := by
    intro i L prio hmem
    obtain ⟨before, t, t', hbefore, hstep⟩ := hrun.exists_step hmem
    obtain ⟨hprio, hL⟩ := hstep.spawned hin (SearchInv.run hin hbefore)
    exact spawnPriority_of_cone hcone hin.coherent hprio
      (fun a ha => hsub a (hL.admissible.subset ha)) hL.notMem
  refine ⟨⟨hinv.noFault, fun i a ha hpoint hsat => hinv.exists_priority hin ha hpoint hsat⟩, hall,
    fun i L prio d j L' prio' d' hi hj hd hd' hlt => ?_⟩
  obtain ⟨e, he, -, heq⟩ := (hall i L prio hi).closest
  obtain ⟨e', he', hle', heq'⟩ := (hall j L' prio' hj).closest
  rw [he.unique hd] at heq
  rw [he'.unique hd'] at heq' hle'
  omega

theorem solve_priorities_choice :
    ∃ ls s L prio, Transition.Run (LawfulStep choiceSearched choiceActive.toVectorBitSet)
        (.init 1 []) ls s ∧
      .act 0 (.spawn L prio) ∈ ls ∧ SpawnPriority choiceFramework.af choiceSearched 1 L prio := by
  obtain ⟨hP, hquery, hatt⟩ := choice_preferred_omitting
  obtain ⟨R, b, prio, -, -, -, hrun⟩ :=
    exists_spawn searchInput_choice hP.admissible ⟨2, List.mem_singleton_self 2⟩ hquery hatt []
  have hfacts := (solve_priorities choiceFramework (by decide) (by decide) process_choice hrun).2.1
  exact ⟨_, _, R.vector.filter (modelOf choiceSearched (Dung.members [2])), prio, hrun, by simp,
    hfacts 0 _ prio (by simp)⟩

/-! ## Down the tree -/

/-- The attack paths of a larger extension. -/
theorem attackLengths_mono {F : AF} {L' : List ℕ} (h : listArgs L ⊆ listArgs L') :
    attackLengths F L q ⊆ attackLengths F L' q :=
  fun _ ⟨a, ha, hwalk⟩ => ⟨a, h ha, hwalk⟩

/-- No member of the extension of a task is the query or attacks it. -/
theorem ExtensionOk.two_le {F : AF} (hL : ExtensionOk F A q L) {d : ℕ}
    (hd : d ∈ attackLengths F L q) : 2 ≤ d := by
  obtain ⟨a, ha, hwalk⟩ := hd
  cases hwalk with
  | refl => exact absurd ha hL.notMem
  | head first rest =>
    cases rest with
    | refl => exact absurd ⟨a, ha, first⟩ hL.notAttacked
    | head => omega

/-- The task that an activation creates is strictly above the activation. -/
theorem SearchInv.extension_ssubset (hin : SearchInput F A q)
    (hrun : Transition.Run (LawfulStep F A) (.init q proof) ls s) {a : Activation}
    (ha : s.activations[i]? = some a) (hmem : .act i (.spawn L prio) ∈ ls) :
    listArgs a.extensionBuild ⊂ listArgs L := by
  have hentry : (some i, listArgs L) ∈ s.entries := by
    refine (entries_perm_of_run hrun).mem_iff.mpr (List.mem_append_right _ ?_)
    exact List.mem_filterMap.mpr ⟨_, hmem, rfl⟩
  obtain ⟨k, hk⟩ := List.mem_iff_getElem?.mp hentry
  obtain ⟨c, hc, hlt⟩ := entry_parent (TreeInv.run hin hrun) hk
  rwa [Option.some.inj (ha.symm.trans hc)]

/-- **Priorities grow down the tree.**  In every run of `solve` on a fresh framework in which each
task sees the argument and the flag of its creator, no task gets a priority above `num_args - 2`,
since no extension that goes on attacks the query, and a task whose extension includes that of
another task has at least its priority.  In particular a task never has a lower priority than the
task that creates it. -/
theorem solve_priorities_grow (W : WellFormed) {q : ℕ} (h1 : 1 ≤ q) (hn : q ≤ W.n)
    {F' : AF} {out : VectorBitSet} (hproc : process W.af q ⟨[], []⟩ = some (F', .unknown, out))
    {proof : List ℕ} {ls : List Action} {s : SearchState}
    (hrun : Transition.Run (LawfulStep F' out) (.init q proof) ls s) :
    (∀ i L prio, .act i (.spawn L prio) ∈ ls → 1 ≤ prio ∧ prio ≤ W.n - 2) ∧
    (∀ i L prio j L' prio', .act i (.spawn L prio) ∈ ls → .act j (.spawn L' prio') ∈ ls →
      listArgs L ⊆ listArgs L' → prio ≤ prio') ∧
    ∀ i prio j a L' prio', s.activations[j]? = some a →
      .act i (.spawn a.extensionBuild prio) ∈ ls → .act j (.spawn L' prio') ∈ ls →
        prio ≤ prio' := by
  have hq : q ∈ W.af.args := WellFormed.mem_args h1 hn
  have hin := (processResult_of_eq W.coherent hq hproc).searchInput W.coherent hq
  obtain ⟨distances, active, rfl, hcone, hsub⟩ := W.exists_coneDistances h1 hn hproc
  have hnum : W.af.numArgs = W.n := buildAF_numArgs
  have hall : ∀ i L prio, .act i (.spawn L prio) ∈ ls →
      ∃ d, IsLeast (attackLengths W.af L q) d ∧ 2 ≤ d ∧ d < W.n ∧ prio = W.n - d := by
    intro i L prio hmem
    obtain ⟨before, t, t', hbefore, hstep⟩ := hrun.exists_step hmem
    obtain ⟨hprio, hL⟩ := hstep.spawned hin (SearchInv.run hin hbefore)
    have hfacts := spawnPriority_of_cone hcone hin.coherent hprio
      (fun a ha => hsub a (hL.admissible.subset ha)) hL.notMem
    obtain ⟨d, hd, hle, heq⟩ := hfacts.closest
    have hrange := hfacts.range
    have htwo := hL.two_le hd.1
    rw [hnum] at hle heq
    exact ⟨d, hd, htwo, by omega, heq⟩
  have hmono : ∀ i L prio j L' prio', .act i (.spawn L prio) ∈ ls →
      .act j (.spawn L' prio') ∈ ls → listArgs L ⊆ listArgs L' → prio ≤ prio' := by
    intro i L prio j L' prio' hi hj hle
    obtain ⟨d, hd, -, -, heq⟩ := hall i L prio hi
    obtain ⟨d', hd', -, -, heq'⟩ := hall j L' prio' hj
    have hcloser := hd'.2 (attackLengths_mono hle hd.1)
    omega
  refine ⟨fun i L prio hmem => ?_, hmono, fun i prio j a L' prio' ha hi hj => ?_⟩
  · obtain ⟨d, -, htwo, hlt, heq⟩ := hall i L prio hmem
    omega
  · exact hmono i _ prio j L' prio' hi hj (SearchInv.extension_ssubset hin hrun ha hj).subset

theorem solve_priorities_grow_choice :
    ∃ ls s L prio, Transition.Run (LawfulStep choiceSearched choiceActive.toVectorBitSet)
        (.init 1 []) ls s ∧ .act 0 (.spawn L prio) ∈ ls ∧ 1 ≤ prio ∧ prio ≤ 4 - 2 := by
  obtain ⟨hP, hquery, hatt⟩ := choice_preferred_omitting
  obtain ⟨R, b, prio, -, -, -, hrun⟩ :=
    exists_spawn searchInput_choice hP.admissible ⟨2, List.mem_singleton_self 2⟩ hquery hatt []
  have hfacts := (solve_priorities_grow choiceFramework (by decide) (by decide) process_choice
    hrun).1
  refine ⟨_, _, R.vector.filter (modelOf choiceSearched (Dung.members [2])), prio, hrun, by simp,
    ?_⟩
  exact hfacts 0 (R.vector.filter (modelOf choiceSearched (Dung.members [2]))) prio (by simp)

end AFAnalyzer
