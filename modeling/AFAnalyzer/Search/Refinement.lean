import AFAnalyzer.Dung.Branching
import AFAnalyzer.Search.SolverLog
import AFAnalyzer.Transition.Simulation

/-!
# The parallel search is a search by branching

`Dung.Branching` is what the search is for: nodes with candidates, looked at in any order.  Here
the parallel region is mapped onto it (`SearchState.branching`).  A waiting task and an
activation that has not left its loop are nodes; the candidates of an activation are the sets
that its clauses still admit.  An activation that has found a set makes one step of the abstract
search, one that returns on a small reduct makes two, and everything else an activation does,
among it entering, encoding and the SAT calls, leaves the nodes as they are
(`refines_branching`).

So what holds at every moment of the abstract search holds at every moment of every run.
-/

namespace AFAnalyzer

open Dung.Branching SatSolverCadical

variable {F : AF} {A R : VectorBitSet} {q : ℕ} {S : Set ℕ} {L : List ℕ} {proof : List ℕ}
  {ls : List Action} {ℓ : Action} {s s' : SearchState} {i : ℕ}

namespace Activation

variable {a b : Activation} {e : Effect} {flag : Bool} {answer : Option (ℕ → Bool)}

/-- What may be added to the extension. -/
def additions (F : AF) (A : VectorBitSet) (a : Activation) : Set (Set ℕ) :=
  Dung.additions F.att A.args (listArgs a.extensionBuild)

/-- What may be added to the extension and satisfies the clauses. -/
def admitted (F : AF) (A : VectorBitSet) (a : Activation) (cs : List (List ℤ)) : Set (Set ℕ) :=
  {S ∈ a.additions F A | Sat.Satisfies (modelOf F S) cs}

/-- The node that an activation stands for; there is none once it has left its loop. -/
def node? (F : AF) (A : VectorBitSet) (a : Activation) : Option (Node ℕ) :=
  match a.point with
  | .entry | .encode => some ⟨listArgs a.extensionBuild, a.additions F A⟩
  | .pollEncoded | .loopHead | .pollLoop =>
    some ⟨listArgs a.extensionBuild, a.admitted F A a.nextSolver.cadical.clauses⟩
  | .answered => some ⟨listArgs a.extensionBuild, a.admitted F A a.solver.cadical.clauses⟩
  | .handOver | .assigning | .leaving | .returned => none

theorem node?_of_start (h : a.point = .entry ∨ a.point = .encode) :
    a.node? F A = some ⟨listArgs a.extensionBuild, a.additions F A⟩ := by
  rw [node?]
  rcases h with h | h
  all_goals rw [h]

theorem node?_of_looping (h : a.point = .pollEncoded ∨ a.point = .loopHead ∨
    a.point = .pollLoop) : a.node? F A =
      some ⟨listArgs a.extensionBuild, a.admitted F A a.nextSolver.cadical.clauses⟩ := by
  rw [node?]
  rcases h with h | h | h
  all_goals rw [h]

theorem node?_of_answered (h : a.point = .answered) : a.node? F A =
    some ⟨listArgs a.extensionBuild, a.admitted F A a.solver.cadical.clauses⟩ := by
  rw [node?, h]

theorem node?_of_done (h : a.point.Done) : a.node? F A = none := by
  rw [node?]
  rcases h with h | h | h | h
  all_goals rw [h]

/-- An activation that polls is a node. -/
theorem Polls.exists_node (h : a.Polls) : ∃ N, a.node? F A = some N := by
  rcases h with h | h | h
  · exact ⟨_, node?_of_start (Or.inl h)⟩
  · exact ⟨_, node?_of_looping (Or.inl h)⟩
  · exact ⟨_, node?_of_looping (Or.inr (Or.inr h))⟩

/-- The encoding admits everything that may be added. -/
theorem admitted_encoding (hin : SearchInput F A q) (hR : IsReduct F A a.extensionBuild R) :
    a.admitted F A (encodingClauses F R) = a.additions F A := by
  apply Set.Subset.antisymm
  · exact fun _ hS => hS.1
  · intro S hS
    have hadm := hS.1
    rw [← hR.args] at hadm
    exact ⟨hS, satisfies_of_admissible hin.coherent hR.agrees (hR.range hin.range) hadm hS.2⟩

/-- Encoding changes nothing. -/
theorem node?_encode (hin : SearchInput F A q) (hpoint : a.point = .encode)
    (hbuild : buildReduct F A a.extensionBuild = some R) :
    { a with
      reduct := R
      isSolved := false
      isFirstCalculation := true
      solver := addClausesNonemptyAdmissibleSet (.new R.vector.length) F R
      point := .pollEncoded }.node? F A = a.node? F A := by
  have hR := isReduct_of_build hin.coherent hin.agrees hbuild
  rw [node?_of_looping (Or.inl rfl), node?_of_start (Or.inr hpoint)]
  have hadmitted := admitted_encoding (a := a) hin hR
  rw [← (clauses_encode hin hR R.vector.length).2] at hadmitted
  exact congrArg (fun candidates => some (Node.mk (listArgs a.extensionBuild) candidates))
    hadmitted

/-- **The found set is a candidate.** -/
theorem Ok.found_mem_admitted (hok : a.Ok F A q) (hin : SearchInput F A q) (hlog : a.Logged F)
    (hpoint : a.point = .answered) (hsat : a.hasSolution = true) :
    listArgs (getSetFromSolver a.solver a.reduct) ∈
      a.admitted F A a.solver.cadical.clauses := by
  have hinside : a.point.Inside := Or.inr (Or.inr (Or.inl hpoint))
  obtain ⟨v, -, hv, hdecode, hfound⟩ := hok.found hin hpoint hsat
  obtain ⟨found, hlog⟩ := hlog hinside
  have hR := hfound.reduct
  have hrange := hR.range hin.range
  obtain ⟨x, hx⟩ := List.exists_mem_of_ne_nil _ hfound.nonempty
  have hadm := hfound.admissible
  rw [hR.args] at hadm
  refine ⟨⟨hadm, x, hx⟩, ?_⟩
  rw [hlog.clauses, Sat.satisfies_append] at hv ⊢
  refine ⟨satisfies_of_admissible hin.coherent hR.agrees hrange hfound.admissible ⟨x, hx⟩, ?_⟩
  -- it does not include an earlier set, which the model in hand shows
  have hsplit : ∀ w : ℕ → Bool, Sat.Satisfies w (found.map complementClause) ↔
      ∀ T ∈ found, ∃ y ∈ T, w y = false := by
    intro w
    rw [← List.flatMap_pure_eq_map, Sat.satisfies_flatMap]
    exact forall₂_congr fun T _ => satisfies_complementClause
  rw [hsplit] at hv ⊢
  intro T hT
  obtain ⟨y, hy, hvy⟩ := hv.2 T hT
  have hyR : y ∈ a.reduct.vector := (hlog.admissible T hT).2.subset hy
  refine ⟨y, hy, ?_⟩
  rw [← Bool.not_eq_true, modelOf_accepted (hrange y hyR), hdecode]
  rintro hmem
  rw [(List.mem_filter.mp hmem).2] at hvy
  exact Bool.noConfusion hvy

/-- **The complement clause excludes what includes the found set, and nothing else.** -/
theorem Ok.admitted_nextSolver (hok : a.Ok F A q) (hin : SearchInput F A q)
    (hpoint : a.point = .answered) (hsat : a.hasSolution = true) :
    a.admitted F A a.nextSolver.cadical.clauses =
      {T ∈ a.admitted F A a.solver.cadical.clauses |
        ¬ listArgs (getSetFromSolver a.solver a.reduct) ⊆ T} := by
  have henc := hok.encoded (Or.inr (Or.inr (Or.inl hpoint)))
  obtain ⟨-, -, -, -, hfound⟩ := hok.found hin hpoint hsat
  have hclauses : a.nextSolver.cadical.clauses = a.solver.cadical.clauses ++
      [complementClause (getSetFromSolver a.solver a.reduct)] := by
    rw [(henc.nextSolver_eq hin).2, if_pos (hok.answered hpoint)]
  have hexcludes : ∀ T : Set ℕ,
      Sat.Satisfies (modelOf F T) [complementClause (getSetFromSolver a.solver a.reduct)] ↔
        ¬ listArgs (getSetFromSolver a.solver a.reduct) ⊆ T := by
    intro T
    rw [satisfies_complementClause, Set.not_subset]
    refine exists_congr fun x => and_congr_right fun hx => ?_
    rw [← Bool.not_eq_true, modelOf_accepted
      (henc.reduct.range hin.range x (hfound.mem_reduct hx))]
  ext T
  constructor
  · rintro ⟨hT, hsatisfies⟩
    rw [hclauses, Sat.satisfies_append, hexcludes] at hsatisfies
    exact ⟨⟨hT, hsatisfies.1⟩, hsatisfies.2⟩
  · rintro ⟨⟨hT, hsatisfies⟩, hnot⟩
    refine ⟨hT, ?_⟩
    rw [hclauses, Sat.satisfies_append, hexcludes]
    exact ⟨hsatisfies, hnot⟩

/-- Without a model nothing is left. -/
theorem Ok.admitted_eq_empty (hok : a.Ok F A q) (hpoint : a.point = .answered)
    (hunsat : a.hasSolution = false) : a.admitted F A a.solver.cadical.clauses = ∅ := by
  rw [Set.eq_empty_iff_forall_notMem]
  exact fun S hS => hok.unsat hpoint hunsat _ hS.2

/-- Only the query can be added when the reduct is small. -/
theorem additions_of_small (hok : a.Ok F A q) (hin : SearchInput F A q)
    (hR : IsReduct F A a.extensionBuild R) (hsize : R.vector.length < 2) :
    a.additions F A = {{q}} := by
  have hargs : Dung.reduct F.att A.args (listArgs a.extensionBuild) = {q} := by
    rw [← hR.args]
    ext x
    rw [VectorBitSet.mem_args, hR.vector_of_small hin hok.extension hsize, List.mem_singleton]
    exact Iff.rfl
  have hself : Dung.Admissible F.att {q} {q} := by
    refine ⟨subset_rfl, ?_, ?_⟩
    · rintro x rfl y rfl
      exact hin.notSelf
    · rintro x rfl y rfl h
      exact absurd h hin.notSelf
  ext T
  rw [additions, Dung.additions, hargs, Set.mem_singleton_iff]
  constructor
  · rintro ⟨hT, hne⟩
    exact hne.subset_singleton_iff.mp hT.subset
  · rintro rfl
    exact ⟨hself, Set.singleton_nonempty q⟩

/-- An activation that has found a set could add one. -/
def Tried (F : AF) (A : VectorBitSet) (a : Activation) : Prop :=
  a.point.Inside → a.isFirstCalculation = false → (a.additions F A).Nonempty

theorem tried_of_point {p : Point} (hp : a.point = p) (h : ¬ p.Inside) : a.Tried F A :=
  fun hinside => absurd (hp ▸ hinside) h

/-- A step inside the loop after which nothing has been tried for the first time. -/
theorem Tried.of_same (h : a.Tried F A) (ha : a.point.Inside)
    (hfirst : b.isFirstCalculation = a.isFirstCalculation)
    (hE : b.extensionBuild = a.extensionBuild) : b.Tried F A := by
  intro _ hb
  rw [additions, hE]
  exact h ha (hfirst.symm.trans hb)

theorem Ok.additions_nonempty (hok : a.Ok F A q) (hin : SearchInput F A q)
    (hpoint : a.point = .answered) (hsat : a.hasSolution = true) :
    (a.additions F A).Nonempty := by
  obtain ⟨-, -, -, -, hfound⟩ := hok.found hin hpoint hsat
  obtain ⟨x, hx⟩ := List.exists_mem_of_ne_nil _ hfound.nonempty
  have hadm := hfound.admissible
  rw [hfound.reduct.args] at hadm
  exact ⟨_, hadm, x, hx⟩

theorem Tried.advance (h : a.Tried F A) (hok : a.Ok F A q) (hin : SearchInput F A q)
    (hadv : Advanced F A flag answer a b e) : b.Tried F A := by
  cases hadv with
  | cutOff _ _ _ _ point => exact tried_of_point point (by decide)
  | entered => exact tried_of_point rfl (by decide : ¬ Point.encode.Inside)
  | small => exact tried_of_point rfl (by decide : ¬ Point.leaving.Inside)
  | encoded => exact fun _ hfirst => absurd hfirst Bool.noConfusion
  | armed point => exact h.of_same (Or.inl point) rfl rfl
  | call point => exact h.of_same (Or.inr (Or.inl point)) rfl rfl
  | exhausted => exact tried_of_point rfl (by decide : ¬ Point.leaving.Inside)
  | onlyEmpty => exact tried_of_point rfl (by decide : ¬ Point.leaving.Inside)
  | reject => exact tried_of_point rfl (by decide : ¬ Point.handOver.Inside)
  | abort point sat => exact fun _ _ => hok.additions_nonempty hin point sat
  | spawn point sat => exact fun _ _ => hok.additions_nonempty hin point sat
  | again point => exact h.of_same (Or.inr (Or.inr (Or.inr point))) rfl rfl
  | handOver => exact tried_of_point rfl (by decide : ¬ Point.assigning.Inside)
  | assigned => exact tried_of_point rfl (by decide : ¬ Point.leaving.Inside)
  | ret => exact tried_of_point rfl (by decide : ¬ Point.returned.Inside)
  | fault why => exact absurd why (hok.not_faulty hin)

end Activation

/-- The two accounts of an activation on which the refinement rests. -/
theorem activationInvariant_tried (hin : SearchInput F A q) :
    ActivationInvariant F A q fun a => (a.InLoop F ∧ a.Logged F) ∧ a.Tried F A where
  enter := fun creator x p L => ⟨(activationInvariant_logged hin).enter creator x p L,
    Activation.tried_of_point rfl (by decide : ¬ Point.entry.Inside)⟩
  advance := fun a b e flag answer hok hQ hans hadv =>
    ⟨(activationInvariant_logged hin).advance a b e flag answer hok hQ.1 hans hadv,
      hQ.2.advance hok hin hadv⟩

/-! ## The nodes of a state -/

/-- The node of a waiting task. -/
def Task.node (F : AF) (A : VectorBitSet) (t : Task) : Node ℕ :=
  Node.fresh F.att A.args (listArgs t.newExtensionBuild)

namespace SearchState

/-- The nodes of the activations and of the tasks. -/
def nodes (F : AF) (A : VectorBitSet) (s : SearchState) : Multiset (Node ℕ) :=
  ↑(s.activations.filterMap (Activation.node? F A) ++ s.tasks.map (Task.node F A))

/-- The same without the activation at index `i`. -/
def otherNodes (F : AF) (A : VectorBitSet) (s : SearchState) (i : ℕ) : Multiset (Node ℕ) :=
  ↑((s.activations.eraseIdx i).filterMap (Activation.node? F A) ++ s.tasks.map (Task.node F A))

/-- **The abstract state.** -/
def branching (F : AF) (A : VectorBitSet) (s : SearchState) : State ℕ :=
  ⟨s.flag, s.nodes F A⟩

variable {a b : Activation} {e : Effect} {N : Node ℕ}

theorem nodes_perm (ha : s.activations[i]? = some a) :
    (s.activations.filterMap (Activation.node? F A)).Perm
      ((a :: s.activations.eraseIdx i).filterMap (Activation.node? F A)) := by
  obtain ⟨hi, rfl⟩ := List.getElem?_eq_some_iff.mp ha
  exact ((List.getElem_cons_eraseIdx_perm hi).symm).filterMap _

theorem nodes_of_some (ha : s.activations[i]? = some a) (hN : a.node? F A = some N) :
    s.nodes F A = N ::ₘ s.otherNodes F A i := by
  have hperm := nodes_perm (F := F) (A := A) ha
  rw [List.filterMap_cons_some hN] at hperm
  exact Multiset.coe_eq_coe.mpr (hperm.append_right _)

theorem nodes_of_none (ha : s.activations[i]? = some a) (hN : a.node? F A = none) :
    s.nodes F A = s.otherNodes F A i := by
  have hperm := nodes_perm (F := F) (A := A) ha
  rw [List.filterMap_cons_none hN] at hperm
  exact Multiset.coe_eq_coe.mpr (hperm.append_right _)

theorem otherNodes_apply (he : ∀ L prio, e ≠ .spawn L prio) :
    (s.apply i b e).otherNodes F A i = s.otherNodes F A i := by
  have htasks : (s.apply i b e).tasks = s.tasks := by
    cases e with
    | spawn L prio => exact absurd rfl (he L prio)
    | _ => rfl
  rw [otherNodes, otherNodes, activations_apply, htasks, List.eraseIdx_set_eq]

theorem otherNodes_apply_spawn {prio : ℕ} :
    (s.apply i b (.spawn L prio)).otherNodes F A i =
      Node.fresh F.att A.args (listArgs L) ::ₘ s.otherNodes F A i := by
  rw [otherNodes, otherNodes, activations_apply, List.eraseIdx_set_eq, Multiset.cons_coe]
  refine Multiset.coe_eq_coe.mpr ?_
  show (_ ++ (s.tasks ++ [(⟨i, L, prio⟩ : Task)]).map (Task.node F A)).Perm _
  rw [List.map_append, ← List.append_assoc]
  exact List.perm_append_singleton (Task.node F A ⟨i, L, prio⟩) _

/-- A task that starts becomes an activation with the same node. -/
theorem nodes_startTask {k : ℕ} {t : Task} {x p : ℕ} (ht : s.tasks[k]? = some t) :
    (s.startTask k t x p).nodes F A = s.nodes F A := by
  obtain ⟨hk, rfl⟩ := List.getElem?_eq_some_iff.mp ht
  have hperm := ((List.getElem_cons_eraseIdx_perm hk).map (Task.node F A)).symm
  refine Multiset.coe_eq_coe.mpr ?_
  rw [activations_startTask, tasks_startTask, List.filterMap_append, List.append_assoc]
  exact (hperm.append_left _).symm

/-- The state before the step of a node. -/
theorem branching_of_some (ha : s.activations[i]? = some a) (hN : a.node? F A = some N) :
    s.branching F A = ⟨s.flag, N ::ₘ s.otherNodes F A i⟩ := by
  rw [branching, nodes_of_some ha hN]

/-- The state after a step that leaves a node. -/
theorem branching_apply_of_some (ha : s.activations[i]? = some a) (hN : b.node? F A = some N) :
    (s.apply i b e).branching F A =
      ⟨(s.apply i b e).flag, N ::ₘ (s.apply i b e).otherNodes F A i⟩ :=
  branching_of_some (List.getElem?_set_self (List.getElem?_eq_some_iff.mp ha).1) hN

/-- The state after a step that leaves none. -/
theorem branching_apply_of_none (ha : s.activations[i]? = some a) (hN : b.node? F A = none)
    (he : ∀ L prio, e ≠ .spawn L prio) :
    (s.apply i b e).branching F A = ⟨(s.apply i b e).flag, s.otherNodes F A i⟩ := by
  have hb : (s.apply i b e).activations[i]? = some b :=
    List.getElem?_set_self (List.getElem?_eq_some_iff.mp ha).1
  rw [branching, nodes_of_none hb hN, otherNodes_apply he]

/-- A step that keeps the node and the flag is no step of the abstract search. -/
theorem branching_apply_of_same (ha : s.activations[i]? = some a)
    (hN : b.node? F A = a.node? F A) (he : ∀ L prio, e ≠ .spawn L prio) (hset : e ≠ .setFlag) :
    (s.apply i b e).branching F A = s.branching F A := by
  have hflag : (s.apply i b e).flag = s.flag := flag_apply_of_ne hset
  cases hnode : a.node? F A with
  | none =>
    rw [branching_apply_of_none ha (hN.trans hnode) he, hflag, branching, nodes_of_none ha hnode]
  | some N =>
    rw [branching_apply_of_some ha (hN.trans hnode), otherNodes_apply he, hflag,
      branching_of_some ha hnode]

end SearchState

/-! ## The refinement -/

open SearchState in
/-- **Every step of an activation is a run of the abstract search.** -/
theorem exists_branching_run {a b : Activation} {e : Effect} {answer : Option (ℕ → Bool)}
    (hin : SearchInput F A q) (hok : a.Ok F A q) (hlog : a.Logged F) (htried : a.Tried F A)
    (active : s.activations[i]? = some a)
    (hadv : Activation.Advanced F A (s.heap a.isRejected) answer a b e) :
    ∃ ms, Transition.Run (Dung.Branching.Step F.att A.args q) (s.branching F A) ms
      ((s.apply i b e).branching F A) := by
  have hstutter : b.node? F A = a.node? F A → (∀ L prio, e ≠ .spawn L prio) → e ≠ .setFlag →
      ∃ ms, Transition.Run (Dung.Branching.Step F.att A.args q) (s.branching F A) ms
        ((s.apply i b e).branching F A) := by
    intro hN he hset
    rw [branching_apply_of_same active hN he hset]
    exact ⟨[], .nil _⟩
  cases hadv with
  | cutOff polls set _ _ point =>
    have hflag : s.flag = true := by
      rw [hok.isRejected] at set
      exact set
    obtain ⟨N, hN⟩ := polls.exists_node (F := F) (A := A)
    refine ⟨[.drop], .single ?_⟩
    rw [branching_of_some active hN, branching_apply_of_none (e := .silent) active
        (Activation.node?_of_done (Or.inr (Or.inr (Or.inl point)))) nofun,
      flag_apply_of_ne (e := .silent) nofun, hflag]
    exact .drop
  | entered point =>
    refine hstutter ?_ nofun nofun
    rw [Activation.node?_of_start (Or.inr rfl), Activation.node?_of_start (Or.inl point)]
    rfl
  | @small R point build size =>
    have hR := isReduct_of_build hin.coherent hin.agrees build
    have hadd := Activation.additions_of_small hok hin hR size
    have hq : {q} ∈ a.additions F A := by
      rw [hadd]
      exact Set.mem_singleton _
    refine ⟨[.prune, .close], ?_⟩
    rw [branching_of_some active (Activation.node?_of_start (Or.inr point)),
      branching_apply_of_none (e := .silent) active
        (Activation.node?_of_done (Or.inr (Or.inr (Or.inl rfl)))) nofun,
      flag_apply_of_ne (e := .silent) nofun]
    refine .cons (.prune hq (Set.mem_singleton q)) (.single (.close ?_ ⟨_, hq⟩))
    rw [Set.eq_empty_iff_forall_notMem]
    rintro T ⟨hT, hnot⟩
    rw [hadd, Set.mem_singleton_iff] at hT
    exact hnot hT.ge
  | @encoded R point build size =>
    exact hstutter (Activation.node?_encode hin point build) nofun nofun
  | armed point =>
    refine hstutter ?_ nofun nofun
    rw [Activation.node?_of_looping (Or.inr (Or.inl rfl)),
      Activation.node?_of_looping (Or.inl point)]
    rfl
  | call point =>
    refine hstutter ?_ nofun nofun
    rw [Activation.node?_of_answered rfl, Activation.node?_of_looping (Or.inr (Or.inl point))]
    rfl
  | exhausted point unsat first =>
    refine ⟨[.close], .single ?_⟩
    rw [branching_of_some active (Activation.node?_of_answered point),
      branching_apply_of_none (e := .silent) active
        (Activation.node?_of_done (Or.inr (Or.inr (Or.inl rfl)))) nofun,
      flag_apply_of_ne (e := .silent) nofun]
    exact .close (hok.admitted_eq_empty point unsat)
      (htried (Or.inr (Or.inr (Or.inl point))) first)
  | onlyEmpty point first empty =>
    have hpref := hok.preferred_of_onlyEmpty hin point first empty
    refine ⟨[.maximal], .single ?_⟩
    rw [branching_of_some active (Activation.node?_of_answered point),
      branching_apply_of_none (e := .setFlag) active
        (Activation.node?_of_done (Or.inr (Or.inr (Or.inl rfl)))) nofun, flag_apply_setFlag]
    · exact .maximal hpref.additions_eq_empty
    · exact hok.isRejected
  | reject point sat found rejects =>
    rw [hok.argument, checkRejection_iff hin.coherent] at rejects
    refine ⟨[.refute], .single ?_⟩
    rw [branching_of_some active (Activation.node?_of_answered point),
      branching_apply_of_none (e := .setFlag) active
        (Activation.node?_of_done (Or.inl rfl)) nofun, flag_apply_setFlag]
    · exact .refute (hok.found_mem_admitted hin hlog point sat) rejects
    · exact hok.isRejected
  | abort point sat found passes contains =>
    rw [hok.argument] at contains
    have htmp := hok.tmp (Or.inr point)
    have hback : (if a.isRejectedTmp = true then Point.leaving else .loopHead) = .loopHead := by
      rw [htmp]
      rfl
    refine ⟨[.prune], .single ?_⟩
    rw [branching_of_some active (Activation.node?_of_answered point),
      branching_apply_of_some active (Activation.node?_of_looping (Or.inr (Or.inl hback))),
      otherNodes_apply (e := .abort) nofun, flag_apply_of_ne (e := .abort) nofun]
    have hnode := hok.admitted_nextSolver hin point sat
    have hprune : Dung.Branching.Step F.att A.args q
        ⟨s.flag, ⟨listArgs a.extensionBuild, a.admitted F A a.solver.cadical.clauses⟩ ::ₘ
          s.otherNodes F A i⟩ .prune _ :=
      .prune (hok.found_mem_admitted hin hlog point sat)
        (checkTerminateExtensionBuild_iff.mp contains)
    rw [Node.exclude, ← hnode] at hprune
    exact hprune
  | @spawn prio R point sat found passes omits priority build =>
    obtain rfl := hok.reduct_eq point build
    rw [hok.argument] at passes omits
    have hq : q ∉ listArgs (getSetFromSolver a.solver a.reduct) := fun hmem => by
      rw [checkTerminateExtensionBuild_iff.mpr hmem] at omits
      exact Bool.noConfusion omits
    have hspares : ¬ Dung.Attacks F.att (listArgs (getSetFromSolver a.solver a.reduct)) q :=
      fun hatt => by
        rw [(checkRejection_iff hin.coherent).mpr hatt] at passes
        exact Bool.noConfusion passes
    refine ⟨[.branch], .single ?_⟩
    rw [branching_of_some active (Activation.node?_of_answered point),
      branching_apply_of_some active (Activation.node?_of_looping (Or.inr (Or.inr rfl))),
      otherNodes_apply_spawn, flag_apply_of_ne (e := .spawn _ _) nofun, listArgs_extendExtension,
      Multiset.cons_swap]
    have hnode := hok.admitted_nextSolver hin point sat
    have hbranch : Dung.Branching.Step F.att A.args q
        ⟨s.flag, ⟨listArgs a.extensionBuild, a.admitted F A a.solver.cadical.clauses⟩ ::ₘ
          s.otherNodes F A i⟩ .branch _ :=
      .branch (hok.found_mem_admitted hin hlog point sat) hq hspares
    rw [Node.exclude, ← hnode] at hbranch
    exact hbranch
  | again point =>
    obtain ⟨-, -, hsat⟩ := hok.pollLoop point
    refine hstutter ?_ nofun nofun
    rw [Activation.node?_of_looping (Or.inr (Or.inl (by rw [hsat]; rfl))),
      Activation.node?_of_looping (Or.inr (Or.inr point))]
    rfl
  | handOver point =>
    refine hstutter ?_ nofun nofun
    rw [Activation.node?_of_done (Or.inr (Or.inl rfl)),
      Activation.node?_of_done (Or.inl point)]
  | assigned point =>
    refine hstutter ?_ nofun nofun
    rw [Activation.node?_of_done (Or.inr (Or.inr (Or.inl rfl))),
      Activation.node?_of_done (Or.inr (Or.inl point))]
  | ret point =>
    refine hstutter ?_ nofun nofun
    rw [Activation.node?_of_done (Or.inr (Or.inr (Or.inr rfl))),
      Activation.node?_of_done (Or.inr (Or.inr (Or.inl point)))]
  | fault why => exact absurd why (hok.not_faulty hin)

/-- The start of the region is the start of the abstract search. -/
theorem branching_init : (SearchState.init q proof).branching F A = .init F.att A.args := by
  have hnode : (Activation.enter none q flagCell []).node? F A =
      some (Node.fresh F.att A.args ∅) := by
    rw [Activation.node?_of_start (Or.inl rfl), Activation.additions]
    simp only [Activation.enter, listArgs_nil]
    rfl
  have hnodes : [Activation.enter none q flagCell []].filterMap (Activation.node? F A) =
      [Node.fresh F.att A.args ∅] := List.filterMap_cons_some hnode
  show State.mk false (([Activation.enter none q flagCell []].filterMap
    (Activation.node? F A) ++ [] : List (Node ℕ)) : Multiset (Node ℕ)) = _
  rw [hnodes]
  rfl

/-- At the barrier no node is left. -/
theorem SearchState.Finished.nodes_eq (h : s.Finished) : (s.branching F A).nodes = 0 := by
  have hnone : s.activations.filterMap (Activation.node? F A) = [] := by
    rw [List.filterMap_eq_nil_iff]
    exact fun a ha => Activation.node?_of_done (Or.inr (Or.inr (Or.inr (h.returned a ha))))
  show (↑(s.activations.filterMap (Activation.node? F A) ++ s.tasks.map (Task.node F A)) :
    Multiset (Node ℕ)) = 0
  rw [hnone, h.tasks]
  rfl

/-- **The region refines the abstract search.** -/
theorem refines_branching (hin : SearchInput F A q) :
    Transition.Refines (LawfulStep F A) (Dung.Branching.Step F.att A.args q)
      (fun s x => s.branching F A = x)
      fun s => SearchInv F A q s ∧ ∀ (i : ℕ) (a : Activation), s.activations[i]? = some a →
        (a.InLoop F ∧ a.Logged F) ∧ a.Tried F A where
  preserves := fun s ℓ s' hs hstep =>
    ⟨hs.1.step hin hstep, (activationInvariant_tried hin).step hs.1 hs.2 hstep⟩
  matched := by
    rintro s ℓ s' _ ⟨hinv, hall⟩ rfl ⟨hstep, -⟩
    cases hstep with
    | @act i a b e answer running active answers advance =>
      obtain ⟨⟨-, hlog⟩, htried⟩ := hall i a active
      obtain ⟨ms, hrun⟩ := exists_branching_run hin (hinv.activations i a active) hlog htried
        active (Activation.advanced_of_advance advance)
      exact ⟨ms, _, hrun, rfl⟩
    | @start k x p t creator running waiting created captured =>
      refine ⟨[], _, .nil _, ?_⟩
      rw [SearchState.branching, SearchState.branching, SearchState.nodes_startTask waiting]
      rfl

/-- **The parallel search refines the search by branching.**  When each task sees the argument and
the flag of its creator, then, whatever models and schedules are chosen, every state that the region
reaches is one that the abstract search reaches, with the same flag; so at every moment a set flag
is right, and as long as the flag is not set every preferred set of the active arguments that omits
the query lies ahead of a waiting task or of a running activation.  When the region has finished no
node is left, and the flag is the answer. -/
theorem search_refines_branching (W : WellFormed) (A : ActiveArgs W.n) {q : ℕ}
    (hq : q ∈ A.vector) (hself : ¬ W.af.att q q) {proof : List ℕ} {ls : List Action}
    {s : SearchState}
    (h : Transition.Run (LawfulStep W.af A.toVectorBitSet) (.init q proof) ls s) :
    (∃ ms, Transition.Run (Dung.Branching.Step W.af.att A.args q) (.init W.af.att A.args) ms
        (s.branching W.af A.toVectorBitSet)) ∧
      Dung.Branching.Inv W.af.att A.args q (s.branching W.af A.toVectorBitSet) ∧
        (s.Finished → (s.branching W.af A.toVectorBitSet).nodes = 0 ∧
          (s.flag = true ↔ ∃ P, Dung.Preferred W.af.att A.args P ∧ q ∉ P)) := by
  have hin := W.searchInput A hq hself
  obtain ⟨ms, _, hrun, rfl⟩ := (refines_branching hin).run h
    ⟨searchInv_init, (activationInvariant_tried hin).init⟩ branching_init
  have hinv := Dung.Branching.Inv.run hrun
  exact ⟨⟨ms, hrun⟩, hinv, fun hfin => ⟨hfin.nodes_eq, hinv.rejected_iff hfin.nodes_eq⟩⟩

theorem search_refines_branching_choice :
    ∃ ls s, Transition.Run (LawfulStep choiceFramework.af choiceActive.toVectorBitSet)
        (.init 1 []) ls s ∧ s.Finished ∧
      ∃ ms, Transition.Run (Dung.Branching.Step choiceFramework.af.att choiceActive.args 1)
        (.init choiceFramework.af.att choiceActive.args) ms
          (s.branching choiceFramework.af choiceActive.toVectorBitSet) := by
  have hin := choiceFramework.searchInput choiceActive (q := 1) (by decide) (by decide)
  obtain ⟨ls, s, hrun, -, hfin, -⟩ := (settles hin []).exists_end
  exact ⟨ls, s, hrun, hfin,
    (search_refines_branching choiceFramework choiceActive (by decide) (by decide) hrun).1⟩

end AFAnalyzer
