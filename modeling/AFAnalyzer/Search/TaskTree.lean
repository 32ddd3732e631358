import AFAnalyzer.Search.Termination

/-!
# The task tree and the SAT calls

`settles` says that the search ends.  This module says how: what bounds the rounds of one
activation and what bounds the tree of activations.

* `count_callSolver_le`: an activation calls the solver at most once more than there are
  sets of active arguments.  Every answer is excluded by the next complement clause
  (`Activation.Ok.excluded`), and no clause is ever removed
  (`Activation.Ok.clauses_kept`).
* `TreeInv`: the task of a creator has a strictly larger extension and a strictly smaller
  reduct (`Deeper`), so the depth of the tree is less than the number of active arguments
  (`TreeInv.depth_lt`).
-/

namespace AFAnalyzer

variable {F : AF} {A R : VectorBitSet} {q : ℕ} {E L S : List ℕ}

/-! ## Inside one activation -/

namespace Activation

variable {a b : Activation} {e : Effect} {flag : Bool} {answer : Option (ℕ → Bool)}

/-- **Every found set is excluded.**  It is not empty, and no model of the clauses at the
next SAT call accepts all of it. -/
theorem Ok.excluded (hok : a.Ok F A q) (hin : SearchInput F A q) (hpoint : a.point = .answered)
    (hsat : a.hasSolution = true) :
    getSetFromSolver a.solver a.reduct ≠ [] ∧
      ∀ v, Sat.Satisfies v a.nextSolver.cadical.clauses →
        ∃ x ∈ getSetFromSolver a.solver a.reduct, v x = false := by
  have henc := hok.encoded (Or.inr (Or.inr (Or.inl hpoint)))
  obtain ⟨-, -, -, -, hfound⟩ := hok.found hin hpoint hsat
  refine ⟨hfound.nonempty, fun v hv => ?_⟩
  rw [(henc.nextSolver_eq hin).2, if_pos (hok.answered hpoint), Sat.satisfies_append,
    satisfies_complementClause] at hv
  exact hv.2

/-- **No clause is removed** while the solver exists. -/
theorem Ok.clauses_kept (hok : a.Ok F A q) (hin : SearchInput F A q)
    (h : Advanced F A flag answer a b e) (ha : a.point.Inside) (hb : b.point.Inside) :
    a.solver.cadical.clauses <+: b.solver.cadical.clauses := by
  cases h with
  | call point =>
    rw [show (a.called answer).solver.cadical.clauses = a.nextSolver.cadical.clauses from rfl,
      ((hok.encoded ha).nextSolver_eq hin).2]
    exact List.prefix_append _ _
  | encoded point =>
    rw [point] at ha
    exact absurd ha (by decide)
  | cutOff _ _ _ _ point =>
    rw [point] at hb
    exact absurd hb (by decide)
  | fault why => exact absurd why (hok.not_faulty hin)
  | _ => exact List.prefix_rfl

/-- How often an activation may still call the solver. -/
noncomputable def callsLeft (F : AF) (A : VectorBitSet) (a : Activation) : ℕ :=
  match a.point with
  | .entry | .encode => 2 ^ reductSize F A a.extensionBuild + 1
  | .pollEncoded | .loopHead | .pollLoop => a.openSets + 1
  | .answered => if a.hasSolution = true then a.openSets + 1 else 0
  | .handOver | .assigning | .leaving | .returned => 0

theorem callsLeft_of_start (h : a.point = .entry ∨ a.point = .encode) :
    a.callsLeft F A = 2 ^ reductSize F A a.extensionBuild + 1 := by
  rw [callsLeft]
  rcases h with h | h
  all_goals rw [h]

theorem callsLeft_of_looping (h : a.point = .pollEncoded ∨ a.point = .loopHead ∨
    a.point = .pollLoop) : a.callsLeft F A = a.openSets + 1 := by
  rw [callsLeft]
  rcases h with h | h | h
  all_goals rw [h]

theorem callsLeft_of_answered (h : a.point = .answered) :
    a.callsLeft F A = if a.hasSolution = true then a.openSets + 1 else 0 := by
  rw [callsLeft, h]

theorem callsLeft_of_done (h : a.point.Done) : a.callsLeft F A = 0 := by
  rw [callsLeft]
  rcases h with h | h | h | h
  all_goals rw [h]

/-- A step never raises the number of calls left, and a call lowers it. -/
theorem Ok.callsLeft_le (hok : a.Ok F A q) (hin : SearchInput F A q)
    (hans : a.point = .loopHead → a.nextSolver.SolverAnswers answer)
    (h : Advanced F A flag answer a b e) :
    b.callsLeft F A + (if e = .callSolver then 1 else 0) ≤ a.callsLeft F A := by
  cases h with
  | call point =>
    rw [callsLeft_of_looping (Or.inr (Or.inl point)), callsLeft_of_answered rfl, if_pos rfl]
    cases answer with
    | none =>
      rw [if_neg (by exact Bool.false_ne_true)]
      omega
    | some v =>
      have hlt := hok.openSets_call hin point (hans point)
      rw [if_pos (by rfl)]
      omega
  | @encoded R point build size =>
    have hR := isReduct_of_build hin.coherent hin.agrees build
    rw [callsLeft_of_looping (Or.inl rfl), callsLeft_of_start (Or.inr point), if_neg (by simp),
      Nat.add_zero, reductSize, ← hR.vector]
    exact Nat.succ_le_succ Sat.card_projections_le
  | cutOff _ _ _ _ point =>
    rw [callsLeft_of_done (Or.inr (Or.inr (Or.inl point))), if_neg (by simp)]
    exact Nat.zero_le _
  | entered point =>
    rw [callsLeft_of_start (Or.inr rfl), callsLeft_of_start (Or.inl point), if_neg (by simp)]
  | armed point =>
    rw [callsLeft_of_looping (Or.inr (Or.inl rfl)), callsLeft_of_looping (Or.inl point),
      if_neg (by simp)]
    exact le_rfl
  | abort point sat =>
    have htmp := hok.tmp (Or.inr point)
    rw [callsLeft_of_looping (Or.inr (Or.inl (by simp [htmp]))), callsLeft_of_answered point,
      if_pos sat, if_neg (by simp : ¬ Effect.abort = .callSolver)]
    exact le_rfl
  | @spawn prio R point sat found passes omits priority build =>
    obtain rfl := hok.reduct_eq point build
    rw [callsLeft_of_looping (Or.inr (Or.inr rfl)), callsLeft_of_answered point, if_pos sat,
      if_neg (by simp)]
    exact le_rfl
  | again point =>
    have hsat := (hok.pollLoop point).2.2
    rw [callsLeft_of_looping (Or.inr (Or.inl (by simp [hsat]))),
      callsLeft_of_looping (Or.inr (Or.inr point)),
      if_neg (by simp : ¬ Effect.silent = .callSolver)]
    exact le_rfl
  | reject =>
    rw [callsLeft_of_done (Or.inl rfl), if_neg (by simp)]
    exact Nat.zero_le _
  | handOver =>
    rw [callsLeft_of_done (Or.inr (Or.inl rfl)), if_neg (by simp)]
    exact Nat.zero_le _
  | fault why => exact absurd why (hok.not_faulty hin)
  | ret =>
    rw [callsLeft_of_done (Or.inr (Or.inr (Or.inr rfl))), if_neg (by simp)]
    exact Nat.zero_le _
  | _ =>
    rw [callsLeft_of_done (Or.inr (Or.inr (Or.inl rfl))), if_neg (by simp)]
    exact Nat.zero_le _

end Activation

variable {s s' : SearchState} {ℓ : Action} {ls : List Action} {proof : List ℕ}

theorem reductSize_le : reductSize F A E ≤ A.vector.length := List.length_filter_le _ _

/-- The calls left to the activation at index `i`, which may not exist yet. -/
noncomputable def SearchState.callsLeft (F : AF) (A : VectorBitSet) (i : ℕ) (s : SearchState) :
    ℕ :=
  match s.activations[i]? with
  | some a => a.callsLeft F A
  | none => 2 ^ A.vector.length + 1

theorem SearchState.callsLeft_le (hin : SearchInput F A q) (hinv : SearchInv F A q s)
    (h : LawfulStep F A s ℓ s') (i : ℕ) :
    s'.callsLeft F A i + (if ℓ = .act i .callSolver then 1 else 0) ≤ s.callsLeft F A i := by
  obtain ⟨hstep, -⟩ := h
  cases hstep with
  | @act j a b e answer running active answers advance =>
    have hlt := (List.getElem?_eq_some_iff.mp active).1
    by_cases hij : j = i
    · subst hij
      have hle := (hinv.activations j a active).callsLeft_le hin answers
        (Activation.advanced_of_advance advance)
      simp only [SearchState.callsLeft, SearchState.activations_apply, List.getElem?_set_self hlt,
        active, Action.act.injEq, true_and]
      exact hle
    · have hne : ¬ (Action.act j e = .act i .callSolver) := fun h => hij (Action.act.inj h).1
      rw [if_neg hne, SearchState.callsLeft, SearchState.activations_apply,
        List.getElem?_set_ne hij]
      exact le_rfl
  | @start k x p t creator running waiting created captured =>
    rw [if_neg nofun, Nat.add_zero, SearchState.callsLeft, SearchState.callsLeft]
    cases hold : s.activations[i]? with
    | some a =>
      have hlt := (List.getElem?_eq_some_iff.mp hold).1
      rw [SearchState.activations_startTask, List.getElem?_append_left hlt, hold]
    | none =>
      cases hnew : (s.startTask k t x p).activations[i]? with
      | none => exact le_rfl
      | some c =>
        rcases SearchState.of_getElem?_startTask hnew with h | ⟨-, rfl⟩
        · rw [hold] at h
          exact absurd h (by simp)
        · have hentry : (Activation.enter (some t.creator) x p t.newExtensionBuild).callsLeft F A =
              2 ^ reductSize F A t.newExtensionBuild + 1 := rfl
          exact hentry.le.trans (Nat.succ_le_succ
            (Nat.pow_le_pow_right (by omega) reductSize_le))

/-- **Every activation calls the solver finitely often.** -/
theorem count_callSolver_le (hin : SearchInput F A q)
    (h : Transition.Run (LawfulStep F A) (.init q proof) ls s) (i : ℕ) :
    ls.count (.act i .callSolver) ≤ 2 ^ A.vector.length + 1 := by
  have hcount := h.count_add_le (P := SearchInv F A q) (φ := SearchState.callsLeft F A i)
    (c := fun ℓ => ℓ == .act i .callSolver)
    (fun _ _ _ hinv hstep => hinv.step hin hstep)
    (fun _ _ _ hinv hstep => (Nat.le_add_right _ _).trans
      (SearchState.callsLeft_le hin hinv hstep i))
    (fun _ _ _ hinv hstep hcall => by
      have hle := SearchState.callsLeft_le hin hinv hstep i
      rw [if_pos (by simpa using hcall)] at hle
      exact hle)
    searchInv_init
  have hinit : (SearchState.init q proof).callsLeft F A i ≤ 2 ^ A.vector.length + 1 := by
    cases i with
    | zero => exact Nat.succ_le_succ (Nat.pow_le_pow_right (by omega) reductSize_le)
    | succ i => exact le_rfl
  rw [List.count]
  omega

/-! ## Down the tree -/

/-- A task with extension `L` is strictly deeper than an activation with extension `E`. -/
structure Deeper (F : AF) (A : VectorBitSet) (E L : List ℕ) : Prop where
  extension : listArgs E ⊂ listArgs L
  length : E.length < L.length
  reduct : ∃ R R', buildReduct F A E = some R ∧ buildReduct F A L = some R' ∧
    R'.args ⊂ R.args ∧ R'.vector.length < R.vector.length

/-- **A found set leads strictly down.** -/
theorem Found.deeper (h : Found F A R E S) (hF : F.Coherent)
    (hA : VectorBitSet.Matches F.numArgs A) : Deeper F A E (extendExtension E S) := by
  obtain ⟨x, hx⟩ := List.exists_mem_of_ne_nil _ h.nonempty
  obtain ⟨R', hR'⟩ := exists_isReduct hF hA (extendExtension E S)
  have hsize := h.reductSize_lt
  rw [reductSize, reductSize, ← hR'.vector, ← h.reduct.vector] at hsize
  refine ⟨⟨?_, fun hle => ?_⟩, h.length_lt, R, R', h.reduct.build, hR'.build, ⟨?_, ?_⟩, hsize⟩
  · show listArgs E ⊆ listArgs (extendExtension E S)
    rw [listArgs_extendExtension]
    exact Set.subset_union_left
  · exact h.notMem_extension hx (hle (mem_extendExtension.mpr (Or.inr hx)))
  · show R'.args ⊆ R.args
    rw [hR'.args, h.reduct.args, listArgs_extendExtension, ← Dung.reduct_reduct]
    exact Dung.reduct_subset
  · intro hle
    have hmem : x ∈ R'.args := hle (h.mem_reduct hx)
    rw [hR'.args] at hmem
    exact hmem.2.1 (mem_extendExtension.mpr (Or.inr hx))

/-- **The shape of the task tree.** -/
structure TreeInv (F : AF) (A : VectorBitSet) (s : SearchState) : Prop where
  activations : ∀ (i : ℕ) (a : Activation) (j : ℕ), s.activations[i]? = some a →
    a.creator = some j → j < i ∧ ∃ c, s.activations[j]? = some c ∧
      Deeper F A c.extensionBuild a.extensionBuild
  tasks : ∀ t ∈ s.tasks, ∃ c, s.activations[t.creator]? = some c ∧
    Deeper F A c.extensionBuild t.newExtensionBuild

theorem treeInv_init : TreeInv F A (.init q proof) where
  activations := by
    intro i a j ha hj
    obtain ⟨-, rfl⟩ := SearchState.eq_enter_of_init ha
    exact absurd hj (by simp [Activation.enter])
  tasks := fun t ht => absurd ht List.not_mem_nil

/-- The creator of a task is still there after a step, with the same extension. -/
theorem Step.deeper (h : Step F A s ℓ s') {j : ℕ} {c : Activation}
    (hc : s.activations[j]? = some c) (hdeep : Deeper F A c.extensionBuild L) :
    ∃ c, s'.activations[j]? = some c ∧ Deeper F A c.extensionBuild L := by
  obtain ⟨c', hc', -, -, hE, -⟩ := h.parameters hc
  refine ⟨c', hc', ?_⟩
  rw [hE]
  exact hdeep

theorem TreeInv.step (hin : SearchInput F A q) (hinv : SearchInv F A q s) (htree : TreeInv F A s)
    (h : LawfulStep F A s ℓ s') : TreeInv F A s' := by
  obtain ⟨hstep, -⟩ := h
  constructor
  · intro i a j ha hj
    rcases hstep.activation_cases ha with hold | ⟨b, e, answer, rfl, hb, hadv⟩ |
      ⟨k, t, x, p, rfl, ht, rfl, rfl⟩
    · obtain ⟨hji, c, hc, hdeep⟩ := htree.activations i a j hold hj
      exact ⟨hji, hstep.deeper hc hdeep⟩
    · obtain ⟨-, -, hE, hcreator⟩ := (Activation.advanced_of_advance hadv).parameters
      rw [hcreator] at hj
      obtain ⟨hji, c, hc, hdeep⟩ := htree.activations i b j hb hj
      rw [← hE] at hdeep
      exact ⟨hji, hstep.deeper hc hdeep⟩
    · obtain ⟨c, hc, hdeep⟩ := htree.tasks t (List.mem_of_getElem? ht)
      obtain rfl := Option.some.inj hj
      exact ⟨(List.getElem?_eq_some_iff.mp hc).1, hstep.deeper hc hdeep⟩
  · intro t ht
    have hcases : t ∈ s.tasks ∨ ∃ (i : ℕ) (a : Activation), s.activations[i]? = some a ∧
        t.creator = i ∧ Deeper F A a.extensionBuild t.newExtensionBuild := by
      cases hstep with
      | @act i a b e answer running active answers advance =>
        rcases SearchState.of_mem_tasks_apply ht with hold | ⟨L, prio, rfl, rfl⟩
        · exact Or.inl hold
        · obtain ⟨-, S, rfl, hfound⟩ := (hinv.activations i a active).spawned hin
            (Activation.advanced_of_advance advance)
          exact Or.inr ⟨i, a, active, rfl, hfound.deeper hin.coherent hin.agrees⟩
      | start => exact Or.inl (List.mem_of_mem_eraseIdx ht)
    rcases hcases with hold | ⟨i, a, ha, rfl, hdeep⟩
    · obtain ⟨c, hc, hdeep⟩ := htree.tasks t hold
      exact hstep.deeper hc hdeep
    · exact hstep.deeper ha hdeep

theorem TreeInv.run (hin : SearchInput F A q)
    (h : Transition.Run (LawfulStep F A) (.init q proof) ls s) : TreeInv F A s :=
  SearchInv.induction hin (fun _ _ _ hinv htree hstep => htree.step hin hinv hstep) treeInv_init h

/-- Activation `i` is `d` tasks below the call that opened the search. -/
inductive Depth (s : SearchState) : ℕ → ℕ → Prop
  | root {i : ℕ} {a : Activation} (active : s.activations[i]? = some a)
      (uncreated : a.creator = none) : Depth s i 0
  | task {i j d : ℕ} {a : Activation} (active : s.activations[i]? = some a)
      (created : a.creator = some j) (parent : Depth s j d) : Depth s i (d + 1)

/-- Every activation hangs in the tree. -/
theorem TreeInv.exists_depth (htree : TreeInv F A s) (i : ℕ) :
    ∀ a, s.activations[i]? = some a → ∃ d, Depth s i d := by
  induction i using Nat.strong_induction_on with
  | _ i ih =>
    intro a ha
    cases hcreator : a.creator with
    | none => exact ⟨0, .root ha hcreator⟩
    | some j =>
      obtain ⟨hji, c, hc, -⟩ := htree.activations i a j ha hcreator
      obtain ⟨d, hd⟩ := ih j hji c hc
      exact ⟨d + 1, .task ha hcreator hd⟩

/-- The extension grows with the depth. -/
theorem TreeInv.depth_le (htree : TreeInv F A s) {i d : ℕ} (hd : Depth s i d) :
    ∀ a, s.activations[i]? = some a → d ≤ a.extensionBuild.length := by
  induction hd with
  | root => exact fun _ _ => Nat.zero_le _
  | @task i j d a active created parent ih =>
    intro a' ha'
    obtain rfl := Option.some.inj (active.symm.trans ha')
    obtain ⟨-, c, hc, hdeep⟩ := htree.activations i a j active created
    exact (ih c hc).trans_lt hdeep.length

/-- **The tree is less deep than there are active arguments.** -/
theorem TreeInv.depth_lt (htree : TreeInv F A s) (hin : SearchInput F A q)
    (hinv : SearchInv F A q s) {i d : ℕ} (hd : Depth s i d) : d < A.vector.length := by
  have hactive : ∃ a, s.activations[i]? = some a := by
    cases hd with
    | root active => exact ⟨_, active⟩
    | task active => exact ⟨_, active⟩
  obtain ⟨a, ha⟩ := hactive
  have hE := (hinv.activations i a ha).extension
  -- the query is an active argument that no extension contains
  have hnodup : (q :: a.extensionBuild).Nodup := List.nodup_cons.mpr ⟨hE.notMem, hE.nodup⟩
  have hsub : q :: a.extensionBuild ⊆ A.vector := by
    rintro x (_ | ⟨_, hx⟩)
    · exact hin.query_mem
    · exact hE.admissible.subset hx
  have hlen := (List.subperm_of_subset hnodup hsub).length_le
  have hle := htree.depth_le hd a ha
  rw [List.length_cons] at hlen
  omega

/-! ## The number of tasks -/

/-- A step creates at most one task, and starting it does not create another. -/
theorem length_add_length_le (h : Step F A s ℓ s') :
    s'.activations.length + s'.tasks.length ≤ s.activations.length + s.tasks.length + 1 := by
  cases h with
  | @act i a b e answer running active answers advance =>
    have htasks : (s.apply i b e).tasks.length ≤ s.tasks.length + 1 := by
      cases e with
      | spawn L prio => simp [SearchState.apply]
      | _ => exact Nat.le_succ _
    rw [SearchState.activations_apply, List.length_set]
    omega
  | @start k x p t creator running waiting created captured =>
    have hlt := (List.getElem?_eq_some_iff.mp waiting).1
    rw [SearchState.activations_startTask, SearchState.tasks_startTask, List.length_append,
      List.length_eraseIdx_of_lt hlt, List.length_singleton]
    omega

/-- **There are at most as many activations and waiting tasks as steps, and one.** -/
theorem length_add_length_le_of_run {s₀ : SearchState}
    (h : Transition.Run (LawfulStep F A) s₀ ls s) :
    s.activations.length + s.tasks.length ≤
      s₀.activations.length + s₀.tasks.length + ls.length := by
  induction h with
  | nil => exact le_rfl
  | cons first _ ih =>
    have hstep := length_add_length_le first.1
    rw [List.length_cons]
    omega

end AFAnalyzer
