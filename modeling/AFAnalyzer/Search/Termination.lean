import AFAnalyzer.Sat.Enumeration
import AFAnalyzer.Search.Coverage

/-!
# The search ends

Two measures are nested.  Inside one activation, the sets that its solver can still
return (`Activation.openSets`) get fewer with every answer, because the complement clause
excludes the set just found and clauses are never removed.  Along the task tree, the
reduct of a created task is strictly smaller than that of its creator, because a found
set is a nonempty part of the reduct.

`taskBudget r` bounds the steps of a task whose reduct has `r` arguments, all
descendants included; `Activation.budget` is what an activation may still spend, and
`SearchState.budget` sums both over the region.  Every step lowers that sum
(`SearchState.budget_lt`), so runs are bounded, and a region that cannot move has
finished (`SearchInv.finished`).  `settles` puts this together with the flag.
-/

namespace AFAnalyzer

variable {F : AF} {A R : VectorBitSet} {q : ℕ} {E : List ℕ}

/-! ## Budgets -/

/-- The number of arguments in the reduct of an extension. -/
def reductSize (F : AF) (A : VectorBitSet) (E : List ℕ) : ℕ := (reductVector F A E).length

/-- The steps of a task with `r` arguments in its reduct, and of everything below it:
eight outside the loop, and per round of the loop four and one smaller task. -/
def taskBudget : ℕ → ℕ
  | 0 => 8
  | r + 1 => 8 + 2 ^ (r + 1) * (4 + taskBudget r)

/-- The steps of `k` rounds of the loop with `r` arguments in the reduct. -/
def loopBudget (r k : ℕ) : ℕ := k * (4 + taskBudget (r - 1))

theorem taskBudget_mono : Monotone taskBudget := by
  refine monotone_nat_of_le_succ fun r => ?_
  rw [taskBudget]
  have hpow : 1 ≤ 2 ^ (r + 1) := Nat.one_le_two_pow
  calc taskBudget r ≤ 1 * (4 + taskBudget r) := by omega
    _ ≤ 2 ^ (r + 1) * (4 + taskBudget r) := Nat.mul_le_mul_right _ hpow
    _ ≤ 8 + 2 ^ (r + 1) * (4 + taskBudget r) := Nat.le_add_left _ _

theorem taskBudget_eq {r : ℕ} (hr : 0 < r) : taskBudget r = 8 + loopBudget r (2 ^ r) := by
  obtain ⟨r, rfl⟩ := Nat.exists_eq_add_of_lt hr
  rw [Nat.zero_add, taskBudget, loopBudget, Nat.add_sub_cancel]

theorem loopBudget_mono {r k l : ℕ} (h : k ≤ l) : loopBudget r k ≤ loopBudget r l :=
  Nat.mul_le_mul_right _ h

theorem loopBudget_succ {r k : ℕ} :
    loopBudget r (k + 1) = loopBudget r k + (4 + taskBudget (r - 1)) := by
  rw [loopBudget, loopBudget, Nat.succ_mul]

/-- The reduct of an extension is not empty: the query is in it. -/
theorem ExtensionOk.reductSize_pos (hE : ExtensionOk F A q E) (hin : SearchInput F A q) :
    0 < reductSize F A E := by
  obtain ⟨R, hR⟩ := exists_isReduct hin.coherent hin.agrees E
  have hq := hE.query_mem hin hR
  rw [hR.vector] at hq
  exact List.length_pos_of_mem hq

/-- **A created task has a smaller reduct.** -/
theorem Found.reductSize_lt {S : List ℕ} (h : Found F A R E S) :
    reductSize F A (extendExtension E S) < reductSize F A E := by
  obtain ⟨x, hx⟩ := List.exists_mem_of_ne_nil _ h.nonempty
  refine length_reductVector_extendExtension_lt ⟨x, hx, ?_⟩
  rw [← h.reduct.vector]
  exact h.mem_reduct hx

/-- **A created task has a larger extension.** -/
theorem Found.length_lt {S : List ℕ} (h : Found F A R E S) :
    E.length < (extendExtension E S).length := by
  rw [length_extendExtension]
  have := List.length_pos_iff.mpr h.nonempty
  omega

namespace Activation

variable {a b : Activation} {e : Effect} {flag : Bool} {answer : Option (ℕ → Bool)}

/-- How many sets of active arguments the next call of the solver may return. -/
noncomputable def openSets (a : Activation) : ℕ :=
  (Sat.projections a.reduct.vector a.nextSolver.cadical.clauses).card

/-- What an activation and its future tasks may still spend. -/
noncomputable def budget (F : AF) (A : VectorBitSet) (a : Activation) : ℕ :=
  let r := reductSize F A a.extensionBuild
  match a.point with
  | .entry => 7 + loopBudget r (2 ^ r)
  | .encode => 6 + loopBudget r (2 ^ r)
  | .pollEncoded => 5 + loopBudget r a.openSets
  | .loopHead => 4 + loopBudget r a.openSets
  | .answered => 3 + if a.hasSolution = true then loopBudget r (a.openSets + 1) else 0
  | .pollLoop => 5 + loopBudget r a.openSets
  | .handOver => 3
  | .assigning => 2
  | .leaving => 1
  | .returned => 0

theorem budget_of_entry (h : a.point = .entry) : a.budget F A =
    7 + loopBudget (reductSize F A a.extensionBuild) (2 ^ reductSize F A a.extensionBuild) := by
  rw [budget, h]

theorem budget_of_encode (h : a.point = .encode) : a.budget F A =
    6 + loopBudget (reductSize F A a.extensionBuild) (2 ^ reductSize F A a.extensionBuild) := by
  rw [budget, h]

theorem budget_of_poll (h : a.point = .pollEncoded ∨ a.point = .pollLoop) : a.budget F A =
    5 + loopBudget (reductSize F A a.extensionBuild) a.openSets := by
  rw [budget]
  rcases h with h | h
  all_goals rw [h]

theorem budget_of_loopHead (h : a.point = .loopHead) : a.budget F A =
    4 + loopBudget (reductSize F A a.extensionBuild) a.openSets := by
  rw [budget, h]

theorem budget_of_answered (h : a.point = .answered) : a.budget F A =
    3 + if a.hasSolution = true then
      loopBudget (reductSize F A a.extensionBuild) (a.openSets + 1) else 0 := by
  rw [budget, h]

theorem budget_of_handOver (h : a.point = .handOver) : a.budget F A = 3 := by
  rw [budget, h]

theorem budget_of_assigning (h : a.point = .assigning) : a.budget F A = 2 := by
  rw [budget, h]

theorem budget_of_returned (h : a.point = .returned) : a.budget F A = 0 := by
  rw [budget, h]

theorem budget_of_leaving (h : a.point = .leaving) : a.budget F A = 1 := by
  rw [budget, h]

/-- **Every answer excludes a set.**  After a call that found a model, fewer sets are
open than before. -/
theorem Ok.openSets_call (hok : a.Ok F A q) (hin : SearchInput F A q)
    (hpoint : a.point = .loopHead) {v : ℕ → Bool} (hans : a.nextSolver.SolverAnswers (some v)) :
    (a.called (some v)).openSets < a.openSets := by
  have hcall := hok.call hin hpoint hans
  have henc := hcall.encoded (Or.inr (Or.inr (Or.inl rfl)))
  have hrange := henc.reduct.range hin.range
  have hnext := (henc.nextSolver_eq hin).2
  have hdecode : getSetFromSolver (a.called (some v)).solver (a.called (some v)).reduct =
      a.reduct.vector.filter v :=
    getSetFromSolver_eq rfl fun a ha => hin.coherent.id_range (hrange a ha)
  refine Sat.card_projections_lt (v := v) hans (fun w hw => henc.nextSolver_sound hin hw)
    fun w hw => ?_
  rw [hnext, if_pos (hcall.answered rfl), Sat.satisfies_append, satisfies_complementClause,
    hdecode] at hw
  exact hw.2

/-- What a step creates. -/
noncomputable def spawnBudget (F : AF) (A : VectorBitSet) : Effect → ℕ
  | .spawn newExtensionBuild _ => taskBudget (reductSize F A newExtensionBuild)
  | _ => 0

@[simp] theorem spawnBudget_silent : spawnBudget F A .silent = 0 := rfl

@[simp] theorem spawnBudget_callSolver : spawnBudget F A .callSolver = 0 := rfl

@[simp] theorem spawnBudget_setFlag : spawnBudget F A .setFlag = 0 := rfl

@[simp] theorem spawnBudget_handOver {L : List ℕ} : spawnBudget F A (.handOver L) = 0 := rfl

@[simp] theorem spawnBudget_abort : spawnBudget F A .abort = 0 := rfl

@[simp] theorem spawnBudget_ret : spawnBudget F A .ret = 0 := rfl

/-- **Every step of an activation spends something**, the task it creates included. -/
theorem Ok.budget_lt (hok : a.Ok F A q) (hin : SearchInput F A q)
    (hans : a.point = .loopHead → a.nextSolver.SolverAnswers answer)
    (h : Advanced F A flag answer a b e) :
    b.budget F A + spawnBudget F A e < a.budget F A := by
  cases h with
  | cutOff polls _ _ _ point =>
    have hpos : 5 ≤ a.budget F A := by
      rcases polls with h | h | h
      · rw [budget_of_entry h]
        omega
      · rw [budget_of_poll (Or.inl h)]
        omega
      · rw [budget_of_poll (Or.inr h)]
        omega
    rw [budget_of_leaving point, spawnBudget_silent, Nat.add_zero]
    omega
  | entered point =>
    rw [budget_of_entry point, budget_of_encode rfl, spawnBudget_silent,
      Nat.add_zero]
    exact Nat.add_lt_add_right (by decide : 6 < 7) _
  | small point =>
    rw [budget_of_encode point, budget_of_leaving rfl, spawnBudget_silent, Nat.add_zero]
    omega
  | @encoded R point build size =>
    have hR := isReduct_of_build hin.coherent hin.agrees build
    have hopen : ∀ cs, loopBudget (reductSize F A a.extensionBuild)
        (Sat.projections R.vector cs).card ≤ loopBudget (reductSize F A a.extensionBuild)
          (2 ^ reductSize F A a.extensionBuild) := by
      intro cs
      refine loopBudget_mono (Sat.card_projections_le.trans ?_)
      rw [hR.vector, reductSize]
    rw [budget_of_encode point, budget_of_poll (Or.inl rfl), spawnBudget_silent, Nat.add_zero]
    exact Nat.add_lt_add_of_lt_of_le (by decide : 5 < 6) (hopen _)
  | armed point =>
    rw [budget_of_poll (Or.inl point), budget_of_loopHead rfl, spawnBudget_silent, Nat.add_zero]
    exact Nat.add_lt_add_right (by decide : 4 < 5) _
  | call point =>
    rw [budget_of_loopHead point, budget_of_answered rfl, spawnBudget_callSolver, Nat.add_zero]
    cases answer with
    | none =>
      rw [if_neg (by exact Bool.false_ne_true)]
      omega
    | some v =>
      have hlt := hok.openSets_call hin point (hans point)
      have hle : loopBudget (reductSize F A a.extensionBuild) ((a.called (some v)).openSets + 1) ≤
          loopBudget (reductSize F A a.extensionBuild) a.openSets := loopBudget_mono hlt
      rw [if_pos (by rfl)]
      exact Nat.add_lt_add_of_lt_of_le (by decide : 3 < 4) hle
  | exhausted point =>
    rw [budget_of_answered point, budget_of_leaving rfl, spawnBudget_silent, Nat.add_zero]
    omega
  | onlyEmpty point =>
    rw [budget_of_answered point, budget_of_leaving rfl, spawnBudget_setFlag, Nat.add_zero]
    omega
  | reject point sat =>
    rw [budget_of_answered point, if_pos sat, loopBudget_succ, budget_of_handOver rfl,
      spawnBudget_setFlag, Nat.add_zero]
    exact (by omega : ∀ x y : ℕ, 3 < 3 + (x + (4 + y))) _ _
  | abort point sat =>
    have htmp := hok.tmp (Or.inr point)
    rw [budget_of_answered point, if_pos sat, loopBudget_succ, spawnBudget_abort,
      budget_of_loopHead (by simp [htmp]), Nat.add_zero]
    exact (by omega : ∀ x y : ℕ, 4 + x < 3 + (x + (4 + y))) _ _
  | @spawn prio R point sat found passes omits priority build =>
    obtain rfl := hok.reduct_eq point build
    obtain ⟨v, -, -, -, hfound⟩ := hok.found hin point sat
    have htask : taskBudget (reductSize F A
        (extendExtension a.extensionBuild (getSetFromSolver a.solver a.reduct))) ≤
        taskBudget (reductSize F A a.extensionBuild - 1) :=
      taskBudget_mono (Nat.le_sub_one_of_lt hfound.reductSize_lt)
    rw [budget_of_answered point, if_pos sat, loopBudget_succ, spawnBudget,
      budget_of_poll (Or.inr rfl)]
    exact (by omega : ∀ x y z : ℕ, z ≤ y → 5 + x + z < 3 + (x + (4 + y))) _ _ _ htask
  | again point =>
    have hsat := (hok.pollLoop point).2.2
    rw [budget_of_poll (Or.inr point), budget_of_loopHead (by simp [hsat]),
      spawnBudget_silent, Nat.add_zero]
    exact Nat.add_lt_add_right (by decide : 4 < 5) _
  | handOver point =>
    rw [budget_of_handOver point, budget_of_assigning rfl, spawnBudget_handOver, Nat.add_zero]
    omega
  | assigned point =>
    rw [budget_of_assigning point, budget_of_leaving rfl, spawnBudget_silent, Nat.add_zero]
    omega
  | ret point =>
    rw [budget_of_leaving point, budget_of_returned rfl, spawnBudget_ret, Nat.add_zero]
    omega
  | fault why => exact absurd why (hok.not_faulty hin)

end Activation

/-! ## The budget of the region -/

variable {s s' : SearchState} {ℓ : Action} {ls : List Action} {proof : List ℕ}

/-- What the activations may still spend, and the tasks that wait. -/
noncomputable def SearchState.budget (F : AF) (A : VectorBitSet) (s : SearchState) : ℕ :=
  (s.activations.map (Activation.budget F A)).sum +
    (s.tasks.map fun t => taskBudget (reductSize F A t.newExtensionBuild)).sum

theorem SearchState.sum_tasks_apply {i : ℕ} {a : Activation} {e : Effect} :
    ((s.apply i a e).tasks.map fun t => taskBudget (reductSize F A t.newExtensionBuild)).sum =
      (s.tasks.map fun t => taskBudget (reductSize F A t.newExtensionBuild)).sum +
        Activation.spawnBudget F A e := by
  cases e with
  | spawn L prio =>
    simp only [apply, List.map_append, List.sum_append, List.map_cons, List.map_nil,
      List.sum_cons, List.sum_nil, Nat.add_zero, Activation.spawnBudget]
  | _ => rfl

/-- **Every step lowers the budget of the region.** -/
theorem SearchState.budget_lt (hin : SearchInput F A q) (hinv : SearchInv F A q s)
    (h : LawfulStep F A s ℓ s') : s'.budget F A < s.budget F A := by
  obtain ⟨hstep, -⟩ := h
  cases hstep with
  | @act i a b e answer running active answers advance =>
    have hlt := (hinv.activations i a active).budget_lt hin answers
      (Activation.advanced_of_advance advance)
    have hsum := Transition.sum_map_set (Activation.budget F A) b active
    rw [SearchState.budget, SearchState.budget, SearchState.sum_tasks_apply,
      SearchState.activations_apply]
    omega
  | @start k x p t creator running waiting created captured =>
    have hE := hinv.tasks t (List.mem_of_getElem? waiting)
    have hsum := Transition.sum_map_eraseIdx
      (fun t => taskBudget (reductSize F A t.newExtensionBuild)) waiting
    have hentry : (Activation.enter (some t.creator) x p t.newExtensionBuild).budget F A =
        7 + loopBudget (reductSize F A t.newExtensionBuild)
          (2 ^ reductSize F A t.newExtensionBuild) := Activation.budget_of_entry rfl
    have htask := taskBudget_eq (hE.reductSize_pos hin)
    simp only [SearchState.budget, SearchState.activations_startTask,
      SearchState.tasks_startTask, List.map_append, List.sum_append, List.map_cons, List.map_nil,
      List.sum_cons, List.sum_nil, Nat.add_zero, hentry]
    omega

/-- **Runs are bounded.** -/
theorem length_le_budget (hin : SearchInput F A q)
    (h : Transition.Run (LawfulStep F A) (.init q proof) ls s) :
    ls.length ≤ (SearchState.init q proof).budget F A := by
  have hbound := h.length_add_le (P := SearchInv F A q) (φ := SearchState.budget F A)
    (fun _ _ _ hinv hstep => hinv.step hin hstep)
    (fun _ _ _ hinv hstep => SearchState.budget_lt hin hinv hstep) searchInv_init
  omega

/-! ## Progress -/

/-- An activation that has not returned can move. -/
theorem exists_act {i : ℕ} {a : Activation} (hrunning : s.fault = false)
    (ha : s.activations[i]? = some a) (hpoint : a.point ≠ .returned) :
    ∃ e s', LawfulStep F A s (.act i e) s' := by
  obtain ⟨answer, hanswer⟩ := Sat.exists_answer a.nextSolver.cadical.clauses
  cases hadv : a.advance F A (s.heap a.isRejected) answer with
  | none => exact absurd (Activation.advance_eq_none.mp hadv) hpoint
  | some res =>
    obtain ⟨b, e⟩ := res
    exact ⟨e, _, .act hrunning ha (fun _ => hanswer) hadv, trivial⟩

/-- A waiting task can start. -/
theorem exists_start {k : ℕ} {t : Task} {creator : Activation} (hrunning : s.fault = false)
    (ht : s.tasks[k]? = some t) (hcreator : s.activations[t.creator]? = some creator) :
    LawfulStep F A s (.start k creator.argument creator.isRejected)
      (s.startTask k t creator.argument creator.isRejected) := by
  refine ⟨.start hrunning ht hcreator fun _ => ⟨rfl, rfl⟩, fun u c hu hc => ?_⟩
  obtain rfl := Option.some.inj (ht.symm.trans hu)
  obtain rfl := Option.some.inj (hcreator.symm.trans hc)
  exact ⟨rfl, rfl⟩

/-- **A region that cannot move has finished.** -/
theorem SearchInv.finished (hinv : SearchInv F A q s)
    (hstuck : ∀ ℓ s', ¬ LawfulStep F A s ℓ s') : s.Finished := by
  refine ⟨hinv.noFault, ?_, fun a ha => ?_⟩
  · cases htasks : s.tasks with
    | nil => rfl
    | cons t ts =>
      have ht : s.tasks[0]? = some t := by rw [htasks]; rfl
      have hlt := hinv.created t (by rw [htasks]; exact List.mem_cons_self)
      exact absurd (exists_start hinv.noFault ht (List.getElem?_eq_getElem hlt)) (hstuck _ _)
  · by_contra hpoint
    obtain ⟨i, hi⟩ := List.mem_iff_getElem?.mp ha
    obtain ⟨e, s', hstep⟩ := exists_act (F := F) (A := A) hinv.noFault hi hpoint
    exact hstuck _ _ hstep

/-- A finished region stays as it is. -/
theorem SearchState.Finished.stuck (h : s.Finished) : ¬ Step F A s ℓ s' := by
  intro hstep
  cases hstep with
  | @act i a b e answer running active answers advance =>
    have hnone : a.advance F A (s.heap a.isRejected) answer = none :=
      Activation.advance_eq_none.mpr (h.returned a (List.mem_of_getElem? active))
    rw [hnone] at advance
    exact absurd advance (by simp)
  | start _ waiting =>
    rw [h.tasks] at waiting
    exact absurd waiting (by simp)

/-- **The search is totally correct** under every choice of models and every schedule in which each
task sees the argument and the flag of its creator.  It ends, it ends at the barrier, and then the
flag tells whether some preferred set of the active arguments omits the query. -/
theorem settles (hin : SearchInput F A q) (proof : List ℕ) :
    Transition.Settles (LawfulStep F A) (.init q proof) fun s =>
      s.Finished ∧ (s.flag = true ↔ ∃ P, Dung.Preferred F.att A.args P ∧ q ∉ P) where
  bounded := ⟨_, fun _ _ h => length_le_budget hin h⟩
  ends := by
    intro ls s h hstuck
    have hfin := (SearchInv.run hin h).finished hstuck
    exact ⟨hfin, flag_iff hin h hfin⟩

end AFAnalyzer
