import AFAnalyzer.Search.Activation
import AFAnalyzer.Transition.Run
import Mathlib.Logic.Function.Basic

/-!
# The parallel search

`check_rejection_parallel` calls the recursive function once inside a parallel
region; every further activation is a task.  The state of the region is the shared
memory, all activations so far, and the tasks that were created and have not started.
A step is either an atomic step of some activation or the start of some task.  Any
activation may move next and any task may start next, so the number of threads, the
priorities and the order in which the runtime picks tasks only select among the runs
considered here.

A task captures `argument` and `isRejected` as *shared* variables.  They are
parameters that its creator received by value, and the task reads them when it
starts.  While the creator has not returned they hold what it was called with; after
that the storage is gone and the read yields anything.  `Step.start` says exactly
this.  `LawfulStep` restricts to runs in which every task sees the values of its
creator, which is what most results about the search assume.

Reads and writes of the flag are one step each: it is a single `bool`, of which only
`true` is ever written.  The assignment to `output_extension` is another matter.  It
copies a list node by node, and nothing keeps two of them apart: the pragma in front of
it is not one of OpenMP, and could not apply to a list.  So it has a beginning and an
end, and an assignment that begins inside another one tears the list.  What a torn list
contains is anything (`SearchState.MayLeave`).  Nobody reads the list inside the region.

`Finished` is the state in which the barrier at the end of the region opens.
-/

namespace AFAnalyzer

/-- A task that has not started: who created it, its own copy of
`new_extension_build`, and its priority. -/
structure Task where
  creator : ℕ
  newExtensionBuild : List ℕ
  priority : ℕ
  deriving DecidableEq

/-- The state of the parallel region.  `heap` holds the `bool` cells that a pointer
`isRejected` may lead to, and `outputExtension` the list of the last assignment, which is what
the caller finds unless two assignments have overlapped (`torn`). -/
structure SearchState where
  heap : ℕ → Bool
  outputExtension : List ℕ
  torn : Bool
  activations : List Activation
  tasks : List Task
  fault : Bool

/-- The cell that `check_rejection_parallel` allocates for the flag. -/
def flagCell : ℕ := 0

/-- What the scheduler lets happen next. -/
inductive Action
  | act (i : ℕ) (effect : Effect)
  | start (k argument isRejected : ℕ)
  deriving DecidableEq

namespace SearchState

/-- The flag of the region. -/
def flag (s : SearchState) : Bool := s.heap flagCell

/-- The start of the region: the flag is cleared, and one activation, with an empty
extension, is entered. -/
def init (argument : ℕ) (proofExtension : List ℕ) : SearchState where
  heap := fun _ => false
  outputExtension := proofExtension
  torn := false
  activations := [.enter none argument flagCell []]
  tasks := []
  fault := false

/-- Some activation other than `i` is inside its assignment to `output_extension`. -/
def othersAssign (s : SearchState) (i : ℕ) : Bool :=
  (s.activations.eraseIdx i).any fun a => a.point = .assigning

/-- Activation `i` has become `a` with the given effect. -/
def apply (s : SearchState) (i : ℕ) (a : Activation) (effect : Effect) : SearchState where
  heap :=
    match effect with
    | .setFlag => Function.update s.heap a.isRejected true
    | _ => s.heap
  outputExtension :=
    match effect with
    | .handOver newExtensionBuild => newExtensionBuild
    | _ => s.outputExtension
  torn :=
    match effect with
    | .handOver _ => s.torn || s.othersAssign i
    | _ => s.torn
  activations := s.activations.set i a
  tasks :=
    match effect with
    | .spawn newExtensionBuild prio => s.tasks ++ [⟨i, newExtensionBuild, prio⟩]
    | _ => s.tasks
  fault :=
    match effect with
    | .fault => true
    | _ => s.fault

/-- Task `k` has started: the call in its body. -/
def startTask (s : SearchState) (k : ℕ) (t : Task) (argument isRejected : ℕ) : SearchState :=
  { s with
    activations :=
      s.activations ++ [.enter (some t.creator) argument isRejected t.newExtensionBuild]
    tasks := s.tasks.eraseIdx k }

/-- The barrier at the end of the region opens: nothing has failed, no task waits, and
every activation has returned. -/
structure Finished (s : SearchState) : Prop where
  noFault : s.fault = false
  tasks : s.tasks = []
  returned : ∀ a ∈ s.activations, a.point = .returned

/-- What the caller may find in `output_extension`: any list of `uint32_t` once two assignments
have overlapped. -/
def MayLeave (s : SearchState) (L : List ℕ) : Prop :=
  if s.torn = true then ∀ x ∈ L, x < 2 ^ 32 else L = s.outputExtension

end SearchState

/-- **One step of the parallel region.** -/
inductive Step (F : AF) (A : VectorBitSet) : SearchState → Action → SearchState → Prop
  | act {s : SearchState} {i : ℕ} {a b : Activation} {effect : Effect}
      {answer : Option (ℕ → Bool)} (running : s.fault = false)
      (active : s.activations[i]? = some a)
      (answers : a.point = .loopHead → a.nextSolver.SolverAnswers answer)
      (advance : a.advance F A (s.heap a.isRejected) answer = some (b, effect)) :
      Step F A s (.act i effect) (s.apply i b effect)
  | start {s : SearchState} {k argument isRejected : ℕ} {t : Task} {creator : Activation}
      (running : s.fault = false) (waiting : s.tasks[k]? = some t)
      (created : s.activations[t.creator]? = some creator)
      (captured : creator.point ≠ .returned →
        argument = creator.argument ∧ isRejected = creator.isRejected) :
      Step F A s (.start k argument isRejected) (s.startTask k t argument isRejected)

/-- A task that starts in this step sees the argument and the flag of its creator. -/
def SeesCreator (s : SearchState) : Action → Prop
  | .act _ _ => True
  | .start k argument isRejected =>
    ∀ t creator, s.tasks[k]? = some t → s.activations[t.creator]? = some creator →
      argument = creator.argument ∧ isRejected = creator.isRejected

/-- A step in which a starting task sees the values of its creator. -/
def LawfulStep (F : AF) (A : VectorBitSet) (s : SearchState) (ℓ : Action) (t : SearchState) :
    Prop :=
  Step F A s ℓ t ∧ SeesCreator s ℓ

variable {F : AF} {A : VectorBitSet} {s s' : SearchState} {i k : ℕ} {a b : Activation}
  {e : Effect} {answer : Option (ℕ → Bool)} {ℓ : Action}

namespace SearchState

@[simp] theorem activations_apply : (s.apply i a e).activations = s.activations.set i a := rfl

@[simp] theorem activations_startTask {t : Task} {x p : ℕ} :
    (s.startTask k t x p).activations =
      s.activations ++ [.enter (some t.creator) x p t.newExtensionBuild] := rfl

@[simp] theorem tasks_startTask {t : Task} {x p : ℕ} :
    (s.startTask k t x p).tasks = s.tasks.eraseIdx k := rfl

@[simp] theorem heap_startTask {t : Task} {x p : ℕ} : (s.startTask k t x p).heap = s.heap := rfl

@[simp] theorem fault_startTask {t : Task} {x p : ℕ} : (s.startTask k t x p).fault = s.fault := rfl

@[simp] theorem outputExtension_startTask {t : Task} {x p : ℕ} :
    (s.startTask k t x p).outputExtension = s.outputExtension := rfl

@[simp] theorem flag_startTask {t : Task} {x p : ℕ} : (s.startTask k t x p).flag = s.flag := rfl

/-- Cells are only ever set. -/
theorem heap_apply_of_true {c : ℕ} (h : s.heap c = true) : (s.apply i a e).heap c = true := by
  cases e with
  | setFlag =>
    simp only [apply, Function.update_apply]
    split
    · rfl
    · exact h
  | _ => exact h

theorem flag_apply_of_true (h : s.flag = true) : (s.apply i a e).flag = true :=
  heap_apply_of_true h

theorem flag_apply_setFlag (h : a.isRejected = flagCell) : (s.apply i a .setFlag).flag = true := by
  simp [flag, apply, h]

theorem heap_apply_of_ne (h : e ≠ .setFlag) : (s.apply i a e).heap = s.heap := by
  cases e with
  | setFlag => exact absurd rfl h
  | _ => rfl

theorem flag_apply_of_ne (h : e ≠ .setFlag) : (s.apply i a e).flag = s.flag :=
  congrFun (heap_apply_of_ne h) flagCell

theorem mem_tasks_apply {t : Task} (h : t ∈ s.tasks) : t ∈ (s.apply i a e).tasks := by
  cases e with
  | spawn L prio => exact List.mem_append_left _ h
  | _ => exact h

/-- The waiting tasks after a step are the old ones and the one just created. -/
theorem of_mem_tasks_apply {t : Task} (h : t ∈ (s.apply i a e).tasks) :
    t ∈ s.tasks ∨ ∃ L prio, e = .spawn L prio ∧ t = ⟨i, L, prio⟩ := by
  cases e with
  | spawn L prio =>
    rcases List.mem_append.mp h with h | h
    · exact Or.inl h
    · exact Or.inr ⟨L, prio, rfl, List.mem_singleton.mp h⟩
  | _ => exact Or.inl h

/-- A list that is torn stays so. -/
theorem torn_apply_of_true (h : s.torn = true) : (s.apply i a e).torn = true := by
  cases e with
  | handOver L =>
    show (s.torn || s.othersAssign i) = true
    rw [h, Bool.true_or]
  | _ => exact h

/-- Only the beginning of an assignment can tear the list. -/
theorem torn_apply_of_ne (h : ∀ L, e ≠ .handOver L) : (s.apply i a e).torn = s.torn := by
  cases e with
  | handOver L => exact absurd rfl (h L)
  | _ => rfl

theorem othersAssign_iff : s.othersAssign i = true ↔
    ∃ (j : ℕ) (c : Activation), j ≠ i ∧ s.activations[j]? = some c ∧ c.point = .assigning := by
  rw [othersAssign, List.any_eq_true]
  constructor
  · rintro ⟨c, hc, hpoint⟩
    obtain ⟨j, hji, hj⟩ := List.mem_eraseIdx_iff_getElem?.mp hc
    exact ⟨j, c, hji, hj, of_decide_eq_true hpoint⟩
  · rintro ⟨j, c, hji, hj, hpoint⟩
    exact ⟨c, List.mem_eraseIdx_iff_getElem?.mpr ⟨j, hji, hj⟩, decide_eq_true hpoint⟩

/-- A list that is not torn is the one of the last assignment. -/
theorem mayLeave_iff {L : List ℕ} (h : s.torn = false) :
    s.MayLeave L ↔ L = s.outputExtension := by
  rw [MayLeave, if_neg (by rw [h]; exact Bool.false_ne_true)]

/-- A torn list may be any. -/
theorem mayLeave_iff_of_torn {L : List ℕ} (h : s.torn = true) :
    s.MayLeave L ↔ ∀ x ∈ L, x < 2 ^ 32 := by
  rw [MayLeave, if_pos h]

theorem exists_mayLeave (s : SearchState) : ∃ L, s.MayLeave L := by
  cases h : s.torn with
  | true => exact ⟨[], (mayLeave_iff_of_torn h).mpr fun x hx => absurd hx List.not_mem_nil⟩
  | false => exact ⟨_, (mayLeave_iff h).mpr rfl⟩

theorem fault_apply_of_ne (h : e ≠ .fault) : (s.apply i a e).fault = s.fault := by
  cases e with
  | fault => exact absurd rfl h
  | _ => rfl

end SearchState

/-- At the start there is one activation. -/
theorem SearchState.eq_enter_of_init {proof : List ℕ} {q : ℕ}
    (ha : (SearchState.init q proof).activations[i]? = some a) :
    i = 0 ∧ a = .enter none q flagCell [] := by
  cases i with
  | zero => exact ⟨rfl, (Option.some.inj ha).symm⟩
  | succ i => exact absurd ha (by simp [SearchState.init])

/-! ## Activations keep their places -/

theorem getElem?_set_of_eq {β : Type*} {l : List β} {j : ℕ} {x y z : β} (hj : l[i]? = some x)
    (h : (l.set i y)[j]? = some z) : (j = i ∧ z = y) ∨ (j ≠ i ∧ l[j]? = some z) := by
  by_cases hji : j = i
  · subst hji
    have hlt : j < l.length := by
      by_contra hge
      rw [List.getElem?_eq_none (not_lt.mp hge)] at hj
      exact absurd hj (by simp)
    rw [List.getElem?_set_self hlt] at h
    exact Or.inl ⟨rfl, (Option.some.inj h).symm⟩
  · rw [List.getElem?_set_ne (Ne.symm hji)] at h
    exact Or.inr ⟨hji, h⟩

/-- An activation after the start of a task is an old one or the one just entered. -/
theorem SearchState.of_getElem?_startTask {t : Task} {x p j : ℕ} {c : Activation}
    (hc : (s.startTask k t x p).activations[j]? = some c) :
    s.activations[j]? = some c ∨
      (j = s.activations.length ∧ c = .enter (some t.creator) x p t.newExtensionBuild) := by
  rw [SearchState.activations_startTask, List.getElem?_append] at hc
  split at hc
  · exact Or.inl hc
  · next hlt =>
    have hj : j - s.activations.length = 0 := by
      by_contra hne
      rw [List.getElem?_eq_none (by simp; omega)] at hc
      exact absurd hc (by simp)
    rw [hj] at hc
    exact Or.inr ⟨by omega, (Option.some.inj hc).symm⟩

/-- An activation of the next state is an old one, the one that moved, or one that was
just entered. -/
theorem Step.activation_cases (h : Step F A s ℓ s') {j : ℕ} {c : Activation}
    (hc : s'.activations[j]? = some c) :
    s.activations[j]? = some c ∨
      (∃ a e answer, ℓ = .act j e ∧ s.activations[j]? = some a ∧
        a.advance F A (s.heap a.isRejected) answer = some (c, e)) ∨
      (∃ k t x p, ℓ = .start k x p ∧ s.tasks[k]? = some t ∧ j = s.activations.length ∧
        c = .enter (some t.creator) x p t.newExtensionBuild) := by
  cases h with
  | @act i a b e answer _ active answers advance =>
    rcases getElem?_set_of_eq active hc with ⟨rfl, rfl⟩ | ⟨-, hold⟩
    · exact Or.inr (Or.inl ⟨a, e, answer, rfl, active, advance⟩)
    · exact Or.inl hold
  | @start k x p t creator _ waiting created captured =>
    rcases SearchState.of_getElem?_startTask hc with hold | ⟨hj, rfl⟩
    · exact Or.inl hold
    · exact Or.inr (Or.inr ⟨k, t, x, p, rfl, waiting, hj, rfl⟩)

/-- Every activation stays where it is, with the parameters it was called with. -/
theorem Step.parameters (h : Step F A s ℓ s') {j : ℕ} {c : Activation}
    (hc : s.activations[j]? = some c) :
    ∃ c', s'.activations[j]? = some c' ∧ c'.argument = c.argument ∧
      c'.isRejected = c.isRejected ∧ c'.extensionBuild = c.extensionBuild ∧
      c'.creator = c.creator := by
  have hlt : j < s.activations.length := by
    by_contra hge
    rw [List.getElem?_eq_none (not_lt.mp hge)] at hc
    exact absurd hc (by simp)
  cases h with
  | @act i a b e answer _ active answers advance =>
    by_cases hji : j = i
    · subst hji
      rw [active] at hc
      obtain rfl := Option.some.inj hc
      exact ⟨b, List.getElem?_set_self hlt, (Activation.advanced_of_advance advance).parameters⟩
    · exact ⟨c, (List.getElem?_set_ne (Ne.symm hji)).trans hc, rfl, rfl, rfl, rfl⟩
  | @start k x p t creator _ waiting created captured =>
    exact ⟨c, (List.getElem?_append_left hlt).trans hc, rfl, rfl, rfl, rfl⟩

/-- A waiting task waits at the same place until some task starts. -/
theorem Step.getElem?_tasks (h : Step F A s (.act i e) s') {t : Task} (ht : s.tasks[k]? = some t) :
    s'.tasks[k]? = some t := by
  cases h with
  | act =>
    cases e with
    | spawn L prio =>
      exact (List.getElem?_append_left (List.getElem?_eq_some_iff.mp ht).1).trans ht
    | _ => exact ht

/-- A list that is torn stays so, whoever moves. -/
theorem Step.torn_of_true (h : Step F A s ℓ s') (ht : s.torn = true) : s'.torn = true := by
  cases h with
  | act => exact SearchState.torn_apply_of_true ht
  | start => exact ht

/-- Cells are only ever set, whoever moves. -/
theorem Step.heap_of_true (h : Step F A s ℓ s') {c : ℕ} (hc : s.heap c = true) :
    s'.heap c = true := by
  cases h with
  | act => exact SearchState.heap_apply_of_true hc
  | start => exact hc

end AFAnalyzer
