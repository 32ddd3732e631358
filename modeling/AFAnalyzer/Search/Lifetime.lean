import AFAnalyzer.Search.CheckRejection
import AFAnalyzer.Search.Scenario

/-!
# Tasks that outlive their creators

`argument` and `isRejected` reach the function by value, and the tasks that it creates
capture them as shared.  A task therefore reads the storage of its creator when it starts,
and nothing makes the creator wait: there is no `taskwait` before its returns.

`CreatorAlive` is what a start of a task relies on.  It holds in a run as long as no
activation returns while a task it has created still waits (`ReturnsLast`,
`CreatorAlive.of_run`).  The code does not see to that.  `creatorAlive_iff` says for which
inputs no run goes wrong: those for which no task is ever created.
-/

namespace AFAnalyzer

/-- If a task starts in this step, its creator has not returned, and the task reads the
values that the creator was called with. -/
def CreatorAlive (s : SearchState) : Action → Prop
  | .act _ _ => True
  | .start k argument isRejected =>
    ∀ t creator, s.tasks[k]? = some t → s.activations[t.creator]? = some creator →
      creator.point ≠ .returned ∧ argument = creator.argument ∧ isRejected = creator.isRejected

/-- If an activation returns in this step, no task that it has created waits. -/
def ReturnsLast (s : SearchState) : Action → Prop
  | .act i .ret => ∀ t ∈ s.tasks, t.creator ≠ i
  | _ => True

/-- A step that is not a premature return. -/
def PatientStep (F : AF) (A : VectorBitSet) (s : SearchState) (ℓ : Action) (t : SearchState) :
    Prop :=
  Step F A s ℓ t ∧ ReturnsLast s ℓ

/-- The creators of the waiting tasks have not returned. -/
def TasksOwned (s : SearchState) : Prop :=
  ∀ t ∈ s.tasks, ∃ creator, s.activations[t.creator]? = some creator ∧ creator.point ≠ .returned

variable {F : AF} {A : VectorBitSet} {q : ℕ} {proof : List ℕ} {s s' : SearchState} {ℓ : Action}
  {ls : List Action} {flag : Bool} {answer : Option (ℕ → Bool)} {a b : Activation} {e : Effect}

/-! ## Patient runs -/

namespace Activation

/-- Only the last step of an activation ends in `returned`. -/
theorem Advanced.ret_of_returned (h : Advanced F A flag answer a b e) (hb : b.point = .returned) :
    e = .ret := by
  cases h with
  | ret => rfl
  | cutOff _ _ _ _ point => exact absurd (point.symm.trans hb) nofun
  | abort =>
    have hpoint : (if a.isRejectedTmp = true then Point.leaving else .loopHead) = .returned := hb
    split at hpoint <;> cases hpoint
  | again =>
    have hpoint : (if a.hasSolution = true then Point.loopHead else .leaving) = .returned := hb
    split at hpoint <;> cases hpoint
  | fault why same =>
    rw [same.2.2.2.2] at hb
    rcases why.point with h | h
    all_goals exact absurd (h.symm.trans hb) nofun
  | _ => exact absurd hb nofun

/-- An activation that creates a task goes on. -/
theorem Advanced.not_returned_of_spawn {L : List ℕ} {prio : ℕ}
    (h : Advanced F A flag answer a b (.spawn L prio)) : b.point ≠ .returned := by
  intro hb
  exact absurd (h.ret_of_returned hb) nofun

end Activation

theorem tasksOwned_init : TasksOwned (.init q proof) := fun _ ht => absurd ht List.not_mem_nil

/-- **A step that is not a premature return keeps the creators alive.** -/
theorem TasksOwned.step (hinv : TasksOwned s) (h : PatientStep F A s ℓ s') : TasksOwned s' := by
  obtain ⟨hstep, hlast⟩ := h
  intro t ht
  cases hstep with
  | @act i a b e answer running active answers advance =>
    have hadv := Activation.advanced_of_advance advance
    have hi := (List.getElem?_eq_some_iff.mp active).1
    rcases SearchState.of_mem_tasks_apply ht with hold | ⟨L, prio, rfl, rfl⟩
    · obtain ⟨creator, hcreator, hpoint⟩ := hinv t hold
      by_cases hti : t.creator = i
      · refine ⟨b, ?_, fun hb => ?_⟩
        · rw [hti]
          exact List.getElem?_set_self hi
        · obtain rfl := hadv.ret_of_returned hb
          exact hlast t hold hti
      · exact ⟨creator, (List.getElem?_set_ne (Ne.symm hti)).trans hcreator, hpoint⟩
    · exact ⟨b, List.getElem?_set_self hi, hadv.not_returned_of_spawn⟩
  | @start k x p u creator running waiting created captured =>
    obtain ⟨c, hc, hpoint⟩ := hinv t (List.mem_of_mem_eraseIdx ht)
    exact ⟨c, (List.getElem?_append_left (List.getElem?_eq_some_iff.mp hc).1).trans hc, hpoint⟩

theorem TasksOwned.run (h : Transition.Run (PatientStep F A) (.init q proof) ls s) :
    TasksOwned s :=
  h.invariant (fun _ _ _ hinv hstep => hinv.step hstep) tasksOwned_init

theorem TasksOwned.creatorAlive (hinv : TasksOwned s) (h : Step F A s ℓ s') :
    CreatorAlive s ℓ := by
  cases h with
  | act => trivial
  | @start k x p t creator running waiting created captured =>
    intro u c hu hc
    obtain rfl := Option.some.inj (waiting.symm.trans hu)
    obtain rfl := Option.some.inj (created.symm.trans hc)
    obtain ⟨d, hd, hpoint⟩ := hinv t (List.mem_of_getElem? waiting)
    obtain rfl := Option.some.inj (created.symm.trans hd)
    exact ⟨hpoint, captured hpoint⟩

/-- **Runs without premature returns.**  As long as no activation has returned before all
its tasks have started, every task that starts next reads from an activation that has not
returned. -/
theorem CreatorAlive.of_run (hrun : Transition.Run (PatientStep F A) (.init q proof) ls s)
    (h : Step F A s ℓ s') : CreatorAlive s ℓ :=
  (TasksOwned.run hrun).creatorAlive h

/-! ## Runs with premature returns -/

/-- Where no set can be continued with, no task is ever created. -/
theorem tasks_eq_nil (hin : SearchInput F A q)
    (hnone : ∀ S, Dung.Admissible F.att A.args S → S.Nonempty → q ∈ S ∨ Dung.Attacks F.att S q)
    (h : Transition.Run (Step F A) (.init q proof) ls s) : SearchInv F A q s ∧ s.tasks = [] := by
  refine h.invariant (P := fun s => SearchInv F A q s ∧ s.tasks = []) ?_ ⟨searchInv_init, rfl⟩
  rintro s ℓ s' ⟨hinv, htasks⟩ hstep
  cases hstep with
  | start running waiting created captured =>
    rw [htasks] at waiting
    exact absurd waiting (by simp)
  | @act i a b e answer running active answers advance =>
    have hnext := hinv.step hin ⟨.act running active answers advance, trivial⟩
    refine ⟨hnext, List.eq_nil_iff_forall_not_mem.mpr fun t ht => ?_⟩
    rcases SearchState.of_mem_tasks_apply ht with hold | ⟨L, prio, rfl, rfl⟩
    · rw [htasks] at hold
      exact List.not_mem_nil hold
    · obtain ⟨hL, S, rfl, hfound⟩ := (hinv.activations i a active).spawned hin
        (Activation.advanced_of_advance advance)
      obtain ⟨x, hx⟩ := List.exists_mem_of_ne_nil _ hfound.nonempty
      rcases hnone _ hL.admissible ⟨x, mem_extendExtension.mpr (Or.inr hx)⟩ with hq | hq
      · exact hL.notMem hq
      · exact hL.notAttacked hq

/-- **A premature return.**  If some nonempty admissible set neither contains nor attacks
the query, the root may create a task for it and return; then the task may start, and what
it reads may be anything. -/
theorem exists_orphan (hin : SearchInput F A q) {S : Set ℕ} (hS : Dung.Admissible F.att A.args S)
    (hne : S.Nonempty) (hqS : q ∉ S) (hatt : ¬ Dung.Attacks F.att S q) (proof : List ℕ) :
    ∃ ls s t creator, Transition.Run (LawfulStep F A) (.init q proof) ls s ∧
      s.tasks[0]? = some t ∧ s.activations[t.creator]? = some creator ∧
      creator.point = .returned ∧
      ∀ x p, Step F A s (.start 0 x p) (s.startTask 0 t x p) := by
  obtain ⟨R, b, prio, -, -, -, hrun⟩ := exists_spawn hin hS hne hqS hatt proof
  let t : Task := ⟨0, R.vector.filter (modelOf F S), prio⟩
  obtain ⟨ls, s, c, hrun', hc, hret, hwaits⟩ :=
    exists_returned (i := 0) hin (SearchInv.run hin hrun) rfl
  have ht : s.tasks[0]? = some t := hwaits 0 t rfl
  have hinv := SearchInv.run hin (hrun.append hrun')
  refine ⟨_, s, t, c, hrun.append hrun', ht, hc, hret, fun x p => ?_⟩
  exact .start hinv.noFault ht hc fun hpoint => absurd hret hpoint

/-- Every start of a task in every run finds its creator alive, exactly when no run creates
a task. -/
theorem creatorAlive_of_input_iff (hin : SearchInput F A q) (proof : List ℕ) :
    (∀ ls s ℓ s', Transition.Run (Step F A) (.init q proof) ls s → Step F A s ℓ s' →
        CreatorAlive s ℓ) ↔
      ∀ S, Dung.Admissible F.att A.args S → S.Nonempty → q ∈ S ∨ Dung.Attacks F.att S q := by
  constructor
  · intro halive S hS hne
    by_contra hboth
    obtain ⟨hqS, hatt⟩ := not_or.mp hboth
    obtain ⟨ls, s, t, creator, hrun, ht, hcreator, hret, hstart⟩ :=
      exists_orphan hin hS hne hqS hatt proof
    have hread := halive ls s _ _ (hrun.mono fun _ _ _ h => h.1) (hstart q flagCell)
    exact (hread t creator ht hcreator).1 hret
  · intro hnone ls s ℓ s' hrun hstep
    obtain ⟨-, htasks⟩ := tasks_eq_nil hin hnone hrun
    refine TasksOwned.creatorAlive (fun t ht => ?_) hstep
    rw [htasks] at ht
    exact absurd ht List.not_mem_nil

/-- **When a task can rely on its creator.**  In every run in which no activation returns
while a task it has created waits, every task that starts reads the parameters of an
activation that has not returned.  Without that condition on the run this holds of all
runs only for the inputs for which every nonempty admissible set of the active arguments
contains or attacks the query. -/
theorem creatorAlive_iff (hin : SearchInput F A q) (proof : List ℕ) :
    (∀ ls s ℓ s', Transition.Run (PatientStep F A) (.init q proof) ls s → Step F A s ℓ s' →
        CreatorAlive s ℓ) ∧
      ((∀ ls s ℓ s', Transition.Run (Step F A) (.init q proof) ls s → Step F A s ℓ s' →
          CreatorAlive s ℓ) ↔
        ∀ S, Dung.Admissible F.att A.args S → S.Nonempty → q ∈ S ∨ Dung.Attacks F.att S q) :=
  ⟨fun _ _ _ _ hrun hstep => .of_run hrun hstep, creatorAlive_of_input_iff hin proof⟩

/-- A run that returns nowhere is patient. -/
theorem patient_of_no_ret (h : Transition.Run (LawfulStep F A) s ls s')
    (hls : ∀ i, .act i .ret ∉ ls) : Transition.Run (PatientStep F A) s ls s' := by
  induction h with
  | nil s => exact .nil s
  | @cons s t u ℓ ls first rest ih =>
    refine .cons ⟨first.1, ?_⟩ (ih fun i hi => hls i (List.mem_cons_of_mem ℓ hi))
    cases ℓ with
    | start => trivial
    | act i e =>
      cases e with
      | ret => exact absurd List.mem_cons_self (hls i)
      | _ => trivial

theorem creatorAlive_iff_choice :
    (∃ ls s s', Transition.Run (PatientStep choiceSearched choiceActive.toVectorBitSet)
        (.init 1 []) ls s ∧
      Step choiceSearched choiceActive.toVectorBitSet s (.start 0 1 flagCell) s' ∧
      CreatorAlive s (.start 0 1 flagCell)) ∧
    ((∀ ls s ℓ s',
        Transition.Run (Step choiceSearched choiceActive.toVectorBitSet) (.init 1 []) ls s →
          Step choiceSearched choiceActive.toVectorBitSet s ℓ s' → CreatorAlive s ℓ) ↔
      ∀ S, Dung.Admissible choiceSearched.att choiceActive.args S → S.Nonempty →
        1 ∈ S ∨ Dung.Attacks choiceSearched.att S 1) := by
  obtain ⟨hP, hquery, hatt⟩ := choice_preferred_omitting
  obtain ⟨halive, hinput⟩ := creatorAlive_iff searchInput_choice []
  obtain ⟨R, b, prio, -, -, hb, hrun⟩ :=
    exists_spawn searchInput_choice hP.admissible ⟨2, List.mem_singleton_self 2⟩ hquery hatt []
  have hpatient := patient_of_no_ret hrun (by simp)
  let t : Task := ⟨0, R.vector.filter (modelOf choiceSearched (Dung.members [2])), prio⟩
  let b₁ : Activation := { b with isFirstCalculation := false, point := .pollLoop }
  let s : SearchState := (SearchState.init 1 []).apply 0 b₁ (.spawn t.newExtensionBuild prio)
  have hstart : LawfulStep choiceSearched choiceActive.toVectorBitSet s (.start 0 1 flagCell)
      (s.startTask 0 t 1 flagCell) :=
    lawfulStep_start rfl rfl (rfl : _ = some b₁) hb.argument hb.isRejected
  exact ⟨⟨_, _, _, hpatient, hstart.1, halive _ _ _ _ hpatient hstart.1⟩, hinput⟩

/-- In `choiceFramework` the search for 1 may create a task for `{2}` whose creator returns
before it starts. -/
theorem not_creatorAlive_choice :
    process choiceFramework.af 1 ⟨[], []⟩ =
        some (choiceSearched, .unknown, choiceActive.toVectorBitSet) ∧
      ¬ ∀ ls s ℓ s',
        Transition.Run (Step choiceSearched choiceActive.toVectorBitSet) (.init 1 []) ls s →
          Step choiceSearched choiceActive.toVectorBitSet s ℓ s' → CreatorAlive s ℓ := by
  refine ⟨process_choice, fun halive => ?_⟩
  obtain ⟨hP, hquery, hatt⟩ := choice_preferred_omitting
  rcases (creatorAlive_of_input_iff searchInput_choice []).mp halive _ hP.admissible
    ⟨2, List.mem_singleton_self 2⟩ with h | h
  · exact hquery h
  · exact hatt h

end AFAnalyzer
