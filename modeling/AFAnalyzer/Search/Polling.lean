import AFAnalyzer.Search.CheckRejection
import AFAnalyzer.Search.Scenario

/-!
# How soon a set flag is noticed

The flag is polled on entry, before the loop, and at the end of the loop body.  The body
has a second way back to the loop condition: when the found set contains the query, it
continues, and `continue` jumps over the poll.  The loop condition then tests the value
of the last poll.

Once the flag is set, an activation that stands before a poll calls the solver no more,
and one that stands behind a poll calls it once more, unless it takes the `continue`
(`LateAbort`).  `lateCalls_iff` makes the second way back the whole difference: an
activation calls the solver at most once after the flag was set, if and only if it does
not continue from the answer of a call that it has started after the flag was set.
-/

namespace AFAnalyzer

/-- The activation takes the `continue` after a SAT call that it has started in the same
part of the run. -/
def LateAbort (i : ℕ) (ls : List Action) : Prop :=
  [.act i .callSolver, .act i .abort].Sublist ls

/-- The activation does not stand at the SAT call. -/
def NotCalling (s : SearchState) (i : ℕ) : Prop :=
  ∀ a, s.activations[i]? = some a → a.point ≠ .loopHead

/-- Behind a poll the local copy of the flag is unset. -/
def Activation.TmpUnset (a : Activation) : Prop :=
  a.point = .loopHead ∨ a.point = .answered → a.isRejectedTmp = false

variable {F : AF} {A R : VectorBitSet} {q : ℕ} {proof : List ℕ} {s s' s₁ s₂ : SearchState}
  {ℓ : Action} {ls ls₁ ls₂ : List Action} {i : ℕ} {flag : Bool} {answer : Option (ℕ → Bool)}
  {a b : Activation} {e : Effect}

/-! ## One activation -/

namespace Activation

/-- **The ways to the SAT call.**  When the flag is set, only `continue` leads there. -/
theorem Advanced.abort_of_loopHead (h : Advanced F A true answer a b e)
    (hb : b.point = .loopHead) : e = .abort := by
  cases h with
  | abort => rfl
  | cutOff _ _ _ _ point => exact absurd (point.symm.trans hb) nofun
  | armed _ unset => exact absurd unset (by simp)
  | again _ unset => exact absurd unset (by simp)
  | fault why same =>
    rw [same.2.2.2.2] at hb
    rcases why.point with h | h
    all_goals exact absurd (h.symm.trans hb) nofun
  | _ => exact absurd hb nofun

theorem Advanced.point_of_call (h : Advanced F A flag answer a b .callSolver) :
    a.point = .loopHead ∧ b.point = .answered := by
  cases h with
  | call point => exact ⟨point, rfl⟩

/-- Behind a `continue` with an unset copy of the flag stands the SAT call. -/
theorem Advanced.point_of_abort (h : Advanced F A flag answer a b .abort) (ha : a.TmpUnset) :
    b.point = .loopHead := by
  cases h with
  | abort point =>
    have htmp := ha (Or.inr point)
    simp [htmp]

theorem TmpUnset.advance (ha : a.TmpUnset) (h : Advanced F A flag answer a b e)
    (he : e ≠ .fault) : b.TmpUnset := by
  intro hb
  cases h with
  | cutOff _ _ _ _ point =>
    rw [point] at hb
    rcases hb with h | h
    all_goals cases h
  | armed => rfl
  | again => rfl
  | call point => exact ha (Or.inl point)
  | abort point => exact ha (Or.inr point)
  | fault => exact absurd rfl he
  | _ =>
    rcases hb with h | h
    all_goals cases h

end Activation

/-! ## One step of the region -/

/-- As long as nothing has failed, no activation is behind a poll with a set copy of the
flag. -/
def TmpsUnset (s : SearchState) : Prop :=
  s.fault = false → ∀ (i : ℕ) (a : Activation), s.activations[i]? = some a → a.TmpUnset

theorem TmpsUnset.step (hinv : TmpsUnset s) (h : Step F A s ℓ s') : TmpsUnset s' := by
  intro hrunning j c hc
  rcases h.activation_cases hc with hold | ⟨a, e, answer, rfl, ha, hadv⟩ |
    ⟨k, t, x, p, -, -, -, rfl⟩
  · refine hinv ?_ j c hold
    cases h with
    | act running => exact running
    | start running => exact running
  · cases h with
    | act running active answers advance =>
      refine (hinv running j a ha).advance (Activation.advanced_of_advance hadv) ?_
      rintro rfl
      exact absurd hrunning (by simp [SearchState.apply])
  · rintro (h | h)
    all_goals cases h

theorem TmpsUnset.run (h : Transition.Run (Step F A) (.init q proof) ls s) : TmpsUnset s := by
  refine h.invariant (fun _ _ _ hinv hstep => hinv.step hstep) ?_
  intro _ j c hc
  obtain ⟨-, rfl⟩ := SearchState.eq_enter_of_init hc
  rintro (h | h)
  all_goals cases h

/-- **Polls work.**  An activation whose flag is set and that does not stand at the SAT
call gets there by `continue` only. -/
theorem Step.notCalling (h : Step F A s ℓ s')
    (hset : ∀ a, s.activations[i]? = some a → s.heap a.isRejected = true)
    (hno : NotCalling s i) (hℓ : ℓ ≠ .act i .abort) :
    NotCalling s' i ∧ ℓ ≠ .act i .callSolver := by
  constructor
  · intro c hc hpoint
    rcases h.activation_cases hc with hold | ⟨a, e, answer, rfl, ha, hadv⟩ |
      ⟨k, t, x, p, -, -, -, rfl⟩
    · exact hno c hold hpoint
    · rw [hset a ha] at hadv
      exact hℓ (by rw [(Activation.advanced_of_advance hadv).abort_of_loopHead hpoint])
    · cases hpoint
  · rintro rfl
    cases h with
    | act running active answers advance =>
      exact hno _ active (Activation.advanced_of_advance advance).point_of_call.1

/-! ## Runs -/

/-- The parameters of an activation stay what they are. -/
theorem isRejected_of_run (h : Transition.Run (Step F A) s ls s')
    (ha : s.activations[i]? = some a) :
    ∃ b, s'.activations[i]? = some b ∧ b.isRejected = a.isRejected := by
  induction h generalizing a with
  | nil => exact ⟨a, ha, rfl⟩
  | cons first _ ih =>
    obtain ⟨b, hb, -, hpointer, -⟩ := first.parameters ha
    obtain ⟨c, hc, hsame⟩ := ih hb
    exact ⟨c, hc, hsame.trans hpointer⟩

/-- The flag of an activation that is known at the end of a run. -/
theorem heap_of_run (h : Transition.Run (Step F A) s ls s')
    (hb : s'.activations[i]? = some b) (hset : s.heap b.isRejected = true) :
    ∀ a, s.activations[i]? = some a → s.heap a.isRejected = true := by
  intro a ha
  obtain ⟨c, hc, hsame⟩ := isRejected_of_run h ha
  obtain rfl := Option.some.inj (hb.symm.trans hc)
  rw [← hsame]
  exact hset

/-- An activation that does not stand at the SAT call and never continues calls no more. -/
theorem not_mem_call (h : Transition.Run (Step F A) s ls s')
    (hb : s'.activations[i]? = some b) (hset : s.heap b.isRejected = true)
    (hno : NotCalling s i) (habort : .act i .abort ∉ ls) : .act i .callSolver ∉ ls := by
  induction h with
  | nil => exact List.not_mem_nil
  | @cons s t u ℓ ls first rest ih =>
    obtain ⟨hℓ, hrest⟩ := not_or.mp (fun h => habort (List.mem_cons.mpr h))
    obtain ⟨hnext, hcall⟩ :=
      first.notCalling (heap_of_run (.cons first rest) hb hset) hno (Ne.symm hℓ)
    have hlater := ih hb (first.heap_of_true hset) hnext hrest
    rw [List.mem_cons, not_or]
    exact ⟨Ne.symm hcall, hlater⟩

/-- **At most one call**, if no call that is started now ends in a `continue`. -/
theorem count_call_le_one (h : Transition.Run (Step F A) s ls s')
    (hb : s'.activations[i]? = some b) (hset : s.heap b.isRejected = true)
    (hlate : ¬ LateAbort i ls) : ls.count (.act i .callSolver) ≤ 1 := by
  induction h with
  | nil => exact Nat.zero_le 1
  | @cons s t u ℓ ls first rest ih =>
    by_cases hℓ : ℓ = .act i .callSolver
    · subst hℓ
      have habort : Action.act i .abort ∉ ls := fun hmem =>
        hlate ((List.singleton_sublist.mpr hmem).cons_cons _)
      have hno : NotCalling t i := by
        intro c hc hpoint
        cases first with
        | act running active answers advance =>
          rw [SearchState.activations_apply,
            List.getElem?_set_self (List.getElem?_eq_some_iff.mp active).1] at hc
          obtain rfl := Option.some.inj hc
          have hanswered := (Activation.advanced_of_advance advance).point_of_call.2
          exact absurd (hanswered.symm.trans hpoint) nofun
      have hnone := not_mem_call rest hb (first.heap_of_true hset) hno habort
      rw [List.count_cons_self, List.count_eq_zero.mpr hnone]
    · rw [List.count_cons_of_ne hℓ]
      exact ih hb (first.heap_of_true hset) fun hmem => hlate (hmem.cons _)

/-- An activation at the SAT call does not return without the call. -/
theorem mem_call_of_returned (h : Transition.Run (Step F A) s ls s')
    (ha : s.activations[i]? = some a) (hpoint : a.point = .loopHead)
    (hb : s'.activations[i]? = some b) (hret : b.point = .returned) :
    .act i .callSolver ∈ ls := by
  induction h with
  | nil =>
    obtain rfl := Option.some.inj (ha.symm.trans hb)
    exact absurd (hpoint.symm.trans hret) nofun
  | @cons s t u ℓ ls first rest ih =>
    cases first with
    | @act j c d e answer running active answers advance =>
      by_cases hji : j = i
      · subst hji
        obtain rfl := Option.some.inj (ha.symm.trans active)
        rw [Activation.advance_loopHead hpoint] at advance
        obtain ⟨-, rfl⟩ := Prod.mk.inj (Option.some.inj advance)
        exact List.mem_cons_self
      · exact List.mem_cons_of_mem _ (ih ((List.getElem?_set_ne hji).trans ha) hb)
    | start =>
      exact List.mem_cons_of_mem _
        (ih ((List.getElem?_append_left (List.getElem?_eq_some_iff.mp ha).1).trans ha) hb)

/-- **A late `continue` costs a call.** -/
theorem two_le_count_call (htmp : TmpsUnset s) (h : Transition.Run (Step F A) s ls s')
    (hb : s'.activations[i]? = some b) (hret : b.point = .returned) (hlate : LateAbort i ls) :
    2 ≤ ls.count (.act i .callSolver) := by
  obtain ⟨left, right, rfl, hcall, habort⟩ := List.cons_sublist_iff.mp hlate
  obtain ⟨before, after, rfl⟩ := List.append_of_mem (List.singleton_sublist.mp habort)
  obtain ⟨t, hleft, hright⟩ := h.split
  obtain ⟨u, hbefore, hafter⟩ := hright.split
  have hunset : TmpsUnset u := (hleft.append hbefore).invariant
    (fun _ _ _ hinv hstep => hinv.step hstep) htmp
  have hmem : .act i .callSolver ∈ after := by
    cases hafter with
    | cons first rest =>
      cases first with
      | act running active answers advance =>
        have hpoint := (Activation.advanced_of_advance advance).point_of_abort
          (hunset running i _ active)
        exact mem_call_of_returned rest
          (List.getElem?_set_self (List.getElem?_eq_some_iff.mp active).1) hpoint hb hret
  have hone := List.count_pos_iff.mpr hcall
  have htwo := List.count_pos_iff.mpr hmem
  rw [List.count_append, List.count_append, List.count_cons_of_ne (by simp)]
  omega

/-! ## A run with a late `continue` -/

/-- **Two calls in a row.**  An activation at the SAT call may be given a set that contains
the query, if the clauses allow it, and then it calls again without a poll. -/
theorem exists_abort_call (hin : SearchInput F A q) (hinv : SearchInv F A q s)
    (ha : s.activations[i]? = some a) (hpoint : a.point = .loopHead) {v : ℕ → Bool}
    (hans : a.nextSolver.SolverAnswers (some v)) (hq : q ∈ a.reduct.vector.filter v)
    (hatt : ¬ Dung.Attacks F.att (listArgs (a.reduct.vector.filter v)) q) :
    ∃ s' b, s'.activations[i]? = some b ∧ Transition.Run (LawfulStep F A) s
      [.act i .callSolver, .act i .abort, .act i .callSolver] s' := by
  have hok := hinv.activations i a ha
  have hi := (List.getElem?_eq_some_iff.mp ha).1
  have hrange := (hok.encoded (Or.inr (Or.inl hpoint))).reduct.range hin.range
  have hdecode : getSetFromSolver (a.called (some v)).solver (a.called (some v)).reduct =
      a.reduct.vector.filter v :=
    getSetFromSolver_eq rfl fun x hx => hin.coherent.id_range (hrange x hx)
  have hcall : LawfulStep F A s (.act i .callSolver) (s.put i (a.called (some v))) :=
    lawfulStep_act _ hinv.noFault ha (fun _ => hans) (Activation.advance_loopHead hpoint)
  let b : Activation :=
    { a.called (some v) with isFirstCalculation := false, point := .loopHead }
  have habort : LawfulStep F A (s.put i (a.called (some v))) (.act i .abort) (s.put i b) := by
    refine lawfulStep_put none hinv.noFault hi nofun ((Activation.advance_answered rfl).trans
      (congrArg some (Activation.onAnswer_abort rfl (hok.tmp (Or.inl hpoint)) ?_ ?_ ?_)))
    · rw [hdecode]
      exact List.ne_nil_of_mem hq
    · rw [hdecode, show (a.called (some v)).argument = q from hok.argument, ← Bool.not_eq_true,
        checkRejection_iff hin.coherent]
      exact hatt
    · rw [hdecode, show (a.called (some v)).argument = q from hok.argument,
        checkTerminateExtensionBuild_iff]
      exact hq
  obtain ⟨answer, hagain⟩ := Sat.exists_answer b.nextSolver.cadical.clauses
  have hlast : LawfulStep F A (s.put i b) (.act i .callSolver) (s.put i (b.called answer)) :=
    lawfulStep_put answer hinv.noFault hi (fun _ => hagain) (Activation.advance_loopHead rfl)
  exact ⟨_, _, SearchState.getElem?_put hi, .cons hcall (.cons habort (.single hlast))⟩

/-- **Two calls after the flag.**  Let a preferred extension omit the query without
attacking it, and let some admissible set contain the query.  The root may create a task
for the first and poll; the task sets the flag; then the root may find the second,
continue, and call the solver again. -/
theorem exists_lateCalls (hin : SearchInput F A q) {P T : Set ℕ}
    (hP : Dung.Preferred F.att A.args P) (hqP : q ∉ P) (hatt : ¬ Dung.Attacks F.att P q)
    (hT : Dung.Admissible F.att A.args T) (hqT : q ∈ T) (proof : List ℕ) :
    ∃ ls₁ s₁ s₂ a, Transition.Run (LawfulStep F A) (.init q proof) ls₁ s₁ ∧
      s₁.flag = true ∧ s₂.activations[0]? = some a ∧ Transition.Run (LawfulStep F A) s₁
        [.act 0 .callSolver, .act 0 .abort, .act 0 .callSolver] s₂ := by
  have hPT : ¬ P ⊆ T := fun hsub => hqP (hP.eq_of_subset hT hsub ▸ hqT)
  have hne : P.Nonempty := hP.nonempty hT ⟨q, hqT⟩
  -- the root creates a task for `P` and polls
  obtain ⟨R, b, prio, hR, hlist, hb, hrun₁⟩ := exists_spawn hin hP.admissible hne hqP hatt proof
  let t : Task := ⟨0, R.vector.filter (modelOf F P), prio⟩
  let b₁ : Activation := { b with isFirstCalculation := false, point := .pollLoop }
  let s₁ : SearchState := (SearchState.init q proof).apply 0 b₁ (.spawn t.newExtensionBuild prio)
  let b₂ : Activation := { b₁ with isRejectedTmp := false, point := .loopHead }
  let s₂ : SearchState := s₁.apply 0 b₂ .silent
  have hpoll : LawfulStep F A s₁ (.act 0 .silent) s₂ :=
    lawfulStep_act none rfl (rfl : _ = some b₁) nofun
      (Activation.advance_pollLoop_unset rfl hb.solution)
  have hrun₂ := hrun₁.snoc hpoll
  -- the task sets the flag
  obtain ⟨ls, c, -, hpointer, hrunc⟩ := exists_setFlag (s := s₂) (k := 0) (t := t) hin
    ((SearchInv.run hin hrun₁).tasks t (List.mem_singleton_self t)) hP hlist rfl rfl rfl
    (rfl : _ = some b₂) hb.argument hb.isRejected
  let s₃ : SearchState := (s₂.startTask 0 t q flagCell).apply 1 c .setFlag
  have hflag : s₃.flag = true := SearchState.flag_apply_setFlag hpointer
  have hinv := SearchInv.run hin (hrun₂.append hrunc)
  -- the clauses at the next call exclude `P` and allow `T`
  have hTR : Dung.Admissible F.att R.args T := by
    rw [hR.args, listArgs_nil, Dung.reduct_empty]
    exact hT
  have hfilter := (answers_modelOf hin hR hTR ⟨q, hqT⟩).2
  have hreductEq : b₂.reduct = R := hb.reduct
  have hanswer : b₂.nextSolver.SolverAnswers (some (modelOf F T)) := by
    have henc := (hinv.activations 0 b₂ rfl).encoded (Or.inr (Or.inl rfl))
    have hdecode := hb.hasModel.decode fun x hx =>
      hin.coherent.id_range (hR.range hin.range x hx)
    refine answers_second hin henc hb.solved ?_ ?_ ⟨q, hqT⟩ ?_
    · rw [hreductEq]
      exact hb.clauses
    · rwa [hreductEq]
    · show ¬ listArgs (getSetFromSolver b.solver b.reduct) ⊆ T
      rwa [hdecode, hlist]
  have hreduct : listArgs (b₂.reduct.vector.filter (modelOf F T)) = T := by
    rw [show b₂.reduct = R from hb.reduct]
    exact hfilter
  obtain ⟨s₄, a, ha, hrun₄⟩ := exists_abort_call (i := 0) hin hinv (rfl : _ = some b₂) rfl hanswer
    (by rwa [← mem_listArgs, hreduct])
    (by rw [hreduct]; exact hT.conflictFree.not_attacks hqT)
  exact ⟨_, s₃, s₄, a, hrun₂.append hrunc, hflag, ha, hrun₄⟩

/-- **How many SAT calls follow a set flag.**  Let the flag that an activation polls be set
at some point of a run.  If from there on the activation does not continue from the answer
of a call started after that point, it starts at most one call; and an activation that
returns has started at most one only if it has not continued so. -/
theorem lateCalls_iff (h₁ : Transition.Run (Step F A) (.init q proof) ls₁ s₁)
    (h₂ : Transition.Run (Step F A) s₁ ls₂ s₂) (ha : s₂.activations[i]? = some a)
    (hset : s₁.heap a.isRejected = true) :
    (¬ LateAbort i ls₂ → ls₂.count (.act i .callSolver) ≤ 1) ∧
      (a.point = .returned → (ls₂.count (.act i .callSolver) ≤ 1 ↔ ¬ LateAbort i ls₂)) := by
  refine ⟨count_call_le_one h₂ ha hset, fun hret => ⟨fun hle hlate => ?_,
    count_call_le_one h₂ ha hset⟩⟩
  have htwo := two_le_count_call (TmpsUnset.run h₁) h₂ ha hret hlate
  omega

theorem lateCalls_iff_choice :
    ∃ ls₁ s₁ ls₂ s₂ a,
      Transition.Run (Step choiceSearched choiceActive.toVectorBitSet) (.init 1 []) ls₁ s₁ ∧
      Transition.Run (Step choiceSearched choiceActive.toVectorBitSet) s₁ ls₂ s₂ ∧
      s₂.activations[0]? = some a ∧ s₁.heap a.isRejected = true ∧ a.point = .returned ∧
      (¬ LateAbort 0 ls₂ → ls₂.count (.act 0 .callSolver) ≤ 1) ∧
      (a.point = .returned → (ls₂.count (.act 0 .callSolver) ≤ 1 ↔ ¬ LateAbort 0 ls₂)) := by
  have hin := searchInput_choice
  obtain ⟨hP, hqP, hatt⟩ := choice_preferred_omitting
  obtain ⟨ls₁, s₁, s₂, a, hrun₁, hflag, ha, hrun₂⟩ :=
    exists_lateCalls hin hP hqP hatt choice_preferred_containing.admissible List.mem_cons_self []
  obtain ⟨ls₃, s₃, b, hrun₃, hb, hret, -⟩ :=
    exists_returned hin (SearchInv.run hin (hrun₁.append hrun₂)) ha
  have hpointer :=
    ((SearchInv.run hin ((hrun₁.append hrun₂).append hrun₃)).activations 0 b hb).isRejected
  have hset : s₁.heap b.isRejected = true := by
    rw [hpointer]
    exact hflag
  have h₁ := hrun₁.mono fun _ _ _ hstep => hstep.1
  have h₂ := (hrun₂.append hrun₃).mono fun _ _ _ hstep => hstep.1
  exact ⟨ls₁, s₁, _, s₃, b, h₁, h₂, hb, hset, hret, lateCalls_iff h₁ h₂ hb hset⟩

/-- In `choiceFramework` the root of the search for 1 may call its solver twice after the
flag was set. -/
theorem not_oneCall_choice :
    process choiceFramework.af 1 ⟨[], []⟩ =
        some (choiceSearched, .unknown, choiceActive.toVectorBitSet) ∧
      ¬ ∀ ls₁ s₁ ls₂ s₂ i,
        Transition.Run (LawfulStep choiceSearched choiceActive.toVectorBitSet)
            (.init 1 []) ls₁ s₁ →
          s₁.flag = true →
            Transition.Run (LawfulStep choiceSearched choiceActive.toVectorBitSet) s₁ ls₂ s₂ →
              ls₂.count (.act i .callSolver) ≤ 1 := by
  refine ⟨process_choice, fun hone => ?_⟩
  obtain ⟨hP, hqP, hatt⟩ := choice_preferred_omitting
  obtain ⟨ls₁, s₁, s₂, -, hrun₁, hflag, -, hrun₂⟩ :=
    exists_lateCalls searchInput_choice hP hqP hatt choice_preferred_containing.admissible
      List.mem_cons_self []
  exact absurd (hone ls₁ s₁ _ s₂ 0 hrun₁ hflag hrun₂) (by decide)

end AFAnalyzer
