import AFAnalyzer.Solver.Certificate
import AFAnalyzer.Solver.ProofExtension

/-!
# Everything that a call may report

The answer of `solve` is the same under every schedule, but the list it leaves is not: it
depends on the models that CaDiCaL finds and on who writes `output_extension` last.
`MayReturn` is what some choice of models and some schedule in which no two assignments to the
list overlap lead to.  `Solve` speaks of all schedules, and so also of these
(`Solve.of_mayReturn`).

`solve_outcomes` determines it.  A rejecting call may leave every admissible set of the
arguments left by preprocessing that attacks the query, and no other nonempty list; and it may
leave the list empty exactly when preprocessing decides the query or some preferred set of the
arguments left omits the query without attacking it.  There are schedules with overlapping
assignments exactly if the question is contended.
-/

namespace AFAnalyzer

open Dung.Branching

/-- Some schedule and some choice of models make `solve` return the answer and leave the list,
when it is called with an empty one, and no two assignments to the list overlap. -/
inductive MayReturn (F : AF) (q : ℕ) : Bool → List ℕ → Prop
  | accepted {F' : AF} {out : VectorBitSet}
      (decided : process F q ⟨[], []⟩ = some (F', .accepted, out)) : MayReturn F q true []
  | rejected {F' : AF} {out : VectorBitSet}
      (decided : process F q ⟨[], []⟩ = some (F', .rejected, out)) : MayReturn F q false []
  | searched {F' : AF} {out : VectorBitSet} {ls : List Action} {s : SearchState}
      (undecided : process F q ⟨[], []⟩ = some (F', .unknown, out))
      (run : Transition.Run (LawfulStep F' out) (.init q []) ls s) (finished : s.Finished)
      (whole : s.torn = false) :
      MayReturn F q (!s.flag) s.outputExtension

variable {F F' : AF} {A out : VectorBitSet} {q : ℕ} {answer : Bool} {L : List ℕ} {S : Set ℕ}
  {post : AF → Bool → List ℕ → Prop}

/-- What holds of every return holds of a possible one. -/
theorem Solve.of_mayReturn (h : Solve F q [] post) (hmay : MayReturn F q answer L) :
    ∃ F', post F' answer L := by
  obtain ⟨F', result, out, heq, hsolve⟩ := h
  cases hmay with
  | accepted decided =>
    obtain ⟨rfl, rfl, rfl⟩ : F' = _ ∧ result = _ ∧ out = _ := by simpa [heq] using decided
    exact ⟨_, hsolve⟩
  | rejected decided =>
    obtain ⟨rfl, rfl, rfl⟩ : F' = _ ∧ result = _ ∧ out = _ := by simpa [heq] using decided
    exact ⟨_, hsolve⟩
  | searched undecided run finished whole =>
    obtain ⟨rfl, rfl, rfl⟩ : F' = _ ∧ result = _ ∧ out = _ := by simpa [heq] using undecided
    exact ⟨_, CheckRejectionParallel.of_run hsolve run finished
      ((SearchState.mayLeave_iff whole).mpr rfl)⟩

/-- **The root alone may reject silently.**  If nothing but the empty set is admissible, the root
sets the flag and hands nothing over. -/
theorem exists_silent_root (hin : SearchInput F A q) (hP : Dung.Preferred F.att A.args ∅) :
    ∃ ls s, Transition.Run (LawfulStep F A) (.init q []) ls s ∧ s.Finished ∧
      s.flag = true ∧ s.torn = false ∧ s.outputExtension = [] := by
  rw [← listArgs_nil] at hP
  obtain ⟨R, hR⟩ := exists_isReduct hin.coherent hin.agrees []
  have hsize : ¬ R.vector.length < 2 := fun hsize =>
    List.not_mem_nil (hR.query_mem_of_small hin extensionOk_nil hsize hP subset_rfl)
  obtain ⟨c, hc, hrun⟩ := exists_firstAnswer (s := .init q []) (i := 0) hin hR hsize
    (answers_none hin hR hP) rfl rfl (rfl : _ = some (Activation.enter none q flagCell []))
  let b : Activation := { c with point := .leaving }
  let s₁ : SearchState := (SearchState.init q []).apply 0 b .setFlag
  have hset : LawfulStep F A ((SearchState.init q []).put 0 c) (.act 0 .setFlag) s₁ :=
    lawfulStep_put none rfl Nat.one_pos (fun h => absurd (hc.point.symm.trans h) nofun)
      ((Activation.advance_answered hc.point).trans (congrArg some hc.onAnswer_none))
  have hret : LawfulStep F A s₁ (.act 0 .ret) (s₁.apply 0 { b with point := .returned } .ret) :=
    lawfulStep_act none rfl (rfl : _ = some b) nofun (Activation.advance_leaving rfl)
  have hflag : s₁.flag = true := SearchState.flag_apply_setFlag hc.isRejected
  refine ⟨_, _, (hrun.snoc hset).snoc hret, ⟨rfl, rfl, fun a ha => ?_⟩, hflag, rfl, rfl⟩
  rw [List.mem_singleton.mp (ha : a ∈ [_])]

/-- **When the search may reject without a proof.** -/
theorem exists_empty_rejection_iff (hin : SearchInput F A q) :
    (∃ ls s, Transition.Run (LawfulStep F A) (.init q []) ls s ∧ s.Finished ∧
      s.flag = true ∧ s.torn = false ∧ s.outputExtension = []) ↔
    ∃ P, Dung.Preferred F.att A.args P ∧ q ∉ P ∧ ¬ Dung.Attacks F.att P q := by
  constructor
  · rintro ⟨ls, s, hrun, hfin, hflag, -, hout⟩
    rcases (RejectionInv.run hin hrun).reason hflag with hpref | ⟨i, a, ha, hpoint⟩ | hrejects
    · exact hpref
    · have hret := hfin.returned a (List.mem_of_getElem? ha)
      exact absurd (hpoint.symm.trans hret) nofun
    · rw [hout] at hrejects
      have hattacks := hrejects.2
      rw [listArgs_nil] at hattacks
      exact absurd hattacks Dung.not_attacks_empty
  · rintro ⟨P, hP, hqP, hatt⟩
    rcases P.eq_empty_or_nonempty with rfl | hne
    · exact exists_silent_root hin hP
    · exact exists_silent_rejection hin hP hqP hatt hne

/-- **Which lists the search may hand over.** -/
theorem exists_handed_iff (hin : SearchInput F A q) (hne : S.Nonempty) :
    (∃ ls s, Transition.Run (LawfulStep F A) (.init q []) ls s ∧ s.Finished ∧
      s.flag = true ∧ s.torn = false ∧ listArgs s.outputExtension = S) ↔
    Dung.Admissible F.att A.args S ∧ Dung.Attacks F.att S q := by
  constructor
  · rintro ⟨ls, s, hrun, -, -, -, rfl⟩
    refine (RejectionInv.run hin hrun).output.resolve_left fun hnil => ?_
    rw [hnil, listArgs_nil] at hne
    exact absurd hne Set.not_nonempty_empty
  · rintro ⟨hS, hatt⟩
    exact exists_rejection hin hS hatt []

/-- `exists_empty_rejection_iff` in the terms of the framework as given. -/
theorem WellFormed.exists_empty_rejection_iff (W : WellFormed) (hq : q ∈ W.af.args)
    (h : ProcessResult W.af q F' .unknown out) :
    (∃ ls s, Transition.Run (LawfulStep F' out) (.init q []) ls s ∧ s.Finished ∧
      s.flag = true ∧ s.torn = false ∧ s.outputExtension = []) ↔
    ∃ P, Dung.Preferred W.af.att (W.af.searchArgs q) P ∧ q ∉ P ∧
      ¬ Dung.Attacks W.af.att P q := by
  rw [AFAnalyzer.exists_empty_rejection_iff (h.searchInput W.coherent hq),
    h.att_eq W.coherent, W.args_eq_reduct hq h, AF.searchArgs]

/-- `exists_handed_iff` in the terms of the framework as given. -/
theorem WellFormed.exists_handed_iff (W : WellFormed) (hq : q ∈ W.af.args)
    (h : ProcessResult W.af q F' .unknown out) (hne : S.Nonempty) :
    (∃ ls s, Transition.Run (LawfulStep F' out) (.init q []) ls s ∧ s.Finished ∧
      s.flag = true ∧ s.torn = false ∧ listArgs s.outputExtension = S) ↔
    Dung.Admissible W.af.att (W.af.searchArgs q) S ∧ Dung.Attacks W.af.att S q := by
  rw [AFAnalyzer.exists_handed_iff (h.searchInput W.coherent hq) hne, h.att_eq W.coherent,
    W.args_eq_reduct hq h, AF.searchArgs]

/-- A call may reject through the result of preprocessing or through a run of the search. -/
theorem mayReturn_false_iff {result : PreProcResult}
    (hprocess : process F q ⟨[], []⟩ = some (F', result, out)) :
    MayReturn F q false L ↔ (result = .rejected ∧ L = []) ∨ (result = .unknown ∧
      ∃ ls s, Transition.Run (LawfulStep F' out) (.init q []) ls s ∧ s.Finished ∧
        s.flag = true ∧ s.torn = false ∧ s.outputExtension = L) := by
  constructor
  · intro hmay
    obtain ⟨answer, hanswer⟩ : ∃ answer, answer = false := ⟨false, rfl⟩
    rw [← hanswer] at hmay
    cases hmay with
    | accepted => exact Bool.noConfusion hanswer
    | rejected decided =>
      rw [hprocess, Option.some_inj, Prod.mk.injEq, Prod.mk.injEq] at decided
      exact Or.inl ⟨decided.2.1, rfl⟩
    | searched undecided run finished whole =>
      rw [hprocess, Option.some_inj, Prod.mk.injEq, Prod.mk.injEq] at undecided
      obtain ⟨rfl, rfl, rfl⟩ := undecided
      exact Or.inr ⟨rfl, _, _, run, finished, Bool.not_eq_eq_eq_not.mp hanswer, whole, rfl⟩
  · rintro (⟨rfl, rfl⟩ | ⟨rfl, ls, s, hrun, hfin, hflag, hwhole, rfl⟩)
    · exact .rejected hprocess
    · have hmay := MayReturn.searched hprocess hrun hfin hwhole
      rwa [hflag] at hmay

/-- An accepting call leaves the list empty. -/
theorem WellFormed.mayReturn_true_iff (W : WellFormed) (hq : q ∈ W.af.args) :
    MayReturn W.af q true L ↔ L = [] ∧ Dung.SkepticallyAccepted W.af.att W.af.args q := by
  have hfacts := W.solve_facts hq
  constructor
  · intro hmay
    obtain ⟨_, hend⟩ := hfacts.of_mayReturn hmay
    exact ⟨hend.accepted rfl, hend.answer_iff.mp rfl⟩
  · rintro ⟨rfl, haccepted⟩
    obtain ⟨F', result, out, hprocess, hsolve⟩ := hfacts
    cases result with
    | accepted => exact .accepted hprocess
    | rejected => exact absurd (hsolve.answer_iff.mpr haccepted) Bool.false_ne_true
    | unknown =>
      -- an accepting run has not torn the list
      have hin := (processResult_of_eq W.coherent hq hprocess).searchInput W.coherent hq
      obtain ⟨ls, s, hrun, -, hfin, hend⟩ := Transition.Settles.exists_end hsolve
      obtain ⟨L, hL⟩ := s.exists_mayLeave
      have hanswer : (!s.flag) = true := (hend L hL).answer_iff.mpr haccepted
      have hwhole : s.torn = false := by
        rw [← Bool.not_eq_true]
        intro htorn
        rw [(flag_iff hin hrun hfin).mpr (contended_of_torn hin hrun htorn).exists_preferred]
          at hanswer
        exact Bool.noConfusion hanswer
      have hnil := (hend _ ((SearchState.mayLeave_iff hwhole).mpr rfl)).accepted hanswer
      have hmay := MayReturn.searched hprocess hrun hfin hwhole
      rwa [hanswer, hnil] at hmay

theorem WellFormed.not_accepted_of_mayReturn (W : WellFormed) (hq : q ∈ W.af.args)
    (hmay : MayReturn W.af q false L) :
    ¬ Dung.SkepticallyAccepted W.af.att W.af.args q := by
  obtain ⟨_, hend⟩ := (W.solve_facts hq).of_mayReturn hmay
  exact fun haccepted => Bool.false_ne_true (hend.answer_iff.mpr haccepted)

/-- When a rejecting call may leave the list empty. -/
theorem WellFormed.mayReturn_empty_iff (W : WellFormed) (hq : q ∈ W.af.args) :
    MayReturn W.af q false [] ↔ ¬ Dung.SkepticallyAccepted W.af.att W.af.args q ∧
      (W.af.att q q ∨ q ∉ W.af.searchArgs q ∨
        ∃ P, Dung.Preferred W.af.att (W.af.searchArgs q) P ∧ q ∉ P ∧
          ¬ Dung.Attacks W.af.att P q) := by
  obtain ⟨F', result, out, hprocess, hres⟩ := process_spec W.coherent hq ⟨[], []⟩
  have hunknown := W.unknown_iff hq hres
  constructor
  · intro hmay
    refine ⟨W.not_accepted_of_mayReturn hq hmay, ?_⟩
    by_contra! hleft
    obtain ⟨hself, hmem, hattacks⟩ := hleft
    obtain rfl := hunknown.mpr ⟨hself, hmem⟩
    rcases (mayReturn_false_iff hprocess).mp hmay with ⟨hrejected, -⟩ | ⟨-, hrun⟩
    · exact PreProcResult.noConfusion hrejected
    · obtain ⟨P, hP, hqP, hnot⟩ := (W.exists_empty_rejection_iff hq hres).mp hrun
      exact hnot (hattacks P hP hqP)
  · rintro ⟨hrejected, hcases⟩
    rw [mayReturn_false_iff hprocess]
    cases result with
    | accepted =>
      exact absurd ((W.mayReturn_true_iff hq).mp (.accepted hprocess)).2 hrejected
    | rejected => exact Or.inl ⟨rfl, rfl⟩
    | unknown =>
      obtain ⟨hself, hmem⟩ := hunknown.mp rfl
      have hP := (hcases.resolve_left hself).resolve_left (not_not_intro hmem)
      exact Or.inr ⟨rfl, (W.exists_empty_rejection_iff hq hres).mpr hP⟩

/-- Which nonempty lists a rejecting call may leave. -/
theorem WellFormed.mayReturn_listArgs_iff (W : WellFormed) (hq : q ∈ W.af.args)
    (hne : S.Nonempty) :
    (∃ L, listArgs L = S ∧ MayReturn W.af q false L) ↔
      (¬ W.af.att q q ∧ q ∈ W.af.searchArgs q) ∧
        Dung.Admissible W.af.att (W.af.searchArgs q) S ∧ Dung.Attacks W.af.att S q := by
  obtain ⟨F', result, out, hprocess, hres⟩ := process_spec W.coherent hq ⟨[], []⟩
  rw [← W.unknown_iff hq hres]
  constructor
  · rintro ⟨L, rfl, hmay⟩
    rcases (mayReturn_false_iff hprocess).mp hmay with ⟨-, rfl⟩ | ⟨rfl, ls, s, hrun, hend⟩
    · rw [listArgs_nil] at hne
      exact absurd hne Set.not_nonempty_empty
    · obtain ⟨hfin, hflag, hwhole, rfl⟩ := hend
      have hS := (W.exists_handed_iff hq hres hne).mp ⟨ls, s, hrun, hfin, hflag, hwhole, rfl⟩
      exact ⟨rfl, hS⟩
  · rintro ⟨rfl, hS⟩
    obtain ⟨ls, s, hrun, hfin, hflag, hwhole, hlist⟩ :=
      (W.exists_handed_iff hq hres hne).mpr hS
    exact ⟨_, hlist, (mayReturn_false_iff hprocess).mpr
      (Or.inr ⟨rfl, ls, s, hrun, hfin, hflag, hwhole, rfl⟩)⟩

/-- When two assignments may overlap in a call. -/
theorem WellFormed.exists_torn_iff (W : WellFormed) (hq : q ∈ W.af.args) :
    (∃ F' out ls s, process W.af q ⟨[], []⟩ = some (F', .unknown, out) ∧
      Transition.Run (LawfulStep F' out) (.init q []) ls s ∧ s.Finished ∧ s.torn = true) ↔
    ¬ W.af.Uncontended q := by
  constructor
  · rintro ⟨F', out, ls, s, hprocess, hrun, -, htorn⟩ hsingle
    have hres := processResult_of_eq W.coherent hq hprocess
    obtain ⟨hself, hmem⟩ := (W.unknown_iff hq hres).mp rfl
    exact Bool.false_ne_true ((W.not_torn hq hres (hsingle hself hmem) hrun).symm.trans htorn)
  · intro hnot
    unfold AF.Uncontended at hnot
    push Not at hnot
    obtain ⟨hself, hmem, hcontended⟩ := hnot
    obtain ⟨F', result, out, hprocess, hres⟩ := process_spec W.coherent hq ⟨[], []⟩
    obtain rfl := (W.unknown_iff hq hres).mpr ⟨hself, hmem⟩
    rw [AF.searchArgs, ← W.args_eq_reduct hq hres, ← hres.att_eq W.coherent] at hcontended
    obtain ⟨ls, s, hrun, hfin, htorn⟩ :=
      (AFAnalyzer.exists_torn_iff (hres.searchInput W.coherent hq) []).mpr hcontended
    exact ⟨F', out, ls, s, hprocess, hrun, hfin, htorn⟩

/-- **Everything that a call may report.**  Under some models and some schedule in which each task
sees the argument and the flag of its creator and no two assignments to the list overlap, a call
with an empty list accepts exactly when the query is skeptically accepted, and then the list stays
empty.  It may reject with an empty list exactly when the query is not accepted and preprocessing
decides it or some preferred set of the arguments left omits the query without attacking it.  It may
leave a nonempty set exactly when the search is reached and the set is admissible among the
arguments left and attacks the query.  There are schedules of another kind exactly when the question
is contended. -/
theorem solve_outcomes (W : WellFormed) {q : ℕ} (h1 : 1 ≤ q) (hn : q ≤ W.n) :
    (∀ L, MayReturn W.af q true L ↔
      L = [] ∧ Dung.SkepticallyAccepted W.af.att W.af.args q) ∧
    (MayReturn W.af q false [] ↔ ¬ Dung.SkepticallyAccepted W.af.att W.af.args q ∧
      (W.af.att q q ∨ q ∉ W.af.searchArgs q ∨
        ∃ P, Dung.Preferred W.af.att (W.af.searchArgs q) P ∧ q ∉ P ∧
          ¬ Dung.Attacks W.af.att P q)) ∧
    (∀ S : Set ℕ, S.Nonempty → ((∃ L, listArgs L = S ∧ MayReturn W.af q false L) ↔
      (¬ W.af.att q q ∧ q ∈ W.af.searchArgs q) ∧
        Dung.Admissible W.af.att (W.af.searchArgs q) S ∧ Dung.Attacks W.af.att S q)) ∧
    ((∃ F' out ls s, process W.af q ⟨[], []⟩ = some (F', .unknown, out) ∧
      Transition.Run (LawfulStep F' out) (.init q []) ls s ∧ s.Finished ∧ s.torn = true) ↔
        ¬ W.af.Uncontended q) := by
  have hq : q ∈ W.af.args := WellFormed.mem_args h1 hn
  refine ⟨fun L => W.mayReturn_true_iff hq, W.mayReturn_empty_iff hq, ?_, W.exists_torn_iff hq⟩
  exact fun S hne => W.mayReturn_listArgs_iff hq hne

theorem solve_outcomes_choice :
    (∀ L, MayReturn choiceFramework.af 1 true L ↔ L = [] ∧
      Dung.SkepticallyAccepted choiceFramework.af.att choiceFramework.af.args 1) ∧
    (MayReturn choiceFramework.af 1 false [] ↔
      ¬ Dung.SkepticallyAccepted choiceFramework.af.att choiceFramework.af.args 1 ∧
      (choiceFramework.af.att 1 1 ∨ 1 ∉ choiceFramework.af.searchArgs 1 ∨
        ∃ P, Dung.Preferred choiceFramework.af.att (choiceFramework.af.searchArgs 1) P ∧
          1 ∉ P ∧ ¬ Dung.Attacks choiceFramework.af.att P 1)) ∧
    (∀ S : Set ℕ, S.Nonempty →
      ((∃ L, listArgs L = S ∧ MayReturn choiceFramework.af 1 false L) ↔
        (¬ choiceFramework.af.att 1 1 ∧ 1 ∈ choiceFramework.af.searchArgs 1) ∧
          Dung.Admissible choiceFramework.af.att (choiceFramework.af.searchArgs 1) S ∧
          Dung.Attacks choiceFramework.af.att S 1)) ∧
    ((∃ F' out ls s, process choiceFramework.af 1 ⟨[], []⟩ = some (F', .unknown, out) ∧
      Transition.Run (LawfulStep F' out) (.init 1 []) ls s ∧ s.Finished ∧ s.torn = true) ↔
        ¬ choiceFramework.af.Uncontended 1) :=
  solve_outcomes choiceFramework (by decide) (by decide)

end AFAnalyzer
