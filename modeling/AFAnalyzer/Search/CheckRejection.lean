import AFAnalyzer.Dung.Decidable
import AFAnalyzer.Logic.PreProcessor
import AFAnalyzer.Search.Termination

/-!
# `check_rejection_parallel`

The function clears the flag, opens the parallel region, runs the search in it and
returns the flag.  `CheckRejectionParallel F A q proof post` says that it returns under
every schedule in which each task sees the argument and the flag of its creator, and under
every choice of models, and that whatever it returns, together with whatever list it may leave
in `proof_extension`, satisfies `post`.

`checkRejectionParallel_iff` is its specification: the result tells whether the
framework restricted to the active arguments has a preferred set without the query.
The right-hand side does not mention schedules, cores or models, so neither does the
result.
-/

namespace AFAnalyzer

/-- `check_rejection_parallel` returns under every schedule in which each task sees the
argument and the flag of its creator, and what it returns and may leave behind satisfies
`post`.  The number of cores bounds how many threads the region has; every schedule of any
number of threads is a run. -/
def CheckRejectionParallel (F : AF) (activeArgs : VectorBitSet) (argument : ℕ)
    (proofExtension : List ℕ) (post : Bool → List ℕ → Prop) : Prop :=
  Transition.Settles (LawfulStep F activeArgs) (.init argument proofExtension) fun s =>
    s.Finished ∧ ∀ output, s.MayLeave output → post s.flag output

variable {F : AF} {A : VectorBitSet} {q : ℕ} {proof : List ℕ} {post post' : Bool → List ℕ → Prop}
  {ls : List Action} {s : SearchState} {L : List ℕ}

/-- What every schedule ends with holds at the end of a given one. -/
theorem CheckRejectionParallel.of_run (h : CheckRejectionParallel F A q proof post)
    (hrun : Transition.Run (LawfulStep F A) (.init q proof) ls s) (hfin : s.Finished)
    (hL : s.MayLeave L) : post s.flag L :=
  (h.ends ls s hrun fun _ _ hstep => hfin.stuck hstep.1).2 L hL

/-- To establish a postcondition it suffices to look at the finished states of runs. -/
theorem checkRejectionParallel_of_forall (hin : SearchInput F A q)
    (h : ∀ ls s, Transition.Run (LawfulStep F A) (.init q proof) ls s → s.Finished →
      ∀ L, s.MayLeave L → post s.flag L) : CheckRejectionParallel F A q proof post :=
  (settles hin proof).mono fun ls s hrun hend => ⟨hend.1, h ls s hrun hend.1⟩

/-- The inputs that the code's callers promise. -/
theorem WellFormed.searchInput (W : WellFormed) (A : ActiveArgs W.n) {q : ℕ}
    (hq : q ∈ A.vector) (hself : ¬ W.af.att q q) : SearchInput W.af A.toVectorBitSet q where
  coherent := W.coherent
  agrees := A.matches_af
  range := A.mem_args
  query_mem := hq
  notSelf := hself

/-- The search after an undecided preprocessing is called as it should be. -/
theorem Undecided.searchInput {C : Set ℕ} (h : Undecided F q C A) (hF : F.Coherent) {d : List ℕ}
    (hd : d.length = F.numArgs + 1) :
    SearchInput { F with distanceToQuery := d } A q where
  coherent := hF.withDistance hd
  agrees := h.agrees
  range := h.range
  query_mem := h.query_mem
  notSelf := h.notSelf

theorem ProcessResult.searchInput {F' : AF} (h : ProcessResult F q F' .unknown A) (hF : F.Coherent)
    (hq : q ∈ F.args) : SearchInput F' A q := by
  obtain ⟨d, hd, rfl⟩ := h.framework hF
  exact (h.undecided hF hq).searchInput hF hd

/-- **`check_rejection_parallel` decides the query**: it returns, and it returns true
exactly when the framework restricted to the active arguments has a preferred extension
without the query. -/
theorem checkRejectionParallel_iff (W : WellFormed) (A : ActiveArgs W.n) {q : ℕ}
    (hq : q ∈ A.vector) (hself : ¬ W.af.att q q) (proof : List ℕ) :
    CheckRejectionParallel W.af A.toVectorBitSet q proof fun result _ =>
      (result = true ↔ ∃ P, Dung.Preferred W.af.att A.args P ∧ q ∉ P) :=
  (settles (W.searchInput A hq hself) proof).mono fun _ _ _ hend =>
    ⟨hend.1, fun _ _ => hend.2⟩

/-- All four arguments of `choiceFramework`, in the order of the cone of the query 1. -/
def choiceActive : ActiveArgs choiceFramework.n where
  toVectorBitSet := VectorBitSet.ofList 4 [1, 3, 4, 2]
  agrees := VectorBitSet.matches_ofList (by decide) (by decide)
  pos := by decide

/-- What preprocessing makes of `choiceFramework` for the query 1. -/
def choiceSearched : AF := { choiceFramework.af with distanceToQuery := [0, 0, 3, 1, 2] }

theorem process_choice : process choiceFramework.af 1 ⟨[], []⟩ =
    some (choiceSearched, .unknown, choiceActive.toVectorBitSet) := by decide

theorem searchInput_choice : SearchInput choiceSearched choiceActive.toVectorBitSet 1 :=
  (processResult_of_eq choiceFramework.coherent (by decide) process_choice).searchInput
    choiceFramework.coherent (by decide)

/-- The preferred extension `{2}` neither contains nor attacks the query 1. -/
theorem choice_preferred_omitting :
    Dung.Preferred choiceSearched.att choiceActive.args (Dung.members [2]) ∧
      1 ∉ Dung.members [2] ∧ ¬ Dung.Attacks choiceSearched.att (Dung.members [2]) 1 := by
  have hpref : Dung.Preferred choiceSearched.att (Dung.members [1, 3, 4, 2])
      (Dung.members [2]) := by decide
  refine ⟨hpref, by simp [Dung.members], ?_⟩
  rintro ⟨a, ha, hatt⟩
  rw [List.mem_singleton.mp ha] at hatt
  exact absurd hatt (by decide)

/-- The preferred extension `{1, 4}` contains it. -/
theorem choice_preferred_containing :
    Dung.Preferred choiceSearched.att choiceActive.args (Dung.members [1, 4]) := by
  have hpref : Dung.Preferred choiceSearched.att (Dung.members [1, 3, 4, 2])
      (Dung.members [1, 4]) := by decide
  exact hpref

/-- In what preprocessing leaves of `prunedFramework`, `{2}` is a preferred extension that does
not attack the query 1. -/
theorem pruned_preferred_omitting :
    Dung.Preferred prunedFramework.af.att prunedOut.args {2} ∧
      ¬ Dung.Attacks prunedFramework.af.att {2} 1 := by
  have hpref : Dung.Preferred prunedFramework.af.att (Dung.members [1, 3, 4, 2])
      (Dung.members [2]) := by decide
  have hmembers : Dung.members [2] = ({2} : Set ℕ) := Set.ext fun _ => List.mem_singleton
  rw [hmembers] at hpref
  refine ⟨hpref, ?_⟩
  rintro ⟨a, rfl, hatt⟩
  exact absurd hatt (by decide)

theorem checkRejectionParallel_iff_choice :
    CheckRejectionParallel choiceFramework.af choiceActive.toVectorBitSet 1 [] fun result _ =>
      (result = true ↔
        ∃ P, Dung.Preferred choiceFramework.af.att choiceActive.args P ∧ 1 ∉ P) :=
  checkRejectionParallel_iff choiceFramework choiceActive (by decide) (by decide) []

end AFAnalyzer
