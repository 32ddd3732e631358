import AFAnalyzer.Search.CheckRejection

/-!
# `Solver_DS_PR::solve`

Preprocessing, and for an undecided query the parallel search, whose result is negated.
`Solve F q proof post` says that the call returns under every schedule (each task seeing the
argument and the flag of its creator) and every choice of models, and that the framework it
leaves, its answer and whatever its `proof_extension` may contain always satisfy `post`.

`solve_coneSet` reduces a call on a framework with arbitrary distances to the verdict
on the cone that the traversal finds.  On a fresh framework that is the verdict of the
framework, and the solver is correct (`solve_iff`).
-/

namespace AFAnalyzer

/-- `Solver_DS_PR::solve` returns under every schedule in which each task sees the argument and
the flag of its creator, and the framework it leaves, its answer and its output satisfy `post`. -/
def Solve (F : AF) (argument : ℕ) (proofExtension : List ℕ) (post : AF → Bool → List ℕ → Prop) :
    Prop :=
  ∃ F' result initialReduct, process F argument ⟨[], []⟩ = some (F', result, initialReduct) ∧
    match result with
    | .accepted => post F' true proofExtension
    | .rejected => post F' false proofExtension
    | .unknown => CheckRejectionParallel F' initialReduct argument proofExtension
        fun isRejected output => post F' (!isRejected) output

variable {F F' : AF} {q : ℕ} {proof : List ℕ}
  {post post' facts : AF → Bool → List ℕ → Prop}

theorem Solve.mono (h : Solve F q proof post)
    (himp : ∀ F' answer output, post F' answer output → post' F' answer output) :
    Solve F q proof post' := by
  obtain ⟨F', result, out, heq, hsolve⟩ := h
  refine ⟨F', result, out, heq, ?_⟩
  cases result with
  | accepted => exact himp _ _ _ hsolve
  | rejected => exact himp _ _ _ hsolve
  | unknown =>
    exact hsolve.mono fun _ s _ hend => ⟨hend.1, fun L hL => himp _ _ _ (hend.2 L hL)⟩

/-- Two postconditions of one call hold together. -/
theorem Solve.and (h : Solve F q proof post) (h' : Solve F q proof post') :
    Solve F q proof fun F' answer output => post F' answer output ∧ post' F' answer output := by
  obtain ⟨F', result, out, heq, hsolve⟩ := h
  obtain ⟨F'', result', out', heq', hsolve'⟩ := h'
  rw [heq, Option.some_inj, Prod.mk.injEq, Prod.mk.injEq] at heq'
  obtain ⟨rfl, rfl, rfl⟩ := heq'
  refine ⟨F', result, out, heq, ?_⟩
  cases result with
  | accepted => exact ⟨hsolve, hsolve'⟩
  | rejected => exact ⟨hsolve, hsolve'⟩
  | unknown =>
    exact Transition.Settles.mono hsolve fun _ s hrun hend =>
      ⟨hend.1, fun L hL => ⟨hend.2 L hL, CheckRejectionParallel.of_run hsolve' hrun hend.1 hL⟩⟩

/-- A call that returns under every schedule returns under one. -/
theorem Solve.exists (h : Solve F q proof post) : ∃ F' answer output, post F' answer output := by
  obtain ⟨F', result, out, -, hsolve⟩ := h
  cases result with
  | accepted => exact ⟨F', true, proof, hsolve⟩
  | rejected => exact ⟨F', false, proof, hsolve⟩
  | unknown =>
    obtain ⟨ls, s, -, -, hend⟩ := Transition.Settles.exists_end hsolve
    obtain ⟨L, hL⟩ := s.exists_mayLeave
    exact ⟨F', !s.flag, L, hend.2 L hL⟩

/-- Postconditions that agree where the call can end are interchangeable. -/
theorem Solve.congr (hfacts : Solve F q proof facts)
    (h : ∀ F' answer output, facts F' answer output →
      (post F' answer output ↔ post' F' answer output)) :
    Solve F q proof post ↔ Solve F q proof post' := by
  constructor
  · intro hsolve
    exact (hfacts.and hsolve).mono fun F' answer output hend => (h _ _ _ hend.1).mp hend.2
  · intro hsolve
    exact (hfacts.and hsolve).mono fun F' answer output hend => (h _ _ _ hend.1).mpr hend.2

/-- Sceptical acceptance, as the search sees it. -/
theorem not_exists_omitting_iff {att : ℕ → ℕ → Prop} {A : Set ℕ} :
    (¬ ∃ P, Dung.Preferred att A P ∧ q ∉ P) ↔ Dung.SkepticallyAccepted att A q := by
  rw [← Dung.not_skepticallyAccepted_iff, not_not]

/-- **What a call answers, whatever distances an earlier call has left**: the verdict on
the cone that its traversal finds. -/
theorem solve_coneSet (hF : F.Coherent) (hq : q ∈ F.args) (proof : List ℕ) :
    Solve F q proof fun _ answer _ =>
      (answer = true ↔ Dung.SkepticallyAccepted F.att (coneSet F q F.distanceToQuery) q) := by
  obtain ⟨F', result, out, heq, hres⟩ := process_spec hF hq ⟨[], []⟩
  refine ⟨F', result, out, heq, ?_⟩
  have hverdict := hres.skepticallyAccepted_iff hF hq
  cases result with
  | accepted => exact iff_of_true rfl (hverdict.mpr trivial)
  | rejected => exact iff_of_false Bool.false_ne_true hverdict.mp
  | unknown =>
    have hin := hres.searchInput hF hq
    have hatt : F'.att = F.att := hres.att_eq hF
    refine checkRejectionParallel_of_forall hin fun ls s hrun hfin _ _ => ?_
    have hflag := flag_iff hin hrun hfin
    rw [hverdict, PreProcResult.Verdict, ← not_exists_omitting_iff, ← hatt, ← hflag]
    simp

/-- **The solver is correct.**  For every well-formed framework and every query, `solve`
returns, and it returns true exactly when the query belongs to every preferred extension
of the framework. -/
theorem solve_iff (W : WellFormed) {q : ℕ} (h1 : 1 ≤ q) (hn : q ≤ W.n) (proof : List ℕ) :
    Solve W.af q proof fun _ answer _ =>
      (answer = true ↔ Dung.SkepticallyAccepted W.af.att W.af.args q) := by
  have hq : q ∈ W.af.args := WellFormed.mem_args h1 hn
  have hsolve := solve_coneSet W.coherent hq proof
  rw [W.coneSet_eq] at hsolve
  have hcone := (W.attackClosed_cone hq).skepticallyAccepted_iff
    (Relation.ReflTransGen.refl : q ∈ W.af.cone q)
  rwa [← hcone] at hsolve

theorem solve_iff_choice :
    Solve choiceFramework.af 1 [] fun _ answer _ =>
      (answer = true ↔
        Dung.SkepticallyAccepted choiceFramework.af.att choiceFramework.af.args 1) :=
  solve_iff choiceFramework (by decide) (by decide) []

end AFAnalyzer
