import AFAnalyzer.Solver.Preprocessing
import AFAnalyzer.Solver.ProofExtension

/-!
# What the list of a rejection is good for

A list that the search hands over is admissible among the arguments that preprocessing has
left, and need not be admissible in the framework as given (`solve_proof_iff`): its members
may rely on the grounded extension.  Together with the grounded extension of the cone it
is admissible, and every preferred extension has the grounded extension.  So the list is
a certificate all the same (`Certificate`): some preferred extension includes it, and none of
those that do contains the query.

That is said of lists that were assigned whole.  What two overlapping assignments leave certifies
nothing, and `solve_certificate` says for which queries there are none.
-/

namespace AFAnalyzer

open Dung.Branching

/-- The list certifies that `q` is rejected. -/
structure Certificate (F : AF) (q : ℕ) (L : List ℕ) : Prop where
  admissible : Dung.Admissible F.att F.args (F.groundedCone q ∪ listArgs L)
  attacks : Dung.Attacks F.att (listArgs L) q
  included : ∃ P, Dung.Preferred F.att F.args P ∧ listArgs L ⊆ P
  refutes : ∀ P, Dung.Preferred F.att F.args P → listArgs L ⊆ P → q ∉ P

variable {F' : AF} {q : ℕ} {out : VectorBitSet} {L : List ℕ} {ls : List Action} {s : SearchState}

/-- **A list that the search hands over is a certificate.** -/
theorem WellFormed.certificate (W : WellFormed) (hq : q ∈ W.af.args)
    (h : ProcessResult W.af q F' .unknown out) (hL : Rejects F' out q L) :
    Certificate W.af q L := by
  obtain ⟨hadm, hatt⟩ := hL
  rw [h.att_eq W.coherent] at hadm hatt
  have hunion := W.admissible_union hq h hadm
  obtain ⟨P, hsub, hP⟩ := Dung.exists_preferred_of_admissible hunion
  exact
    { admissible := hunion
      attacks := hatt
      included := ⟨P, hP, Set.subset_union_right.trans hsub⟩
      refutes := fun P hP hLP => hP.not_mem_of_attacks hLP hatt }

theorem Certificate.mem_args {F : AF} (h : Certificate F q L) : ∀ a ∈ L, a ∈ F.args :=
  fun _ ha => h.admissible.subset (Or.inr ha)

theorem Certificate.not_accepted {F : AF} (h : Certificate F q L) :
    ¬ Dung.SkepticallyAccepted F.att F.args q := by
  obtain ⟨P, hP, hLP⟩ := h.included
  exact fun haccepted => h.refutes P hP hLP (haccepted P hP)

/-- What a call with an empty list answers, and what it leaves in the list. -/
structure AnswerFacts (F : AF) (q : ℕ) (answer : Bool) (L : List ℕ) : Prop where
  answer_iff : answer = true ↔ Dung.SkepticallyAccepted F.att F.args q
  accepted : answer = true → L = []
  ids : ∀ x ∈ L, x < 2 ^ 32
  certificate : F.Uncontended q → L ≠ [] → Certificate F q L

/-- A list that is not torn. -/
theorem WellFormed.certificate_of_run (W : WellFormed) (hq : q ∈ W.af.args)
    (h : ProcessResult W.af q F' .unknown out)
    (hrun : Transition.Run (LawfulStep F' out) (.init q []) ls s)
    (hne : s.outputExtension ≠ []) : Certificate W.af q s.outputExtension :=
  W.certificate hq h
    ((RejectionInv.run (h.searchInput W.coherent hq) hrun).output.resolve_left hne)

/-- **Answer and list of a call.** -/
theorem WellFormed.solve_facts (W : WellFormed) (hq : q ∈ W.af.args) :
    Solve W.af q [] fun _ answer L => AnswerFacts W.af q answer L := by
  have hanswer := solve_coneSet W.coherent hq []
  rw [W.coneSet_eq] at hanswer
  have hcone := (W.attackClosed_cone hq).skepticallyAccepted_iff
    (Relation.ReflTransGen.refl : q ∈ W.af.cone q)
  rw [← hcone] at hanswer
  have hlist : Solve W.af q [] fun _ answer L =>
      (answer = true ↔ Dung.SkepticallyAccepted W.af.att W.af.args q) →
        AnswerFacts W.af q answer L := by
    have hnil : ∀ x ∈ ([] : List ℕ), x < 2 ^ 32 := fun x hx => absurd hx List.not_mem_nil
    obtain ⟨F', result, out, hproc, hres⟩ := process_spec W.coherent hq ⟨[], []⟩
    refine ⟨F', result, out, hproc, ?_⟩
    cases result with
    | accepted => exact fun hiff => ⟨hiff, fun _ => rfl, hnil, fun _ hne => absurd rfl hne⟩
    | rejected => exact fun hiff => ⟨hiff, fun _ => rfl, hnil, fun _ hne => absurd rfl hne⟩
    | unknown =>
      have hin := hres.searchInput W.coherent hq
      obtain ⟨hself, hmem⟩ := (W.unknown_iff hq hres).mp rfl
      refine checkRejectionParallel_of_forall hin fun ls s hrun hfin L hL hiff => ?_
      cases htorn : s.torn with
      | true =>
        -- the flag is set, whatever the list holds
        have hcontended := contended_of_torn hin hrun htorn
        have hflag := (flag_iff hin hrun hfin).mpr hcontended.exists_preferred
        rw [hres.att_eq W.coherent, W.args_eq_reduct hq hres] at hcontended
        refine ⟨hiff, fun hyes => ?_, (SearchState.mayLeave_iff_of_torn htorn).mp hL,
          fun hsingle => absurd hcontended (hsingle hself hmem)⟩
        rw [hflag] at hyes
        exact Bool.noConfusion hyes
      | false =>
        obtain rfl := (SearchState.mayLeave_iff htorn).mp hL
        have hcert := W.certificate_of_run hq hres hrun
        refine ⟨hiff, fun hyes => ?_, fun x hx => ?_, fun _ => hcert⟩
        · by_contra hne
          exact (hcert hne).not_accepted (hiff.mp hyes)
        · have hmem := (hcert (List.ne_nil_of_mem hx)).mem_args x hx
          exact lt_of_lt_of_le (W.coherent.id_range hmem).2 (by decide)
  exact (hanswer.and hlist).mono fun F' answer L hend => hend.2 hend.1

/-- **The list that `solve` leaves**, when each task sees the argument and the flag of its
creator.  An accepting call leaves an empty list empty.  In every run of the search in which no
two assignments to the list have overlapped, a nonempty list is, with the
grounded extension of the cone, admissible in the framework; it attacks the query; some preferred
extension of the framework includes it, and every one that does omits the query.  All runs are of
this kind, and so every nonempty list that a call may leave is such a certificate, if and only if
the question is not contended. -/
theorem solve_certificate (W : WellFormed) {q : ℕ} (h1 : 1 ≤ q) (hn : q ≤ W.n) :
    (Solve W.af q [] fun _ answer L => answer = true → L = []) ∧
    (∀ F' out ls s, process W.af q ⟨[], []⟩ = some (F', .unknown, out) →
      Transition.Run (LawfulStep F' out) (.init q []) ls s → s.torn = false →
        ∀ L, s.MayLeave L → L ≠ [] → Certificate W.af q L) ∧
    ((Solve W.af q [] fun _ _ L => L ≠ [] → Certificate W.af q L) ↔ W.af.Uncontended q) := by
  have hq : q ∈ W.af.args := WellFormed.mem_args h1 hn
  have hfacts := W.solve_facts hq
  refine ⟨hfacts.mono fun _ _ _ hend => hend.accepted, ?_, fun hsolve hself hmem => ?_,
    fun hsingle => hfacts.mono fun _ _ _ hend => hend.certificate hsingle⟩
  · intro F' out ls s hproc hrun hwhole L hL hne
    obtain rfl := (SearchState.mayLeave_iff hwhole).mp hL
    exact W.certificate_of_run hq (processResult_of_eq W.coherent hq hproc) hrun hne
  · obtain ⟨F', result, out, hproc, hres⟩ := process_spec W.coherent hq ⟨[], []⟩
    obtain rfl := (W.unknown_iff hq hres).mpr ⟨hself, hmem⟩
    intro hcontended
    rw [AF.searchArgs, ← W.args_eq_reduct hq hres] at hcontended
    have hcert := hsolve.of_contended W.coherent hq hproc hcontended (L := [0]) (by decide)
      (List.cons_ne_nil 0 [])
    exact Nat.not_succ_le_zero 0 (hcert.mem_args 0 List.mem_cons_self).1

theorem solve_certificate_choice :
    (Solve choiceFramework.af 1 [] fun _ answer L => answer = true → L = []) ∧
    (∀ F' out ls s, process choiceFramework.af 1 ⟨[], []⟩ = some (F', .unknown, out) →
      Transition.Run (LawfulStep F' out) (.init 1 []) ls s → s.torn = false →
        ∀ L, s.MayLeave L → L ≠ [] → Certificate choiceFramework.af 1 L) ∧
    ((Solve choiceFramework.af 1 [] fun _ _ L => L ≠ [] → Certificate choiceFramework.af 1 L) ↔
      choiceFramework.af.Uncontended 1) :=
  solve_certificate choiceFramework (by decide) (by decide)

end AFAnalyzer
