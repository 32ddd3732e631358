import AFAnalyzer.Search.HandOver

/-!
# The list that a rejection leaves behind

`proof_extension` is documented as the extension that proves the rejection.  Three exits of
the recursion set the flag, and only one of them writes the list: the exit taken when a
found set attacks the query.  The exits taken when a reduct has only the empty admissible
set have a proof in hand as well, the extension built so far, and drop it.

`ProofWitness` is what the documentation promises, relative to the active arguments.
`proofWitness_iff` says exactly when the search keeps the promise under all schedules (each task
sees the argument and the flag of its creator) and models.  It breaks it in two ways.  When the
query is in some preferred extension and some other preferred extension omits the query without
attacking it, the search may reject through that extension and leave the list empty
(`exists_silent_rejection`).  When the question is contended, two assignments to the list may
overlap, and what they leave need not be a proof (`exists_torn_rejection`).
-/

namespace AFAnalyzer

open Dung.Branching

/-- The list is admissible among the active arguments, and every preferred extension that
includes it omits the query. -/
def ProofWitness (F : AF) (A : VectorBitSet) (q : ℕ) (L : List ℕ) : Prop :=
  Dung.Admissible F.att A.args (listArgs L) ∧
    ∀ P, Dung.Preferred F.att A.args P → listArgs L ⊆ P → q ∉ P

variable {F : AF} {A : VectorBitSet} {q : ℕ} {L : List ℕ} {P : Set ℕ}

/-- A list that attacks the query proves the rejection. -/
theorem Rejects.proofWitness (h : Rejects F A q L) : ProofWitness F A q L :=
  ⟨h.1, fun _ hP hLP => hP.not_mem_of_attacks hLP h.2⟩

/-- The empty list proves a rejection only if no preferred extension has the query. -/
theorem proofWitness_nil_iff :
    ProofWitness F A q [] ↔ ∀ P, Dung.Preferred F.att A.args P → q ∉ P := by
  rw [ProofWitness, listArgs_nil]
  constructor
  · exact fun h P hP => h.2 P hP (Set.empty_subset P)
  · exact fun h => ⟨Dung.admissible_empty, fun P hP _ => h P hP⟩

/-- **A rejection that proves nothing.**  If a preferred extension omits the query
without attacking it, and is not empty, some schedule rejects the query and leaves an
empty list. -/
theorem exists_silent_rejection (hin : SearchInput F A q)
    (hP : Dung.Preferred F.att A.args P) (hqP : q ∉ P) (hatt : ¬ Dung.Attacks F.att P q)
    (hne : P.Nonempty) :
    ∃ ls s, Transition.Run (LawfulStep F A) (.init q []) ls s ∧ s.Finished ∧
      s.flag = true ∧ s.torn = false ∧ s.outputExtension = [] := by
  have hF := hin.coherent
  -- the root: the solver answers with `P`
  obtain ⟨R, b, prio, hR, hlist, hb, hrun₁⟩ :=
    exists_spawn hin hP.admissible hne hqP hatt []
  let t : Task := ⟨0, R.vector.filter (modelOf F P), prio⟩
  let b₁ : Activation := { b with isFirstCalculation := false, point := .pollLoop }
  let s₁ : SearchState := (SearchState.init q []).apply 0 b₁ (.spawn t.newExtensionBuild prio)
  -- the task, whose reduct has only the empty admissible set
  obtain ⟨ls, c, hc, hpointer, hrunc⟩ := exists_setFlag (s := s₁) (k := 0) (t := t) hin
    ((SearchInv.run hin hrun₁).tasks t (List.mem_singleton_self t)) hP hlist rfl rfl rfl
    (rfl : _ = some b₁) hb.argument hb.isRejected
  let s₃ : SearchState := (s₁.startTask 0 t q flagCell).apply 1 c .setFlag
  have hflag : s₃.flag = true := SearchState.flag_apply_setFlag hpointer
  -- both return
  let s₄ : SearchState := s₃.apply 1 { c with point := .returned } .ret
  have hstep₄ : LawfulStep F A s₃ (.act 1 .ret) s₄ :=
    lawfulStep_act none rfl (rfl : _ = some c) (fun h => absurd (hc.symm.trans h) nofun)
      (Activation.advance_leaving hc)
  let b₂ : Activation := { b₁ with isRejectedTmp := true, point := .leaving }
  let s₅ : SearchState := s₄.apply 0 b₂ .silent
  have hstep₅ : LawfulStep F A s₄ (.act 0 .silent) s₅ := by
    refine lawfulStep_act none rfl (rfl : _ = some b₁) nofun ?_
    have hcell : s₄.heap b₁.isRejected = true := by
      rw [show b₁.isRejected = flagCell from hb.isRejected]
      exact hflag
    rw [hcell, Activation.advance_pollLoop rfl]
  let s₆ : SearchState := s₅.apply 0 { b₂ with point := .returned } .ret
  have hstep₆ : LawfulStep F A s₅ (.act 0 .ret) s₆ :=
    lawfulStep_act none rfl (rfl : _ = some b₂) nofun (Activation.advance_leaving rfl)
  refine ⟨_, s₆, (hrun₁.append hrunc).append (.cons hstep₄ (.cons hstep₅ (.single hstep₆))),
    ⟨rfl, rfl, ?_⟩, hflag, rfl, rfl⟩
  intro a ha
  rcases List.mem_cons.mp (ha : a ∈ [_, _]) with rfl | ha
  · rfl
  · rw [List.mem_singleton.mp ha]

/-- **A rejection through a given set.**  Every admissible set that attacks the query is
handed over under some schedule. -/
theorem exists_rejection (hin : SearchInput F A q) {S : Set ℕ}
    (hS : Dung.Admissible F.att A.args S) (hatt : Dung.Attacks F.att S q) (proof : List ℕ) :
    ∃ ls s, Transition.Run (LawfulStep F A) (.init q proof) ls s ∧ s.Finished ∧
      s.flag = true ∧ s.torn = false ∧ listArgs s.outputExtension = S := by
  obtain ⟨R, b₁, ls, hR, hlist, hpointer, hext, hset, hpoint, hrun⟩ :=
    exists_reject hin hS hatt proof
  let s₁ : SearchState := (SearchState.init q proof).apply 0 b₁ .setFlag
  let b₂ : Activation := { b₁ with point := .assigning }
  let L : List ℕ := extendExtension b₁.extensionBuild b₁.initialSet
  let s₂ : SearchState := s₁.apply 0 b₂ (.handOver L)
  have hstep₂ : LawfulStep F A s₁ (.act 0 (.handOver L)) s₂ :=
    lawfulStep_act none rfl (rfl : _ = some b₁) (fun h => absurd (hpoint.symm.trans h) nofun)
      (Activation.advance_handOver hpoint)
  let b₃ : Activation := { b₂ with point := .leaving }
  let s₃ : SearchState := s₂.apply 0 b₃ .silent
  have hstep₃ : LawfulStep F A s₂ (.act 0 .silent) s₃ :=
    lawfulStep_act none rfl (rfl : _ = some b₂) nofun (Activation.advance_assigning rfl)
  let s₄ : SearchState := s₃.apply 0 { b₃ with point := .returned } .ret
  have hstep₄ : LawfulStep F A s₃ (.act 0 .ret) s₄ :=
    lawfulStep_act none rfl (rfl : _ = some b₃) nofun (Activation.advance_leaving rfl)
  have hflag : s₁.flag = true := SearchState.flag_apply_setFlag hpointer
  refine ⟨_, s₄, hrun.append (.cons hstep₂ (.cons hstep₃ (.single hstep₄))), ⟨rfl, rfl, ?_⟩,
    hflag, rfl, ?_⟩
  · intro a ha
    rw [List.mem_singleton.mp (ha : a ∈ [_])]
  · show listArgs (extendExtension b₁.extensionBuild b₁.initialSet) = S
    rw [hext, hset, extendExtension_nil, hlist]

/-- When the query is in a preferred extension, a silent rejection leaves no proof. -/
theorem not_proofWitness (hin : SearchInput F A q) {P Q : Set ℕ}
    (hP : Dung.Preferred F.att A.args P) (hqP : q ∉ P) (hatt : ¬ Dung.Attacks F.att P q)
    (hQ : Dung.Preferred F.att A.args Q) (hqQ : q ∈ Q) :
    ¬ CheckRejectionParallel F A q [] fun result output =>
      result = true → ProofWitness F A q output := by
  intro h
  have hne : P.Nonempty := hP.nonempty hQ.admissible ⟨q, hqQ⟩
  obtain ⟨ls, s, hrun, hfin, hflag, hwhole, hout⟩ := exists_silent_rejection hin hP hqP hatt hne
  have hproof := h.of_run hrun hfin ((SearchState.mayLeave_iff hwhole).mpr rfl) hflag
  rw [hout, proofWitness_nil_iff] at hproof
  exact hproof Q hQ hqQ

/-- When two assignments overlap, the list may hold what is no argument. -/
theorem not_proofWitness_of_contended (hin : SearchInput F A q)
    (hcontended : Contended F.att A.args q) :
    ¬ CheckRejectionParallel F A q [] fun result output =>
      result = true → ProofWitness F A q output := by
  intro h
  obtain ⟨ls, s, hrun, hfin, hflag, htorn⟩ := exists_torn_rejection hin hcontended []
  have hleave : s.MayLeave [0] := (SearchState.mayLeave_iff_of_torn htorn).mpr (by decide)
  have hzero : 0 ∈ A.vector := (h.of_run hrun hfin hleave hflag).1.subset List.mem_cons_self
  exact Nat.not_succ_le_zero 0 (hin.range 0 hzero).1

/-- The promise is kept when no two assignments can overlap, and no extension has the query, or
every extension without it attacks it. -/
theorem proofWitness_of_cond (hin : SearchInput F A q)
    (hcond : (∀ P, Dung.Preferred F.att A.args P → q ∉ P) ∨
      ∀ P, Dung.Preferred F.att A.args P → q ∉ P → Dung.Attacks F.att P q)
    (hsingle : ¬ Contended F.att A.args q) :
    CheckRejectionParallel F A q [] fun result output =>
      result = true → ProofWitness F A q output := by
  refine checkRejectionParallel_of_forall hin fun ls s hrun hfin L hL hflag => ?_
  obtain rfl := (SearchState.mayLeave_iff (torn_eq_false hin hsingle hrun)).mp hL
  have hrej := RejectionInv.run hin hrun
  rcases hcond with hnone | hall
  · rcases hrej.output with hnil | hout
    · rw [hnil, proofWitness_nil_iff]
      exact hnone
    · exact hout.proofWitness
  · rcases hrej.reason hflag with ⟨P, hP, hqP, hatt⟩ | ⟨i, a, ha, hpoint⟩ | hout
    · exact absurd (hall P hP hqP) hatt
    · have hret := hfin.returned a (List.mem_of_getElem? ha)
      rw [hpoint] at hret
      cases hret
    · exact hout.proofWitness

/-- **When a rejection proves itself.**  Under all models and all schedules in which each task sees
the argument and the flag of its creator, the list left by a rejection is a proof of it, if and
only if no preferred extension of the active arguments contains the query, or every one that omits
the query attacks it, and besides no two assignments to the list can overlap. -/
theorem proofWitness_iff (W : WellFormed) (A : ActiveArgs W.n) {q : ℕ} (hq : q ∈ A.vector)
    (hself : ¬ W.af.att q q) :
    (CheckRejectionParallel W.af A.toVectorBitSet q [] fun result output =>
        result = true → ProofWitness W.af A.toVectorBitSet q output) ↔
      ((∀ P, Dung.Preferred W.af.att A.args P → q ∉ P) ∨
        ∀ P, Dung.Preferred W.af.att A.args P → q ∉ P → Dung.Attacks W.af.att P q) ∧
      ¬ Contended W.af.att A.args q := by
  have hin := W.searchInput A hq hself
  constructor
  · intro h
    refine ⟨?_, fun hcontended => not_proofWitness_of_contended hin hcontended h⟩
    by_contra hcond
    push Not at hcond
    obtain ⟨⟨Q, hQ, hqQ⟩, P, hP, hqP, hatt⟩ := hcond
    exact not_proofWitness hin hP hqP hatt hQ hqQ h
  · exact fun ⟨hcond, hsingle⟩ => proofWitness_of_cond hin hcond hsingle

theorem proofWitness_iff_choice :
    (CheckRejectionParallel choiceFramework.af choiceActive.toVectorBitSet 1 []
      fun result output => result = true →
        ProofWitness choiceFramework.af choiceActive.toVectorBitSet 1 output) ↔
      ((∀ P, Dung.Preferred choiceFramework.af.att choiceActive.args P → 1 ∉ P) ∨
        ∀ P, Dung.Preferred choiceFramework.af.att choiceActive.args P → 1 ∉ P →
          Dung.Attacks choiceFramework.af.att P 1) ∧
      ¬ Contended choiceFramework.af.att choiceActive.args 1 :=
  proofWitness_iff choiceFramework choiceActive (by decide) (by decide)

/-- In `choiceFramework` the search for 1 may reject through `{2}`, and `{1, 4}` is a
preferred extension above the empty list it leaves. -/
theorem not_proofWitness_choice :
    ¬ CheckRejectionParallel choiceFramework.af choiceActive.toVectorBitSet 1 []
      fun result output => result = true →
        ProofWitness choiceFramework.af choiceActive.toVectorBitSet 1 output := by
  have hin : SearchInput choiceFramework.af choiceActive.toVectorBitSet 1 :=
    choiceFramework.searchInput choiceActive (by decide) (by decide)
  obtain ⟨hP, hqP, hatt⟩ := choice_preferred_omitting
  exact not_proofWitness hin hP hqP hatt choice_preferred_containing List.mem_cons_self

end AFAnalyzer
