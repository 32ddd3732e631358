import AFAnalyzer.Dung.Reduct
import AFAnalyzer.Search.Invariant

/-!
# The flag is right

Two invariants about the flag, for a query `q` and active arguments `A`.

* `RejectionInv`: when the flag is set, there is a reason, and the reason is a preferred
  set that omits `q` (`RejectionInv.exists_preferred`).  A flag set because a reduct has
  only the empty admissible set stands for a preferred set that does not even attack
  `q`; a flag set by a found set is followed by the hand-over of an admissible set that
  attacks `q`.
* `Covered`: as long as the flag is not set, every preferred set `P` that omits `q` is
  still ahead of somebody: a waiting task has an extension inside `P`, or an activation
  with an extension inside `P` has not excluded the rest of `P`
  (`Activation.Explores`).  Blocking a found set loses `P` only if the set lies in `P`,
  and then the task created for it takes over.

A finished region has nobody left, so its flag is set exactly when such a `P` exists
(`flag_iff`).
-/

namespace AFAnalyzer

variable {F : AF} {A R : VectorBitSet} {q : ℕ} {E L : List ℕ} {P : Set ℕ}

/-! ## Reasons for a rejection -/

/-- A list that proves a rejection: admissible among the active arguments, and attacking
the query. -/
def Rejects (F : AF) (A : VectorBitSet) (q : ℕ) (L : List ℕ) : Prop :=
  Dung.Admissible F.att A.args (listArgs L) ∧ Dung.Attacks F.att (listArgs L) q

theorem Rejects.exists_preferred (h : Rejects F A q L) :
    ∃ P, Dung.Preferred F.att A.args P ∧ q ∉ P := by
  obtain ⟨P, hLP, hP⟩ := Dung.exists_preferred_of_admissible h.1
  exact ⟨P, hP, hP.not_mem_of_attacks hLP h.2⟩

/-- An early return happens on the query alone. -/
theorem IsReduct.vector_of_small (hR : IsReduct F A E R) (hin : SearchInput F A q)
    (hE : ExtensionOk F A q E) (hsize : R.vector.length < 2) : R.vector = [q] := by
  have hq := hE.query_mem hin hR
  match hvec : R.vector with
  | [] =>
    rw [hvec] at hq
    exact absurd hq List.not_mem_nil
  | [a] =>
    rw [hvec] at hq
    rw [List.mem_singleton.mp hq]
  | a :: b :: l =>
    rw [hvec] at hsize
    simp only [List.length_cons] at hsize
    omega

/-- **An early return loses nothing**: when only the query is left, every preferred set
above the extension contains it. -/
theorem IsReduct.query_mem_of_small (hR : IsReduct F A E R) (hin : SearchInput F A q)
    (hE : ExtensionOk F A q E) (hsize : R.vector.length < 2)
    (hP : Dung.Preferred F.att A.args P) (hEP : listArgs E ⊆ P) : q ∈ P := by
  have hargs : R.args = {q} := by
    ext a
    rw [VectorBitSet.mem_args, hR.vector_of_small hin hE hsize, List.mem_singleton]
    exact Iff.rfl
  have hdiff := Dung.preferred_diff_reduct hE.admissible hP hEP
  rw [← hR.args, hargs] at hdiff
  have hquery : Dung.Admissible F.att {q} {q} := by
    refine ⟨subset_rfl, ?_, ?_⟩
    · rintro a rfl b rfl
      exact hin.notSelf
    · rintro a rfl b rfl hself
      exact absurd hself hin.notSelf
  have heq := hdiff.eq_of_subset hquery hdiff.admissible.subset
  have hmem : q ∈ P \ listArgs E := by
    rw [← heq]
    exact Set.mem_singleton q
  exact hmem.1

namespace Activation

variable {a b : Activation} {e : Effect} {flag : Bool} {answer : Option (ℕ → Bool)}

/-- When the first call finds nothing, the extension is preferred. -/
theorem Ok.preferred_of_onlyEmpty (hok : a.Ok F A q) (hin : SearchInput F A q)
    (hpoint : a.point = .answered) (hfirst : a.isFirstCalculation = true)
    (hempty : a.hasSolution = false ∨ getSetFromSolver a.solver a.reduct = []) :
    Dung.Preferred F.att A.args (listArgs a.extensionBuild) := by
  have henc := hok.encoded (Or.inr (Or.inr (Or.inl hpoint)))
  have hunsat : a.hasSolution = false := by
    rcases hempty with h | h
    · exact h
    · by_contra hsat
      obtain ⟨v, -, -, -, hfound⟩ := hok.found hin hpoint (by simpa using hsat)
      exact hfound.nonempty h
  refine Dung.preferred_of_reduct_trivial hok.extension.admissible fun T hT => ?_
  by_contra hne
  rw [← henc.reduct.args] at hT
  have hv := satisfies_of_admissible hin.coherent henc.reduct.agrees
    (henc.reduct.range hin.range) hT (Set.nonempty_iff_ne_empty.mpr hne)
  rw [← henc.first hfirst] at hv
  exact hok.unsat hpoint hunsat _ hv

end Activation

/-! ## Soundness -/

/-- Why the flag is set, and what the output is. -/
structure RejectionInv (F : AF) (A : VectorBitSet) (q : ℕ) (proof : List ℕ) (s : SearchState) :
    Prop where
  reason : s.flag = true →
    (∃ P, Dung.Preferred F.att A.args P ∧ q ∉ P ∧ ¬ Dung.Attacks F.att P q) ∨
      (∃ (i : ℕ) (a : Activation), s.activations[i]? = some a ∧ a.point = .handOver) ∨
      Rejects F A q s.outputExtension
  output : s.outputExtension = proof ∨ Rejects F A q s.outputExtension

variable {s s' : SearchState} {ℓ : Action} {ls : List Action} {proof : List ℕ}

theorem rejectionInv_init : RejectionInv F A q proof (.init q proof) where
  reason := fun h => absurd h (by simp [SearchState.flag, SearchState.init])
  output := Or.inl rfl

/-- Who is about to hand over stays so until it does. -/
theorem handOver_apply {i j : ℕ} {a b c : Activation} {e : Effect} {flag : Bool}
    {answer : Option (ℕ → Bool)} (hactive : s.activations[i]? = some a)
    (hadv : Activation.Advanced F A flag answer a b e) (he : ∀ L, e ≠ .handOver L)
    (hfault : e ≠ .fault) (hc : s.activations[j]? = some c) (hpoint : c.point = .handOver) :
    (s.apply i b e).activations[j]? = some c := by
  have hij : i ≠ j := by
    rintro rfl
    obtain rfl := Option.some.inj (hactive.symm.trans hc)
    have hpolls : ¬ a.Polls := by
      rintro (h | h | h)
      all_goals
        rw [hpoint] at h
        cases h
    cases hadv with
    | cutOff polls => exact hpolls polls
    | handOver => exact he _ rfl
    | fault => exact hfault rfl
    | _ point => rw [hpoint] at point; cases point
  exact (List.getElem?_set_ne hij).trans hc

/-- **The step lemma for the reason of a rejection.** -/
theorem RejectionInv.step (hin : SearchInput F A q) (hinv : SearchInv F A q s)
    (hrej : RejectionInv F A q proof s) (h : LawfulStep F A s ℓ s') :
    RejectionInv F A q proof s' := by
  obtain ⟨hstep, -⟩ := h
  cases hstep with
  | @start k x p t creator running waiting created captured =>
    refine ⟨fun hflag => ?_, hrej.output⟩
    rcases hrej.reason hflag with hpref | ⟨i, a, ha, hpoint⟩ | hout
    · exact Or.inl hpref
    · obtain ⟨hlt, -⟩ := List.getElem?_eq_some_iff.mp ha
      exact Or.inr (Or.inl ⟨i, a, (List.getElem?_append_left hlt).trans ha, hpoint⟩)
    · exact Or.inr (Or.inr hout)
  | @act i a b e answer running active answers advance =>
    have hadv := Activation.advanced_of_advance advance
    have hok := hinv.activations i a active
    have hfault := hok.effect_ne_fault hin hadv
    have hlt := (List.getElem?_eq_some_iff.mp active).1
    by_cases hhand : ∃ L, e = .handOver L
    · obtain ⟨L, rfl⟩ := hhand
      have hrejects : Rejects F A q L := by
        cases hadv with
        | handOver point => exact hok.handOver (Or.inl point)
      exact ⟨fun _ => Or.inr (Or.inr hrejects), Or.inr hrejects⟩
    · push Not at hhand
      have hsame : (s.apply i b e).outputExtension = s.outputExtension := by
        cases e with
        | handOver L => exact absurd rfl (hhand L)
        | _ => rfl
      refine ⟨fun hflag => ?_, by rw [hsame]; exact hrej.output⟩
      rw [hsame]
      by_cases hset : e = .setFlag
      · subst hset
        cases hadv with
        | onlyEmpty point first empty =>
          exact Or.inl ⟨_, hok.preferred_of_onlyEmpty hin point first empty, hok.extension.notMem,
            hok.extension.notAttacked⟩
        | reject =>
          exact Or.inr (Or.inl ⟨i, _, List.getElem?_set_self hlt, rfl⟩)
      · rw [SearchState.flag_apply_of_ne hset] at hflag
        rcases hrej.reason hflag with hpref | ⟨j, c, hc, hpoint⟩ | hout
        · exact Or.inl hpref
        · exact Or.inr (Or.inl ⟨j, c, handOver_apply active hadv hhand hfault hc hpoint, hpoint⟩)
        · exact Or.inr (Or.inr hout)

theorem RejectionInv.run (hin : SearchInput F A q)
    (h : Transition.Run (LawfulStep F A) (.init q proof) ls s) : RejectionInv F A q proof s :=
  SearchInv.induction hin (fun _ _ _ hinv hrej hstep => hrej.step hin hinv hstep)
    rejectionInv_init h

/-- **Soundness.**  A set flag stands for a preferred set that omits the query. -/
theorem RejectionInv.exists_preferred (hinv : SearchInv F A q s)
    (hrej : RejectionInv F A q proof s) (hflag : s.flag = true) :
    ∃ P, Dung.Preferred F.att A.args P ∧ q ∉ P := by
  rcases hrej.reason hflag with ⟨P, hP, hqP, -⟩ | ⟨i, a, ha, hpoint⟩ | hout
  · exact ⟨P, hP, hqP⟩
  · exact Rejects.exists_preferred ((hinv.activations i a ha).handOver (Or.inl hpoint))
  · exact hout.exists_preferred

/-! ## Completeness -/

namespace Activation

/-- The activation may still find what `P` adds to its extension. -/
def Explores (F : AF) (P : Set ℕ) (a : Activation) : Prop :=
  listArgs a.extensionBuild ⊆ P ∧
    match a.point with
    | .entry | .encode => True
    | .pollEncoded | .loopHead | .pollLoop =>
      a.isFirstCalculation = true ∨
        Sat.Satisfies (modelOf F (P \ listArgs a.extensionBuild)) a.nextSolver.cadical.clauses
    | .answered =>
      (a.isFirstCalculation = true ∧ a.hasSolution = false) ∨
        (a.hasSolution = true ∧
          Sat.Satisfies (modelOf F (P \ listArgs a.extensionBuild)) a.solver.cadical.clauses)
    | .handOver | .assigning | .leaving | .returned => False

variable {a b : Activation} {e : Effect} {answer : Option (ℕ → Bool)}

theorem explores_of_looping (hpoint : a.point = .pollEncoded ∨ a.point = .loopHead ∨
    a.point = .pollLoop) : a.Explores F P ↔ listArgs a.extensionBuild ⊆ P ∧
      (a.isFirstCalculation = true ∨ Sat.Satisfies (modelOf F (P \ listArgs a.extensionBuild))
        a.nextSolver.cadical.clauses) := by
  rw [Explores]
  rcases hpoint with h | h | h
  all_goals rw [h]

theorem explores_of_answered (hpoint : a.point = .answered) : a.Explores F P ↔
    listArgs a.extensionBuild ⊆ P ∧ ((a.isFirstCalculation = true ∧ a.hasSolution = false) ∨
      (a.hasSolution = true ∧ Sat.Satisfies (modelOf F (P \ listArgs a.extensionBuild))
        a.solver.cadical.clauses)) := by
  rw [Explores, hpoint]

theorem not_explores (hpoint : a.point.Done) : ¬ a.Explores F P := by
  rintro ⟨-, h⟩
  rcases hpoint with hpoint | hpoint | hpoint | hpoint
  all_goals
    rw [hpoint] at h
    exact h

/-- The SAT call keeps what the activation may find. -/
theorem Explores.call (hok : a.Ok F A q) (hin : SearchInput F A q)
    (hP : Dung.Preferred F.att A.args P) (hexp : a.Explores F P) (hpoint : a.point = .loopHead)
    (hans : a.nextSolver.SolverAnswers answer) : (a.called answer).Explores F P := by
  obtain ⟨hsub, hexp⟩ := (explores_of_looping (Or.inr (Or.inl hpoint))).mp hexp
  have henc := hok.encoded (Or.inr (Or.inl hpoint))
  rw [explores_of_answered rfl]
  refine ⟨hsub, ?_⟩
  cases answer with
  | none =>
    rcases hexp with hfirst | hsat
    · exact Or.inl ⟨hfirst, rfl⟩
    · exact absurd hsat (hans _)
  | some v =>
    refine Or.inr ⟨rfl, ?_⟩
    rcases hexp with hfirst | hsat
    · -- the first call: the clauses are the encoding, and the answer shows that `P` is not
      -- the extension itself
      have hcall := hok.call hin hpoint hans
      obtain ⟨w, -, -, -, hfound⟩ := hcall.found hin rfl rfl
      have hdiff := hP.admissible.diff_reduct hsub
      rw [← henc.reduct.args] at hdiff
      have hne : (P \ listArgs a.extensionBuild).Nonempty := by
        by_contra hempty
        rw [Set.not_nonempty_iff_eq_empty, Set.sdiff_eq_empty] at hempty
        have heq : listArgs a.extensionBuild = P := Set.Subset.antisymm hsub hempty
        obtain ⟨x, hx⟩ := List.exists_mem_of_ne_nil _ hfound.nonempty
        have hxE : x ∉ a.extensionBuild := hfound.notMem_extension hx
        have hadm := hfound.admissible_extend hok.extension.admissible
        have hall := hP.eq_of_subset hadm (by
          rw [listArgs_extendExtension, ← heq]
          exact Set.subset_union_left)
        have hxP : x ∈ P := by
          rw [← hall]
          exact mem_extendExtension.mpr (Or.inr hx)
        rw [← heq] at hxP
        exact hxE hxP
      have hfirstClauses := (hcall.encoded (Or.inr (Or.inr (Or.inl rfl)))).first hfirst
      rw [hfirstClauses]
      exact satisfies_of_admissible hin.coherent henc.reduct.agrees
        (henc.reduct.range hin.range) hdiff hne
    · exact hsat

/-- Excluding a found set keeps `P` in reach when the set does not lie in `P`. -/
theorem satisfies_nextSolver (hok : a.Ok F A q) (hin : SearchInput F A q)
    (hpoint : a.point = .answered) (hexp : a.Explores F P) (hsat : a.hasSolution = true)
    {x : ℕ} (hx : x ∈ getSetFromSolver a.solver a.reduct) (hxP : x ∉ P) :
    listArgs a.extensionBuild ⊆ P ∧
      Sat.Satisfies (modelOf F (P \ listArgs a.extensionBuild)) a.nextSolver.cadical.clauses := by
  have henc := hok.encoded (Or.inr (Or.inr (Or.inl hpoint)))
  obtain ⟨v, -, -, -, hfound⟩ := hok.found hin hpoint hsat
  obtain ⟨hsub, hexp⟩ := (explores_of_answered hpoint).mp hexp
  refine ⟨hsub, ?_⟩
  have hclauses : Sat.Satisfies (modelOf F (P \ listArgs a.extensionBuild))
      a.solver.cadical.clauses := by
    rcases hexp with ⟨-, hunsat⟩ | ⟨-, h⟩
    · rw [hsat] at hunsat
      exact Bool.noConfusion hunsat
    · exact h
  rw [(henc.nextSolver_eq hin).2, if_pos (hok.answered hpoint), Sat.satisfies_append,
    satisfies_complementClause]
  refine ⟨hclauses, x, hx, ?_⟩
  have hxF : x ∈ F.args := henc.reduct.range hin.range x (hfound.mem_reduct hx)
  rw [← Bool.not_eq_true, modelOf_accepted hxF]
  exact fun h => hxP h.1

/-- **What a step does to the sets still ahead.**  While the flag is not set, an
activation that may find the rest of `P` still may after its step, or it sets the flag,
or it creates a task inside `P`. -/
theorem Explores.advance (hok : a.Ok F A q) (hin : SearchInput F A q)
    (hP : Dung.Preferred F.att A.args P) (hqP : q ∉ P) (hexp : a.Explores F P)
    (hans : a.point = .loopHead → a.nextSolver.SolverAnswers answer)
    (h : Advanced F A false answer a b e) :
    b.Explores F P ∨ e = .setFlag ∨ ∃ L prio, e = .spawn L prio ∧ listArgs L ⊆ P := by
  cases h with
  | cutOff _ set => cases set
  | entered => exact Or.inl ⟨hexp.1, trivial⟩
  | @small R point build size =>
    have hR := isReduct_of_build hin.coherent hin.agrees build
    exact absurd (hR.query_mem_of_small hin hok.extension size hP hexp.1) hqP
  | encoded => exact Or.inl ((explores_of_looping (Or.inl rfl)).mpr ⟨hexp.1, Or.inl rfl⟩)
  | armed point =>
    exact Or.inl ((explores_of_looping (Or.inr (Or.inl rfl))).mpr
      ⟨hexp.1, Or.inl (hok.unsolved point).1⟩)
  | call point => exact Or.inl (hexp.call hok hin hP point (hans point))
  | exhausted point unsat first =>
    obtain ⟨-, ⟨hfirst, -⟩ | ⟨hsat, -⟩⟩ := (explores_of_answered point).mp hexp
    · rw [first] at hfirst
      exact Bool.noConfusion hfirst
    · rw [unsat] at hsat
      exact Bool.noConfusion hsat
  | onlyEmpty => exact Or.inr (Or.inl rfl)
  | reject => exact Or.inr (Or.inl rfl)
  | abort point sat found passes contains =>
    -- the found set contains the query, and `P` does not
    rw [hok.argument, checkTerminateExtensionBuild_iff] at contains
    obtain ⟨hsub, hnext⟩ := satisfies_nextSolver hok hin point hexp sat contains hqP
    refine Or.inl ((explores_of_looping (Or.inr (Or.inl ?_))).mpr ⟨hsub, Or.inr hnext⟩)
    simp [hok.tmp (Or.inr point)]
  | @spawn prio R point sat found passes omits priority build =>
    have henc := hok.encoded (Or.inr (Or.inr (Or.inl point)))
    obtain rfl := hok.reduct_eq point build
    by_cases hall : ∀ x ∈ getSetFromSolver a.solver a.reduct, x ∈ P
    · refine Or.inr (Or.inr ⟨_, prio, rfl, ?_⟩)
      rw [listArgs_extendExtension]
      exact Set.union_subset hexp.1 hall
    · push Not at hall
      obtain ⟨x, hx, hxP⟩ := hall
      obtain ⟨hsub, hnext⟩ := satisfies_nextSolver hok hin point hexp sat hx hxP
      exact Or.inl ((explores_of_looping (Or.inr (Or.inr rfl))).mpr ⟨hsub, Or.inr hnext⟩)
  | again point unset =>
    have hlive := (explores_of_looping (Or.inr (Or.inr point))).mp hexp
    refine Or.inl ((explores_of_looping (Or.inr (Or.inl ?_))).mpr hlive)
    simp [(hok.pollLoop point).2.2]
  | handOver point => exact absurd hexp (not_explores (Or.inl point))
  | assigned point => exact absurd hexp (not_explores (Or.inr (Or.inl point)))
  | ret point => exact absurd hexp (not_explores (Or.inr (Or.inr (Or.inl point))))
  | fault why => exact absurd why (hok.not_faulty hin)

end Activation

/-- `P` has been reported, or somebody may still find it. -/
def Covered (F : AF) (P : Set ℕ) (s : SearchState) : Prop :=
  s.flag = true ∨ (∃ t ∈ s.tasks, listArgs t.newExtensionBuild ⊆ P) ∨
    ∃ (i : ℕ) (a : Activation), s.activations[i]? = some a ∧ a.Explores F P

theorem covered_init : Covered F P (.init q proof) := by
  refine Or.inr (Or.inr ⟨0, _, rfl, ?_, trivial⟩)
  simp [Activation.enter]

/-- A waiting task covers as long as it waits, and once started its activation does. -/
theorem covered_startTask {k x p : ℕ} {t : Task} (hwaiting : s.tasks[k]? = some t)
    (h : Covered F P s) : Covered F P (s.startTask k t x p) := by
  rcases h with hflag | ⟨u, hu, hsub⟩ | ⟨i, a, ha, hexp⟩
  · exact Or.inl hflag
  · by_cases hut : u = t
    · subst hut
      refine Or.inr (Or.inr ⟨s.activations.length, .enter (some u.creator) x p
        u.newExtensionBuild, ?_, hsub, trivial⟩)
      simp
    · refine Or.inr (Or.inl ⟨u, ?_, hsub⟩)
      obtain ⟨hk, rfl⟩ := List.getElem?_eq_some_iff.mp hwaiting
      have hmem := (List.getElem_cons_eraseIdx_perm hk).mem_iff.mpr hu
      exact (List.mem_cons.mp hmem).resolve_left hut
  · obtain ⟨hlt, -⟩ := List.getElem?_eq_some_iff.mp ha
    exact Or.inr (Or.inr ⟨i, a, (List.getElem?_append_left hlt).trans ha, hexp⟩)

/-- **The step lemma of coverage.** -/
theorem Covered.step (hin : SearchInput F A q) (hinv : SearchInv F A q s)
    (hP : Dung.Preferred F.att A.args P) (hqP : q ∉ P) (hcov : Covered F P s)
    (h : LawfulStep F A s ℓ s') : Covered F P s' := by
  obtain ⟨hstep, -⟩ := h
  cases hstep with
  | @start k x p t creator running waiting created captured =>
    exact covered_startTask waiting hcov
  | @act i a b e answer running active answers advance =>
    have hok := hinv.activations i a active
    have hlt := (List.getElem?_eq_some_iff.mp active).1
    rcases hcov with hflag | ⟨t, ht, hsub⟩ | ⟨j, c, hc, hexp⟩
    · exact Or.inl (SearchState.flag_apply_of_true hflag)
    · exact Or.inr (Or.inl ⟨t, SearchState.mem_tasks_apply ht, hsub⟩)
    · by_cases hij : i = j
      · subst hij
        obtain rfl := Option.some.inj (active.symm.trans hc)
        cases hflag : s.flag with
        | true => exact Or.inl (SearchState.flag_apply_of_true hflag)
        | false =>
          have hcell : s.heap a.isRejected = false := by
            rw [hok.isRejected]
            exact hflag
          rw [hcell] at advance
          have hadv := Activation.advanced_of_advance advance
          rcases hexp.advance hok hin hP hqP answers hadv with hb | rfl | ⟨L, prio, rfl, hsub⟩
          · exact Or.inr (Or.inr ⟨i, b, List.getElem?_set_self hlt, hb⟩)
          · refine Or.inl (SearchState.flag_apply_setFlag ?_)
            rw [hadv.parameters.2.1]
            exact hok.isRejected
          · refine Or.inr (Or.inl ⟨⟨i, L, prio⟩, ?_, hsub⟩)
            exact List.mem_append_right _ (List.mem_singleton_self _)
      · exact Or.inr (Or.inr ⟨j, c, (List.getElem?_set_ne hij).trans hc, hexp⟩)

theorem Covered.run (hin : SearchInput F A q) (hP : Dung.Preferred F.att A.args P)
    (hqP : q ∉ P) (h : Transition.Run (LawfulStep F A) (.init q proof) ls s) : Covered F P s :=
  SearchInv.induction hin (fun _ _ _ hinv hcov hstep => hcov.step hin hinv hP hqP hstep)
    covered_init h

/-- When the barrier opens nobody is left, so the flag has been set. -/
theorem Covered.flag_of_finished (hcov : Covered F P s) (hfin : s.Finished) : s.flag = true := by
  rcases hcov with hflag | ⟨t, ht, -⟩ | ⟨i, a, ha, hexp⟩
  · exact hflag
  · rw [hfin.tasks] at ht
    exact absurd ht List.not_mem_nil
  · exact absurd hexp (Activation.not_explores
      (Or.inr (Or.inr (Or.inr (hfin.returned a (List.mem_of_getElem? ha))))))

/-- **The flag of a finished region**: it is set exactly when some preferred set of the
active arguments omits the query. -/
theorem flag_iff (hin : SearchInput F A q)
    (h : Transition.Run (LawfulStep F A) (.init q proof) ls s) (hfin : s.Finished) :
    s.flag = true ↔ ∃ P, Dung.Preferred F.att A.args P ∧ q ∉ P := by
  constructor
  · exact fun hflag => (RejectionInv.run hin h).exists_preferred (SearchInv.run hin h) hflag
  · rintro ⟨P, hP, hqP⟩
    exact (Covered.run hin hP hqP h).flag_of_finished hfin

end AFAnalyzer
