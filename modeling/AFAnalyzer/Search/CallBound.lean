import AFAnalyzer.Search.Branches
import AFAnalyzer.Search.WindDown

/-!
# How many SAT calls a search makes

`count_callSolver_le` bounds the calls of one activation by the number of sets of active
arguments.  Here the calls of the whole search are bounded by what there is to find.  An
activation calls its solver at most once for each candidate of its node and once to learn that
there is none left: a call without an answer ends the activation, and an answer is a candidate
that is excluded before the next call (`Activation.Ok.openCalls_le`).  The candidates are nonempty
admissible sets of the reduct, and the activations are told apart by their branches, so all calls
are charged to ascents (`search_calls`).
-/

namespace AFAnalyzer

open Dung.Branching

variable {F : AF} {A : VectorBitSet} {q : ℕ} {proof : List ℕ} {ls : List Action} {ℓ : Action}
  {s s' : SearchState} {i : ℕ}

/-- Over finitely many active arguments there are finitely many candidates. -/
theorem finite_additions {E : Set ℕ} : (Dung.additions F.att A.args E).Finite :=
  (List.finite_toSet A.vector).finite_subsets.subset fun _ hS =>
    hS.1.subset.trans Dung.reduct_subset

namespace Activation

variable {a b : Activation} {e : Effect} {flag : Bool} {answer : Option (ℕ → Bool)}

/-- The calls that an activation can still make. -/
noncomputable def openCalls (F : AF) (A : VectorBitSet) (a : Activation) : ℕ :=
  match a.node? F A with
  | some N => N.candidates.ncard + if a.point = .answered then 0 else 1
  | none => 0

theorem openCalls_of_none (h : a.node? F A = none) : a.openCalls F A = 0 := by
  rw [openCalls, h]

theorem openCalls_of_some {N : Node ℕ} (h : a.node? F A = some N) (hpoint : a.point ≠ .answered) :
    a.openCalls F A = N.candidates.ncard + 1 := by
  rw [openCalls, h]
  exact congrArg (_ + ·) (if_neg hpoint)

theorem openCalls_of_answered (h : a.point = .answered) :
    a.openCalls F A = (a.admitted F A a.solver.cadical.clauses).ncard := by
  rw [openCalls, node?_of_answered h]
  exact congrArg (_ + ·) (if_pos h)

/-- A step that keeps the node away from the answer keeps the calls. -/
theorem openCalls_of_same (h : b.node? F A = a.node? F A) (ha : a.point ≠ .answered)
    (hb : b.point ≠ .answered) : b.openCalls F A = a.openCalls F A := by
  rw [openCalls, openCalls, h, if_neg ha, if_neg hb]

/-- **A found set is a candidate fewer.** -/
theorem Ok.openCalls_next (hok : a.Ok F A q) (hin : SearchInput F A q) (hlog : a.Logged F)
    (hpoint : a.point = .answered) (hsat : a.hasSolution = true) (hb : b.point ≠ .answered)
    (hnode : b.node? F A =
      some ⟨listArgs a.extensionBuild, a.admitted F A a.nextSolver.cadical.clauses⟩) :
    b.openCalls F A ≤ a.openCalls F A := by
  rw [openCalls_of_some hnode hb, openCalls_of_answered hpoint,
    hok.admitted_nextSolver hin hpoint hsat, Nat.succ_le_iff]
  have hfinite : (a.admitted F A a.solver.cadical.clauses).Finite :=
    finite_additions.subset fun _ hS => hS.1
  refine Set.ncard_lt_ncard ⟨fun T hT => hT.1, fun hle => ?_⟩ hfinite
  exact (hle (hok.found_mem_admitted hin hlog hpoint hsat)).2 subset_rfl

/-- A call uses one. -/
theorem Advanced.openCalls_call (h : Advanced F A flag answer a b .callSolver) :
    b.openCalls F A + 1 = a.openCalls F A := by
  cases h with
  | call point =>
    rw [openCalls_of_answered rfl, openCalls_of_some (node?_of_looping (Or.inr (Or.inl point)))]
    · rfl
    · rw [point]
      decide

/-- **No step adds calls.** -/
theorem Ok.openCalls_le (hok : a.Ok F A q) (hin : SearchInput F A q) (hlog : a.Logged F)
    (h : Advanced F A flag answer a b e) (he : e ≠ .callSolver) :
    b.openCalls F A ≤ a.openCalls F A := by
  have hdone : b.point.Done → b.openCalls F A ≤ a.openCalls F A := by
    intro hb
    rw [openCalls_of_none (node?_of_done hb)]
    exact Nat.zero_le _
  have hsame : b.node? F A = a.node? F A → a.point ≠ .answered → b.point ≠ .answered →
      b.openCalls F A ≤ a.openCalls F A := fun hnode ha hb => (openCalls_of_same hnode ha hb).le
  have hnext : a.point = .answered → a.hasSolution = true → b.point ≠ .answered →
      b.node? F A =
        some ⟨listArgs a.extensionBuild, a.admitted F A a.nextSolver.cadical.clauses⟩ →
      b.openCalls F A ≤ a.openCalls F A := fun hpoint hsat hb hnode =>
    hok.openCalls_next hin hlog hpoint hsat hb hnode
  cases h with
  | call => exact absurd rfl he
  | cutOff _ _ _ _ point => exact hdone (Or.inr (Or.inr (Or.inl point)))
  | entered point =>
    refine hsame ?_ (by rw [point]; decide) (show Point.encode ≠ .answered by decide)
    rw [node?_of_start (Or.inr rfl), node?_of_start (Or.inl point)]
    rfl
  | small => exact hdone (Or.inr (Or.inr (Or.inl rfl)))
  | encoded point build =>
    exact hsame (node?_encode hin point build) (by rw [point]; decide)
      (show Point.pollEncoded ≠ .answered by decide)
  | armed point =>
    refine hsame ?_ (by rw [point]; decide) (show Point.loopHead ≠ .answered by decide)
    rw [node?_of_looping (Or.inr (Or.inl rfl)), node?_of_looping (Or.inl point)]
    rfl
  | exhausted => exact hdone (Or.inr (Or.inr (Or.inl rfl)))
  | onlyEmpty => exact hdone (Or.inr (Or.inr (Or.inl rfl)))
  | reject => exact hdone (Or.inl rfl)
  | abort point sat =>
    have hback : (if a.isRejectedTmp = true then Point.leaving else .loopHead) = .loopHead := by
      rw [hok.tmp (Or.inr point)]
      rfl
    refine hnext point sat ?_ (node?_of_looping (Or.inr (Or.inl hback)))
    rw [hback]
    exact Point.noConfusion
  | spawn point sat found passes omits priority build =>
    obtain rfl := hok.reduct_eq point build
    exact hnext point sat (show Point.pollLoop ≠ .answered by decide)
      (node?_of_looping (Or.inr (Or.inr rfl)))
  | again point =>
    obtain ⟨-, -, hsat⟩ := hok.pollLoop point
    have hback : (if a.hasSolution = true then Point.loopHead else .leaving) = .loopHead := by
      rw [hsat]
      rfl
    refine hsame ?_ (by rw [point]; decide) ?_
    · rw [node?_of_looping (Or.inr (Or.inl hback)), node?_of_looping (Or.inr (Or.inr point))]
      rfl
    · rw [hback]
      exact Point.noConfusion
  | handOver => exact hdone (Or.inr (Or.inl rfl))
  | assigned => exact hdone (Or.inr (Or.inr (Or.inl rfl)))
  | ret => exact hdone (Or.inr (Or.inr (Or.inr rfl)))
  | fault why => exact absurd why (hok.not_faulty hin)

end Activation

/-! ## The whole search -/

/-- The calls that an activation with the extension `E` is allowed. -/
noncomputable def allowance (F : AF) (A : VectorBitSet) (E : Set ℕ) : ℕ :=
  (Dung.additions F.att A.args E).ncard + 1

/-- The ways up through the active arguments. -/
noncomputable def ascents (F : AF) (A : VectorBitSet) (q : ℕ) : Finset (List (Set ℕ)) :=
  (finite_ascents (List.finite_toSet A.vector) : {p | Ascent F.att A.args q p}.Finite).toFinset

namespace SearchState

/-- The calls that the activations can still make. -/
noncomputable def openCalls (F : AF) (A : VectorBitSet) (s : SearchState) : ℕ :=
  (s.activations.map (Activation.openCalls F A)).sum

/-- The calls that the activations were allowed when they were entered. -/
noncomputable def allowed (F : AF) (A : VectorBitSet) (s : SearchState) : ℕ :=
  (s.activations.map fun a => allowance F A (listArgs a.extensionBuild)).sum

end SearchState

theorem openCalls_enter {creator : Option ℕ} {x p : ℕ} {L : List ℕ} :
    (Activation.enter creator x p L).openCalls F A = allowance F A (listArgs L) :=
  Activation.openCalls_of_some (Activation.node?_of_start (Or.inl rfl)) (by simp [Activation.enter])

/-- **Calls are taken from what was allowed.** -/
theorem SearchInv.openCalls_step (hin : SearchInput F A q) (hinv : SearchInv F A q s)
    (hlog : ∀ (i : ℕ) (a : Activation), s.activations[i]? = some a → a.Logged F)
    (h : LawfulStep F A s ℓ s') :
    ℓ.calls.toNat + s'.openCalls F A + s.allowed F A ≤ s.openCalls F A + s'.allowed F A := by
  obtain ⟨hstep, -⟩ := h
  cases hstep with
  | @act i a b e answer running active answers advance =>
    have hadv := Activation.advanced_of_advance advance
    have hle : (Action.act i e).calls.toNat + b.openCalls F A ≤ a.openCalls F A := by
      by_cases he : e = .callSolver
      · subst he
        exact (Nat.add_comm _ _).trans_le hadv.openCalls_call.le
      · have hcall : (Action.act i e).calls.toNat = 0 := by
          cases e with
          | callSolver => exact absurd rfl he
          | _ => rfl
        rw [hcall, Nat.zero_add]
        exact (hinv.activations i a active).openCalls_le hin (hlog i a active) hadv he
    have hopen := Transition.sum_map_set (Activation.openCalls F A) b active
    have hallowed := Transition.sum_map_set
      (fun a => allowance F A (listArgs a.extensionBuild)) b active
    rw [hadv.parameters.2.2.1] at hallowed
    simp only [SearchState.openCalls, SearchState.allowed, SearchState.activations_apply]
    omega
  | @start k x p t creator running waiting created captured =>
    have hcall : (Action.start k x p).calls.toNat = 0 := rfl
    have henter : (Activation.enter (some t.creator) x p t.newExtensionBuild).openCalls F A =
        allowance F A (listArgs t.newExtensionBuild) := openCalls_enter
    have hext : (Activation.enter (some t.creator) x p t.newExtensionBuild).extensionBuild =
        t.newExtensionBuild := rfl
    simp only [SearchState.openCalls, SearchState.allowed, SearchState.activations_startTask,
      List.map_append, List.sum_append, List.map_singleton, List.sum_singleton, hcall, henter,
      hext]
    omega

theorem SearchInv.openCalls_run (hin : SearchInput F A q) (hinv : SearchInv F A q s)
    (hlog : ∀ (i : ℕ) (a : Activation), s.activations[i]? = some a → a.InLoop F ∧ a.Logged F)
    (h : Transition.Run (LawfulStep F A) s ls s') :
    ls.countP Action.calls + s'.openCalls F A + s.allowed F A ≤
      s.openCalls F A + s'.allowed F A := by
  induction h with
  | nil => simp
  | @cons s s₁ s' ℓ ls first _ ih =>
    have hrest := ih (hinv.step hin first) ((activationInvariant_logged hin).step hinv hlog first)
    have hfirst := hinv.openCalls_step hin (fun i a ha => (hlog i a ha).2) first
    rw [List.countP_cons]
    cases hcall : ℓ.calls with
    | true =>
      rw [hcall, Bool.toNat_true] at hfirst
      rw [if_pos rfl]
      omega
    | false =>
      rw [hcall, Bool.toNat_false] at hfirst
      rw [if_neg Bool.false_ne_true]
      omega

/-- What the activations were allowed is charged to the ascents. -/
theorem SearchState.allowed_le (hin : SearchInput F A q)
    (h : Transition.Run (LawfulStep F A) (.init q proof) ls s) :
    s.allowed F A ≤ ∑ p ∈ ascents F A q, allowance F A (p.headD ∅) := by
  have hinv := SearchInv.run hin h
  have htree := TreeInv.run hin h
  have hbranch := BranchInv.run hin h
  have hactivations : s.allowed F A ≤ (s.entries.map fun y => allowance F A y.2).sum := by
    rw [SearchState.entries, List.map_append, List.sum_append, List.map_map]
    exact Nat.le_add_right _ _
  refine hactivations.trans (Forest.sum_le_sum_branches htree.ordered hbranch.nodup ?_)
  intro i p y hp hy
  refine ⟨(Set.Finite.mem_toFinset _).mpr (hbranch.ascent hinv htree hp), ?_⟩
  -- the branch of an entry starts with its label
  cases hp with
  | root entry =>
    obtain rfl := Option.some.inj (entry.symm.trans hy)
    exact le_rfl
  | child entry =>
    obtain rfl := Option.some.inj (entry.symm.trans hy)
    exact le_rfl

/-- **How many SAT calls a search makes.**  Under every choice of models and every schedule in which
each task sees the argument and the flag of its creator, the search calls a solver at most once for
each way up from `∅` through admissible sets that neither contain nor attack the query, and once
more for each nonempty admissible set that can be added to the set where such a way ends. -/
theorem search_calls (W : WellFormed) (A : ActiveArgs W.n) {q : ℕ} (hq : q ∈ A.vector)
    (hself : ¬ W.af.att q q) {proof : List ℕ} {ls : List Action} {s : SearchState}
    (h : Transition.Run (LawfulStep W.af A.toVectorBitSet) (.init q proof) ls s) :
    ls.countP Action.calls ≤ ∑ p ∈ ascents W.af A.toVectorBitSet q,
      ((Dung.additions W.af.att A.args (p.headD ∅)).ncard + 1) := by
  have hin := W.searchInput A hq hself
  have hlogged := activationInvariant_logged hin
  have hcalls := SearchInv.openCalls_run hin searchInv_init hlogged.init h
  have hstart : (SearchState.init q proof).openCalls W.af A.toVectorBitSet =
      (SearchState.init q proof).allowed W.af A.toVectorBitSet :=
    congrArg (· + 0) openCalls_enter
  have hallowed := SearchState.allowed_le hin h
  simp only [allowance] at hallowed
  omega

theorem search_calls_choice :
    ∃ ls s, Transition.Run (LawfulStep choiceFramework.af choiceActive.toVectorBitSet)
        (.init 1 []) ls s ∧ s.Finished ∧
      ls.countP Action.calls ≤ ∑ p ∈ ascents choiceFramework.af choiceActive.toVectorBitSet 1,
        ((Dung.additions choiceFramework.af.att choiceActive.args (p.headD ∅)).ncard + 1) := by
  have hin := choiceFramework.searchInput choiceActive (q := 1) (by decide) (by decide)
  obtain ⟨ls, s, hrun, -, hfin, -⟩ := (settles hin []).exists_end
  exact ⟨ls, s, hrun, hfin, search_calls choiceFramework choiceActive (by decide) (by decide) hrun⟩

end AFAnalyzer
