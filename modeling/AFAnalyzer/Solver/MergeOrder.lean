import AFAnalyzer.Search.Scenario
import AFAnalyzer.Solver.Solve

/-!
# The order of the lists that `ExtendExtension` merges

`std::list::merge` wants both lists in ascending order.  The extension is the result of
earlier merges, and an initial set is listed in the order of `out_reduct`, which is the
breadth-first order of the cone: nothing sorts it.

An initial set together with the extension it was found above is admissible among the
active arguments and omits the query (`Found.admissible_extend`).  So what matters are the
admissible sets that omit the query: if `out_reduct` lists each of them in ascending order,
all lists are ascending in every run (`SortedInv.run`); and each of them may be the first
set that the solver finds (`exists_mergeCall`).
-/

namespace AFAnalyzer

/-- The calls of `ExtendExtension` in a step of the search, with their arguments. -/
inductive MergeCall (s : SearchState) : Action → List ℕ → List ℕ → Prop
  | spawn {i prio : ℕ} {a : Activation} {L : List ℕ} (active : s.activations[i]? = some a) :
      MergeCall s (.act i (.spawn L prio)) a.extensionBuild (getSetFromSolver a.solver a.reduct)
  | handOver {i : ℕ} {a : Activation} {L : List ℕ} (active : s.activations[i]? = some a) :
      MergeCall s (.act i (.handOver L)) a.extensionBuild a.initialSet

/-- Both lists are ascending, and so is the result, which lists their union. -/
structure MergesSorted (E S : List ℕ) : Prop where
  extension : E.Pairwise (· < ·)
  initialSet : S.Pairwise (· < ·)
  result : (extendExtension E S).Pairwise (· < ·)
  mem_iff : ∀ x, x ∈ extendExtension E S ↔ x ∈ E ∨ x ∈ S

/-- The active arguments list each admissible set that omits the query in ascending order. -/
def InOrder (F : AF) (A : VectorBitSet) (q : ℕ) : Prop :=
  ∀ P, Dung.Admissible F.att A.args P → q ∉ P →
    A.vector.Pairwise fun a b => a ∈ P → b ∈ P → a < b

variable {F : AF} {A R : VectorBitSet} {q : ℕ} {E S : List ℕ} {P : Set ℕ}

/-! ## One call -/

/-- Two ascending lists without common members are merged into one. -/
theorem pairwise_extendExtension (hE : E.Pairwise (· < ·)) (hS : S.Pairwise (· < ·))
    (hdisj : ∀ a ∈ E, a ∉ S) : (extendExtension E S).Pairwise (· < ·) := by
  have hle : (extendExtension E S).Pairwise (· ≤ ·) := by
    have hmerge : (extendExtension E S).Pairwise fun a b => decide (a ≤ b) = true :=
      List.pairwise_merge (fun a b c hab hbc => by simp only [decide_eq_true_eq] at *; omega)
        (fun a b => by simp only [Bool.or_eq_true, decide_eq_true_eq]; omega) E S
        (hE.imp fun hlt => decide_eq_true hlt.le) (hS.imp fun hlt => decide_eq_true hlt.le)
    exact hmerge.imp of_decide_eq_true
  have hnodup : (extendExtension E S).Nodup :=
    nodup_extendExtension (hE.imp Nat.ne_of_lt) (hS.imp Nat.ne_of_lt) hdisj
  exact hle.imp₂ (fun _ _ => lt_of_le_of_ne) hnodup

/-- A found set is ascending when the extension with it is an admissible set that omits the
query. -/
theorem Found.pairwise (h : Found F A R E S) (horder : InOrder F A q)
    (hE : ExtensionOk F A q E) (hq : q ∉ S) {v : ℕ → Bool} (hS : S = R.vector.filter v) :
    S.Pairwise (· < ·) := by
  have hadm : Dung.Admissible F.att A.args (listArgs (extendExtension E S)) :=
    h.admissible_extend hE.admissible
  have hnot : q ∉ listArgs (extendExtension E S) := by
    rw [mem_listArgs, mem_extendExtension, not_or]
    exact ⟨hE.notMem, hq⟩
  have hsub : S.Sublist A.vector := by
    rw [hS, h.reduct.vector]
    exact List.filter_sublist.trans List.filter_sublist
  refine List.Pairwise.imp_of_mem (fun ha hb hlt => ?_) ((horder _ hadm hnot).sublist hsub)
  exact hlt (mem_extendExtension.mpr (Or.inr ha)) (mem_extendExtension.mpr (Or.inr hb))

/-! ## The invariant -/

/-- What is ascending in an activation. -/
structure Activation.Sorted (a : Activation) : Prop where
  extension : a.extensionBuild.Pairwise (· < ·)
  initialSet : a.point = .handOver → a.initialSet.Pairwise (· < ·) ∧
    ∀ x ∈ a.extensionBuild, x ∉ a.initialSet

/-- **All extensions are ascending**, those of the tasks included. -/
structure SortedInv (s : SearchState) : Prop where
  activations : ∀ (i : ℕ) (a : Activation), s.activations[i]? = some a → a.Sorted
  tasks : ∀ t ∈ s.tasks, t.newExtensionBuild.Pairwise (· < ·)

namespace Activation

variable {a b : Activation} {e : Effect} {flag : Bool} {answer : Option (ℕ → Bool)}

/-- A set that the solver has found is ascending, unless it contains the query. -/
theorem Ok.pairwise_found (hok : a.Ok F A q) (hin : SearchInput F A q) (horder : InOrder F A q)
    (hpoint : a.point = .answered) (hsat : a.hasSolution = true)
    (hq : q ∉ getSetFromSolver a.solver a.reduct) :
    (getSetFromSolver a.solver a.reduct).Pairwise (· < ·) ∧
      ∀ x ∈ a.extensionBuild, x ∉ getSetFromSolver a.solver a.reduct := by
  obtain ⟨v, -, -, hdecode, hfound⟩ := hok.found hin hpoint hsat
  exact ⟨hfound.pairwise horder hok.extension hq hdecode,
    fun x hx hS => hfound.notMem_extension hS hx⟩

/-- A set that attacks the query does not contain it. -/
theorem Ok.query_notMem_of_rejects (hok : a.Ok F A q) (hin : SearchInput F A q)
    (hpoint : a.point = .answered) (hsat : a.hasSolution = true)
    (hrejects : checkRejection a.argument (getSetFromSolver a.solver a.reduct) F = true) :
    q ∉ getSetFromSolver a.solver a.reduct := by
  obtain ⟨v, -, -, -, hfound⟩ := hok.found hin hpoint hsat
  rw [hok.argument, checkRejection_iff hin.coherent] at hrejects
  obtain ⟨b, hb, hbq⟩ := hrejects
  exact fun hq => hfound.admissible.conflictFree b hb q hq hbq

theorem Ok.query_notMem_of_omits (hok : a.Ok F A q)
    (homits : checkTerminateExtensionBuild a.argument (getSetFromSolver a.solver a.reduct) =
      false) : q ∉ getSetFromSolver a.solver a.reduct := by
  rw [hok.argument, ← Bool.not_eq_true, checkTerminateExtensionBuild_iff] at homits
  exact homits

/-- **The step lemma of an activation.** -/
theorem Sorted.advance (h : a.Sorted) (hok : a.Ok F A q) (hin : SearchInput F A q)
    (horder : InOrder F A q) (hadv : Advanced F A flag answer a b e) : b.Sorted := by
  have hext : b.extensionBuild.Pairwise (· < ·) := by
    rw [hadv.parameters.2.2.1]
    exact h.extension
  refine ⟨hext, fun hpoint => ?_⟩
  cases hadv with
  | cutOff _ _ _ _ point => exact absurd (point.symm.trans hpoint) nofun
  | reject point sat found rejects =>
    exact hok.pairwise_found hin horder point sat
      (hok.query_notMem_of_rejects hin point sat rejects)
  | abort =>
    simp only at hpoint
    split at hpoint <;> cases hpoint
  | again =>
    simp only at hpoint
    split at hpoint <;> cases hpoint
  | fault why => exact absurd why (hok.not_faulty hin)
  | _ => cases hpoint

end Activation

variable {s s' : SearchState} {ℓ : Action} {ls : List Action} {proof : List ℕ}

/-- **Every call merges ascending lists** in a state in which all extensions are ascending. -/
theorem SortedInv.mergesSorted (hsorted : SortedInv s) (hinv : SearchInv F A q s)
    (hin : SearchInput F A q) (horder : InOrder F A q) (hstep : LawfulStep F A s ℓ s')
    (hcall : MergeCall s ℓ E S) : MergesSorted E S := by
  suffices h : E.Pairwise (· < ·) ∧ S.Pairwise (· < ·) ∧ ∀ x ∈ E, x ∉ S from
    ⟨h.1, h.2.1, pairwise_extendExtension h.1 h.2.1 h.2.2, fun _ => mem_extendExtension⟩
  obtain ⟨hstep, -⟩ := hstep
  cases hstep with
  | start => cases hcall
  | @act i a b e answer running active answers advance =>
    have hadv := Activation.advanced_of_advance advance
    have hok := hinv.activations i a active
    have ha := hsorted.activations i a active
    cases hcall with
    | spawn active' =>
      obtain rfl := Option.some.inj (active.symm.trans active')
      cases hadv with
      | spawn point sat found passes omits =>
        exact ⟨ha.extension,
          hok.pairwise_found hin horder point sat (hok.query_notMem_of_omits omits)⟩
    | handOver active' =>
      obtain rfl := Option.some.inj (active.symm.trans active')
      cases hadv with
      | handOver point => exact ⟨ha.extension, ha.initialSet point⟩

/-- **The step lemma of the region.** -/
theorem SortedInv.step (hsorted : SortedInv s) (hinv : SearchInv F A q s)
    (hin : SearchInput F A q) (horder : InOrder F A q) (hstep : LawfulStep F A s ℓ s') :
    SortedInv s' := by
  have hmerges := fun (E S : List ℕ) (hcall : MergeCall s ℓ E S) =>
    hsorted.mergesSorted hinv hin horder hstep hcall
  obtain ⟨hstep, -⟩ := hstep
  cases hstep with
  | @act i a b e answer running active answers advance =>
    have hadv := Activation.advanced_of_advance advance
    refine ⟨fun j c hc => ?_, fun t ht => ?_⟩
    · rcases getElem?_set_of_eq active hc with ⟨-, rfl⟩ | ⟨-, hold⟩
      · exact (hsorted.activations i a active).advance (hinv.activations i a active) hin horder hadv
      · exact hsorted.activations j c hold
    · rcases SearchState.of_mem_tasks_apply ht with ht | ⟨L, prio, rfl, rfl⟩
      · exact hsorted.tasks t ht
      · have hresult := (hmerges _ _ (.spawn active)).result
        cases hadv with
        | spawn => exact hresult
  | @start k x p t creator running waiting created captured =>
    refine ⟨fun j c hc => ?_, fun u hu => hsorted.tasks u (List.mem_of_mem_eraseIdx hu)⟩
    rcases SearchState.of_getElem?_startTask hc with hold | ⟨-, rfl⟩
    · exact hsorted.activations j c hold
    · exact ⟨hsorted.tasks t (List.mem_of_getElem? waiting), nofun⟩

theorem sortedInv_init : SortedInv (.init q proof) where
  activations := by
    intro i a ha
    obtain ⟨-, rfl⟩ := SearchState.eq_enter_of_init ha
    exact ⟨List.Pairwise.nil, nofun⟩
  tasks := fun t ht => absurd ht List.not_mem_nil

/-- **The invariant of every run.** -/
theorem SortedInv.run (hin : SearchInput F A q) (horder : InOrder F A q)
    (h : Transition.Run (LawfulStep F A) (.init q proof) ls s) :
    SearchInv F A q s ∧ SortedInv s :=
  ⟨SearchInv.run hin h, SearchInv.induction hin
    (fun _ _ _ hinv hsorted hstep => hsorted.step hinv hin horder hstep) sortedInv_init h⟩

/-! ## Lists that are not ascending -/

/-- **Every admissible set that omits the query is merged in some run**, in the order in which
the active arguments list it. -/
theorem exists_mergeCall (hin : SearchInput F A q) (hP : Dung.Admissible F.att A.args P)
    (hne : P.Nonempty) (hqP : q ∉ P) (proof : List ℕ) :
    ∃ ls s ℓ s', Transition.Run (LawfulStep F A) (.init q proof) ls s ∧ LawfulStep F A s ℓ s' ∧
      MergeCall s ℓ [] (A.vector.filter (modelOf F P)) := by
  have hvector : ∀ {R : VectorBitSet}, IsReduct F A [] R → R.vector = A.vector := by
    intro R hR
    rw [hR.vector, reductVector]
    exact List.filter_eq_self.mpr fun _ _ => survives_nil
  by_cases hatt : Dung.Attacks F.att P q
  · obtain ⟨R, b, ls, hR, -, -, hext, hset, hpoint, hrun⟩ := exists_reject hin hP hatt proof
    let s₁ : SearchState := (SearchState.init q proof).apply 0 b .setFlag
    let L : List ℕ := extendExtension b.extensionBuild b.initialSet
    have hstep : LawfulStep F A s₁ (.act 0 (.handOver L)) _ :=
      lawfulStep_act none rfl (rfl : _ = some b) (fun h => absurd (hpoint.symm.trans h) (by decide))
        (Activation.advance_handOver hpoint)
    have hcall : MergeCall s₁ (.act 0 (.handOver L)) b.extensionBuild b.initialSet :=
      .handOver rfl
    rw [hext, hset, hvector hR] at hcall
    exact ⟨ls, s₁, _, _, hrun, hstep, hcall⟩
  · obtain ⟨R, b, prio, hR, hpos, -, hb, hrun, hstep⟩ :=
      exists_spawnStep hin hP hne hqP hatt proof
    have hcall : MergeCall ((SearchState.init q proof).put 0 b)
        (.act 0 (.spawn (R.vector.filter (modelOf F P)) prio)) b.extensionBuild
        (getSetFromSolver b.solver b.reduct) := .spawn rfl
    rw [hb.extension, hb.hasModel.decode hpos, hvector hR] at hcall
    rw [hvector hR] at hstep
    exact ⟨_, _, _, _, hrun, hstep, hcall⟩

/-- So if every call merges ascending lists, the active arguments list these sets in ascending
order. -/
theorem inOrder_of_mergesSorted (hin : SearchInput F A q) (proof : List ℕ)
    (h : ∀ ls s ℓ s' E S, Transition.Run (LawfulStep F A) (.init q proof) ls s →
      LawfulStep F A s ℓ s' → MergeCall s ℓ E S → MergesSorted E S) : InOrder F A q := by
  intro P hP hqP
  rcases P.eq_empty_or_nonempty with rfl | hne
  · exact List.pairwise_of_forall fun a b ha => absurd ha (Set.notMem_empty a)
  · obtain ⟨ls, s, ℓ, s', hrun, hstep, hcall⟩ := exists_mergeCall hin hP hne hqP proof
    have hsorted : (A.vector.filter (modelOf F P)).Pairwise (· < ·) :=
      (h ls s ℓ s' _ _ hrun hstep hcall).initialSet
    rw [List.pairwise_filter] at hsorted
    refine hsorted.imp_of_mem fun ha hb hlt haP hbP => ?_
    exact hlt ((modelOf_accepted (hin.range _ ha)).mpr haP)
      ((modelOf_accepted (hin.range _ hb)).mpr hbP)

/-! ## The calls of `solve` -/

/-- Every call of `ExtendExtension` that a run of `solve` reaches merges ascending lists. -/
def SolveMergesSorted (F : AF) (q : ℕ) (proof : List ℕ) : Prop :=
  ∀ F' out, process F q ⟨[], []⟩ = some (F', .unknown, out) →
    ∀ ls s ℓ s' E S, Transition.Run (LawfulStep F' out) (.init q proof) ls s →
      LawfulStep F' out s ℓ s' → MergeCall s ℓ E S → MergesSorted E S

/-- **When the precondition of `merge` holds.**  In every run of `solve` in which each task sees the
argument and the flag of its creator, both lists of every call are ascending and the result is the
ascending list of their union, if and only if preprocessing decides the query, or the list of the
active arguments has every admissible set that omits the query in ascending order. -/
theorem solveMergesSorted_iff (W : WellFormed) {q : ℕ} (h1 : 1 ≤ q) (hn : q ≤ W.n)
    (proof : List ℕ) : SolveMergesSorted W.af q proof ↔
      ∀ F' out, process W.af q ⟨[], []⟩ = some (F', .unknown, out) → InOrder W.af out q := by
  have hq : q ∈ W.af.args := WellFormed.mem_args h1 hn
  refine forall_congr' fun F' => forall_congr' fun out => forall_congr' fun hproc => ?_
  have hres := processResult_of_eq W.coherent hq hproc
  have hin := hres.searchInput W.coherent hq
  have hatt : F'.att = W.af.att := hres.att_eq W.coherent
  have horder : InOrder F' out q ↔ InOrder W.af out q := by
    unfold InOrder
    rw [hatt]
  rw [← horder]
  constructor
  · exact inOrder_of_mergesSorted hin proof
  · intro horder ls s ℓ s' E S hrun hstep hcall
    obtain ⟨hinv, hsorted⟩ := SortedInv.run hin horder hrun
    exact hsorted.mergesSorted hinv hin horder hstep hcall

theorem solveMergesSorted_iff_choice : SolveMergesSorted choiceFramework.af 1 [] ↔
    ∀ F' out, process choiceFramework.af 1 ⟨[], []⟩ = some (F', .unknown, out) →
      InOrder choiceFramework.af out 1 :=
  solveMergesSorted_iff choiceFramework (by decide) (by decide) []

/-- The framework `1 ↔ 3 → 4 → 2`.  The traversal from 2 has no choice: it finds 4, 3 and 1
in this order. -/
def descendingFramework : WellFormed where
  n := 4
  calls := [(4, 2), (3, 4), (1, 3), (3, 1)]
  order := [(4, 2), (3, 4), (1, 3), (3, 1)]
  bound := choiceFramework.bound
  inRange := by decide
  iteration := iterationOrder_self (by decide)

/-- In `descendingFramework` the search for 2 may find `{4, 1}`, and merges it as it is listed,
with 4 in front of 1. -/
theorem not_solveMergesSorted_descending : ¬ SolveMergesSorted descendingFramework.af 2 [] := by
  intro hsorted
  have hproc : process descendingFramework.af 2 ⟨[], []⟩ =
      some ({ descendingFramework.af with distanceToQuery := [0, 3, 0, 2, 1] }, .unknown,
        ⟨[2, 4, 3, 1], [false, true, true, true, true]⟩) := by decide
  have hin := (processResult_of_eq descendingFramework.coherent
    (WellFormed.mem_args (by decide) (by decide)) hproc).searchInput descendingFramework.coherent
      (WellFormed.mem_args (by decide) (by decide))
  have hP : Dung.Admissible descendingFramework.af.att (Dung.members [2, 4, 3, 1])
      (Dung.members [4, 1]) := by decide
  have horder := inOrder_of_mergesSorted hin [] (hsorted _ _ hproc) _ hP (by simp [Dung.members])
  have hsub : [4, 1].Sublist [2, 4, 3, 1] := by decide
  have hlt : 4 < 1 := List.pairwise_pair.mp (horder.sublist hsub) List.mem_cons_self
    (List.mem_cons_of_mem _ List.mem_cons_self)
  exact absurd hlt (by decide)

end AFAnalyzer
