import AFAnalyzer.Search.HandOver
import AFAnalyzer.Storage.Ledger

/-!
# The blocks of the search

An activation that has passed the early returns allocates `isSolved`, `isFirstCalculation` and
its solver, and every later way out of the function frees the first two and deletes the solver.
The flag is a block of `check_rejection_parallel`, which frees it after the region.  This module
puts the heap under the search: the steps perform the operations that the source performs, in its
order (`Activation.heapOps`), on one heap that all activations share, and the allocator may hand
out any blocks that are not in use, also ones that were freed before.

The solver is deleted through a pointer to `SatSolver`, whose destructor is not virtual.  The
language leaves that undefined.  The model has what compilers make of it: the block of the object
is given back, but the destructor of `SatSolver_cadical` does not run, and what CaDiCaL has
allocated stays (`Blocks.cadical`).

An assignment to `output_extension` inside another one corrupts the nodes of the list, so from
there on the heap has no meaning.

`search_storage` says that this is the only error there ever is: apart from it, no block is used
before it is allocated or after it is freed, and none is freed twice.  It also says what is left
over: the memory of every solver that was made.
-/

namespace AFAnalyzer

open Storage

/-- The pointers `isSolved`, `isFirstCalculation` and `solver` of an activation, and the memory
that CaDiCaL has allocated for the solver. -/
structure Blocks where
  isSolved : ℕ
  isFirstCalculation : ℕ
  solver : ℕ
  cadical : ℕ

/-- The blocks that are given back. -/
def Blocks.freed (m : Blocks) : List ℕ := [m.isSolved, m.isFirstCalculation, m.solver]

/-- All blocks. -/
def Blocks.list (m : Blocks) : List ℕ := m.cadical :: m.freed

/-- `free(isSolved); free(isFirstCalculation); delete solver`. -/
def Blocks.frees (m : Blocks) : List (Op ℕ) := m.freed.map .free

/-- A call of a method of the solver. -/
def Blocks.useSolver (m : Blocks) : List (Op ℕ) := [.access m.solver, .access m.cadical]

/-- The points between the allocation of the blocks and their release. -/
def Point.holds : Point → Bool
  | .pollEncoded | .loopHead | .answered | .handOver | .assigning | .pollLoop => true
  | .entry | .encode | .leaving | .returned => false

/-- The points before the allocation. -/
def Point.early : Point → Bool
  | .entry | .encode => true
  | _ => false

namespace Activation

/-- The next step allocates the blocks. -/
def allocates (F : AF) (activeArgs : VectorBitSet) (a : Activation) : Bool :=
  match a.point with
  | .encode =>
    match buildReduct F activeArgs a.extensionBuild with
    | none => false
    | some reduct => !decide (reduct.vector.length < 2)
  | _ => false

/-- The operations on the heap in one step. -/
def heapOps (F : AF) (activeArgs : VectorBitSet) (flag : Bool) (m : Blocks) (a : Activation) :
    List (Op ℕ) :=
  match a.point with
  | .entry => [.access a.isRejected]
  | .encode =>
    match buildReduct F activeArgs a.extensionBuild with
    | none => []
    | some reduct =>
      if reduct.vector.length < 2 then []
      else
        [.malloc m.isSolved, .access m.isSolved, .malloc m.isFirstCalculation,
          .access m.isFirstCalculation, .malloc m.solver, .malloc m.cadical] ++ m.useSolver
  | .pollEncoded => .access a.isRejected :: if flag = true then m.frees else []
  | .loopHead =>
    .access m.isSolved :: ((if a.isSolved = true then m.useSolver else []) ++
      .access m.isSolved :: m.useSolver)
  | .answered =>
    if a.hasSolution = false then
      .access m.isFirstCalculation ::
        if a.isFirstCalculation = true then .access a.isRejected :: m.frees else m.frees
    else
      let initialSet := getSetFromSolver a.solver a.reduct
      m.useSolver ++ .access m.isFirstCalculation ::
        if initialSet = [] then
          if a.isFirstCalculation = true then .access a.isRejected :: m.frees else []
        else if checkRejection a.argument initialSet F = true then [.access a.isRejected]
        else if checkTerminateExtensionBuild a.argument initialSet = true then
          if a.isRejectedTmp = true then m.frees else []
        else []
  | .handOver => []
  | .assigning => m.frees
  | .pollLoop =>
    .access a.isRejected :: if (a.hasSolution && !flag) = true then [] else m.frees
  | .leaving | .returned => []

/-- The activation is between the allocation of its blocks and their release. -/
def Holds (a : Activation) : Prop := a.point.holds = true

instance (a : Activation) : Decidable a.Holds := inferInstanceAs (Decidable (_ = true))

/-- The blocks that an activation is to answer for: all of them while it holds them, and the
memory of CaDiCaL for ever. -/
def owned (m : Option Blocks) (a : Activation) : Finset ℕ :=
  match m with
  | none => ∅
  | some m => if a.Holds then m.list.toFinset else {m.cadical}

end Activation

/-- The search and the heap under it.  An activation has no blocks before it has allocated them;
`live` is gone after an error. -/
structure StoreState where
  search : SearchState
  blocks : ℕ → Option Blocks
  live : Option (Finset ℕ)

/-- The flag is allocated. -/
def StoreState.init (argument : ℕ) (proofExtension : List ℕ) : StoreState where
  search := .init argument proofExtension
  blocks := fun _ => none
  live := some {flagCell}

/-- **One step with its operations on the heap.**  A list that is torn is an error. -/
inductive StoreStep (F : AF) (A : VectorBitSet) : StoreState → Action → StoreState → Prop
  | act {p : StoreState} {i : ℕ} {a : Activation} {e : Effect} {s : SearchState} {m : Blocks}
      (step : LawfulStep F A p.search (.act i e) s) (active : p.search.activations[i]? = some a)
      (kept : a.Holds → p.blocks i = some m)
      (fresh : a.allocates F A = true → m.list.Nodup ∧
        ∀ live, p.live = some live → ∀ x ∈ m.list, x ∉ live) :
      StoreStep F A p (.act i e) {
        search := s
        blocks := if a.allocates F A = true then Function.update p.blocks i (some m) else p.blocks
        live :=
          if s.torn = true then none
          else p.live.bind fun live =>
            exec live (a.heapOps F A (p.search.heap a.isRejected) m) }
  | start {p : StoreState} {k x r : ℕ} {s : SearchState}
      (step : LawfulStep F A p.search (.start k x r) s) :
      StoreStep F A p (.start k x r) { p with search := s }

variable {F : AF} {A : VectorBitSet} {q : ℕ} {proof : List ℕ} {ls : List Action} {ℓ : Action}
  {s s' : SearchState} {i : ℕ} {m : Blocks} {o : Option Blocks} {live : Finset ℕ} {flag : Bool}

/-! ## One activation -/

namespace Blocks

theorem isSolved_mem : m.isSolved ∈ m.list := by simp [list, freed]

theorem isFirstCalculation_mem : m.isFirstCalculation ∈ m.list := by simp [list, freed]

theorem solver_mem : m.solver ∈ m.list := by simp [list, freed]

theorem cadical_mem : m.cadical ∈ m.list := List.mem_cons_self

theorem exec_useSolver {ops : List (Op ℕ)} (h : ∀ x ∈ m.list, x ∈ live) :
    exec live (m.useSolver ++ ops) = exec live ops := by
  rw [useSolver, List.cons_append, List.singleton_append, exec_access (h _ solver_mem),
    exec_access (h _ cadical_mem)]

/-- Giving back all blocks but the memory of CaDiCaL. -/
theorem exec_frees (hnodup : m.list.Nodup) (hmem : ∀ x ∈ m.list, x ∈ live) :
    exec live m.frees = some (live \ m.list.toFinset ∪ {m.cadical}) := by
  obtain ⟨hcadical, hfreed⟩ := List.nodup_cons.mp hnodup
  rw [frees, exec_map_free hfreed fun x hx => hmem x (List.mem_cons_of_mem _ hx), list,
    List.toFinset_cons, Finset.sdiff_insert, Finset.union_comm, ← Finset.insert_eq,
    Finset.insert_erase]
  exact Finset.mem_sdiff.mpr ⟨hmem _ cadical_mem, fun h => hcadical (List.mem_toFinset.mp h)⟩

/-- Allocating them. -/
theorem exec_allocate (hnodup : m.list.Nodup) (hfresh : ∀ x ∈ m.list, x ∉ live) :
    exec live ([.malloc m.isSolved, .access m.isSolved, .malloc m.isFirstCalculation,
      .access m.isFirstCalculation, .malloc m.solver, .malloc m.cadical] ++ m.useSolver) =
        some (live ∪ m.list.toFinset) := by
  have hs := hfresh _ isSolved_mem
  have hf := hfresh _ isFirstCalculation_mem
  have hv := hfresh _ solver_mem
  have hc := hfresh _ cadical_mem
  simp only [list, freed, List.nodup_cons, List.mem_cons, List.not_mem_nil, or_false,
    not_or] at hnodup
  obtain ⟨⟨hcs, hcf, hcv⟩, ⟨hsf, hsv⟩, hfv, -⟩ := hnodup
  simp only [List.cons_append, List.nil_append]
  rw [exec_malloc hs, exec_access (Finset.mem_insert_self _ _), exec_malloc, exec_access
    (Finset.mem_insert_self _ _), exec_malloc, exec_malloc, ← List.append_nil m.useSolver,
    exec_useSolver, exec]
  · congr 1
    ext x
    simp only [Finset.mem_insert, Finset.mem_union, List.mem_toFinset, list, freed,
      List.mem_cons, List.not_mem_nil, or_false]
    tauto
  · intro x hx
    simp only [list, freed, List.mem_cons, List.not_mem_nil, or_false] at hx
    simp only [Finset.mem_insert]
    tauto
  · simp only [Finset.mem_insert, not_or]
    exact ⟨hcv, hcf, hcs, hc⟩
  · simp only [Finset.mem_insert, not_or]
    exact ⟨Ne.symm hfv, Ne.symm hsv, hv⟩
  · simp only [Finset.mem_insert, not_or]
    exact ⟨Ne.symm hsf, hf⟩

end Blocks

namespace Activation

variable {a b : Activation} {e : Effect} {answer : Option (ℕ → Bool)}

theorem holds_of_point {p : Point} (hp : a.point = p) (h : p.holds = true) : a.Holds := by
  rw [Holds, hp]
  exact h

theorem not_holds_of_point {p : Point} (hp : a.point = p) (h : p.holds = false) : ¬ a.Holds := by
  rw [Holds, hp, h]
  exact Bool.false_ne_true

theorem early_of_allocates (h : a.allocates F A = true) : a.point.early = true := by
  unfold allocates at h
  split at h
  · next hpoint =>
    rw [hpoint]
    rfl
  · exact Bool.noConfusion h

theorem allocates_eq_false {p : Point} (hp : a.point = p) (h : p ≠ .encode) :
    a.allocates F A = false := by
  subst hp
  unfold allocates
  split
  · next hpoint => exact absurd hpoint h
  · rfl

/-- What is allocated after a step of an activation that keeps what it has. -/
theorem owned_keep (h : a.Holds ↔ b.Holds) (hown : a.owned o ⊆ live) :
    live \ a.owned o ∪ b.owned o = live := by
  have heq : b.owned o = a.owned o := by
    cases o with
    | none => rfl
    | some m => simp only [owned, h]
  rw [heq, Finset.sdiff_union_of_subset hown]

/-- **The operations of a step succeed**, and lead from what the activation owned to what it
owns now. -/
theorem Advanced.exec_heapOps (h : Advanced F A flag answer a b e) (hok : a.Ok F A q)
    (hin : SearchInput F A q) (hcell : flagCell ∈ live) (hown : a.owned o ⊆ live)
    (hkept : a.Holds → o = some m ∧ m.list.Nodup)
    (hfresh : a.allocates F A = true → o = none ∧ m.list.Nodup ∧ ∀ x ∈ m.list, x ∉ live) :
    exec live (a.heapOps F A flag m) = some (live \ a.owned o ∪
      b.owned (if a.allocates F A = true then some m else o)) := by
  have hpointer : a.isRejected ∈ live := by
    rw [hok.isRejected]
    exact hcell
  have hmem : a.Holds → ∀ x ∈ m.list, x ∈ live := by
    intro ha x hx
    rw [(hkept ha).1, owned, if_pos ha] at hown
    exact hown (List.mem_toFinset.mpr hx)
  -- giving the blocks back, and keeping them
  have hrelease : a.Holds → ¬ b.Holds →
      exec live m.frees = some (live \ a.owned o ∪ b.owned o) := by
    intro ha hb
    obtain ⟨rfl, hnodup⟩ := hkept ha
    rw [Blocks.exec_frees hnodup (hmem ha), owned, if_pos ha, owned, if_neg hb]
  have hkeep : (a.Holds ↔ b.Holds) → exec live [] = some (live \ a.owned o ∪ b.owned o) := by
    intro hab
    rw [exec, owned_keep hab hown]
  cases h with
  | cutOff polls set reduct same point =>
    have hb : ¬ b.Holds := not_holds_of_point point rfl
    rcases polls with hp | hp | hp
    · rw [allocates_eq_false hp (by decide)]
      simp only [heapOps, hp, Bool.false_eq_true, if_false]
      rw [exec_access hpointer]
      exact hkeep (iff_of_false (not_holds_of_point hp rfl) hb)
    · rw [allocates_eq_false hp (by decide)]
      simp only [heapOps, hp, set, if_true, Bool.false_eq_true, if_false]
      rw [exec_access hpointer, hrelease (holds_of_point hp rfl) hb]
    · rw [allocates_eq_false hp (by decide)]
      simp only [heapOps, hp, set, Bool.not_true, Bool.and_false, Bool.false_eq_true, if_false]
      rw [exec_access hpointer, hrelease (holds_of_point hp rfl) hb]
  | entered point =>
    rw [allocates_eq_false point (by decide)]
    simp only [heapOps, point, Bool.false_eq_true, if_false]
    rw [exec_access hpointer]
    exact hkeep (iff_of_false (not_holds_of_point point rfl)
      (not_holds_of_point (p := .encode) rfl rfl))
  | small point build size =>
    have halloc : a.allocates F A = false := by
      simp only [allocates, point, build, decide_eq_true size, Bool.not_true]
    rw [halloc]
    simp only [heapOps, point, build, if_pos size, Bool.false_eq_true, if_false]
    exact hkeep (iff_of_false (not_holds_of_point point rfl)
      (not_holds_of_point (p := .leaving) rfl rfl))
  | encoded point build size =>
    have halloc : a.allocates F A = true := by
      simp only [allocates, point, build, decide_eq_false size, Bool.not_false]
    obtain ⟨rfl, hdistinct, hunused⟩ := hfresh halloc
    rw [halloc]
    simp only [heapOps, point, build, if_neg size, if_true]
    rw [Blocks.exec_allocate hdistinct hunused]
    simp only [owned, Finset.sdiff_empty]
    rw [if_pos (holds_of_point (p := .pollEncoded) rfl rfl)]
  | armed point unset =>
    have ha := holds_of_point point rfl
    rw [allocates_eq_false point (by decide)]
    simp only [heapOps, point, unset, Bool.false_eq_true, if_false]
    rw [exec_access hpointer]
    exact hkeep (iff_of_true ha (holds_of_point (p := .loopHead) rfl rfl))
  | call point =>
    have ha := holds_of_point point rfl
    have hs := hmem ha _ Blocks.isSolved_mem
    have hlast : exec live (.access m.isSolved :: m.useSolver) =
        some (live \ a.owned o ∪ (a.called answer).owned o) := by
      rw [exec_access hs, ← List.append_nil m.useSolver, Blocks.exec_useSolver (hmem ha)]
      exact hkeep (iff_of_true ha (holds_of_point (p := .answered) rfl rfl))
    rw [allocates_eq_false point (by decide)]
    simp only [heapOps, point, Bool.false_eq_true, if_false]
    rw [exec_access hs]
    split
    · rw [Blocks.exec_useSolver (hmem ha), hlast]
    · exact hlast
  | exhausted point unsat first =>
    have ha := holds_of_point point rfl
    rw [allocates_eq_false point (by decide)]
    simp only [heapOps, point, unsat, first, if_true, Bool.false_eq_true, if_false]
    exact (exec_access (hmem ha _ Blocks.isFirstCalculation_mem)).trans
      (hrelease ha (not_holds_of_point (p := .leaving) rfl rfl))
  | onlyEmpty point first empty =>
    have ha := holds_of_point point rfl
    have hb := hrelease ha (not_holds_of_point (p := .leaving) rfl rfl)
    have hf := hmem ha _ Blocks.isFirstCalculation_mem
    rw [allocates_eq_false point (by decide)]
    cases hsat : a.hasSolution with
    | false =>
      simp only [heapOps, point, hsat, first, if_true, Bool.false_eq_true, if_false]
      exact (exec_access hf).trans ((exec_access hpointer).trans hb)
    | true =>
      have hempty := empty.resolve_left (by simp [hsat])
      simp only [heapOps, point, hsat, hempty, first, if_true, Bool.true_eq_false,
        Bool.false_eq_true, if_false]
      rw [Blocks.exec_useSolver (hmem ha)]
      exact (exec_access hf).trans ((exec_access hpointer).trans hb)
  | reject point sat found rejects =>
    have ha := holds_of_point point rfl
    rw [allocates_eq_false point (by decide)]
    simp only [heapOps, point, sat, found, rejects, if_true, Bool.true_eq_false,
      Bool.false_eq_true, if_false]
    rw [Blocks.exec_useSolver (hmem ha), exec_access (hmem ha _ Blocks.isFirstCalculation_mem),
      exec_access hpointer]
    exact hkeep (iff_of_true ha (holds_of_point (p := .handOver) rfl rfl))
  | abort point sat found passes contains =>
    have ha := holds_of_point point rfl
    have htmp := hok.tmp (Or.inr point)
    rw [allocates_eq_false point (by decide)]
    simp only [heapOps, point, sat, found, passes, contains, htmp, if_true, Bool.true_eq_false,
      Bool.false_eq_true, if_false]
    rw [Blocks.exec_useSolver (hmem ha), exec_access (hmem ha _ Blocks.isFirstCalculation_mem)]
    have hlast := hkeep (iff_of_true ha (holds_of_point (if_neg (by simp [htmp])) rfl))
    simp only [htmp, Bool.false_eq_true, if_false] at hlast
    exact hlast
  | spawn point sat found passes omits =>
    have ha := holds_of_point point rfl
    rw [allocates_eq_false point (by decide)]
    simp only [heapOps, point, sat, found, passes, omits, Bool.true_eq_false,
      Bool.false_eq_true, if_false]
    rw [Blocks.exec_useSolver (hmem ha), exec_access (hmem ha _ Blocks.isFirstCalculation_mem)]
    exact hkeep (iff_of_true ha (holds_of_point (p := .pollLoop) rfl rfl))
  | again point unset =>
    have ha := holds_of_point point rfl
    obtain ⟨-, -, hsat⟩ := hok.pollLoop point
    rw [allocates_eq_false point (by decide)]
    simp only [heapOps, point, unset, hsat, Bool.not_false, Bool.and_true, if_true,
      Bool.false_eq_true, if_false]
    rw [exec_access hpointer]
    have hlast := hkeep (iff_of_true ha (holds_of_point (if_pos hsat) rfl))
    simp only [hsat, if_true] at hlast
    exact hlast
  | handOver point =>
    rw [allocates_eq_false point (by decide)]
    simp only [heapOps, point, Bool.false_eq_true, if_false]
    exact hkeep (iff_of_true (holds_of_point point rfl)
      (holds_of_point (p := .assigning) rfl rfl))
  | assigned point =>
    rw [allocates_eq_false point (by decide)]
    simp only [heapOps, point, Bool.false_eq_true, if_false]
    exact hrelease (holds_of_point point rfl) (not_holds_of_point (p := .leaving) rfl rfl)
  | ret point =>
    rw [allocates_eq_false point (by decide)]
    simp only [heapOps, point, Bool.false_eq_true, if_false]
    exact hkeep (iff_of_false (not_holds_of_point point rfl)
      (not_holds_of_point (p := .returned) rfl rfl))
  | fault why => exact absurd why (hok.not_faulty hin)

/-- Blocks are taken in one step only. -/
theorem Advanced.holds (h : Advanced F A flag answer a b e) (hb : b.Holds) :
    a.Holds ∨ a.allocates F A = true := by
  cases h with
  | cutOff _ _ _ _ point => exact absurd hb (not_holds_of_point point rfl)
  | entered => exact absurd hb (not_holds_of_point (p := .encode) rfl rfl)
  | encoded point build size =>
    refine Or.inr ?_
    simp only [allocates, point, build, decide_eq_false size, Bool.not_false]
  | small => exact absurd hb (not_holds_of_point (p := .leaving) rfl rfl)
  | armed point => exact Or.inl (holds_of_point point rfl)
  | call point => exact Or.inl (holds_of_point point rfl)
  | exhausted point => exact Or.inl (holds_of_point point rfl)
  | onlyEmpty point => exact Or.inl (holds_of_point point rfl)
  | reject point => exact Or.inl (holds_of_point point rfl)
  | abort point => exact Or.inl (holds_of_point point rfl)
  | spawn point => exact Or.inl (holds_of_point point rfl)
  | again point => exact Or.inl (holds_of_point point rfl)
  | handOver point => exact Or.inl (holds_of_point point rfl)
  | assigned point => exact Or.inl (holds_of_point point rfl)
  | ret => exact absurd hb (not_holds_of_point (p := .returned) rfl rfl)
  | fault _ same =>
    rw [Holds, same.2.2.2.2] at hb
    exact Or.inl hb

/-- The points before the allocation are not reached again. -/
theorem Advanced.early (h : Advanced F A flag answer a b e) (hok : a.Ok F A q)
    (hin : SearchInput F A q) (hb : b.point.early = true) :
    a.point.early = true ∧ a.allocates F A = false := by
  cases h with
  | cutOff _ _ _ _ point =>
    rw [point] at hb
    exact Bool.noConfusion hb
  | entered point =>
    rw [point]
    exact ⟨rfl, allocates_eq_false point (by decide)⟩
  | abort =>
    simp only at hb
    split at hb <;> exact Bool.noConfusion hb
  | again =>
    simp only at hb
    split at hb <;> exact Bool.noConfusion hb
  | fault why => exact absurd why (hok.not_faulty hin)
  | _ => exact Bool.noConfusion hb

/-- What an activation owns after a step it owned before, or it was not in use. -/
theorem Advanced.owned_cases (h : Advanced F A flag answer a b e)
    (hfresh : a.allocates F A = true → ∀ x ∈ m.list, x ∉ live) :
    b.owned (if a.allocates F A = true then some m else o) ⊆ a.owned o ∨
      Disjoint (b.owned (if a.allocates F A = true then some m else o)) live := by
  by_cases halloc : a.allocates F A = true
  · refine Or.inr (Finset.disjoint_left.mpr fun x hx => ?_)
    rw [if_pos halloc, owned] at hx
    split at hx
    · exact hfresh halloc x (List.mem_toFinset.mp hx)
    · rw [Finset.mem_singleton.mp hx]
      exact hfresh halloc _ Blocks.cadical_mem
  · rw [if_neg halloc]
    refine Or.inl ?_
    cases o with
    | none => exact subset_rfl
    | some m =>
      by_cases hb : b.Holds
      · simp only [owned, if_pos hb, if_pos ((h.holds hb).resolve_right halloc), subset_rfl]
      · simp only [owned, if_neg hb]
        split
        · exact Finset.singleton_subset_iff.mpr (List.mem_toFinset.mpr Blocks.cadical_mem)
        · exact subset_rfl

end Activation

/-! ## The region -/

/-- The blocks that the activation at index `i` is to answer for. -/
def StoreState.own (p : StoreState) (i : ℕ) : Finset ℕ :=
  match p.search.activations[i]? with
  | some a => a.owned (p.blocks i)
  | none => ∅

variable {p p' : StoreState} {a b : Activation} {e : Effect}

theorem StoreState.own_of_some (ha : p.search.activations[i]? = some a) :
    p.own i = a.owned (p.blocks i) := by
  rw [own, ha]

/-- One activation changes what it owns. -/
theorem StoreState.own_apply {blocks : ℕ → Option Blocks} {live' : Option (Finset ℕ)}
    (active : p.search.activations[i]? = some a)
    (hblocks : ∀ j, j ≠ i → blocks j = p.blocks j) :
    StoreState.own ⟨p.search.apply i b e, blocks, live'⟩ =
      Function.update p.own i (b.owned (blocks i)) := by
  funext j
  by_cases hji : j = i
  · subst hji
    rw [StoreState.own_of_some (a := b)
      (List.getElem?_set_self (List.getElem?_eq_some_iff.mp active).1), Function.update_self]
  · rw [Function.update_of_ne hji]
    simp only [StoreState.own]
    rw [SearchState.activations_apply, List.getElem?_set_ne (Ne.symm hji), hblocks j hji]

/-- A task that starts owns nothing. -/
theorem StoreState.own_startTask {k x r : ℕ} {t : Task}
    (hunused : ∀ j, p.search.activations.length ≤ j → p.blocks j = none) :
    StoreState.own { p with search := p.search.startTask k t x r } = p.own := by
  funext j
  simp only [StoreState.own]
  rw [SearchState.activations_startTask, List.getElem?_append]
  by_cases hj : j < p.search.activations.length
  · rw [if_pos hj]
  · rw [if_neg hj, List.getElem?_eq_none (not_lt.mp hj), hunused j (not_lt.mp hj)]
    cases j - p.search.activations.length with
    | zero => rfl
    | succ j => rfl

/-- **The heap under the search is in order.** -/
structure StoreInv (F : AF) (A : VectorBitSet) (q : ℕ) (p : StoreState) : Prop where
  search : SearchInv F A q p.search
  torn : p.search.torn = true → p.live = none
  ledger : p.search.torn = false → ∃ live, p.live = some live ∧ Ledger {flagCell} p.own live
  held : ∀ (i : ℕ) (a : Activation), p.search.activations[i]? = some a → a.Holds →
    ∃ m, p.blocks i = some m ∧ m.list.Nodup
  early : ∀ (i : ℕ) (m : Blocks), p.blocks i = some m →
    ∃ a, p.search.activations[i]? = some a ∧ a.point.early = false

theorem storeInv_init : StoreInv F A q (.init q proof) where
  search := searchInv_init
  torn := fun h => Bool.noConfusion h
  ledger := by
    intro _
    refine ⟨{flagCell}, rfl, ?_⟩
    have hown : (StoreState.init q proof).own = fun _ => ∅ := by
      funext i
      cases i with
      | zero => rfl
      | succ i => rfl
    rw [hown]
    exact ledger_base
  held := by
    intro i a ha hholds
    obtain ⟨-, rfl⟩ := SearchState.eq_enter_of_init ha
    exact absurd hholds (Activation.not_holds_of_point (p := .entry) rfl rfl)
  early := fun _ _ hm => absurd hm.symm (Option.some_ne_none _)

/-- An activation that is about to allocate its blocks has none. -/
theorem StoreInv.blocks_of_allocates (hinv : StoreInv F A q p)
    (ha : p.search.activations[i]? = some a) (halloc : a.allocates F A = true) :
    p.blocks i = none := by
  by_contra hsome
  obtain ⟨m, hm⟩ := Option.ne_none_iff_exists'.mp hsome
  obtain ⟨c, hc, hlate⟩ := hinv.early i m hm
  obtain rfl := Option.some.inj (ha.symm.trans hc)
  rw [Activation.early_of_allocates halloc] at hlate
  exact Bool.noConfusion hlate

/-- The step of an activation that is known. -/
theorem LawfulStep.advanced (h : LawfulStep F A s (.act i e) s')
    (active : s.activations[i]? = some a) : ∃ b answer,
      Activation.Advanced F A (s.heap a.isRejected) answer a b e ∧ s' = s.apply i b e := by
  obtain ⟨step, -⟩ := h
  cases step with
  | @act i a' b e answer running active' answers advance =>
    obtain rfl := Option.some.inj (active.symm.trans active')
    exact ⟨b, answer, Activation.advanced_of_advance advance, rfl⟩

/-- **The step lemma.** -/
theorem StoreInv.step (hin : SearchInput F A q) (hinv : StoreInv F A q p)
    (h : StoreStep F A p ℓ p') : StoreInv F A q p' := by
  cases h with
  | @act i a e s m step active kept fresh =>
    obtain ⟨b, answer, hadv, rfl⟩ := step.advanced active
    have hok := hinv.search.activations i a active
    have hblocks : ∀ j, j ≠ i → (if a.allocates F A = true then
        Function.update p.blocks i (some m) else p.blocks) j = p.blocks j := by
      intro j hji
      split
      · exact Function.update_of_ne hji _ _
      · rfl
    have hself : (if a.allocates F A = true then Function.update p.blocks i (some m)
        else p.blocks) i = if a.allocates F A = true then some m else p.blocks i := by
      split
      · exact Function.update_self ..
      · rfl
    refine ⟨hinv.search.step hin step, fun ht => if_pos ht, fun ht => ?_, fun j c hc hholds => ?_,
      fun j m' hm' => ?_⟩
    · -- the account: this activation changes what it owns
      have hwhole : p.search.torn = false := by
        rw [← Bool.not_eq_true]
        exact fun hold => Bool.false_ne_true (ht.symm.trans (SearchState.torn_apply_of_true hold))
      obtain ⟨live, hlive, hledger⟩ := hinv.ledger hwhole
      have hown := StoreState.own_of_some active
      have hunused : a.allocates F A = true → ∀ x ∈ m.list, x ∉ live := fun halloc =>
        (fresh halloc).2 live hlive
      have hsub : a.owned (p.blocks i) ⊆ live := fun x hx =>
        hledger.mem_of_own (i := i) (hown ▸ hx)
      have hkept : a.Holds → p.blocks i = some m ∧ m.list.Nodup := by
        intro ha
        obtain ⟨m', hm', hnodup⟩ := hinv.held i a active ha
        obtain rfl := Option.some.inj ((kept ha).symm.trans hm')
        exact ⟨hm', hnodup⟩
      have hexec := hadv.exec_heapOps hok hin (hledger.mem_of_base (Finset.mem_singleton_self _))
        hsub hkept fun halloc =>
          ⟨hinv.blocks_of_allocates active halloc, (fresh halloc).1, hunused halloc⟩
      refine ⟨live \ p.own i ∪
        b.owned (if a.allocates F A = true then some m else p.blocks i), ?_, ?_⟩
      · show (if (p.search.apply i b e).torn = true then none else _) = _
        rw [if_neg (by rw [ht]; exact Bool.false_ne_true), hlive, Option.bind_some, hown]
        exact hexec
      · rw [StoreState.own_apply active hblocks, hself]
        refine hledger.update i ?_
        rw [hown]
        exact hadv.owned_cases hunused
    · show ∃ m', (if a.allocates F A = true then Function.update p.blocks i (some m)
        else p.blocks) j = some m' ∧ m'.list.Nodup
      rcases getElem?_set_of_eq active hc with ⟨rfl, rfl⟩ | ⟨hji, hold⟩
      · rw [hself]
        by_cases halloc : a.allocates F A = true
        · exact ⟨m, if_pos halloc, (fresh halloc).1⟩
        · rw [if_neg halloc]
          exact hinv.held _ a active ((hadv.holds hholds).resolve_right halloc)
      · rw [hblocks j hji]
        exact hinv.held j c hold hholds
    · show ∃ c, (p.search.apply i b e).activations[j]? = some c ∧ c.point.early = false
      have hlt := (List.getElem?_eq_some_iff.mp active).1
      by_cases hji : j = i
      · subst hji
        refine ⟨b, List.getElem?_set_self hlt, ?_⟩
        rw [← Bool.not_eq_true]
        intro hearly
        obtain ⟨hearly', halloc⟩ := hadv.early hok hin hearly
        have hm : p.blocks j = some m' := by
          rw [← hm']
          show _ = (if a.allocates F A = true then _ else _ : ℕ → Option Blocks) j
          rw [halloc]
          rfl
        obtain ⟨c, hc, hlate⟩ := hinv.early j m' hm
        obtain rfl := Option.some.inj (active.symm.trans hc)
        rw [hearly'] at hlate
        exact Bool.noConfusion hlate
      · obtain ⟨c, hc, hlate⟩ := hinv.early j m' ((hblocks j hji).symm.trans hm')
        exact ⟨c, (List.getElem?_set_ne (Ne.symm hji)).trans hc, hlate⟩
  | @start k x r s step =>
    have hsearch := hinv.search.step hin step
    obtain ⟨step, -⟩ := step
    cases step with
    | start running waiting created captured =>
      have hunused : ∀ j, p.search.activations.length ≤ j → p.blocks j = none := by
        intro j hj
        by_contra hsome
        obtain ⟨m, hm⟩ := Option.ne_none_iff_exists'.mp hsome
        obtain ⟨c, hc, -⟩ := hinv.early j m hm
        exact absurd (List.getElem?_eq_some_iff.mp hc).1 (not_lt.mpr hj)
      refine ⟨hsearch, hinv.torn, fun ht => ?_, fun j c hc hholds => ?_, fun j m hm => ?_⟩
      · rw [StoreState.own_startTask hunused]
        exact hinv.ledger ht
      · rcases SearchState.of_getElem?_startTask hc with hold | ⟨-, rfl⟩
        · exact hinv.held j c hold hholds
        · exact absurd hholds (Activation.not_holds_of_point (p := .entry) rfl rfl)
      · obtain ⟨c, hc, hlate⟩ := hinv.early j m hm
        have hlt := (List.getElem?_eq_some_iff.mp hc).1
        exact ⟨c, (List.getElem?_append_left hlt).trans hc, hlate⟩

theorem StoreInv.run (hin : SearchInput F A q)
    (h : Transition.Run (StoreStep F A) (.init q proof) ls p) : StoreInv F A q p :=
  h.invariant (fun _ _ _ hinv hstep => hinv.step hin hstep) storeInv_init

/-- The heap is there exactly as long as the list is whole. -/
theorem StoreInv.live_eq_none_iff (hinv : StoreInv F A q p) :
    p.live = none ↔ p.search.torn = true := by
  refine ⟨fun hnone => ?_, hinv.torn⟩
  by_contra hwhole
  obtain ⟨live, hlive, -⟩ := hinv.ledger (Bool.not_eq_true _ ▸ hwhole)
  exact absurd (hlive.symm.trans hnone) (Option.some_ne_none live)

/-- Blocks are never forgotten. -/
theorem StoreStep.blocks_ne_none (h : StoreStep F A p ℓ p') (hsome : p.blocks i ≠ none) :
    p'.blocks i ≠ none := by
  cases h with
  | @act j a e s m step active kept fresh =>
    show (if a.allocates F A = true then Function.update p.blocks j (some m)
      else p.blocks) i ≠ none
    split
    · rw [Function.update_apply]
      split
      · exact Option.some_ne_none m
      · exact hsome
    · exact hsome
  | start => exact hsome

/-- Whoever has called the solver has made one. -/
theorem exists_blocks_of_called (hin : SearchInput F A q)
    (h : Transition.Run (StoreStep F A) (.init q proof) ls p) (hcall : .act i .callSolver ∈ ls) :
    ∃ m, p.blocks i = some m := by
  obtain ⟨before, after, rfl⟩ := List.append_of_mem hcall
  obtain ⟨p₁, hbefore, hrest⟩ := h.split
  cases hrest with
  | cons first rest =>
    have hsome : p₁.blocks i ≠ none := by
      cases first with
      | act step active =>
        obtain ⟨b, answer, hadv, -⟩ := step.advanced active
        cases hadv with
        | call point =>
          obtain ⟨m, hm, -⟩ := (StoreInv.run hin hbefore).held i _ active
            (Activation.holds_of_point point rfl)
          rw [hm]
          exact Option.some_ne_none m
    exact Option.ne_none_iff_exists'.mp (rest.invariant
      (P := fun p => p.blocks i ≠ none) (fun _ _ _ hsome hstep => hstep.blocks_ne_none hsome)
      (first.blocks_ne_none hsome))

/-- A run with its heap is a run. -/
theorem StoreStep.search (h : StoreStep F A p ℓ p') : LawfulStep F A p.search ℓ p'.search := by
  cases h with
  | act step => exact step
  | start step => exact step

theorem StoreStep.run_search (h : Transition.Run (StoreStep F A) p ls p') :
    Transition.Run (LawfulStep F A) p.search ls p'.search := by
  induction h with
  | nil p => exact .nil _
  | cons first _ ih => exact .cons first.search ih

/-- The activations that have returned leave the memory of their solvers. -/
theorem StoreInv.exists_left (hinv : StoreInv F A q p) (hledger : Ledger {flagCell} p.own live)
    (hfin : p.search.Finished) :
    ∃ left, exec live [.access flagCell, .free flagCell] = some left ∧
      ∀ x, x ∈ left ↔ ∃ i m, p.blocks i = some m ∧ x = m.cadical := by
  have hcell : flagCell ∈ live := hledger.mem_of_base (Finset.mem_singleton_self _)
  refine ⟨live.erase flagCell, ?_, fun x => ?_⟩
  · rw [exec_access hcell, exec_free hcell, exec]
  · have hown : ∀ i, x ∈ p.own i ↔ ∃ m, p.blocks i = some m ∧ x = m.cadical := by
      intro i
      cases hm : p.blocks i with
      | none =>
        refine iff_of_false (fun hx => ?_) (by rintro ⟨_, h, -⟩; cases h)
        rw [StoreState.own] at hx
        split at hx
        · rw [hm] at hx
          exact absurd hx (Finset.notMem_empty x)
        · exact absurd hx (Finset.notMem_empty x)
      | some m =>
        obtain ⟨a, ha, -⟩ := hinv.early i m hm
        have hret : ¬ a.Holds :=
          Activation.not_holds_of_point (hfin.returned a (List.mem_of_getElem? ha)) rfl
        rw [StoreState.own_of_some ha, hm, Activation.owned, if_neg hret, Finset.mem_singleton]
        simp only [Option.some.injEq, exists_eq_left']
    rw [Finset.mem_erase, hledger.covers, Finset.mem_singleton]
    simp only [hown]
    constructor
    · rintro ⟨hne, hx | hx⟩
      · exact absurd hx hne
      · exact hx
    · rintro ⟨i, hi⟩
      refine ⟨?_, Or.inr ⟨i, hi⟩⟩
      rintro rfl
      exact Finset.disjoint_left.mp (hledger.base i) (Finset.mem_singleton_self _)
        ((hown i).mpr hi)

/-! ## Every search has a heap -/

/-- There are always four blocks that are not in use. -/
theorem exists_fresh (live : Finset ℕ) : ∃ m : Blocks, m.list.Nodup ∧ ∀ x ∈ m.list, x ∉ live := by
  refine ⟨⟨live.sup id + 1, live.sup id + 2, live.sup id + 3, live.sup id + 4⟩, ?_,
    fun x hx hlive => ?_⟩
  · simp [Blocks.list, Blocks.freed]
  · have hle : x ≤ live.sup id := Finset.le_sup (f := id) hlive
    simp only [Blocks.list, Blocks.freed, List.mem_cons, List.not_mem_nil, or_false] at hx
    omega

/-- The heap stops no step of the search. -/
theorem StoreInv.exists_step (hinv : StoreInv F A q p) (h : LawfulStep F A p.search ℓ s) :
    ∃ p', StoreStep F A p ℓ p' ∧ p'.search = s := by
  cases ℓ with
  | start k x r => exact ⟨_, .start h, rfl⟩
  | act i e =>
    obtain ⟨a, active⟩ : ∃ a, p.search.activations[i]? = some a := by
      obtain ⟨step, -⟩ := h
      cases step with
      | act _ active => exact ⟨_, active⟩
    by_cases hholds : a.Holds
    · obtain ⟨m, hm, -⟩ := hinv.held i a active hholds
      refine ⟨_, .act h active (fun _ => hm) fun halloc => ?_, rfl⟩
      exact absurd (hinv.blocks_of_allocates active halloc) (hm ▸ Option.some_ne_none m)
    · obtain ⟨m, hnodup, hunused⟩ := exists_fresh (p.live.getD ∅)
      refine ⟨_, .act h active (fun ha => absurd ha hholds) fun _ => ⟨hnodup, ?_⟩, rfl⟩
      intro live hlive
      rw [hlive] at hunused
      exact hunused

theorem StoreInv.exists_run (hin : SearchInput F A q) (hinv : StoreInv F A q p)
    (h : Transition.Run (LawfulStep F A) s ls s') (hs : p.search = s) :
    ∃ p', Transition.Run (StoreStep F A) p ls p' ∧ p'.search = s' := by
  induction h generalizing p with
  | nil s => exact ⟨p, .nil p, hs⟩
  | cons first _ ih =>
    subst hs
    obtain ⟨p₁, hfirst, hs₁⟩ := hinv.exists_step first
    obtain ⟨p', hrest, hs'⟩ := ih (hinv.step hin hfirst) hs₁
    exact ⟨p', .cons hfirst hrest, hs'⟩

/-- **What the search does with its blocks.**  Whatever blocks the allocator hands out, no
operation of any run is an error as long as no two assignments to the list have overlapped, which
they never do if and only if the question is not contended.  What is allocated are the flag, the
blocks of the activations between their allocation and their release, and the memory of the
solvers, no block belonging to two of them.  When the region has finished, the flag can be read
and freed, and what is left is the memory of all solvers; every activation that has called a
solver has left some.  The heap stops no run of the search in which each task sees the argument
and the flag of its creator. -/
theorem search_storage (W : WellFormed) (A : ActiveArgs W.n) {q : ℕ} (hq : q ∈ A.vector)
    (hself : ¬ W.af.att q q) (proof : List ℕ) :
    (∀ ls p, Transition.Run (StoreStep W.af A.toVectorBitSet) (.init q proof) ls p →
      (p.live = none ↔ p.search.torn = true) ∧
      (∀ i, .act i .callSolver ∈ ls → ∃ m, p.blocks i = some m) ∧
      ∀ live, p.live = some live → Ledger {flagCell} p.own live ∧
        (p.search.Finished → ∃ left, exec live [.access flagCell, .free flagCell] = some left ∧
          ∀ x, x ∈ left ↔ ∃ i m, p.blocks i = some m ∧ x = m.cadical)) ∧
    (∀ ls s, Transition.Run (LawfulStep W.af A.toVectorBitSet) (.init q proof) ls s →
      ∃ p, Transition.Run (StoreStep W.af A.toVectorBitSet) (.init q proof) ls p ∧
        p.search = s) ∧
    ((∃ ls p, Transition.Run (StoreStep W.af A.toVectorBitSet) (.init q proof) ls p ∧
      p.live = none) ↔ Dung.Branching.Contended W.af.att A.args q) := by
  have hin := W.searchInput A hq hself
  have hruns : ∀ ls s, Transition.Run (LawfulStep W.af A.toVectorBitSet) (.init q proof) ls s →
      ∃ p, Transition.Run (StoreStep W.af A.toVectorBitSet) (.init q proof) ls p ∧
        p.search = s := fun ls s h => storeInv_init.exists_run hin h rfl
  refine ⟨fun ls p h => ?_, hruns, ?_, fun hcontended => ?_⟩
  · have hinv := StoreInv.run hin h
    refine ⟨hinv.live_eq_none_iff, fun i => exists_blocks_of_called hin h, fun live hlive => ?_⟩
    have hwhole : p.search.torn = false := by
      rw [← Bool.not_eq_true]
      exact fun htorn => Option.some_ne_none live (hlive.symm.trans (hinv.torn htorn))
    obtain ⟨live', hlive', hledger⟩ := hinv.ledger hwhole
    obtain rfl := Option.some.inj (hlive.symm.trans hlive')
    exact ⟨hledger, hinv.exists_left hledger⟩
  · rintro ⟨ls, p, h, hnone⟩
    exact contended_of_torn hin (StoreStep.run_search h)
      ((StoreInv.run hin h).live_eq_none_iff.mp hnone)
  · obtain ⟨ls, s, h, -, htorn⟩ := (exists_torn_iff hin proof).mpr hcontended
    obtain ⟨p, hp, rfl⟩ := hruns ls s h
    exact ⟨ls, p, hp, (StoreInv.run hin hp).live_eq_none_iff.mpr htorn⟩

theorem search_storage_choice :
    ∃ ls p live left, Transition.Run (StoreStep choiceFramework.af choiceActive.toVectorBitSet)
        (.init 1 []) ls p ∧ p.search.Finished ∧ p.live = some live ∧
      exec live [.access flagCell, .free flagCell] = some left ∧ left.Nonempty := by
  have hin := choiceFramework.searchInput choiceActive (q := 1) (by decide) (by decide)
  obtain ⟨hsafe, hruns, -⟩ := search_storage choiceFramework choiceActive (q := 1) (by decide)
    (by decide) []
  obtain ⟨hP, hqP, hatt⟩ := choice_preferred_omitting
  obtain ⟨R, b, prio, -, -, -, hrun⟩ :=
    exists_spawn hin hP.admissible ⟨2, List.mem_singleton_self 2⟩ hqP hatt []
  obtain ⟨ls, s, hrest, hfin, -⟩ := (settles hin []).exists_end_of_run hrun
  obtain ⟨p, hp, rfl⟩ := hruns _ s (hrun.append hrest)
  obtain ⟨hlive, hblocks, hend⟩ := hsafe _ p hp
  -- no list is torn, so the heap is there
  have hsome : p.live ≠ none := fun hnone => Bool.false_ne_true
    ((torn_eq_false hin choice_not_contended (hrun.append hrest)).symm.trans (hlive.mp hnone))
  obtain ⟨live, hlive⟩ := Option.ne_none_iff_exists'.mp hsome
  obtain ⟨left, hleft, hmem⟩ := (hend live hlive).2 hfin
  obtain ⟨m, hm⟩ := hblocks 0 (List.mem_append_left _ (by simp))
  exact ⟨_, p, live, left, hp, hfin, hlive, hleft, m.cadical, (hmem _).mpr ⟨0, m, hm, rfl⟩⟩

end AFAnalyzer
