import AFAnalyzer.Search.ProofExtension
import AFAnalyzer.Solver.Activations

/-!
# The proof of a rejection in the whole framework

The search builds its extension on `out_reduct`, from which preprocessing has removed the
grounded extension of the cone together with what that attacks, and it starts from the
empty extension.  A list handed over by the search is therefore admissible among the
arguments that were left (`AF.searchArgs`), but its members may rely on removed arguments
for their defense, and these are not in the list.

`solve_proof_iff` says exactly when every list that a rejection leaves is admissible in the
framework as given: when each set that is admissible among the arguments left and attacks
the query needs no help, and no two assignments to the list can overlap.
-/

namespace AFAnalyzer

open Dung.Branching

/-- The arguments that preprocessing leaves to the search: those of the cone that the
grounded extension neither contains nor attacks. -/
def AF.searchArgs (F : AF) (q : ℕ) : Set ℕ := Dung.reduct F.att (F.cone q) (F.groundedCone q)

/-- If the search is reached, no two answers may be found at the same time. -/
def AF.Uncontended (F : AF) (q : ℕ) : Prop :=
  ¬ F.att q q → q ∈ F.searchArgs q → ¬ Contended F.att (F.searchArgs q) q

/-- The list is conflict-free, defends itself in the whole framework, and attacks the
query. -/
def ProvesRejection (F : AF) (q : ℕ) (L : List ℕ) : Prop :=
  Dung.Admissible F.att F.args (listArgs L) ∧ Dung.Attacks F.att (listArgs L) q

variable {F' : AF} {q : ℕ} {out : VectorBitSet} {S : Set ℕ}

/-- The search is reached exactly by a query that does not attack itself and is left by
preprocessing. -/
theorem WellFormed.unknown_iff (W : WellFormed) (hq : q ∈ W.af.args) {result : PreProcResult}
    (h : ProcessResult W.af q F' result out) :
    result = .unknown ↔ ¬ W.af.att q q ∧ q ∈ W.af.searchArgs q := by
  have hgrounded := W.groundedCone_eq hq
  constructor
  · rintro rfl
    have hund := h.undecided W.coherent hq
    refine ⟨hund.notSelf, ?_⟩
    rw [AF.searchArgs, ← W.args_eq_reduct hq h]
    exact hund.query_mem
  · rintro ⟨hself, hmem⟩
    rw [AF.searchArgs, hgrounded] at hmem
    cases h with
    | selfAttack self => exact absurd self hself
    | unattacked hnone =>
      have hground : q ∈ Dung.grounded W.af.att (W.af.cone q) :=
        Dung.mem_grounded_of_defends Relation.ReflTransGen.refl
          fun b _ hb => absurd hb (hnone b)
      exact absurd hground hmem.2.1
    | cone distances active notSelf attacked cone grounded =>
      have hactive : active.args = W.af.cone q := cone.args_eq.trans (W.coneSet_eq q)
      cases grounded with
      | accepted mem =>
        rw [hactive] at mem
        exact absurd mem hmem.2.1
      | rejected attacked =>
        rw [hactive] at attacked
        exact absurd attacked hmem.2.2
      | unknown => rfl

/-- Without a contended question no list is torn. -/
theorem WellFormed.not_torn (W : WellFormed) (hq : q ∈ W.af.args)
    (h : ProcessResult W.af q F' .unknown out)
    (hsingle : ¬ Contended W.af.att (W.af.searchArgs q) q) {ls : List Action} {s : SearchState}
    (hrun : Transition.Run (LawfulStep F' out) (.init q []) ls s) : s.torn = false := by
  refine torn_eq_false (h.searchInput W.coherent hq) ?_ hrun
  rw [h.att_eq W.coherent, W.args_eq_reduct hq h]
  exact hsingle

/-- A set among the arguments left that attacks the query and is not admissible in the
whole framework is handed over under some schedule. -/
theorem not_proves_of_process (W : WellFormed) (hq : q ∈ W.af.args)
    (hproc : process W.af q ⟨[], []⟩ = some (F', .unknown, out))
    (hS : Dung.Admissible W.af.att out.args S) (hatt : Dung.Attacks W.af.att S q)
    (hnot : ¬ Dung.Admissible W.af.att W.af.args S) :
    ¬ Solve W.af q [] fun _ answer output =>
      answer = false → output ≠ [] → ProvesRejection W.af q output := by
  have hres := processResult_of_eq W.coherent hq hproc
  have hin := hres.searchInput W.coherent hq
  have hattF : F'.att = W.af.att := hres.att_eq W.coherent
  rintro ⟨F'', result, out', heq, hsolve⟩
  rw [hproc, Option.some_inj, Prod.mk.injEq, Prod.mk.injEq] at heq
  obtain ⟨rfl, rfl, rfl⟩ := heq
  rw [← hattF] at hS hatt
  obtain ⟨ls, s, hrun, hfin, hflag, hwhole, rfl⟩ := exists_rejection hin hS hatt []
  obtain ⟨x, hx, -⟩ := hatt
  have hproves := CheckRejectionParallel.of_run hsolve hrun hfin
    ((SearchState.mayLeave_iff hwhole).mpr rfl) (by rw [hflag]; rfl) (List.ne_nil_of_mem hx)
  exact hnot hproves.1

/-- If two assignments to the list can overlap, a rejecting call may leave any list. -/
theorem Solve.of_contended {F : AF} {post : AF → Bool → List ℕ → Prop} (hF : F.Coherent)
    (hq : q ∈ F.args) (hproc : process F q ⟨[], []⟩ = some (F', .unknown, out))
    (hcontended : Contended F.att out.args q) (h : Solve F q [] post) {L : List ℕ}
    (hL : ∀ x ∈ L, x < 2 ^ 32) : post F' false L := by
  have hres := processResult_of_eq hF hq hproc
  obtain ⟨F'', result, out', heq, hsolve⟩ := h
  rw [hproc, Option.some_inj, Prod.mk.injEq, Prod.mk.injEq] at heq
  obtain ⟨rfl, rfl, rfl⟩ := heq
  rw [← hres.att_eq hF] at hcontended
  obtain ⟨ls, s, hrun, hfin, hflag, htorn⟩ :=
    exists_torn_rejection (hres.searchInput hF hq) hcontended []
  have hpost := CheckRejectionParallel.of_run hsolve hrun hfin
    ((SearchState.mayLeave_iff_of_torn htorn).mpr hL)
  rwa [hflag] at hpost

/-- **When a rejection is proved in the whole framework.**  Under all models and all schedules in
which each task sees the argument and the flag of its creator, the list that a rejecting call
leaves is empty, or conflict-free, self-defending and attacking the query in the whole framework,
if and only if preprocessing decides the query, or no two assignments to the list can overlap and
every set that is admissible among the arguments left and attacks the query attacks all attackers
of its members. -/
theorem solve_proof_iff (W : WellFormed) {q : ℕ} (h1 : 1 ≤ q) (hn : q ≤ W.n) :
    (Solve W.af q [] fun _ answer output =>
        answer = false → output ≠ [] → ProvesRejection W.af q output) ↔
      (¬ W.af.att q q → q ∈ W.af.searchArgs q →
        ¬ Contended W.af.att (W.af.searchArgs q) q ∧
          ∀ S, Dung.Admissible W.af.att (W.af.searchArgs q) S → Dung.Attacks W.af.att S q →
            ∀ a ∈ S, ∀ b, W.af.att b a → Dung.Attacks W.af.att S b) := by
  have hq : q ∈ W.af.args := WellFormed.mem_args h1 hn
  obtain ⟨F', result, out, hproc, hres⟩ := process_spec W.coherent hq ⟨[], []⟩
  have hunknown := W.unknown_iff hq hres
  constructor
  · intro hsolve hself hmem
    obtain rfl := hunknown.mpr ⟨hself, hmem⟩
    refine ⟨fun hcontended => ?_, fun S hS hatt a ha b hba => ?_⟩
    · -- the list may hold what is no argument
      rw [AF.searchArgs, ← W.args_eq_reduct hq hres] at hcontended
      have hproves := hsolve.of_contended W.coherent hq hproc hcontended (L := [0]) (by decide)
      exact Nat.not_succ_le_zero 0
        ((hproves rfl (List.cons_ne_nil 0 [])).1.subset (List.mem_cons_self : 0 ∈ [0])).1
    by_contra hnot
    refine not_proves_of_process (S := S) W hq hproc ?_ hatt (fun hadm => hnot ?_) hsolve
    · rw [W.args_eq_reduct hq hres]
      exact hS
    · exact hadm.defends a ha b (W.coherent.att_args hba).1 hba
  · intro hcond
    refine ⟨F', result, out, hproc, ?_⟩
    cases result with
    | accepted => exact fun h => Bool.noConfusion h
    | rejected => exact fun _ hne => absurd rfl hne
    | unknown =>
      obtain ⟨hself, hmem⟩ := hunknown.mp rfl
      have hin := hres.searchInput W.coherent hq
      have hattF : F'.att = W.af.att := hres.att_eq W.coherent
      obtain ⟨hsingle, hdefends⟩ := hcond hself hmem
      refine checkRejectionParallel_of_forall hin fun ls s hrun hfin L hL hanswer hne => ?_
      have hwhole := W.not_torn hq hres hsingle hrun
      obtain rfl := (SearchState.mayLeave_iff hwhole).mp hL
      obtain ⟨hadm, hattacks⟩ := (RejectionInv.run hin hrun).output.resolve_left hne
      rw [hattF] at hadm hattacks
      rw [W.args_eq_reduct hq hres] at hadm
      refine ⟨⟨?_, hadm.conflictFree, fun a ha b _ hba => ?_⟩, hattacks⟩
      · exact (hadm.subset.trans Dung.reduct_subset).trans (W.attackClosed_cone hq).subset
      · exact hdefends _ hadm hattacks a ha b hba

/-- The framework `4 → 3 → 2 ↔ 1`: the defender 4 of 2 is grounded and removed. -/
def guardedFramework : WellFormed where
  n := 4
  calls := [(4, 3), (3, 2), (2, 1), (1, 2)]
  order := [(4, 3), (3, 2), (2, 1), (1, 2)]
  bound := choiceFramework.bound
  inRange := by decide
  iteration := iterationOrder_self (by decide)

theorem solve_proof_iff_guarded :
    (Solve guardedFramework.af 1 [] fun _ answer output =>
        answer = false → output ≠ [] → ProvesRejection guardedFramework.af 1 output) ↔
      (¬ guardedFramework.af.att 1 1 → 1 ∈ guardedFramework.af.searchArgs 1 →
        ¬ Contended guardedFramework.af.att (guardedFramework.af.searchArgs 1) 1 ∧
          ∀ S, Dung.Admissible guardedFramework.af.att (guardedFramework.af.searchArgs 1) S →
            Dung.Attacks guardedFramework.af.att S 1 →
              ∀ a ∈ S, ∀ b, guardedFramework.af.att b a →
                Dung.Attacks guardedFramework.af.att S b) :=
  solve_proof_iff guardedFramework (by decide) (by decide)

/-- In `guardedFramework` the search for 1 may hand over `{2}`, which does not defend
itself against 3. -/
theorem not_proves_guarded :
    ¬ Solve guardedFramework.af 1 [] fun _ answer output =>
      answer = false → output ≠ [] → ProvesRejection guardedFramework.af 1 output := by
  have hq : 1 ∈ guardedFramework.af.args := by decide
  have hproc : process guardedFramework.af 1 ⟨[], []⟩ =
      some ({ guardedFramework.af with distanceToQuery := [0, 0, 1, 2, 3] }, .unknown,
        ⟨[1, 2], [false, true, true, false, false]⟩) := by decide
  have hS : Dung.Admissible guardedFramework.af.att (Dung.members [1, 2]) (Dung.members [2]) := by
    decide
  refine not_proves_of_process guardedFramework hq hproc hS
    ⟨2, List.mem_singleton_self 2, by decide⟩ fun hadm => ?_
  obtain ⟨c, hc, hc3⟩ := hadm.defends 2 (List.mem_singleton_self 2) 3 (by decide) (by decide)
  rw [List.mem_singleton.mp hc] at hc3
  exact absurd hc3 (by decide)

end AFAnalyzer
