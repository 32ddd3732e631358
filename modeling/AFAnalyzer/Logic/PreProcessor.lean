import AFAnalyzer.Logic.ReduceByGrounded

/-!
# `PreProc_DS_PR::process`

Preprocessing answers the easy queries and hands the rest to the search.  A query
that attacks itself is rejected, an unattacked one is accepted; otherwise the cone
of influence is computed, which overwrites the distances of the framework, and
reduced by the grounded set.

`process_spec` holds for whatever distances an earlier query has left behind: with
`C` the cone that the traversal finds, the answer is the verdict on `C`, and an
undecided query is left with a set that has the same verdict
(`ProcessResult.skepticallyAccepted_iff`).  On a fresh framework `C` is closed under
attackers, so by directionality the verdict on `C` is the verdict on the whole
framework (`process_unknown_iff`).
-/

namespace AFAnalyzer

/-- `PreProc_DS_PR::process`: the framework with its new distances, the result, and
`out_reduct`, which the two early returns do not touch. -/
def process (F : AF) (query : ℕ) (outReduct : VectorBitSet) :
    Option (AF × PreProcResult × VectorBitSet) :=
  if (F.victimsAt query).bit query = true then some (F, .rejected, outReduct)
  else if (F.attackersAt query).vector.isEmpty then some (F, .accepted, outReduct)
  else
    (calculateConeInfluence F query).bind fun cone =>
      (reduceByGrounded cone.1 cone.2 query).map fun res => (cone.1, res.1, res.2)

/-- What a call of `process` has found. -/
inductive ProcessResult (F : AF) (q : ℕ) : AF → PreProcResult → VectorBitSet → Prop
  | selfAttack {out : VectorBitSet} (self : F.att q q) : ProcessResult F q F .rejected out
  | unattacked {out : VectorBitSet} (none : ∀ b, ¬ F.att b q) : ProcessResult F q F .accepted out
  | cone {result : PreProcResult} {out : VectorBitSet} (distances : List ℕ)
      (active : VectorBitSet) (notSelf : ¬ F.att q q) (attacked : ∃ b, F.att b q)
      (cone : ConeResult F q distances active) (grounded : GroundedResult F active q result out) :
      ProcessResult F q { F with distanceToQuery := distances } result out

variable {F F' : AF} {q : ℕ} {out out₀ A : VectorBitSet} {result : PreProcResult}

/-- The grounded reduction does not read the distances. -/
theorem GroundedResult.withDistance {d : List ℕ}
    (h : GroundedResult { F with distanceToQuery := d } A q result out) :
    GroundedResult F A q result out := by
  cases h with
  | accepted mem => exact .accepted mem
  | rejected attacked => exact .rejected attacked
  | unknown P agrees vector grounds query_mem attacked =>
    exact .unknown P agrees vector grounds query_mem attacked

/-- **`process` returns, whatever the distances were before.** -/
theorem process_spec (hF : F.Coherent) (hq : q ∈ F.args) (out₀ : VectorBitSet) :
    ∃ F' result out, process F q out₀ = some (F', result, out) ∧
      ProcessResult F q F' result out := by
  by_cases hself : F.att q q
  · exact ⟨F, .rejected, out₀, if_pos ((hF.bit_victims q q).mpr hself), .selfAttack hself⟩
  · have hbit : ¬ (F.victimsAt q).bit q = true := fun h => hself ((hF.bit_victims q q).mp h)
    by_cases hun : (F.attackersAt q).vector = []
    · refine ⟨F, .accepted, out₀, ?_, .unattacked (hF.attackers_empty_iff.mp hun)⟩
      rw [process, if_neg hbit, if_pos (List.isEmpty_iff.mpr hun)]
    · obtain ⟨distances, active, hcone, hres⟩ := calculateConeInfluence_spec hF hq
      obtain ⟨result, out, hred, hground⟩ := reduceByGrounded_spec
        (F := { F with distanceToQuery := distances }) (hF.withDistance hres.length)
        hres.agrees hres.query_mem
      have hattacked : ∃ b, F.att b q := by
        by_contra hnone
        exact hun (hF.attackers_empty_iff.mpr (not_exists.mp hnone))
      refine ⟨{ F with distanceToQuery := distances }, result, out, ?_,
        .cone distances active hself hattacked hres hground.withDistance⟩
      rw [process, if_neg hbit, if_neg fun h => hun (List.isEmpty_iff.mp h), hcone,
        Option.bind_some, hred]
      rfl

/-- The result of a call that is known to have returned. -/
theorem processResult_of_eq (hF : F.Coherent) (hq : q ∈ F.args)
    (h : process F q out₀ = some (F', result, out)) : ProcessResult F q F' result out := by
  obtain ⟨F'', result', out', heq, hres⟩ := process_spec hF hq out₀
  rw [h, Option.some_inj, Prod.mk.injEq, Prod.mk.injEq] at heq
  obtain ⟨rfl, rfl, rfl⟩ := heq
  exact hres

/-- Only the distances change. -/
theorem ProcessResult.framework (h : ProcessResult F q F' result out) (hF : F.Coherent) :
    ∃ d, d.length = F.numArgs + 1 ∧ F' = { F with distanceToQuery := d } := by
  cases h with
  | selfAttack => exact ⟨F.distanceToQuery, hF.length_distance, rfl⟩
  | unattacked => exact ⟨F.distanceToQuery, hF.length_distance, rfl⟩
  | cone distances _ _ _ cone _ => exact ⟨distances, cone.length, rfl⟩

theorem ProcessResult.att_eq (h : ProcessResult F q F' result out) (hF : F.Coherent) :
    F'.att = F.att := by
  obtain ⟨d, -, rfl⟩ := h.framework hF
  rfl

theorem ProcessResult.coherent (h : ProcessResult F q F' result out) (hF : F.Coherent) :
    F'.Coherent := by
  obtain ⟨d, hd, rfl⟩ := h.framework hF
  exact hF.withDistance hd

/-- What the search receives for an undecided query. -/
structure Undecided (F : AF) (q : ℕ) (C : Set ℕ) (out : VectorBitSet) : Prop where
  notSelf : ¬ F.att q q
  agrees : VectorBitSet.Matches F.numArgs out
  range : ∀ a ∈ out.vector, a ∈ F.args
  query_mem : q ∈ out.vector
  reduct : ∃ P, Dung.Grounds F.att C P ∧ out.args = Dung.reduct F.att C P

theorem ProcessResult.undecided (h : ProcessResult F q F' .unknown out) (hF : F.Coherent)
    (hq : q ∈ F.args) : Undecided F q (coneSet F q F.distanceToQuery) out := by
  cases h with
  | cone distances active notSelf attacked cone grounded =>
    cases grounded with
    | unknown P agrees vector grounds query_mem _ =>
      have hargs : out.args = Dung.reduct F.att active.args (listArgs P) := by
        ext a
        rw [VectorBitSet.mem_args, vector]
        exact mem_reductVector
      refine ⟨notSelf, agrees, fun a ha => ?_, query_mem, listArgs P, ?_, ?_⟩
      · have hmem : a ∈ active.args := by
          have hred : a ∈ out.args := ha
          rw [hargs] at hred
          exact hred.1
        rw [cone.args_eq] at hmem
        exact coneSet_args hF hq hmem
      · rw [← cone.args_eq]
        exact grounds
      · rw [← cone.args_eq]
        exact hargs

/-- The verdict that a result of `process` stands for. -/
def PreProcResult.Verdict (att : ℕ → ℕ → Prop) (q : ℕ) (out : VectorBitSet) :
    PreProcResult → Prop
  | .accepted => True
  | .rejected => False
  | .unknown => Dung.SkepticallyAccepted att out.args q

/-- **The answer of `process` is the verdict on the cone it computed.** -/
theorem ProcessResult.skepticallyAccepted_iff (h : ProcessResult F q F' result out)
    (hF : F.Coherent) (hq : q ∈ F.args) :
    Dung.SkepticallyAccepted F.att (coneSet F q F.distanceToQuery) q ↔
      result.Verdict F.att q out := by
  cases h with
  | selfAttack hself =>
    refine iff_of_false (fun hacc => ?_) (fun h => h)
    obtain ⟨E, hE⟩ := Dung.exists_preferred F.att (coneSet F q F.distanceToQuery)
    exact hE.admissible.conflictFree q (hacc E hE) q (hacc E hE) hself
  | unattacked hnone =>
    refine iff_of_true ?_ trivial
    refine Dung.skepticallyAccepted_of_mem_grounded
      (Dung.mem_grounded_of_defends query_mem_coneSet fun b _ hb => absurd hb (hnone b))
  | cone distances active notSelf attacked cone grounded =>
    cases grounded with
    | accepted mem =>
      rw [cone.args_eq] at mem
      exact iff_of_true (Dung.skepticallyAccepted_of_mem_grounded mem) trivial
    | rejected attacked =>
      rw [cone.args_eq] at attacked
      exact iff_of_false
        (Dung.not_skepticallyAccepted_of_attacks Dung.grounded_admissible attacked) (fun h => h)
    | unknown P agrees vector grounds query_mem notAttacked =>
      have hund := (ProcessResult.cone (F := F) distances active notSelf attacked cone
        (.unknown P agrees vector grounds query_mem notAttacked)).undecided hF hq
      obtain ⟨P, hP, hargs⟩ := hund.reduct
      have hqP : q ∉ P := by
        have hmem : q ∈ out.args := query_mem
        rw [hargs] at hmem
        exact hmem.2.1
      rw [PreProcResult.Verdict, hargs]
      exact hP.skepticallyAccepted_reduct_iff hqP

/-! ## Fresh frameworks -/

theorem WellFormed.mem_args {W : WellFormed} {q : ℕ} (h1 : 1 ≤ q) (hn : q ≤ W.n) :
    q ∈ W.af.args := by
  rw [WellFormed.af, AF.args, buildAF_numArgs]
  exact ⟨h1, hn⟩

/-- The cone of influence of `q` in a fresh framework: `q` and the arguments with an
attack path to it. -/
def AF.cone (F : AF) (q : ℕ) : Set ℕ := {a | Relation.ReflTransGen F.att a q}

/-- The traversal of a fresh framework finds the whole cone. -/
theorem WellFormed.coneSet_eq (W : WellFormed) (q : ℕ) :
    coneSet W.af q W.af.distanceToQuery = W.af.cone q := by
  have hzero : W.af.distanceToQuery = List.replicate (W.n + 1) 0 := buildAF_distanceToQuery
  rw [hzero, coneSet_replicate]
  rfl

theorem WellFormed.attackClosed_cone (W : WellFormed) {q : ℕ} (hq : q ∈ W.af.args) :
    Dung.AttackClosed W.af.att W.af.args (W.af.cone q) := by
  have hclosed := attackClosed_coneSet W.coherent hq (W.n + 1)
  rw [coneSet_replicate] at hclosed
  exact hclosed

/-- **The answer of `process` on a fresh framework is the verdict of the
framework.** -/
theorem WellFormed.skepticallyAccepted_iff (W : WellFormed) (hq : q ∈ W.af.args)
    (h : ProcessResult W.af q F' result out) :
    Dung.SkepticallyAccepted W.af.att W.af.args q ↔ result.Verdict W.af.att q out := by
  rw [← h.skepticallyAccepted_iff W.coherent hq, W.coneSet_eq]
  exact (W.attackClosed_cone hq).skepticallyAccepted_iff Relation.ReflTransGen.refl

/-- **Preprocessing preserves the question.**  If `process` leaves a query of a fresh
framework undecided, the query belongs to every preferred extension of the framework
exactly when it belongs to every preferred extension of the sub-framework induced by
`out_reduct`. -/
theorem process_unknown_iff (W : WellFormed) {q : ℕ} (h1 : 1 ≤ q) (hn : q ≤ W.n)
    {out₀ : VectorBitSet} (h : process W.af q out₀ = some (F', .unknown, out)) :
    Dung.SkepticallyAccepted W.af.att W.af.args q ↔
      Dung.SkepticallyAccepted W.af.att out.args q :=
  W.skepticallyAccepted_iff (WellFormed.mem_args h1 hn)
    (processResult_of_eq W.coherent (WellFormed.mem_args h1 hn) h)

/-- The framework `3 → 1`, `3 → 3`, `4 → 3`, `2 ↔ 4`: the query 1 depends on the
choice between 2 and 4. -/
def choiceFramework : WellFormed where
  n := 4
  calls := [(3, 1), (3, 3), (4, 3), (4, 2), (2, 4)]
  order := [(3, 1), (3, 3), (4, 3), (4, 2), (2, 4)]
  bound := by decide
  inRange := by decide
  iteration := iterationOrder_self (by decide)

/-- `choiceFramework` with 6 → 5 → 4 and 1 → 7.  For the query 1 the argument 6 is grounded, 5 is
attacked by it, and 7 lies outside the cone: preprocessing removes all three. -/
def prunedFramework : WellFormed where
  n := 7
  calls := [(3, 1), (3, 3), (4, 3), (4, 2), (2, 4), (6, 5), (5, 4), (1, 7)]
  order := [(3, 1), (3, 3), (4, 3), (4, 2), (2, 4), (6, 5), (5, 4), (1, 7)]
  bound := by decide
  inRange := by decide
  iteration := iterationOrder_self (by decide)

/-- What preprocessing makes of `prunedFramework` for the query 1. -/
def prunedSearched : AF := { prunedFramework.af with distanceToQuery := [0, 0, 3, 1, 2, 3, 4, 0] }

/-- What it leaves of the arguments. -/
def prunedOut : VectorBitSet :=
  ⟨[1, 3, 4, 2], [false, true, true, true, true, false, false, false]⟩

theorem process_pruned :
    process prunedFramework.af 1 ⟨[], []⟩ = some (prunedSearched, .unknown, prunedOut) := by
  decide

theorem process_unknown_iff_pruned :
    Dung.SkepticallyAccepted prunedFramework.af.att prunedFramework.af.args 1 ↔
      Dung.SkepticallyAccepted prunedFramework.af.att prunedOut.args 1 :=
  process_unknown_iff prunedFramework (by decide) (by decide) process_pruned

end AFAnalyzer
