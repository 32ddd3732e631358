import AFAnalyzer.Solver.ProofExtension

/-!
# What preprocessing decides

`process` computes the grounded set of the cone of the query, one argument at a time, and
stops as soon as the query is decided.  The cone is closed under attackers, so its grounded
set is the part of the grounded extension that lies in the cone, and an argument of the
cone is attacked by the one exactly when it is attacked by the other
(`attacks_groundedCone_iff`).  Hence the three answers of `process` are the three cases of
the grounded extension of the framework as given (`process_exact`).
-/

namespace AFAnalyzer

variable {F F' : AF} {q a : ℕ} {result : PreProcResult} {out : VectorBitSet}

/-- The attackers of an argument of the cone lie in the cone. -/
theorem attacks_groundedCone_iff (ha : a ∈ F.cone q) :
    Dung.Attacks F.att (F.groundedCone q) a ↔
      Dung.Attacks F.att (Dung.grounded F.att F.args) a := by
  constructor
  · exact fun h => h.mono Set.inter_subset_left
  · rintro ⟨b, hb, hba⟩
    exact ⟨b, ⟨hb, Relation.ReflTransGen.head hba ha⟩, hba⟩

/-- The arguments left to the search, in terms of the grounded extension of the whole
framework. -/
theorem mem_searchArgs_iff : a ∈ F.searchArgs q ↔
    a ∈ F.cone q ∧ a ∉ Dung.grounded F.att F.args ∧
      ¬ Dung.Attacks F.att (Dung.grounded F.att F.args) a := by
  rw [AF.searchArgs, Dung.mem_reduct]
  refine and_congr_right fun ha => ?_
  rw [attacks_groundedCone_iff ha]
  refine and_congr_left fun _ => not_congr ?_
  exact ⟨fun h => h.1, fun h => ⟨h, ha⟩⟩

/-- **Preprocessing decides exactly the grounded cases.**  The answer and the arguments left,
in terms of the grounded extension of the framework. -/
structure DecidesGrounded (F : AF) (q : ℕ) (result : PreProcResult) (out : VectorBitSet) :
    Prop where
  accepted : result = .accepted ↔ q ∈ Dung.grounded F.att F.args
  rejected : result = .rejected ↔
    F.att q q ∨ Dung.Attacks F.att (Dung.grounded F.att F.args) q
  unknown : q ∉ Dung.grounded F.att F.args →
    ¬ (F.att q q ∨ Dung.Attacks F.att (Dung.grounded F.att F.args) q) →
      result = .unknown ∧ VectorBitSet.Matches F.numArgs out ∧
        ∀ a, a ∈ out.vector ↔ Relation.ReflTransGen F.att a q ∧
          a ∉ Dung.grounded F.att F.args ∧
          ¬ Dung.Attacks F.att (Dung.grounded F.att F.args) a

/-- An argument of the grounded extension neither attacks itself nor is attacked from
within it. -/
theorem not_rejected_of_mem_grounded (h : q ∈ Dung.grounded F.att F.args) :
    ¬ (F.att q q ∨ Dung.Attacks F.att (Dung.grounded F.att F.args) q) := by
  rintro (hself | hatt)
  · exact Dung.grounded_conflictFree q h q h hself
  · exact Dung.grounded_conflictFree.not_attacks h hatt

theorem WellFormed.mem_grounded_of_accepted (W : WellFormed) (hq : q ∈ W.af.args)
    (h : ProcessResult W.af q F' .accepted out) : q ∈ Dung.grounded W.af.att W.af.args := by
  cases h with
  | unattacked hnone =>
    exact Dung.mem_grounded_of_defends hq fun b _ hb => absurd hb (hnone b)
  | cone distances active notSelf attacked cone grounded =>
    cases grounded with
    | accepted mem =>
      rw [cone.args_eq.trans (W.coneSet_eq q), ← W.groundedCone_eq hq] at mem
      exact mem.1

theorem WellFormed.attacks_of_rejected (W : WellFormed) (hq : q ∈ W.af.args)
    (h : ProcessResult W.af q F' .rejected out) :
    W.af.att q q ∨ Dung.Attacks W.af.att (Dung.grounded W.af.att W.af.args) q := by
  cases h with
  | selfAttack self => exact Or.inl self
  | cone distances active notSelf attacked cone grounded =>
    cases grounded with
    | rejected hatt =>
      rw [cone.args_eq.trans (W.coneSet_eq q), ← W.groundedCone_eq hq] at hatt
      exact Or.inr ((attacks_groundedCone_iff Relation.ReflTransGen.refl).mp hatt)

/-- Each answer of `process` is the case that holds, and the cases exclude each other. -/
theorem WellFormed.decidesGrounded (W : WellFormed) (hq : q ∈ W.af.args)
    (h : ProcessResult W.af q F' result out) : DecidesGrounded W.af q result out := by
  cases result with
  | accepted =>
    have hmem := W.mem_grounded_of_accepted hq h
    exact ⟨iff_of_true rfl hmem, iff_of_false nofun (not_rejected_of_mem_grounded hmem),
      fun hnot => absurd hmem hnot⟩
  | rejected =>
    have hatt := W.attacks_of_rejected hq h
    exact ⟨iff_of_false nofun fun hmem => not_rejected_of_mem_grounded hmem hatt,
      iff_of_true rfl hatt, fun _ hnot => absurd hatt hnot⟩
  | unknown =>
    obtain ⟨hself, hsearch⟩ := (W.unknown_iff hq h).mp rfl
    obtain ⟨-, hmem, hatt⟩ := mem_searchArgs_iff.mp hsearch
    refine ⟨iff_of_false nofun hmem, iff_of_false nofun (not_or.mpr ⟨hself, hatt⟩),
      fun _ _ => ⟨rfl, (h.undecided W.coherent hq).agrees, fun a => ?_⟩⟩
    show a ∈ out.args ↔ _
    rw [W.args_eq_reduct hq h]
    exact mem_searchArgs_iff

/-- `process` accepts the members of the grounded extension, rejects the queries that attack
themselves or are attacked by it, and leaves every other query undecided, with exactly the
arguments that have an attack path to the query and are neither in the grounded extension
nor attacked by it. -/
theorem process_exact (W : WellFormed) {q : ℕ} (h1 : 1 ≤ q) (hn : q ≤ W.n)
    (out₀ : VectorBitSet) :
    ∃ F' result out, process W.af q out₀ = some (F', result, out) ∧
      DecidesGrounded W.af q result out := by
  have hq : q ∈ W.af.args := WellFormed.mem_args h1 hn
  obtain ⟨F', result, out, hproc, hres⟩ := process_spec W.coherent hq out₀
  exact ⟨F', result, out, hproc, W.decidesGrounded hq hres⟩

theorem process_exact_choice :
    ∃ F' result out, process choiceFramework.af 1 ⟨[], []⟩ = some (F', result, out) ∧
      DecidesGrounded choiceFramework.af 1 result out :=
  process_exact choiceFramework (by decide) (by decide) ⟨[], []⟩

end AFAnalyzer
