import AFAnalyzer.Sat.ClauseStream
import Mathlib.Data.Finset.Powerset

/-!
# Enumerating models up to a set of variables

A loop that asks for a model, reads some variables `X` off it and excludes what it has
read, ends: the sets of true variables in `X` that are still possible
(`Sat.projections`) are finitely many, clauses only ever remove some, and a clause that
excludes the set just read removes at least that one.
-/

namespace Sat

/-- The variables of `X` that an assignment makes true. -/
def projection (X : List ℕ) (v : ℕ → Bool) : Finset ℕ := (X.filter v).toFinset

open Classical in
/-- The sets of variables of `X` that a model of the clauses can make true. -/
noncomputable def projections (X : List ℕ) (cs : List (List ℤ)) : Finset (Finset ℕ) :=
  X.toFinset.powerset.filter fun S => ∃ v, Satisfies v cs ∧ projection X v = S

variable {X : List ℕ} {cs ds : List (List ℤ)} {v w : ℕ → Bool} {S : Finset ℕ}

theorem mem_projection {a : ℕ} : a ∈ projection X v ↔ a ∈ X ∧ v a = true := by
  rw [projection, List.mem_toFinset, List.mem_filter]

theorem mem_projections : S ∈ projections X cs ↔ ∃ v, Satisfies v cs ∧ projection X v = S := by
  classical
  rw [projections, Finset.mem_filter, Finset.mem_powerset]
  refine and_iff_right_of_imp ?_
  rintro ⟨v, -, rfl⟩ a ha
  exact List.mem_toFinset.mpr (mem_projection.mp ha).1

theorem card_projections_le : (projections X cs).card ≤ 2 ^ X.length := by
  classical
  calc (projections X cs).card ≤ X.toFinset.powerset.card :=
        Finset.card_le_card (Finset.filter_subset _ _)
    _ = 2 ^ X.toFinset.card := Finset.card_powerset _
    _ ≤ 2 ^ X.length := Nat.pow_le_pow_right (by omega) (List.toFinset_card_le X)

/-- More clauses leave fewer sets. -/
theorem projections_subset (h : ∀ v, Satisfies v ds → Satisfies v cs) :
    projections X ds ⊆ projections X cs := by
  intro S hS
  obtain ⟨v, hv, hproj⟩ := mem_projections.mp hS
  exact mem_projections.mpr ⟨v, h v hv, hproj⟩

/-- **Excluding what a model has shown makes progress.** -/
theorem card_projections_lt (hv : Satisfies v cs) (h : ∀ w, Satisfies w ds → Satisfies w cs)
    (hblock : ∀ w, Satisfies w ds → ∃ a ∈ X.filter v, w a = false) :
    (projections X ds).card < (projections X cs).card := by
  refine Finset.card_lt_card ⟨projections_subset h, fun hsub => ?_⟩
  have hmem : projection X v ∈ projections X ds := hsub (mem_projections.mpr ⟨v, hv, rfl⟩)
  obtain ⟨w, hw, heq⟩ := mem_projections.mp hmem
  obtain ⟨a, ha, hfalse⟩ := hblock w hw
  have hav : a ∈ projection X v := List.mem_toFinset.mpr ha
  rw [← heq] at hav
  rw [(mem_projection.mp hav).2] at hfalse
  exact Bool.noConfusion hfalse

end Sat
