import AFAnalyzer.Dung.Admissible

/-!
# Reducts: modularity of the preferred sets

The reduct of `A` by `S` drops `S` and everything `S` attacks.  For an admissible
`S` the preferred sets above `S` are exactly `S` together with a preferred set of
the reduct.  That is the modularity property on which a search by successive
reducts rests, and it is stated here in both directions:

* `Admissible.union_of_reduct` glues an admissible set of the reduct onto `S`;
* `Admissible.diff_reduct` cuts `S` out of an admissible set above it;
* `preferred_diff_reduct` and `preferred_union_of_reduct` say the same for
  maximality, which needs the two together.

`reduct_reduct` is the composition law: reducing twice is reducing by the union.
-/

namespace Dung

variable {α : Type*}

/-- The active arguments left after accepting `S`. -/
def reduct (att : α → α → Prop) (A S : Set α) : Set α := {a ∈ A | a ∉ S ∧ ¬ Attacks att S a}

variable {att : α → α → Prop} {A S T E : Set α} {a q : α}

theorem mem_reduct : a ∈ reduct att A S ↔ a ∈ A ∧ a ∉ S ∧ ¬ Attacks att S a := Iff.rfl

theorem reduct_subset : reduct att A S ⊆ A := fun _ h => h.1

@[simp] theorem reduct_empty : reduct att A ∅ = A := by
  ext a
  simp [mem_reduct, not_attacks_empty]

/-- **Composition.**  Reducing by `S` and then by `T` is reducing by `S ∪ T`. -/
theorem reduct_reduct : reduct att (reduct att A S) T = reduct att A (S ∪ T) := by
  ext a
  simp only [mem_reduct, attacks_union, Set.mem_union, not_or]
  tauto

/-! ## Gluing and cutting -/

/-- **Gluing.**  An admissible set of the reduct extends `S`. -/
theorem Admissible.union_of_reduct (hS : Admissible att A S)
    (hT : Admissible att (reduct att A S) T) : Admissible att A (S ∪ T) where
  subset := Set.union_subset hS.subset (hT.subset.trans reduct_subset)
  conflictFree := by
    have hST : ∀ a ∈ S, ∀ b ∈ T, ¬ att a b := fun a ha b hb hab =>
      (hT.subset hb).2.2 ⟨a, ha, hab⟩
    rintro a (ha | ha) b (hb | hb) hab
    · exact hS.conflictFree a ha b hb hab
    · exact hST a ha b hb hab
    · -- an attack of `T` on `S` is answered by `S`, which `T` avoids
      obtain ⟨c, hc, hca⟩ := hS.defends b hb a (hT.subset ha).1 hab
      exact hST c hc a ha hca
    · exact hT.conflictFree a ha b hb hab
  defends := by
    rintro a (ha | ha) b hb hba
    · exact (hS.defends a ha b hb hba).mono Set.subset_union_left
    · -- the attacker is in the reduct, or attacked by `S`; it is not in `S`
      by_cases hSb : Attacks att S b
      · exact hSb.mono Set.subset_union_left
      · have hbS : b ∉ S := fun hbS => (hT.subset ha).2.2 ⟨b, hbS, hba⟩
        exact (hT.defends a ha b ⟨hb, hbS, hSb⟩ hba).mono Set.subset_union_right

/-- **Cutting.**  What an admissible set adds to `S` is admissible in the
reduct. -/
theorem Admissible.diff_reduct (hE : Admissible att A E) (hSE : S ⊆ E) :
    Admissible att (reduct att A S) (E \ S) where
  subset := fun a ha => ⟨hE.subset ha.1, ha.2, fun h =>
    hE.conflictFree.not_attacks ha.1 (h.mono hSE)⟩
  conflictFree := fun a ha b hb => hE.conflictFree a ha.1 b hb.1
  defends := by
    intro a ha b hb hba
    obtain ⟨c, hc, hcb⟩ := hE.defends a ha.1 b hb.1 hba
    refine ⟨c, ⟨hc, fun hcS => hb.2.2 ⟨c, hcS, hcb⟩⟩, hcb⟩

/-- **Modularity, downwards.** -/
theorem preferred_diff_reduct (hS : Admissible att A S) (hE : Preferred att A E)
    (hSE : S ⊆ E) : Preferred att (reduct att A S) (E \ S) := by
  refine ⟨hE.admissible.diff_reduct hSE, fun T hT hle => ?_⟩
  have hunion : Admissible att A (S ∪ T) := hS.union_of_reduct hT
  have hsub : E ⊆ S ∪ T := by
    intro a ha
    by_cases haS : a ∈ S
    · exact Or.inl haS
    · exact Or.inr (hle ⟨ha, haS⟩)
  have heq : S ∪ T = E := hE.eq_of_subset hunion hsub
  intro a ha
  exact ⟨heq ▸ Or.inr ha, (hT.subset ha).2.1⟩

/-- **Modularity, upwards.** -/
theorem preferred_union_of_reduct (hS : Admissible att A S)
    (hT : Preferred att (reduct att A S) T) : Preferred att A (S ∪ T) := by
  refine ⟨hS.union_of_reduct hT.admissible, fun E hE hle => ?_⟩
  have hSE : S ⊆ E := Set.subset_union_left.trans hle
  have hTE : T ⊆ E \ S := fun a ha => ⟨hle (Or.inr ha), (hT.admissible.subset ha).2.1⟩
  have heq : E \ S = T := hT.eq_of_subset (hE.diff_reduct hSE) hTE
  intro a ha
  by_cases haS : a ∈ S
  · exact Or.inl haS
  · exact Or.inr (heq ▸ ⟨ha, haS⟩)

/-- A reduct with no admissible set but the empty one belongs to a preferred
set: there is nothing left to add. -/
theorem preferred_of_reduct_trivial (hS : Admissible att A S)
    (h : ∀ T, Admissible att (reduct att A S) T → T = ∅) : Preferred att A S := by
  have hpref : Preferred att (reduct att A S) ∅ :=
    ⟨admissible_empty, fun T hT _ => (h T hT).le⟩
  simpa using preferred_union_of_reduct hS hpref

/-- **One step of the search.**  Some preferred set above `S` omits `q` exactly
when some preferred set of the reduct does, for a `q` that is not in `S`. -/
theorem exists_preferred_omitting_iff (hS : Admissible att A S) (hq : q ∉ S) :
    (∃ E, Preferred att A E ∧ S ⊆ E ∧ q ∉ E) ↔
      ∃ T, Preferred att (reduct att A S) T ∧ q ∉ T := by
  constructor
  · rintro ⟨E, hE, hSE, hqE⟩
    exact ⟨E \ S, preferred_diff_reduct hS hE hSE, fun h => hqE h.1⟩
  · rintro ⟨T, hT, hqT⟩
    exact ⟨S ∪ T, preferred_union_of_reduct hS hT, Set.subset_union_left, fun h =>
      h.elim hq hqT⟩

/-- When every preferred set contains `S`, the verdict on an argument of the
reduct may be taken there. -/
theorem skepticallyAccepted_reduct_iff (hS : Admissible att A S)
    (hle : ∀ E, Preferred att A E → S ⊆ E) (hq : q ∉ S) :
    SkepticallyAccepted att A q ↔ SkepticallyAccepted att (reduct att A S) q := by
  rw [← not_iff_not, not_skepticallyAccepted_iff, not_skepticallyAccepted_iff,
    ← exists_preferred_omitting_iff hS hq]
  constructor
  · rintro ⟨E, hE, hqE⟩
    exact ⟨E, hE, hle E hE, hqE⟩
  · rintro ⟨E, hE, -, hqE⟩
    exact ⟨E, hE, hqE⟩

end Dung
