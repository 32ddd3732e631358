import AFAnalyzer.Dung.Reduct
import AFAnalyzer.Dung.Grounded
import Mathlib.Data.Set.Function

/-!
# Preferred sets under restriction

A preferred set is determined, up to a part that all of them share, by what it has in a
smaller set of arguments.

* `bijOn_preferred_reduct`: when every preferred set includes the admissible set `S`, cutting
  a preferred set down to the reduct by `S` is a bijection onto the preferred sets of the
  reduct.
* `grounded_eq_empty`: where every argument is attacked, nothing is grounded.
* `Renames.bijOn_preferred`: renaming the arguments is a bijection of preferred sets, and so
  keeps the verdict (`Renames.skepticallyAccepted_iff`).
-/

namespace Dung

variable {α : Type*} {att : α → α → Prop} {A S E T : Set α} {q : α}

/-- In the reduct, an admissible set above `S` has what it adds to `S`. -/
theorem Admissible.inter_reduct (hE : Admissible att A E) (hSE : S ⊆ E) :
    E ∩ reduct att A S = E \ S := by
  apply Set.Subset.antisymm
  · exact fun a ha => ⟨ha.1, ha.2.2.1⟩
  · exact fun a ha => ⟨ha.1, (hE.diff_reduct hSE).subset ha⟩

/-- **Modularity as a correspondence.** -/
theorem bijOn_preferred_reduct (hS : Admissible att A S)
    (hle : ∀ E, Preferred att A E → S ⊆ E) :
    Set.BijOn (· ∩ reduct att A S) {E | Preferred att A E}
      {T | Preferred att (reduct att A S) T} := by
  have hcut : ∀ E, Preferred att A E → E ∩ reduct att A S = E \ S := fun E hE =>
    hE.admissible.inter_reduct (hle E hE)
  refine ⟨fun E hE => ?_, fun E hE E' hE' heq => ?_, fun T hT => ?_⟩
  · show Preferred att (reduct att A S) (E ∩ reduct att A S)
    rw [hcut E hE]
    exact preferred_diff_reduct hS hE (hle E hE)
  · have hdiff : E \ S = E' \ S := by
      rw [← hcut E hE, ← hcut E' hE']
      exact heq
    rw [← Set.union_sdiff_cancel (hle E hE), ← Set.union_sdiff_cancel (hle E' hE'), hdiff]
  · have hunion := preferred_union_of_reduct hS hT
    refine ⟨S ∪ T, hunion, ?_⟩
    show (S ∪ T) ∩ reduct att A S = T
    rw [hcut _ hunion, Set.union_sdiff_left, sdiff_eq_left, Set.disjoint_left]
    exact fun a ha => (hT.admissible.subset ha).2.1

/-- Nothing is grounded where every argument is attacked. -/
theorem grounded_eq_empty (h : ∀ a ∈ A, ∃ b ∈ A, att b a) : grounded att A = ∅ :=
  (grounds_empty.eq_grounded (by rwa [reduct_empty])).symm

/-! ## Renaming -/

section Renaming

variable {β : Type*} {att' : β → β → Prop} {f : α → β}

/-- `f` renames the active arguments and keeps the attacks among them. -/
structure Renames (f : α → β) (att : α → α → Prop) (att' : β → β → Prop) (A : Set α) : Prop where
  injOn : Set.InjOn f A
  attacks : ∀ a ∈ A, ∀ b ∈ A, att a b ↔ att' (f a) (f b)

theorem Renames.admissible_image (h : Renames f att att' A) (hS : Admissible att A S) :
    Admissible att' (f '' A) (f '' S) where
  subset := Set.image_mono hS.subset
  conflictFree := by
    rintro _ ⟨a, ha, rfl⟩ _ ⟨b, hb, rfl⟩ hab
    exact hS.conflictFree a ha b hb
      ((h.attacks a (hS.subset ha) b (hS.subset hb)).mpr hab)
  defends := by
    rintro _ ⟨a, ha, rfl⟩ _ ⟨b, hb, rfl⟩ hba
    obtain ⟨c, hc, hcb⟩ := hS.defends a ha b hb ((h.attacks b hb a (hS.subset ha)).mpr hba)
    exact ⟨f c, ⟨c, hc, rfl⟩, (h.attacks c (hS.subset hc) b hb).mp hcb⟩

theorem Renames.admissible_of_image (h : Renames f att att' A) (hS : S ⊆ A)
    (himage : Admissible att' (f '' A) (f '' S)) : Admissible att A S where
  subset := hS
  conflictFree := fun a ha b hb hab =>
    himage.conflictFree _ ⟨a, ha, rfl⟩ _ ⟨b, hb, rfl⟩ ((h.attacks a (hS ha) b (hS hb)).mp hab)
  defends := by
    intro a ha b hb hba
    obtain ⟨_, ⟨c, hc, rfl⟩, hcb⟩ := himage.defends _ ⟨a, ha, rfl⟩ _ ⟨b, hb, rfl⟩
      ((h.attacks b hb a (hS ha)).mp hba)
    exact ⟨c, hc, (h.attacks c (hS hc) b hb).mpr hcb⟩

/-- **Renaming is a bijection of preferred sets.** -/
theorem Renames.bijOn_preferred (h : Renames f att att' A) :
    Set.BijOn (f '' ·) {E | Preferred att A E} {T | Preferred att' (f '' A) T} := by
  refine ⟨fun E hE => ⟨h.admissible_image hE.admissible, ?_⟩, fun E hE E' hE' heq => ?_,
    fun T hT => ?_⟩
  · intro T hT hle
    obtain ⟨S, hSA, rfl⟩ := Set.subset_image_iff.mp hT.subset
    have hES : E ⊆ S := fun a ha => by
      obtain ⟨b, hb, hba⟩ := hle ⟨a, ha, rfl⟩
      rwa [← h.injOn (hSA hb) (hE.admissible.subset ha) hba]
    exact Set.image_mono (hE.2 (h.admissible_of_image hSA hT) hES)
  · exact (h.injOn.image_eq_image_iff hE.admissible.subset hE'.admissible.subset).mp heq
  · obtain ⟨S, hSA, rfl⟩ := Set.subset_image_iff.mp hT.admissible.subset
    refine ⟨S, ⟨h.admissible_of_image hSA hT.admissible, fun S' hS' hle => ?_⟩, rfl⟩
    intro a ha
    obtain ⟨b, hb, hba⟩ := hT.2 (h.admissible_image hS') (Set.image_mono hle) ⟨a, ha, rfl⟩
    rwa [← h.injOn (hSA hb) (hS'.subset ha) hba]

/-- **Renaming keeps the verdict.** -/
theorem Renames.skepticallyAccepted_iff (h : Renames f att att' A) (hq : q ∈ A) :
    SkepticallyAccepted att' (f '' A) (f q) ↔ SkepticallyAccepted att A q := by
  constructor
  · intro haccepted E hE
    obtain ⟨a, ha, haq⟩ := haccepted _ (h.bijOn_preferred.mapsTo hE)
    rwa [← h.injOn (hE.admissible.subset ha) hq haq]
  · intro haccepted T hT
    obtain ⟨E, hE, rfl⟩ := h.bijOn_preferred.surjOn hT
    exact ⟨q, haccepted E hE, rfl⟩

end Renaming

end Dung
