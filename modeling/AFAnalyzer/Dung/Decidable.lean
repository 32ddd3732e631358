import AFAnalyzer.Dung.Admissible
import Mathlib.Data.List.Sublists

/-!
# Deciding the semantics of a finite framework

When the active arguments are the members of a list and attacks are decidable, so are
admissibility, preferredness and sceptical acceptance: every subset of the active
arguments is the set of members of one of the sublists (`exists_sublist`).
-/

namespace Dung

variable {α : Type*} {att : α → α → Prop} {A S : List α} {T : Set α} {q : α}

/-- The members of a list, as a set. -/
def members (l : List α) : Set α := {a | a ∈ l}

open Classical in
/-- Every set of active arguments is listed by a sublist. -/
theorem exists_sublist (hT : T ⊆ members A) : ∃ l ∈ A.sublists, members l = T := by
  have hsub : (A.filter fun a => a ∈ T).Sublist A := List.filter_sublist
  refine ⟨_, List.mem_sublists.mpr hsub, Set.ext fun a => ⟨fun ha => ?_, fun ha => ?_⟩⟩
  · exact of_decide_eq_true (List.mem_filter.mp ha).2
  · exact List.mem_filter.mpr ⟨hT ha, decide_eq_true ha⟩

/-- Admissibility, with bounded quantifiers. -/
theorem admissible_members : Admissible att (members A) (members S) ↔
    (∀ a ∈ S, a ∈ A) ∧ (∀ a ∈ S, ∀ b ∈ S, ¬ att a b) ∧
      ∀ a ∈ S, ∀ b ∈ A, att b a → ∃ c ∈ S, att c b :=
  ⟨fun h => ⟨h.subset, h.conflictFree, h.defends⟩, fun h => ⟨h.1, h.2.1, h.2.2⟩⟩

/-- Preferredness, with the sublists as candidates. -/
theorem preferred_members : Preferred att (members A) (members S) ↔
    Admissible att (members A) (members S) ∧
      ∀ l ∈ A.sublists, Admissible att (members A) (members l) → S ⊆ l → l ⊆ S := by
  constructor
  · exact fun h => ⟨h.admissible, fun l _ hl hSl => (h.eq_of_subset hl hSl).le⟩
  · rintro ⟨hS, hmax⟩
    refine ⟨hS, fun T hT hST => ?_⟩
    obtain ⟨l, hl, rfl⟩ := exists_sublist hT.subset
    exact hmax l hl hT hST

/-- Sceptical acceptance, with the sublists as candidates. -/
theorem skepticallyAccepted_members : SkepticallyAccepted att (members A) q ↔
    ∀ l ∈ A.sublists, Preferred att (members A) (members l) → q ∈ l := by
  constructor
  · exact fun h l _ hl => h _ hl
  · intro h E hE
    obtain ⟨l, hl, rfl⟩ := exists_sublist hE.admissible.subset
    exact h l hl hE

variable [DecidableEq α] [DecidableRel att]

instance : Decidable (Admissible att (members A) (members S)) :=
  decidable_of_iff _ admissible_members.symm

instance : Decidable (Preferred att (members A) (members S)) :=
  decidable_of_iff _ preferred_members.symm

instance : Decidable (SkepticallyAccepted att (members A) q) :=
  decidable_of_iff _ skepticallyAccepted_members.symm

end Dung
