import Mathlib.Order.FixedPoints
import Mathlib.Order.Zorn
import Mathlib.Order.Minimal
import Mathlib.Order.CompletePartialOrder
import Mathlib.Data.Set.Lattice
import Mathlib.Tactic.Common

/-!
# Admissible and preferred sets of an attack relation

An argumentation framework is a relation `att` on a type and a set `A` of
*active* arguments; the sub-framework induced by `A` keeps the attacks between
members of `A`.  Everything is stated for such a pair, so that a sub-framework is
never a new object: restricting a framework only changes `A`.

* `Admissible att A S`: `S` is a part of `A` without internal attacks that
  attacks back every active attacker of its members.
* `Preferred att A S`: a subset-maximal admissible set.
* `SkepticallyAccepted att A q`: `q` lies in every preferred set.

`exists_preferred_of_admissible` is the only place where a choice principle is
used: every admissible set extends to a preferred one, for an arbitrary set of
active arguments.
-/

namespace Dung

variable {α : Type*}

/-- `S` attacks `b` when some member of `S` does. -/
def Attacks (att : α → α → Prop) (S : Set α) (b : α) : Prop := ∃ a ∈ S, att a b

/-- No member of `S` attacks a member of `S`. -/
def ConflictFree (att : α → α → Prop) (S : Set α) : Prop :=
  ∀ a ∈ S, ∀ b ∈ S, ¬ att a b

/-- `S` defends `a` inside `A`: it attacks every active attacker of `a`. -/
def Defends (att : α → α → Prop) (A S : Set α) (a : α) : Prop :=
  ∀ b ∈ A, att b a → Attacks att S b

/-- `S` is admissible in the sub-framework induced by `A`. -/
structure Admissible (att : α → α → Prop) (A S : Set α) : Prop where
  subset : S ⊆ A
  conflictFree : ConflictFree att S
  defends : ∀ a ∈ S, Defends att A S a

/-- A preferred set is a subset-maximal admissible set. -/
def Preferred (att : α → α → Prop) (A S : Set α) : Prop := Maximal (Admissible att A) S

/-- `q` lies in every preferred set of the sub-framework induced by `A`. -/
def SkepticallyAccepted (att : α → α → Prop) (A : Set α) (q : α) : Prop :=
  ∀ E, Preferred att A E → q ∈ E

variable {att : α → α → Prop} {A S T E : Set α} {a b q : α}

/-! ## Attacks -/

theorem Attacks.mono (hST : S ⊆ T) (h : Attacks att S b) : Attacks att T b := by
  obtain ⟨a, ha, hab⟩ := h
  exact ⟨a, hST ha, hab⟩

theorem attacks_union : Attacks att (S ∪ T) b ↔ Attacks att S b ∨ Attacks att T b := by
  constructor
  · rintro ⟨a, ha | ha, hab⟩
    · exact Or.inl ⟨a, ha, hab⟩
    · exact Or.inr ⟨a, ha, hab⟩
  · rintro (h | h)
    · exact h.mono Set.subset_union_left
    · exact h.mono Set.subset_union_right

theorem not_attacks_empty : ¬ Attacks att ∅ b := fun ⟨_, ha, _⟩ => ha

theorem ConflictFree.not_attacks (h : ConflictFree att S) (hb : b ∈ S) : ¬ Attacks att S b :=
  fun ⟨a, ha, hab⟩ => h a ha b hb hab

/-! ## Admissible sets -/

theorem admissible_empty : Admissible att A ∅ where
  subset := Set.empty_subset A
  conflictFree := fun _ ha => ha.elim
  defends := fun _ ha => ha.elim

/-- A set that is attacked by an admissible set does not attack it from within. -/
theorem Admissible.not_mem_of_attacks (h : Admissible att A S) (hb : Attacks att S b) : b ∉ S :=
  fun hbS => h.conflictFree.not_attacks hbS hb

/-- The union of two admissible sets without conflict between them is admissible. -/
theorem Admissible.union (hS : Admissible att A S) (hT : Admissible att A T)
    (hST : ∀ a ∈ S, ∀ b ∈ T, ¬ att a b) : Admissible att A (S ∪ T) where
  subset := Set.union_subset hS.subset hT.subset
  conflictFree := by
    -- `T` cannot attack `S` either: `S` would attack back.
    have hTS : ∀ b ∈ T, ∀ a ∈ S, ¬ att b a := by
      intro b hb a ha hba
      obtain ⟨c, hc, hcb⟩ := hS.defends a ha b (hT.subset hb) hba
      exact hST c hc b hb hcb
    rintro a (ha | ha) b (hb | hb)
    · exact hS.conflictFree a ha b hb
    · exact hST a ha b hb
    · exact hTS a ha b hb
    · exact hT.conflictFree a ha b hb
  defends := by
    rintro a (ha | ha) b hb hba
    · exact (hS.defends a ha b hb hba).mono Set.subset_union_left
    · exact (hT.defends a ha b hb hba).mono Set.subset_union_right

/-- The union of a chain of admissible sets is admissible. -/
theorem admissible_sUnion {c : Set (Set α)} (hc : IsChain (· ⊆ ·) c)
    (hadm : ∀ S ∈ c, Admissible att A S) : Admissible att A (⋃₀ c) where
  subset := Set.sUnion_subset fun S hS => (hadm S hS).subset
  conflictFree := by
    rintro a ⟨S, hS, ha⟩ b ⟨T, hT, hb⟩
    rcases hc.total hS hT with hle | hle
    · exact (hadm T hT).conflictFree a (hle ha) b hb
    · exact (hadm S hS).conflictFree a ha b (hle hb)
  defends := by
    rintro a ⟨S, hS, ha⟩ b hb hba
    exact ((hadm S hS).defends a ha b hb hba).mono (Set.subset_sUnion_of_mem hS)

/-! ## Preferred sets -/

theorem Preferred.admissible (h : Preferred att A E) : Admissible att A E := h.prop

/-- A preferred set absorbs every admissible set above it. -/
theorem Preferred.eq_of_subset (h : Preferred att A E) (hT : Admissible att A T) (hET : E ⊆ T) :
    T = E :=
  Set.Subset.antisymm (h.2 hT hET) hET

/-- **Every admissible set extends to a preferred set.** -/
theorem exists_preferred_of_admissible (hS : Admissible att A S) :
    ∃ E, S ⊆ E ∧ Preferred att A E := by
  obtain ⟨E, hSE, hE⟩ := zorn_subset_nonempty {T | Admissible att A T}
    (fun c hc hchain _ => ⟨⋃₀ c, admissible_sUnion hchain fun T hT => hc hT,
      fun T hT => Set.subset_sUnion_of_mem hT⟩) S hS
  exact ⟨E, hSE, hE⟩

theorem exists_preferred (att : α → α → Prop) (A : Set α) : ∃ E, Preferred att A E := by
  obtain ⟨E, -, hE⟩ := exists_preferred_of_admissible (@admissible_empty α att A)
  exact ⟨E, hE⟩

/-- An argument attacked by an admissible set is missing from every preferred
set above it. -/
theorem Preferred.not_mem_of_attacks (h : Preferred att A E) (hSE : S ⊆ E)
    (hq : Attacks att S q) : q ∉ E :=
  h.admissible.not_mem_of_attacks (hq.mono hSE)

/-- **Attacked by an admissible set is not accepted.** -/
theorem not_skepticallyAccepted_of_attacks (hS : Admissible att A S) (hq : Attacks att S q) :
    ¬ SkepticallyAccepted att A q := by
  intro hacc
  obtain ⟨E, hSE, hE⟩ := exists_preferred_of_admissible hS
  exact hE.not_mem_of_attacks hSE hq (hacc E hE)

/-- Not accepted means omitted by some preferred set. -/
theorem not_skepticallyAccepted_iff :
    ¬ SkepticallyAccepted att A q ↔ ∃ E, Preferred att A E ∧ q ∉ E := by
  simp only [SkepticallyAccepted, not_forall, exists_prop]

/-- A preferred set is nonempty as soon as some admissible set is. -/
theorem Preferred.nonempty (h : Preferred att A E) (hS : Admissible att A S) (hne : S.Nonempty) :
    E.Nonempty := by
  rw [Set.nonempty_iff_ne_empty]
  rintro rfl
  obtain ⟨a, ha⟩ := hne
  exact (h.2 hS (Set.empty_subset S)) ha

end Dung
