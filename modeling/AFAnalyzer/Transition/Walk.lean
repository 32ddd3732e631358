import Mathlib.Order.Bounds.Basic
import Mathlib.Tactic.Common

/-!
# Walks and shortest distances

`Walk r k a b` is a walk of `k` steps from `a` to `b`.  A labelling of a set by numbers
gives the length of a shortest walk to a target as soon as two local conditions hold:
every element but the target has a step that lowers the label by one, and no step into the
set raises it by more than one (`isLeast_walk_of_labelling`).
-/

namespace Transition

variable {α : Type*}

/-- `b` is `k` steps away from `a`. -/
inductive Walk (r : α → α → Prop) : ℕ → α → α → Prop
  | refl (a : α) : Walk r 0 a a
  | head {k : ℕ} {a b c : α} (first : r a b) (rest : Walk r k b c) : Walk r (k + 1) a c

variable {r : α → α → Prop} {a b c q : α} {k : ℕ}

/-- Along a walk into a set that steps enter slowly, the label grows by at most one for each
step. -/
theorem Walk.label_le {C : Set α} {d : α → ℕ}
    (hclosed : ∀ b ∈ C, ∀ a, r a b → a ∈ C ∧ d a ≤ d b + 1) (h : Walk r k a b) (hb : b ∈ C) :
    a ∈ C ∧ d a ≤ d b + k := by
  induction h with
  | refl => exact ⟨hb, le_rfl⟩
  | head first _ ih =>
    obtain ⟨hmem, hle⟩ := ih hb
    obtain ⟨ha, hstep⟩ := hclosed _ hmem _ first
    exact ⟨ha, by omega⟩

/-- **Local conditions for shortest distances.** -/
theorem isLeast_walk_of_labelling {C : Set α} {d : α → ℕ} (hq : q ∈ C) (hzero : d q = 0)
    (hlower : ∀ a ∈ C, a ≠ q → ∃ b ∈ C, r a b ∧ d a = d b + 1)
    (hclosed : ∀ b ∈ C, ∀ a, r a b → a ∈ C ∧ d a ≤ d b + 1) (ha : a ∈ C) :
    IsLeast {k | Walk r k a q} (d a) := by
  constructor
  · -- follow the lowering steps
    show Walk r (d a) a q
    induction hk : d a generalizing a with
    | zero =>
      by_cases haq : a = q
      · rw [haq]
        exact .refl q
      · obtain ⟨b, -, -, hd⟩ := hlower a ha haq
        omega
    | succ k ih =>
      have haq : a ≠ q := by
        rintro rfl
        omega
      obtain ⟨b, hb, hab, hd⟩ := hlower a ha haq
      exact .head hab (ih hb (by omega))
  · intro k hk
    have hle := (Walk.label_le hclosed hk hq).2
    omega

/-- **The nearest of several starting points.** -/
theorem isLeast_walk_of_nearest {S : Set α} {d : α → ℕ}
    (h : ∀ b ∈ S, IsLeast {k | Walk r k b q} (d b)) (ha : a ∈ S) (hmin : ∀ b ∈ S, d a ≤ d b) :
    IsLeast {k | ∃ b ∈ S, Walk r k b q} (d a) := by
  refine ⟨⟨a, ha, (h a ha).1⟩, ?_⟩
  rintro k ⟨b, hb, hwalk⟩
  exact (hmin b hb).trans ((h b hb).2 hwalk)

end Transition
