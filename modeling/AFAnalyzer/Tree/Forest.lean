import Mathlib.Algebra.BigOperators.Fin
import Mathlib.Algebra.Order.BigOperators.Group.Finset
import Mathlib.Algebra.Ring.Int.Defs
import Mathlib.Algebra.Ring.Nat
import Mathlib.Data.Fintype.List
import Mathlib.Data.Set.Card
import Mathlib.Data.Set.Finite.Range
import Mathlib.Tactic.Lift

/-!
# Forests given by parent pointers

A list of entries, each with a label and with the index of its parent if it has one.  When
every parent stands before its children the entries form a forest, and `Branch` reads the
labels from an entry up to its root.  If no two entries have the same parent and the same
label, an entry is known by its branch (`Branch.index_eq`).  So what is done at the entries can
be charged to the branches (`sum_le_sum_branches`), and there are no more entries than branches
can be (`length_le_ncard`).  That is how a search that never makes the same child twice is
bounded.
-/

namespace Forest

variable {β : Type*} {l : List (Option ℕ × β)} {i j : ℕ} {x : β} {p : List β}

/-- Parents stand before their children. -/
def Ordered (l : List (Option ℕ × β)) : Prop :=
  ∀ (i j : ℕ) (x : β), l[i]? = some (some j, x) → j < i

/-- The labels from entry `i` up to its root. -/
inductive Branch (l : List (Option ℕ × β)) : ℕ → List β → Prop
  | root {i : ℕ} {x : β} (entry : l[i]? = some (none, x)) : Branch l i [x]
  | child {i j : ℕ} {x : β} {p : List β} (entry : l[i]? = some (some j, x))
      (parent : Branch l j p) : Branch l i (x :: p)

/-- Every entry has a branch. -/
theorem Ordered.exists_branch (h : Ordered l) (i : ℕ) : i < l.length → ∃ p, Branch l i p := by
  induction i using Nat.strong_induction_on with
  | _ i ih =>
    intro hi
    obtain ⟨⟨parent, x⟩, hentry⟩ : ∃ y, l[i]? = some y := ⟨_, List.getElem?_eq_getElem hi⟩
    cases parent with
    | none => exact ⟨[x], .root hentry⟩
    | some j =>
      have hji := h i j x hentry
      obtain ⟨p, hp⟩ := ih j hji (hji.trans hi)
      exact ⟨x :: p, .child hentry hp⟩

theorem Branch.ne_nil (h : Branch l i p) : p ≠ [] := by
  cases h with
  | root => exact List.cons_ne_nil _ _
  | child => exact List.cons_ne_nil _ _

/-- Entries that are equal stand at one place. -/
theorem index_eq_of_nodup {y : Option ℕ × β} (hnodup : l.Nodup) (hi : l[i]? = some y)
    (hj : l[j]? = some y) : i = j :=
  (List.getElem?_inj (List.getElem?_eq_some_iff.mp hi).1 hnodup).mp (hi.trans hj.symm)

/-- **An entry is known by its branch.** -/
theorem Branch.index_eq (hnodup : l.Nodup) (h : Branch l i p) :
    ∀ {j : ℕ}, Branch l j p → i = j := by
  induction h with
  | root entry =>
    intro j h'
    cases h' with
    | root entry' => exact index_eq_of_nodup hnodup entry entry'
    | child _ parent => exact absurd rfl parent.ne_nil
  | child entry parent ih =>
    intro j h'
    cases h' with
    | root => exact absurd rfl parent.ne_nil
    | child entry' parent' =>
      obtain rfl := ih parent'
      exact index_eq_of_nodup hnodup entry entry'

/-- **Weights of entries are bounded over the branches.** -/
theorem sum_le_sum_branches (hordered : Ordered l) (hnodup : l.Nodup) {C : Finset (List β)}
    {g : Option ℕ × β → ℕ} {f : List β → ℕ}
    (h : ∀ i p y, Branch l i p → l[i]? = some y → p ∈ C ∧ g y ≤ f p) :
    (l.map g).sum ≤ ∑ p ∈ C, f p := by
  classical
  have hbranch : ∀ i : Fin l.length, ∃ p, Branch l i p := fun i =>
    hordered.exists_branch i i.isLt
  choose branch hbranch using hbranch
  have hentry : ∀ i : Fin l.length, branch i ∈ C ∧ g l[i.1] ≤ f (branch i) := fun i =>
    h i _ _ (hbranch i) (List.getElem?_eq_getElem i.isLt)
  have hinj : Function.Injective branch := fun i j hij => by
    have hj := hbranch j
    rw [← hij] at hj
    exact Fin.ext ((hbranch i).index_eq hnodup hj)
  calc (l.map g).sum = ∑ i : Fin l.length, g l[i.1] := (Fin.sum_univ_fun_getElem l g).symm
    _ ≤ ∑ i : Fin l.length, f (branch i) := Finset.sum_le_sum fun i _ => (hentry i).2
    _ = ∑ p ∈ Finset.univ.image branch, f p := (Finset.sum_image fun i _ j _ hij => hinj hij).symm
    _ ≤ ∑ p ∈ C, f p := Finset.sum_le_sum_of_subset fun p hp => by
      obtain ⟨i, -, rfl⟩ := Finset.mem_image.mp hp
      exact (hentry i).1

/-- **There are no more entries than branches.** -/
theorem length_le_ncard (hordered : Ordered l) (hnodup : l.Nodup) {C : Set (List β)}
    (hC : C.Finite) (h : ∀ i p, Branch l i p → p ∈ C) : l.length ≤ C.ncard := by
  have hle := sum_le_sum_branches (C := hC.toFinset) (f := fun _ => 1) (g := fun _ => 1) hordered
    hnodup fun i p _ hp _ => ⟨hC.mem_toFinset.mpr (h i p hp), le_rfl⟩
  rwa [List.map_const', List.sum_replicate_nat, Nat.mul_one, Finset.sum_const, smul_eq_mul,
    Nat.mul_one, ← Set.ncard_eq_toFinset_card C hC] at hle

/-- Lists without repetition over a finite set are finitely many. -/
theorem finite_nodup_lists {S : Set β} (hS : S.Finite) :
    {p : List β | p.Nodup ∧ ∀ x ∈ p, x ∈ S}.Finite := by
  classical
  have : Fintype S := hS.fintype
  refine (Set.finite_range fun p : {p : List S // p.Nodup} => p.1.map Subtype.val).subset ?_
  rintro p ⟨hnodup, hmem⟩
  lift p to List S using hmem
  exact ⟨⟨p, hnodup.of_map _⟩, rfl⟩

end Forest
