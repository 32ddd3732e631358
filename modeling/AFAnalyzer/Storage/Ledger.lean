import Mathlib.Algebra.Ring.Int.Defs
import Mathlib.Algebra.Ring.Nat
import Mathlib.Data.Finset.Basic
import Mathlib.Data.Finset.Dedup
import Mathlib.Logic.Function.Basic
import Mathlib.Logic.Pairwise

/-!
# Who owns what on a heap

Several parties allocate, use and free blocks of one heap.  `exec` runs such operations and fails
at the first one that would be an error: an access to a block that is not allocated, a block freed
twice, or an allocator that hands out a block that is in use.

`Ledger` is the account that rules errors out: every allocated block is in the base or belongs to
one party, and to no other.  A party that gives back its blocks, keeps them, or takes fresh ones
leaves the account in order (`Ledger.update`).
-/

namespace Storage

variable {α ι : Type*}

/-- What is done with a block. -/
inductive Op (α : Type*)
  | malloc (x : α)
  | access (x : α)
  | free (x : α)

/-- **The account.**  What is allocated is the base and what the parties own. -/
structure Ledger (base : Finset α) (own : ι → Finset α) (live : Finset α) : Prop where
  covers : ∀ x, x ∈ live ↔ x ∈ base ∨ ∃ i, x ∈ own i
  base : ∀ i, Disjoint base (own i)
  disjoint : Pairwise fun i j => Disjoint (own i) (own j)

variable {live base T : Finset α} {ops : List (Op α)} {own : ι → Finset α} {x : α} {l : List α}

theorem Ledger.mem_of_base (h : Ledger base own live) (hx : x ∈ base) : x ∈ live :=
  (h.covers x).mpr (Or.inl hx)

theorem Ledger.mem_of_own (h : Ledger base own live) {i : ι} (hx : x ∈ own i) : x ∈ live :=
  (h.covers x).mpr (Or.inr ⟨i, hx⟩)

/-- Nobody owns anything at the start. -/
theorem ledger_base : Ledger base (fun _ : ι => (∅ : Finset α)) base where
  covers := by simp
  base := fun _ => Finset.disjoint_empty_right _
  disjoint := fun _ _ _ => Finset.disjoint_empty_right _

variable [DecidableEq α] [DecidableEq ι]

/-- One operation on the set of allocated blocks. -/
def Op.exec (live : Finset α) : Op α → Option (Finset α)
  | malloc x => if x ∈ live then none else some (insert x live)
  | access x => if x ∈ live then some live else none
  | free x => if x ∈ live then some (live.erase x) else none

/-- The operations in turn. -/
def exec (live : Finset α) : List (Op α) → Option (Finset α)
  | [] => some live
  | op :: ops => (op.exec live).bind fun live => exec live ops

theorem exec_malloc (h : x ∉ live) :
    exec live (.malloc x :: ops) = exec (insert x live) ops := by
  rw [exec, Op.exec, if_neg h, Option.bind_some]

theorem exec_access (h : x ∈ live) : exec live (.access x :: ops) = exec live ops := by
  rw [exec, Op.exec, if_pos h, Option.bind_some]

theorem exec_free (h : x ∈ live) : exec live (.free x :: ops) = exec (live.erase x) ops := by
  rw [exec, Op.exec, if_pos h, Option.bind_some]

/-- Blocks that are allocated and distinct can be freed. -/
theorem exec_map_free (hl : l.Nodup) (h : ∀ x ∈ l, x ∈ live) :
    exec live (l.map .free) = some (live \ l.toFinset) := by
  induction l generalizing live with
  | nil => rw [List.map_nil, exec, List.toFinset_nil, Finset.sdiff_empty]
  | cons x l ih =>
    obtain ⟨hx, hl⟩ := List.nodup_cons.mp hl
    rw [List.map_cons, exec_free (h x List.mem_cons_self), ih hl fun y hy => ?_]
    · rw [List.toFinset_cons, Finset.sdiff_insert, Finset.erase_sdiff_comm]
    · refine Finset.mem_erase.mpr ⟨?_, h y (List.mem_cons_of_mem x hy)⟩
      rintro rfl
      exact hx hy

/-- **One party changes what it owns**, and takes nothing that was in use elsewhere. -/
theorem Ledger.update (h : Ledger base own live) (i : ι)
    (hT : T ⊆ own i ∨ Disjoint T live) :
    Ledger base (Function.update own i T) (live \ own i ∪ T) := by
  -- what is taken belongs to nobody else
  have hbase : Disjoint base T := by
    rcases hT with hT | hT
    · exact (h.base i).mono_right hT
    · exact (hT.mono_right fun x hx => h.mem_of_base hx).symm
  have hother : ∀ j, j ≠ i → Disjoint T (own j) := by
    intro j hj
    rcases hT with hT | hT
    · exact (h.disjoint hj).symm.mono_left hT
    · exact hT.mono_right fun x hx => h.mem_of_own hx
  refine ⟨fun x => ?_, fun j => ?_, fun j k hjk => ?_⟩
  · rw [Finset.mem_union, Finset.mem_sdiff, h.covers]
    constructor
    · rintro (⟨hx | ⟨j, hj⟩, hi⟩ | hx)
      · exact Or.inl hx
      · have hji : j ≠ i := fun heq => hi (heq ▸ hj)
        exact Or.inr ⟨j, by rwa [Function.update_of_ne hji]⟩
      · exact Or.inr ⟨i, by rwa [Function.update_self]⟩
    · rintro (hx | ⟨j, hj⟩)
      · exact Or.inl ⟨Or.inl hx, Finset.disjoint_left.mp (h.base i) hx⟩
      · by_cases hji : j = i
        · subst hji
          rw [Function.update_self] at hj
          exact Or.inr hj
        · rw [Function.update_of_ne hji] at hj
          exact Or.inl ⟨Or.inr ⟨j, hj⟩, Finset.disjoint_left.mp (h.disjoint hji) hj⟩
  · by_cases hji : j = i
    · subst hji
      rwa [Function.update_self]
    · rw [Function.update_of_ne hji]
      exact h.base j
  · show Disjoint (Function.update own i T j) (Function.update own i T k)
    by_cases hji : j = i
    · subst hji
      rw [Function.update_self, Function.update_of_ne (Ne.symm hjk)]
      exact hother k (Ne.symm hjk)
    · rw [Function.update_of_ne hji]
      by_cases hki : k = i
      · subst hki
        rw [Function.update_self]
        exact (hother j hji).symm
      · rw [Function.update_of_ne hki]
        exact h.disjoint hjk

end Storage
