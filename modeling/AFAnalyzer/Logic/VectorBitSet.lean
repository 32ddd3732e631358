import Mathlib.Data.List.Nodup
import Mathlib.Data.List.GetD
import Mathlib.Data.List.Perm.Subperm
import Mathlib.Data.Set.Basic
import Mathlib.Tactic.Common
import Mathlib.Algebra.Ring.Nat

/-!
# `VectorBitSet`: a set of arguments held twice

`VectorBitSet.h` keeps a set of argument ids as a vector, for iteration, and as a
bitset, for membership.  Nothing in the class ties the two together; every
producer fills them side by side.

* `VectorBitSet.push` is the pair of statements every producer repeats: append the
  id, set its bit.  `ofList` is a run of them from a cleared bitset.
* `VectorBitSet.Matches n s` is what the producers establish: no duplicates, a
  bitset of length `n + 1`, and a bit set exactly for the members.
* `ActiveArgs n` packages a matching value over the ids `1..n`, the domain on
  which the solver's functions are called.

`copy_eq` shows what `copy` returns in general: it reads the vector only up to the
length of the bitset.
-/

namespace AFAnalyzer

/-- `VectorBitSet.h`: the vector and the bitset of one set of arguments. -/
structure VectorBitSet where
  vector : List ℕ
  bitset : List Bool
  deriving DecidableEq, Inhabited, Repr

namespace VectorBitSet

/-- The loop of `VectorBitSet::copy`: it runs over the indices of the bitset, and
copies the entry of the vector with the same index while there is one. -/
def copy (s : VectorBitSet) : VectorBitSet :=
  (List.range s.bitset.length).foldl
    (fun c i =>
      { vector := if i < s.vector.length then c.vector ++ [s.vector.getD i 0] else c.vector
        bitset := c.bitset.set i (s.bitset.getD i false) })
    ⟨[], List.replicate s.bitset.length false⟩

/-- Append an argument and set its bit. -/
def push (s : VectorBitSet) (a : ℕ) : VectorBitSet := ⟨s.vector ++ [a], s.bitset.set a true⟩

/-- No member, and a cleared bitset for the ids up to `n`. -/
def cleared (n : ℕ) : VectorBitSet := ⟨[], List.replicate (n + 1) false⟩

/-- The value built by pushing the entries of a list in order. -/
def ofList (n : ℕ) (l : List ℕ) : VectorBitSet := l.foldl push (cleared n)

/-- The bit of an id; an id past the end has no bit. -/
def bit (s : VectorBitSet) (a : ℕ) : Bool := s.bitset.getD a false

/-- Vector and bitset agree: no duplicates, `n + 1` bits, a bit for each member
and for nothing else. -/
structure Matches (n : ℕ) (s : VectorBitSet) : Prop where
  nodup : s.vector.Nodup
  length : s.bitset.length = n + 1
  bit_iff : ∀ a, s.bit a = true ↔ a ∈ s.vector

variable {n : ℕ} {s : VectorBitSet} {l : List ℕ} {a b : ℕ}

/-! ## Building a value by pushes -/

@[simp] theorem push_vector : (s.push a).vector = s.vector ++ [a] := rfl

@[simp] theorem length_push_bitset : (s.push a).bitset.length = s.bitset.length := by
  simp [push]

theorem bit_push (ha : a < s.bitset.length) : (s.push a).bit b = true ↔ b = a ∨ s.bit b = true := by
  unfold bit push
  rw [List.getD_eq_getElem?_getD, List.getD_eq_getElem?_getD, List.getElem?_set]
  by_cases hab : a = b
  · subst hab
    simp [ha]
  · have hba : ¬ b = a := fun h => hab h.symm
    simp [hab, hba]

theorem Matches.lt_of_mem (h : Matches n s) (ha : a ∈ s.vector) : a < n + 1 := by
  have hbit := (h.bit_iff a).mpr ha
  rw [← h.length]
  by_contra hlt
  rw [bit, List.getD_eq_default _ _ (not_lt.mp hlt)] at hbit
  exact absurd hbit (by simp)

theorem Matches.le_of_mem (h : Matches n s) (ha : a ∈ s.vector) : a ≤ n :=
  Nat.le_of_lt_succ (h.lt_of_mem ha)

theorem matches_cleared (n : ℕ) : Matches n (cleared n) where
  nodup := List.nodup_nil
  length := by simp [cleared]
  bit_iff := by
    intro a
    rw [bit, cleared, List.getD_eq_getElem?_getD, List.getElem?_getD_replicate_default_eq]
    simp

/-- Pushing a new argument in range keeps vector and bitset in step. -/
theorem Matches.push (h : Matches n s) (ha : a ≤ n) (hnew : a ∉ s.vector) :
    Matches n (s.push a) where
  nodup := by
    rw [push_vector, List.nodup_append]
    refine ⟨h.nodup, List.nodup_singleton a, ?_⟩
    rintro b hb c hc rfl
    exact hnew (List.mem_singleton.mp hc ▸ hb)
  length := by rw [length_push_bitset, h.length]
  bit_iff := by
    intro b
    rw [bit_push (by rw [h.length]; omega), h.bit_iff, push_vector, List.mem_append,
      List.mem_singleton]
    exact or_comm

theorem foldl_push_vector (l : List ℕ) (s : VectorBitSet) :
    (l.foldl VectorBitSet.push s).vector = s.vector ++ l := by
  induction l generalizing s with
  | nil => simp
  | cons a l ih => rw [List.foldl_cons, ih, push_vector, List.append_assoc]; rfl

@[simp] theorem ofList_vector : (ofList n l).vector = l := by
  rw [ofList, foldl_push_vector]
  rfl

theorem Matches.foldl_push (h : Matches n s) (hnodup : l.Nodup) (hle : ∀ a ∈ l, a ≤ n)
    (hnew : ∀ a ∈ l, a ∉ s.vector) : Matches n (l.foldl VectorBitSet.push s) := by
  induction l generalizing s with
  | nil => exact h
  | cons a l ih =>
    obtain ⟨hal, hl⟩ := List.nodup_cons.mp hnodup
    refine ih (h.push (hle a List.mem_cons_self) (hnew a List.mem_cons_self)) hl
      (fun b hb => hle b (List.mem_cons_of_mem a hb)) fun b hb => ?_
    rw [push_vector, List.mem_append, List.mem_singleton, not_or]
    exact ⟨hnew b (List.mem_cons_of_mem a hb), fun hba => hal (hba ▸ hb)⟩

/-- A duplicate-free list in range builds a matching value. -/
theorem matches_ofList (hnodup : l.Nodup) (hle : ∀ a ∈ l, a ≤ n) : Matches n (ofList n l) :=
  (matches_cleared n).foldl_push hnodup hle fun _ _ h => absurd h List.not_mem_nil

/-! ## Equality and copies -/

/-- The vector determines a matching value. -/
theorem Matches.ext {t : VectorBitSet} (hs : Matches n s) (ht : Matches n t)
    (h : s.vector = t.vector) : s = t := by
  have hbits : s.bitset = t.bitset := by
    apply List.ext_getElem
    · rw [hs.length, ht.length]
    · intro i h₁ h₂
      have hi : s.bit i = t.bit i := by
        rw [Bool.eq_iff_iff, hs.bit_iff, ht.bit_iff, h]
      rwa [bit, bit, List.getD_eq_getElem _ _ h₁, List.getD_eq_getElem _ _ h₂] at hi
  cases s
  cases t
  simp only at h hbits
  rw [h, hbits]

/-- What the loop of `copy` has built after `k` rounds. -/
theorem copy_prefix (s : VectorBitSet) : ∀ k ≤ s.bitset.length,
    (List.range k).foldl
      (fun (c : VectorBitSet) i =>
        { vector := if i < s.vector.length then c.vector ++ [s.vector.getD i 0] else c.vector
          bitset := c.bitset.set i (s.bitset.getD i false) })
      ⟨[], List.replicate s.bitset.length false⟩ =
    ⟨s.vector.take k, s.bitset.take k ++ List.replicate (s.bitset.length - k) false⟩ := by
  intro k
  induction k with
  | zero => intro _; simp
  | succ k ih =>
    intro hk
    rw [List.range_succ, List.foldl_append, ih (by omega), List.foldl_cons, List.foldl_nil]
    have hvec : (if k < s.vector.length then s.vector.take k ++ [s.vector.getD k 0]
        else s.vector.take k) = s.vector.take (k + 1) := by
      by_cases hlt : k < s.vector.length
      · rw [if_pos hlt, List.getD_eq_getElem _ _ hlt, List.take_append_getElem]
      · rw [if_neg hlt, List.take_of_length_le (by omega), List.take_of_length_le (by omega)]
    have hbits : (s.bitset.take k ++ List.replicate (s.bitset.length - k) false).set k
        (s.bitset.getD k false) =
        s.bitset.take (k + 1) ++ List.replicate (s.bitset.length - (k + 1)) false := by
      have hlen : (s.bitset.take k).length = k := by rw [List.length_take]; omega
      have hrep : s.bitset.length - k = (s.bitset.length - (k + 1)) + 1 := by omega
      rw [List.set_append_right _ _ (by omega), hlen, Nat.sub_self, hrep, List.replicate_succ,
        List.set_cons_zero, List.getD_eq_getElem _ _ (by omega), ← List.take_append_getElem
          (by omega : k < s.bitset.length), List.append_assoc]
      rfl
    rw [hvec, hbits]

/-- `copy` keeps the bitset and cuts the vector to its length. -/
theorem copy_eq (s : VectorBitSet) : s.copy = ⟨s.vector.take s.bitset.length, s.bitset⟩ := by
  rw [copy, copy_prefix s _ le_rfl]
  simp

theorem Matches.length_vector_le (h : Matches n s) (hpos : ∀ a ∈ s.vector, 1 ≤ a) :
    s.vector.length ≤ n := by
  have hsub : s.vector ⊆ List.range' 1 n := by
    intro a ha
    have := h.le_of_mem ha
    have := hpos a ha
    rw [List.mem_range'_1]
    omega
  have := (List.subperm_of_subset h.nodup hsub).length_le
  rwa [List.length_range'] at this

/-- **Copying a matching value loses nothing.**  The vector has no duplicates and
its entries are indices of the bitset, so it is not longer than the bitset. -/
theorem Matches.copy_eq_self (h : Matches n s) : s.copy = s := by
  have hsub : s.vector ⊆ List.range (n + 1) := fun a ha => List.mem_range.mpr (h.lt_of_mem ha)
  have hlen := (List.subperm_of_subset h.nodup hsub).length_le
  rw [List.length_range, ← h.length] at hlen
  rw [copy_eq, List.take_of_length_le hlen]

end VectorBitSet

/-! ## Sets of active arguments -/

/-- A duplicate-free set of arguments in `1..n` with matching bitset. -/
structure ActiveArgs (n : ℕ) extends VectorBitSet where
  agrees : VectorBitSet.Matches n toVectorBitSet
  pos : ∀ a ∈ vector, 1 ≤ a

/-- The members, as a set. -/
def VectorBitSet.args (s : VectorBitSet) : Set ℕ := {a | a ∈ s.vector}

@[simp] theorem VectorBitSet.mem_args {s : VectorBitSet} {a : ℕ} : a ∈ s.args ↔ a ∈ s.vector :=
  Iff.rfl

end AFAnalyzer
