import Mathlib.Data.List.GetD

/-!
# Tables with checked subscripts

A program that subscripts a vector without looking at its size is modelled in two ways: with
total accesses, which read a default past the end and write nothing, and with checked ones,
which fail there.  The reads are `table.getD i d` and `table[i]?`, the writes `table.set i v` and
`store table i v`.  A checked access that is in bounds does what the total one does.

For a loop the question is the same at every entry of a list.  `foldlM_eq_ite` answers it
exactly: if the checked body fails at the entries without `P` and agrees with the total body at
the others, then the checked loop fails when some entry is without `P`, and otherwise agrees
with the total loop.  `foldlM_eq_foldl` is the case in which no entry fails.
-/

namespace Table

variable {α β σ : Type*} {table : List β} {i : ℕ}

/-- `table[i] = v`. -/
def store (table : List β) (i : ℕ) (v : β) : Option (List β) :=
  if i < table.length then some (table.set i v) else none

theorem store_of_lt {v : β} (h : i < table.length) : store table i v = some (table.set i v) :=
  if_pos h

theorem read_of_lt {d : β} (h : i < table.length) : table[i]? = some (table.getD i d) := by
  rw [List.getElem?_eq_getElem h, List.getD_eq_getElem _ _ h]

/-- `table[i]` becomes what `f` makes of it. -/
def alter (table : List β) (i : ℕ) (f : β → Option β) : Option (List β) :=
  (table[i]?.bind f).bind fun v => store table i v

/-- An entry is altered if it is there and its alteration does not fail. -/
theorem alter_eq_ite {f : β → Option β} {g : β → β} {P : Prop} [Decidable P]
    (hf : ∀ v ∈ table, f v = if P then some (g v) else none) :
    alter table i f = if i < table.length ∧ P then some (table.modify i g) else none := by
  unfold alter
  by_cases hi : i < table.length
  · rw [List.getElem?_eq_getElem hi, Option.bind_some, hf _ (List.getElem_mem hi)]
    by_cases hP : P
    · have : Inhabited β := ⟨table[i]⟩
      rw [if_pos hP, if_pos ⟨hi, hP⟩, Option.bind_some, store_of_lt hi, List.modify_eq_set,
        List.getElem?_eq_getElem hi, Option.getD_some]
    · rw [if_neg hP, if_neg fun h => hP h.2]
      rfl
  · rw [List.getElem?_eq_none (Nat.le_of_not_lt hi), if_neg fun h => hi h.1]
    rfl

/-- A table that is computed entry by entry. -/
theorem mapM_eq_map {l : List α} {f : α → β} {g : α → Option β} (h : ∀ a ∈ l, g a = some (f a)) :
    l.mapM g = some (l.map f) := by
  induction l with
  | nil => rfl
  | cons a l ih =>
    rw [List.mapM_cons, h a List.mem_cons_self,
      ih fun b hb => h b (List.mem_cons_of_mem a hb)]
    rfl

variable {l : List α} {f : σ → α → σ} {g : σ → α → Option σ} {I : σ → Prop} {s : σ}

/-- **A checked loop fails exactly when its body fails at some entry.**  `I` is an invariant of
the total loop, as long as it passes entries with `P`. -/
theorem foldlM_eq_ite {P : α → Prop} [DecidablePred P]
    (hstep : ∀ s, I s → ∀ a ∈ l, g s a = if P a then some (f s a) else none)
    (hkeep : ∀ s, I s → ∀ a ∈ l, P a → I (f s a)) (hs : I s) :
    l.foldlM g s = if ∀ a ∈ l, P a then some (l.foldl f s) else none := by
  induction l generalizing s with
  | nil => exact (if_pos fun a ha => absurd ha List.not_mem_nil).symm
  | cons a l ih =>
    rw [List.foldlM_cons, hstep s hs a List.mem_cons_self]
    by_cases ha : P a
    · have hrest := ih (fun s hs b hb => hstep s hs b (List.mem_cons_of_mem a hb))
        (fun s hs b hb => hkeep s hs b (List.mem_cons_of_mem a hb))
        (hkeep s hs a List.mem_cons_self ha)
      rw [if_pos ha, Option.bind_eq_bind, Option.bind_some, hrest, List.foldl_cons]
      simp only [List.forall_mem_cons, ha, true_and]
    · rw [if_neg ha, if_neg fun hall => ha (hall a List.mem_cons_self)]
      rfl

/-- **A checked loop whose body stays in bounds is the total loop**, and its invariant holds at
the end. -/
theorem foldlM_eq_foldl (hstep : ∀ s, I s → ∀ a ∈ l, g s a = some (f s a) ∧ I (f s a))
    (hs : I s) : l.foldlM g s = some (l.foldl f s) ∧ I (l.foldl f s) := by
  constructor
  · rw [foldlM_eq_ite (P := fun _ => True)
      (fun s hs a ha => (hstep s hs a ha).1.trans (if_pos trivial).symm)
      (fun s hs a ha _ => (hstep s hs a ha).2) hs, if_pos fun _ _ => trivial]
  · exact List.foldlRecOn l f hs fun s hs a ha => (hstep s hs a ha).2

end Table
