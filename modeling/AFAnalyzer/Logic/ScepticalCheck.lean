import AFAnalyzer.Logic.ConeInfluence
import AFAnalyzer.Logic.Reduct
import Mathlib.Data.List.Perm.Basic

/-!
# What the search does with a found set

The small functions that an activation of the search calls on a decoded set:

* `ScepticalCheck`: does the set attack the query, does it contain the query;
* `ExtendExtension`: the extension built so far and the new set, merged as
  `std::list::merge` does, which orders the result only when both lists are ordered;
* `Prioritizer::calculate_priority`: the priority of the task that continues with
  the new extension, a `uint32_t` difference that wraps;
* the reduct in which an activation with a given extension works (`buildReduct`).
-/

namespace AFAnalyzer

/-- `ScepticalCheck::check_rejection`. -/
def checkRejection (argument : ℕ) (initialSet : List ℕ) (F : AF) : Bool :=
  initialSet.any fun a => (F.victimsAt a).bit argument

/-- `ScepticalCheck::check_terminate_extension_build`. -/
def checkTerminateExtensionBuild (argument : ℕ) (initialSet : List ℕ) : Bool :=
  initialSet.any fun a => decide (a = argument)

/-- `ExtendExtension`: `std::list::merge`, which takes the head of the second list
only when it is smaller. -/
def extendExtension (extensionBuild initialSet : List ℕ) : List ℕ :=
  extensionBuild.merge initialSet fun a b => decide (a ≤ b)

/-- The priority of one argument, `num_args - distance_to_query[a]` in `uint32_t`. -/
def priorityOf (F : AF) (a : ℕ) : ℕ := u32 (F.numArgs + (2 ^ 32 - F.distanceAt a))

/-- `Prioritizer::calculate_priority`; `none` is the exception thrown for an empty
list. -/
def calculatePriority (F : AF) : List ℕ → Option ℕ
  | [] => none
  | a :: rest =>
    some (rest.foldl
      (fun prio b => let newPrio := priorityOf F b; if newPrio > prio then newPrio else prio)
      (priorityOf F a))

/-- The reduct of an activation: a copy of the active arguments for the empty
extension, else `get_reduct_set`. -/
def buildReduct (F : AF) (activeArgs : VectorBitSet) (extensionBuild : List ℕ) :
    Option VectorBitSet :=
  if extensionBuild.isEmpty then some activeArgs.copy
  else getReductSet activeArgs F extensionBuild

variable {F : AF} {A : VectorBitSet} {E S : List ℕ} {a q : ℕ}

theorem checkRejection_iff (hF : F.Coherent) :
    checkRejection q S F = true ↔ Dung.Attacks F.att (listArgs S) q := by
  rw [checkRejection, List.any_eq_true]
  exact exists_congr fun a => and_congr_right fun _ => hF.bit_victims a q

theorem checkTerminateExtensionBuild_iff :
    checkTerminateExtensionBuild q S = true ↔ q ∈ S := by
  rw [checkTerminateExtensionBuild, List.any_eq_true]
  simp

theorem extendExtension_perm : (extendExtension E S).Perm (E ++ S) := by
  rw [extendExtension]
  exact List.merge_perm_append _

@[simp] theorem mem_extendExtension : a ∈ extendExtension E S ↔ a ∈ E ∨ a ∈ S := by
  rw [extendExtension_perm.mem_iff, List.mem_append]

@[simp] theorem length_extendExtension :
    (extendExtension E S).length = E.length + S.length := by
  rw [extendExtension_perm.length_eq, List.length_append]

theorem extendExtension_ne_nil (hS : S ≠ []) : extendExtension E S ≠ [] := by
  obtain ⟨x, hx⟩ := List.exists_mem_of_ne_nil _ hS
  exact List.ne_nil_of_mem (mem_extendExtension.mpr (Or.inr hx))

@[simp] theorem listArgs_extendExtension :
    listArgs (extendExtension E S) = listArgs E ∪ listArgs S := by
  ext a
  simp

@[simp] theorem extendExtension_nil : extendExtension [] S = S := by
  rw [extendExtension, List.nil_merge]

theorem nodup_extendExtension (hE : E.Nodup) (hS : S.Nodup) (hdisj : ∀ a ∈ E, a ∉ S) :
    (extendExtension E S).Nodup := by
  rw [extendExtension_perm.nodup_iff, List.nodup_append]
  exact ⟨hE, hS, fun a ha b hb hab => hdisj a ha (hab ▸ hb)⟩

/-- A nonempty list has a priority. -/
theorem calculatePriority_eq_none : calculatePriority F S = none ↔ S = [] := by
  cases S <;> simp [calculatePriority]

/-! ## The reduct of an activation -/

/-- What is known of the reduct of an extension. -/
structure IsReduct (F : AF) (A : VectorBitSet) (E : List ℕ) (R : VectorBitSet) : Prop where
  build : buildReduct F A E = some R
  agrees : VectorBitSet.Matches F.numArgs R
  vector : R.vector = reductVector F A E
  args : R.args = Dung.reduct F.att A.args (listArgs E)

/-- **Every extension has a reduct.** -/
theorem exists_isReduct (hF : F.Coherent) (hA : VectorBitSet.Matches F.numArgs A) (E : List ℕ) :
    ∃ R, IsReduct F A E R := by
  by_cases hE : E = []
  · subst hE
    have hbuild : buildReduct F A [] = some A := by
      rw [← congrArg some hA.copy_eq_self]
      exact if_pos rfl
    refine ⟨A, hbuild, hA, ?_, ?_⟩
    · rw [reductVector]
      exact (List.filter_eq_self.mpr fun _ _ => survives_nil).symm
    · rw [listArgs_nil, Dung.reduct_empty]
  · obtain ⟨R, hbuild, hR, hvec, hargs⟩ := args_getReductSet hF hA hE
    refine ⟨R, ?_, hR, hvec, hargs⟩
    rw [buildReduct, if_neg (by simpa using hE), hbuild]

theorem isReduct_of_build (hF : F.Coherent) (hA : VectorBitSet.Matches F.numArgs A)
    {R : VectorBitSet} (h : buildReduct F A E = some R) : IsReduct F A E R := by
  obtain ⟨R', hR'⟩ := exists_isReduct hF hA E
  rw [hR'.build] at h
  exact Option.some.inj h ▸ hR'

theorem IsReduct.range {R : VectorBitSet} (h : IsReduct F A E R)
    (hA : ∀ a ∈ A.vector, a ∈ F.args) : ∀ a ∈ R.vector, a ∈ F.args := by
  intro a ha
  rw [h.vector, reductVector, List.mem_filter] at ha
  exact hA a ha.1

/-- A larger extension leaves a part of the reduct. -/
theorem reductVector_extendExtension_sublist :
    (reductVector F A (extendExtension E S)).Sublist (reductVector F A E) := by
  have htest : ∀ x, survives F (extendExtension E S) x = (survives F S x && survives F E x) := by
    intro x
    rw [Bool.eq_iff_iff, Bool.and_eq_true, and_comm, ← survives_append, survives_iff,
      survives_iff]
    simp only [extendExtension_perm.mem_iff]
  have heq : reductVector F A (extendExtension E S) =
      (reductVector F A E).filter (survives F S) := by
    rw [reductVector, reductVector, List.filter_filter]
    exact List.filter_congr fun x _ => htest x
  rw [heq]
  exact List.filter_sublist

/-- **Accepting a nonempty part of the reduct makes the reduct smaller.** -/
theorem length_reductVector_extendExtension_lt (hS : ∃ x ∈ S, x ∈ reductVector F A E) :
    (reductVector F A (extendExtension E S)).length < (reductVector F A E).length := by
  obtain ⟨x, hxS, hx⟩ := hS
  refine lt_of_le_of_ne reductVector_extendExtension_sublist.length_le fun hlen => ?_
  have heq := reductVector_extendExtension_sublist.eq_of_length hlen
  rw [← heq, mem_reductVector, listArgs_extendExtension] at hx
  exact hx.2.1 (Or.inr hxS)

end AFAnalyzer
