import AFAnalyzer.Dung.Reduct
import AFAnalyzer.Logic.AF

/-!
# `Reduct`: dropping accepted arguments and their victims

`Reduct::get_reduct` filters the active arguments by one accepted argument, and
`get_reduct_set` folds it over a list, with two early exits on emptiness.  Both
build vector and bitset anew on every call.

`getReduct_vector` and `getReductSet_eq` say what is kept: the active arguments, in
their order, that are neither accepted nor attacked by an accepted argument.  The
second one makes the fold, its exits and its intermediate `clear` disappear.
`args_getReductSet` reads it as the reduct of the abstract theory, and
`getReductSet_append` is the composition law on which the search relies when it computes
every reduct from the root.
-/

namespace AFAnalyzer

/-- `Reduct::get_reduct`. -/
def getReduct (activeArguments : VectorBitSet) (F : AF) (argument : ℕ) : VectorBitSet :=
  activeArguments.vector.foldl
    (fun reduct a =>
      if a = argument ∨ (F.victimsAt argument).bit a = true then reduct else reduct.push a)
    (VectorBitSet.cleared F.numArgs)

/-- The loop of `Reduct::get_reduct_set` over the rest of the list. -/
def getReductLoop (F : AF) : VectorBitSet → List ℕ → VectorBitSet
  | reduct, [] => reduct
  | reduct, a :: rest =>
    if reduct.vector.isEmpty then reduct else getReductLoop F (getReduct reduct F a) rest

/-- `Reduct::get_reduct_set`; `none` is the exception thrown for an empty list. -/
def getReductSet (activeArguments : VectorBitSet) (F : AF) : List ℕ → Option VectorBitSet
  | [] => none
  | a :: rest =>
    let reduct := getReduct activeArguments F a
    if reduct.vector.isEmpty then some reduct else some (getReductLoop F reduct rest)

/-- The test by which the arguments of a list are dropped. -/
def survives (F : AF) (accepted : List ℕ) (a : ℕ) : Bool :=
  decide (a ∉ accepted ∧ ∀ b ∈ accepted, ¬ F.att b a)

variable {F : AF} {A : VectorBitSet} {a b : ℕ} {l l' : List ℕ}

theorem survives_iff : survives F l a = true ↔ a ∉ l ∧ ∀ b ∈ l, ¬ F.att b a := by
  rw [survives, decide_eq_true_iff]

theorem survives_append :
    survives F (l ++ l') a = true ↔ survives F l a = true ∧ survives F l' a = true := by
  simp only [survives_iff, List.mem_append]
  constructor
  · rintro ⟨hmem, hatt⟩
    exact ⟨⟨fun h => hmem (Or.inl h), fun b hb => hatt b (Or.inl hb)⟩,
      fun h => hmem (Or.inr h), fun b hb => hatt b (Or.inr hb)⟩
  · rintro ⟨⟨hl, hattl⟩, hl', hattl'⟩
    exact ⟨fun h => h.elim hl hl', fun b hb => hb.elim (hattl b) (hattl' b)⟩

@[simp] theorem survives_nil : survives F [] a = true := by
  simp [survives_iff]

/-! ## One argument -/

theorem foldl_filter_push (p : ℕ → Bool) (l : List ℕ) (s : VectorBitSet) :
    l.foldl (fun s a => if p a = true then s else s.push a) s =
      (l.filter fun a => !p a).foldl VectorBitSet.push s := by
  induction l generalizing s with
  | nil => rfl
  | cons a l ih =>
    rw [List.foldl_cons, ih]
    cases hp : p a with
    | true => rw [List.filter_cons_of_neg (by simp [hp])]; rfl
    | false => rw [List.filter_cons_of_pos (by simp [hp])]; rfl

theorem getReduct_eq_ofList (hF : F.Coherent) : getReduct A F a =
    VectorBitSet.ofList F.numArgs (A.vector.filter (survives F [a])) := by
  have htest : ∀ x, (!decide (x = a ∨ (F.victimsAt a).bit x = true)) = survives F [a] x := by
    intro x
    rw [Bool.eq_iff_iff, Bool.not_eq_true', decide_eq_false_iff_not, not_or, survives_iff,
      hF.bit_victims]
    simp
  have hfold := foldl_filter_push (fun x => decide (x = a ∨ (F.victimsAt a).bit x = true))
    A.vector (VectorBitSet.cleared F.numArgs)
  simp only [decide_eq_true_iff, htest] at hfold
  exact hfold

/-- `get_reduct` keeps, in order, what is neither `a` nor a victim of `a`. -/
theorem getReduct_vector (hF : F.Coherent) :
    (getReduct A F a).vector = A.vector.filter (survives F [a]) := by
  rw [getReduct_eq_ofList hF, VectorBitSet.ofList_vector]

theorem getReduct_matches (hF : F.Coherent) (hA : VectorBitSet.Matches F.numArgs A) :
    VectorBitSet.Matches F.numArgs (getReduct A F a) := by
  rw [getReduct_eq_ofList hF]
  exact VectorBitSet.matches_ofList (hA.nodup.filter _) fun b hb =>
    hA.le_of_mem (List.mem_filter.mp hb).1

/-! ## A list of arguments -/

theorem getReductLoop_vector (hF : F.Coherent) (l : List ℕ) (A : VectorBitSet) :
    (getReductLoop F A l).vector = A.vector.filter (survives F l) := by
  induction l generalizing A with
  | nil =>
    rw [getReductLoop]
    exact (List.filter_eq_self.mpr fun _ _ => survives_nil).symm
  | cons a l ih =>
    rw [getReductLoop]
    split
    · next hempty => rw [List.isEmpty_iff.mp hempty, List.filter_nil]
    · rw [ih, getReduct_vector hF, List.filter_filter]
      refine List.filter_congr fun x _ => ?_
      rw [Bool.eq_iff_iff, Bool.and_eq_true, and_comm, ← survives_append, List.singleton_append]

theorem getReductLoop_matches (hF : F.Coherent) (l : List ℕ) (A : VectorBitSet)
    (hA : VectorBitSet.Matches F.numArgs A) :
    VectorBitSet.Matches F.numArgs (getReductLoop F A l) := by
  induction l generalizing A with
  | nil => exact hA
  | cons a l ih =>
    rw [getReductLoop]
    split
    · exact hA
    · exact ih _ (getReduct_matches hF hA)

/-- **`get_reduct_set` returns on every nonempty list.**  The early exit returns an
empty reduct, which the loop would return as well. -/
theorem getReductSet_cons :
    getReductSet A F (a :: l) = some (getReductLoop F (getReduct A F a) l) := by
  rw [getReductSet]
  split
  · next hempty =>
    congr 1
    cases l with
    | nil => rfl
    | cons b l => rw [getReductLoop, if_pos hempty]
  · rfl

/-- **What `get_reduct_set` keeps**: the arguments of `A`, in the order of `A`, that
are neither in the list nor attacked by a member of it. -/
theorem getReductSet_eq (hF : F.Coherent) (hA : VectorBitSet.Matches F.numArgs A) (hl : l ≠ []) :
    getReductSet A F l =
      some (VectorBitSet.ofList F.numArgs (A.vector.filter (survives F l))) := by
  cases l with
  | nil => exact absurd rfl hl
  | cons a l =>
    rw [getReductSet_cons]
    congr 1
    have hm := getReductLoop_matches hF l _ (getReduct_matches (a := a) hF hA)
    refine hm.ext (VectorBitSet.matches_ofList (hA.nodup.filter _) fun b hb =>
      hA.le_of_mem (List.mem_filter.mp hb).1) ?_
    rw [VectorBitSet.ofList_vector, getReductLoop_vector hF, getReduct_vector hF,
      List.filter_filter]
    refine List.filter_congr fun x _ => ?_
    rw [Bool.eq_iff_iff, Bool.and_eq_true, and_comm, ← survives_append, List.singleton_append]

/-! ## The reduct of an extension -/

/-- The active arguments after accepting `accepted`, in the order of `A`. -/
def reductVector (F : AF) (A : VectorBitSet) (accepted : List ℕ) : List ℕ :=
  A.vector.filter (survives F accepted)

/-- The members of a list, as a set. -/
def listArgs (l : List ℕ) : Set ℕ := {a | a ∈ l}

@[simp] theorem mem_listArgs : a ∈ listArgs l ↔ a ∈ l := Iff.rfl

@[simp] theorem listArgs_nil : listArgs [] = ∅ := by
  ext a
  simp

theorem mem_reductVector : a ∈ reductVector F A l ↔
    a ∈ Dung.reduct F.att A.args (listArgs l) := by
  rw [reductVector, List.mem_filter, survives_iff, Dung.mem_reduct]
  simp only [VectorBitSet.mem_args, mem_listArgs, Dung.Attacks, not_exists, not_and]

/-- **`get_reduct_set` computes the abstract reduct.** -/
theorem args_getReductSet (hF : F.Coherent) (hA : VectorBitSet.Matches F.numArgs A) (hl : l ≠ []) :
    ∃ reduct, getReductSet A F l = some reduct ∧ VectorBitSet.Matches F.numArgs reduct ∧
      reduct.vector = reductVector F A l ∧
      reduct.args = Dung.reduct F.att A.args (listArgs l) := by
  refine ⟨_, getReductSet_eq hF hA hl, ?_, VectorBitSet.ofList_vector, ?_⟩
  · exact VectorBitSet.matches_ofList (hA.nodup.filter _) fun b hb =>
      hA.le_of_mem (List.mem_filter.mp hb).1
  · ext b
    rw [VectorBitSet.mem_args, VectorBitSet.ofList_vector]
    exact mem_reductVector

/-- Only the members of the list matter. -/
theorem survives_congr (h : ∀ x, x ∈ l ↔ x ∈ l') : survives F l a = survives F l' a := by
  rw [Bool.eq_iff_iff, survives_iff, survives_iff]
  simp only [h]

theorem getReductSet_congr (hF : F.Coherent) (hA : VectorBitSet.Matches F.numArgs A)
    (h : ∀ x, x ∈ l ↔ x ∈ l') : getReductSet A F l = getReductSet A F l' := by
  by_cases hl : l = []
  · have hl' : l' = [] := List.eq_nil_iff_forall_not_mem.mpr fun x hx => by
      rw [hl] at h
      exact List.not_mem_nil ((h x).mpr hx)
    rw [hl, hl']
  · have hl' : l' ≠ [] := by
      obtain ⟨x, hx⟩ := List.exists_mem_of_ne_nil l hl
      exact List.ne_nil_of_mem ((h x).mp hx)
    rw [getReductSet_eq hF hA hl, getReductSet_eq hF hA hl']
    congr 2
    exact List.filter_congr fun x _ => survives_congr h

/-- **Composition.**  Reducing by one list and then by another is reducing once by both. -/
theorem getReductSet_append (hF : F.Coherent) (hA : VectorBitSet.Matches F.numArgs A)
    (hl : l ≠ []) (hl' : l' ≠ []) :
    ((getReductSet A F l).bind fun R => getReductSet R F l') = getReductSet A F (l ++ l') := by
  have hR : VectorBitSet.Matches F.numArgs
      (VectorBitSet.ofList F.numArgs (A.vector.filter (survives F l))) :=
    VectorBitSet.matches_ofList (hA.nodup.filter _) fun b hb =>
      hA.le_of_mem (List.mem_filter.mp hb).1
  rw [getReductSet_eq hF hA hl, Option.bind_some, getReductSet_eq hF hR hl',
    getReductSet_eq hF hA (List.append_ne_nil_of_left_ne_nil hl l'), VectorBitSet.ofList_vector,
    List.filter_filter]
  congr 2
  refine List.filter_congr fun x _ => ?_
  rw [Bool.eq_iff_iff, Bool.and_eq_true, survives_append, and_comm]

/-- **What `get_reduct_set` returns.**  For every nonempty list it keeps the active arguments
that are neither listed nor attacked by a listed one, in their order and with matching
bitset; neither the order nor repetitions of the list matter; and reducing step by step is
reducing once by everything. -/
theorem getReductSet_exact (W : WellFormed) (A : ActiveArgs W.n) {l : List ℕ} (hl : l ≠ []) :
    (∃ R : ActiveArgs W.n, getReductSet A.toVectorBitSet W.af l = some R.toVectorBitSet ∧
        R.vector = A.vector.filter (survives W.af l)) ∧
      (∀ l', (∀ a, a ∈ l ↔ a ∈ l') →
        getReductSet A.toVectorBitSet W.af l = getReductSet A.toVectorBitSet W.af l') ∧
      ∀ l', l' ≠ [] →
        ((getReductSet A.toVectorBitSet W.af l).bind fun R => getReductSet R W.af l') =
          getReductSet A.toVectorBitSet W.af (l ++ l') := by
  have hF := W.coherent
  refine ⟨?_, fun l' h => getReductSet_congr hF A.matches_af h,
    fun l' hl' => getReductSet_append hF A.matches_af hl hl'⟩
  obtain ⟨R, hR, hmatch, hvec, -⟩ := args_getReductSet hF A.matches_af hl
  rw [WellFormed.af, buildAF_numArgs] at hmatch
  refine ⟨⟨R, hmatch, fun a ha => A.pos a ?_⟩, hR, hvec⟩
  rw [hvec] at ha
  exact (List.mem_filter.mp ha).1

/-- The framework `1 → 2`, `3 → 4`, `5 ↔ 6`, `7 → 8`. -/
def splitFramework : WellFormed where
  n := 8
  calls := [(1, 2), (3, 4), (5, 6), (6, 5), (7, 8)]
  order := [(1, 2), (3, 4), (5, 6), (6, 5), (7, 8)]
  bound := by decide
  inRange := by decide
  iteration := iterationOrder_self (by decide)

/-- Its arguments, in some order. -/
def splitActive : ActiveArgs splitFramework.n where
  toVectorBitSet := VectorBitSet.ofList 8 [6, 2, 8, 5, 1, 7, 4, 3]
  agrees := VectorBitSet.matches_ofList (by decide) (by decide)
  pos := by decide

theorem getReductSet_exact_split :
    (∃ R : ActiveArgs splitFramework.n,
        getReductSet splitActive.toVectorBitSet splitFramework.af [3, 1, 3] =
            some R.toVectorBitSet ∧
          R.vector = [6, 8, 5, 7]) ∧
      getReductSet splitActive.toVectorBitSet splitFramework.af [3, 1, 3] =
        getReductSet splitActive.toVectorBitSet splitFramework.af [1, 3] ∧
      ((getReductSet splitActive.toVectorBitSet splitFramework.af [3, 1, 3]).bind fun R =>
          getReductSet R splitFramework.af [5]) =
        getReductSet splitActive.toVectorBitSet splitFramework.af [3, 1, 3, 5] := by
  obtain ⟨⟨R, hR, hvec⟩, hcongr, happend⟩ :=
    getReductSet_exact splitFramework splitActive (List.cons_ne_nil 3 [1, 3])
  refine ⟨⟨R, hR, hvec.trans (by decide)⟩, hcongr [1, 3] (by simp), ?_⟩
  exact happend [5] (List.cons_ne_nil 5 [])

end AFAnalyzer
