import AFAnalyzer.Logic.ConeInfluence
import Mathlib.Data.List.Count
import Mathlib.Data.List.Perm.Basic

/-!
# `reduce_by_grounded`: the grounded set by counting attackers

The function removes unattacked arguments and their victims until the query is
decided or nothing unattacked is left.  `num_attacker[a]` starts as the number of
all attackers of `a` and is decremented for every removed attacker; an argument
whose counter reaches 0 joins the list that is being iterated.  The active
arguments of the current round are updated only after its double loop.

The double loop runs over the victims of the victims of the current argument, so it
is one loop over a list with repetitions, `targets`.  `foldl_decrementAttacker`
is the specification of that loop: every active argument loses as much as it occurs
in the list, and the ones that thereby reach 0 are appended once.

`GroundedInv` is the invariant of the outer loop for an arbitrary set of active
arguments.  An attacker counts as removed only if it was active, so for a set that
is not closed under attackers the loop stops early, but what it accepts is grounded
all the same (`reduceByGrounded_spec`).  For a closed set it is the whole grounded
set (`GroundedResult.eq_grounded`).
-/

namespace AFAnalyzer

/-- `pre_proc_result`. -/
inductive PreProcResult
  | accepted
  | rejected
  | unknown
  deriving DecidableEq, Repr

/-- The local variables of `reduce_by_grounded`; the list is kept from the iterator
on. -/
structure GroundedState where
  unprocessed : List ℕ
  numAttacker : List ℕ
  outReduct : VectorBitSet

/-- The body of the initial loop over the active arguments. -/
def countAttackers (F : AF) (st : GroundedState) (a : ℕ) : GroundedState :=
  { st with
    unprocessed :=
      if (F.attackersAt a).vector.isEmpty then st.unprocessed ++ [a] else st.unprocessed
    numAttacker := st.numAttacker.set a (u32 (F.attackersAt a).vector.length) }

/-- The state in which the worklist is entered. -/
def groundedStart (F : AF) (active : VectorBitSet) : GroundedState :=
  active.vector.foldl (countAttackers F) ⟨[], List.replicate (F.numArgs + 1) 0, active⟩

/-- The body of the innermost loop: `num_attacker[vvua]--` on an unsigned counter,
for a victim of a victim that is still active. -/
def decrementAttacker (st : GroundedState) (vvua : ℕ) : GroundedState :=
  if st.outReduct.bit vvua = false then st
  else
    let numAttacker :=
      st.numAttacker.set vvua (u32 (st.numAttacker.getD vvua 0 + (2 ^ 32 - 1)))
    { st with
      numAttacker := numAttacker
      unprocessed :=
        if numAttacker.getD vvua 0 = 0 then st.unprocessed ++ [vvua] else st.unprocessed }

/-- The body of the loop over the victims of the current argument. -/
def visitVictim (F : AF) (st : GroundedState) (vua : ℕ) : GroundedState :=
  if st.outReduct.bit vua = false then st
  else (F.victimsAt vua).vector.foldl decrementAttacker st

/-- The loop over the unattacked arguments; `none` when the fuel does not
suffice. -/
def groundedLoop (F : AF) (query : ℕ) (fuel : ℕ) (st : GroundedState) :
    Option (PreProcResult × VectorBitSet) :=
  match st.unprocessed, fuel with
  | [], _ => some (.unknown, st.outReduct)
  | _ :: _, 0 => none
  | ua :: rest, fuel + 1 =>
    if ua = query then some (.accepted, st.outReduct)
    else if (F.victimsAt ua).bit query = true then some (.rejected, st.outReduct)
    else
      let st' := (F.victimsAt ua).vector.foldl (visitVictim F) { st with unprocessed := rest }
      groundedLoop F query fuel { st' with outReduct := getReduct st'.outReduct F ua }

/-- `reduce_by_grounded`: the result, and what it leaves in `out_reduct`. -/
def reduceByGrounded (F : AF) (active : VectorBitSet) (query : ℕ) :
    Option (PreProcResult × VectorBitSet) :=
  groundedLoop F query (active.vector.length + 1) (groundedStart F active)

variable {F : AF} {A : VectorBitSet} {st st' : GroundedState} {P l : List ℕ} {q ua a b : ℕ}

/-! ## The double loop -/

/-- The victims of the active victims of an argument, with repetitions. -/
def targets (F : AF) (R : VectorBitSet) (ua : ℕ) : List ℕ :=
  ((F.victimsAt ua).vector.filter fun v => R.bit v).flatMap fun v => (F.victimsAt v).vector

/-- The effect of a run of decrements for the arguments of `l`. -/
structure Decremented (n : ℕ) (l : List ℕ) (st st' : GroundedState) : Prop where
  outReduct : st'.outReduct = st.outReduct
  length : st'.numAttacker.length = st.numAttacker.length
  counter : ∀ x ∈ st.outReduct.vector,
    st'.numAttacker.getD x 0 + l.count x = st.numAttacker.getD x 0
  queue : ∀ y, y ∈ st'.unprocessed ↔ y ∈ st.unprocessed ∨
    (y ∈ st.outReduct.vector ∧ 0 < st.numAttacker.getD y 0 ∧ st'.numAttacker.getD y 0 = 0)
  nodup : st.unprocessed.Nodup →
    (∀ y ∈ st.unprocessed, y ∈ st.outReduct.vector ∧ st.numAttacker.getD y 0 = 0) →
    st'.unprocessed.Nodup

theorem u32_pred {x : ℕ} (hpos : 0 < x) (hlt : x < 2 ^ 32) : u32 (x + (2 ^ 32 - 1)) = x - 1 := by
  unfold u32
  omega

theorem decrementAttacker_outReduct : (decrementAttacker st a).outReduct = st.outReduct := by
  unfold decrementAttacker
  split <;> rfl

/-- One decrement of a positive counter. -/
theorem decremented_active {n : ℕ} (hR : VectorBitSet.Matches n st.outReduct)
    (hlen : st.numAttacker.length = n + 1) (ha : a ∈ st.outReduct.vector)
    (hlt : st.numAttacker.getD a 0 < 2 ^ 32) (hpos : 0 < st.numAttacker.getD a 0) :
    Decremented n [a] st (decrementAttacker st a) := by
  have hbit : ¬ st.outReduct.bit a = false := by
    rw [Bool.not_eq_false, hR.bit_iff]
    exact ha
  have hidx : a < st.numAttacker.length := by
    rw [hlen]
    exact hR.lt_of_mem ha
  have hself : (st.numAttacker.set a
      (u32 (st.numAttacker.getD a 0 + (2 ^ 32 - 1)))).getD a 0 = st.numAttacker.getD a 0 - 1 := by
    rw [getD_set_self hidx, u32_pred hpos hlt]
  simp only [decrementAttacker, if_neg hbit]
  refine ⟨rfl, List.length_set, ?_, ?_, ?_⟩
  · intro x hx
    by_cases hxa : a = x
    · subst hxa
      rw [hself, List.count_singleton_self]
      omega
    · rw [getD_set_ne hxa, List.count_singleton, if_neg (by simpa using hxa)]
      rfl
  · intro y
    by_cases hya : a = y
    · subst hya
      rw [hself]
      by_cases hzero : st.numAttacker.getD a 0 - 1 = 0
      · rw [if_pos hzero, List.mem_append, List.mem_singleton]
        tauto
      · rw [if_neg hzero]
        tauto
    · rw [getD_set_ne hya, hself]
      have hy : ¬ y = a := fun h => hya h.symm
      have hnew : ¬ (y ∈ st.outReduct.vector ∧ 0 < st.numAttacker.getD y 0 ∧
          st.numAttacker.getD y 0 = 0) := by
        rintro ⟨-, h1, h2⟩
        omega
      split
      · rw [List.mem_append, List.mem_singleton]
        tauto
      · tauto
  · intro hnodup hzero
    dsimp only
    split
    · rw [List.nodup_append]
      refine ⟨hnodup, List.nodup_singleton a, ?_⟩
      rintro y hy z hz rfl
      rw [List.mem_singleton] at hz
      subst hz
      have := (hzero y hy).2
      omega
    · exact hnodup

/-- Arguments that are not active are passed over. -/
theorem decremented_inactive {n : ℕ} (hR : VectorBitSet.Matches n st.outReduct)
    (ha : a ∉ st.outReduct.vector) : Decremented n [a] st (decrementAttacker st a) := by
  have hbit : st.outReduct.bit a = false := by
    rw [← Bool.not_eq_true, hR.bit_iff]
    exact ha
  simp only [decrementAttacker, if_pos hbit]
  refine ⟨rfl, rfl, ?_, ?_, fun hnodup _ => hnodup⟩
  · intro x hx
    have hxa : ¬ a = x := fun h => ha (h ▸ hx)
    rw [List.count_singleton, if_neg (by simpa using hxa)]
    rfl
  · intro y
    constructor
    · exact Or.inl
    · rintro (h | ⟨-, h1, h2⟩)
      · exact h
      · omega

/-- One round of the innermost loop. -/
theorem decremented_single {n : ℕ} (hR : VectorBitSet.Matches n st.outReduct)
    (hlen : st.numAttacker.length = n + 1)
    (hlt : ∀ x ∈ st.outReduct.vector, st.numAttacker.getD x 0 < 2 ^ 32)
    (hpos : a ∈ st.outReduct.vector → 0 < st.numAttacker.getD a 0) :
    Decremented n [a] st (decrementAttacker st a) := by
  by_cases ha : a ∈ st.outReduct.vector
  · exact decremented_active hR hlen ha (hlt a ha) (hpos ha)
  · exact decremented_inactive hR ha

theorem Decremented.nil {n : ℕ} : Decremented n [] st st where
  outReduct := rfl
  length := rfl
  counter := fun x _ => by rw [List.count_nil, Nat.add_zero]
  queue := by
    intro y
    constructor
    · exact Or.inl
    · rintro (h | ⟨-, h1, h2⟩)
      · exact h
      · omega
  nodup := fun hnodup _ => hnodup

/-- Two runs of decrements in a row.  A counter reaches 0 in one of them. -/
theorem Decremented.trans {n : ℕ} {st₁ st₂ : GroundedState} {l' : List ℕ}
    (h : Decremented n l st st₁) (h' : Decremented n l' st₁ st₂) :
    Decremented n (l ++ l') st st₂ where
  outReduct := h'.outReduct.trans h.outReduct
  length := h'.length.trans h.length
  counter := by
    intro x hx
    have h1 := h.counter x hx
    have h2 := h'.counter x (by rw [h.outReduct]; exact hx)
    rw [List.count_append]
    omega
  queue := by
    intro y
    rw [h'.queue, h.queue, h.outReduct]
    constructor
    · rintro ((hy | ⟨hy, h1, h2⟩) | ⟨hy, h1, h2⟩)
      · exact Or.inl hy
      · have := h'.counter y (by rw [h.outReduct]; exact hy)
        exact Or.inr ⟨hy, h1, by omega⟩
      · have := h.counter y hy
        exact Or.inr ⟨hy, by omega, h2⟩
    · rintro (hy | ⟨hy, h1, h2⟩)
      · exact Or.inl (Or.inl hy)
      · by_cases hzero : st₁.numAttacker.getD y 0 = 0
        · exact Or.inl (Or.inr ⟨hy, h1, hzero⟩)
        · exact Or.inr ⟨hy, by omega, h2⟩
  nodup := by
    intro hnodup hzero
    refine h'.nodup (h.nodup hnodup hzero) fun y hy => ?_
    rw [h.outReduct]
    rcases (h.queue y).mp hy with hold | ⟨hmem, -, h2⟩
    · have hcounter := h.counter y (hzero y hold).1
      have hstart := (hzero y hold).2
      exact ⟨(hzero y hold).1, by omega⟩
    · exact ⟨hmem, h2⟩

/-- **The decrements of a list.**  No counter wraps as long as no active argument
occurs more often than its counter says. -/
theorem foldl_decrementAttacker {n : ℕ} (l : List ℕ) (hR : VectorBitSet.Matches n st.outReduct)
    (hlen : st.numAttacker.length = n + 1)
    (hlt : ∀ x ∈ st.outReduct.vector, st.numAttacker.getD x 0 < 2 ^ 32)
    (hcount : ∀ x ∈ st.outReduct.vector, l.count x ≤ st.numAttacker.getD x 0) :
    Decremented n l st (l.foldl decrementAttacker st) := by
  induction l generalizing st with
  | nil => exact Decremented.nil
  | cons a l ih =>
    have hfirst : Decremented n [a] st (decrementAttacker st a) := by
      refine decremented_single hR hlen hlt fun ha => ?_
      have hpos := hcount a ha
      rw [List.count_cons_self] at hpos
      omega
    rw [List.foldl_cons, ← List.singleton_append]
    refine hfirst.trans (ih ?_ ?_ ?_ ?_)
    · rw [hfirst.outReduct]
      exact hR
    · rw [hfirst.length]
      exact hlen
    · rw [hfirst.outReduct]
      intro x hx
      have h1 := hfirst.counter x hx
      have h2 := hlt x hx
      omega
    · rw [hfirst.outReduct]
      intro x hx
      have h1 := hfirst.counter x hx
      have h2 := hcount x hx
      rw [← List.singleton_append, List.count_append] at h2
      omega

theorem foldl_decrementAttacker_outReduct (l : List ℕ) (st : GroundedState) :
    (l.foldl decrementAttacker st).outReduct = st.outReduct := by
  induction l generalizing st with
  | nil => rfl
  | cons a l ih => exact (ih _).trans decrementAttacker_outReduct

/-- The double loop is one loop over the targets. -/
theorem foldl_visitVictim (l : List ℕ) (st : GroundedState) :
    l.foldl (visitVictim F) st =
      ((l.filter fun v => st.outReduct.bit v).flatMap fun v => (F.victimsAt v).vector).foldl
        decrementAttacker st := by
  induction l generalizing st with
  | nil => rfl
  | cons v l ih =>
    rw [List.foldl_cons, ih]
    by_cases hbit : st.outReduct.bit v = true
    · have hvisit : visitVictim F st v = (F.victimsAt v).vector.foldl decrementAttacker st :=
        if_neg (by rw [hbit]; exact Bool.noConfusion)
      rw [hvisit, foldl_decrementAttacker_outReduct, List.filter_cons_of_pos hbit,
        List.flatMap_cons, List.foldl_append]
    · have hvisit : visitVictim F st v = st := if_pos (by simpa using hbit)
      rw [hvisit, List.filter_cons_of_neg hbit]

/-! ## Counting attackers -/

/-- The attackers of `a` that the loop has not removed: those that are still active
or never were. -/
def liveAttackers (F : AF) (A R : VectorBitSet) (a : ℕ) : ℕ :=
  (F.attackersAt a).vector.countP fun b => decide (b ∉ A.vector ∨ b ∈ R.vector)

theorem countP_add_countP_not {β : Type*} (p r : β → Bool) (l : List β)
    (h : ∀ x ∈ l, r x = true → p x = true) :
    l.countP p = l.countP r + l.countP fun x => p x && !r x := by
  rw [List.countP_eq_countP_filter_add l p r, List.countP_filter, List.countP_filter]
  congr 1
  refine List.countP_congr fun x hx => ?_
  rw [Bool.and_eq_true]
  exact ⟨fun hpr => hpr.2, fun hr => ⟨h x hx hr, hr⟩⟩

/-- How often an argument is a target: once for each of its attackers among the
active victims. -/
theorem count_targets (hF : F.Coherent) {R : VectorBitSet} {n : ℕ}
    (hR : VectorBitSet.Matches n R) : (targets F R ua).count a =
      (F.attackersAt a).vector.countP fun b => decide (b ∈ R.vector ∧ F.att ua b) := by
  have hcount : ∀ k : List ℕ, (k.flatMap fun v => (F.victimsAt v).vector).count a =
      k.countP fun v => decide (F.att v a) := by
    intro k
    induction k with
    | nil => rfl
    | cons v k ih =>
      rw [List.flatMap_cons, List.count_append, ih, (hF.nodup_victims v).count, List.countP_cons,
        Nat.add_comm]
      congr 1
      by_cases hva : F.att v a
      · rw [if_pos ((hF.mem_victims v a).mpr hva), if_pos (decide_eq_true hva)]
      · rw [if_neg fun h => hva ((hF.mem_victims v a).mp h), if_neg (by simpa using hva)]
  rw [targets, hcount, List.countP_eq_length_filter, List.countP_eq_length_filter,
    List.filter_filter]
  -- both sides list the arguments between `ua` and `a`, without repetition
  refine ((List.perm_ext_iff_of_nodup ((hF.nodup_victims ua).filter _)
    ((hF.nodup_attackers a).filter _)).mpr fun b => ?_).length_eq
  simp only [List.mem_filter, Bool.and_eq_true, decide_eq_true_eq, hF.mem_victims,
    hF.mem_attackers, hR.bit_iff]
  tauto

/-- The counted attackers of `a` that a round on `ua` does not remove. -/
def sparedAttackers (F : AF) (A R : VectorBitSet) (ua a : ℕ) : ℕ :=
  (F.attackersAt a).vector.countP fun b =>
    decide (b ∉ A.vector ∨ b ∈ R.vector) && !decide (b ∈ R.vector ∧ F.att ua b)

/-- A round decrements the counter of `a` once for each attacker that it removes. -/
theorem count_targets_add_spared (hF : F.Coherent) {R : VectorBitSet} {n : ℕ}
    (hR : VectorBitSet.Matches n R) (A : VectorBitSet) (ua a : ℕ) :
    (targets F R ua).count a + sparedAttackers F A R ua a = liveAttackers F A R a := by
  rw [count_targets hF hR, liveAttackers, sparedAttackers,
    ← countP_add_countP_not (fun b => decide (b ∉ A.vector ∨ b ∈ R.vector))]
  intro b _ hb
  rw [decide_eq_true_eq] at hb ⊢
  exact Or.inr hb.1

/-- An argument that does not attack itself keeps its place in the counters of its
victims. -/
theorem spared_pos (hF : F.Coherent) {R : VectorBitSet} (hua : ua ∈ R.vector)
    (hself : ¬ F.att ua ua) (hatt : F.att ua a) : 0 < sparedAttackers F A R ua a := by
  refine List.countP_pos_iff.mpr ⟨ua, (hF.mem_attackers a ua).mpr hatt, ?_⟩
  rw [Bool.and_eq_true, Bool.not_eq_true', decide_eq_true_eq, decide_eq_false_iff_not]
  exact ⟨Or.inr hua, fun h => hself h.2⟩

theorem mem_getReduct (hF : F.Coherent) {R : VectorBitSet} :
    a ∈ (getReduct R F ua).vector ↔ a ∈ R.vector ∧ a ≠ ua ∧ ¬ F.att ua a := by
  rw [getReduct_vector hF, List.mem_filter, survives_iff]
  simp

/-- What a round spares is what is counted after it. -/
theorem liveAttackers_getReduct (hF : F.Coherent) {R : VectorBitSet}
    (hR : ∀ b ∈ R.vector, b ∈ A.vector) (hatt : ¬ F.att ua a) :
    liveAttackers F A (getReduct R F ua) a = sparedAttackers F A R ua a := by
  refine List.countP_congr fun b hb => ?_
  have hba : F.att b a := (hF.mem_attackers a b).mp hb
  have hne : b ≠ ua := fun h => hatt (h ▸ hba)
  have hsub : b ∈ R.vector → b ∈ A.vector := hR b
  rw [Bool.and_eq_true, Bool.not_eq_true', decide_eq_true_eq, decide_eq_true_eq,
    decide_eq_false_iff_not, mem_getReduct hF]
  tauto

/-! ## The invariant of the worklist -/

/-- `P` lists the arguments processed so far. -/
structure GroundedInv (F : AF) (A : VectorBitSet) (q : ℕ) (st : GroundedState) (P : List ℕ) :
    Prop where
  agrees : VectorBitSet.Matches F.numArgs st.outReduct
  vector : st.outReduct.vector = reductVector F A P
  grounds : Dung.Grounds F.att A.args (listArgs P)
  nodup_processed : P.Nodup
  query_mem : q ∈ st.outReduct.vector
  length : st.numAttacker.length = F.numArgs + 1
  counter : ∀ a ∈ st.outReduct.vector,
    st.numAttacker.getD a 0 = liveAttackers F A st.outReduct a
  queue : ∀ a, a ∈ st.unprocessed ↔ a ∈ st.outReduct.vector ∧ st.numAttacker.getD a 0 = 0
  nodup_queue : st.unprocessed.Nodup

theorem liveAttackers_lt (hF : F.Coherent) {R : VectorBitSet} : liveAttackers F A R a < 2 ^ 32 := by
  have hle : liveAttackers F A R a ≤ (F.attackersAt a).vector.length := List.countP_le_length
  have hsub : (F.attackersAt a).vector ⊆ List.range' 1 F.numArgs := by
    intro b hb
    have := (hF.att_args ((hF.mem_attackers a b).mp hb)).1
    rw [List.mem_range'_1]
    exact ⟨this.1, by have := this.2; omega⟩
  have hlen := (List.subperm_of_subset (hF.nodup_attackers a) hsub).length_le
  rw [List.length_range'] at hlen
  have := hF.bound
  omega

theorem liveAttackers_eq_zero (hF : F.Coherent) {R : VectorBitSet} :
    liveAttackers F A R a = 0 ↔ ∀ b, F.att b a → b ∈ A.vector ∧ b ∉ R.vector := by
  rw [liveAttackers, List.countP_eq_zero]
  simp only [hF.mem_attackers, decide_eq_true_eq, not_or, not_not]

/-- **An unattacked argument is grounded**: all its attackers were active and have
been removed, and a removed attacker of an active argument is attacked by an
accepted one. -/
theorem GroundedInv.defends (hF : F.Coherent) (h : GroundedInv F A q st P)
    (ha : a ∈ st.unprocessed) : Dung.Defends F.att A.args (listArgs P) a := by
  obtain ⟨hmem, hzero⟩ := (h.queue a).mp ha
  have hcounter := h.counter a hmem
  rw [hzero] at hcounter
  have hall := (liveAttackers_eq_zero hF).mp hcounter.symm
  have hred : a ∈ Dung.reduct F.att A.args (listArgs P) := by
    rw [← mem_reductVector, ← h.vector]
    exact hmem
  intro b hbA hba
  by_contra hno
  have hbP : b ∉ listArgs P := fun hbP => hred.2.2 ⟨b, hbP, hba⟩
  apply (hall b hba).2
  rw [h.vector, mem_reductVector]
  exact ⟨hbA, hbP, hno⟩

theorem GroundedInv.mem_active (h : GroundedInv F A q st P) (ha : a ∈ st.outReduct.vector) :
    a ∈ A.vector := by
  rw [h.vector, reductVector, List.mem_filter] at ha
  exact ha.1

/-- The processed arguments and the one at the head of the list are distinct active
arguments, so there are enough rounds. -/
theorem GroundedInv.length_lt (h : GroundedInv F A q st P) (ha : a ∈ st.unprocessed) :
    P.length < A.vector.length := by
  have hmem := ((h.queue a).mp ha).1
  have haP : a ∉ P := by
    rw [h.vector, mem_reductVector] at hmem
    exact hmem.2.1
  have hsub : a :: P ⊆ A.vector := by
    intro b hb
    rcases List.mem_cons.mp hb with rfl | hb
    · exact h.mem_active hmem
    · exact h.grounds.admissible.subset hb
  have := (List.subperm_of_subset (List.nodup_cons.mpr ⟨haP, h.nodup_processed⟩) hsub).length_le
  rw [List.length_cons] at this
  omega

/-- An argument of the list has lost all its attackers, so it is not one of them. -/
theorem GroundedInv.notSelf (hF : F.Coherent) (h : GroundedInv F A q st P)
    (hua : ua ∈ st.unprocessed) : ¬ F.att ua ua := by
  obtain ⟨hmem, hzero⟩ := (h.queue ua).mp hua
  have hlive := (liveAttackers_eq_zero hF).mp ((h.counter ua hmem).symm.trans hzero)
  exact fun hself => (hlive ua hself).2 hmem

/-- **Some of the decrements of one round.**  No argument is a target more often than its
counter says, so no counter wraps. -/
theorem GroundedInv.foldl_sublist (hF : F.Coherent) (h : GroundedInv F A q st P)
    (hl : l.Sublist (targets F st.outReduct ua)) (rest : List ℕ) :
    Decremented F.numArgs l { st with unprocessed := rest }
      (l.foldl decrementAttacker { st with unprocessed := rest }) := by
  refine foldl_decrementAttacker _ h.agrees h.length (fun a ha => ?_) fun a ha => ?_
  · show st.numAttacker.getD a 0 < 2 ^ 32
    rw [h.counter a ha]
    exact liveAttackers_lt hF
  · show l.count a ≤ st.numAttacker.getD a 0
    rw [h.counter a ha, ← count_targets_add_spared hF h.agrees A ua a]
    exact (hl.count_le a).trans (Nat.le_add_right _ _)

/-- The double loop of one round. -/
theorem GroundedInv.decremented (hF : F.Coherent) (h : GroundedInv F A q st P) (ua : ℕ)
    (rest : List ℕ) :
    Decremented F.numArgs (targets F st.outReduct ua) { st with unprocessed := rest }
      ((F.victimsAt ua).vector.foldl (visitVictim F) { st with unprocessed := rest }) := by
  rw [foldl_visitVictim]
  exact h.foldl_sublist hF (List.Sublist.refl _) rest

/-- The counters after the double loop. -/
theorem GroundedInv.counter_decremented (hF : F.Coherent) (h : GroundedInv F A q st P)
    {rest : List ℕ} (hdec : Decremented F.numArgs (targets F st.outReduct ua)
      { st with unprocessed := rest } st') (ha : a ∈ st.outReduct.vector) :
    st'.numAttacker.getD a 0 = sparedAttackers F A st.outReduct ua a := by
  have hcounter : st'.numAttacker.getD a 0 + (targets F st.outReduct ua).count a =
      st.numAttacker.getD a 0 := hdec.counter a ha
  have hsplit := count_targets_add_spared hF h.agrees A ua a
  rw [h.counter a ha] at hcounter
  omega

/-- The list after the double loop: no victim of `ua` has joined it. -/
theorem GroundedInv.queue_decremented (hF : F.Coherent) (h : GroundedInv F A q st P)
    {rest : List ℕ} (hun : st.unprocessed = ua :: rest)
    (hdec : Decremented F.numArgs (targets F st.outReduct ua) { st with unprocessed := rest } st') :
    a ∈ st'.unprocessed ↔
      (a ∈ st.outReduct.vector ∧ a ≠ ua ∧ ¬ F.att ua a) ∧ st'.numAttacker.getD a 0 = 0 := by
  have hua : ua ∈ st.unprocessed := by
    rw [hun]
    exact List.mem_cons_self
  obtain ⟨huaR, huazero⟩ := (h.queue ua).mp hua
  have hnodup := h.nodup_queue
  rw [hun, List.nodup_cons] at hnodup
  have hvictim : ∀ a ∈ st.outReduct.vector, F.att ua a → 0 < st'.numAttacker.getD a 0 := by
    intro a ha hatt
    rw [h.counter_decremented hF hdec ha]
    exact spared_pos hF huaR (h.notSelf hF hua) hatt
  have hrest : a ∈ rest ↔ a ≠ ua ∧ a ∈ st.outReduct.vector ∧ st.numAttacker.getD a 0 = 0 := by
    rw [← h.queue, hun, List.mem_cons]
    constructor
    · intro har
      exact ⟨fun heq => hnodup.1 (heq ▸ har), Or.inr har⟩
    · rintro ⟨hne, rfl | har⟩
      · exact absurd rfl hne
      · exact har
  rw [hdec.queue]
  constructor
  · rintro (har | ⟨haR, hpos, hzero⟩)
    · obtain ⟨hne, haR, hold⟩ := hrest.mp har
      have hcounter := hdec.counter a haR
      have hzero : st'.numAttacker.getD a 0 = 0 := by
        simp only at hcounter
        omega
      exact ⟨⟨haR, hne, fun hatt => (hvictim a haR hatt).ne' hzero⟩, hzero⟩
    · refine ⟨⟨haR, fun heq => ?_, fun hatt => (hvictim a haR hatt).ne' hzero⟩, hzero⟩
      subst heq
      exact hpos.ne' huazero
  · rintro ⟨⟨haR, hne, -⟩, hzero⟩
    by_cases hold : st.numAttacker.getD a 0 = 0
    · exact Or.inl (hrest.mpr ⟨hne, haR, hold⟩)
    · exact Or.inr ⟨haR, Nat.pos_of_ne_zero hold, hzero⟩

/-- **One round** on an argument that is not the query and does not attack it. -/
theorem GroundedInv.round (hF : F.Coherent) {rest : List ℕ} (h : GroundedInv F A q st P)
    (hun : st.unprocessed = ua :: rest) (hq : ua ≠ q) (hatt : ¬ F.att ua q)
    (hst' : st' = (F.victimsAt ua).vector.foldl (visitVictim F) { st with unprocessed := rest }) :
    GroundedInv F A q { st' with outReduct := getReduct st'.outReduct F ua } (P ++ [ua]) := by
  have hua : ua ∈ st.unprocessed := by
    rw [hun]
    exact List.mem_cons_self
  have huaR := ((h.queue ua).mp hua).1
  have hnodup := h.nodup_queue
  rw [hun, List.nodup_cons] at hnodup
  have hdec := h.decremented hF ua rest
  rw [← hst'] at hdec
  rw [show st'.outReduct = st.outReduct from hdec.outReduct]
  refine
    { agrees := getReduct_matches hF h.agrees
      vector := ?_
      grounds := ?_
      nodup_processed := ?_
      query_mem := (mem_getReduct hF).mpr ⟨h.query_mem, fun heq => hq heq.symm, hatt⟩
      length := hdec.length.trans h.length
      counter := ?_
      queue := ?_
      nodup_queue := ?_ }
  · rw [getReduct_vector hF, h.vector, reductVector, List.filter_filter, reductVector]
    refine List.filter_congr fun x _ => ?_
    rw [Bool.eq_iff_iff, Bool.and_eq_true, and_comm, ← survives_append]
  · have hset : listArgs (P ++ [ua]) = insert ua (listArgs P) := by
      ext x
      simp [or_comm]
    rw [hset]
    exact h.grounds.accept (h.mem_active huaR) (h.defends hF hua)
  · rw [List.nodup_append]
    refine ⟨h.nodup_processed, List.nodup_singleton ua, ?_⟩
    rintro x hx y hy rfl
    rw [List.mem_singleton] at hy
    subst hy
    rw [h.vector, mem_reductVector] at huaR
    exact huaR.2.1 hx
  · intro a ha
    obtain ⟨haR, -, hnot⟩ := (mem_getReduct hF).mp ha
    exact (h.counter_decremented hF hdec haR).trans
      (liveAttackers_getReduct hF (fun b => h.mem_active) hnot).symm
  · intro a
    have hqueue : a ∈ st'.unprocessed ↔ _ := h.queue_decremented hF hun hdec
    rw [mem_getReduct hF]
    exact hqueue
  · refine hdec.nodup hnodup.2 fun y hy => ?_
    exact (h.queue y).mp (by rw [hun]; exact List.mem_cons_of_mem ua hy)

/-! ## The loop -/

/-- What the loop has found when it stops. -/
inductive GroundedResult (F : AF) (A : VectorBitSet) (q : ℕ) :
    PreProcResult → VectorBitSet → Prop
  | accepted {out : VectorBitSet} (mem : q ∈ Dung.grounded F.att A.args) :
      GroundedResult F A q .accepted out
  | rejected {out : VectorBitSet} (attacked : Dung.Attacks F.att (Dung.grounded F.att A.args) q) :
      GroundedResult F A q .rejected out
  | unknown {out : VectorBitSet} (P : List ℕ)
      (agrees : VectorBitSet.Matches F.numArgs out)
      (vector : out.vector = reductVector F A P)
      (grounds : Dung.Grounds F.att A.args (listArgs P))
      (query_mem : q ∈ out.vector)
      (attacked : ∀ a ∈ out.vector, ∃ b, F.att b a ∧ (b ∉ A.vector ∨ b ∈ out.vector)) :
      GroundedResult F A q .unknown out

/-- With nothing left to process, every active argument still has an attacker that
was not removed. -/
theorem GroundedInv.result_of_nil (hF : F.Coherent) (h : GroundedInv F A q st P)
    (hun : st.unprocessed = []) : GroundedResult F A q .unknown st.outReduct := by
  refine .unknown P h.agrees h.vector h.grounds h.query_mem fun a ha => ?_
  by_contra hno
  push Not at hno
  have hzero : liveAttackers F A st.outReduct a = 0 :=
    (liveAttackers_eq_zero hF).mpr fun b hba => by
      have := hno b hba
      tauto
  have hmem := (h.queue a).mpr ⟨ha, (h.counter a ha).trans hzero⟩
  rw [hun] at hmem
  exact absurd hmem List.not_mem_nil

/-- **The loop ends within its fuel, with a result that the grounded set
explains.** -/
theorem groundedLoop_spec (hF : F.Coherent) (fuel : ℕ) (h : GroundedInv F A q st P)
    (hfuel : A.vector.length ≤ P.length + fuel) :
    ∃ result out, groundedLoop F q fuel st = some (result, out) ∧
      GroundedResult F A q result out := by
  induction fuel generalizing st P with
  | zero =>
    cases hun : st.unprocessed with
    | nil =>
      exact ⟨.unknown, st.outReduct, by unfold groundedLoop; rw [hun], h.result_of_nil hF hun⟩
    | cons ua rest =>
      have := h.length_lt (a := ua) (by rw [hun]; exact List.mem_cons_self)
      omega
  | succ fuel ih =>
    cases hun : st.unprocessed with
    | nil =>
      exact ⟨.unknown, st.outReduct, by unfold groundedLoop; rw [hun], h.result_of_nil hF hun⟩
    | cons ua rest =>
      have hua : ua ∈ st.unprocessed := by
        rw [hun]
        exact List.mem_cons_self
      have hground : ua ∈ Dung.grounded F.att A.args :=
        h.grounds.mem_grounded_of_defends (h.mem_active ((h.queue ua).mp hua).1)
          (h.defends hF hua)
      by_cases hq : ua = q
      · refine ⟨.accepted, st.outReduct, ?_, .accepted (hq ▸ hground)⟩
        unfold groundedLoop
        simp only [hun]
        rw [if_pos hq]
      · by_cases hatt : F.att ua q
        · refine ⟨.rejected, st.outReduct, ?_, .rejected ⟨ua, hground, hatt⟩⟩
          unfold groundedLoop
          simp only [hun]
          rw [if_neg hq, if_pos ((hF.bit_victims ua q).mpr hatt)]
        · obtain ⟨result, out, hloop, hres⟩ := ih (h.round hF hun hq hatt rfl) (by
            rw [List.length_append, List.length_singleton]
            omega)
          refine ⟨result, out, ?_, hres⟩
          rw [← hloop]
          conv_lhs => unfold groundedLoop
          simp only [hun]
          rw [if_neg hq, if_neg fun hbit => hatt ((hF.bit_victims ua q).mp hbit)]

/-! ## The start -/

/-- The initial loop over a list of active arguments. -/
theorem foldl_countAttackers (l : List ℕ) (st : GroundedState) (hnodup : l.Nodup)
    (hlen : ∀ a ∈ l, a < st.numAttacker.length) :
    (l.foldl (countAttackers F) st).outReduct = st.outReduct ∧
      (l.foldl (countAttackers F) st).numAttacker.length = st.numAttacker.length ∧
      (l.foldl (countAttackers F) st).unprocessed =
        st.unprocessed ++ l.filter (fun a => (F.attackersAt a).vector.isEmpty) ∧
      ∀ a, (l.foldl (countAttackers F) st).numAttacker.getD a 0 =
        if a ∈ l then u32 (F.attackersAt a).vector.length else st.numAttacker.getD a 0 := by
  induction l generalizing st with
  | nil => simp
  | cons a l ih =>
    obtain ⟨hal, hl⟩ := List.nodup_cons.mp hnodup
    have hlen' : (countAttackers F st a).numAttacker.length = st.numAttacker.length :=
      List.length_set
    obtain ⟨h1, h2, h3, h4⟩ := ih (countAttackers F st a) hl fun b hb => by
      rw [hlen']
      exact hlen b (List.mem_cons_of_mem a hb)
    rw [List.foldl_cons]
    refine ⟨h1, h2.trans hlen', ?_, fun b => ?_⟩
    · rw [h3, List.filter_cons]
      simp only [countAttackers]
      split
      · rw [List.append_assoc, List.singleton_append]
      · rfl
    · rw [h4]
      by_cases hba : b = a
      · subst hba
        rw [if_neg hal, if_pos List.mem_cons_self]
        exact getD_set_self (hlen b List.mem_cons_self)
      · by_cases hbl : b ∈ l
        · rw [if_pos hbl, if_pos (List.mem_cons_of_mem a hbl)]
        · rw [if_neg hbl, if_neg (by simp [hba, hbl])]
          exact getD_set_ne fun hab => hba hab.symm

theorem groundedInv_groundedStart (hF : F.Coherent) (hA : VectorBitSet.Matches F.numArgs A)
    (hq : q ∈ A.vector) : GroundedInv F A q (groundedStart F A) [] := by
  have hidx : ∀ a ∈ A.vector, a < (List.replicate (F.numArgs + 1) 0).length := by
    intro a ha
    rw [List.length_replicate]
    exact hA.lt_of_mem ha
  obtain ⟨hout, hlen, hun, hnum⟩ := foldl_countAttackers (F := F) A.vector
    ⟨[], List.replicate (F.numArgs + 1) 0, A⟩ hA.nodup hidx
  -- nothing has been removed, so every attacker is counted
  have hcounter : ∀ a ∈ A.vector,
      (groundedStart F A).numAttacker.getD a 0 = (F.attackersAt a).vector.length := by
    intro a ha
    have hall : liveAttackers F A A a = (F.attackersAt a).vector.length := by
      rw [liveAttackers, List.countP_eq_length]
      exact fun b _ => decide_eq_true (Classical.em (b ∈ A.vector)).symm
    have hlt : liveAttackers F A A a < 2 ^ 32 := liveAttackers_lt hF
    rw [groundedStart, hnum, if_pos ha, ← hall, u32_of_lt hlt]
  refine
    { agrees := by rw [groundedStart, hout]; exact hA
      vector := ?_
      grounds := by rw [listArgs_nil]; exact Dung.grounds_empty
      nodup_processed := List.nodup_nil
      query_mem := by rw [groundedStart, hout]; exact hq
      length := by rw [groundedStart, hlen, List.length_replicate]
      counter := ?_
      queue := ?_
      nodup_queue := by
        rw [groundedStart, hun, List.nil_append]
        exact hA.nodup.filter _ }
  · rw [groundedStart, hout, reductVector]
    exact (List.filter_eq_self.mpr fun _ _ => survives_nil).symm
  · intro a ha
    rw [groundedStart, hout] at ha
    rw [hcounter a ha, groundedStart, hout, liveAttackers, eq_comm, List.countP_eq_length]
    exact fun b _ => decide_eq_true (Classical.em (b ∈ A.vector)).symm
  · intro a
    have hunp : (groundedStart F A).unprocessed =
        A.vector.filter fun a => (F.attackersAt a).vector.isEmpty := by
      rw [groundedStart, hun, List.nil_append]
    have houtv : (groundedStart F A).outReduct = A := by rw [groundedStart, hout]
    rw [hunp, houtv, List.mem_filter, List.isEmpty_iff]
    constructor
    · rintro ⟨ha, hempty⟩
      refine ⟨ha, ?_⟩
      rw [hcounter a ha, hempty]
      rfl
    · rintro ⟨ha, hzero⟩
      rw [hcounter a ha] at hzero
      exact ⟨ha, List.eq_nil_of_length_eq_zero hzero⟩

/-- **`reduce_by_grounded` returns, and the grounded set of the active arguments
explains the result.** -/
theorem reduceByGrounded_spec (hF : F.Coherent) (hA : VectorBitSet.Matches F.numArgs A)
    (hq : q ∈ A.vector) : ∃ result out, reduceByGrounded F A q = some (result, out) ∧
      GroundedResult F A q result out :=
  groundedLoop_spec hF _ (groundedInv_groundedStart hF hA hq) (by simp)

/-- On a set closed under attackers, an undecided query leaves exactly the reduct by
the grounded set. -/
theorem GroundedResult.args_eq_of_closed {out : VectorBitSet}
    (h : GroundedResult F A q .unknown out) (hclosed : ∀ a ∈ A.vector, ∀ b, F.att b a →
      b ∈ A.vector) :
    out.args = Dung.reduct F.att A.args (Dung.grounded F.att A.args) := by
  cases h with
  | unknown P _ vector grounds _ attacked =>
    have hargs : out.args = Dung.reduct F.att A.args (listArgs P) := by
      ext a
      rw [VectorBitSet.mem_args, vector]
      exact mem_reductVector
    have heq : listArgs P = Dung.grounded F.att A.args := by
      refine grounds.eq_grounded fun a ha => ?_
      rw [← hargs] at ha ⊢
      obtain ⟨b, hba, hb | hb⟩ := attacked a ha
      · refine absurd (hclosed a ?_ b hba) hb
        rw [VectorBitSet.mem_args, vector, reductVector, List.mem_filter] at ha
        exact ha.1
      · exact ⟨b, hb, hba⟩
    rw [hargs, heq]

end AFAnalyzer
