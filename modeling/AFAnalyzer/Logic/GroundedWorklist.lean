import AFAnalyzer.Logic.PreProcessor
import AFAnalyzer.Transition.Run

/-!
# The worklist of `reduce_by_grounded`

`GroundedInv` says what the loop has done by the time it comes round again.  This module
follows the loop from round to round and looks inside a round.

A round that does not return is a step of a transition system whose label is the argument
taken off the list (`GroundedStep`), so the labels of a run are the part of the list that
the iterator has passed, and what is still unprocessed is the rest of it.  The function
passes through exactly the states of these runs: `groundedLoop_run` skips a run, and
`exists_run_of_groundedLoop` finds the run behind a result.

The decrements of a round are made by two nested loops against an `out_reduct` that is
brought up to date only afterwards.  `Decrementing` names the moments at which they are
made.  What has been decremented so far is a sublist of the targets of the round, none of
which occurs more often than its counter says, so the counter really falls by one
(`GroundedInv.decrement`).

On a set that is closed under attackers every attacker of an active argument was active
once.  Then the counters count exactly the attackers in `out_reduct`, which is the reading
of `num_attacker` that the comments of the source suggest (`reduceByGrounded_worklist`).
-/

namespace AFAnalyzer

/-- What a round does with an argument that is neither the query nor one of its
attackers. -/
def removeUnattacked (F : AF) (ua : ℕ) (st : GroundedState) : GroundedState :=
  let st' := (F.victimsAt ua).vector.foldl (visitVictim F) st
  { st' with outReduct := getReduct st'.outReduct F ua }

/-- A round of the loop that does not return, labelled with the argument it takes off the
list. -/
inductive GroundedStep (F : AF) (query : ℕ) : GroundedState → ℕ → GroundedState → Prop
  | round {st : GroundedState} {ua : ℕ} {rest : List ℕ} (head : st.unprocessed = ua :: rest)
      (notQuery : ua ≠ query) (spares : ¬ (F.victimsAt ua).bit query = true) :
      GroundedStep F query st ua (removeUnattacked F ua { st with unprocessed := rest })

/-- The loop returns in the round that starts here, or has come to the end of the list. -/
inductive GroundedStops (F : AF) (query : ℕ) (st : GroundedState) : PreProcResult → Prop
  | accepted {rest : List ℕ} (head : st.unprocessed = query :: rest) :
      GroundedStops F query st .accepted
  | rejected {ua : ℕ} {rest : List ℕ} (head : st.unprocessed = ua :: rest)
      (notQuery : ua ≠ query) (attacks : (F.victimsAt ua).bit query = true) :
      GroundedStops F query st .rejected
  | unknown (empty : st.unprocessed = []) : GroundedStops F query st .unknown

/-- A moment in the double loop of a round on `ua` that starts with `st`: the variables are
those of `mid`, and `num_attacker[vvua]--` comes next. -/
inductive Decrementing (F : AF) (ua : ℕ) (st : GroundedState) : GroundedState → ℕ → Prop
  | inner {visited left done todo : List ℕ} {vua vvua : ℕ}
      (victims : (F.victimsAt ua).vector = visited ++ vua :: left)
      (active : (visited.foldl (visitVictim F) st).outReduct.bit vua = true)
      (victimsOfVictim : (F.victimsAt vua).vector = done ++ vvua :: todo)
      (counted : (done.foldl decrementAttacker
        (visited.foldl (visitVictim F) st)).outReduct.bit vvua = true) :
      Decrementing F ua st
        (done.foldl decrementAttacker (visited.foldl (visitVictim F) st)) vvua

variable {F : AF} {A : VectorBitSet} {st st' mid : GroundedState} {P taken : List ℕ}
  {q ua vvua : ℕ} {result : PreProcResult} {out : VectorBitSet}

/-! ## The function and its runs -/

theorem GroundedStep.groundedLoop_succ (h : GroundedStep F q st ua st') (fuel : ℕ) :
    groundedLoop F q (fuel + 1) st = groundedLoop F q fuel st' := by
  cases h with
  | round head notQuery spares =>
    conv_lhs => unfold groundedLoop
    simp only [head]
    rw [if_neg notQuery, if_neg spares]
    rfl

/-- **The function passes through the states of a run.** -/
theorem groundedLoop_run (h : Transition.Run (GroundedStep F q) st taken st') (fuel : ℕ) :
    groundedLoop F q (taken.length + fuel) st = groundedLoop F q fuel st' := by
  induction h with
  | nil => rw [List.length_nil, Nat.zero_add]
  | cons first _ ih =>
    rw [List.length_cons, Nat.add_right_comm, first.groundedLoop_succ, ih]

theorem GroundedStops.groundedLoop_succ (h : GroundedStops F q st result) (fuel : ℕ) :
    groundedLoop F q (fuel + 1) st = some (result, st.outReduct) := by
  unfold groundedLoop
  cases h with
  | accepted head =>
    simp only [head]
    exact if_pos trivial
  | rejected head notQuery attacks =>
    simp only [head]
    rw [if_neg notQuery, if_pos attacks]
  | unknown empty => simp only [empty]

theorem GroundedStops.result_eq {found : PreProcResult} (h : GroundedStops F q st found) {k : ℕ}
    (hloop : groundedLoop F q (k + 1) st = some (result, out)) :
    found = result ∧ st.outReduct = out := by
  rw [h.groundedLoop_succ, Option.some.injEq, Prod.mk.injEq] at hloop
  exact hloop

/-- A call returns at once, or makes a step. -/
theorem groundedLoop_cases {fuel : ℕ} (h : groundedLoop F q fuel st = some (result, out)) :
    (GroundedStops F q st result ∧ st.outReduct = out) ∨
      ∃ k ua st', fuel = k + 1 ∧ GroundedStep F q st ua st' ∧
        groundedLoop F q k st' = some (result, out) := by
  cases hun : st.unprocessed with
  | nil =>
    unfold groundedLoop at h
    simp only [hun, Option.some.injEq, Prod.mk.injEq] at h
    obtain ⟨rfl, hout⟩ := h
    exact Or.inl ⟨.unknown hun, hout⟩
  | cons ua rest =>
    cases fuel with
    | zero =>
      unfold groundedLoop at h
      simp only [hun] at h
      exact absurd h (by simp)
    | succ k =>
      by_cases hq : ua = q
      · rw [hq] at hun
        have hstop : GroundedStops F q st .accepted := .accepted hun
        obtain ⟨rfl, hout⟩ := hstop.result_eq h
        exact Or.inl ⟨hstop, hout⟩
      · by_cases hbit : (F.victimsAt ua).bit q = true
        · have hstop : GroundedStops F q st .rejected := .rejected hun hq hbit
          obtain ⟨rfl, hout⟩ := hstop.result_eq h
          exact Or.inl ⟨hstop, hout⟩
        · have hstep : GroundedStep F q st ua _ := .round hun hq hbit
          rw [hstep.groundedLoop_succ] at h
          exact Or.inr ⟨k, ua, _, rfl, hstep, h⟩

/-- **Behind every result there is a run.** -/
theorem exists_run_of_groundedLoop (fuel : ℕ) (h : groundedLoop F q fuel st = some (result, out)) :
    ∃ taken st', Transition.Run (GroundedStep F q) st taken st' ∧
      GroundedStops F q st' result ∧ st'.outReduct = out := by
  induction fuel generalizing st with
  | zero =>
    rcases groundedLoop_cases h with ⟨hstop, hout⟩ | ⟨k, ua, st', hfuel, -⟩
    · exact ⟨[], st, .nil st, hstop, hout⟩
    · exact absurd hfuel.symm (Nat.succ_ne_zero k)
  | succ fuel ih =>
    rcases groundedLoop_cases h with ⟨hstop, hout⟩ | ⟨k, ua, st', hfuel, hstep, hloop⟩
    · exact ⟨[], st, .nil st, hstop, hout⟩
    · obtain rfl := Nat.succ.inj hfuel
      obtain ⟨taken, st'', hrun, hrest⟩ := ih hloop
      exact ⟨ua :: taken, st'', .cons hstep hrun, hrest⟩

/-! ## Inside a round -/

/-- What has been decremented before, and what is decremented next. -/
theorem Decrementing.exists_sublist {n : ℕ} (hR : VectorBitSet.Matches n st.outReduct)
    (h : Decrementing F ua st mid vvua) :
    ∃ l : List ℕ, mid = l.foldl decrementAttacker st ∧
      (l ++ [vvua]).Sublist (targets F st.outReduct ua) ∧ vvua ∈ st.outReduct.vector := by
  cases h with
  | @inner visited left done todo vua vvua victims active victimsOfVictim counted =>
    rw [foldl_visitVictim, foldl_decrementAttacker_outReduct] at active
    rw [foldl_visitVictim, foldl_decrementAttacker_outReduct, foldl_decrementAttacker_outReduct,
      hR.bit_iff] at counted
    refine ⟨_, by rw [foldl_visitVictim, ← List.foldl_append], ?_, counted⟩
    rw [targets, victims, List.filter_append, List.filter_cons_of_pos active, List.flatMap_append,
      List.flatMap_cons, victimsOfVictim, List.append_assoc]
    refine (List.Sublist.refl _).append ?_
    rw [List.append_assoc]
    refine (List.Sublist.refl _).append ?_
    exact ((List.nil_sublist todo).cons_cons vvua).trans (List.sublist_append_left _ _)

/-- **No decrement wraps.**  At every moment of the double loop the counter that is
decremented next really falls by one. -/
theorem GroundedInv.decrement (hF : F.Coherent) (h : GroundedInv F A q st P) {rest : List ℕ}
    (hmid : Decrementing F ua { st with unprocessed := rest } mid vvua) :
    (decrementAttacker mid vvua).numAttacker.getD vvua 0 + 1 = mid.numAttacker.getD vvua 0 := by
  have hagrees : VectorBitSet.Matches F.numArgs
      ({ st with unprocessed := rest } : GroundedState).outReduct := h.agrees
  obtain ⟨l, rfl, hsub, hmem⟩ := hmid.exists_sublist hagrees
  have hbefore := (h.foldl_sublist hF ((List.sublist_append_left l [vvua]).trans hsub) rest).counter
    vvua hmem
  have hafter := (h.foldl_sublist hF hsub rest).counter vvua hmem
  rw [List.foldl_append, List.foldl_cons, List.foldl_nil, List.count_append,
    List.count_singleton_self] at hafter
  omega

/-! ## From round to round -/

theorem GroundedInv.step (hF : F.Coherent) (h : GroundedInv F A q st P)
    (hstep : GroundedStep F q st ua st') : GroundedInv F A q st' (P ++ [ua]) := by
  cases hstep with
  | round head notQuery spares =>
    exact h.round hF head notQuery (fun hatt => spares ((hF.bit_victims ua q).mpr hatt)) rfl

/-- **The invariant of every run.** -/
theorem GroundedInv.run (hF : F.Coherent) (h : GroundedInv F A q st P)
    (hrun : Transition.Run (GroundedStep F q) st taken st') :
    GroundedInv F A q st' (P ++ taken) := by
  induction hrun generalizing P with
  | nil =>
    rw [List.append_nil]
    exact h
  | @cons st st₁ st₂ ua taken first _ ih =>
    have hrest := ih (h.step hF first)
    rwa [List.append_assoc, List.singleton_append] at hrest

/-- The list holds no argument twice: what has been taken off has left `out_reduct`, and what
waits is still there. -/
theorem GroundedInv.nodup_list (h : GroundedInv F A q st P) : (P ++ st.unprocessed).Nodup := by
  rw [List.nodup_append]
  refine ⟨h.nodup_processed, h.nodup_queue, ?_⟩
  rintro a haP b hb rfl
  have hmem := ((h.queue a).mp hb).1
  rw [h.vector, mem_reductVector] at hmem
  exact hmem.2.1 haP

/-- Everything that enters the list is an active argument. -/
theorem GroundedInv.length_list_le (h : GroundedInv F A q st P) :
    (P ++ st.unprocessed).length ≤ A.vector.length := by
  refine (List.subperm_of_subset h.nodup_list fun a ha => ?_).length_le
  rcases List.mem_append.mp ha with haP | hun
  · exact h.grounds.admissible.subset haP
  · exact h.mem_active ((h.queue a).mp hun).1

/-- On a set closed under attackers, what is counted are the attackers in `out_reduct`. -/
theorem GroundedInv.counter_eq (hF : F.Coherent) (h : GroundedInv F A q st P)
    (hclosed : ∀ a ∈ A.vector, ∀ b, F.att b a → b ∈ A.vector) {a : ℕ}
    (ha : a ∈ st.outReduct.vector) :
    st.numAttacker.getD a 0 = st.outReduct.vector.countP fun b => decide (F.att b a) := by
  rw [h.counter a ha, liveAttackers, List.countP_eq_length_filter, List.countP_eq_length_filter]
  refine ((List.perm_ext_iff_of_nodup ((hF.nodup_attackers a).filter _)
    (h.agrees.nodup.filter _)).mpr fun b => ?_).length_eq
  simp only [List.mem_filter, decide_eq_true_eq, hF.mem_attackers]
  constructor
  · rintro ⟨hba, hnever | hmem⟩
    · exact absurd (hclosed a (h.mem_active ha) b hba) hnever
    · exact ⟨hmem, hba⟩
  · rintro ⟨hmem, hba⟩
    exact ⟨hba, Or.inr hmem⟩

/-- What holds when a round of the loop starts.  `taken` has been taken off the list, and
`st.unprocessed` is the rest of it. -/
structure WorklistFacts (F : AF) (A : VectorBitSet) (q : ℕ) (taken : List ℕ) (st : GroundedState) :
    Prop where
  agrees : VectorBitSet.Matches F.numArgs st.outReduct
  counter : ∀ a ∈ st.outReduct.vector,
    st.numAttacker.getD a 0 = st.outReduct.vector.countP fun b => decide (F.att b a)
  decrement : ∀ ua rest mid vvua, st.unprocessed = ua :: rest →
    Decrementing F ua { st with unprocessed := rest } mid vvua →
      (decrementAttacker mid vvua).numAttacker.getD vvua 0 + 1 = mid.numAttacker.getD vvua 0
  once : (taken ++ st.unprocessed).Nodup
  active : ∀ a ∈ st.unprocessed, a ∈ st.outReduct.vector
  rounds : (taken ++ st.unprocessed).length ≤ A.vector.length
  reached : ∀ fuel,
    groundedLoop F q (taken.length + fuel) (groundedStart F A) = groundedLoop F q fuel st

theorem worklistFacts (hF : F.Coherent) (hA : VectorBitSet.Matches F.numArgs A) (hq : q ∈ A.vector)
    (hclosed : ∀ a ∈ A.vector, ∀ b, F.att b a → b ∈ A.vector)
    (hrun : Transition.Run (GroundedStep F q) (groundedStart F A) taken st) :
    WorklistFacts F A q taken st := by
  have hinv := (groundedInv_groundedStart hF hA hq).run hF hrun
  rw [List.nil_append] at hinv
  exact
    { agrees := hinv.agrees
      counter := fun a ha => hinv.counter_eq hF hclosed ha
      decrement := fun ua rest mid vvua _ hmid => hinv.decrement hF hmid
      once := hinv.nodup_list
      active := fun a ha => ((hinv.queue a).mp ha).1
      rounds := hinv.length_list_le
      reached := groundedLoop_run hrun }

/-- **The loop stops**, after at most as many rounds as there are active arguments. -/
theorem exists_groundedStops (hF : F.Coherent) (hA : VectorBitSet.Matches F.numArgs A)
    (hq : q ∈ A.vector) : ∃ taken st result,
      Transition.Run (GroundedStep F q) (groundedStart F A) taken st ∧
        GroundedStops F q st result ∧
        groundedLoop F q A.vector.length (groundedStart F A) = some (result, st.outReduct) ∧
        reduceByGrounded F A q = some (result, st.outReduct) := by
  have hstart := groundedInv_groundedStart hF hA hq
  obtain ⟨result, out, hloop, -⟩ := groundedLoop_spec hF A.vector.length hstart (by simp)
  obtain ⟨taken, st, hrun, hstop, rfl⟩ := exists_run_of_groundedLoop A.vector.length hloop
  refine ⟨taken, st, result, hrun, hstop, hloop, ?_⟩
  -- the spare round of `reduceByGrounded` is not used
  have hlen := (hstart.run hF hrun).length_list_le
  rw [List.nil_append, List.length_append] at hlen
  have hfuel : A.vector.length + 1 = taken.length + ((A.vector.length - taken.length) + 1) := by
    omega
  rw [reduceByGrounded, hfuel, groundedLoop_run hrun, hstop.groundedLoop_succ]

/-- **The worklist of `reduce_by_grounded`.**  For every set of active arguments that is closed
under attackers: whenever a round starts, the counter of an argument in `out_reduct` is the
number of its attackers there, each decrement of the round lowers a counter by one, no
argument has entered the list twice, and what waits is in `out_reduct`; and the loop
returns after at most as many rounds as there are active arguments. -/
theorem reduceByGrounded_worklist (W : WellFormed) (A : ActiveArgs W.n) {q : ℕ}
    (hq : q ∈ A.vector) (hclosed : ∀ a ∈ A.vector, ∀ b, W.af.att b a → b ∈ A.vector) :
    (∀ taken st,
      Transition.Run (GroundedStep W.af q) (groundedStart W.af A.toVectorBitSet) taken st →
        WorklistFacts W.af A.toVectorBitSet q taken st) ∧
    ∃ taken st result,
      Transition.Run (GroundedStep W.af q) (groundedStart W.af A.toVectorBitSet) taken st ∧
        GroundedStops W.af q st result ∧
        groundedLoop W.af q A.vector.length (groundedStart W.af A.toVectorBitSet) =
          some (result, st.outReduct) ∧
        reduceByGrounded W.af A.toVectorBitSet q = some (result, st.outReduct) :=
  ⟨fun _ _ hrun => worklistFacts W.coherent A.matches_af hq hclosed hrun,
    exists_groundedStops W.coherent A.matches_af hq⟩

/-- The framework `4 → 3`, `4 → 2`, `3 ↔ 2`, `3 → 1`, `2 → 1`: the victims of 4 attack each
other and share the victim 1. -/
def sharedFramework : WellFormed where
  n := 4
  calls := [(4, 3), (4, 2), (3, 2), (2, 3), (3, 1), (2, 1)]
  order := [(4, 3), (4, 2), (3, 2), (2, 3), (3, 1), (2, 1)]
  bound := choiceFramework.bound
  inRange := by decide
  iteration := iterationOrder_self (by decide)

/-- All arguments of `sharedFramework`. -/
def sharedActive : ActiveArgs sharedFramework.n where
  toVectorBitSet := VectorBitSet.ofList 4 [1, 2, 3, 4]
  agrees := VectorBitSet.matches_ofList (by decide) (by decide)
  pos := by decide

/-- The round on 4 decrements the counter of 1 twice, and 1 takes its place. -/
theorem reduceByGrounded_worklist_shared :
    ∃ st : GroundedState, st.unprocessed = [1] ∧
      st.outReduct = ⟨[1], [false, true, false, false, false]⟩ ∧
      WorklistFacts sharedFramework.af sharedActive.toVectorBitSet 1 [4] st := by
  have hall : ∀ p ∈ sharedFramework.af.attacks, p.1 ∈ sharedActive.vector := by decide
  have hhead :
      (groundedStart sharedFramework.af sharedActive.toVectorBitSet).unprocessed = [4] := by
    decide
  exact ⟨_, by decide, by decide, (reduceByGrounded_worklist sharedFramework sharedActive (q := 1)
    (by decide) fun a _ b hba => hall (b, a) hba).1 [4] _
      (.single (.round hhead (by decide) (by decide)))⟩

end AFAnalyzer
