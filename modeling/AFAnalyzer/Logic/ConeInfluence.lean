import AFAnalyzer.Dung.Grounded
import AFAnalyzer.Logic.Reduct
import Mathlib.Logic.Relation

/-!
# `calculate_cone_influence`: the arguments that can influence the query

The cone is collected breadth first along the attackers, over a list that grows
while it is iterated.  The field `distance_to_query` of the framework is both the
result and the visited marker: an argument with a positive distance is skipped, and
so is the query, whose distance is 0.

The list of unprocessed arguments is modelled from the iterator on, so a round of
the outer loop takes its head.  The loop has a fuel argument, and
`coneLoop_rule` shows that `numArgs` rounds are always enough.

Nothing resets the distances, so a later query starts from the marks of an earlier
one.  The result is therefore stated for arbitrary marks: `coneSet F query d` is the
set of arguments that reach the query along arguments unmarked in `d`.  For a fresh
framework it is the set of all arguments with an attack path to the query
(`coneSet_replicate`), which is closed under attackers (`attackClosed_coneSet`).
-/

namespace AFAnalyzer

/-- Unsigned 32-bit arithmetic. -/
def u32 (x : ℕ) : ℕ := x % 2 ^ 32

theorem u32_of_lt {x : ℕ} (h : x < 2 ^ 32) : u32 x = x := Nat.mod_eq_of_lt h

/-- The local variables of `calculate_cone_influence`, and the distances. -/
structure ConeState where
  active : VectorBitSet
  distances : List ℕ
  unprocessed : List ℕ

/-- The body of the inner loop, for one attacker of the current argument. -/
def visitAttacker (query distance : ℕ) (st : ConeState) (attacker : ℕ) : ConeState :=
  if 0 < st.distances.getD attacker 0 ∨ attacker = query then st
  else
    { active := st.active.push attacker
      distances := st.distances.set attacker (u32 (distance + 1))
      unprocessed := st.unprocessed ++ [attacker] }

/-- The outer loop; `none` when the fuel does not suffice. -/
def coneLoop (F : AF) (query : ℕ) (fuel : ℕ) (st : ConeState) : Option ConeState :=
  match st.unprocessed, fuel with
  | [], _ => some st
  | _ :: _, 0 => none
  | argument :: rest, fuel + 1 =>
    coneLoop F query fuel
      ((F.attackersAt argument).vector.foldl
        (visitAttacker query (st.distances.getD argument 0)) { st with unprocessed := rest })

/-- The state in which the outer loop starts. -/
def coneStart (F : AF) (query : ℕ) : ConeState where
  active := (VectorBitSet.cleared F.numArgs).push query
  distances := F.distanceToQuery.set query 0
  unprocessed := [query]

/-- `calculate_cone_influence`: the framework with its new distances, and the
active arguments. -/
def calculateConeInfluence (F : AF) (query : ℕ) : Option (AF × VectorBitSet) :=
  (coneLoop F query (F.numArgs + 1) (coneStart F query)).map fun st =>
    ({ F with distanceToQuery := st.distances }, st.active)

/-! ## The cone -/

/-- `y` attacks `x` and the traversal for `query` has not marked it in `d`. -/
def ConeStep (F : AF) (query : ℕ) (d : List ℕ) (x y : ℕ) : Prop :=
  F.att y x ∧ d.getD y 0 = 0 ∧ y ≠ query

/-- The arguments that reach the query along arguments unmarked in `d`. -/
def coneSet (F : AF) (query : ℕ) (d : List ℕ) : Set ℕ :=
  {a | Relation.ReflTransGen (ConeStep F query d) query a}

variable {F : AF} {q : ℕ} {d : List ℕ} {st : ConeState} {a b x : ℕ}

theorem query_mem_coneSet : q ∈ coneSet F q d := Relation.ReflTransGen.refl

theorem coneSet_tail (h : a ∈ coneSet F q d) (hb : F.att b a) (hd : d.getD b 0 = 0) :
    b ∈ coneSet F q d := by
  by_cases hq : b = q
  · rw [hq]
    exact query_mem_coneSet
  · exact Relation.ReflTransGen.tail h ⟨hb, hd, hq⟩

theorem coneSet_args (hF : F.Coherent) (hq : q ∈ F.args) (h : a ∈ coneSet F q d) :
    a ∈ F.args := by
  rcases Relation.ReflTransGen.cases_tail h with h | ⟨b, -, hb⟩
  · rwa [h]
  · exact (hF.att_args hb.1).1

/-- Without marks the cone is the set of arguments with an attack path to the
query. -/
theorem coneSet_replicate {k : ℕ} : coneSet F q (List.replicate k 0) =
    {a | Relation.ReflTransGen F.att a q} := by
  have hzero : ∀ y, (List.replicate k 0).getD y 0 = 0 := by
    intro y
    rw [List.getD_eq_getElem?_getD, List.getElem?_getD_replicate_default_eq]
  ext a
  constructor
  · intro h
    induction h with
    | refl => exact Relation.ReflTransGen.refl
    | tail _ hstep ih => exact Relation.ReflTransGen.head hstep.1 ih
  · intro h
    induction h using Relation.ReflTransGen.head_induction_on with
    | refl => exact query_mem_coneSet
    | head hstep _ ih => exact coneSet_tail ih hstep (hzero _)

/-- Without marks the cone is closed under attackers. -/
theorem attackClosed_coneSet (hF : F.Coherent) (hq : q ∈ F.args) (k : ℕ) :
    Dung.AttackClosed F.att F.args (coneSet F q (List.replicate k 0)) where
  subset := fun _ h => coneSet_args hF hq h
  closed := by
    intro a ha b _ hba
    rw [coneSet_replicate] at ha ⊢
    exact Relation.ReflTransGen.head hba ha

/-! ## One round of the inner loop -/

/-- What the traversal maintains.  The last field keeps the distances below the number
of arguments, so that the addition of one never wraps. -/
structure ConeInv (F : AF) (q : ℕ) (d : List ℕ) (st : ConeState) : Prop where
  agrees : VectorBitSet.Matches F.numArgs st.active
  reach : ∀ a ∈ st.active.vector, a ∈ coneSet F q d
  query_mem : q ∈ st.active.vector
  length : st.distances.length = F.numArgs + 1
  positive : ∀ a ∈ st.active.vector, a ≠ q → 0 < st.distances.getD a 0
  query_zero : st.distances.getD q 0 = 0
  outside : ∀ a, a ∉ st.active.vector → st.distances.getD a 0 = d.getD a 0
  below : ∀ i (h : i < st.active.vector.length),
    st.distances.getD (st.active.vector[i]) 0 ≤ i

theorem getD_set_self {l : List ℕ} {i v : ℕ} (h : i < l.length) : (l.set i v).getD i 0 = v := by
  rw [List.getD_eq_getElem?_getD, List.getElem?_set_self h]
  rfl

theorem getD_set_ne {l : List ℕ} {i j v : ℕ} (h : i ≠ j) :
    (l.set i v).getD j 0 = l.getD j 0 := by
  rw [List.getD_eq_getElem?_getD, List.getElem?_set_ne h, ← List.getD_eq_getElem?_getD]

theorem ConeInv.args (hF : F.Coherent) (hq : q ∈ F.args) (h : ConeInv F q d st) :
    ∀ a ∈ st.active.vector, a ∈ F.args :=
  fun a ha => coneSet_args hF hq (h.reach a ha)

theorem ConeInv.length_le (hF : F.Coherent) (hq : q ∈ F.args) (h : ConeInv F q d st) :
    st.active.vector.length ≤ F.numArgs :=
  h.agrees.length_vector_le fun a ha => (h.args hF hq a ha).1

/-- The addition of one does not wrap. -/
theorem ConeInv.u32_succ (hF : F.Coherent) (hq : q ∈ F.args) (h : ConeInv F q d st)
    {distance : ℕ} (hdist : distance < st.active.vector.length) :
    u32 (distance + 1) = distance + 1 := by
  have h1 := h.length_le hF hq
  have h2 := hF.bound
  exact u32_of_lt (by omega)

/-- The test of the inner loop asks whether an attacker has been collected or was
marked before. -/
theorem ConeInv.visited_iff (h : ConeInv F q d st) :
    (0 < st.distances.getD a 0 ∨ a = q) ↔ a ∈ st.active.vector ∨ 0 < d.getD a 0 := by
  by_cases hmem : a ∈ st.active.vector
  · by_cases haq : a = q
    · exact ⟨fun _ => Or.inl hmem, fun _ => Or.inr haq⟩
    · exact ⟨fun _ => Or.inl hmem, fun _ => Or.inl (h.positive a hmem haq)⟩
  · have haq : a ≠ q := fun haq => hmem (haq ▸ h.query_mem)
    rw [h.outside a hmem]
    simp [hmem, haq]

/-- **A new attacker keeps the invariant.** -/
theorem ConeInv.push (hF : F.Coherent) (hq : q ∈ F.args) (h : ConeInv F q d st)
    {distance : ℕ} (hx : x ∈ coneSet F q d) (ha : F.att a x)
    (hdist : distance < st.active.vector.length) (hnew : a ∉ st.active.vector)
    (hmark : d.getD a 0 = 0) :
    ConeInv F q d
      { active := st.active.push a
        distances := st.distances.set a (u32 (distance + 1))
        unprocessed := st.unprocessed ++ [a] } := by
  have harg : a ∈ F.args := (hF.att_args ha).1
  have haq : a ≠ q := fun haq => hnew (haq ▸ h.query_mem)
  have hlen : a < st.distances.length := by
    rw [h.length]
    exact Nat.lt_succ_of_le harg.2
  have hu32 := h.u32_succ hF hq hdist
  have hold : ∀ b ∈ st.active.vector,
      (st.distances.set a (u32 (distance + 1))).getD b 0 = st.distances.getD b 0 := by
    intro b hb
    exact getD_set_ne fun hab => hnew (hab ▸ hb)
  refine
    { agrees := h.agrees.push harg.2 hnew
      reach := ?_
      query_mem := List.mem_append_left _ h.query_mem
      length := by rw [List.length_set]; exact h.length
      positive := ?_
      query_zero := by rw [getD_set_ne haq]; exact h.query_zero
      outside := ?_
      below := ?_ }
  · intro b hb
    rw [VectorBitSet.push_vector, List.mem_append, List.mem_singleton] at hb
    rcases hb with hb | rfl
    · exact h.reach b hb
    · exact coneSet_tail hx ha hmark
  · intro b hb hbq
    rw [VectorBitSet.push_vector, List.mem_append, List.mem_singleton] at hb
    rcases hb with hb | rfl
    · rw [hold b hb]
      exact h.positive b hb hbq
    · rw [getD_set_self hlen, hu32]
      omega
  · intro b hb
    rw [VectorBitSet.push_vector, List.mem_append, List.mem_singleton, not_or] at hb
    rw [getD_set_ne fun hab => hb.2 hab.symm]
    exact h.outside b hb.1
  · intro i hi
    simp only [VectorBitSet.push_vector, List.length_append, List.length_singleton] at hi
    simp only [VectorBitSet.push_vector]
    by_cases hlt : i < st.active.vector.length
    · rw [List.getElem_append_left hlt, hold _ (List.getElem_mem hlt)]
      exact h.below i hlt
    · have hi' : i = st.active.vector.length := by omega
      subst hi'
      rw [List.getElem_concat_length rfl, getD_set_self hlen, hu32]
      omega

/-- What the inner loop does over a list `l` of attackers of `x`: the same new attackers
are appended to the active arguments and to the unprocessed ones, one step further from the
query, and every listed attacker that was not marked before is collected. -/
structure ConeRound (F : AF) (q : ℕ) (d : List ℕ) (x distance : ℕ) (l : List ℕ)
    (st st' : ConeState) : Prop where
  inv : ConeInv F q d st'
  append : ∃ new : List ℕ, st'.active.vector = st.active.vector ++ new ∧
    st'.unprocessed = st.unprocessed ++ new ∧
    ∀ y ∈ new, F.att y x ∧ st'.distances.getD y 0 = distance + 1
  kept : ∀ a ∈ st.active.vector, st'.distances.getD a 0 = st.distances.getD a 0
  collected : ∀ y ∈ l, d.getD y 0 = 0 → y ∈ st'.active.vector

/-- **The inner loop.** -/
theorem ConeInv.foldl (hF : F.Coherent) (hq : q ∈ F.args) {distance : ℕ}
    (hx : x ∈ coneSet F q d) (l : List ℕ) (hl : ∀ y ∈ l, F.att y x) (h : ConeInv F q d st)
    (hdist : distance < st.active.vector.length) :
    ConeRound F q d x distance l st (l.foldl (visitAttacker q distance) st) := by
  induction l generalizing st with
  | nil =>
    exact ⟨h, ⟨[], by simp, by simp, fun y hy => absurd hy List.not_mem_nil⟩, fun _ _ => rfl,
      fun y hy => absurd hy List.not_mem_nil⟩
  | cons a l ih =>
    have hl' : ∀ y ∈ l, F.att y x := fun y hy => hl y (List.mem_cons_of_mem a hy)
    rw [List.foldl_cons]
    by_cases hvis : 0 < st.distances.getD a 0 ∨ a = q
    · have hskip : visitAttacker q distance st a = st := if_pos hvis
      rw [hskip]
      obtain ⟨hinv, ⟨new, hnew, hun, hfresh⟩, hkept, hall⟩ := ih hl' h hdist
      refine ⟨hinv, ⟨new, hnew, hun, hfresh⟩, hkept, fun y hy hmark => ?_⟩
      rcases List.mem_cons.mp hy with rfl | hy
      · rcases h.visited_iff.mp hvis with hmem | hpos
        · rw [hnew]
          exact List.mem_append_left _ hmem
        · omega
      · exact hall y hy hmark
    · have hnot := mt h.visited_iff.mpr hvis
      rw [not_or, not_lt, Nat.le_zero] at hnot
      have hvisit : visitAttacker q distance st a =
          { active := st.active.push a
            distances := st.distances.set a (u32 (distance + 1))
            unprocessed := st.unprocessed ++ [a] } := if_neg hvis
      rw [hvisit]
      have hatt : F.att a x := hl a List.mem_cons_self
      have hpush := h.push hF hq hx hatt hdist hnot.1 hnot.2
      obtain ⟨hinv, ⟨new, hnew, hun, hfresh⟩, hkept, hall⟩ := ih hl' hpush (by
        simp only [VectorBitSet.push_vector, List.length_append, List.length_singleton]
        omega)
      have ha : a ∈ (st.active.push a).vector :=
        List.mem_append_right _ (List.mem_singleton.mpr rfl)
      have hlen : a < st.distances.length := by
        rw [h.length]
        exact Nat.lt_succ_of_le (hF.att_args hatt).1.2
      refine ⟨hinv, ⟨a :: new, ?_, ?_, fun y hy => ?_⟩, fun b hb => ?_, fun y hy hmark => ?_⟩
      · rw [hnew, VectorBitSet.push_vector, List.append_assoc, List.singleton_append]
      · rw [hun, List.append_assoc, List.singleton_append]
      · rcases List.mem_cons.mp hy with rfl | hy
        · refine ⟨hatt, (hkept y ha).trans ?_⟩
          rw [getD_set_self hlen, h.u32_succ hF hq hdist]
        · exact hfresh y hy
      · refine (hkept b (List.mem_append_left _ hb)).trans (getD_set_ne ?_)
        rintro rfl
        exact hnot.1 hb
      · rcases List.mem_cons.mp hy with rfl | hy
        · rw [hnew]
          exact List.mem_append_left _ ha
        · exact hall y hy hmark

/-! ## The outer loop -/

/-- `processed` has been taken off the list, and the unmarked attackers of its
members have been collected. -/
structure ConeProgress (F : AF) (d : List ℕ) (st : ConeState) (processed : List ℕ) : Prop where
  split : st.active.vector = processed ++ st.unprocessed
  collected : ∀ x ∈ processed, ∀ y, F.att y x → d.getD y 0 = 0 → y ∈ st.active.vector

theorem ConeProgress.of_unprocessed_nil {processed : List ℕ} (h : ConeProgress F d st processed)
    (hun : st.unprocessed = []) : ConeProgress F d st st.active.vector := by
  have hsplit : st.active.vector = processed := by
    rw [h.split, hun, List.append_nil]
  refine ⟨by rw [hun, List.append_nil], ?_⟩
  rw [hsplit]
  exact hsplit ▸ h.collected

/-- The distance of the argument whose turn it is does not exceed its position. -/
theorem ConeInv.distance_lt {processed rest : List ℕ} {argument : ℕ} (h : ConeInv F q d st)
    (hsplit : st.active.vector = processed ++ argument :: rest) :
    st.distances.getD argument 0 < st.active.vector.length := by
  have hlt : processed.length < st.active.vector.length := by
    rw [hsplit, List.length_append, List.length_cons]
    omega
  have hget : st.active.vector[processed.length] = argument := by
    simp only [hsplit]
    rw [List.getElem_append_right le_rfl]
    simp
  have hbelow := h.below processed.length hlt
  rw [hget] at hbelow
  omega

/-- A round of the outer loop takes one argument off the list and adds it to the processed
ones. -/
theorem ConeProgress.round {processed rest : List ℕ} {argument distance : ℕ} {st' : ConeState}
    (hF : F.Coherent) (hp : ConeProgress F d st processed) (hun : st.unprocessed = argument :: rest)
    (hround : ConeRound F q d argument distance (F.attackersAt argument).vector
      { st with unprocessed := rest } st') : ConeProgress F d st' (processed ++ [argument]) := by
  obtain ⟨new, hnew, hunp, -⟩ := hround.append
  have hsplit := hp.split
  rw [hun] at hsplit
  refine ⟨?_, fun x hx y hyx hmark => ?_⟩
  · rw [hnew, hunp]
    simp only [hsplit]
    simp
  · rcases List.mem_append.mp hx with hx | hx
    · rw [hnew]
      exact List.mem_append_left _ (hp.collected x hx y hyx hmark)
    · rw [List.mem_singleton.mp hx] at hyx
      exact hround.collected y ((hF.mem_attackers argument y).mpr hyx) hmark

/-- **The loop rule.**  `numArgs` rounds are enough, since every round takes an argument off
the list that was collected once, and what a round preserves holds at the end. -/
theorem coneLoop_rule (hF : F.Coherent) (hq : q ∈ F.args) {P : ConeState → List ℕ → Prop}
    (hP : ∀ (st st' : ConeState) (processed rest : List ℕ) (argument : ℕ), ConeInv F q d st →
      ConeProgress F d st processed → st.unprocessed = argument :: rest →
      ConeRound F q d argument (st.distances.getD argument 0) (F.attackersAt argument).vector
        { st with unprocessed := rest } st' → P st processed → P st' (processed ++ [argument]))
    (fuel : ℕ) {processed : List ℕ} (h : ConeInv F q d st) (hp : ConeProgress F d st processed)
    (hst : P st processed) (hfuel : F.numArgs ≤ processed.length + fuel) :
    ∃ st', coneLoop F q fuel st = some st' ∧ ConeInv F q d st' ∧
      ConeProgress F d st' st'.active.vector ∧ P st' st'.active.vector := by
  have hstop : st.unprocessed = [] → coneLoop F q fuel st = some st := by
    intro hun
    unfold coneLoop
    rw [hun]
  have hdone : st.unprocessed = [] → processed = st.active.vector := by
    intro hun
    rw [hp.split, hun, List.append_nil]
  induction fuel generalizing st processed with
  | zero =>
    have hlen := h.length_le hF hq
    rw [hp.split, List.length_append] at hlen
    have hnil : st.unprocessed = [] := List.eq_nil_of_length_eq_zero (by omega)
    exact ⟨st, hstop hnil, h, hp.of_unprocessed_nil hnil, hdone hnil ▸ hst⟩
  | succ fuel ih =>
    cases hun : st.unprocessed with
    | nil => exact ⟨st, hstop hun, h, hp.of_unprocessed_nil hun, hdone hun ▸ hst⟩
    | cons argument rest =>
      have hsplit := hp.split
      rw [hun] at hsplit
      have hmem : argument ∈ st.active.vector := by
        rw [hsplit]
        exact List.mem_append_right _ List.mem_cons_self
      have h' : ConeInv F q d { st with unprocessed := rest } := { h with }
      have hround := h'.foldl hF hq (h.reach argument hmem) (F.attackersAt argument).vector
        (fun y hy => (hF.mem_attackers argument y).mp hy) (h.distance_lt hsplit)
      have hprog := hp.round hF hun hround
      obtain ⟨st', hloop, hrest⟩ := ih hround.inv hprog (hP st _ processed rest argument h hp hun
        hround hst) (by
          rw [List.length_append, List.length_singleton]
          omega)
        (by intro hun; unfold coneLoop; rw [hun])
        (by intro hun; rw [hprog.split, hun, List.append_nil])
      refine ⟨st', ?_, hrest⟩
      rw [← hloop]
      conv_lhs => unfold coneLoop
      simp only [hun]

theorem coneInv_coneStart (hF : F.Coherent) (hq : q ∈ F.args) :
    ConeInv F q F.distanceToQuery (coneStart F q) where
  agrees := (VectorBitSet.matches_cleared F.numArgs).push hq.2 List.not_mem_nil
  reach := by
    intro a ha
    rw [List.mem_singleton.mp ha]
    exact query_mem_coneSet
  query_mem := List.mem_singleton.mpr rfl
  length := by rw [coneStart, List.length_set, hF.length_distance]
  positive := fun a ha haq => absurd (List.mem_singleton.mp ha) haq
  query_zero := getD_set_self (by rw [hF.length_distance]; exact Nat.lt_succ_of_le hq.2)
  outside := by
    intro a ha
    exact getD_set_ne fun hqa => ha (List.mem_singleton.mpr hqa.symm)
  below := by
    intro i hi
    have hi0 : i = 0 := by
      have : (coneStart F q).active.vector.length = 1 := rfl
      omega
    subst hi0
    exact (getD_set_self (by rw [hF.length_distance]; exact Nat.lt_succ_of_le hq.2)).le

/-- What a call of `calculate_cone_influence` leaves behind. -/
structure ConeResult (F : AF) (q : ℕ) (distances : List ℕ) (active : VectorBitSet) : Prop where
  agrees : VectorBitSet.Matches F.numArgs active
  args_eq : active.args = coneSet F q F.distanceToQuery
  length : distances.length = F.numArgs + 1
  positive : ∀ a ∈ active.vector, a ≠ q → 0 < distances.getD a 0
  query_zero : distances.getD q 0 = 0
  outside : ∀ a, a ∉ active.vector → distances.getD a 0 = F.distanceAt a

/-- **The cone is computed, whatever the distances were before.** -/
theorem calculateConeInfluence_spec (hF : F.Coherent) (hq : q ∈ F.args) :
    ∃ distances active, calculateConeInfluence F q =
        some ({ F with distanceToQuery := distances }, active) ∧
      ConeResult F q distances active := by
  have hstart : ConeProgress F F.distanceToQuery (coneStart F q) [] :=
    ⟨rfl, fun x hx => absurd hx List.not_mem_nil⟩
  obtain ⟨st, hloop, hinv, hprog, -⟩ := coneLoop_rule (P := fun _ _ => True) hF hq
    (fun _ _ _ _ _ _ _ _ _ _ => trivial) (F.numArgs + 1) (coneInv_coneStart hF hq) hstart trivial
    (by omega)
  refine ⟨st.distances, st.active, by rw [calculateConeInfluence, hloop]; rfl, ?_⟩
  refine ⟨hinv.agrees, ?_, hinv.length, hinv.positive, hinv.query_zero, hinv.outside⟩
  ext a
  refine ⟨hinv.reach a, fun h => ?_⟩
  induction h with
  | refl => exact hinv.query_mem
  | tail _ hstep ih => exact hprog.collected _ ih _ hstep.1 hstep.2.1

theorem ConeResult.mem_iff {distances : List ℕ} {active : VectorBitSet}
    (h : ConeResult F q distances active) :
    a ∈ active.vector ↔ a ∈ coneSet F q F.distanceToQuery := by
  rw [← VectorBitSet.mem_args, h.args_eq]

theorem ConeResult.query_mem {distances : List ℕ} {active : VectorBitSet}
    (h : ConeResult F q distances active) : q ∈ active.vector :=
  h.mem_iff.mpr query_mem_coneSet

end AFAnalyzer
